import StackMachine.Proofs.Machine.Alike
import StackMachine.Proofs.Native.Registers

/-!
# A compiled operation does what its instruction does

`Twin` relates a workspace, where compiled code runs, to a machine that interprets: the operands
in the registers and on the stack of the one are the operands of the other, and apart from the
operands the two are `Alike`. `Twin.execute` and `Twin.jump` say that an operation on the one side
and its instruction on the other go together.
-/

namespace StackMachine.Native

/-- The machine `n` interprets what the workspace `w` executes. -/
structure Twin (image : Image) (links : List Link) (extra : List Frame) (checked : Bool)
    (room : Nat) (w : Workspace) (n : Machine) : Prop where
  alike : Alike image links extra w.machine n
  operands : Spread checked room ⟨w.machine.memory.stack, w.registers⟩ n.memory.stack

/-- The same, with nothing in the registers. -/
structure Flushed (image : Image) (links : List Link) (extra : List Frame) (checked : Bool)
    (room : Nat) (w : Workspace) (n : Machine) : Prop
    extends Twin image links extra checked room w n where
  registers : w.registers = .none

/-- What the two sides of a failed operation still have in common. -/
def Fallen (image : Image) (w : Workspace) (n : Machine) : Prop := Agrees image w.machine n

/-- Control goes the same way on both sides after the instruction `i`; `lands` relates the index
    that an operation jumps to and the offset that an instruction jumps to. While one side has
    further frames, control goes on or the program halts. -/
inductive Onward (i : Instr) (lands : Nat → Nat → Prop) (image : Image) (links : List Link)
    (extra : List Frame) (checked : Bool) (room : Nat) : Flow → Flow → Workspace → Machine → Prop
  | next {w n} (h : Twin image links extra checked room w n) : Onward i lands image links extra
      checked room .next .next w n
  | jump {w n target pc} (h : Twin image links extra checked room w n) (he : extra = [])
      (hl : lands target pc) :
      Onward i lands image links extra checked room (.jump target) (.jump pc) w n
  | call {w n callee} (h : Flushed image links extra checked room w n) (he : extra = [])
      (hi : i = .call callee) :
      Onward i lands image links extra checked room (.call callee) (.call callee) w n
  | ret {w n} (h : Flushed image links extra checked room w n) (he : extra = []) :
      Onward i lands image links extra checked room .ret .ret w n
  | halt {w n} (h : Flushed image links extra checked room w n) :
      Onward i lands image links extra checked room .halt .halt w n

namespace Workspace

variable {α β : Type}

theorem onOperands_eq (act : EStateM Fault CachedStack α) (w : Workspace) :
    onOperands act w = match act ⟨w.machine.memory.stack, w.registers⟩ with
      | .ok a c => .ok a
          ⟨{ w.machine with memory := { w.machine.memory with stack := c.stack } }, c.registers⟩
      | .error e c => .error e
          ⟨{ w.machine with memory := { w.machine.memory with stack := c.stack } },
            c.registers⟩ := by
  obtain ⟨⟨⟨stack, _, _, _⟩, _, _, _, _⟩, registers⟩ := w
  unfold onOperands
  cases h : act ⟨stack, registers⟩ <;> simp only [h]

theorem onMachine_eq (act : Action α) (w : Workspace) :
    onMachine act w = match act w.machine with
      | .ok a machine => .ok a ⟨machine, w.registers⟩
      | .error e machine => .error e ⟨machine, w.registers⟩ := rfl

theorem onMachine_bind (x : Action α) (f : α → Action β) :
    onMachine (x >>= f) = onMachine x >>= fun a => onMachine (f a) := by
  funext w
  change onMachine (EStateM.bind x f) w = EStateM.bind (onMachine x) _ w
  simp only [onMachine_eq, EStateM.bind]
  cases x w.machine <;> rfl

end Workspace

variable {image : Image} {links : List Link} {extra : List Frame} {checked : Bool} {room : Nat}
  {w : Workspace} {n : Machine} {v : Word} {α : Type}

/-! ## Operands -/

namespace Twin

theorem anti {room' : Nat} (h : Twin image links extra checked room w n)
    (hr : checked = false → room' ≤ room) : Twin image links extra checked room' w n :=
  ⟨h.alike, h.operands.anti hr⟩

/-- Operations on the operands that go together on the stacks go together on the machines. -/
theorem onOperands {room' : Nat} {act : EStateM Fault CachedStack α}
    {act' : EStateM Fault OperandStack α} (h : Twin image links extra checked room w n)
    (hact : Paired (fun a b c s => a = b ∧ Spread checked room' c s) (Spread checked room)
      (act ⟨w.machine.memory.stack, w.registers⟩) (act' n.memory.stack)) :
    Paired (fun a b w n => a = b ∧ Twin image links extra checked room' w n) (Fallen image)
      (Workspace.onOperands act w) (Machine.onStack act' n) := by
  rw [Workspace.onOperands_eq, Machine.onStack_eq]
  obtain ⟨a, b, c, s, hc, hs, rfl, hcs⟩ | ⟨e, c, s, hc, hs, hcs⟩ := hact.cases
  · rw [hc, hs]
    exact ⟨rfl, { h.alike with stackLimit := hcs.limit }, hcs⟩
  · rw [hc, hs]
    exact ⟨rfl, { h.alike.toAgrees with stackLimit := hcs.limit }⟩

theorem push (h : Twin image links extra checked (room + 1) w n) :
    Paired (fun _ _ w n => Twin image links extra checked room w n) (Fallen image)
      (Workspace.push checked v w) (Machine.push v n) :=
  (h.onOperands (h.operands.push.mono fun _ _ _ _ h => ⟨rfl, h⟩)).mono fun _ _ _ _ h => h.2

theorem pop (h : Twin image links extra checked room w n) :
    Paired (fun a b w n => a = b ∧ Twin image links extra checked (room + 1) w n) (Fallen image)
      (Workspace.pop w) (Machine.pop n) :=
  h.onOperands h.operands.pop

theorem inspect {f : Workspace → Except Fault α} {g : Machine → Except Fault α}
    (h : Twin image links extra checked room w n) (hfg : f w = g n) :
    Paired (fun a b w n => a = b ∧ Twin image links extra checked room w n) (Fallen image)
      (Workspace.inspect f w) (Machine.inspect g n) := by
  unfold Workspace.inspect Machine.inspect
  rw [hfg]
  cases g n with
  | ok a => exact ⟨rfl, h⟩
  | error e => exact ⟨rfl, h.alike.toAgrees⟩

theorem peek (h : Twin image links extra checked room w n) :
    Paired (fun a b w n => a = b ∧ Twin image links extra checked room w n) (Fallen image)
      (Workspace.peek w) (Machine.peek n) :=
  h.inspect h.operands.peek

/-- An action apart from the operands. -/
theorem aside {act act' : Action α} (h : Twin image links extra checked room w n)
    (hact : Paired (Aside image links extra w.machine n) (Agrees image) (act w.machine) (act' n)) :
    Paired (fun a b w' n' => a = b ∧ Twin image links extra checked room w' n' ∧
        w'.registers = w.registers) (Fallen image)
      (Workspace.onMachine act w) (act' n) := by
  rw [Workspace.onMachine_eq]
  obtain ⟨a, b, m', n', hm, hn, rfl, halike, hstack, hstack'⟩ | ⟨e, m', n', hm, hn, hmn⟩ :=
    hact.cases
  · rw [hm, hn]
    refine ⟨rfl, ⟨halike, ?_⟩, rfl⟩
    rw [hstack, hstack']
    exact h.operands
  · rw [hm, hn]
    exact ⟨rfl, hmn⟩

/-- A flush changes only the side where there are registers. -/
theorem flush (h : Twin image links extra checked room w n) :
    ∃ w', Workspace.flush w = .ok () w' ∧ Flushed image links extra checked room w' n := by
  refine ⟨⟨{ w.machine with memory := { w.machine.memory with stack := n.memory.stack } }, .none⟩,
    ?_, ⟨{ h.alike with stackLimit := rfl }, .refl h.operands.bounded h.operands.room⟩, rfl⟩
  rw [Workspace.flush, Workspace.onOperands_eq, h.operands.flush]

/-- What comes behind a flush. -/
theorem flush_bind {ok : α → α → Workspace → Machine → Prop} {f : Unit → Work α} {act : Action α}
    (h : Twin image links extra checked room w n)
    (k : ∀ w, Flushed image links extra checked room w n →
      Paired ok (Fallen image) (f () w) (act n)) :
    Paired ok (Fallen image) ((Workspace.flush >>= f) w) (act n) := by
  obtain ⟨w', hw', hflushed⟩ := h.flush
  rw [bind_of_ok hw']
  exact k w' hflushed

end Twin

namespace Flushed

theorem stack (h : Flushed image links extra checked room w n) :
    w.machine.memory.stack = n.memory.stack := by
  have hwords := h.operands.words
  rw [h.registers] at hwords
  have hw : w.machine.memory.stack.words = n.memory.stack.words := by
    apply Array.toList_inj.1
    simpa [CachedStack.toList, Registers.toList] using hwords.symm
  change OperandStack.mk w.machine.memory.stack.words w.machine.memory.stack.limit =
    OperandStack.mk n.memory.stack.words n.memory.stack.limit
  rw [hw, h.alike.stackLimit]

theorem aside {act act' : Action α} (h : Flushed image links extra checked room w n)
    (hact : Paired (Aside image links extra w.machine n) (Agrees image) (act w.machine) (act' n)) :
    Paired (fun a b w n => a = b ∧ Flushed image links extra checked room w n) (Fallen image)
      (Workspace.onMachine act w) (act' n) :=
  (h.toTwin.aside hact).mono fun _ _ _ _ ⟨hab, ht, hr⟩ => ⟨hab, ht, hr.trans h.registers⟩

/-- With nothing in the registers a word goes to the stack on both sides. -/
theorem push (h : Flushed image links extra checked (room + 1) w n) :
    Paired (fun _ _ w n => Flushed image links extra checked room w n) (Fallen image)
      (Workspace.onMachine (Machine.push v) w) (Machine.push v n) := by
  rw [Workspace.onMachine_eq, Machine.push, Machine.onStack_eq, Machine.onStack_eq, h.stack,
    OperandStack.push]
  split_ifs with hfull
  · exact ⟨rfl, { h.alike.toAgrees with stackLimit := rfl }⟩
  · refine ⟨⟨{ h.alike with stackLimit := rfl }, ?_⟩, h.registers⟩
    dsimp only
    rw [h.registers]
    have hroom := h.operands.room
    refine .refl ?_ fun hc => ?_
    · simp
      omega
    · have := hroom hc
      simp
      omega

end Flushed

/-! ## Operations -/

variable {lands : Nat → Nat → Prop}

/-- An action apart from the operands whose result is pushed. -/
theorem Flushed.onward {i : Instr} {act : Action Word}
    (h : Flushed image links extra checked (room + 1) w n)
    (hact : Paired (Aside image links extra w.machine n) (Agrees image) (act w.machine) (act n)) :
    Paired (Onward i lands image links extra checked room) (Fallen image)
      ((do Workspace.onMachine (do let v ← act; Machine.push v); return Flow.next : Work Flow) w)
      ((do let v ← act; Machine.push v; return Flow.next : Action Flow) n) := by
  rw [Workspace.onMachine_bind, bind_assoc]
  refine (h.aside hact).bind fun v _ _ _ ⟨hv, h⟩ => ?_
  subst hv
  exact h.push.bind fun _ _ _ _ h => .next h.toTwin

/-- An operation other than a jump does what its instruction does. Locals can be compared only
    where both sides have the same top frame. -/
theorem Twin.execute (k next length : Nat) (i : Instr) (hj : i.jumpOffset? = none)
    (hi : extra = [] ∨ i.isStraight) (he : ∀ f ∈ extra, f.locals = #[])
    (h : Twin image links extra checked (room + if (lower k i).grows then 1 else 0) w n) :
    Paired (Onward i (fun _ _ => False) image links extra checked room) (Fallen image)
      (Workspace.execute checked (lower k i) w) (Machine.interpret next length i n) := by
  cases i with
  | nop => exact .next h
  | pushInt v => exact Twin.push h |>.bind fun _ _ _ _ h => .next h
  | pushDouble pattern => exact Twin.push h |>.bind fun _ _ _ _ h => .next h
  | pop => exact h.pop.bind fun _ _ _ _ ⟨_, h⟩ => .next (h.anti fun _ => by omega)
  | dup =>
    refine h.peek.bind fun v _ _ _ ⟨hv, h⟩ => ?_
    subst hv
    exact Twin.push h |>.bind fun _ _ _ _ h => .next h
  | binary op =>
    refine h.pop.bind fun b _ _ _ ⟨hb, h⟩ => h.pop.bind fun a _ _ _ ⟨ha, h⟩ => ?_
    subst hb ha
    refine (h.inspect rfl).bind fun v _ _ _ ⟨hv, h⟩ => ?_
    subst hv
    exact h.push.bind fun _ _ _ _ h => .next (h.anti fun _ => by omega)
  | unary op =>
    refine h.pop.bind fun a _ _ _ ⟨ha, h⟩ => ?_
    subst ha
    exact h.push.bind fun _ _ _ _ h => .next h
  | jump branch offset => simp [Instr.jumpOffset?] at hj
  | call callee => exact h.flush_bind fun _ h => .call h (hi.resolve_right Bool.false_ne_true) rfl
  | ret => exact h.flush_bind fun _ h => .ret h (hi.resolve_right Bool.false_ne_true)
  | loadLocal index =>
    obtain rfl := hi.resolve_right Bool.false_ne_true
    refine (h.aside (h.alike.loadLocal index)).bind fun v _ _ _ ⟨hv, h, _⟩ => ?_
    subst hv
    exact Twin.push h |>.bind fun _ _ _ _ h => .next h
  | storeLocal index =>
    obtain rfl := hi.resolve_right Bool.false_ne_true
    refine h.pop.bind fun v _ _ _ ⟨hv, h⟩ => ?_
    subst hv
    exact (h.aside (h.alike.storeLocal index v)).bind fun _ _ _ _ ⟨_, h, _⟩ =>
      .next (h.anti fun _ => by omega)
  | loadGlobal index =>
    refine h.flush_bind fun w h => ?_
    exact Flushed.onward h (h.alike.inspect (by rw [h.alike.globals]))
  | storeGlobal index =>
    refine h.pop.bind fun v _ _ _ ⟨hv, h⟩ => ?_
    subst hv
    refine h.flush_bind fun w h => ?_
    exact (h.aside (h.alike.onGlobals _)).bind fun _ _ _ _ ⟨_, h⟩ =>
      .next (h.anti fun _ => by omega)
  | arrayNew =>
    refine h.pop.bind fun size _ _ _ ⟨hs, h⟩ => ?_
    subst hs
    refine h.flush_bind fun w h => ?_
    exact h.onward (h.alike.newArray size h.stack he)
  | arrayLoad =>
    refine h.pop.bind fun index _ _ _ ⟨hi, h⟩ => h.pop.bind fun array _ _ _ ⟨ha, h⟩ => ?_
    subst hi ha
    refine (h.anti fun _ => Nat.le_succ _).flush_bind fun w h => ?_
    exact h.onward (h.alike.inspect (by rw [h.alike.heap]))
  | arrayStore =>
    refine h.pop.bind fun v _ _ _ ⟨hv, h⟩ => h.pop.bind fun index _ _ _ ⟨hi, h⟩ =>
      h.pop.bind fun array _ _ _ ⟨ha, h⟩ => ?_
    subst hv hi ha
    refine h.flush_bind fun w h => ?_
    exact (h.aside (h.alike.onHeap _)).bind fun _ _ _ _ ⟨_, h⟩ => .next (h.anti fun _ => by omega)
  | arrayLen =>
    refine h.pop.bind fun array _ _ _ ⟨ha, h⟩ => ?_
    subst ha
    refine h.flush_bind fun w h => ?_
    exact h.onward (h.alike.inspect (by rw [h.alike.heap]))
  | printInt =>
    refine h.pop.bind fun v _ _ _ ⟨hv, h⟩ => ?_
    subst hv
    refine h.flush_bind fun w h => ?_
    exact (h.aside (h.alike.onConsole _)).bind fun _ _ _ _ ⟨_, h⟩ =>
      .next (h.anti fun _ => by omega)
  | readInt =>
    refine h.flush_bind fun w h => ?_
    exact Flushed.onward h (h.alike.onConsole _)
  | halt => exact h.flush_bind fun _ h => .halt h

/-- A jump goes on at the index that stands for the target of its instruction. -/
theorem Twin.jump (branch : Branch) {offset : Int32} {next length pc : Nat} (target : Nat)
    (ht : Code.jumpTarget next offset length = .ok pc)
    (h : Twin image links [] checked room w n) :
    Paired (Onward (.jump branch offset) (fun t p => t = target ∧ p = pc) image links []
        checked room) (Fallen image)
      (Workspace.execute checked (.jump branch target) w)
      (Machine.interpret next length (.jump branch offset) n) := by
  have hjump : ∀ n : Machine, (do
      let target ← Machine.inspect fun _ => Code.jumpTarget next offset length
      return Flow.jump target : Action Flow) n = .ok (.jump pc) n := by
    intro n
    have hi : Machine.inspect (fun _ => Code.jumpTarget next offset length) n = .ok pc n := by
      simp only [Machine.inspect, ht]
    rw [bind_of_ok hi]
    rfl
  cases branch with
  | always =>
    change Paired _ _ _ ((do
      let target ← Machine.inspect fun _ => Code.jumpTarget next offset length
      return Flow.jump target : Action Flow) n)
    rw [hjump]
    exact .jump h rfl ⟨rfl, rfl⟩
  | ifZero =>
    refine h.pop.bind fun v _ w n ⟨hv, h⟩ => ?_
    subst hv
    by_cases hz : v.isZero
    · rw [if_pos hz, if_pos hz, hjump]
      exact .jump (h.anti fun _ => by omega) rfl ⟨rfl, rfl⟩
    · rw [if_neg hz, if_neg hz]
      exact .next (h.anti fun _ => by omega)
  | ifNotZero =>
    refine h.pop.bind fun v _ w n ⟨hv, h⟩ => ?_
    subst hv
    by_cases hz : v.isZero
    · rw [if_pos hz, if_pos hz]
      exact .next (h.anti fun _ => by omega)
    · rw [if_neg hz, if_neg hz, hjump]
      exact .jump (h.anti fun _ => by omega) rfl ⟨rfl, rfl⟩

end StackMachine.Native
