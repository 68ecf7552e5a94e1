import StackMachine.Proofs.Machine.Stepping
import StackMachine.Proofs.Native.Framing

/-!
# Registers are not seen from outside

Operands in registers make no difference. To whoever pushes, pops, looks at the top and flushes, a
stack with registers above it is the plain stack of all its operands: each access has the same
answer, also one that fails, and a flush changes nothing but where the operands are.

Compiled code goes on errands: it accesses globals and arrays, makes an array, prints and reads, or
hands control over. An errand is run with nothing in registers, on a machine whose operand stack
holds all operands but those that the errand takes. What compiled code does otherwise stays among
its operands and locals.

* `Spread.access`, `Spread.replay`: one access, and any number of them.
* `Workspace.Holds.execute`: an operation that is an errand.
* `Workspace.Holds.inside`: an operation that is none, or lacks operands.
* `Session.registers_unseen`: accesses, and every step of compiled code in every run.
-/

namespace StackMachine

namespace Native

/-! ## Accesses to the operands -/

/-- An access to the operands. -/
inductive Access where
  | push (w : Word)
  | pop
  | peek
  | flush

namespace Access

/-- What an access does to a stack with registers above it. Pushes are checked. -/
def cached : Access → EStateM Fault CachedStack (Option Word)
  | push w => do
    CachedStack.push true w
    return none
  | pop => do
    let w ← CachedStack.pop
    return some w
  | peek => fun c =>
    match c.peek with
    | .ok w => .ok (some w) c
    | .error e => .error e c
  | flush => do
    CachedStack.flush
    return none

/-- What it does to a plain stack, where there is nothing to flush. -/
def plain : Access → EStateM Fault OperandStack (Option Word)
  | push w => do
    OperandStack.push w
    return none
  | pop => do
    let w ← OperandStack.pop
    return some w
  | peek => fun s =>
    match s.peek with
    | .ok w => .ok (some w) s
    | .error e => .error e s
  | flush => return none

/-- The answers to accesses, one after the other, and what they leave behind. After an access that
    fails the next one is made all the same. -/
def replay {σ : Type} (act : Access → EStateM Fault σ (Option Word)) :
    List Access → σ → List (Except Fault (Option Word)) × σ
  | [], s => ([], s)
  | access :: rest, s =>
    match act access s with
    | .ok w s =>
      let (answers, s) := replay act rest s
      (.ok w :: answers, s)
    | .error e s =>
      let (answers, s) := replay act rest s
      (.error e :: answers, s)

/-- No access changes the limit. -/
theorem limit_plain (access : Access) (s : OperandStack) :
    Ensures (fun _ s' => s'.limit = s.limit) (fun _ s' => s'.limit = s.limit)
      (access.plain s) := by
  cases access with
  | push w =>
    have hpush : Ensures (fun _ s' => s'.limit = s.limit) (fun _ s' => s'.limit = s.limit)
        (OperandStack.push w s) := by
      unfold OperandStack.push
      split_ifs <;> rfl
    exact hpush.bind fun _ _ h => h
  | pop =>
    have hpop : Ensures (fun _ s' => s'.limit = s.limit) (fun _ s' => s'.limit = s.limit)
        (OperandStack.pop s) := by
      unfold OperandStack.pop
      split <;> rfl
    exact hpop.bind fun _ _ h => h
  | peek =>
    unfold plain
    dsimp only
    split <;> rfl
  | flush => rfl

end Access

namespace Spread

variable {c : CachedStack} {s : OperandStack}

/-- If pushes are checked, then it does not matter how much room there is. -/
theorem of_checked {room : Nat} (h : Spread true room c s) (room' : Nat) : Spread true room' c s :=
  h.anti fun hc => by cases hc

/-- One access: the answers are the same, and so are the operands after it. -/
theorem access (h : Spread true 0 c s) (access : Access) :
    Paired (fun a b c s => a = b ∧ Spread true 0 c s) (Spread true 0) (access.cached c)
      (access.plain s) := by
  cases access with
  | push w =>
    have hpush := ((h.of_checked 1).push (w := w)).weaken fun _ _ h => h.of_checked 0
    exact hpush.bind fun _ _ _ _ h => ⟨rfl, h⟩
  | pop =>
    refine h.pop.bind ?_
    rintro a _ c s ⟨rfl, h⟩
    exact ⟨rfl, h.of_checked 0⟩
  | peek =>
    unfold Access.cached Access.plain
    dsimp only
    rw [h.peek]
    cases s.peek with
    | ok w => exact ⟨rfl, h⟩
    | error e => exact ⟨rfl, h⟩
  | flush =>
    rw [Access.cached, bind_of_ok h.flush]
    exact ⟨rfl, .refl h.bounded fun hc => by cases hc⟩

/-- Any number of accesses. -/
theorem replay (h : Spread true 0 c s) (accesses : List Access) :
    ∃ answers c' s', Access.replay Access.cached accesses c = (answers, c') ∧
      Access.replay Access.plain accesses s = (answers, s') ∧ Spread true 0 c' s' ∧
      s'.limit = s.limit := by
  induction accesses generalizing c s with
  | nil => exact ⟨[], c, s, rfl, rfl, h, rfl⟩
  | cons access rest ih =>
    have hlimit := access.limit_plain s
    obtain ⟨w, _, c₁, s₁, hc, hs, rfl, h₁⟩ | ⟨e, c₁, s₁, hc, hs, h₁⟩ := (h.access access).cases
    · rw [hs] at hlimit
      obtain ⟨answers, c', s', hc', hs', h', hl⟩ := ih h₁
      refine ⟨.ok w :: answers, c', s', ?_, ?_, h', hl.trans hlimit⟩
      · rw [Access.replay, hc]
        simp only [hc']
      · rw [Access.replay, hs]
        simp only [hs']
    · rw [hs] at hlimit
      obtain ⟨answers, c', s', hc', hs', h', hl⟩ := ih h₁
      refine ⟨.error e :: answers, c', s', ?_, ?_, h', hl.trans hlimit⟩
      · rw [Access.replay, hc]
        simp only [hc']
      · rw [Access.replay, hs]
        simp only [hs']

end Spread

/-! ## Errands -/

/-- What compiled code does outside of its operands and locals, with the words that it takes from
    the operands for it. -/
inductive Errand where
  | loadGlobal (index : UInt16)
  | storeGlobal (index : UInt16) (w : Word)
  | newArray (length : Word)
  | loadElement (array index : Word)
  | storeElement (array index w : Word)
  | arrayLength (array : Word)
  | printInt (w : Word)
  | readInt
  | call (callee : UInt16)
  | leaveFrame
  | halt

namespace Errand

/-- The operation that goes on the errand. -/
def op : Errand → Op
  | loadGlobal index => .loadGlobal index
  | storeGlobal index _ => .storeGlobal index
  | newArray _ => .arrayNew
  | loadElement _ _ => .arrayLoad
  | storeElement _ _ _ => .arrayStore
  | arrayLength _ => .arrayLen
  | printInt _ => .printInt
  | readInt => .readInt
  | call callee => .call callee
  | leaveFrame => .ret
  | halt => .halt

/-- The operands that it takes, lowest first. -/
def operands : Errand → List Word
  | storeGlobal _ w => [w]
  | newArray length => [length]
  | loadElement array index => [array, index]
  | storeElement array index w => [array, index, w]
  | arrayLength array => [array]
  | printInt w => [w]
  | loadGlobal _ | readInt | call _ | leaveFrame | halt => []

/-- What is done on the machine, where there are no registers. Frames are pushed and popped where
    control is. -/
def act : Errand → Action Flow
  | loadGlobal index => do
    let w ← Machine.loadGlobal index
    Machine.push w
    return .next
  | storeGlobal index w => do
    Machine.storeGlobal index w
    return .next
  | newArray length => do
    let array ← Machine.newArray length
    Machine.push array
    return .next
  | loadElement array index => do
    let w ← Machine.loadElement array index
    Machine.push w
    return .next
  | storeElement array index w => do
    Machine.storeElement array index w
    return .next
  | arrayLength array => do
    let n ← Machine.arrayLength array
    Machine.push n
    return .next
  | printInt w => do
    Machine.printInt w
    return .next
  | readInt => do
    let w ← Machine.readInt
    Machine.push w
    return .next
  | call callee => return .call callee
  | leaveFrame => return .ret
  | halt => return .halt

end Errand

end Native

open Native

/-- The machine with the given operands on its stack. -/
def Machine.withOperands (m : Machine) (ws : List Word) : Machine :=
  { m with memory := { m.memory with stack := ⟨ws.toArray, m.memory.stack.limit⟩ } }

/-- Apart from operands and locals, the machine `m'` is what `m` was. -/
structure Machine.SameOutside (m m' : Machine) : Prop where
  rest : m' = { m with
    memory := { m.memory with stack := m'.memory.stack, calls := m'.memory.calls } }
  depth : m'.memory.calls.depth = m.memory.calls.depth

/-- Control stays in the function. -/
def Flow.IsLocal : Flow → Prop
  | .next | .jump _ => True
  | .call _ | .ret | .halt => False

namespace Native.Workspace

/-- The workspace is that of the machine `m` with the operands `ws`, of which some may be in
    registers. -/
inductive Holds (m : Machine) (ws : List Word) : Workspace → Prop
  | mk {stack : OperandStack} {registers : Registers}
      (operands : Spread true 0 ⟨stack, registers⟩ ⟨ws.toArray, m.memory.stack.limit⟩) :
      Holds m ws ⟨{ m with memory := { m.memory with stack } }, registers⟩

variable {α : Type} {m : Machine} {ws : List Word} {w : Workspace}

/-- Operands that are not too many are held. -/
theorem holds_of_le {registers : Registers}
    (h : CachedStack.size ⟨m.memory.stack, registers⟩ ≤ m.memory.stack.limit) :
    Holds m (CachedStack.toList ⟨m.memory.stack, registers⟩) ⟨m, registers⟩ := by
  have operands : Spread true 0 ⟨m.memory.stack, registers⟩
      ⟨(CachedStack.toList ⟨m.memory.stack, registers⟩).toArray, m.memory.stack.limit⟩ := by
    refine ⟨rfl, rfl, ?_, fun hc => by cases hc⟩
    rw [List.size_toArray, CachedStack.length_toList]
    exact h
  exact .mk operands

namespace Holds

theorem sameOutside (h : w.Holds m ws) : m.SameOutside w.machine := by
  obtain ⟨-⟩ := h
  exact ⟨rfl, rfl⟩

/-- A flush leaves nothing in registers and all operands on the stack. -/
theorem flush (h : w.Holds m ws) : Workspace.flush w = .ok () ⟨m.withOperands ws, .none⟩ := by
  obtain ⟨operands⟩ := h
  rw [Workspace.flush, onOperands_eq]
  dsimp only
  rw [operands.flush]
  rfl

/-- A pop takes the top operand. -/
theorem pop {v : Word} (h : w.Holds m (ws ++ [v])) :
    ∃ w', Workspace.pop w = .ok v w' ∧ w'.Holds m ws := by
  obtain ⟨operands⟩ := h
  have hplain : OperandStack.pop ⟨(ws ++ [v]).toArray, m.memory.stack.limit⟩ =
      .ok v ⟨ws.toArray, m.memory.stack.limit⟩ := by
    simp [OperandStack.pop]
  have hpaired := operands.pop
  rw [hplain] at hpaired
  obtain ⟨_, _, c, _, hc, hs, rfl, hspread⟩ | ⟨_, _, _, _, hs, _⟩ := hpaired.cases
  · obtain ⟨rfl, rfl⟩ := EStateM.Result.ok.inj hs
    rw [Workspace.pop, onOperands_eq]
    dsimp only
    rw [hc]
    exact ⟨_, rfl, .mk (hspread.of_checked 0)⟩
  · cases hs

/-- Without operands, a pop fails and changes nothing outside. -/
theorem pop_nil (h : w.Holds m []) :
    ∃ w', Workspace.pop w = .error .stackUnderflow w' ∧ m.SameOutside w'.machine := by
  obtain ⟨operands⟩ := h
  have hplain : OperandStack.pop ⟨[].toArray, m.memory.stack.limit⟩ =
      .error .stackUnderflow ⟨[].toArray, m.memory.stack.limit⟩ := rfl
  have hpaired := operands.pop
  rw [hplain] at hpaired
  obtain ⟨_, _, _, _, _, hs, _⟩ | ⟨_, c, _, hc, hs, _⟩ := hpaired.cases
  · cases hs
  · obtain ⟨rfl, -⟩ := EStateM.Result.error.inj hs
    rw [Workspace.pop, onOperands_eq]
    dsimp only
    rw [hc]
    exact ⟨_, rfl, rfl, rfl⟩

/-- What a pop does, whether or not there are operands. -/
theorem ensures_pop (h : w.Holds m ws) :
    Ensures (fun v w' => ∃ ws', ws = ws' ++ [v] ∧ w'.Holds m ws')
      (fun _ w' => m.SameOutside w'.machine) (Workspace.pop w) := by
  obtain rfl | ⟨ws', v, rfl⟩ := ws.eq_nil_or_concat
  · obtain ⟨w', hpop, hsame⟩ := h.pop_nil
    rw [hpop]
    exact hsame
  · rw [List.concat_eq_append] at h ⊢
    obtain ⟨w', hpop, hholds⟩ := h.pop
    rw [hpop]
    exact ⟨ws', rfl, hholds⟩

/-- An errand is run with nothing in registers, on the machine with the operands that are left. -/
theorem execute (checked : Bool) (e : Errand) (h : w.Holds m (ws ++ e.operands)) :
    Workspace.execute checked e.op w = onMachine e.act ⟨m.withOperands ws, .none⟩ := by
  -- once the operands are taken, a flush and the errand are left of the operation
  have hact {w : Workspace} (h : w.Holds m ws) {act : Action Unit} :
      (do Workspace.flush; onMachine act; return Flow.next : Work Flow) w =
        onMachine (do act; return Flow.next) ⟨m.withOperands ws, .none⟩ := by
    rw [bind_of_ok h.flush, onMachine_bind]
    rfl
  have hproduce {w : Workspace} (h : w.Holds m ws) {act : Action Word} :
      (do
        Workspace.flush
        onMachine (do let v ← act; Machine.push v)
        return Flow.next : Work Flow) w =
        onMachine (do let v ← act; Machine.push v; return Flow.next)
          ⟨m.withOperands ws, .none⟩ := by
    rw [hact h, bind_assoc]
  cases e with
  | loadGlobal index =>
    rw [Errand.operands, List.append_nil] at h
    exact hproduce h
  | storeGlobal index v =>
    obtain ⟨w₁, hpop, h₁⟩ := h.pop
    exact (bind_of_ok hpop).trans (hact h₁)
  | newArray length =>
    obtain ⟨w₁, hpop, h₁⟩ := h.pop
    exact (bind_of_ok hpop).trans (hproduce h₁)
  | loadElement array index =>
    rw [Errand.operands, List.append_cons] at h
    obtain ⟨w₁, hpop, h₁⟩ := h.pop
    obtain ⟨w₂, hpop₂, h₂⟩ := h₁.pop
    exact ((bind_of_ok hpop).trans (bind_of_ok hpop₂)).trans (hproduce h₂)
  | storeElement array index v =>
    rw [Errand.operands, List.append_cons, List.append_cons] at h
    obtain ⟨w₁, hpop, h₁⟩ := h.pop
    obtain ⟨w₂, hpop₂, h₂⟩ := h₁.pop
    obtain ⟨w₃, hpop₃, h₃⟩ := h₂.pop
    exact (((bind_of_ok hpop).trans (bind_of_ok hpop₂)).trans (bind_of_ok hpop₃)).trans (hact h₃)
  | arrayLength array =>
    obtain ⟨w₁, hpop, h₁⟩ := h.pop
    exact (bind_of_ok hpop).trans (hproduce h₁)
  | printInt v =>
    obtain ⟨w₁, hpop, h₁⟩ := h.pop
    exact (bind_of_ok hpop).trans (hact h₁)
  | readInt =>
    rw [Errand.operands, List.append_nil] at h
    exact hproduce h
  | call | leaveFrame | halt =>
    rw [Errand.operands, List.append_nil] at h
    exact bind_of_ok h.flush

end Holds

/-! ## Operations without errand -/

/-- The action changes nothing outside, also if it fails. -/
abbrev StaysInside (m : Machine) : EStateM.Result Fault Workspace α → Prop :=
  Ensures (fun _ w => m.SameOutside w.machine) fun _ w => m.SameOutside w.machine

theorem staysInside_onOperands (act : EStateM Fault CachedStack α)
    (h : m.SameOutside w.machine) : StaysInside m (onOperands act w) := by
  rw [onOperands_eq]
  cases act ⟨w.machine.memory.stack, w.registers⟩ with
  | ok a c => exact ⟨by rw [h.rest], h.depth⟩
  | error e c => exact ⟨by rw [h.rest], h.depth⟩

theorem staysInside_inspect (act : Workspace → Except Fault α) (h : m.SameOutside w.machine) :
    StaysInside m (inspect act w) := by
  unfold inspect
  cases act w <;> exact h

theorem staysInside_lookup (act : Machine → Except Fault α) (h : m.SameOutside w.machine) :
    StaysInside m (onMachine (Machine.inspect act) w) := by
  rw [onMachine_eq, Machine.inspect]
  cases act w.machine <;> exact h

theorem staysInside_storeLocal (index : UInt8) (v : Word) (h : m.SameOutside w.machine) :
    StaysInside m (onMachine (Machine.storeLocal index v) w) := by
  rw [onMachine_eq, Machine.storeLocal, Machine.onCalls_eq]
  cases hstore : CallStack.storeLocal index v w.machine.memory.calls with
  | ok _ calls =>
    exact ⟨by rw [h.rest], (CallStack.touched_of_storeLocal hstore).depth.trans h.depth⟩
  | error e calls =>
    rw [CallStack.eq_of_storeLocal_error hstore]
    exact h

/-- An operation that is no errand, or for which there are too few operands, changes nothing
    outside. -/
theorem Holds.inside (checked : Bool) (op : Op) (h : w.Holds m ws)
    (hop : ∀ (e : Errand) (ws' : List Word), e.op = op → ws ≠ ws' ++ e.operands) :
    Ensures (fun flow w => flow.IsLocal ∧ m.SameOutside w.machine)
      (fun _ w => m.SameOutside w.machine) (Workspace.execute checked op w) := by
  have hlast {α : Type} {w : Workspace} (h : m.SameOutside w.machine)
      (act : EStateM Fault CachedStack α) :
      Ensures (fun flow w => flow.IsLocal ∧ m.SameOutside w.machine)
        (fun _ w => m.SameOutside w.machine)
        ((do let _ ← onOperands act; return Flow.next : Work Flow) w) :=
    (staysInside_onOperands act h).bind fun _ _ h => ⟨trivial, h⟩
  have hsame := h.sameOutside
  cases op with
  | nop => exact ⟨trivial, hsame⟩
  | push v => exact hlast hsame _
  | pop => exact hlast hsame _
  | dup => exact (staysInside_inspect _ hsame).bind fun v w h => hlast h _
  | binary op =>
    refine (staysInside_onOperands CachedStack.pop hsame).bind fun b w h => ?_
    refine (staysInside_onOperands CachedStack.pop h).bind fun a w h => ?_
    exact (staysInside_inspect _ h).bind fun v w h => hlast h _
  | unary op =>
    exact (staysInside_onOperands CachedStack.pop hsame).bind fun a w h => hlast h _
  | jump branch target =>
    cases branch with
    | always => exact ⟨trivial, hsame⟩
    | ifZero | ifNotZero =>
      refine (staysInside_onOperands CachedStack.pop hsame).bind fun v w h => ⟨?_, h⟩
      split_ifs <;> trivial
  | loadLocal index => exact (staysInside_lookup _ hsame).bind fun v w h => hlast h _
  | storeLocal index =>
    refine (staysInside_onOperands CachedStack.pop hsame).bind fun v w h => ?_
    exact (staysInside_storeLocal index v h).bind fun _ _ h => ⟨trivial, h⟩
  | enterLeaf callee => exact (staysInside_lookup _ hsame).bind fun _ _ h => ⟨trivial, h⟩
  | exitLeaf =>
    change Ensures _ _ ((if w.hasOperands then pure Flow.next
      else do Workspace.push checked .zero; return Flow.next : Work Flow) w)
    split_ifs
    · exact ⟨trivial, hsame⟩
    · exact hlast hsame _
  -- the rest are errands: there are too few operands, so that a pop fails
  | loadGlobal index => exact absurd (List.append_nil ws).symm (hop (.loadGlobal index) ws rfl)
  | readInt => exact absurd (List.append_nil ws).symm (hop .readInt ws rfl)
  | call callee => exact absurd (List.append_nil ws).symm (hop (.call callee) ws rfl)
  | ret => exact absurd (List.append_nil ws).symm (hop .leaveFrame ws rfl)
  | halt => exact absurd (List.append_nil ws).symm (hop .halt ws rfl)
  | storeGlobal index =>
    refine h.ensures_pop.bind ?_
    rintro v _ ⟨ws', hws, -⟩
    exact absurd hws (hop (.storeGlobal index v) ws' rfl)
  | arrayNew =>
    refine h.ensures_pop.bind ?_
    rintro length _ ⟨ws', hws, -⟩
    exact absurd hws (hop (.newArray length) ws' rfl)
  | arrayLen =>
    refine h.ensures_pop.bind ?_
    rintro array _ ⟨ws', hws, -⟩
    exact absurd hws (hop (.arrayLength array) ws' rfl)
  | printInt =>
    refine h.ensures_pop.bind ?_
    rintro v _ ⟨ws', hws, -⟩
    exact absurd hws (hop (.printInt v) ws' rfl)
  | arrayLoad =>
    refine h.ensures_pop.bind ?_
    rintro index _ ⟨ws₁, rfl, h₁⟩
    refine h₁.ensures_pop.bind ?_
    rintro array _ ⟨ws₂, rfl, -⟩
    exact absurd (List.append_cons ws₂ array [index]).symm (hop (.loadElement array index) ws₂ rfl)
  | arrayStore =>
    refine h.ensures_pop.bind ?_
    rintro v _ ⟨ws₁, rfl, h₁⟩
    refine h₁.ensures_pop.bind ?_
    rintro index _ ⟨ws₂, rfl, h₂⟩
    refine h₂.ensures_pop.bind ?_
    rintro array _ ⟨ws₃, rfl, -⟩
    exact absurd (by simp [Errand.operands]) (hop (.storeElement array index v) ws₃ rfl)

end Native.Workspace

namespace State

/-- Runs an errand on a machine. Compiled code goes on with nothing in registers, or control leaves
    it. -/
def carryOut (setup : Setup) (a : Executing) (location : Location) (waiting : List Activation)
    (e : Errand) (m : Machine) : Progress :=
  match e.act m with
  | .error fault m => abort (.executing a :: waiting) fault location m
  | .ok .next m => .running ⟨.executing { a with ip := a.ip + 1, registers := .none }, waiting, m⟩
  | .ok (.jump target) m =>
    .running ⟨.executing { a with ip := target, registers := .none }, waiting, m⟩
  | .ok (.call callee) m => callFromNative setup a location callee waiting m
  | .ok .ret m => returnFromNative a location waiting m
  | .ok .halt m => halt (.executing a :: waiting) m

/-- What a step of compiled code leads to when it changes nothing but operands and locals. -/
inductive Inside (a : Executing) (waiting : List Activation) (m : Machine) : Progress → Prop
  | goesOn {ip : Nat} {registers : Registers} {m' : Machine} (same : m.SameOutside m') :
      Inside a waiting m (.running ⟨.executing { a with ip, registers }, waiting, m'⟩)
  | fails {fault : Fault} {location : Location} {m' : Machine} (same : m.SameOutside m') :
      Inside a waiting m (abort (.executing a :: waiting) fault location m')

end State

namespace Executing

/-- The operands of compiled code, bottom first. -/
def operands (a : Executing) (m : Machine) : List Word :=
  CachedStack.toList ⟨m.memory.stack, a.registers⟩

/-- Compiled code is about to go on the errand `e`: it has come to the operation for it, or to its
    end, where it halts. -/
def Faces (a : Executing) (e : Errand) (location : Location) : Prop :=
  a.routine.program.insts[a.ip]? = some ⟨e.op, location⟩ ∨
    a.routine.program.insts[a.ip]? = none ∧ e = .halt ∧
      location = ⟨a.routine.program.function, 0⟩

variable {setup : Setup} {a : Executing} {waiting : List Activation} {m : Machine}

theorem execute_of_faces {e : Errand} {location : Location} {ws : List Word}
    (h : Workspace.Holds m (a.operands m) ⟨m, a.registers⟩) (he : a.Faces e location)
    (hws : a.operands m = ws ++ e.operands) :
    State.execute setup a waiting m =
      State.carryOut setup a location waiting e (m.withOperands ws) := by
  rw [hws] at h
  rcases he with hinst | ⟨hend, rfl, rfl⟩
  · rw [execute_of_getElem? hinst]
    dsimp only
    rw [h.execute a.checked e, Workspace.onMachine_eq, State.carryOut]
    dsimp only
    cases e.act (m.withOperands ws) with
    | error fault m' => rfl
    | ok flow m' => cases flow <;> rfl
  · rw [Errand.operands, List.append_nil] at h
    rw [State.execute, hend]
    dsimp only
    rw [State.runOff, h.flush]
    rfl

theorem inside_of_not_faces (h : Workspace.Holds m (a.operands m) ⟨m, a.registers⟩)
    (hno : ∀ (e : Errand) (location : Location) (ws : List Word), a.Faces e location →
      a.operands m ≠ ws ++ e.operands) :
    State.Inside a waiting m (State.execute setup a waiting m) := by
  cases hinst : a.routine.program.insts[a.ip]? with
  | none =>
    exact absurd (List.append_nil _).symm (hno .halt _ (a.operands m) (.inr ⟨hinst, rfl, rfl⟩))
  | some inst =>
    obtain ⟨op, location⟩ := inst
    have hinside := h.inside a.checked op fun e ws he =>
      hno e location ws (.inl (by rw [hinst, he]))
    rw [execute_of_getElem? hinst]
    dsimp only
    cases hw : Workspace.execute a.checked op ⟨m, a.registers⟩ with
    | error fault w =>
      rw [hw] at hinside
      exact .fails hinside
    | ok flow w =>
      rw [hw] at hinside
      obtain ⟨hlocal, hsame⟩ := hinside
      cases flow with
      | next => exact .goesOn hsame
      | jump target => exact .goesOn hsame
      | call callee => exact hlocal.elim
      | ret => exact hlocal.elim
      | halt => exact hlocal.elim

end Executing

/-! ## Runs -/

/-- Compiled code that mirrors the interpreter has no more operands than the limit allows. -/
theorem Mirrors.size_le {image : Image} {a : Executing} {waiting : List Activation} {m : Machine}
    {t : State} (h : Mirrors image ⟨.executing a, waiting, m⟩ t) :
    CachedStack.size ⟨m.memory.stack, a.registers⟩ ≤ m.memory.stack.limit := by
  cases h with
  | executing _ twin _ _ _ =>
    have hsize : _ = m.memory.stack.words.size + a.registers.size := twin.operands.size_eq
    have hbounded := twin.operands.bounded
    have hlimit : m.memory.stack.limit = _ := twin.operands.limit
    show m.memory.stack.words.size + a.registers.size ≤ m.memory.stack.limit
    omega

theorem Session.size_le_of_visits (image : Image) (settings : Settings) (console : Console)
    (observed : Bool) (allocator : Allocator) {s : Session} {t : State} {a : Executing}
    (hs : (Session.begin image settings console observed allocator).Continues s)
    (ht : s.start.Visits s.setup t) (ha : t.active = .executing a) :
    CachedStack.size ⟨t.machine.memory.stack, a.registers⟩ ≤
      t.machine.memory.stack.limit := by
  have hsettled := (Session.settled_begin image settings console observed allocator).continues hs
  have hmatches : Matches image s.start s.uncompiled.start := hsettled.image ▸ hsettled.same.start
  obtain ⟨t', -, hmirrors⟩ := hmatches.visits hsettled.image hsettled.ready.image ht
  obtain ⟨active, waiting, m⟩ := t
  obtain rfl : active = .executing a := ha
  exact hmirrors.size_le

/-- **Registers are not seen from outside.** Take any operand stack within its limit, with nothing
    in registers above it, and any pushes, pops, looks at the top and flushes. Each has the same
    answer, a word, none or a fault, as on the plain stack, and the operands stay the same, of which
    at most two are in registers and no more than the limit allows are there at all; a flush
    succeeds then, and leaves the plain stack with nothing above it.

    In every step of compiled code, in every run of every session: no more operands are there than
    the limit allows, an errand is run with nothing in registers on a machine whose stack holds all
    operands but those that the errand takes, and without an errand, or without operands for it,
    nothing but operands and locals changes. -/
theorem Session.registers_unseen :
    (∀ (s : OperandStack) (accesses : List Access), s.size ≤ s.limit →
      ∃ answers c p, Access.replay Access.cached accesses ⟨s, .none⟩ = (answers, c) ∧
        Access.replay Access.plain accesses s = (answers, p) ∧
        c.toList = p.words.toList ∧ c.stack.limit = s.limit ∧ p.limit = s.limit ∧
        c.registers.toList.length ≤ 2 ∧ c.stack.size + c.registers.toList.length ≤ s.limit ∧
        CachedStack.flush c = .ok () ⟨p, .none⟩) ∧
      ∀ (image : Image) (settings : Settings) (console : Console) (observed : Bool)
        (allocator : Allocator) (s : Session) (t : State) (a : Executing),
        (Session.begin image settings console observed allocator).Continues s →
        s.start.Visits s.setup t → t.active = .executing a →
        (a.operands t.machine).length ≤ t.machine.memory.stack.limit ∧
        (∀ (e : Errand) (location : Location) (ws : List Word), a.Faces e location →
          a.operands t.machine = ws ++ e.operands →
          t.step s.setup =
            State.carryOut s.setup a location t.waiting e (t.machine.withOperands ws)) ∧
        ((∀ (e : Errand) (location : Location) (ws : List Word), a.Faces e location →
          a.operands t.machine ≠ ws ++ e.operands) →
          State.Inside a t.waiting t.machine (t.step s.setup)) := by
  constructor
  · intro s accesses hs
    have hspread : Spread true 0 ⟨s, .none⟩ s := .refl hs fun hc => by cases hc
    obtain ⟨answers, c, p, hc, hp, h, hlimit⟩ := hspread.replay accesses
    have hsize := h.size_eq
    have hbounded := h.bounded
    refine ⟨answers, c, p, hc, hp, h.words.symm, h.limit.trans hlimit, hlimit, ?_, ?_, h.flush⟩
    · cases c.registers <;> simp [Registers.toList]
    · rw [Registers.length_toList, OperandStack.size]
      omega
  · intro image settings console observed allocator s t a hs ht ha
    have hsize := Session.size_le_of_visits image settings console observed allocator hs ht ha
    have hholds := Workspace.holds_of_le hsize
    obtain ⟨active, waiting, m⟩ := t
    obtain rfl : active = .executing a := ha
    refine ⟨?_, ?_, ?_⟩
    · rw [Executing.operands, CachedStack.length_toList]
      exact hsize
    · intro e location ws he hws
      exact Executing.execute_of_faces hholds he hws
    · intro hno
      exact Executing.inside_of_not_faces hholds hno

/-- A program that makes an array while two more operands wait. -/
def Image.busy : Image where
  version := 1
  globals := 0
  entry := 0
  functions := #[⟨0, 0, 0, Code.ofInstrs
    [.pushInt 1, .pushInt 2, .pushInt 3, .arrayNew, .halt]⟩]

/-- What compiled code has in registers, and the operation that it has come to. -/
def Activation.position? : Activation → Option (Registers × Option Inst)
  | .interpreting _ => none
  | .executing a => some (a.registers, a.routine.program.insts[a.ip]?)

/-- The length of the array and the operand below it are in registers. The array is made with that
    operand on the stack. -/
theorem Session.registers_unseen_newArray :
    ∃ s t a, (Session.begin .busy .eager default false).Continues s ∧
      s.start.Visits s.setup t ∧ t.active = .executing a ∧
      t.machine.memory.stack.words = #[⟨1⟩] ∧ a.registers = .two ⟨2⟩ ⟨3⟩ ∧
      t.step s.setup = State.carryOut s.setup a ⟨0, 27⟩ t.waiting (.newArray ⟨3⟩)
        (t.machine.withOperands [⟨1⟩, ⟨2⟩]) := by
  have heval : ((Session.begin .busy .eager default false).start.after?
      (Session.begin .busy .eager default false).setup 3).map
        (fun t => (t.machine.memory.stack.words, t.active.position?)) =
      some (#[⟨1⟩], some (.two ⟨2⟩ ⟨3⟩, some ⟨.arrayNew, ⟨0, 27⟩⟩)) := by decide +kernel
  obtain ⟨⟨active, waiting, m⟩, ht, heq⟩ := Option.map_eq_some_iff.1 heval
  obtain ⟨hstack, hactive⟩ := Prod.mk.inj heq
  cases active with
  | interpreting a => cases hactive
  | executing a =>
    obtain ⟨hregisters, hinst⟩ := Prod.mk.inj (Option.some.inj hactive)
    have hs := Session.Continues.refl (Session.begin .busy .eager default false)
    have hvisits := Progress.visits_of_after? ht
    have hoperands : a.operands m = [⟨1⟩, ⟨2⟩] ++ [⟨3⟩] := by
      have hstack' : m.memory.stack.words = #[⟨1⟩] := hstack
      simp [Executing.operands, CachedStack.toList, Registers.toList, hregisters, hstack']
    refine ⟨_, _, a, hs, hvisits, rfl, hstack, hregisters, ?_⟩
    exact (Session.registers_unseen.2 .busy .eager default false .willing _ _ a hs hvisits rfl).2.1
      (.newArray ⟨3⟩) ⟨0, 27⟩ [⟨1⟩, ⟨2⟩] (.inl hinst) hoperands

end StackMachine
