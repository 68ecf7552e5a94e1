import StackMachine.Proofs.Machine.Alike
import StackMachine.Proofs.Machine.Faults

/-!
# What a step does to the frames

An instruction leaves the frames alone, apart from the locals of the top one. Only a call pushes a
frame, and only a `ret` pops one.

* `touches_interpret`: an instruction by itself.
* `Interpreted`, `interpreted_of_running`: all that a step of interpreted code can lead to.
-/

namespace StackMachine

/-! ## Frames that stay -/

/-- The frames are the same, up to the locals of the top one. -/
structure CallStack.Touched (s s' : CallStack) : Prop where
  limit : s'.limit = s.limit
  size : s'.frames.size = s.frames.size
  below : ∀ i : Nat, i + 1 < s.frames.size → s'.frames[i]? = s.frames[i]?
  links : ∀ i : Nat, s'.frames[i]?.map Frame.link = s.frames[i]?.map Frame.link

namespace CallStack

theorem Touched.refl (s : CallStack) : s.Touched s := ⟨rfl, rfl, fun _ _ => rfl, fun _ => rfl⟩

theorem Touched.trans {s s' s'' : CallStack} (h : s.Touched s') (h' : s'.Touched s'') :
    s.Touched s'' where
  limit := h'.limit.trans h.limit
  size := h'.size.trans h.size
  below i hi := (h'.below i (h.size ▸ hi)).trans (h.below i hi)
  links i := (h'.links i).trans (h.links i)

theorem Touched.depth {s s' : CallStack} (h : s.Touched s') : s'.depth = s.depth := h.size

theorem touched_of_storeLocal {index : UInt8} {w : Word} {s s' : CallStack}
    (h : CallStack.storeLocal index w s = .ok () s') : s.Touched s' := by
  unfold CallStack.storeLocal at h
  split at h
  · cases h
  · dsimp only at h
    split_ifs at h
    obtain ⟨-, rfl⟩ := EStateM.Result.ok.inj h
    refine ⟨rfl, Array.size_modify, ?_, ?_⟩
    · intro i hi
      rw [Array.getElem?_modify, if_neg (by omega)]
    · intro i
      rw [Array.getElem?_modify]
      split_ifs
      · rw [Option.map_map]
        rfl
      · rfl

end CallStack

section Actions

variable {α : Type} {m : Machine} {calls : CallStack}

/-- The action touches at most the locals of the top frame. -/
abbrev Touches (calls : CallStack) : EStateM.Result Fault Machine α → Prop :=
  Machine.Retains fun m => calls.Touched m.memory.calls

theorem touches_storeLocal (index : UInt8) (w : Word) (h : calls.Touched m.memory.calls) :
    Touches calls (Machine.storeLocal index w m) := by
  rw [Machine.storeLocal, Machine.onCalls_eq]
  cases hstore : CallStack.storeLocal index w m.memory.calls with
  | ok _ calls' => exact h.trans (CallStack.touched_of_storeLocal hstore)
  | error e calls' =>
    rw [CallStack.eq_of_storeLocal_error hstore]
    exact h

/-- A steady action pushes and pops no frame. -/
theorem Machine.Steady.touches {stack : Prop} {act : Action α} (hact : Machine.Steady stack act)
    (m : Machine) : Touches m.memory.calls (act m) :=
  hact.retains (fun _ _ _ h => h) (fun _ index w h => touches_storeLocal index w h)
    (fun _ _ _ _ _ _ h => h) (.refl _)

/-- An instruction touches at most the locals of the top frame. -/
theorem touches_interpret (next length : Nat) (i : Instr) (m : Machine) :
    Touches m.memory.calls (Machine.interpret next length i m) :=
  (Machine.steady_interpret next length i).touches m

/-! ## Calls and returns -/

/-- A frame that returns to `link` was pushed. -/
def Machine.Pushed (link : Link) (m m' : Machine) : Prop :=
  ∃ frame, frame.link = link ∧
    m'.memory.calls = ⟨m.memory.calls.frames.push frame, m.memory.calls.limit⟩

/-- The top frame, which returns to `link`, was popped, and there is a word on the stack. -/
structure Machine.Popped (link : Link) (m m' : Machine) : Prop where
  top : ∃ frame, m.memory.calls.frames.back? = some frame ∧ frame.link = link
  calls : m'.memory.calls = ⟨m.memory.calls.frames.pop, m.memory.calls.limit⟩
  stack : m'.memory.stack.isEmpty = false

theorem Machine.Pushed.depth {link : Link} {m m' : Machine} (h : m.Pushed link m') :
    m'.memory.calls.depth = m.memory.calls.depth + 1 := by
  obtain ⟨frame, -, hcalls⟩ := h
  rw [hcalls, CallStack.depth, CallStack.depth, Array.size_push]

theorem Machine.Popped.depth {link : Link} {m m' : Machine} (h : m.Popped link m') :
    m.memory.calls.depth = m'.memory.calls.depth + 1 := by
  obtain ⟨frame, hback, -⟩ := h.top
  have hpos := Array.size_pos_of_mem (Array.mem_of_back? hback)
  rw [h.calls, CallStack.depth, CallStack.depth, Array.size_pop]
  omega

/-- A call pushes a frame, which returns to where the caller says. -/
theorem pushed_enterCall (image : Image) (callee function : UInt16) (next : Option Nat)
    (m : Machine) :
    Ensures (fun _ m' => m.Pushed (function, next) m') (fun _ _ => True)
      (Machine.enterCall image callee function next m) := by
  have hframe : ∀ n : Machine, n.memory.calls = m.memory.calls →
      Ensures (fun _ m' => m.Pushed (function, next) m') (fun _ _ => True)
        (Machine.enterFrame image callee function next n) := by
    intro n h
    unfold Machine.enterFrame
    cases image.function? callee with
    | none => trivial
    | some f =>
      dsimp only
      by_cases hlocals : f.locals < f.arity
      · rw [if_pos hlocals]
        trivial
      rw [if_neg hlocals]
      refine (Machine.retains_inspect (P := (·.memory.calls = m.memory.calls)) _ h).followed
        fun _ n h => ?_
      refine (Machine.retains_popArguments (P := (·.memory.calls = m.memory.calls))
        (fun _ _ h => h) _ [] h).followed fun args n h => ?_
      rw [Machine.onCalls_eq, CallStack.push, h]
      split_ifs
      · trivial
      · exact ⟨_, rfl, rfl⟩
  rw [Machine.enterCall_eq]
  have henter := hframe { m with
    promotion := (m.promotion.onCall image callee).2.2
    journal := m.journal.logAll (m.promotion.onCall image callee).2.1 } rfl
  split
  · trivial
  next hn =>
    rw [hn] at henter
    split
    · exact henter
    · exact henter

/-- A return pops the top frame and goes where this one says. -/
theorem popped_leaveFrame (m : Machine) :
    Ensures (fun r m' => ∀ function pc, r = .resume function pc →
        m.Popped (function, some pc) m') (fun _ _ => True) (Machine.leaveFrame m) := by
  have hvalue : Machine.Retains (·.memory.calls = m.memory.calls) (Machine.popOrZero m) :=
    Machine.retains_onStack _ fun _ => rfl
  refine hvalue.followed fun value n h => ?_
  have hpop : Ensures (fun frame n' => m.memory.calls.frames.back? = some frame ∧
        n'.memory.calls = ⟨m.memory.calls.frames.pop, m.memory.calls.limit⟩) (fun _ _ => True)
      (Machine.onCalls CallStack.pop n) := by
    rw [Machine.onCalls_eq, CallStack.pop, h]
    cases m.memory.calls.frames.back? with
    | none => trivial
    | some frame => exact ⟨rfl, rfl⟩
  refine hpop.bind ?_
  rintro frame n' ⟨hback, hcalls⟩
  cases haddress : frame.returnAddress with
  | none =>
    intro function pc heq
    cases heq
  | some target =>
    have hpush : Ensures (fun _ n'' => n''.memory.calls = n'.memory.calls ∧
          n''.memory.stack.isEmpty = false) (fun _ _ => True) (Machine.push value n') := by
      rw [Machine.push, Machine.onStack_eq, OperandStack.push]
      split_ifs
      · trivial
      · exact ⟨rfl, by simp [OperandStack.isEmpty]⟩
    refine hpush.bind ?_
    rintro _ n'' ⟨hcalls', hstack⟩ function pc heq
    obtain ⟨rfl, rfl⟩ := Machine.Return.resume.inj heq
    exact ⟨⟨frame, hback, by rw [Frame.link, haddress]⟩, hcalls'.trans hcalls, hstack⟩

end Actions

/-! ## Where a state is -/

/-- The instruction at a location, if there is one. -/
def Image.instr? (image : Image) (l : Location) : Option Instr :=
  match image.function? l.function with
  | none => none
  | some f => if f.code.size ≤ l.pc then none else (f.code.decode l.pc).toOption

variable {image : Image}

theorem Image.instr?_of_decode {f : UInt16} {pc : Nat} {g : Image.Function} {i : Instr}
    (hg : image.function? f = some g) (hpc : pc < g.code.size) (hd : g.code.decode pc = .ok i) :
    image.instr? ⟨f, pc⟩ = some i := by
  simp only [Image.instr?, hg, if_neg (Nat.not_le.2 hpc), hd]
  rfl

theorem Image.instr?_eq_some {l : Location} {i : Instr} (h : image.instr? l = some i) :
    ∃ f, image.function? l.function = some f ∧ l.pc < f.code.size ∧
      f.code.decode l.pc = .ok i := by
  unfold Image.instr? at h
  split at h
  · cases h
  next f hf =>
    split_ifs at h with hpc
    refine ⟨f, hf, Nat.lt_of_not_le hpc, ?_⟩
    cases hd : f.code.decode l.pc with
    | error e =>
      rw [hd] at h
      cases h
    | ok j =>
      rw [hd] at h
      exact congrArg Except.ok (Option.some.inj h)

/-- Where the instruction stands that an activation executes next. Compiled code knows where its
    operations come from; behind the last one it is at the end of its function. -/
def Activation.location (image : Image) : Activation → Location
  | .interpreting a => ⟨a.function, a.pc⟩
  | .executing a =>
    match a.routine.program.insts[a.ip]? with
    | some inst => inst.location
    | none =>
      ⟨a.routine.program.function,
        ((image.function? a.routine.program.function).map (·.code.size)).getD 0⟩

/-- The instruction that a state executes next, in interpreted and in compiled code. -/
def State.next? (image : Image) (s : State) : Option Instr :=
  image.instr? (s.active.location image)

/-! ## Steps of interpreted code -/

/-- What a step of interpreted code leads to. -/
inductive Interpreted (image : Image) (a : Interpreting) (waiting : List Activation)
    (m : Machine) : State → Prop
  | moves {i : Instr} {pc : Nat} {m' : Machine} (hi : image.instr? ⟨a.function, a.pc⟩ = some i)
      (hcall : ∀ g, i ≠ .call g) (hret : i ≠ .ret)
      (touched : m.memory.calls.Touched m'.memory.calls) :
      Interpreted image a waiting m ⟨.interpreting { a with pc }, waiting, m'⟩
  | enters {g : UInt16} {m' : Machine} (hi : image.instr? ⟨a.function, a.pc⟩ = some (.call g))
      (pushed : m.Pushed (a.function, some (a.pc + Opcode.call.size)) m') :
      Interpreted image a waiting m ⟨.interpreting { a with function := g, pc := 0 }, waiting, m'⟩
  | starts {g : UInt16} {r : Native.Routine} {m' : Machine}
      (hi : image.instr? ⟨a.function, a.pc⟩ = some (.call g))
      (pushed : m.Pushed (a.function, some (a.pc + Opcode.call.size)) m') :
      Interpreted image a waiting m ⟨State.executing r m',
        .interpreting { a with pc := a.pc + Opcode.call.size } :: waiting, m'⟩
  | leaves {function : UInt16} {pc : Nat} {m' : Machine}
      (hi : image.instr? ⟨a.function, a.pc⟩ = some .ret)
      (popped : m.Popped (function, some pc) m') (floor : a.floor ≤ m'.memory.calls.depth) :
      Interpreted image a waiting m ⟨.interpreting { a with function, pc }, waiting, m'⟩
  | resumes {function : UInt16} {pc : Nat} {next : Activation} {rest : List Activation}
      {m' : Machine} (hi : image.instr? ⟨a.function, a.pc⟩ = some .ret)
      (popped : m.Popped (function, some pc) m') (floor : m'.memory.calls.depth < a.floor)
      (hwaiting : waiting = next :: rest) : Interpreted image a waiting m ⟨next, rest, m'⟩

section Steps

variable {setup : Setup} {a : Interpreting} {waiting : List Activation} {m : Machine} {t : State}

/-- A call pushes its frame, wherever the callee runs. -/
theorem Interpreted.pushed {a : Interpreting} {waiting : List Activation} {m : Machine} {t : State}
    {g : UInt16} (h : Interpreted image a waiting m t)
    (hcall : image.instr? ⟨a.function, a.pc⟩ = some (.call g)) :
    m.Pushed (a.function, some (a.pc + Opcode.call.size)) t.machine := by
  cases h with
  | moves hi hne _ _ => exact absurd (Option.some.inj (hi.symm.trans hcall)) (hne g)
  | enters _ pushed => exact pushed
  | starts _ pushed => exact pushed
  | leaves hi _ _ =>
    rw [hi] at hcall
    cases hcall
  | resumes hi _ _ _ =>
    rw [hi] at hcall
    cases hcall

theorem State.halt_ne_running (activations : List Activation) (m : Machine) (t : State) :
    State.halt activations m ≠ .running t := by
  rw [State.halt, Machine.popOrZero_eq]
  intro h
  cases h

theorem interpreted_of_call {g : UInt16} {n : Machine}
    (hi : setup.image.instr? ⟨a.function, a.pc⟩ = some (.call g))
    (hn : n.memory.calls = m.memory.calls)
    (h : State.callFromInterpreter setup a (a.pc + Opcode.call.size) g waiting n = .running t) :
    Interpreted setup.image a waiting m t := by
  have hpushed := pushed_enterCall setup.image g a.function (some (a.pc + Opcode.call.size)) n
  rw [State.callFromInterpreter] at h
  cases hm : Machine.enterCall setup.image g a.function (some (a.pc + Opcode.call.size)) n with
  | error e m' =>
    rw [hm] at h
    cases h
  | ok routine m' =>
    rw [hm] at h hpushed
    rw [Ensures, Machine.Pushed, hn] at hpushed
    cases routine with
    | none =>
      cases h
      exact .enters hi hpushed
    | some r =>
      cases h
      exact .starts hi hpushed

theorem interpreted_of_return {n : Machine}
    (hi : setup.image.instr? ⟨a.function, a.pc⟩ = some .ret)
    (hn : n.memory.calls = m.memory.calls)
    (h : State.returnFromInterpreter a waiting n = .running t) :
    Interpreted setup.image a waiting m t := by
  have hpopped := popped_leaveFrame n
  rw [State.returnFromInterpreter] at h
  cases hm : Machine.leaveFrame n with
  | error e m' =>
    rw [hm] at h
    cases h
  | ok r m' =>
    rw [hm] at h hpopped
    cases r with
    | finish value => cases h
    | resume function pc =>
      obtain ⟨htop, hcalls, hstack⟩ := hpopped function pc rfl
      rw [hn] at htop hcalls
      have hpopped' : m.Popped (function, some pc) m' := ⟨htop, hcalls, hstack⟩
      dsimp only at h
      split_ifs at h with hfloor
      · cases waiting with
        | nil => cases h
        | cons next rest =>
          cases h
          exact .resumes hi hpopped' hfloor rfl
      · cases h
        exact .leaves hi hpopped' (Nat.le_of_not_lt hfloor)

/-- All that a step of interpreted code can lead to. -/
theorem interpreted_of_running (h : State.interpret setup a waiting m = .running t) :
    Interpreted setup.image a waiting m t := by
  rw [State.interpret] at h
  cases hf : setup.image.function? a.function with
  | none =>
    rw [hf] at h
    cases h
  | some f =>
    simp only [hf] at h
    by_cases hend : f.code.size ≤ a.pc
    · rw [if_pos hend] at h
      exact absurd h (State.halt_ne_running waiting m t)
    rw [if_neg hend] at h
    cases hd : f.code.decode a.pc with
    | error e =>
      simp only [hd] at h
      cases h
    | ok i =>
      have hi : setup.image.instr? ⟨a.function, a.pc⟩ = some i :=
        Image.instr?_of_decode hf (Nat.lt_of_not_le hend) hd
      simp only [hd] at h
      obtain ⟨journal, hreport⟩ := report_eq setup a i m
      rw [hreport] at h
      have hfits := ensures_interpret (a.pc + i.size) f.code.size i { m with journal }
      have htouches := touches_interpret (a.pc + i.size) f.code.size i { m with journal }
      cases hm : Machine.interpret (a.pc + i.size) f.code.size i { m with journal } with
      | error e m' =>
        simp only [hm] at h
        cases h
      | ok flow m' =>
        rw [hm] at hfits htouches
        simp only [hm] at h
        cases flow with
        | call g =>
          obtain rfl : i = .call g := hfits
          obtain ⟨-, rfl⟩ := EStateM.Result.ok.inj hm
          exact interpreted_of_call (n := { m with journal }) hi rfl h
        | ret =>
          obtain rfl : i = .ret := hfits
          obtain ⟨-, rfl⟩ := EStateM.Result.ok.inj hm
          exact interpreted_of_return (n := { m with journal }) hi rfl h
        | halt => exact absurd h (State.halt_ne_running waiting m' t)
        | next | jump =>
          -- a call or a return would have said so
          cases h
          refine .moves hi ?_ ?_ htouches
          · rintro g rfl
            cases hm
          · rintro rfl
            cases hm

end Steps

end StackMachine
