import StackMachine.Proofs.Native.Promotion
import StackMachine.Proofs.Native.Stepping

/-!
# What a step does to control

A step looks at the active activation only. It leaves control there, hands it to a new activation,
gives it back to the one that waits, or ends the run; which activations wait makes no difference to
that, except that a fault without a place of its own is located at the call that the latest of them
made. `Move` is what a step decides, and `Move.upon` carries it out upon the activations that wait.

Along with control a step changes promotion: a call is counted, compiled code is entered, and left
when its activation returns or the run ends. Nothing else touches promotion.

* `keepsPromotion_interpret`, `keepsPromotion_execute`: instructions and operations.
* `State.exists_move`: all that a step can do to control and to promotion.
-/

namespace StackMachine

open Native

/-! ## Actions that leave promotion alone -/

section Keeps

variable {α : Type} {m : Machine} {p : Promotion}

/-- The action leaves promotion as it was, also if it fails. -/
abbrev KeepsPromotion (p : Promotion) : EStateM.Result Fault Machine α → Prop :=
  Machine.Retains (·.promotion = p)

theorem Machine.Steady.keepsPromotion {stack : Prop} {act : Action α}
    (hact : Machine.Steady stack act) (h : m.promotion = p) : KeepsPromotion p (act m) :=
  hact.retains (fun _ _ _ h => h) (fun _ _ _ h => Machine.retains_onCalls _ fun _ => h)
    (fun _ _ _ _ _ _ h => h) h

/-- An instruction leaves promotion alone. -/
theorem keepsPromotion_interpret (next length : Nat) (i : Instr) (h : m.promotion = p) :
    KeepsPromotion p (Machine.interpret next length i m) :=
  (Machine.steady_interpret next length i).keepsPromotion h

/-- An operation of compiled code leaves promotion alone. -/
theorem keepsPromotion_execute (checked : Bool) (op : Op) (w : Workspace) :
    Ensures (fun flow w' => w'.machine.promotion = w.machine.promotion ∧ flow.FitsOp op)
      (fun _ w' => w'.machine.promotion = w.machine.promotion)
      (Workspace.execute checked op w) := by
  refine ensures_execute (I := fun w' => w'.machine.promotion = w.machine.promotion)
    (F := fun w' => w'.machine.promotion = w.machine.promotion) ?_ ?_ (fun _ h => h) checked op rfl
  · intro α act w' h
    rw [Workspace.onOperands_eq]
    cases act ⟨w'.machine.memory.stack, w'.registers⟩ <;> exact h
  · intro α act hact w' h
    have hkeeps := hact.keepsPromotion h
    rw [Workspace.onMachine_eq]
    cases hm : act w'.machine <;> rw [hm] at hkeeps <;> exact hkeeps

theorem keepsPromotion_enterFrame (image : Image) (callee returnFunction : UInt16)
    (returnAddress : Option Nat) (h : m.promotion = p) :
    KeepsPromotion p (Machine.enterFrame image callee returnFunction returnAddress m) := by
  unfold Machine.enterFrame
  cases image.function? callee with
  | none => exact h
  | some f =>
    dsimp only
    by_cases hlocals : f.locals < f.arity
    · rw [if_pos hlocals]
      exact h
    · rw [if_neg hlocals]
      refine Ensures.bind (Machine.retains_inspect _ h) fun _ m₁ h₁ => ?_
      refine Ensures.bind (Machine.retains_popArguments (fun _ _ h => h) _ _ h₁)
        fun args m₂ h₂ => ?_
      exact Machine.retains_onCalls _ fun _ => h₂

theorem keepsPromotion_leaveFrame (h : m.promotion = p) :
    KeepsPromotion p (Machine.leaveFrame m) := by
  have hvalue : KeepsPromotion p (Machine.popOrZero m) := Machine.retains_onStack _ fun _ => h
  refine hvalue.bind fun value m₁ h₁ => ?_
  have hpop : KeepsPromotion p (Machine.onCalls CallStack.pop m₁) :=
    Machine.retains_onCalls _ fun _ => h₁
  refine hpop.bind fun frame m₂ h₂ => ?_
  cases frame.returnAddress with
  | none => exact h₂
  | some pc =>
    have hpush : KeepsPromotion p (Machine.push value m₂) := Machine.retains_onStack _ fun _ => h₂
    exact hpush.bind fun _ m₃ h₃ => h₃

end Keeps

/-! ## Calls -/

/-- Promotion after a call was counted, or as it was. -/
def Promotion.Counts (image : Image) (p q : Promotion) : Prop :=
  q = p ∨ ∃ f, q = (p.onCall image f).2.2

/-- A call is counted. If it is to run compiled, there is compiled code, and it is entered. -/
theorem promotion_enterCall (image : Image) (callee returnFunction : UInt16)
    (returnAddress : Option Nat) (m : Machine) :
    Ensures
      (fun routine m' => match routine with
        | none => m'.promotion = (m.promotion.onCall image callee).2.2
        | some r => (m.promotion.onCall image callee).2.2.routine? callee = some r ∧
            m'.promotion = (m.promotion.onCall image callee).2.2.enter)
      (fun _ m' => m'.promotion = (m.promotion.onCall image callee).2.2)
      (Machine.enterCall image callee returnFunction returnAddress m) := by
  have hframe := keepsPromotion_enterFrame image callee returnFunction returnAddress
    (m := { m with
      promotion := (m.promotion.onCall image callee).2.2
      journal := m.journal.logAll (m.promotion.onCall image callee).2.1 }) rfl
  rw [Machine.enterCall_eq]
  generalize Machine.enterFrame image callee returnFunction returnAddress { m with
    promotion := (m.promotion.onCall image callee).2.2
    journal := m.journal.logAll (m.promotion.onCall image callee).2.1 } = x at hframe
  cases x with
  | error e m' => exact hframe
  | ok _ m' =>
    replace hframe : m'.promotion = (m.promotion.onCall image callee).2.2 := hframe
    dsimp only
    split
    · exact hframe
    · next r hroutine =>
      split_ifs at hroutine
      exact ⟨hroutine, congrArg Promotion.enter hframe⟩

/-! ## Moves -/

/-- The function whose compiled code an activation executes. -/
def Activation.compiled? : Activation → Option UInt16
  | .interpreting _ => none
  | .executing a => some a.routine.program.function

/-- Leaves the compiled code of some functions, one after the other. -/
def Promotion.leaveAll (p : Promotion) (fs : List UInt16) : Promotion := fs.foldl Promotion.leave p

/-- What a step decides. -/
inductive Move where
  /-- Control stays with the activation, which goes on as `a`. -/
  | stays (a : Activation) (m : Machine)
  /-- Control goes to the activation `a`, and `back` waits for it. -/
  | calls (a back : Activation) (m : Machine)
  /-- Control goes back to the activation that waits. -/
  | returns (m : Machine)
  /-- The run ends. The activation is closed, those that wait are not yet. -/
  | ends (outcome : Except Failure Word) (m : Machine)
  /-- The run ends with a fault that has no place in the code of the activation. It is located where
      the activation was called, or at `base` if no other one waits for it. -/
  | strays (fault : Fault) (base : Option Location) (m : Machine)

/-- Carries a move out. -/
def Move.upon (waiting : List Activation) : Move → Progress
  | stays a m => .running ⟨a, waiting, m⟩
  | calls a back m => .running ⟨a, back :: waiting, m⟩
  | returns m => State.resume waiting m
  | ends outcome m => .ended ⟨outcome, State.close waiting m⟩
  | strays fault base m =>
    .ended ⟨.error ⟨fault, (State.callSite? waiting).or base⟩, State.close waiting m⟩

/-- A move of the activation `active`, and what it does to promotion. -/
inductive Move.Of (image : Image) (active : Activation) (p : Promotion) : Move → Prop
  | stays {a : Activation} {m : Machine} (same : a.compiled? = active.compiled?)
      (counts : p.Counts image m.promotion) : Of image active p (.stays a m)
  | descends {a back : Activation} {m : Machine} (same : back.compiled? = active.compiled?)
      (interpreted : a.compiled? = none) (counts : p.Counts image m.promotion) :
      Of image active p (.calls a back m)
  | invokes {a back : Activation} {m : Machine} {q : Promotion} {f : UInt16} {r : Routine}
      (same : back.compiled? = active.compiled?) (counts : p.Counts image q)
      (found : q.routine? f = some r) (compiled : a.compiled? = some r.program.function)
      (entered : m.promotion = q.enter) : Of image active p (.calls a back m)
  | returns {m : Machine} (left : m.promotion = p.leaveAll active.compiled?.toList) :
      Of image active p (.returns m)
  | ends {outcome : Except Failure Word} {m : Machine} {q : Promotion} (counts : p.Counts image q)
      (left : m.promotion = q.leaveAll active.compiled?.toList) :
      Of image active p (.ends outcome m)
  | strays {fault : Fault} {base : Option Location} {m : Machine}
      (entry : active.compiled?.isSome → base = some ⟨image.entry, 0⟩)
      (left : m.promotion = p.leaveAll active.compiled?.toList) :
      Of image active p (.strays fault base m)

namespace State

/-- Closing activations leaves their compiled code. -/
theorem promotion_close (activations : List Activation) (m : Machine) :
    (close activations m).promotion =
      m.promotion.leaveAll (activations.filterMap Activation.compiled?) := by
  induction activations generalizing m with
  | nil => rfl
  | cons a activations ih =>
    rw [close, List.foldl_cons]
    cases a with
    | interpreting a => exact ih m
    | executing a => exact ih { m with promotion := m.promotion.leave a.routine.program.function }

theorem close_append (inner outer : List Activation) (m : Machine) :
    close (inner ++ outer) m = close outer (close inner m) :=
  List.foldl_append

/-- The machine after the top word is taken, if there is one. -/
def popped (m : Machine) : Machine :=
  { m with memory := { m.memory with stack := m.memory.stack.popOrZero.2 } }

/-- To halt is to end with the top word. -/
theorem halt_eq (activations : List Activation) (m : Machine) :
    halt activations m = finish activations m.memory.stack.popOrZero.1 (popped m) := rfl

variable {setup : Setup} {m : Machine} {p : Promotion}

/-- When the run ends, the active activation is closed. -/
theorem ends_close (active : Activation) (outcome : Except Failure Word) (hm : m.promotion = p) :
    Move.Of setup.image active p (.ends outcome (close [active] m)) := by
  refine .ends (.inl rfl) ?_
  rw [promotion_close, hm]
  cases active <;> rfl

theorem exists_move_halt (active : Activation) (hm : m.promotion = p) :
    ∃ move, Move.Of setup.image active p move ∧
      ∀ waiting, halt (active :: waiting) m = move.upon waiting :=
  ⟨_, ends_close (m := popped m) active (.ok m.memory.stack.popOrZero.1) hm,
    fun waiting => halt_eq (active :: waiting) m⟩

section Interpreting

variable {a : Interpreting}

theorem exists_move_callFromInterpreter (next : Nat) (callee : UInt16) (hm : m.promotion = p) :
    ∃ move, Move.Of setup.image (.interpreting a) p move ∧
      ∀ waiting, callFromInterpreter setup a next callee waiting m = move.upon waiting := by
  have hcall := promotion_enterCall setup.image callee a.function (some next) m
  unfold callFromInterpreter
  rw [hm] at hcall
  cases hx : Machine.enterCall setup.image callee a.function (some next) m with
  | error fault m' =>
    rw [hx] at hcall
    exact ⟨.ends (.error ⟨fault, some ⟨a.function, a.pc⟩⟩) m', .ends (.inr ⟨callee, rfl⟩) hcall,
      fun _ => rfl⟩
  | ok routine m' =>
    rw [hx] at hcall
    cases routine with
    | none =>
      exact ⟨.stays (.interpreting { a with function := callee, pc := 0 }) m',
        .stays rfl (.inr ⟨callee, hcall⟩), fun _ => rfl⟩
    | some r =>
      exact ⟨.calls (executing r m') (.interpreting { a with pc := next }) m',
        .invokes rfl (.inr ⟨callee, rfl⟩) hcall.1 rfl hcall.2, fun _ => rfl⟩

theorem exists_move_returnFromInterpreter (hm : m.promotion = p) :
    ∃ move, Move.Of setup.image (.interpreting a) p move ∧
      ∀ waiting, returnFromInterpreter a waiting m = move.upon waiting := by
  have hleave := keepsPromotion_leaveFrame hm
  unfold returnFromInterpreter
  cases hx : Machine.leaveFrame m with
  | error fault m' =>
    rw [hx] at hleave
    exact ⟨_, ends_close (.interpreting a) (.error ⟨fault, some ⟨a.function, a.pc⟩⟩) hleave,
      fun _ => rfl⟩
  | ok target m' =>
    rw [hx] at hleave
    cases target with
    | finish value => exact ⟨_, ends_close (.interpreting a) (.ok value) hleave, fun _ => rfl⟩
    | resume function pc =>
      dsimp only
      by_cases hfloor : m'.memory.calls.depth < a.floor
      · refine ⟨.returns m', .returns hleave, fun waiting => ?_⟩
        rw [if_pos hfloor]
        rfl
      · refine ⟨.stays (.interpreting { a with function, pc }) m', .stays rfl (.inl hleave),
          fun waiting => ?_⟩
        rw [if_neg hfloor]
        rfl

theorem exists_move_interpret :
    ∃ move, Move.Of setup.image (.interpreting a) m.promotion move ∧
      ∀ waiting, interpret setup a waiting m = move.upon waiting := by
  unfold interpret
  cases setup.image.function? a.function with
  | none =>
    refine ⟨.strays (.invalidFunction a.function.toNat) none m, .strays nofun rfl,
      fun waiting => ?_⟩
    rw [Move.upon, Option.or_none]
  | some f =>
    dsimp only
    by_cases hend : f.code.size ≤ a.pc
    · simp only [if_pos hend]
      exact exists_move_halt (.interpreting a) rfl
    · simp only [if_neg hend]
      cases f.code.decode a.pc with
      | error fault => exact ⟨_, ends_close (.interpreting a) _ rfl, fun _ => rfl⟩
      | ok i =>
        obtain ⟨journal, hreport⟩ := report_eq setup a i m
        have hkeeps := keepsPromotion_interpret (a.pc + i.size) f.code.size i
          (m := report setup a i m) (p := m.promotion) (by rw [hreport])
        dsimp only
        cases hx : Machine.interpret (a.pc + i.size) f.code.size i (report setup a i m) with
        | error fault m' =>
          rw [hx] at hkeeps
          exact ⟨_, ends_close (.interpreting a) _ hkeeps, fun _ => rfl⟩
        | ok flow m' =>
          rw [hx] at hkeeps
          cases flow with
          | next =>
            exact ⟨.stays (.interpreting { a with pc := a.pc + i.size }) m',
              .stays rfl (.inl hkeeps), fun _ => rfl⟩
          | jump target =>
            exact ⟨.stays (.interpreting { a with pc := target }) m', .stays rfl (.inl hkeeps),
              fun _ => rfl⟩
          | call callee => exact exists_move_callFromInterpreter _ callee hkeeps
          | ret => exact exists_move_returnFromInterpreter hkeeps
          | halt => exact exists_move_halt (.interpreting a) hkeeps

end Interpreting

section Executing

variable {a : Executing}

theorem exists_move_callFromNative (location : Location) (callee : UInt16) (hm : m.promotion = p) :
    ∃ move, Move.Of setup.image (.executing a) p move ∧
      ∀ waiting, callFromNative setup a location callee waiting m = move.upon waiting := by
  have hcall := promotion_enterCall setup.image callee a.routine.program.function
    (some (location.pc + Opcode.call.size)) m
  unfold callFromNative
  rw [hm] at hcall
  generalize hback : ({ a with ip := a.ip + 1, registers := .none } : Executing) = back
  have hsame : (Activation.executing back).compiled? = (Activation.executing a).compiled? := by
    rw [← hback]
    rfl
  dsimp only
  cases hx : Machine.enterCall setup.image callee a.routine.program.function
      (some (location.pc + Opcode.call.size)) m with
  | error fault m' =>
    rw [hx] at hcall
    refine ⟨.ends (.error ⟨fault, some location⟩) (close [.executing back] m'),
      .ends (.inr ⟨callee, rfl⟩) ?_, fun _ => rfl⟩
    rw [promotion_close, ← hsame]
    exact congrArg (Promotion.leaveAll · _) hcall
  | ok routine m' =>
    rw [hx] at hcall
    cases routine with
    | none =>
      exact ⟨.calls (.interpreting ⟨callee, 0, m.memory.calls.depth + 1⟩) (.executing back) m',
        .descends hsame rfl (.inr ⟨callee, hcall⟩), fun _ => rfl⟩
    | some r =>
      exact ⟨.calls (executing r m') (.executing back) m',
        .invokes hsame (.inr ⟨callee, rfl⟩) hcall.1 rfl hcall.2, fun _ => rfl⟩

theorem exists_move_returnFromNative (location : Location) (hm : m.promotion = p) :
    ∃ move, Move.Of setup.image (.executing a) p move ∧
      ∀ waiting, returnFromNative a location waiting m = move.upon waiting := by
  have hleave := keepsPromotion_leaveFrame hm
  unfold returnFromNative
  cases hx : Machine.leaveFrame m with
  | error fault m' =>
    rw [hx] at hleave
    exact ⟨_, ends_close (.executing a) _ hleave, fun _ => rfl⟩
  | ok target m' =>
    rw [hx] at hleave
    cases target with
    | finish value => exact ⟨_, ends_close (.executing a) _ hleave, fun _ => rfl⟩
    | resume function pc =>
      refine ⟨.returns (close [.executing a] m'), .returns ?_, fun _ => rfl⟩
      rw [promotion_close]
      exact congrArg (Promotion.leaveAll · _) hleave

theorem exists_move_runOff :
    ∃ move, Move.Of setup.image (.executing a) m.promotion move ∧
      ∀ waiting, runOff setup a waiting m = move.upon waiting := by
  unfold runOff
  have hflush : Ensures (fun _ w => w.machine.promotion = m.promotion)
      (fun _ w => w.machine.promotion = m.promotion) (Workspace.flush ⟨m, a.registers⟩) := by
    rw [Workspace.flush, Workspace.onOperands_eq]
    cases CachedStack.flush ⟨m.memory.stack, a.registers⟩ <;> rfl
  cases hx : Workspace.flush ⟨m, a.registers⟩ with
  | ok _ w =>
    rw [hx] at hflush
    exact exists_move_halt (.executing a) hflush
  | error fault w =>
    rw [hx] at hflush
    replace hflush : w.machine.promotion = m.promotion := hflush
    refine ⟨.strays fault (some ⟨setup.image.entry, 0⟩) (close [.executing a] w.machine),
      .strays (fun _ => rfl) ?_, fun waiting => ?_⟩
    · rw [promotion_close, hflush]
      rfl
    · rw [Move.upon, Option.or_some]
      rfl

theorem exists_move_execute :
    ∃ move, Move.Of setup.image (.executing a) m.promotion move ∧
      ∀ waiting, execute setup a waiting m = move.upon waiting := by
  unfold execute
  cases a.routine.program.insts[a.ip]? with
  | none => exact exists_move_runOff
  | some inst =>
    have hkeeps := keepsPromotion_execute a.checked inst.op ⟨m, a.registers⟩
    dsimp only
    cases hx : Workspace.execute a.checked inst.op ⟨m, a.registers⟩ with
    | error fault w =>
      rw [hx] at hkeeps
      exact ⟨_, ends_close (.executing a) _ hkeeps, fun _ => rfl⟩
    | ok flow w =>
      obtain ⟨m', registers⟩ := w
      rw [hx] at hkeeps
      replace hkeeps : m'.promotion = m.promotion := hkeeps.1
      cases flow with
      | next =>
        exact ⟨.stays (.executing { a with ip := a.ip + 1, registers }) m',
          .stays rfl (.inl hkeeps), fun _ => rfl⟩
      | jump target =>
        exact ⟨.stays (.executing { a with ip := target, registers }) m',
          .stays rfl (.inl hkeeps), fun _ => rfl⟩
      | call callee => exact exists_move_callFromNative inst.location callee hkeeps
      | ret => exact exists_move_returnFromNative inst.location hkeeps
      | halt => exact exists_move_halt (.executing a) hkeeps

end Executing

/-- All that a step can do to control and to promotion. It does not depend on the activations that
    wait. -/
theorem exists_move (setup : Setup) (active : Activation) (m : Machine) :
    ∃ move, Move.Of setup.image active m.promotion move ∧
      ∀ waiting, step setup ⟨active, waiting, m⟩ = move.upon waiting := by
  cases active with
  | interpreting a => exact exists_move_interpret
  | executing a => exact exists_move_execute

end State

end StackMachine
