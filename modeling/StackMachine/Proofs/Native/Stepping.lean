import StackMachine.Proofs.Machine.Stepping
import StackMachine.Proofs.Native.Lockstep

/-!
# What a step of compiled code does to the frames

An operation of compiled code keeps the number of frames. A call pushes one and leaves the caller
waiting; a `ret` pops one and lets the activation that waits go on.

* `ensures_execute`: what the parts of an operation keep, the operation keeps.
* `keepsDepth_execute`: the number of frames.
* `Executed`, `executed_of_running`: all that a step of compiled code can lead to.
-/

namespace StackMachine

open Native

/-! ## Operations -/

/-- Control returns only after a `ret`. -/
def Flow.FitsOp (op : Op) : Flow → Prop
  | .ret => op = .ret
  | _ => True

section Operations

variable {I F : Workspace → Prop}

theorem ensures_inspect {α : Type} (hfails : ∀ w, I w → F w) (act : Workspace → Except Fault α)
    {w : Workspace} (h : I w) :
    Ensures (fun _ => I) (fun _ => F) (Workspace.inspect act w) := by
  unfold Workspace.inspect
  cases act w with
  | ok a => exact h
  | error e => exact hfails w h

/-- What accesses to the operands and steady actions keep, an operation keeps. -/
theorem ensures_execute
    (hoperands : ∀ {α : Type} (act : EStateM Fault CachedStack α) {w : Workspace}, I w →
      Ensures (fun _ => I) (fun _ => F) (Workspace.onOperands act w))
    (hmachine : ∀ {α : Type} {act : Action α}, Machine.Steady True act → ∀ {w : Workspace}, I w →
      Ensures (fun _ => I) (fun _ => F) (Workspace.onMachine act w))
    (hfails : ∀ w, I w → F w) (checked : Bool) (op : Op) {w : Workspace} (h : I w) :
    Ensures (fun flow w => I w ∧ flow.FitsOp op) (fun _ => F)
      (Workspace.execute checked op w) := by
  -- an access that is the last thing an operation does, apart from where control goes
  have hlast {α : Type} (act : EStateM Fault CachedStack α) {w : Workspace} (h : I w) :
      Ensures (fun flow w => I w ∧ flow.FitsOp op) (fun _ => F)
        ((do let _ ← Workspace.onOperands act; return Flow.next : Work Flow) w) :=
    (hoperands act h).bind fun _ _ h => ⟨h, trivial⟩
  have hflush {act : Action Unit} (hact : Machine.Steady True act) {w : Workspace} (h : I w) :
      Ensures (fun flow w => I w ∧ flow.FitsOp op) (fun _ => F)
        ((do Workspace.flush; Workspace.onMachine act; return Flow.next : Work Flow) w) := by
    refine (hoperands CachedStack.flush h).bind fun _ w h => ?_
    exact (hmachine hact h).bind fun _ _ h => ⟨h, trivial⟩
  have hproduce {act : Action Word} (hact : Machine.Steady True act) :
      Machine.Steady True (do let w ← act; Machine.push w : Action Unit) :=
    .bind hact fun _ => .onStack trivial _
  cases op with
  | nop => exact ⟨h, trivial⟩
  | push v => exact hlast _ h
  | pop => exact hlast _ h
  | dup => exact (ensures_inspect hfails _ h).bind fun v w h => hlast _ h
  | binary op =>
    refine (hoperands CachedStack.pop h).bind fun b w h => ?_
    refine (hoperands CachedStack.pop h).bind fun a w h => ?_
    exact (ensures_inspect hfails _ h).bind fun v w h => hlast _ h
  | unary op => exact (hoperands CachedStack.pop h).bind fun a w h => hlast _ h
  | jump branch target =>
    cases branch with
    | always => exact ⟨h, trivial⟩
    | ifZero | ifNotZero =>
      refine (hoperands CachedStack.pop h).bind fun v w h => ⟨h, ?_⟩
      split_ifs <;> trivial
  | call callee | halt => exact (hoperands CachedStack.flush h).bind fun _ _ h => ⟨h, trivial⟩
  | ret => exact (hoperands CachedStack.flush h).bind fun _ _ h => ⟨h, rfl⟩
  | loadLocal index => exact (hmachine (.inspect _) h).bind fun v w h => hlast _ h
  | storeLocal index =>
    refine (hoperands CachedStack.pop h).bind fun v w h => ?_
    exact (hmachine (.storeLocal index v) h).bind fun _ _ h => ⟨h, trivial⟩
  | loadGlobal index => exact hflush (hproduce (.inspect _)) h
  | storeGlobal index =>
    exact (hoperands CachedStack.pop h).bind fun v w h => hflush (.onGlobals _) h
  | arrayNew =>
    exact (hoperands CachedStack.pop h).bind fun length w h => hflush (hproduce (.newArray _)) h
  | arrayLoad =>
    refine (hoperands CachedStack.pop h).bind fun index w h => ?_
    exact (hoperands CachedStack.pop h).bind fun array w h => hflush (hproduce (.inspect _)) h
  | arrayStore =>
    refine (hoperands CachedStack.pop h).bind fun v w h => ?_
    refine (hoperands CachedStack.pop h).bind fun index w h => ?_
    exact (hoperands CachedStack.pop h).bind fun array w h => hflush (.onHeap _) h
  | arrayLen =>
    exact (hoperands CachedStack.pop h).bind fun array w h => hflush (hproduce (.inspect _)) h
  | printInt =>
    exact (hoperands CachedStack.pop h).bind fun v w h => hflush (.onConsole _) h
  | readInt => exact hflush (hproduce (.onConsole _)) h
  | enterLeaf callee => exact (hmachine (.inspect _) h).bind fun _ _ h => ⟨h, trivial⟩
  | exitLeaf =>
    change Ensures _ _ ((if w.hasOperands then pure Flow.next
      else do Workspace.push checked .zero; return Flow.next : Work Flow) w)
    split_ifs
    · exact ⟨h, trivial⟩
    · exact hlast _ h

end Operations

/-! ## The number of frames -/

/-- An operation keeps the number of frames. -/
theorem keepsDepth_execute (checked : Bool) (op : Op) (w : Workspace) :
    Ensures (fun flow w' => w'.machine.memory.calls.depth = w.machine.memory.calls.depth ∧
      flow.FitsOp op) (fun _ _ => True) (Workspace.execute checked op w) := by
  refine ensures_execute
    (I := fun w' => w'.machine.memory.calls.depth = w.machine.memory.calls.depth)
    (F := fun _ => True) ?_ ?_ (fun _ _ => trivial) checked op rfl
  · intro α act w' h
    rw [Workspace.onOperands_eq]
    cases act ⟨w'.machine.memory.stack, w'.registers⟩ with
    | ok a c => exact h
    | error e c => trivial
  · intro α act hact w' h
    have htouches := hact.touches w'.machine
    rw [Workspace.onMachine_eq]
    cases hm : act w'.machine with
    | ok a m =>
      rw [hm] at htouches
      exact htouches.depth.trans h
    | error e m => trivial

/-! ## Steps -/

/-- What a step of compiled code leads to. -/
inductive Executed (a : Executing) (waiting : List Activation) (m : Machine) : State → Prop
  | moves {ip : Nat} {registers : Registers} {m' : Machine}
      (depth : m'.memory.calls.depth = m.memory.calls.depth) :
      Executed a waiting m ⟨.executing { a with ip, registers }, waiting, m'⟩
  | enters {g : UInt16} {m' : Machine}
      (depth : m'.memory.calls.depth = m.memory.calls.depth + 1) :
      Executed a waiting m ⟨.interpreting ⟨g, 0, m.memory.calls.depth + 1⟩,
        .executing { a with ip := a.ip + 1, registers := .none } :: waiting, m'⟩
  | starts {r : Routine} {m' : Machine}
      (depth : m'.memory.calls.depth = m.memory.calls.depth + 1) :
      Executed a waiting m ⟨State.executing r m',
        .executing { a with ip := a.ip + 1, registers := .none } :: waiting, m'⟩
  | resumes {location : Location} {next : Activation} {rest : List Activation} {m' : Machine}
      (hop : a.routine.program.insts[a.ip]? = some ⟨.ret, location⟩)
      (depth : m.memory.calls.depth = m'.memory.calls.depth + 1)
      (hwaiting : waiting = next :: rest) : Executed a waiting m ⟨next, rest, m'⟩

section Executed

variable {setup : Setup} {a : Executing} {waiting : List Activation} {m : Machine} {t : State}

theorem executed_of_call {g : UInt16} {location : Location} {n : Machine}
    (hn : n.memory.calls.depth = m.memory.calls.depth)
    (h : State.callFromNative setup a location g waiting n = .running t) :
    Executed a waiting m t := by
  have hpushed := pushed_enterCall setup.image g a.routine.program.function
    (some (location.pc + Opcode.call.size)) n
  rw [State.callFromNative] at h
  cases hm : Machine.enterCall setup.image g a.routine.program.function
      (some (location.pc + Opcode.call.size)) n with
  | error e m' =>
    simp only [hm] at h
    cases h
  | ok routine m' =>
    rw [hm] at hpushed
    have hdepth := Machine.Pushed.depth hpushed
    rw [hn] at hdepth
    simp only [hm, hn] at h
    cases routine with
    | none =>
      cases h
      exact .enters hdepth
    | some r =>
      cases h
      exact .starts hdepth

theorem executed_of_return {location : Location} {n : Machine}
    (hop : a.routine.program.insts[a.ip]? = some ⟨.ret, location⟩)
    (hn : n.memory.calls.depth = m.memory.calls.depth)
    (h : State.returnFromNative a location waiting n = .running t) : Executed a waiting m t := by
  have hpopped := popped_leaveFrame n
  rw [State.returnFromNative] at h
  cases hm : Machine.leaveFrame n with
  | error e m' =>
    rw [hm] at h
    cases h
  | ok r m' =>
    rw [hm] at h hpopped
    cases r with
    | finish value => cases h
    | resume function pc =>
      have hdepth := (hpopped function pc rfl).depth
      rw [hn] at hdepth
      cases waiting with
      | nil => cases h
      | cons next rest =>
        cases h
        exact .resumes hop hdepth rfl

/-- All that a step of compiled code can lead to. -/
theorem executed_of_running (h : State.execute setup a waiting m = .running t) :
    Executed a waiting m t := by
  cases hinst : a.routine.program.insts[a.ip]? with
  | none =>
    rw [State.execute, hinst] at h
    dsimp only at h
    rw [State.runOff] at h
    split at h
    · exact absurd h (State.halt_ne_running _ _ t)
    · cases h
  | some inst =>
    obtain ⟨op, location⟩ := inst
    rw [execute_of_getElem? hinst] at h
    have hkeeps := keepsDepth_execute a.checked op ⟨m, a.registers⟩
    cases hw : Workspace.execute a.checked op ⟨m, a.registers⟩ with
    | error e w =>
      simp only [hw] at h
      cases h
    | ok flow w =>
      obtain ⟨n, registers⟩ := w
      rw [hw] at hkeeps
      obtain ⟨hdepth, hfits⟩ := hkeeps
      simp only [hw] at h
      cases flow with
      | next =>
        cases h
        exact .moves hdepth
      | jump target =>
        cases h
        exact .moves hdepth
      | call g => exact executed_of_call hdepth h
      | ret =>
        obtain rfl : op = .ret := hfits
        exact executed_of_return hinst hdepth h
      | halt => exact absurd h (State.halt_ne_running _ _ t)

end Executed

end StackMachine
