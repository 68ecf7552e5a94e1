import StackMachine.Session
import StackMachine.Proofs.Console
import StackMachine.Proofs.Heap.Collection
import StackMachine.Proofs.Machine.Calls
import StackMachine.Proofs.Machine.Stepping
import StackMachine.Proofs.Machine.Tame
import StackMachine.Proofs.Machine.Uniform

/-!
# Machines without arrays

What a machine has been through shows in its heap, which keeps the generations of its slots, in the
account of its collector, in its journal and in its streams. Two machines are `Abreast` when they
differ in nothing else, neither has an array, and their streams answer alike. As long as no array is
made, they stay so: a word that is used as an array fails on both in the same way.

* `respects_interpret`: an instruction that makes no array does the same on machines that are
  abreast.
* `Session.run_abreast`: two sessions over one image that start abreast run alike.
-/

namespace StackMachine

/-- The machines have the same operands, frames and globals and no arrays. Since their consoles were
    `c` and `c'`, they have used them in the same way. -/
structure Abreast (c c' : Console) (m n : Machine) : Prop where
  stack : m.memory.stack = n.memory.stack
  calls : m.memory.calls = n.memory.calls
  globals : m.memory.globals = n.memory.globals
  vacant : m.memory.heap.Vacant
  vacant' : n.memory.heap.Vacant
  console : Console.InStep c c' m.console n.console
  off : m.promotion.mode = .off
  off' : n.promotion.mode = .off

variable {c c' : Console} {α : Type}

/-! ## Parts of the machine -/

theorem respects_onStack (act : EStateM Fault OperandStack α) :
    Respects (Abreast c c') (Machine.onStack act) := by
  intro m n h
  rw [Machine.onStack_eq, Machine.onStack_eq, h.stack]
  cases act n.memory.stack with
  | ok a stack => exact ⟨rfl, { h with stack := rfl }⟩
  | error e stack => exact ⟨rfl, { h with stack := rfl }⟩

theorem respects_onCalls (act : EStateM Fault CallStack α) :
    Respects (Abreast c c') (Machine.onCalls act) := by
  intro m n h
  rw [Machine.onCalls_eq, Machine.onCalls_eq, h.calls]
  cases act n.memory.calls with
  | ok a calls => exact ⟨rfl, { h with calls := rfl }⟩
  | error e calls => exact ⟨rfl, { h with calls := rfl }⟩

theorem respects_onGlobals (act : EStateM Fault Globals α) :
    Respects (Abreast c c') (Machine.onGlobals act) := by
  intro m n h
  rw [Machine.onGlobals_eq, Machine.onGlobals_eq, h.globals]
  cases act n.memory.globals with
  | ok a globals => exact ⟨rfl, { h with globals := rfl }⟩
  | error e globals => exact ⟨rfl, { h with globals := rfl }⟩

theorem respects_onConsole {act : EStateM Fault Console α}
    (hact : Respects (Console.InStep c c') act) :
    Respects (Abreast c c') (Machine.onConsole act) := by
  intro m n h
  rw [Machine.onConsole_eq, Machine.onConsole_eq]
  obtain ⟨a, b, d, d', hm, hn, hab, hconsole⟩ | ⟨e, d, d', hm, hn, hconsole⟩ :=
    (hact h.console).cases
  · rw [hm, hn]
    exact ⟨hab, { h with console := hconsole }⟩
  · rw [hm, hn]
    exact ⟨rfl, { h with console := hconsole }⟩

/-- Looking up something that the machines have in common. -/
theorem respects_inspect {f : Machine → Except Fault α}
    (hf : ∀ m n, Abreast c c' m n → f m = f n) :
    Respects (Abreast c c') (Machine.inspect f) := by
  intro m n h
  rw [Machine.inspect, Machine.inspect, hf m n h]
  cases f n with
  | ok a => exact ⟨rfl, h⟩
  | error e => exact ⟨rfl, h⟩

/-! ## Arrays -/

theorem Heap.locate_of_get {h : Heap} {array : Word} {e : Fault} (index : Word)
    (hget : h.get array = .error e) : h.locate array index = .error e := by
  unfold Heap.get at hget
  unfold Heap.locate
  cases hw : array.handle? with
  | none =>
    rw [hw] at hget
    exact congrArg Except.error (Except.error.inj hget)
  | some handle =>
    rw [hw] at hget
    dsimp only at hget ⊢
    cases hr : h.resolve? handle with
    | none =>
      rw [hr] at hget
      exact congrArg Except.error (Except.error.inj hget)
    | some words =>
      rw [hr] at hget
      cases hget

theorem respects_loadElement (array index : Word) :
    Respects (Abreast c c') (Machine.loadElement array index) := by
  obtain ⟨e, he⟩ := Heap.exists_get_of_vacant array
  refine respects_inspect fun m n h => ?_
  rw [Heap.load, Heap.load, he _ h.vacant, he _ h.vacant']

theorem respects_arrayLength (array : Word) :
    Respects (Abreast c c') (Machine.arrayLength array) := by
  obtain ⟨e, he⟩ := Heap.exists_get_of_vacant array
  refine respects_inspect fun m n h => ?_
  rw [Heap.length, Heap.length, he _ h.vacant, he _ h.vacant']

theorem respects_storeElement (array index w : Word) :
    Respects (Abreast c c') (Machine.storeElement array index w) := by
  obtain ⟨e, he⟩ := Heap.exists_get_of_vacant array
  intro m n h
  rw [Machine.storeElement, Machine.onHeap_eq, Machine.onHeap_eq, Heap.store, Heap.store,
    Heap.locate_of_get index (he _ h.vacant), Heap.locate_of_get index (he _ h.vacant')]
  exact ⟨rfl, h⟩

/-! ## Instructions -/

theorem respects_push (w : Word) : Respects (Abreast c c') (Machine.push w) := respects_onStack _

theorem respects_pop : Respects (Abreast c c') Machine.pop := respects_onStack _

theorem uniform_abreast : Uniform (Abreast c c') (Abreast c c') where
  push := respects_push
  pop := respects_pop
  peek := respects_inspect fun m n h => by rw [h.stack]
  compute _ := respects_inspect fun _ _ _ => rfl
  loadGlobal _ := respects_inspect fun m n h => by rw [h.globals]
  storeGlobal _ _ := respects_onGlobals _
  loadElement := respects_loadElement
  storeElement := respects_storeElement
  arrayLength := respects_arrayLength
  printInt _ := respects_onConsole (Console.respects_printInt _)
  readInt := respects_onConsole (Console.respects_readInt.bind fun _ => .pure _)

/-- An instruction that makes no array does the same on both machines. -/
theorem respects_interpret {next length : Nat} {i : Instr} (hi : i ≠ .arrayNew) :
    Respects (Abreast c c') (Machine.interpret next length i) :=
  uniform_abreast.interpret (fun _ _ => respects_inspect fun m n h => by rw [h.calls])
    (fun _ _ _ => respects_onCalls _) fun hnew => absurd hnew hi

/-! ## Calls and returns -/

theorem respects_popArguments (k : Nat) (args : List Word) :
    Respects (Abreast c c') (Machine.popArguments k args) := by
  induction k generalizing args with
  | zero => exact .pure _
  | succ k ih => exact respects_pop.bind fun w => ih (w :: args)

theorem respects_enterFrame (image : Image) (callee returnFunction : UInt16)
    (returnAddress : Option Nat) :
    Respects (Abreast c c')
      (Machine.enterFrame image callee returnFunction returnAddress) := by
  unfold Machine.enterFrame
  cases image.function? callee with
  | none => exact .throw _
  | some f =>
    dsimp only
    by_cases hlocals : f.locals < f.arity
    · rw [if_pos hlocals]
      exact .throw _
    · rw [if_neg hlocals]
      have hroom : Respects (Abreast c c') Machine.checkRoom :=
        respects_inspect fun m n h => by rw [h.calls]
      refine hroom.bind fun _ => (respects_popArguments _ []).bind fun args => ?_
      exact respects_onCalls _

/-- Both machines interpret the callee. -/
theorem Abreast.enterCall (image : Image) (callee returnFunction : UInt16)
    (returnAddress : Option Nat) {m n : Machine} (h : Abreast c c' m n) :
    Paired (fun r r' m' n' => (r = none ∧ r' = none) ∧ Abreast c c' m' n') (Abreast c c')
      (Machine.enterCall image callee returnFunction returnAddress m)
      (Machine.enterCall image callee returnFunction returnAddress n) := by
  rw [Machine.enterCall_of_off h.off, Machine.enterCall_of_off h.off']
  refine (respects_enterFrame image callee returnFunction returnAddress h).bind ?_
  rintro _ _ m' n' ⟨-, h'⟩
  exact ⟨⟨rfl, rfl⟩, h'⟩

theorem respects_leaveFrame : Respects (Abreast c c') Machine.leaveFrame := by
  refine (respects_onStack _).bind fun value => (respects_onCalls _).bind fun frame => ?_
  cases frame.returnAddress with
  | none => exact .pure _
  | some pc => exact (respects_push value).bind fun _ => .pure _

/-! ## Steps -/

/-- Two runs that only interpret are at the same point of the program, on machines that are abreast,
    or have ended with the same outcome. -/
inductive GoAbreast (c c' : Console) : Progress → Progress → Prop
  | running (a : Interpreting) {m n : Machine} (h : Abreast c c' m n) :
      GoAbreast c c' (.running ⟨.interpreting a, [], m⟩) (.running ⟨.interpreting a, [], n⟩)
  | ended (outcome : Except Failure Word) {m n : Machine} (h : Abreast c c' m n) :
      GoAbreast c c' (.ended ⟨outcome, m⟩) (.ended ⟨outcome, n⟩)

namespace Abreast

variable {setup setup' : Setup} {a : Interpreting} {m n : Machine}

theorem abort (fault : Fault) (location : Location) (h : Abreast c c' m n) :
    GoAbreast c c' (State.abort [] fault location m) (State.abort [] fault location n) :=
  .ended _ h

theorem halt (h : Abreast c c' m n) :
    GoAbreast c c' (State.halt [] m) (State.halt [] n) := by
  rw [State.halt, State.halt, Machine.popOrZero_eq, Machine.popOrZero_eq, h.stack]
  exact .ended _ { h with stack := rfl }

theorem report (setup setup' : Setup) (a : Interpreting) (i : Instr) (h : Abreast c c' m n) :
    Abreast c c' (State.report setup a i m) (State.report setup' a i n) := by
  obtain ⟨journal, hm⟩ := report_eq setup a i m
  obtain ⟨journal', hn⟩ := report_eq setup' a i n
  rw [hm, hn]
  exact { h with }

theorem callFromInterpreter (next : Nat) (callee : UInt16) (hi : setup'.image = setup.image)
    (h : Abreast c c' m n) :
    GoAbreast c c' (State.callFromInterpreter setup a next callee [] m)
      (State.callFromInterpreter setup' a next callee [] n) := by
  rw [State.callFromInterpreter, State.callFromInterpreter, hi]
  obtain ⟨_, _, m', n', hm, hn, ⟨rfl, rfl⟩, h'⟩ | ⟨e, m', n', hm, hn, h'⟩ :=
    (h.enterCall setup.image callee a.function (some next)).cases
  · rw [hm, hn]
    exact .running _ h'
  · rw [hm, hn]
    exact h'.abort e _

theorem returnFromInterpreter (h : Abreast c c' m n) :
    GoAbreast c c' (State.returnFromInterpreter a [] m) (State.returnFromInterpreter a [] n) := by
  rw [State.returnFromInterpreter, State.returnFromInterpreter]
  obtain ⟨r, _, m', n', hm, hn, rfl, h'⟩ | ⟨e, m', n', hm, hn, h'⟩ := (respects_leaveFrame h).cases
  · rw [hm, hn]
    cases r with
    | finish value => exact .ended _ h'
    | resume function pc =>
      dsimp only
      rw [h'.calls]
      by_cases hfloor : n'.memory.calls.depth < a.floor
      · rw [if_pos hfloor, if_pos hfloor]
        exact .ended _ h'
      · rw [if_neg hfloor, if_neg hfloor]
        exact .running _ h'
  · rw [hm, hn]
    exact h'.abort e _

end Abreast

section Runs

variable {setup setup' : Setup} {s t : State}

/-- One step on each side, if it is not the one that makes an array. -/
theorem GoAbreast.step (hi : setup'.image = setup.image)
    (h : GoAbreast c c' (.running s) (.running t)) (hnew : s.next? setup.image ≠ some .arrayNew) :
    GoAbreast c c' (s.step setup) (t.step setup') := by
  obtain @⟨a, m, n, h⟩ := h
  rw [State.step, State.step, State.interpret, State.interpret, hi]
  cases hf : setup.image.function? a.function with
  | none => exact .ended _ h
  | some f =>
    dsimp only
    by_cases hend : f.code.size ≤ a.pc
    · rw [if_pos hend, if_pos hend]
      exact h.halt
    rw [if_neg hend, if_neg hend]
    cases hd : f.code.decode a.pc with
    | error fault => exact h.abort fault _
    | ok i =>
      have hne : i ≠ .arrayNew := by
        rintro rfl
        exact hnew (Image.instr?_of_decode hf (Nat.lt_of_not_le hend) hd)
      dsimp only
      obtain ⟨flow, _, m', n', hm, hn, rfl, h'⟩ | ⟨e, m', n', hm, hn, h'⟩ :=
        (respects_interpret hne (h.report setup setup' a i)).cases
      · rw [hm, hn]
        cases flow with
        | next => exact .running _ h'
        | jump target => exact .running _ h'
        | call callee => exact h'.callFromInterpreter _ callee hi
        | ret => exact h'.returnFromInterpreter
        | halt => exact h'.halt
      · rw [hm, hn]
        exact h'.abort e _

/-- Two runs end in the same way and leave machines that are abreast. -/
def EndAbreast (c c' : Console) (e e' : Ending) : Prop :=
  e.outcome = e'.outcome ∧ Abreast c c' e.machine e'.machine

theorem GoAbreast.run (hi : setup'.image = setup.image) (fuel : Nat)
    (h : GoAbreast c c' (.running s) (.running t))
    (hnew : ∀ u, (Progress.running s).Visits setup u → u.next? setup.image ≠ some .arrayNew) :
    Option.Rel (EndAbreast c c') (s.run setup fuel) (t.run setup' fuel) := by
  induction fuel generalizing s t with
  | zero => exact .none
  | succ fuel ih =>
    rw [State.run, State.run]
    have hstep := h.step hi (hnew s (.here s))
    have hnext : ∀ u, (s.step setup).Visits setup u → u.next? setup.image ≠ some .arrayNew :=
      fun u hu => hnew u (.later hu)
    generalize s.step setup = p at hstep hnext
    generalize t.step setup' = q at hstep
    cases hstep with
    | running a h => exact ih (.running a h) hnext
    | ended outcome h => exact .some ⟨rfl, h⟩

end Runs

/-! ## Sessions -/

theorem Abreast.start {setup setup' : Setup} {m n : Machine} (hi : setup'.image = setup.image)
    (h : Abreast c c' m n) : GoAbreast c c' (State.start setup m) (State.start setup' n) := by
  simp only [State.start, hi]
  obtain ⟨_, _, m', n', hm, hn, ⟨rfl, rfl⟩, h'⟩ | ⟨e, m', n', hm, hn, h'⟩ :=
    (h.enterCall setup.image setup.image.entry setup.image.entry none).cases
  · rw [hm, hn]
    exact .running _ h'
  · rw [hm, hn]
    exact h'.abort e _

namespace Session

variable {s s' : Session}

/-- The flush at the end of a run does the same on both sides. -/
theorem conclude_abreast {setup setup' : Setup} {e e' : Ending} (h : EndAbreast c c' e e') :
    (conclude setup e).1 = (conclude setup' e').1 ∧
      Abreast c c' (conclude setup e).2.machine (conclude setup' e').2.machine := by
  obtain ⟨outcome, m⟩ := e
  obtain ⟨_, n⟩ := e'
  obtain ⟨rfl, h⟩ := h
  rw [conclude, conclude]
  obtain ⟨_, _, m', n', hm, hn, -, h'⟩ | ⟨fault, m', n', hm, hn, h'⟩ :=
    (respects_onConsole Console.respects_flush h).cases
  · rw [hm, hn]
    exact ⟨rfl, h'⟩
  · rw [hm, hn]
    cases outcome with
    | ok value => exact ⟨rfl, h'⟩
    | error failure => exact ⟨rfl, h'⟩

theorem run_abreast (hi : s'.setup.image = s.setup.image) (h : GoAbreast c c' s.start s'.start)
    (hnew : ∀ t, s.start.Visits s.setup t → t.next? s.setup.image ≠ some .arrayNew) (fuel : Nat) :
    Option.Rel (fun r r' => r.1 = r'.1 ∧ Abreast c c' r.2.machine r'.2.machine) (s.run fuel)
      (s'.run fuel) := by
  rw [Session.run, Session.run]
  generalize s.start = p at h hnew
  generalize s'.start = q at h
  cases h with
  | ended outcome h => exact .some (conclude_abreast ⟨rfl, h⟩)
  | running a h =>
    have hrun := GoAbreast.run hi fuel (.running a h) hnew
    dsimp only
    generalize State.run s.setup fuel _ = r at hrun
    generalize State.run s'.setup fuel _ = r' at hrun
    cases hrun with
    | none => exact .none
    | some he => exact .some (conclude_abreast he)

end Session

end StackMachine
