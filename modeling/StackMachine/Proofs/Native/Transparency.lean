import StackMachine.Session
import StackMachine.Proofs.Native.Lockstep

/-!
# Compilation cannot be observed

A session that compiles and one that only interprets, over the same image, streams and settings
otherwise, run in step: each run takes the same number of steps in both, and ends with the same
outcome and the same effects.

* `Mirrors.run`: from related states two runs end in the same way.
* `Session.runs_compiled`: consecutive runs of a session do not depend on which functions are
  compiled, nor on when and how.
-/

namespace StackMachine

open Native

/-- Runs the program again and again, each time with the number of steps that is given for it.
    Every run goes with the session it leaves behind. -/
def Session.runs (s : Session) : List Nat → Option (List (Except Failure Word × Session))
  | [] => some []
  | fuel :: fuels =>
    match s.run fuel with
    | none => none
    | some result => (result.2.runs fuels).map (result :: ·)

/-- Two runs cannot be told apart: outcome, streams, globals, heap and the account of the collector
    are the same. So is the operand stack, unless an instruction failed. -/
structure SameRun (r r' : Except Failure Word × Session) : Prop where
  outcome : r.1 = r'.1
  console : r.2.machine.console = r'.2.machine.console
  globals : r.2.machine.memory.globals = r'.2.machine.memory.globals
  heap : r.2.machine.memory.heap = r'.2.machine.memory.heap
  collector : r.2.machine.collector = r'.2.machine.collector
  stack : (∀ fault location, r.1 ≠ .error ⟨fault, some location⟩) →
    r.2.machine.memory.stack = r'.2.machine.memory.stack

/-- Two sessions over one image of which the second never compiles. -/
structure SameSession (s t : Session) : Prop where
  image : t.setup.image = s.setup.image
  agrees : Agrees s.setup.image s.machine t.machine

/-! ## One run -/

variable {image : Image} {setup setup' : Setup} {m n : Machine}

theorem Mirrors.run {s t : State} (hi : setup.image = image) (hi' : setup'.image = image)
    (fuel : Nat) (h : Mirrors image s t) :
    Option.Rel (SameEnding image) (s.run setup fuel) (t.run setup' fuel) := by
  induction fuel generalizing s t with
  | zero => exact .none
  | succ fuel ih =>
    rw [State.run, State.run]
    have hstep := h.step hi hi'
    generalize s.step setup = p at hstep
    generalize t.step setup' = q at hstep
    cases hstep with
    | running h => exact ih h
    | ended h => exact .some h

theorem Same.start (hi : setup.image = image) (hi' : setup'.image = image)
    (h : Same image [] m n) : Matches image (State.start setup m) (State.start setup' n) := by
  simp only [State.start, hi, hi']
  have hbacked : Backed image [] [(image.entry, none)] := ⟨image.entry, rfl⟩
  obtain ⟨r, _, m', n', hm, hn, rfl, hr, hknown, h'⟩ | ⟨e, m', n', hm, hn, h'⟩ :=
    (h.enterCall image.entry image.entry none nofun).cases
  · rw [hm, hn]
    cases r with
    | none =>
      have hsame : Same image ([] ++ [(image.entry, none)]) m' n' := h'
      exact .running (.interpreting (a := ⟨image.entry, 0, 1⟩) hsame hknown rfl hbacked)
    | some routine => exact .running (h'.executing (hr routine rfl) hbacked)
  · rw [hm, hn]
    exact h'.abort [] e _

/-! ## Sessions -/

namespace SameSession

variable {s t : Session}

/-- Fresh memory is the same on both sides. -/
theorem reset (h : SameSession s t) :
    Same s.setup.image []
      { s.machine with memory := s.machine.memory.reset s.setup.image.globals.toNat }
      { t.machine with memory := t.machine.memory.reset t.setup.image.globals.toNat } where
  sound := h.agrees.sound
  off := h.agrees.off
  stackLimit := h.agrees.stackLimit
  callLimit := h.agrees.callLimit
  globals := by rw [h.image]; rfl
  heap := congrArg Heap.clear h.agrees.heap
  console := h.agrees.console
  collector := h.agrees.collector
  known := nofun
  links := rfl
  frames := rfl
  stack := congrArg (OperandStack.mk #[]) h.agrees.stackLimit
  bounded := Nat.zero_le _

theorem start (h : SameSession s t) : Matches s.setup.image s.start t.start :=
  h.reset.start rfl h.image

/-- The flush at the end of a run does the same on both sides. -/
theorem conclude {e e' : Ending} (h : SameSession s t) (he : SameEnding s.setup.image e e') :
    SameRun (Session.conclude s.setup e) (Session.conclude t.setup e') ∧
      SameSession (Session.conclude s.setup e).2 (Session.conclude t.setup e').2 := by
  obtain ⟨outcome, m⟩ := e
  obtain ⟨_, n⟩ := e'
  obtain ⟨rfl, hagrees, hstack⟩ := he
  have hconsole : m.console = n.console := hagrees.console
  simp only [Session.conclude, Machine.onConsole_eq, hconsole]
  cases Console.flush n.console with
  | ok _ console =>
    exact ⟨⟨rfl, rfl, hagrees.globals, hagrees.heap, hagrees.collector, hstack⟩, h.image,
      { hagrees with console := rfl }⟩
  | error fault console =>
    cases outcome with
    | ok value =>
      exact ⟨⟨rfl, rfl, hagrees.globals, hagrees.heap, hagrees.collector, fun _ => hstack nofun⟩,
        h.image, { hagrees with console := rfl }⟩
    | error failure =>
      exact ⟨⟨rfl, rfl, hagrees.globals, hagrees.heap, hagrees.collector, hstack⟩, h.image,
        { hagrees with console := rfl }⟩

theorem run (fuel : Nat) (h : SameSession s t) :
    Option.Rel (fun r r' => SameRun r r' ∧ SameSession r.2 r'.2) (s.run fuel) (t.run fuel) := by
  rw [Session.run, Session.run]
  have hstart := h.start
  generalize s.start = p at hstart
  generalize t.start = q at hstart
  cases hstart with
  | ended he => exact .some (h.conclude he)
  | running hm =>
    have hrun := hm.run rfl h.image fuel
    dsimp only
    generalize State.run s.setup fuel _ = r at hrun
    generalize State.run t.setup fuel _ = r' at hrun
    cases hrun with
    | none => exact .none
    | some he => exact .some (h.conclude he)

theorem runs (fuels : List Nat) (h : SameSession s t) :
    Option.Rel (List.Forall₂ SameRun) (s.runs fuels) (t.runs fuels) := by
  induction fuels generalizing s t with
  | nil => exact .some .nil
  | cons fuel fuels ih =>
    rw [Session.runs, Session.runs]
    have hrun := h.run fuel
    generalize s.run fuel = r at hrun
    generalize t.run fuel = r' at hrun
    cases hrun with
    | none => exact .none
    | @some r r' hr =>
      have hrest := ih hr.2
      dsimp only
      generalize r.2.runs fuels = rs at hrest
      generalize r'.2.runs fuels = rs' at hrest
      cases hrest with
      | none => exact .none
      | some hrs => exact .some (.cons hr.1 hrs)

end SameSession

/-- Settings that differ in what is compiled begin sessions that agree. -/
theorem sameSession_begin (image : Image) (settings : Settings) (mode : JitMode) (threshold : Nat)
    (inline : Bool) (console : Console) (observed : Bool) (allocator : Allocator) :
    SameSession
      (.begin image
        { settings with jitMode := mode, jitThreshold := threshold, jitInline := inline }
        console observed allocator)
      (.begin image { settings with jitMode := .off } console observed allocator) where
  image := rfl
  agrees := {
    sound := Promotion.sound_fresh _ _
    off := rfl
    stackLimit := rfl
    callLimit := rfl
    globals := rfl
    heap := rfl
    console := rfl
    collector := rfl }

/-- Consecutive runs of a session are the same, step for step, whichever functions are compiled:
    under any mode, threshold and choice to splice leaves each run ends within the same number of
    steps as without compilation, and then it cannot be told apart from it. -/
theorem Session.runs_compiled (image : Image) (settings : Settings) (mode : JitMode)
    (threshold : Nat) (inline : Bool) (console : Console) (observed : Bool) (allocator : Allocator)
    (fuels : List Nat) :
    Option.Rel (List.Forall₂ SameRun)
      ((Session.begin image
        { settings with jitMode := mode, jitThreshold := threshold, jitInline := inline }
        console observed allocator).runs fuels)
      ((Session.begin image { settings with jitMode := .off } console observed
        allocator).runs fuels) :=
  (sameSession_begin image settings mode threshold inline console observed allocator).runs fuels

end StackMachine
