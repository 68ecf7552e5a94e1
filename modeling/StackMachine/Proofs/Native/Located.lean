import StackMachine.Proofs.Machine.Blame
import StackMachine.Proofs.Native.Framing

/-!
# Where runs fail

A run fails in one of three ways: the frame of the entry function cannot be pushed, an instruction
fails, or the program has ended with a value and its output cannot be flushed. Only in the last
case no location is given. Whether code is compiled, and whether a leaf is spliced into it, makes no
difference to the location.

* `Session.ending`: how the program ends, before the output is flushed.
* `Session.Settled.attributed`: an ending with a fault is located.
* `Session.failure_located`: every failure of a run of a session is located and accounted for.
-/

namespace StackMachine

variable {image : Image} {maxStack maxCallDepth : Nat}

namespace Session

variable {s t : Session} {fuel : Nat}

/-- How the program ends within `fuel` steps, before the output is flushed. -/
def ending (fuel : Nat) (s : Session) : Option Ending :=
  match s.start with
  | .ended e => some e
  | .running state => State.run s.setup fuel state

theorem run_eq_map (fuel : Nat) (s : Session) :
    s.run fuel = (s.ending fuel).map (conclude s.setup) := by
  rw [run, ending]
  cases s.start with
  | ended e => rfl
  | running state =>
    dsimp only
    cases State.run s.setup fuel state <;> rfl

/-- Concluding a run fails if the run has failed, or else if the output cannot be flushed. -/
theorem conclude_eq_error {setup : Setup} {e : Ending} {failure : Failure}
    (h : conclude setup e = (.error failure, t)) :
    e.outcome = .error failure ∨ ∃ value reason m, e.outcome = .ok value ∧
      Machine.onConsole Console.flush e.machine = .error (.io reason) m ∧
      failure = ⟨.io reason, none⟩ := by
  obtain ⟨outcome, m⟩ := e
  rw [conclude, Machine.onConsole_eq] at h
  rw [Machine.onConsole_eq]
  cases hflush : Console.flush m.console with
  | ok _ console =>
    rw [hflush] at h
    exact .inl (congrArg Prod.fst h)
  | error fault console =>
    rw [hflush] at h
    obtain ⟨reason, rfl⟩ := Console.error_of_flush hflush
    cases outcome with
    | error failure' => exact .inl (congrArg Prod.fst h)
    | ok value =>
      have hfailure := Except.error.inj (congrArg Prod.fst h)
      exact .inr ⟨value, reason, _, rfl, rfl, hfailure.symm⟩

/-- A run that is over at once has failed to push the frame of the entry function. -/
theorem Settled.unpushed {e : Ending} (h : s.Settled image maxStack maxCallDepth)
    (hstart : s.start = .ended e) :
    ∃ fault, e.outcome = .error ⟨fault, some ⟨image.entry, 0⟩⟩ ∧
      EntryFault image maxCallDepth fault := by
  have hended := State.start_eq_ended s.setup (m := { s.machine with
    memory := s.machine.memory.reset s.setup.image.globals.toNat }) rfl hstart
  have hlimit : (s.machine.memory.reset s.setup.image.globals.toNat).calls.limit = maxCallDepth :=
    h.limited.callLimit
  rw [h.image] at hended hlimit
  rwa [hlimit] at hended

/-- A run that has started and ends with a fault says where, and the code there accounts for it. -/
theorem Settled.attributed {state : State} {e : Ending} {failure : Failure}
    (h : s.Settled image maxStack maxCallDepth) (hstart : s.start = .running state)
    (hending : s.ending fuel = some e) (he : e.outcome = .error failure) :
    ∃ l, failure.location = some l ∧ image.Attributes l failure.fault := by
  have hmatches : Matches image s.start s.uncompiled.start := h.image ▸ h.same.start
  have hupheld := h.ready.start
  rw [hstart] at hmatches
  rw [ending, hstart] at hending
  dsimp only at hending
  -- the fault is that of the run that only interprets, where every location is that of a step
  generalize s.uncompiled.start = q at hmatches hupheld
  cases hmatches with
  | @running _ state' hmirrors =>
    have hruns := hmirrors.run h.image h.image fuel
    rw [hending] at hruns
    generalize hrun : state'.run s.setup fuel = r at hruns
    cases hruns with
    | some hsame =>
      exact State.attributed_of_run h.image hupheld hrun (hsame.outcome.symm.trans he)

/-- Every failure of the program itself is located. -/
theorem Settled.located {e : Ending} {failure : Failure}
    (h : s.Settled image maxStack maxCallDepth) (hending : s.ending fuel = some e)
    (he : e.outcome = .error failure) : failure.location ≠ none := by
  cases hstart : s.start with
  | ended e' =>
    rw [ending, hstart] at hending
    obtain rfl := Option.some.inj hending
    obtain ⟨fault, hfault, -⟩ := h.unpushed hstart
    rw [he] at hfault
    obtain rfl := Except.error.inj hfault
    exact nofun
  | running state =>
    obtain ⟨l, hl, -⟩ := h.attributed hstart hending he
    rw [hl]
    exact nofun

/-- **Every fault of a run is located and attributed.** In every run of a session, interpreted,
    compiled or mixed, and after any runs before: if it fails,

    * no location is given just when the program has ended with a value and the flush of its output
      fails;
    * when the frame of the entry function cannot be pushed, the location is the start of this
      function, and the fault says why it cannot;
    * a location that is given otherwise is one of code of the image, and there the bytes are no
      instruction, with just this fault, or one that can raise it. -/
theorem failure_located (image : Image) (settings : Settings) (console : Console)
    (observed : Bool) (allocator : Allocator) {s t : Session} {fuel : Nat} {failure : Failure}
    (hs : (Session.begin image settings console observed allocator).Continues s)
    (hrun : s.run fuel = some (.error failure, t)) :
    (failure.location = none ↔ ∃ e value reason m, s.ending fuel = some e ∧ e.outcome = .ok value ∧
        Machine.onConsole Console.flush e.machine = .error (.io reason) m ∧
        failure.fault = .io reason) ∧
      (∀ e, s.start = .ended e → failure.location = some ⟨image.entry, 0⟩ ∧
        EntryFault image settings.maxCallDepth failure.fault) ∧
      ∀ state l, s.start = .running state → failure.location = some l →
        image.Attributes l failure.fault := by
  have hsettled := (settled_begin image settings console observed allocator).continues hs
  rw [run_eq_map] at hrun
  obtain ⟨e, hending, hconclude⟩ := Option.map_eq_some_iff.1 hrun
  have hcases := conclude_eq_error hconclude
  refine ⟨⟨?_, ?_⟩, ?_, ?_⟩
  · intro hnone
    rcases hcases with he | ⟨value, reason, m, he, hflush, rfl⟩
    · exact absurd hnone (hsettled.located hending he)
    · exact ⟨e, value, reason, m, hending, he, hflush, rfl⟩
  · rintro ⟨e', value, reason, m, hending', he', -, -⟩
    obtain rfl := Option.some.inj (hending.symm.trans hending')
    rcases hcases with he | ⟨_, _, _, _, _, rfl⟩
    · rw [he'] at he
      cases he
    · rfl
  · intro e' hstart
    have hended : e = e' := by
      rw [ending, hstart] at hending
      exact (Option.some.inj hending).symm
    subst hended
    obtain ⟨fault, hfault, hentry⟩ := hsettled.unpushed hstart
    rcases hcases with he | ⟨_, _, _, he, _, _⟩
    · obtain rfl := Except.error.inj (he.symm.trans hfault)
      exact ⟨rfl, hentry⟩
    · rw [he] at hfault
      cases hfault
  · intro state l hstart hl
    rcases hcases with he | ⟨_, _, _, _, _, rfl⟩
    · obtain ⟨l', hl', hattributed⟩ := hsettled.attributed hstart hending he
      obtain rfl := Option.some.inj (hl.symm.trans hl')
      exact hattributed
    · cases hl

end Session

/-- A program that calls a leaf, and the leaf divides by zero. -/
def Image.failingLeaf : Image where
  version := 1
  globals := 0
  entry := 0
  functions := #[⟨0, 0, 0, Code.ofInstrs [.call 1, .halt]⟩,
    ⟨1, 0, 0, Code.ofInstrs [.pushInt 1, .pushInt 0, .binary .div, .ret]⟩]

/-- The leaf is spliced into the compiled caller, so there is no frame for it; the fault is located
    in the leaf all the same. -/
theorem Session.failure_located_leaf :
    ∃ s t, (Session.begin .failingLeaf .eager default false).Continues s ∧
      (s.start.after? s.setup 3).map (fun u => (u.active.function, u.machine.memory.calls.depth)) =
        some (0, 1) ∧
      s.run 10 = some (.error ⟨.divisionByZero, some ⟨1, 18⟩⟩, t) ∧
      Image.failingLeaf.Attributes ⟨1, 18⟩ .divisionByZero := by
  have hs := Session.Continues.refl (Session.begin .failingLeaf .eager default false)
  obtain ⟨hafter, hrun⟩ : ((Session.begin .failingLeaf .eager default false).start.after?
      (Session.begin .failingLeaf .eager default false).setup 3).map
        (fun u => (u.active.function, u.machine.memory.calls.depth)) = some (0, 1) ∧
      ((Session.begin .failingLeaf .eager default false).run 10).map (·.1) =
        some (.error ⟨.divisionByZero, some ⟨1, 18⟩⟩) := by decide +kernel
  obtain ⟨⟨_, t⟩, ht, rfl⟩ := Option.map_eq_some_iff.1 hrun
  have hlocated := Session.failure_located .failingLeaf .eager default false .willing hs ht
  refine ⟨_, t, hs, hafter, ht, ?_⟩
  cases hstart : (Session.begin .failingLeaf .eager default false).start with
  | ended e =>
    rw [hstart] at hafter
    cases hafter
  | running state => exact hlocated.2.2 state ⟨1, 18⟩ hstart rfl

end StackMachine
