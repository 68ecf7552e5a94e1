import StackMachine.Proofs.Machine.Abreast
import StackMachine.Proofs.Native.Returns

/-!
# Runs are isolated from each other

A session keeps compiled code, call counts and the generations of its slots from one run to the
next. A run that makes no array shows nothing of them: it is the first run of a new session whose
streams answer as those of the session do by then.

Neither run need be interpreted. Each is compared with the same run without compiled code, and the
two that only interpret start with the same memory, apart from the slots of freed arrays.

* `Session.Settled.run_alike`: a run that makes no array depends on the image, the limits and the
  streams only.
* `Session.run_isolated`: such a run is the same after any earlier runs as it is in a new session.
-/

namespace StackMachine

variable {image : Image} {maxStack maxCallDepth : Nat}

/-- No step of the run makes an array. -/
def Session.MakesNoArray (s : Session) : Prop :=
  ∀ t, s.start.Visits s.setup t → t.next? s.setup.image ≠ some .arrayNew

/-- Checks a run that ends within `fuel` steps for instructions that make arrays. -/
def Progress.checkNoArray (setup : Setup) (fuel : Nat) (p : Progress) : Bool :=
  match p, fuel with
  | .ended _, _ => true
  | .running _, 0 => false
  | .running s, fuel + 1 =>
    decide (s.next? setup.image ≠ some .arrayNew) && (s.step setup).checkNoArray setup fuel

theorem Progress.next?_of_checkNoArray {setup : Setup} {fuel : Nat} {p : Progress} {t : State}
    (h : p.checkNoArray setup fuel = true) (ht : p.Visits setup t) :
    t.next? setup.image ≠ some .arrayNew := by
  induction ht generalizing fuel with
  | here s =>
    cases fuel with
    | zero => cases h
    | succ fuel =>
      rw [checkNoArray, Bool.and_eq_true, decide_eq_true_eq] at h
      exact h.1
  | later _ ih =>
    cases fuel with
    | zero => cases h
    | succ fuel =>
      rw [checkNoArray, Bool.and_eq_true] at h
      exact ih h.2

/-- Two runs that began with the consoles `c` and `c'` have the same effects: outcome, what was
    written and how far the input was read, and the globals. -/
structure SameEffects (c c' : Console) (r r' : Except Failure Word × Session) : Prop where
  outcome : r.1 = r'.1
  use : Console.SameUse c r.2.machine.console c' r'.2.machine.console
  globals : r.2.machine.memory.globals = r'.2.machine.memory.globals

namespace Session.Settled

variable {s s' : Session}

/-- Without compiled code the run goes through the same instructions. -/
theorem makesNoArray_uncompiled (h : s.Settled image maxStack maxCallDepth)
    (hnew : s.MakesNoArray) : s.uncompiled.MakesNoArray := by
  intro t ht
  obtain ⟨u, hu, hmirrors⟩ := h.same.start.visits_right rfl rfl ht
  show t.next? s.setup.image ≠ some .arrayNew
  rw [← hmirrors.next?_eq]
  exact hnew u hu

/-- With the same image and limits, two sessions start alike when nothing is compiled: their stacks
    are empty, their globals zero and their arrays freed. -/
theorem start_abreast (h : s.Settled image maxStack maxCallDepth)
    (h' : s'.Settled image maxStack maxCallDepth)
    (hconsole : s.machine.console.BehavesAs s'.machine.console) :
    GoAbreast s.machine.console s'.machine.console s.uncompiled.start s'.uncompiled.start := by
  have himage : s'.setup.image = s.setup.image := h'.image.trans h.image.symm
  have hstack : s.machine.memory.stack.limit = s'.machine.memory.stack.limit :=
    h.limited.stackLimit.trans h'.limited.stackLimit.symm
  have hcalls : s.machine.memory.calls.limit = s'.machine.memory.calls.limit :=
    h.limited.callLimit.trans h'.limited.callLimit.symm
  refine Abreast.start himage ?_
  exact {
    stack := congrArg (OperandStack.mk #[]) hstack
    calls := congrArg (CallStack.mk #[]) hcalls
    globals := congrArg (fun i : Image => Globals.zeroed i.globals.toNat) himage.symm
    vacant := s.machine.memory.heap.vacant_clear
    vacant' := s'.machine.memory.heap.vacant_clear
    console := .refl hconsole
    off := rfl
    off' := rfl }

/-- A run that makes no array depends on the image, the limits and the streams only. -/
theorem run_alike (h : s.Settled image maxStack maxCallDepth)
    (h' : s'.Settled image maxStack maxCallDepth)
    (hconsole : s.machine.console.BehavesAs s'.machine.console) (hnew : s.MakesNoArray)
    (fuel : Nat) :
    Option.Rel (SameEffects s.machine.console s'.machine.console) (s.run fuel) (s'.run fuel) := by
  have himage : s'.uncompiled.setup.image = s.uncompiled.setup.image := h'.image.trans h.image.symm
  have hrun := h.same.run fuel
  have hrun' := h'.same.run fuel
  have hbetween := run_abreast himage (h.start_abreast h' hconsole) (h.makesNoArray_uncompiled hnew)
    fuel
  generalize s.run fuel = x at hrun
  generalize s'.run fuel = x' at hrun'
  generalize s.uncompiled.run fuel = y at hrun hbetween
  generalize s'.uncompiled.run fuel = y' at hrun' hbetween
  cases hbetween with
  | none =>
    cases hrun
    cases hrun'
    exact .none
  | @some r r' hrr' =>
    obtain ⟨houtcome, habreast⟩ := hrr'
    cases hrun with
    | some hr =>
      cases hrun' with
      | some hr' =>
        refine .some ⟨?_, ?_, ?_⟩
        · rw [hr.1.outcome, hr'.1.outcome, houtcome]
        · rw [hr.1.console, hr'.1.console]
          exact habreast.console.use
        · rw [hr.1.globals, hr'.1.globals, habreast.globals]

end Session.Settled

/-- Runs are isolated from each other. Whatever runs of a session came before, halted or failed,
    interpreted or compiled: a run that makes no array has the same effects as the first run of a
    new session with the same settings, if the new streams answer as the old ones do from now on.
    It ends within the same number of steps. -/
theorem Session.run_isolated (image : Image) (settings : Settings) (console fresh : Console)
    (observed observed' : Bool) (allocator allocator' : Allocator) {s : Session}
    (hs : (Session.begin image settings console observed allocator).Continues s)
    (hconsole : s.machine.console.BehavesAs fresh) (hnew : s.MakesNoArray) (fuel : Nat) :
    Option.Rel (SameEffects s.machine.console fresh) (s.run fuel)
      ((Session.begin image settings fresh observed' allocator').run fuel) := by
  have hsettled := (settled_begin image settings console observed allocator).continues hs
  have hfresh := settled_begin image settings fresh observed' allocator'
  exact hsettled.run_alike hfresh hconsole hnew fuel

/-- A program that reads a number and prints it. If the number is not zero, then it halts with a new
    array. If it is, then it takes the word that names the first array of a session, made up from an
    integer, and asks for its length. -/
def Image.forging : Image where
  version := 1
  globals := 0
  entry := 0
  functions :=
    let code : List Instr := [.readInt, .dup, .printInt, .jump .ifZero 11, .pushInt 1, .arrayNew,
      .halt, .pushInt (Word.ofHandle ⟨0, 0⟩).toInt, .arrayLen, .halt]
    #[⟨0, 0, 0, (code.flatMap Instr.encode).toArray⟩]

/-- The console with a new input, which holds the text and fails as the old one does from now on. -/
def Console.renewed (c : Console) (text : String) : Console :=
  ⟨⟨text.toUTF8, 0, 0, c.input.refusals⟩, c.output⟩

/-- The first run makes an array and the second one forges its handle. It fails as in a new session,
    which has never had an array. -/
theorem Session.run_isolated_forging :
    ∃ s, (Session.begin .forging .eager ⟨.ofBytes "1\n0\n".toUTF8, default⟩ false).Continues s ∧
      s.machine.memory.heap.slots.size = 1 ∧ s.MakesNoArray ∧
      (s.run 10).map (·.1) =
        some (.error ⟨.invalidHandle (Word.ofHandle ⟨0, 0⟩).bits.toNat, some ⟨0, 28⟩⟩) ∧
      ∀ fuel, Option.Rel (SameEffects s.machine.console (s.machine.console.renewed "0\n"))
        (s.run fuel)
        ((Session.begin .forging .eager (s.machine.console.renewed "0\n") true).run fuel) := by
  have heval : ((Session.begin .forging .eager ⟨.ofBytes "1\n0\n".toUTF8, default⟩ false).run
      10).map (fun r => (r.2.machine.memory.heap.slots.size, r.2.machine.console.input.rest,
        r.2.start.checkNoArray r.2.setup 10, (r.2.run 10).map (·.1))) =
      some (1, Input.rest (.ofBytes "0\n".toUTF8), true,
        some (.error ⟨.invalidHandle (Word.ofHandle ⟨0, 0⟩).bits.toNat, some ⟨0, 28⟩⟩)) := by
    decide +kernel
  obtain ⟨⟨outcome, s⟩, hrun, heq⟩ := Option.map_eq_some_iff.1 heval
  obtain ⟨hslots, hrest, hcheck, hsecond⟩ : _ ∧ _ ∧ _ ∧ _ := by
    simpa only [Prod.mk.injEq] using heq
  have hs := Continues.run (Continues.refl _) hrun
  have hnew : s.MakesNoArray := fun t ht => Progress.next?_of_checkNoArray hcheck ht
  have hconsole : s.machine.console.BehavesAs (s.machine.console.renewed "0\n") := by
    refine ⟨⟨hrest, funext fun n => ?_⟩, .refl _⟩
    show _ = s.machine.console.input.refusals (0 + n)
    rw [Nat.zero_add]
  exact ⟨s, hs, hslots, hnew, hsecond, fun fuel =>
    run_isolated .forging .eager _ _ false true .willing .willing hs hconsole hnew fuel⟩

end StackMachine
