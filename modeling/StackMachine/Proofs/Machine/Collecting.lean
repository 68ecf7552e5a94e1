import StackMachine.Proofs.Machine.Tame

/-!
# Collections cannot be observed

A run that never collects and one that collects now and then are at the same point of the program
after every step, on machines that correspond, provided that the first run is tame. So they end
in the same way, and what they leave behind is the same up to a renaming of handles.

* `Alongside.step`: from states that go together, one step on each side leads to such states, or
  both runs end alike.
* `Session.run_collecting`: whether and when a session collects makes no difference but for the
  names of arrays.
-/

namespace StackMachine

/-! ## States that go together -/

/-- Two states at the same point of the program, with machines that correspond. -/
inductive Alongside : State → State → Prop
  | mk (a : Interpreting) {m n : Machine} (h : Corresponding m n) :
      Alongside ⟨.interpreting a, [], m⟩ ⟨.interpreting a, [], n⟩

/-- Two runs end with the same failure or with related values. -/
def EndAlike (x y : Except Failure Word) (m n : Machine) : Prop :=
  ∃ β, Lookups (Related β) x y ∧ Corresponds β m n

/-- Two steps lead to states that go together, or both runs end. -/
inductive GoAlike : Progress → Progress → Prop
  | running {s t : State} (h : Alongside s t) : GoAlike (.running s) (.running t)
  | ended {e e' : Ending} (h : EndAlike e.outcome e'.outcome e.machine e'.machine) :
      GoAlike (.ended e) (.ended e')

namespace Corresponding

variable {setup setup' : Setup} {a : Interpreting} {m n : Machine}

theorem abort (fault : Fault) (location : Location) (h : Corresponding m n) :
    GoAlike (State.abort [] fault location m) (State.abort [] fault location n) := by
  obtain ⟨β, h⟩ := h
  exact .ended ⟨β, .missing _, h⟩

theorem halt (h : Corresponding m n) : GoAlike (State.halt [] m) (State.halt [] n) := by
  obtain ⟨β, h⟩ := h
  rw [State.halt, State.halt]
  obtain ⟨v, w, m', n', hm, hn, hvw, h'⟩ | ⟨e, m', n', hm, hn, h'⟩ := h.popOrZero.cases
  · rw [hm, hn]
    exact .ended ⟨β, .found hvw, h'⟩
  · rw [hm, hn]
    exact .ended ⟨β, .found .zero, h'⟩

theorem callFromInterpreter (next : Nat) (callee : UInt16) (hi : setup'.image = setup.image)
    (h : Corresponding m n) :
    GoAlike (State.callFromInterpreter setup a next callee [] m)
      (State.callFromInterpreter setup' a next callee [] n) := by
  obtain ⟨β, h⟩ := h
  rw [State.callFromInterpreter, State.callFromInterpreter, hi]
  obtain ⟨_, _, m', n', hm, hn, ⟨rfl, rfl⟩, h'⟩ | ⟨e, m', n', hm, hn, h'⟩ :=
    (h.enterCall setup.image callee a.function (some next)).cases
  · rw [hm, hn]
    exact .running (.mk _ ⟨β, h'⟩)
  · rw [hm, hn]
    exact abort e _ ⟨β, h'⟩

theorem returnFromInterpreter (h : Corresponding m n) :
    GoAlike (State.returnFromInterpreter a [] m) (State.returnFromInterpreter a [] n) := by
  obtain ⟨β, h⟩ := h
  rw [State.returnFromInterpreter, State.returnFromInterpreter]
  obtain ⟨r, r', m', n', hm, hn, hr, h'⟩ | ⟨e, m', n', hm, hn, h'⟩ := h.leaveFrame.cases
  · rw [hm, hn]
    cases hr with
    | finish hvw => exact .ended ⟨β, .found hvw, h'⟩
    | resume function pc =>
      have hdepth : n'.memory.calls.depth = m'.memory.calls.depth := h'.calls.frames.size_eq.symm
      dsimp only
      rw [hdepth]
      by_cases hfloor : m'.memory.calls.depth < a.floor
      · rw [if_pos hfloor, if_pos hfloor]
        exact .ended ⟨β, .found .zero, h'⟩
      · rw [if_neg hfloor, if_neg hfloor]
        exact .running (.mk _ ⟨β, h'⟩)
  · rw [hm, hn]
    exact abort e _ ⟨β, h'⟩

end Corresponding

/-! ## Steps and runs -/

section Runs

variable {setup setup' : Setup} {s t : State}

/-- One step on each side. -/
theorem Alongside.step (hi : setup'.image = setup.image) (h : Alongside s t)
    (htame : s.Tame setup) : GoAlike (s.step setup) (t.step setup') := by
  obtain @⟨a, m, n, h⟩ := h
  rw [State.step, State.step, State.interpret, State.interpret, hi]
  cases hf : setup.image.function? a.function with
  | none =>
    obtain ⟨β, h⟩ := h
    exact .ended ⟨β, .missing _, h⟩
  | some f =>
    dsimp only
    by_cases hend : f.code.size ≤ a.pc
    · rw [if_pos hend, if_pos hend]
      exact h.halt
    · rw [if_neg hend, if_neg hend]
      cases hd : f.code.decode a.pc with
      | error fault => exact h.abort fault _
      | ok i =>
        dsimp only
        obtain ⟨flow, _, m', n', hm, hn, rfl, h'⟩ | ⟨e, m', n', hm, hn, h'⟩ :=
          (htame.interpret setup' hf hend hd h).cases
        · rw [hm, hn]
          cases flow with
          | next => exact .running (.mk _ h')
          | jump target => exact .running (.mk _ h')
          | call callee => exact h'.callFromInterpreter _ callee hi
          | ret => exact h'.returnFromInterpreter
          | halt => exact h'.halt
        · rw [hm, hn]
          exact h'.abort e _

theorem Alongside.run (hi : setup'.image = setup.image) (fuel : Nat) (h : Alongside s t)
    (htame : ∀ u, (Progress.running s).Visits setup u → u.Tame setup) :
    Option.Rel (fun e e' => EndAlike e.outcome e'.outcome e.machine e'.machine)
      (s.run setup fuel) (t.run setup' fuel) := by
  induction fuel generalizing s t with
  | zero => exact .none
  | succ fuel ih =>
    rw [State.run, State.run]
    have hstep := h.step hi (htame s (.here s))
    -- what the rest of the run goes through is part of what the whole run goes through
    have hnext : ∀ u, (s.step setup).Visits setup u → u.Tame setup := fun u hu =>
      htame u (.later hu)
    generalize s.step setup = p at hstep hnext
    generalize t.step setup' = q at hstep
    cases hstep with
    | running h => exact ih h hnext
    | ended h => exact .some h

theorem Corresponding.start {m n : Machine} (hi : setup'.image = setup.image)
    (h : Corresponding m n) : GoAlike (State.start setup m) (State.start setup' n) := by
  obtain ⟨β, h⟩ := h
  simp only [State.start, hi]
  obtain ⟨_, _, m', n', hm, hn, ⟨rfl, rfl⟩, h'⟩ | ⟨e, m', n', hm, hn, h'⟩ :=
    (h.enterCall setup.image setup.image.entry setup.image.entry none).cases
  · rw [hm, hn]
    exact .running (.mk _ ⟨β, h'⟩)
  · rw [hm, hn]
    exact abort e _ ⟨β, h'⟩

end Runs

/-! ## Sessions -/

/-- Two heaps that have held no array are matched by the relation that relates nothing. -/
theorem Heap.matched_clear (threshold threshold' : Nat) (collects : Bool) (allocator : Allocator) :
    Matched (fun _ _ => False) (empty threshold false allocator).clear
      (empty threshold' collects allocator).clear where
  unique := False.elim
  arrays := False.elim
  growing := {
    collects := rfl
    free := rfl
    arrays := fun i s hs => by simp [clear, empty] at hs }
  valid := (released_clear _).valid (valid_empty _ _ _)
  valid' := (released_clear _).valid (valid_empty _ _ _)
  size := Nat.le_refl _
  allocator := rfl

namespace Session

variable (image : Image) (settings : Settings) (threshold : Nat) (collects : Bool)
  (console : Console) (observed : Bool) (allocator : Allocator)

/-- The session that only interprets and never collects. -/
def withoutCollector : Session :=
  .begin image { settings with jitMode := .off, gcEnabled := false } console observed allocator

/-- The session that only interprets, and collects if `collects` is set. -/
def withCollector : Session :=
  .begin image
    { settings with jitMode := .off, gcEnabled := collects, gcThreshold := threshold } console
    observed allocator

/-- The two sessions start alike. -/
theorem start_alike : GoAlike (withoutCollector image settings console observed allocator).start
    (withCollector image settings threshold collects console observed allocator).start := by
  refine Corresponding.start rfl ⟨fun _ _ => False, ?_⟩
  exact {
    stack := ⟨.empty, rfl⟩
    calls := ⟨.empty, rfl⟩
    globals := .replicate _ .zero
    heap := Heap.matched_clear _ _ _ _
    console := rfl
    off := rfl
    off' := rfl }

/-- The flush at the end of a run does the same on both sides. -/
theorem conclude_alike {setup setup' : Setup} {e e' : Ending}
    (h : EndAlike e.outcome e'.outcome e.machine e'.machine) :
    EndAlike (conclude setup e).1 (conclude setup' e').1 (conclude setup e).2.machine
      (conclude setup' e').2.machine := by
  obtain ⟨x, m⟩ := e
  obtain ⟨y, n⟩ := e'
  obtain ⟨β, hxy, h⟩ := h
  dsimp only at hxy h
  rw [conclude, conclude]
  obtain ⟨_, _, m', n', hm, hn, -, h'⟩ | ⟨fault, m', n', hm, hn, h'⟩ :=
    (h.onConsole Console.flush).cases
  · rw [hm, hn]
    exact ⟨β, hxy, h'⟩
  · rw [hm, hn]
    cases hxy with
    | found hvw => exact ⟨β, .missing _, h'⟩
    | missing e => exact ⟨β, .missing e, h'⟩

theorem run_alike {s s' : Session} (hi : s'.setup.image = s.setup.image)
    (h : GoAlike s.start s'.start) (htame : s.Tame) (fuel : Nat) :
    Option.Rel (fun r r' => EndAlike r.1 r'.1 r.2.machine r'.2.machine) (s.run fuel)
      (s'.run fuel) := by
  rw [Session.run, Session.run]
  rw [Session.Tame] at htame
  generalize s.start = p at h htame
  generalize s'.start = q at h
  cases h with
  | ended he => exact .some (conclude_alike he)
  | running h =>
    have hrun := h.run hi fuel htame
    dsimp only
    generalize State.run s.setup fuel _ = r at hrun
    generalize State.run s'.setup fuel _ = r' at hrun
    cases hrun with
    | none => exact .none
    | some he => exact .some (conclude_alike he)

end Session

/-! ## Renamings -/

/-- A frame with other names for the arrays in its locals. -/
def Frame.rename (ρ : Word → Word) (f : Frame) : Frame := { f with locals := f.locals.map ρ }

/-- The words that can be reached from those in `start`, through the elements of arrays. -/
inductive Memory.Reaches (m : Memory) (start : Word → Prop) : Word → Prop
  | start {w : Word} (hw : start w) : Reaches m start w
  | element {v w : Word} {array : Array Word} (hv : Reaches m start v)
      (ha : m.heap.get v = .ok array) (hw : w ∈ array) : Reaches m start w

/-- The second run ends as the first one does when handles are renamed by `ρ`: outcome, operands,
    frames, globals, and the arrays that can be reached from them. What is no handle stays. -/
structure RenamedRun (ρ : Equiv.Perm Word) (r r' : Except Failure Word × Session) : Prop where
  plain : ∀ w, w.isHandle = false → ρ w = w
  outcome : r'.1 = r.1.map ρ
  console : r'.2.machine.console = r.2.machine.console
  stack : r'.2.machine.memory.stack.words = r.2.machine.memory.stack.words.map ρ
  frames : r'.2.machine.memory.calls.frames
    = r.2.machine.memory.calls.frames.map (Frame.rename ρ)
  globals : r'.2.machine.memory.globals.words = r.2.machine.memory.globals.words.map ρ
  arrays : ∀ w, r.2.machine.memory.Reaches
      (fun v => r.2.machine.memory.IsRoot v ∨ r.1 = .ok v) w →
    r'.2.machine.memory.heap.get (ρ w) = (r.2.machine.memory.heap.get w).map (Array.map ρ)

variable {β : Handle → Handle → Prop}

/-- Related words determine each other if related handles do. -/
theorem Related.eq_iff {v v' w w' : Word} (hβ : ∀ {a b c d}, β a b → β c d → (a = c ↔ b = d))
    (h : Related β v w) (h' : Related β v' w') : v = v' ↔ w = w' := by
  have hne : ∀ {x y : Word} {a : Handle}, x.handle? = none → y.handle? = some a → x ≠ y := by
    rintro x _ a hx hy rfl
    rw [hx] at hy
    cases hy
  cases h with
  | plain hw =>
    cases h' with
    | plain hw' => exact Iff.rfl
    | handle hv' hw' _ => exact iff_of_false (hne hw hv') (hne hw hw')
  | handle hv hw hab =>
    cases h' with
    | plain hw' => exact iff_of_false (hne hw' hv).symm (hne hw' hw).symm
    | handle hv' hw' hab' =>
      constructor
      · rintro rfl
        have hac := Option.some.inj (hv.symm.trans hv')
        exact Word.eq_of_handle? hw ((hβ hab hab').1 hac ▸ hw')
      · rintro rfl
        have hbd := Option.some.inj (hw.symm.trans hw')
        exact Word.eq_of_handle? hv ((hβ hab hab').2 hbd ▸ hv')

instance : Finite Word :=
  Finite.of_injective (fun w => w.bits.toBitVec.toFin) fun v w h => by
    obtain ⟨⟨⟨i⟩⟩⟩ := v
    obtain ⟨⟨⟨j⟩⟩⟩ := w
    exact congrArg (fun k => (⟨⟨⟨k⟩⟩⟩ : Word)) h

/-- There is a renaming that takes every word to the one that is related to it. -/
theorem exists_renaming (hβ : ∀ {a b c d}, β a b → β c d → (a = c ↔ b = d)) :
    ∃ ρ : Equiv.Perm Word, ∀ v w, Related β v w → ρ v = w := by
  -- the pairs of related words are finitely many, and either half of a pair determines it
  obtain ⟨ρ, hρ⟩ := Equiv.Perm.exists_extending_pair
    (fun p : { p : Word × Word // Related β p.1 p.2 } => p.1.1) (fun p => p.1.2)
    (fun p q h => Subtype.ext (Prod.ext h ((Related.eq_iff hβ p.2 q.2).1 h)))
    (fun p q h => Subtype.ext (Prod.ext ((Related.eq_iff hβ p.2 q.2).2 h) h))
  exact ⟨ρ, fun v w h => hρ ⟨(v, w), h⟩⟩

theorem Frame.Matched.rename_eq {f g : Frame} {ρ : Word → Word} (h : f.Matched β g)
    (hρ : ∀ v w, Related β v w → ρ v = w) : f.rename ρ = g := by
  obtain ⟨function, returnFunction, returnAddress, locals⟩ := g
  obtain ⟨rfl, rfl, rfl, hlocals⟩ := h
  exact congrArg (Frame.mk _ _ _) (hlocals.eq_map fun v _ w => hρ v w).symm

namespace Corresponds

variable {m n : Machine} {ρ : Equiv.Perm Word}

/-- What can be reached from words with a counterpart has a counterpart. -/
theorem related_of_reaches {start : Word → Prop} {w : Word} (h : Corresponds β m n)
    (hstart : ∀ v, start v → ∃ v', Related β v v') (hw : m.memory.Reaches start w) :
    ∃ w', Related β w w' := by
  induction hw with
  | start hw => exact hstart _ hw
  | @element v w array hv ha hw ih =>
    obtain ⟨v', hvv'⟩ := ih
    obtain ⟨xs, ys, hv, -, harrays⟩ | ⟨e, hv, -⟩ := (h.heap.get hvv').cases
    · obtain rfl := Except.ok.inj (ha.symm.trans hv)
      obtain ⟨w', -, hww'⟩ := harrays.exists_right hw
      exact ⟨w', hww'⟩
    · rw [ha] at hv
      cases hv

theorem related_of_isRoot {w : Word} (h : Corresponds β m n) (hw : m.memory.IsRoot w) :
    ∃ w', Related β w w' := by
  rcases hw with hw | ⟨f, hf, hw⟩ | hw
  · obtain ⟨w', -, hww'⟩ := h.stack.words.exists_right hw
    exact ⟨w', hww'⟩
  · obtain ⟨g, -, hfg⟩ := h.calls.frames.exists_right hf
    obtain ⟨w', -, hww'⟩ := hfg.locals.exists_right hw
    exact ⟨w', hww'⟩
  · obtain ⟨w', -, hww'⟩ := h.globals.exists_right hw
    exact ⟨w', hww'⟩

theorem get_rename {v w : Word} (h : Corresponds β m n) (hρ : ∀ v w, Related β v w → ρ v = w)
    (hvw : Related β v w) :
    n.memory.heap.get (ρ v) = (m.memory.heap.get v).map (Array.map ρ) := by
  rw [hρ v w hvw]
  obtain ⟨xs, ys, hv, hw, harrays⟩ | ⟨e, hv, hw⟩ := (h.heap.get hvw).cases
  · rw [hv, hw]
    exact congrArg Except.ok (harrays.eq_map fun a _ b => hρ a b)
  · rw [hv, hw]
    rfl

end Corresponds

/-- Runs that end alike differ by a renaming of handles. -/
theorem EndAlike.exists_renamedRun {r r' : Except Failure Word × Session}
    (h : EndAlike r.1 r'.1 r.2.machine r'.2.machine) : ∃ ρ, RenamedRun ρ r r' := by
  obtain ⟨β, hout, h⟩ := h
  obtain ⟨ρ, hρ⟩ := exists_renaming h.heap.unique
  refine ⟨ρ, {
    plain := fun w hw => hρ w w (.plain (Word.isHandle_eq_false_iff.1 hw))
    outcome := ?_
    console := h.console.symm
    stack := h.stack.words.eq_map fun v _ w => hρ v w
    frames := h.calls.frames.eq_map fun f _ g hfg => ?_
    globals := h.globals.eq_map fun v _ w => hρ v w
    arrays := fun w hw => ?_ }⟩
  · obtain ⟨v, w, hv, hw, hvw⟩ | ⟨e, hv, hw⟩ := hout.cases
    · rw [hv, hw]
      exact congrArg Except.ok (hρ v w hvw).symm
    · rw [hv, hw]
      rfl
  · exact hfg.rename_eq fun v w => hρ v w
  · have hstart : ∀ v, r.2.machine.memory.IsRoot v ∨ r.1 = .ok v → ∃ v', Related β v v' := by
      rintro v (hv | hv)
      · exact h.related_of_isRoot hv
      · obtain ⟨u, w, hu, -, huw⟩ | ⟨e, hu, -⟩ := hout.cases
        · obtain rfl := Except.ok.inj (hv.symm.trans hu)
          exact ⟨w, huw⟩
        · rw [hv] at hu
          cases hu
    obtain ⟨w', hww'⟩ := h.related_of_reaches hstart hw
    exact h.get_rename hρ hww'

/-- Whether and when a session collects cannot be observed but for the names of arrays. Let the
    allocator refuse whatever lengths it likes, and the run without collections be tame. Then with
    any threshold and any choice to collect the run ends within the same number of steps, and the
    two differ by a renaming of handles. -/
theorem Session.run_collecting (image : Image) (settings : Settings) (threshold : Nat)
    (collects : Bool) (console : Console) (observed : Bool) (allocator : Allocator) (fuel : Nat)
    (htame : (withoutCollector image settings console observed allocator).Tame) :
    Option.Rel (fun r r' => ∃ ρ, RenamedRun ρ r r')
      ((withoutCollector image settings console observed allocator).run fuel)
      ((withCollector image settings threshold collects console observed allocator).run fuel) := by
  have hstart := start_alike image settings threshold collects console observed allocator
  have hrun := run_alike (by rfl) hstart htame fuel
  generalize (withoutCollector image settings console observed allocator).run fuel = x at hrun
  generalize (withCollector image settings threshold collects console observed allocator).run fuel
    = y at hrun
  cases hrun with
  | none => exact .none
  | some h => exact .some h.exists_renamedRun

/-- A program that makes an array and forgets it, then makes another one, writes to it and halts
    with it. -/
def Image.forgetful : Image where
  version := 1
  globals := 0
  entry := 0
  functions :=
    let code : List Instr := [.pushInt 2, .arrayNew, .pop, .pushInt 1, .arrayNew, .dup, .pushInt 0,
      .pushInt 7, .arrayStore, .halt]
    #[⟨0, 0, 0, (code.flatMap Instr.encode).toArray⟩]

/-- A collector that is always due frees the first array and uses its slot again, where the run
    without it ends with the handle of a second slot. -/
theorem Session.run_collecting_forgetful :
    (withoutCollector .forgetful {} default false .willing).Tame ∧
      ((withoutCollector .forgetful {} default false .willing).run 10).map (·.1)
        = some (.ok (.ofHandle ⟨1, 0⟩)) ∧
      ∀ fuel, Option.Rel (fun r r' => ∃ ρ, RenamedRun ρ r r')
        ((withoutCollector .forgetful {} default false .willing).run fuel)
        ((withCollector .forgetful {} 0 true default false .willing).run fuel) := by
  obtain ⟨hcheck, hrun⟩ : (withoutCollector .forgetful {} default false .willing).start.checkTame
      (withoutCollector .forgetful {} default false .willing).setup 10 = true ∧
      ((withoutCollector .forgetful {} default false .willing).run 10).map (·.1)
        = some (.ok (.ofHandle ⟨1, 0⟩)) := by decide +kernel
  have htame : (withoutCollector .forgetful {} default false .willing).Tame := fun _ ht =>
    Progress.tame_of_checkTame hcheck ht
  exact ⟨htame, hrun, fun fuel =>
    run_collecting .forgetful {} 0 true default false .willing fuel htame⟩

end StackMachine
