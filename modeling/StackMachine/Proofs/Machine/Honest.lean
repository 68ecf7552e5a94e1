import StackMachine.Proofs.Machine.Collecting
import StackMachine.Proofs.Machine.Grounded

/-!
# Honest runs

A run is honest as long as no integer that it makes looks like a handle. In an honest run no handle
dangles, and no access to an array fails because of one.

* `Session.handles_live`: in every state that a run of a session reaches honestly, every handle in
  the memory names an array.
-/

namespace StackMachine

/-- The next instruction makes no handle out of an integer. -/
def State.Honest (setup : Setup) (s : State) : Prop :=
  ∀ i ∈ s.instr? setup.image, i.makesInt = true → ∀ w ∈ (s.step setup).top?, w.isHandle = false

instance (setup : Setup) (s : State) : Decidable (s.Honest setup) :=
  inferInstanceAs (Decidable (∀ i ∈ s.instr? setup.image, i.makesInt = true →
    ∀ w ∈ (s.step setup).top?, w.isHandle = false))

/-- The run comes from one point to another and makes no handle out of an integer on the way. -/
inductive Progress.Honestly (setup : Setup) : Progress → Progress → Prop
  | refl (p : Progress) : Honestly setup p p
  | step {s : State} {q : Progress} (hs : s.Honest setup) (h : Honestly setup (s.step setup) q) :
      Honestly setup (.running s) q

/-- The machine that a run has come to. -/
def Progress.machine : Progress → Machine
  | .running s => s.machine
  | .ended e => e.machine

/-- Every handle on the operand stack, in the locals of a frame, in the globals or in an array names
    an array. -/
def Memory.HandlesLive (m : Memory) : Prop :=
  ∀ w, m.Contains w → w.isHandle = true → m.heap.isLive w = true

/-- The run has not ended with the fault of a handle that dangles. -/
def Progress.Undangling (p : Progress) : Prop :=
  ∀ e bits location, p = .ended e → e.outcome ≠ .error ⟨.invalidHandle bits, location⟩

/-! ## Access -/

theorem Heap.Resolves.get_ne {h : Heap} {w : Word} (hw : h.Resolves w) (bits : Nat) :
    h.get w ≠ .error (.invalidHandle bits) := by
  intro hget
  unfold Heap.get at hget
  cases hhandle : w.handle? with
  | none => simp [hhandle] at hget
  | some handle =>
    obtain ⟨s, hs, hgeneration, hlive⟩ := hw handle hhandle
    obtain ⟨array, harray⟩ := Option.isSome_iff_exists.1 hlive
    have hresolves : h.resolve? handle = some array :=
      Heap.resolve?_eq_some.2 ⟨s, hs, hgeneration, harray⟩
    simp [hhandle, hresolves] at hget

section Access

variable {image : Image} {f : UInt16} {heap : Heap} {m : Machine}

/-- An instruction that fails does not fail because of a handle that dangles. -/
abbrev Secure {α : Type} (ok : α → Machine → Prop) : EStateM.Result Fault Machine α → Prop :=
  Ensures ok fun e _ => ∀ bits, e ≠ .invalidHandle bits

theorem secure_of_raising {α : Type} {i : Instr} {x : EStateM.Result Fault Machine α}
    (hi : ∀ bits, i.raises (.invalidHandle bits) = false) (h : Raising i x) :
    Secure (fun _ _ => True) x := by
  cases x with
  | ok a m => trivial
  | error e m =>
    intro bits he
    subst he
    have hraises : i.raises (.invalidHandle bits) = true := h
    rw [hi bits] at hraises
    cases hraises

theorem secure_inspect {α : Type} {act : Machine → Except Fault α}
    (h : ∀ e, act m = .error e → ∀ bits, e ≠ .invalidHandle bits) :
    Secure (fun _ _ => True) (Machine.inspect act m) := by
  unfold Machine.inspect
  cases hact : act m with
  | ok a => trivial
  | error e => exact h e hact

theorem Heap.Resolves.access_ne {h : Heap} {array : Word} {e : Fault} (hw : h.Resolves array)
    (he : h.get array = .error e ∨ ∃ i n, e = .indexOutOfBounds i n) (bits : Nat) :
    e ≠ .invalidHandle bits := by
  intro hbits
  subst hbits
  rcases he with hget | ⟨i, n, he⟩
  · exact hw.get_ne bits hget
  · cases he

/-- In grounded memory an array is found by every handle. -/
theorem secure_act (next length : Nat) (i : Instr) {args : List Word}
    (hargs : ∀ w ∈ args, (Memory.grounded image True).good heap w) (hheap : m.memory.heap = heap) :
    Secure (fun _ _ => True) (Machine.act next length i args m) := by
  have hresolves (k : Nat) : heap.Resolves (operand args k) := Kept.good_operand hargs k trivial
  subst hheap
  cases i with
  | arrayLoad =>
    refine Ensures.bind (secure_inspect fun e he => ?_) fun _ _ _ => trivial
    exact (hresolves 1).access_ne (Heap.error_of_load he)
  | arrayStore =>
    have hstore : Secure (fun _ _ => True)
        (Machine.storeElement (operand args 2) (operand args 1) (operand args 0) m) := by
      rw [Machine.storeElement, Machine.onHeap_eq]
      cases he : Heap.store (operand args 2) (operand args 1) (operand args 0) m.memory.heap with
      | ok _ heap => trivial
      | error e heap => exact (hresolves 2).access_ne (Heap.error_of_store he)
    exact hstore.bind fun _ _ _ => trivial
  | arrayLen =>
    refine Ensures.bind (secure_inspect fun e he => ?_) fun _ _ _ => trivial
    cases hlength : m.memory.heap.length (operand args 0) with
    | ok n =>
      rw [hlength] at he
      cases he
    | error e' =>
      rw [hlength] at he
      obtain rfl := Except.error.inj he
      exact (hresolves 0).access_ne (.inl (Heap.error_of_length hlength))
  | _ =>
    exact secure_of_raising (fun _ => rfl)
      (Acting.raising ((acting_act next length _ args m).mono fun _ _ _ => trivial))

theorem secure_interpret (next length : Nat) (i : Instr)
    (h : Kept (Memory.grounded image True) f heap m) :
    Secure (fun _ _ => True) (Machine.interpret next length i m) := by
  have htake := (h.popOperands i.takes).withFailed
    (secure_of_raising (i := .pop) (fun _ => rfl) (acting_popOperands (fun _ => rfl) m).raising)
  refine Ensures.interpret htake (fun args m ⟨hargs, h⟩ => secure_act next length i hargs h.heap)
    fun outcome m _ _ => ?_
  cases outcome with
  | go flow => trivial
  | word w =>
    exact (secure_of_raising (i := .dup) (fun _ => rfl) (raising_push rfl w m)).bind
      fun _ _ _ => trivial

end Access

/-! ## Runs -/

section Runs

variable {image : Image} {setup : Setup} {s : State} {p q : Progress}

theorem State.Honest.accepts (hi : setup.image = image) (h : s.Honest setup) :
    (Memory.grounded image True).Accepts setup s := by
  subst hi
  intro i hmem hmakes w hw _
  exact Heap.resolves_of_plain (Word.isHandle_eq_false_iff.1 (h i hmem hmakes w hw))

/-- Bytes that are no instruction are not taken for a handle. -/
theorem Code.decode_ne_invalidHandle (code : Code) (pc bits : Nat) :
    code.decode pc ≠ .error (.invalidHandle bits) := by
  unfold Code.decode Code.decodeSized
  cases code[pc]? with
  | none => exact nofun
  | some b =>
    dsimp only
    cases Opcode.ofByte? b with
    | none => exact nofun
    | some op =>
      dsimp only
      split_ifs <;> exact nofun

/-- A step of grounded memory does not end with the fault of a handle that dangles. -/
theorem Invariant.Upheld.undangling (h : (Memory.grounded image True).Upheld (.running s)) :
    (s.step setup).Undangling := by
  cases h with
  | @running a m h =>
    rintro ⟨outcome, m'⟩ bits location hstep rfl
    obtain ⟨-, hblamed⟩ := State.blamed_of_interpret hstep
    cases hblamed with
    | undecodable _ _ hd => exact Code.decode_ne_invalidHandle _ _ bits hd
    | @instr function i _ _ _ _ hraises hm =>
      rcases hm with ⟨n, hm⟩ | ⟨g, rfl⟩ | rfl
      · obtain ⟨journal, hreport⟩ := report_eq setup a i m
        have hreported : Kept (Memory.grounded image True) a.function m.memory.heap
            (State.report setup a i m) := by
          rw [hreport]
          exact { h with }
        have hsecure := secure_interpret (a.pc + i.size) function.code.size i hreported
        rw [hm] at hsecure
        exact hsecure bits rfl
      · cases hraises
      · cases hraises

/-- At most `n` steps, as long as they are honest. -/
def Progress.honestSteps (setup : Setup) : Nat → Progress → Progress
  | 0, p => p
  | _, .ended e => .ended e
  | n + 1, .running s =>
    if s.Honest setup then (s.step setup).honestSteps setup n else .running s

theorem Progress.honestly_honestSteps (setup : Setup) (n : Nat) (p : Progress) :
    p.Honestly setup (p.honestSteps setup n) := by
  induction n generalizing p with
  | zero => exact .refl p
  | succ n ih =>
    cases p with
    | ended e => exact .refl _
    | running s =>
      rw [honestSteps]
      split_ifs with hs
      · exact .step hs (ih _)
      · exact .refl _

theorem State.undangling_start (setup : Setup) (m : Machine) :
    (State.start setup m).Undangling := by
  have hraises := raising_enterCall setup.image setup.image.entry setup.image.entry none m
  rintro ⟨outcome, m'⟩ bits location hstart rfl
  rw [State.start] at hstart
  cases hm : Machine.enterCall setup.image setup.image.entry setup.image.entry none m with
  | error e n =>
    rw [hm] at hraises
    simp only [hm] at hstart
    have hfault := State.fault_of_abort hstart
    obtain rfl := congrArg Failure.fault hfault
    cases hraises
  | ok routine n =>
    simp only [hm] at hstart
    cases routine <;> cases hstart

theorem Progress.Honestly.upheld (hi : setup.image = image) (h : p.Honestly setup q)
    (hp : (Memory.grounded image True).Upheld p) (hn : p.Undangling) :
    (Memory.grounded image True).Upheld q ∧ q.Undangling := by
  induction h with
  | refl => exact ⟨hp, hn⟩
  | step hs _ ih => exact ih (hp.step hi (hs.accepts hi)) hp.undangling

theorem Invariant.Upheld.handlesLive (h : (Memory.grounded image True).Upheld p) :
    p.machine.memory.HandlesLive := by
  have hgrounded : p.machine.memory.Grounded True := by
    cases h with
    | running h => exact h.holds
    | ended h => exact h.left
  exact fun w hw => Heap.resolves_iff.1 (hgrounded.resolves trivial w hw)

end Runs

/-- In every state that a run reaches honestly, in a session that only interprets and after any runs
    before, every handle in the memory names an array. So no access to an array fails because of a
    handle that dangles, whenever there are collections. -/
theorem Session.handles_live (image : Image) (settings : Settings) (console : Console)
    (observed : Bool) (allocator : Allocator) {s : Session} {p : Progress}
    (hs : (Session.begin image { settings with jitMode := .off } console observed
      allocator).Continues s)
    (hp : s.start.Honestly s.setup p) :
    p.machine.memory.HandlesLive ∧
      ∀ e bits location, p = .ended e → e.outcome ≠ .error ⟨.invalidHandle bits, location⟩ := by
  -- the runs before need not be honest: they leave a valid heap behind in any case
  have hbegin : (Memory.grounded image False).Ready
      (Session.begin image { settings with jitMode := .off } console observed allocator) :=
    ⟨rfl, rfl, Heap.valid_empty _ _ _⟩
  have hready := hbegin.continues (fun _ _ => False.elim) hs
  have hstart : (Memory.grounded image True).Upheld s.start :=
    Invariant.Ready.start ⟨hready.image, hready.off, hready.begins⟩
  obtain ⟨hupheld, hundangling⟩ := hp.upheld hready.image hstart (State.undangling_start _ _)
  exact ⟨hupheld.handlesLive, hundangling⟩

/-- The second run of a session uses the slots of the first again, and its handles are those of the
    next generation. -/
theorem Session.handles_live_forgetful :
    ∃ (s : Session) (p : Progress),
      (Session.begin .forgetful { ({} : Settings) with jitMode := .off } default
        false).Continues s ∧
      s.start.Honestly s.setup p ∧ p.top? = some (.ofHandle ⟨1, 1⟩) ∧
      p.machine.memory.HandlesLive ∧
      ∀ e bits location, p = .ended e → e.outcome ≠ .error ⟨.invalidHandle bits, location⟩ := by
  have heval : ((Session.begin .forgetful { ({} : Settings) with jitMode := .off } default
      false).run 10).map (fun r => (r.2.start.honestSteps r.2.setup 9).top?) =
        some (some (.ofHandle ⟨1, 1⟩)) := by decide +kernel
  obtain ⟨⟨outcome, s⟩, hrun, htop⟩ := Option.map_eq_some_iff.1 heval
  have hs : (Session.begin .forgetful { ({} : Settings) with jitMode := .off } default
      false).Continues s := .run (.refl _) hrun
  have hp := Progress.honestly_honestSteps s.setup 9 s.start
  exact ⟨s, _, hs, hp, htop, Session.handles_live .forgetful {} default false .willing hs hp⟩

end StackMachine
