import StackMachine.Proofs.Machine.Frames
import StackMachine.Proofs.Native.Transparency

/-!
# Frames under compiled code

Compiled code keeps the chain of frames as well: it pushes and pops the same frames as the
interpreter, apart from those of the leaves that are spliced into it. The frames of a state are
therefore those of the interpreter at the same point, with at most one missing on top.

* `Mirrors.framed`: what the interpreter keeps, compiled code keeps.
* `Session.frames_chained`: in every state of every run the frames form a chain.
-/

namespace StackMachine

open Native

/-- The function whose code is running. -/
def Activation.function : Activation → UInt16
  | .interpreting a => a.function
  | .executing a => a.routine.program.function

variable {image : Image} {setup setup' : Setup} {maxStack maxCallDepth : Nat}

/-! ## States of a run -/

/-- The state after `n` steps, unless the run has ended by then. -/
def Progress.after? (setup : Setup) : Nat → Progress → Option State
  | _, .ended _ => none
  | 0, .running s => some s
  | n + 1, .running s => (s.step setup).after? setup n

theorem Progress.visits_of_after? {n : Nat} {p : Progress} {t : State}
    (h : p.after? setup n = some t) : p.Visits setup t := by
  induction n generalizing p with
  | zero =>
    cases p with
    | ended e => cases h
    | running s =>
      obtain rfl := Option.some.inj h
      exact .here s
  | succ n ih =>
    cases p with
    | ended e => cases h
    | running s => exact .later (ih h)

/-- A run that compiles goes through states that mirror those of the run that does not. -/
theorem Matches.visits {p q : Progress} {s : State} (hi : setup.image = image)
    (hi' : setup'.image = image) (h : Matches image p q) (hs : p.Visits setup s) :
    ∃ t, q.Visits setup' t ∧ Mirrors image s t := by
  induction hs generalizing q with
  | here s =>
    cases h with
    | running h => exact ⟨_, .here _, h⟩
  | later _ ih =>
    cases h with
    | running h =>
      obtain ⟨t, ht, hmirrors⟩ := ih (h.step hi hi')
      exact ⟨t, .later ht, hmirrors⟩

/-- The run that does not compile goes through no other states. -/
theorem Matches.visits_right {p q : Progress} {t : State} (hi : setup.image = image)
    (hi' : setup'.image = image) (h : Matches image p q) (ht : q.Visits setup' t) :
    ∃ s, p.Visits setup s ∧ Mirrors image s t := by
  induction ht generalizing p with
  | here t =>
    cases h with
    | running h => exact ⟨_, .here _, h⟩
  | later _ ih =>
    cases h with
    | running h =>
      obtain ⟨s, hs, hmirrors⟩ := ih (h.step hi hi')
      exact ⟨s, .later hs, hmirrors⟩

/-! ## Related states -/

section Alike

variable {links : List Link} {extra : List Frame} {m n : Machine}

/-- The frames below some further ones form a chain as well. -/
theorem Alike.chain (h : Alike image links extra m n) (hlinks : links ≠ [])
    (hchain : FrameChain image n.memory.calls.frames) : FrameChain image m.memory.calls.frames := by
  have hpos : 0 < m.memory.calls.frames.size := by
    have hlength := m.memory.calls.length_links
    rw [h.links, CallStack.depth] at hlength
    rw [← hlength]
    exact List.length_pos_iff.2 hlinks
  refine hchain.thin hpos fun i f hf => ⟨f, ?_, .refl f⟩
  have hlt := (Array.getElem?_eq_some_iff.1 hf).1
  rw [← Array.getElem?_toList, h.frames, List.getElem?_append_left (by simpa using hlt)]
  exact Array.getElem?_toList.trans hf

/-- The top frame belongs to the compiled function, also while a leaf that is spliced into it runs:
    the frame that the interpreter has for the leaf was pushed by a call in that function. -/
theorem Stands.top {r : Routine} {ip pc : Nat} {f : UInt16} (h : Stands image r ip extra f pc)
    (halike : Alike image links extra m n) (hn : n.memory.Framed image maxStack maxCallDepth f) :
    ∃ frame, m.memory.calls.frames.back? = some frame ∧ frame.function = r.program.function := by
  cases h with
  | own =>
    rw [halike.calls]
    exact hn.top
  | @leaf _ _ _ _ _ _ _ _ next =>
    have hframes : n.memory.calls.frames =
        m.memory.calls.frames.push (leafFrame f r.program.function next) := by
      apply Array.toList_inj.1
      rw [halike.frames, Array.toList_push]
    have hpop := hn.chain.back?_pop (hframes ▸ Array.back?_push) rfl
    rw [hframes, Array.pop_push] at hpop
    exact hpop

end Alike

/-- What the interpreter keeps, compiled code keeps. -/
theorem Mirrors.framed {s t : State} (h : Mirrors image s t)
    (ht : (Memory.framed image maxStack maxCallDepth).Upheld (.running t)) :
    s.machine.memory.Framed image maxStack maxCallDepth s.active.function := by
  cases ht with
  | running hkept =>
    have hn := hkept.holds
    cases h with
    | interpreting same floor backed =>
      exact {
        stackLimit := same.stackLimit.trans hn.stackLimit
        callLimit := same.callLimit.trans hn.callLimit
        stack := same.stack ▸ hn.stack
        depth := same.calls ▸ hn.depth
        globals := same.globals ▸ hn.globals
        chain := same.calls ▸ hn.chain
        top := same.calls ▸ hn.top }
    | executing prepared twin checks stands backed =>
      have halike := twin.alike
      exact {
        stackLimit := halike.stackLimit.trans hn.stackLimit
        callLimit := halike.callLimit.trans hn.callLimit
        stack := by
          -- the operands of compiled code that are not in registers
          have hsize := twin.operands.size_eq
          have hstack := hn.stack
          rw [OperandStack.size] at hstack ⊢
          dsimp only at hsize ⊢
          omega
        depth := Nat.le_trans halike.depth_le hn.depth
        globals := halike.globals ▸ hn.globals
        chain := halike.chain backed.ne_nil hn.chain
        top := stands.top halike hn }

/-! ## Sessions -/

/-- A session over an image, with its limits, that has compiled nothing but functions of the
    image. -/
structure Session.Settled (image : Image) (maxStack maxCallDepth : Nat) (s : Session) : Prop where
  sound : s.machine.promotion.Sound image
  limited : s.machine.memory.Limited maxStack maxCallDepth
  image : s.setup.image = image

/-- The same session, from now on without compiled code. -/
def Session.uncompiled (s : Session) : Session :=
  { s with machine := { s.machine with promotion := { s.machine.promotion with mode := .off } } }

namespace Session.Settled

variable {s t : Session}

theorem same (h : s.Settled image maxStack maxCallDepth) : SameSession s s.uncompiled where
  image := rfl
  agrees := {
    sound := h.image ▸ h.sound
    off := rfl
    stackLimit := rfl
    callLimit := rfl
    globals := rfl
    heap := rfl
    console := rfl
    collector := rfl }

theorem ready (h : s.Settled image maxStack maxCallDepth) :
    (Memory.framed image maxStack maxCallDepth).Ready s.uncompiled :=
  ⟨h.image, rfl, h.limited⟩

theorem run {fuel : Nat} {outcome : Except Failure Word}
    (h : s.Settled image maxStack maxCallDepth) (hrun : s.run fuel = some (outcome, t)) :
    t.Settled image maxStack maxCallDepth := by
  have hsame := h.same.run fuel
  rw [hrun] at hsame
  cases hrun' : s.uncompiled.run fuel with
  | none =>
    rw [hrun'] at hsame
    cases hsame
  | some r =>
    obtain ⟨outcome', t'⟩ := r
    rw [hrun'] at hsame
    cases hsame with
    | some hsame =>
      obtain ⟨-, hsame⟩ := hsame
      have hready := h.ready.run (fun _ _ => trivial) hrun'
      have himage : t.setup.image = image := hsame.image.symm.trans hready.image
      exact {
        sound := himage ▸ hsame.agrees.sound
        limited := {
          stackLimit := hsame.agrees.stackLimit.trans hready.begins.stackLimit
          callLimit := hsame.agrees.callLimit.trans hready.begins.callLimit }
        image := himage }

theorem continues (h : s.Settled image maxStack maxCallDepth) (hst : s.Continues t) :
    t.Settled image maxStack maxCallDepth := by
  induction hst with
  | refl => exact h
  | run _ hrun ih => exact ih.run hrun
  | collect _ ih => exact { ih with limited := ⟨ih.limited.stackLimit, ih.limited.callLimit⟩ }

end Session.Settled

theorem Session.settled_begin (image : Image) (settings : Settings) (console : Console)
    (observed : Bool) (allocator : Allocator) :
    (Session.begin image settings console observed allocator).Settled image settings.maxStack
      settings.maxCallDepth :=
  ⟨Promotion.sound_fresh _ _, ⟨rfl, rfl⟩, rfl⟩

/-- In every state of every run of a session, interpreted, compiled or mixed, and after any runs
    before: neither stack is larger than the settings allow, there are as many globals as the image
    asks for, and the frames form a chain from the entry function to the function whose code is
    running. -/
theorem Session.frames_chained (image : Image) (settings : Settings) (console : Console)
    (observed : Bool) (allocator : Allocator) {s : Session} {t : State}
    (hs : (Session.begin image settings console observed allocator).Continues s)
    (ht : s.start.Visits s.setup t) :
    t.machine.memory.Framed image settings.maxStack settings.maxCallDepth t.active.function := by
  have hsettled := (settled_begin image settings console observed allocator).continues hs
  have hready := hsettled.ready
  have hmatches : Matches image s.start s.uncompiled.start := hsettled.image ▸ hsettled.same.start
  obtain ⟨t', ht', hmirrors⟩ := hmatches.visits hsettled.image hready.image ht
  refine hmirrors.framed (hready.start.visits hready.image ht' ?_)
  exact fun _ _ _ _ _ _ _ => trivial

/-- A program of three functions that call each other. The jump at the end of the last one leads out
    of its code, so that this function cannot be compiled. -/
def Image.nested : Image where
  version := 1
  globals := 1
  entry := 0
  functions :=
    let main : List Instr := [.call 1, .halt]
    let outer : List Instr := [.call 2, .ret]
    let inner : List Instr := [.pushInt 5, .ret, .jump .always 100]
    #[⟨0, 0, 0, (main.flatMap Instr.encode).toArray⟩,
      ⟨1, 0, 1, (outer.flatMap Instr.encode).toArray⟩,
      ⟨2, 0, 2, (inner.flatMap Instr.encode).toArray⟩]

/-- Two compiled functions wait for one that is interpreted, and each has its frame. -/
theorem Session.frames_chained_nested :
    ∃ s t, (Session.begin .nested .eager default false).Continues s ∧ s.start.Visits s.setup t ∧
      t.active = .interpreting ⟨2, 9, 3⟩ ∧ t.waiting.length = 2 ∧
      t.machine.memory.calls.links = [(1, some 3), (0, some 3), (0, none)] ∧
      t.machine.memory.Framed .nested 65536 1024 2 := by
  have heval : ((Session.begin .nested .eager default false).start.after?
      (Session.begin .nested .eager default false).setup 3).map
        (fun t => (t.active, t.waiting.length, t.machine.memory.calls.links)) =
      some (.interpreting ⟨2, 9, 3⟩, 2, [(1, some 3), (0, some 3), (0, none)]) := by decide +kernel
  obtain ⟨t, ht, heq⟩ := Option.map_eq_some_iff.1 heval
  obtain ⟨hactive, hwaiting, hlinks⟩ : _ ∧ _ ∧ _ := by simpa only [Prod.mk.injEq] using heq
  have hs := Session.Continues.refl (Session.begin .nested .eager default false)
  have hvisits := Progress.visits_of_after? ht
  have hframed := Session.frames_chained .nested .eager default false .willing hs hvisits
  rw [hactive] at hframed
  exact ⟨_, t, hs, hvisits, hactive, hwaiting, hlinks, hframed⟩

end StackMachine
