import StackMachine.Proofs.Instr.Codec
import StackMachine.Proofs.Native.Framing
import StackMachine.Proofs.Native.Stepping

/-!
# Calls come back

A call that comes back leaves the caller as it was: control goes on behind the call, in the same
activation, and all frames are as before. Whether it has come back is told by the instructions that
are executed, of which each call opens and each `ret` closes one, and not by the frames.

The frames are followed on the machine that only interprets, where a call is a frame and nothing
else (`Pending`). The activations are followed on the machine that compiles, where a call may have
put any number of them upon those of the caller (`Upon`).

* `Progress.Returns`: control comes back.
* `Open.step`, `Tracked.returns`: what holds while a call is open, and when it has come back.
* `Session.call_preserves`: every call of every run.
-/

namespace StackMachine

open Native

variable {image : Image} {setup setup' : Setup}

/-! ## Coming back -/

/-- How many calls are open after the next instruction, if there are `n + 1` before it. -/
def State.openAfter (image : Image) (s : State) (n : Nat) : Nat :=
  match s.next? image with
  | some (.call _) => n + 2
  | some .ret => n
  | _ => n + 1

namespace State

variable {s : State} {n : Nat}

theorem openAfter_of_call {g : UInt16} (h : s.next? image = some (.call g)) :
    s.openAfter image n = n + 2 := by
  rw [openAfter, h]

theorem openAfter_of_ret (h : s.next? image = some .ret) : s.openAfter image n = n := by
  rw [openAfter, h]

theorem openAfter_of_plain {i : Instr} (h : s.next? image = some i) (hcall : ∀ g, i ≠ .call g)
    (hret : i ≠ .ret) : s.openAfter image n = n + 1 := by
  rw [openAfter, h]
  cases i with
  | call g => exact absurd rfl (hcall g)
  | ret => exact absurd rfl hret
  | _ => rfl

end State

/-- The run comes to a state where the last of `n` open calls has just returned. -/
inductive Progress.Returns (setup : Setup) : Nat → Progress → State → Prop
  | back (t : State) : Returns setup 0 (.running t) t
  | step {n : Nat} {s t : State}
      (h : Returns setup (s.openAfter setup.image n) (s.step setup) t) :
      Returns setup (n + 1) (.running s) t

theorem Progress.Returns.exists_running {n : Nat} {p : Progress} {t : State}
    (h : p.Returns setup n t) : ∃ s, p = .running s := by
  cases h with
  | back => exact ⟨t, rfl⟩
  | step h => exact ⟨_, rfl⟩

/-- Looks for this state among the next `fuel` ones. -/
def Progress.returned? (setup : Setup) : Nat → Nat → Progress → Option State
  | _, 0, .running t => some t
  | fuel + 1, n + 1, .running s =>
    (s.step setup).returned? setup fuel (s.openAfter setup.image n)
  | _, _, _ => none

theorem Progress.returns_of_returned? {fuel n : Nat} {p : Progress} {t : State}
    (h : p.returned? setup fuel n = some t) : p.Returns setup n t := by
  induction fuel generalizing n p with
  | zero =>
    cases p with
    | ended e => cases n <;> cases h
    | running s =>
      cases n with
      | zero =>
        cases h
        exact .back t
      | succ n => cases h
  | succ fuel ih =>
    cases p with
    | ended e => cases n <;> cases h
    | running s =>
      cases n with
      | zero =>
        cases h
        exact .back t
      | succ n => exact .step (ih h)

/-- Whether there is an operand, on the stack or in a register. -/
def State.hasOperands (s : State) : Bool :=
  match s.active with
  | .interpreting _ => !s.machine.memory.stack.isEmpty
  | .executing a => Workspace.hasOperands ⟨s.machine, a.registers⟩

/-- An activation that has only gone on. -/
inductive Activation.SameThread : Activation → Activation → Prop
  | interpreting {a b : Interpreting} (floor : b.floor = a.floor) :
      SameThread (.interpreting a) (.interpreting b)
  | executing {a b : Executing} (routine : b.routine = a.routine)
      (checked : b.checked = a.checked) : SameThread (.executing a) (.executing b)

/-! ## Activations upon those of the caller -/

/-- With `n` frames there are the given activations, on top of the caller `k` and those `below` it,
    which it had when it made a call with `d` frames. An interpreted callee runs in the activation
    of an interpreted caller, and the body of a leaf in that of a compiled one. -/
inductive Upon (k : Activation) (below : List Activation) (d : Nat) :
    List Activation → Nat → Prop
  | interpreter {b : Interpreting} {n : Nat} (thread : k.SameThread (.interpreting b))
      (floor : b.floor ≤ d) (hn : d ≤ n) : Upon k below d (.interpreting b :: below) n
  | routine {b : Executing} (thread : k.SameThread (.executing b)) :
      Upon k below d (.executing b :: below) d
  | interpreting {a : Interpreting} {rest : List Activation} {m n : Nat}
      (floor : a.floor = m + 1) (hn : m < n) (h : Upon k below d rest m) :
      Upon k below d (.interpreting a :: rest) n
  | executing {a : Executing} {rest : List Activation} {n : Nat} (h : Upon k below d rest n) :
      Upon k below d (.executing a :: rest) (n + 1)

namespace Upon

variable {k : Activation} {below waiting : List Activation} {d n : Nat} {m : Machine} {t : State}

theorem le {acts : List Activation} (h : Upon k below d acts n) : d ≤ n := by
  induction h with
  | interpreter thread floor hn => exact hn
  | routine thread => exact le_rfl
  | interpreting floor hn h ih => omega
  | executing h ih => omega

/-- With as many frames as at the call, the caller is active again. -/
theorem thread {b : Activation} (h : Upon k below d (b :: waiting) d) :
    k.SameThread b ∧ waiting = below := by
  generalize hd : d = n at h
  cases h with
  | interpreter thread floor hn => exact ⟨thread, rfl⟩
  | routine thread => exact ⟨thread, rfl⟩
  | interpreting floor hn h =>
    have := h.le
    omega
  | executing h =>
    have := h.le
    omega

theorem floor_le {a : Interpreting} (h : Upon k below d (.interpreting a :: waiting) n) :
    a.floor ≤ n := by
  cases h with
  | interpreter thread floor hn => exact Nat.le_trans floor hn
  | interpreting floor hn h => omega

/-- An activation of the interpreter may be anywhere, with any number of frames of its own. -/
theorem relocate {a b : Interpreting} {n' : Nat}
    (h : Upon k below d (.interpreting a :: waiting) n) (hfloor : b.floor = a.floor)
    (hd : d ≤ n') (hn : a.floor ≤ n') : Upon k below d (.interpreting b :: waiting) n' := by
  cases h with
  | interpreter thread floor _ =>
    refine .interpreter ?_ (hfloor ▸ floor) hd
    cases thread with
    | interpreting hk => exact .interpreting (hfloor.trans hk)
  | interpreting floor _ h => exact .interpreting (hfloor.trans floor) (by omega) h

theorem reroute {a b : Executing} (h : Upon k below d (.executing a :: waiting) n)
    (hroutine : b.routine = a.routine) (hchecked : b.checked = a.checked) :
    Upon k below d (.executing b :: waiting) n := by
  cases h with
  | routine thread =>
    refine .routine ?_
    cases thread with
    | executing hr hc => exact .executing (hroutine.trans hr) (hchecked.trans hc)
  | executing h => exact .executing h

/-- A step of interpreted code. When it pops a frame, this is not one of the caller's. -/
theorem interpreted {a : Interpreting}
    (h : Upon k below d (.interpreting a :: waiting) m.memory.calls.depth)
    (ht : Interpreted image a waiting m t)
    (hopen : t.machine.memory.calls.depth < m.memory.calls.depth → d < m.memory.calls.depth) :
    Upon k below d (t.active :: t.waiting) t.machine.memory.calls.depth := by
  have hle := h.le
  have hfloor := h.floor_le
  cases ht with
  | moves hi hcall hret touched =>
    have hdepth := touched.depth
    dsimp only
    exact h.relocate rfl (hdepth ▸ hle) (hdepth ▸ hfloor)
  | enters hi pushed =>
    have hdepth := pushed.depth
    dsimp only
    exact h.relocate rfl (by omega) (by omega)
  | starts hi pushed =>
    rw [pushed.depth]
    exact .executing (h.relocate rfl hle hfloor)
  | leaves hi popped floor =>
    have hdepth := popped.depth
    dsimp only at hopen ⊢
    exact h.relocate rfl (by omega) floor
  | @resumes _ _ _ _ m' hi popped floor hwaiting =>
    have hdepth := popped.depth
    dsimp only at hopen ⊢
    subst hwaiting
    cases h with
    | interpreter thread hfloor hn => omega
    | @interpreting _ _ j _ hj hn h =>
      -- the frame was the lowest of the activation
      have heq : j = m'.memory.calls.depth := by omega
      exact heq ▸ h

/-- A step of compiled code. -/
theorem executed {a : Executing}
    (h : Upon k below d (.executing a :: waiting) m.memory.calls.depth)
    (ht : Executed a waiting m t)
    (hopen : t.machine.memory.calls.depth < m.memory.calls.depth → d < m.memory.calls.depth) :
    Upon k below d (t.active :: t.waiting) t.machine.memory.calls.depth := by
  cases ht with
  | moves depth =>
    rw [depth]
    exact h.reroute rfl rfl
  | enters depth =>
    rw [depth]
    exact .interpreting rfl (Nat.lt_succ_self _) (h.reroute rfl rfl)
  | starts depth =>
    rw [depth]
    exact .executing (h.reroute rfl rfl)
  | resumes hop depth hwaiting =>
    subst hwaiting
    rw [depth] at h hopen
    have hlt := hopen (Nat.lt_succ_self _)
    generalize hn : _ + 1 = n at h hlt
    cases h with
    | routine thread => omega
    | executing h =>
      obtain rfl := Nat.succ.inj hn
      exact h

end Upon

/-! ## The instruction at hand -/

/-- Resolving a jump keeps the location, and makes no operation a `ret`. -/
theorem Native.relocate_eq_ok {starts : List (Nat × Nat)} {u v : Inst}
    (h : Native.relocate starts u = .ok v) :
    v.location = u.location ∧ (v.op = .ret → u.op = .ret) := by
  unfold Native.relocate at h
  split at h
  · split at h
    · cases h
      refine ⟨rfl, ?_⟩
      intro hret
      cases hret
    · cases h
  · cases h
    exact ⟨rfl, id⟩

/-- Compiled code is at an operation of the instruction at which the interpreter is, or at its end
    when the interpreter is behind the code. Where a leaf runs, this is no call, and its `ret` is
    not compiled to one. -/
theorem Stands.inst {r : Routine} {ip : Nat} {extra : List Frame} {f : UInt16} {pc : Nat}
    (h : Stands image r ip extra f pc) :
    (∃ op i, r.program.insts[ip]? = some ⟨op, ⟨f, pc⟩⟩ ∧ image.instr? ⟨f, pc⟩ = some i ∧
        (op = .ret → i = .ret ∧ extra = []) ∧ ∀ g, i = .call g → extra = []) ∨
      r.program.insts[ip]? = none ∧ f = r.program.function ∧ extra = [] ∧
        ∃ g, image.function? f = some g ∧ g.code.size ≤ pc := by
  cases h with
  | @own options code starts pc linked readable follows =>
    obtain ⟨g, hg, rfl⟩ := linked.source
    by_cases hpc : pc < g.code.size
    · obtain ⟨i, hd, hstray, hnext⟩ := readable.decode hpc
      rw [unlinkedFrom_of_decode _ _ _ hpc hd, emit] at follows
      refine .inl ?_
      cases hspliced : spliced? image options r.program.function i with
      | none =>
        rw [hspliced] at follows
        obtain ⟨⟨op, location⟩, hinst, hrelocate, -⟩ := follows.getElem?_cons
        obtain ⟨rfl, hop⟩ := relocate_eq_ok hrelocate
        refine ⟨op, i, hinst, Image.instr?_of_decode hg hpc hd, ?_, fun _ _ => rfl⟩
        intro hret
        have hlower := hop hret
        cases i with
        | ret => exact ⟨rfl, rfl⟩
        | _ => cases hlower
      | some spliced =>
        obtain ⟨callee, leaf⟩ := spliced
        rw [hspliced] at follows
        obtain ⟨inst, hinst, hrelocate, -⟩ := follows.getElem?_cons
        cases hrelocate
        refine ⟨_, i, hinst, Image.instr?_of_decode hg hpc hd, ?_, fun _ _ => rfl⟩
        intro hret
        cases hret
    · rw [unlinkedFrom_of_size_le _ _ _ (Nat.le_of_not_lt hpc)] at follows
      exact .inr ⟨follows.getElem?_nil, rfl, rfl, g, hg, Nat.le_of_not_lt hpc⟩
  | @leaf options code starts callee g room leaf pc next linked hg hleaf readable follows =>
    refine .inl ?_
    obtain ⟨i, hpc, hd, ⟨rfl, rfl⟩ | ⟨hstraight, room', rest, hrest, rfl⟩⟩ :=
      leafFrom?_eq_some hleaf
    · obtain ⟨inst, hinst, hrelocate, -⟩ := follows.getElem?_cons
      cases hrelocate
      refine ⟨_, _, hinst, Image.instr?_of_decode hg hpc hd, ?_, ?_⟩
      · intro hret
        cases hret
      · intro g hcall
        cases hcall
    · obtain ⟨inst, hinst, hrelocate, -⟩ := follows.getElem?_cons
      rw [relocate_of_not_jump (lower_ne_jump (Instr.jumpOffset?_of_isStraight hstraight) _)]
        at hrelocate
      cases hrelocate
      refine ⟨_, i, hinst, Image.instr?_of_decode hg hpc hd, ?_, ?_⟩
      · intro hret
        cases i with
        | ret => cases hstraight
        | _ => cases hret
      · rintro g rfl
        cases hstraight

/-- Both machines are at the same instruction. -/
theorem Mirrors.next?_eq {s t : State} (h : Mirrors image s t) : s.next? image = t.next? image := by
  cases h with
  | interpreting same floor backed => rfl
  | executing prepared twin checks stands backed =>
    rw [State.next?, State.next?]
    dsimp only [Activation.location]
    rcases stands.inst with ⟨op, i, hinst, -, -, -⟩ | ⟨hinst, rfl, -, g, hg, hpc⟩
    · rw [hinst]
    · rw [hinst]
      simp only [Image.instr?, hg, Option.map_some, Option.getD_some, le_refl, if_true, if_pos hpc]

/-- Both machines are at the same place, unless the interpreter is behind the code. -/
theorem Mirrors.location_eq {s t : State} {l : Location} {f : Image.Function}
    (h : Mirrors image s t) (hl : t.active.location image = l)
    (hf : image.function? l.function = some f) (hpc : l.pc ≤ f.code.size) :
    s.active.location image = l := by
  cases h with
  | interpreting same floor backed => exact hl
  | executing prepared twin checks stands backed =>
    subst hl
    dsimp only [Activation.location] at hf hpc ⊢
    rcases stands.inst with ⟨op, i, hinst, -, -, -⟩ | ⟨hinst, rfl, -, g, hg, hle⟩
    · rw [hinst]
    · obtain rfl := Option.some.inj (hf.symm.trans hg)
      rw [hinst]
      simp only [hg, Option.map_some, Option.getD_some, Nat.le_antisymm hle hpc]

/-- With as many frames the frames are the same. -/
theorem Mirrors.calls_eq {s t : State} (h : Mirrors image s t)
    (hdepth : t.machine.memory.calls.depth ≤ s.machine.memory.calls.depth) :
    s.machine.memory.calls = t.machine.memory.calls := by
  cases h with
  | interpreting same floor backed => exact same.calls
  | @executing _ _ _ _ extra _ _ _ prepared twin checks stands backed =>
    have halike := twin.alike
    have hextra : extra = [] := by
      have hlength := congrArg List.length halike.frames
      rw [List.length_append, Array.length_toList, Array.length_toList] at hlength
      rw [CallStack.depth, CallStack.depth] at hdepth
      dsimp only at hdepth hlength
      exact List.length_eq_zero_iff.1 (by omega)
    subst hextra
    exact halike.calls

theorem Mirrors.hasOperands_eq {s t : State} (h : Mirrors image s t) :
    s.hasOperands = !t.machine.memory.stack.isEmpty := by
  cases h with
  | interpreting same floor backed => rw [State.hasOperands, same.stack]
  | executing prepared twin checks stands backed =>
    rw [State.hasOperands]
    dsimp only
    rw [Workspace.hasOperands, twin.operands.isEmpty]

/-- Where a call is made, both machines have the same frames. -/
theorem Mirrors.calls_eq_of_call {s t : State} {g : UInt16} (h : Mirrors image s t)
    (hcall : s.next? image = some (.call g)) :
    s.machine.memory.calls = t.machine.memory.calls := by
  cases h with
  | interpreting same floor backed => exact same.calls
  | executing prepared twin checks stands backed =>
    rcases stands.inst with ⟨op, i, hinst, hi, -, hextra⟩ | ⟨-, -, rfl, -⟩
    · rw [State.next?] at hcall
      dsimp only [Activation.location] at hcall
      rw [hinst] at hcall
      obtain rfl := Option.some.inj (hi.symm.trans hcall)
      obtain rfl := hextra g rfl
      exact twin.alike.calls
    · exact twin.alike.calls

/-- A frame is popped only by a `ret`, and then both machines have the same frames. -/
theorem Mirrors.of_popped {s t v : State} (h : Mirrors image s t) (hi : setup.image = image)
    (hv : s.step setup = .running v)
    (hdepth : v.machine.memory.calls.depth < s.machine.memory.calls.depth) :
    s.next? image = some .ret ∧ s.machine.memory.calls = t.machine.memory.calls := by
  subst hi
  cases h with
  | interpreting same floor backed =>
    refine ⟨?_, same.calls⟩
    cases interpreted_of_running hv with
    | moves hi hcall hret touched =>
      have := touched.depth
      dsimp only at hdepth
      omega
    | enters hi pushed =>
      have := pushed.depth
      dsimp only at hdepth
      omega
    | starts hi pushed =>
      have := pushed.depth
      dsimp only at hdepth
      omega
    | leaves hi popped floor => exact hi
    | resumes hi popped floor hwaiting => exact hi
  | executing prepared twin checks stands backed =>
    cases executed_of_running hv with
    | moves depth =>
      dsimp only at hdepth
      omega
    | enters depth =>
      dsimp only at hdepth
      omega
    | starts depth =>
      dsimp only at hdepth
      omega
    | resumes hop depth hwaiting =>
      rcases stands.inst with ⟨op, i, hinst, hi, hret, -⟩ | ⟨hinst, -, -, -⟩
      · obtain ⟨rfl, -⟩ := Inst.mk.inj (Option.some.inj (hinst.symm.trans hop))
        obtain ⟨rfl, rfl⟩ := hret rfl
        rw [State.next?]
        dsimp only [Activation.location]
        rw [hinst]
        exact ⟨hi, twin.alike.calls⟩
      · rw [hinst] at hop
        cases hop

/-! ## Frames upon those of the caller -/

/-- The frames `base` are still there, and upon them, first of all, one that returns to `link`. -/
structure Pending (base : CallStack) (link : Link) (s : CallStack) : Prop where
  limit : s.limit = base.limit
  above : base.frames.size < s.frames.size
  below : ∀ i < base.frames.size, s.frames[i]? = base.frames[i]?
  link : s.frames[base.frames.size]?.map Frame.link = some link

namespace Pending

variable {base s s' : CallStack} {link link' : Link} {m m' : Machine}

theorem touched (h : Pending base link s) (hs : s.Touched s') : Pending base link s' where
  limit := hs.limit.trans h.limit
  above := hs.size ▸ h.above
  below := by
    intro i hi
    have habove := h.above
    rw [hs.below i (by omega), h.below i hi]
  link := (hs.links _).trans h.link

/-- A call leaves its own frame upon those that were there. -/
theorem first (h : m.Pushed link m') : Pending m.memory.calls link m'.memory.calls := by
  obtain ⟨frame, rfl, hcalls⟩ := h
  rw [hcalls]
  refine ⟨rfl, by simp, ?_, by simp⟩
  intro i hi
  rw [Array.getElem?_push, if_neg (by omega)]

theorem pushed (h : Pending base link m.memory.calls) (hm : m.Pushed link' m') :
    Pending base link m'.memory.calls := by
  obtain ⟨frame, -, hcalls⟩ := hm
  have habove := h.above
  rw [hcalls]
  refine ⟨h.limit, by rw [Array.size_push]; omega, ?_, ?_⟩
  · intro i hi
    rw [Array.getElem?_push, if_neg (by omega), h.below i hi]
  · rw [Array.getElem?_push, if_neg (by omega), h.link]

theorem popped (h : Pending base link m.memory.calls) (hm : m.Popped link' m')
    (hdepth : base.depth < m'.memory.calls.depth) : Pending base link m'.memory.calls := by
  have habove := h.above
  rw [hm.calls] at hdepth ⊢
  rw [CallStack.depth, CallStack.depth, Array.size_pop] at hdepth
  refine ⟨h.limit, by rw [Array.size_pop]; omega, ?_, ?_⟩
  · intro i hi
    rw [Array.getElem?_pop, if_pos (by omega), h.below i hi]
  · rw [Array.getElem?_pop, if_pos (by omega), h.link]

/-- When the frame of the call is popped, the frames are those from before, and control goes where
    the call said. -/
theorem last (h : Pending base link m.memory.calls) (hm : m.Popped link' m')
    (hdepth : m'.memory.calls.depth = base.depth) : m'.memory.calls = base ∧ link' = link := by
  have habove := h.above
  have hsize := hm.depth
  obtain ⟨frame, hback, rfl⟩ := hm.top
  rw [CallStack.depth] at hsize
  rw [hdepth, CallStack.depth] at hsize
  constructor
  · have hframes : m.memory.calls.frames.pop = base.frames := by
      apply Array.ext_getElem?
      intro i
      rw [Array.getElem?_pop]
      by_cases hi : i < base.frames.size
      · rw [if_pos (by omega), h.below i hi]
      · rw [if_neg (by omega), Array.getElem?_eq_none (Nat.le_of_not_lt hi)]
    rw [hm.calls, hframes, h.limit]
  · have hlink := h.link
    rw [Array.back?_eq_getElem?, hsize, Nat.add_sub_cancel] at hback
    rw [hback] at hlink
    exact Option.some.inj hlink

end Pending

/-! ## While a call is open -/

/-- What is known of a call from the state in which it was made: the frames, the place behind it,
    the caller's activation and those that waited for the caller. -/
structure CallSite where
  base : CallStack
  back : Location
  caller : Activation
  below : List Activation

/-- The call, and `n` more within it, are open. -/
structure Open (image : Image) (site : CallSite) (n : Nat) (s t : State) : Prop where
  mirrors : Mirrors image s t
  upon : Upon site.caller site.below site.base.depth (s.active :: s.waiting)
    s.machine.memory.calls.depth
  depth : t.machine.memory.calls.depth = site.base.depth + n + 1
  pending : Pending site.base (site.back.function, some site.back.pc) t.machine.memory.calls

/-- The call has just returned. -/
structure Returned (image : Image) (site : CallSite) (s t : State) : Prop where
  mirrors : Mirrors image s t
  upon : Upon site.caller site.below site.base.depth (s.active :: s.waiting)
    s.machine.memory.calls.depth
  calls : t.machine.memory.calls = site.base
  location : t.active.location image = site.back
  stack : t.machine.memory.stack.isEmpty = false

/-- As many calls are open, counted from the call. -/
def Tracked (image : Image) (site : CallSite) : Nat → State → State → Prop
  | 0 => Returned image site
  | n + 1 => Open image site n

theorem Mirrors.exists_interpreting {s t : State} (h : Mirrors image s t) :
    ∃ a n, t = ⟨.interpreting a, [], n⟩ := by
  cases h with
  | interpreting same floor backed => exact ⟨_, _, rfl⟩
  | executing prepared twin checks stands backed => exact ⟨_, _, rfl⟩

/-- One step of both machines. -/
theorem Mirrors.step_running {s t v : State} (h : Mirrors image s t) (hi : setup.image = image)
    (hi' : setup'.image = image) (hv : s.step setup = .running v) :
    ∃ v', t.step setup' = .running v' ∧ Mirrors image v v' := by
  have hmatches := h.step hi hi'
  rw [hv] at hmatches
  generalize t.step setup' = q at hmatches
  cases hmatches with
  | running h => exact ⟨_, rfl, h⟩

/-- The activations of a state, as those of a caller. -/
theorem Mirrors.upon_self {s t : State} (h : Mirrors image s t) :
    Upon s.active s.waiting s.machine.memory.calls.depth (s.active :: s.waiting)
      s.machine.memory.calls.depth := by
  cases h with
  | interpreting same known floor backed =>
    refine .interpreter (.interpreting rfl) ?_ le_rfl
    rw [← CallStack.length_links, same.links, List.length_append, floor]
    exact Nat.le_add_left _ _
  | executing prepared twin checks stands backed => exact .routine (.executing rfl rfl)

theorem Upon.step {k : Activation} {below : List Activation} {d : Nat} {s v : State}
    (h : Upon k below d (s.active :: s.waiting) s.machine.memory.calls.depth)
    (hv : s.step setup = .running v)
    (hopen : v.machine.memory.calls.depth < s.machine.memory.calls.depth →
      d < s.machine.memory.calls.depth) :
    Upon k below d (v.active :: v.waiting) v.machine.memory.calls.depth := by
  obtain ⟨active, waiting, m⟩ := s
  cases active with
  | interpreting a => exact h.interpreted (interpreted_of_running hv) hopen
  | executing a => exact h.executed (executed_of_running hv) hopen

namespace Open

variable {site : CallSite} {n : Nat} {s t v : State}

/-- One step while a call is open. -/
theorem step (h : Open image site n s t) (hi : setup.image = image) (hi' : setup'.image = image)
    (hv : s.step setup = .running v) : ∃ v', Tracked image site (s.openAfter image n) v v' := by
  obtain ⟨v', hv', hmirrors⟩ := h.mirrors.step_running hi hi' hv
  have hdepth := h.depth
  have hupon := h.upon.step hv (by
    intro hlt
    rw [(h.mirrors.of_popped hi hv hlt).2, hdepth]
    omega)
  have hnext := h.mirrors.next?_eq
  have hpending := h.pending
  obtain ⟨a, m, rfl⟩ := h.mirrors.exists_interpreting
  have hinterpreted : Interpreted image a [] m v' := hi' ▸ interpreted_of_running hv'
  refine ⟨v', ?_⟩
  cases hinterpreted with
  | moves hinstr hcall hret touched =>
    rw [State.openAfter_of_plain (hnext.trans hinstr) hcall hret]
    exact ⟨hmirrors, hupon, touched.depth.trans hdepth, hpending.touched touched⟩
  | enters hinstr pushed =>
    rw [State.openAfter_of_call (hnext.trans hinstr)]
    exact ⟨hmirrors, hupon, pushed.depth.trans (congrArg (· + 1) hdepth), hpending.pushed pushed⟩
  | starts hinstr pushed =>
    rw [State.openAfter_of_call (hnext.trans hinstr)]
    exact ⟨hmirrors, hupon, pushed.depth.trans (congrArg (· + 1) hdepth), hpending.pushed pushed⟩
  | leaves hinstr popped floor =>
    rw [State.openAfter_of_ret (hnext.trans hinstr)]
    have hsize := popped.depth
    dsimp only at hdepth
    cases n with
    | zero =>
      -- the frame that is popped is that of the call
      obtain ⟨hcalls, hlink⟩ := hpending.last popped (by omega)
      obtain ⟨rfl, hpc⟩ := Prod.mk.inj hlink
      obtain rfl := Option.some.inj hpc
      exact ⟨hmirrors, hupon, hcalls, rfl, popped.stack⟩
    | succ n =>
      have hleft : Pending site.base _ _ := hpending.popped popped (by omega)
      refine ⟨hmirrors, hupon, ?_, hleft⟩
      dsimp only
      omega
  | resumes hinstr popped floor hwaiting => cases hwaiting

/-- What a call opens. -/
theorem start {g : UInt16} {l : Location} (h : Mirrors image s t) (hi : setup.image = image)
    (hi' : setup'.image = image) (hcall : s.next? image = some (.call g))
    (hl : t.active.location image = l) (hv : s.step setup = .running v) :
    ∃ v', Open image ⟨s.machine.memory.calls, ⟨l.function, l.pc + Opcode.call.size⟩, s.active,
      s.waiting⟩ 0 v v' := by
  obtain ⟨v', hv', hmirrors⟩ := h.step_running hi hi' hv
  have hcalls := h.calls_eq_of_call hcall
  have hupon := h.upon_self.step hv (by
    intro hlt
    have hret := (h.of_popped hi hv hlt).1
    rw [hcall] at hret
    cases hret)
  have hnext := h.next?_eq
  obtain ⟨a, m, rfl⟩ := h.exists_interpreting
  have hinterpreted : Interpreted image a [] m v' := hi' ▸ interpreted_of_running hv'
  have hpushed := hinterpreted.pushed (hnext.symm.trans hcall)
  subst hl
  refine ⟨v', hmirrors, hupon, ?_, ?_⟩
  · rw [hpushed.depth, hcalls]
  · rw [hcalls]
    exact .first hpushed

end Open

/-- A run that comes back from a call. -/
theorem Tracked.returns {site : CallSite} {n : Nat} {p : Progress} {s t u : State}
    (h : Tracked image site n s u) (hi : setup.image = image) (hi' : setup'.image = image)
    (hp : p = .running s) (hreturns : p.Returns setup n t) :
    ∃ t', Returned image site t t' := by
  subst hi
  -- the interpreting machine `u` changes along the run, and is only known to exist at its end
  induction hreturns generalizing s u with
  | back t =>
    cases hp
    exact ⟨u, h⟩
  | step hrest ih =>
    cases hp
    obtain ⟨v, hv⟩ := hrest.exists_running
    obtain ⟨v', htracked⟩ := Open.step h rfl hi' hv
    exact ih hv htracked

/-- When the call has returned, the caller is as it was. -/
theorem Returned.restored {site : CallSite} {s t : State} (h : Returned image site s t) :
    s.machine.memory.calls = site.base ∧ site.caller.SameThread s.active ∧
      s.waiting = site.below := by
  -- there are no fewer frames than at the call, so no spliced leaf is at work
  have hge := h.upon.le
  have hcalls := h.mirrors.calls_eq (h.calls ▸ hge)
  rw [h.calls] at hcalls
  have hupon := h.upon
  rw [hcalls] at hupon
  obtain ⟨hthread, hwaiting⟩ := hupon.thread
  exact ⟨hcalls, hthread, hwaiting⟩

/-! ## Every call -/

/-- **Calls preserve the caller.** In every run of a session, interpreted, compiled or mixed, and
    after any runs before: if control comes back from a call, of whatever kind, it goes on at the
    instruction behind the call and in the activation that made it, with the same activations
    waiting. All frames are as before the call, with their locals, and there is an operand. -/
theorem Session.call_preserves (image : Image) (settings : Settings) (console : Console)
    (observed : Bool) (allocator : Allocator) {s : Session} {c t : State} {g : UInt16}
    (hs : (Session.begin image settings console observed allocator).Continues s)
    (hc : s.start.Visits s.setup c) (hcall : c.next? image = some (.call g))
    (ht : (c.step s.setup).Returns s.setup 1 t) :
    t.active.location image = ⟨(c.active.location image).function,
        (c.active.location image).pc + Opcode.call.size⟩ ∧
      t.machine.memory.calls = c.machine.memory.calls ∧ t.hasOperands = true ∧
      c.active.SameThread t.active ∧ t.waiting = c.waiting := by
  have hsettled := (Session.settled_begin image settings console observed allocator).continues hs
  have hmatches : Matches image s.start s.uncompiled.start := hsettled.image ▸ hsettled.same.start
  obtain ⟨c', -, hmirrors⟩ := hmatches.visits hsettled.image hsettled.ready.image hc
  obtain ⟨f, hf, hpc, hd⟩ := Image.instr?_eq_some (hmirrors.next?_eq.symm.trans hcall)
  rw [hmirrors.location_eq rfl hf (Nat.le_of_lt hpc)]
  obtain ⟨v, hv⟩ := ht.exists_running
  obtain ⟨v', hopen⟩ := Open.start hmirrors hsettled.image hsettled.ready.image hcall rfl hv
  have htracked : Tracked image _ 1 v v' := hopen
  obtain ⟨t', hreturned⟩ := htracked.returns hsettled.image hsettled.ready.image hv ht
  obtain ⟨hcalls, hthread, hwaiting⟩ := hreturned.restored
  have hlocation := hreturned.mirrors.location_eq hreturned.location hf
    (Code.add_size_le_of_decode hd)
  refine ⟨hlocation, hcalls, ?_, hthread, hwaiting⟩
  rw [hreturned.mirrors.hasOperands_eq, hreturned.stack]
  rfl

/-- A compiled function calls a compiled one, which calls one that is interpreted, and both calls
    come back. -/
theorem Session.call_preserves_nested :
    ∃ s c t, (Session.begin .nested .eager default false).Continues s ∧
      s.start.Visits s.setup c ∧ c.next? .nested = some (.call 1) ∧
      (c.step s.setup).Returns s.setup 1 t ∧ t.active.location .nested = ⟨0, 3⟩ ∧
      t.machine.memory.calls = c.machine.memory.calls ∧ t.hasOperands = true ∧
      c.active.SameThread t.active ∧ t.waiting = c.waiting := by
  have heval : ((Session.begin .nested .eager default false).start.after?
      (Session.begin .nested .eager default false).setup 0).map (fun c =>
        (c.next? .nested, c.active.location .nested,
          ((c.step (Session.begin .nested .eager default false).setup).returned?
            (Session.begin .nested .eager default false).setup 10 1).isSome)) =
      some (some (.call 1), ⟨0, 0⟩, true) := by decide +kernel
  obtain ⟨c, hafter, heq⟩ := Option.map_eq_some_iff.1 heval
  obtain ⟨hcall, hlocation, hreturned⟩ : _ ∧ _ ∧ _ := by simpa only [Prod.mk.injEq] using heq
  obtain ⟨t, ht⟩ := Option.isSome_iff_exists.1 hreturned
  have hs := Session.Continues.refl (Session.begin .nested .eager default false)
  have hc := Progress.visits_of_after? hafter
  have hreturns := Progress.returns_of_returned? ht
  have hpreserves := Session.call_preserves .nested .eager default false .willing hs hc hcall
    hreturns
  rw [hlocation] at hpreserves
  exact ⟨_, c, t, hs, hc, hcall, hreturns, hpreserves⟩

end StackMachine
