import StackMachine.Proofs.Native.Located
import StackMachine.Proofs.Native.Moves

/-!
# The nesting of compiled code is balanced

Promotion counts how many compiled activations are nested, and for each function how often its
compiled code was left. `Balance` is the account that belongs to it: what has been entered since
some point, and what has not been left yet. Calls that are counted keep the account, entering and
leaving compiled code bring it forward, so that every step of a run keeps it, whether control
returns or the run ends.

A call that finds compiled code is an `Attempt`: it is refused when too many compiled activations
are nested, it fails when there is no room for the frame, or the compiled code runs with all that it
calls. An attempt is defined by steps above a caller that never acts. What it does, a call in a run
does, whatever waits below.

* `State.balanced_step`, `Progress.Balanced.leads`: what one step keeps, and what a run keeps.
* `Machine.enterCall_of_attempt`: calls in a run are attempts.
* `Session.nesting_balanced`: the account is balanced in every run of a session.
-/

namespace StackMachine

open Native

/-! ## The account of compiled code -/

namespace Promotion

variable {image : Image} {p p₀ q : Promotion} {entered inside : List UInt16} {f : UInt16}

/-- How often compiled code of the function was left. -/
def executions (p : Promotion) (f : UInt16) : Nat :=
  (p.table.get? f).elim 0 FunctionRecord.executions

/-- Since promotion was `p₀`, compiled code of the functions `entered` has been entered, and that of
    the functions `inside` has not been left. -/
structure Balance (image : Image) (p₀ : Promotion) (entered inside : List UInt16)
    (p : Promotion) : Prop where
  sound : p.Sound image
  bounded : p.depth ≤ maxDepth
  depth : p.depth = p₀.depth + inside.length
  executions : ∀ f, p.executions f + inside.count f = p₀.executions f + entered.count f
  recorded : ∀ f ∈ inside, (p.table.get? f).isSome

/-- Counting a call changes neither the depth nor an account of executions. -/
theorem onCall_eq_modify (image : Image) (p : Promotion) (f : UInt16) :
    ∃ effect : FunctionRecord → FunctionRecord, (∀ r, (effect r).executions = r.executions) ∧
      (p.onCall image f).2.2 = { p with table := p.table.modify f effect } := by
  refine ⟨_, fun r => ?_, (Request.perform_eq p (.call f)).2⟩
  have hsettle : ∀ r : FunctionRecord, (r.settle image f p.options).executions = r.executions := by
    intro r
    unfold FunctionRecord.settle
    split
    · split <;> rfl
    · rfl
  unfold Request.effect
  dsimp only
  split_ifs
  · rfl
  · rfl
  · exact hsettle r.counted

namespace Balance

theorem refl (hsound : p.Sound image) (hbounded : p.depth ≤ maxDepth) :
    Balance image p [] [] p where
  sound := hsound
  bounded := hbounded
  depth := rfl
  executions _ := rfl
  recorded := by simp

theorem counts (h : Balance image p₀ entered inside p) (hq : p.Counts image q) :
    Balance image p₀ entered inside q := by
  rcases hq with rfl | ⟨f, rfl⟩
  · exact h
  · obtain ⟨effect, heffect, heq⟩ := onCall_eq_modify image p f
    have hsound := h.sound.onCall f
    rw [heq] at hsound ⊢
    refine ⟨hsound, h.bounded, h.depth, fun k => ?_, fun k hk => ?_⟩
    · rw [← h.executions k]
      congr 1
      unfold Promotion.executions
      rw [FunctionTable.get?_modify]
      split_ifs
      · cases p.table.get? k <;> simp [heffect]
      · rfl
    · rw [FunctionTable.get?_modify]
      have hrecorded := h.recorded k hk
      split_ifs
      · rwa [Option.isSome_map]
      · exact hrecorded

/-- Entering compiled code. There is a record of the function, since its code was found there. -/
theorem enter {r : Routine} (h : Balance image p₀ entered inside p) (hr : p.routine? f = some r) :
    Balance image p₀ (entered ++ [r.program.function]) (r.program.function :: inside) p.enter := by
  obtain ⟨options, program, hcompile, rfl⟩ := h.sound.routine? hr
  have hfunction : program.prepare.program.function = f := (compile_linked hcompile).1
  rw [hfunction]
  unfold Promotion.routine? at hr
  split_ifs at hr with hdepth
  refine ⟨h.sound.enter, ?_, ?_, fun k => ?_, fun k hk => ?_⟩
  · show p.depth + 1 ≤ maxDepth
    omega
  · show p.depth + 1 = p₀.depth + (f :: inside).length
    rw [h.depth, List.length_cons, Nat.add_assoc]
  · have hk := h.executions k
    show p.executions k + (f :: inside).count k = _
    rw [List.count_append, List.count_cons, List.count_singleton]
    omega
  · rcases List.mem_cons.1 hk with rfl | hk
    · show (p.table.get? k).isSome
      unfold FunctionTable.routine? at hr
      cases hget : p.table.get? k with
      | none =>
        rw [hget] at hr
        cases hr
      | some record => rfl
    · exact h.recorded k hk

/-- Leaving compiled code. -/
theorem leave (h : Balance image p₀ entered (f :: inside) p) :
    Balance image p₀ entered inside (p.leave f) := by
  have hdepth := h.depth
  rw [List.length_cons] at hdepth
  have hrecorded := h.recorded f List.mem_cons_self
  refine ⟨h.sound.leave f, ?_, ?_, fun k => ?_, fun k hk => ?_⟩
  · show p.depth - 1 ≤ maxDepth
    have hbounded := h.bounded
    omega
  · show p.depth - 1 = p₀.depth + inside.length
    omega
  · have hk := h.executions k
    rw [List.count_cons] at hk
    rw [← hk]
    unfold Promotion.executions Promotion.leave FunctionTable.recordExecution
    rw [FunctionTable.get?_modify]
    by_cases hf : f = k
    · subst hf
      obtain ⟨record, hrecord⟩ := Option.isSome_iff_exists.1 hrecorded
      simp only [hrecord, if_true, Option.map_some, Option.elim_some, beq_self_eq_true]
      omega
    · simp [hf]
  · have hmem := h.recorded k (List.mem_cons_of_mem f hk)
    show ((p.table.modify f _).get? k).isSome
    rw [FunctionTable.get?_modify]
    split_ifs
    · rwa [Option.isSome_map]
    · exact hmem

theorem leaveAll {fs : List UInt16} (h : Balance image p₀ entered (fs ++ inside) p) :
    Balance image p₀ entered inside (p.leaveAll fs) := by
  induction fs generalizing p with
  | nil => exact h
  | cons f fs ih => exact ih h.leave

end Balance

end Promotion

/-! ## Steps and runs -/

/-- The functions of the compiled activations, latest first. -/
def compiledOf (activations : List Activation) : List UInt16 :=
  activations.filterMap Activation.compiled?

theorem compiledOf_cons (a : Activation) (activations : List Activation) :
    compiledOf (a :: activations) = a.compiled?.toList ++ compiledOf activations := by
  cases a <;> rfl

namespace Progress

/-- The function whose compiled code has just been entered, if the activations `waiting` waited
    before. -/
def entered (waiting : List Activation) : Progress → List UInt16
  | .running s => if waiting.length < s.waiting.length then s.active.compiled?.toList else []
  | .ended _ => []

/-- The account of a run. The code that is not left yet is that of the compiled activations; when
    the run has ended, there is none. -/
def Balanced (image : Image) (p₀ : Promotion) (log : List UInt16) : Progress → Prop
  | .running s => p₀.Balance image log (compiledOf (s.active :: s.waiting)) s.machine.promotion
  | .ended e => p₀.Balance image log [] e.machine.promotion

/-- Some steps lead from one to the other, and enter the compiled code of the functions `log` on
    the way. -/
inductive Leads (setup : Setup) : Progress → List UInt16 → Progress → Prop
  | refl (p : Progress) : Leads setup p [] p
  | step {s : State} {log : List UInt16} {q : Progress} (h : Leads setup (s.step setup) log q) :
      Leads setup (.running s) ((s.step setup).entered s.waiting ++ log) q

end Progress

namespace Move

/-- The compiled code that a move enters. -/
def entered : Move → List UInt16
  | calls a _ _ => a.compiled?.toList
  | _ => []

theorem entered_upon (move : Move) (waiting : List Activation) :
    (move.upon waiting).entered waiting = move.entered := by
  cases move with
  | stays a m => exact if_neg (Nat.lt_irrefl _)
  | calls a back m => exact if_pos (Nat.lt_succ_self _)
  | ends outcome m => rfl
  | strays fault base m => rfl
  | returns m =>
    cases waiting with
    | nil => rfl
    | cons a waiting => exact if_neg (Nat.not_lt.2 (Nat.le_succ _))

variable {image : Image} {p₀ p : Promotion} {log : List UInt16} {active : Activation} {move : Move}

/-- What a move keeps. -/
theorem Of.balanced (hmove : Move.Of image active p move) {waiting : List Activation}
    (h : p₀.Balance image log (compiledOf (active :: waiting)) p) :
    (move.upon waiting).Balanced image p₀ (log ++ move.entered) := by
  have hcons {a : Activation} (ha : a.compiled? = active.compiled?) :
      compiledOf (a :: waiting) = compiledOf (active :: waiting) := by
    rw [compiledOf_cons, compiledOf_cons, ha]
  -- when the run ends, all that waits is closed as well
  have hended {m : Machine} {q : Promotion} (counts : p.Counts image q)
      (left : m.promotion = q.leaveAll active.compiled?.toList) :
      p₀.Balance image (log ++ []) [] (State.close waiting m).promotion := by
    rw [compiledOf_cons] at h
    have hleft := (h.counts counts).leaveAll
    rw [← left] at hleft
    rw [List.append_nil, State.promotion_close]
    exact Promotion.Balance.leaveAll (by rwa [List.append_nil])
  cases hmove with
  | @stays a m same counts =>
    show p₀.Balance image (log ++ []) (compiledOf (a :: waiting)) m.promotion
    rw [List.append_nil, hcons same]
    exact h.counts counts
  | @descends a back m same interpreted counts =>
    show p₀.Balance image (log ++ a.compiled?.toList) (compiledOf (a :: back :: waiting))
      m.promotion
    rw [compiledOf_cons, hcons same, interpreted, Option.toList_none, List.append_nil,
      List.nil_append]
    exact h.counts counts
  | @invokes a back m q f r same counts found compiled entered =>
    show p₀.Balance image (log ++ a.compiled?.toList) (compiledOf (a :: back :: waiting))
      m.promotion
    rw [compiledOf_cons, hcons same, compiled, entered]
    exact (h.counts counts).enter found
  | @returns m left =>
    rw [compiledOf_cons] at h
    have hleft := h.leaveAll
    rw [← left] at hleft
    show (State.resume waiting m).Balanced image p₀ (log ++ [])
    rw [List.append_nil]
    cases waiting with
    | nil => exact hleft
    | cons a waiting => exact hleft
  | @ends outcome m q counts left => exact hended counts left
  | @strays fault base m entry left => exact hended (.inl rfl) left

end Move

/-- What a step keeps. -/
theorem State.balanced_step {setup : Setup} {p₀ : Promotion} {log : List UInt16} {s : State}
    (h : (Progress.running s).Balanced setup.image p₀ log) :
    (s.step setup).Balanced setup.image p₀ (log ++ (s.step setup).entered s.waiting) := by
  obtain ⟨active, waiting, m⟩ := s
  obtain ⟨move, hmove, hstep⟩ := State.exists_move setup active m
  rw [hstep waiting, move.entered_upon]
  exact hmove.balanced h

namespace Progress

variable {setup : Setup} {p₀ : Promotion} {before log : List UInt16}

/-- What a run keeps. -/
theorem Balanced.leads {p q : Progress} (h : p.Balanced setup.image p₀ before)
    (hleads : p.Leads setup log q) : q.Balanced setup.image p₀ (before ++ log) := by
  induction hleads generalizing before with
  | refl p => rwa [List.append_nil]
  | step _ ih =>
    rw [← List.append_assoc]
    exact ih (State.balanced_step h)

theorem exists_leads_of_visits {p : Progress} {t : State} (h : p.Visits setup t) :
    ∃ log, p.Leads setup log (.running t) := by
  induction h with
  | here s => exact ⟨[], .refl _⟩
  | later _ ih =>
    obtain ⟨log, hleads⟩ := ih
    exact ⟨_, .step hleads⟩

end Progress

/-- The functions whose compiled code is entered in at most `fuel` steps, in order. -/
def State.entries (setup : Setup) : Nat → State → List UInt16
  | 0, _ => []
  | fuel + 1, s =>
    match s.step setup with
    | .ended _ => []
    | .running t => (Progress.running t).entered s.waiting ++ t.entries setup fuel

theorem State.leads_of_run {setup : Setup} {fuel : Nat} {s : State} {e : Ending}
    (h : s.run setup fuel = some e) :
    (Progress.running s).Leads setup (s.entries setup fuel) (.ended e) := by
  induction fuel generalizing s with
  | zero => cases h
  | succ fuel ih =>
    rw [State.run] at h
    rw [State.entries]
    cases hstep : s.step setup with
    | ended e' =>
      rw [hstep] at h
      obtain rfl := Option.some.inj h
      have hleads : Progress.Leads setup (s.step setup) [] (.ended e') := hstep ▸ .refl _
      have hstepped := Progress.Leads.step hleads
      rwa [hstep] at hstepped
    | running t =>
      rw [hstep] at h
      have hstepped := Progress.Leads.step (s := s) (hstep ▸ ih h)
      rwa [hstep] at hstepped

/-! ## Attempts -/

/-- How compiled code, with all that it calls, comes to an end. -/
inductive Completion where
  | returned
  | halted (value : Word)
  | failed (failure : Failure)

/-- A run of compiled code: how it came to an end, the functions whose compiled code was entered on
    the way, and the machine that it leaves. -/
structure Invocation where
  completion : Completion
  entered : List UInt16
  machine : Machine

/-- An attempt to run a function compiled, with the machine that it leaves. -/
inductive Attempt where
  /-- There is no compiled code, or too many compiled activations are nested. -/
  | refused (m : Machine)
  /-- The frame of the function cannot be pushed. -/
  | unframed (fault : Fault) (m : Machine)
  /-- The compiled code has run. -/
  | ran (i : Invocation)

/-- Where a run gets to after compiled code, when the activations `outer` wait for it. -/
def Invocation.upon (outer : List Activation) (i : Invocation) : Progress :=
  match i.completion with
  | .returned => State.resume outer i.machine
  | .halted value => .ended ⟨.ok value, State.close outer i.machine⟩
  | .failed failure => .ended ⟨.error failure, State.close outer i.machine⟩

namespace State

/-- The caller of an attempt, which calls at `site`. It waits, and does not come to act. -/
def caller (site : Location) : Activation :=
  .interpreting ⟨site.function, site.pc + Opcode.call.size, 0⟩

/-- Where a call is that leads to an activation. The first activation is called at the start of the
    entry function. -/
def siteOf (image : Image) (waiting : List Activation) : Location :=
  (callSite? waiting).getD ⟨image.entry, 0⟩

/-- Steps until nothing waits any more, or the run has ended. -/
def runNested (setup : Setup) : Nat → State → Option Invocation
  | 0, _ => none
  | fuel + 1, s =>
    match s.step setup with
    | .ended ⟨.ok value, m⟩ => some ⟨.halted value, [], m⟩
    | .ended ⟨.error failure, m⟩ => some ⟨.failed failure, [], m⟩
    | .running t =>
      if t.waiting.isEmpty then some ⟨.returned, [], t.machine⟩
      else (t.runNested setup fuel).map fun i =>
        { i with entered := (Progress.running t).entered s.waiting ++ i.entered }

end State

/-- Runs a function compiled, if its compiled code is there and can be nested. The call stands at
    `site`. -/
def Machine.attempt (setup : Setup) (fuel : Nat) (site : Location) (callee returnFunction : UInt16)
    (returnAddress : Option Nat) (m : Machine) : Option Attempt :=
  match m.promotion.routine? callee with
  | none => some (.refused m)
  | some routine =>
    match Machine.enterFrame setup.image callee returnFunction returnAddress m with
    | .error fault m => some (.unframed fault m)
    | .ok _ m =>
      let m := { m with promotion := m.promotion.enter }
      (State.runNested setup fuel ⟨State.executing routine m, [State.caller site], m⟩).map .ran

/-- The last one of some activations is compiled. -/
def EndsCompiled (activations : List Activation) : Prop :=
  ∃ a, activations.getLast? = some a ∧ a.compiled?.isSome

theorem EndsCompiled.of_same {a b : Activation} {rest : List Activation}
    (h : EndsCompiled (a :: rest)) (hsame : b.compiled? = a.compiled?) :
    EndsCompiled (b :: rest) := by
  cases rest with
  | nil =>
    obtain ⟨_, ⟨⟩, hcompiled⟩ := h
    exact ⟨b, rfl, hsame ▸ hcompiled⟩
  | cons c rest =>
    rw [EndsCompiled, List.getLast?_cons_cons] at h ⊢
    exact h

theorem EndsCompiled.cons {b : Activation} {activations : List Activation}
    (h : EndsCompiled activations) : EndsCompiled (b :: activations) := by
  obtain ⟨a, hlast, hcompiled⟩ := h
  refine ⟨a, ?_, hcompiled⟩
  rw [List.getLast?_cons, hlast]
  rfl

theorem EndsCompiled.tail {a b : Activation} {rest : List Activation}
    (h : EndsCompiled (a :: b :: rest)) : EndsCompiled (b :: rest) := by
  rwa [EndsCompiled, List.getLast?_cons_cons] at h

/-- A fault without a place of its own is located at the call, whatever waits there. -/
theorem State.site_eq {image : Image} {site : Location} {active : Activation}
    {inner outer : List Activation} {base : Option Location} (hsite : siteOf image outer = site)
    (hcompiled : EndsCompiled (active :: inner))
    (hbase : active.compiled?.isSome → base = some ⟨image.entry, 0⟩) :
    (callSite? (inner ++ [caller site])).or base = (callSite? (inner ++ outer)).or base := by
  cases inner with
  | cons a inner => cases a <;> rfl
  | nil =>
    obtain ⟨_, ⟨⟩, hactive⟩ := hcompiled
    rw [hbase hactive, List.nil_append, List.nil_append, Option.or_some, Option.or_some]
    exact congrArg some hsite.symm

/-- What compiled code does above the caller, it does above any activations that wait for a call
    at the same site. -/
theorem State.leads_of_runNested {setup : Setup} {fuel : Nat} {site : Location}
    {active : Activation} {inner : List Activation} {m : Machine} {i : Invocation}
    (hcompiled : EndsCompiled (active :: inner))
    (h : State.runNested setup fuel ⟨active, inner ++ [State.caller site], m⟩ = some i)
    {outer : List Activation} (hsite : siteOf setup.image outer = site) :
    (Progress.running ⟨active, inner ++ outer, m⟩).Leads setup i.entered (i.upon outer) := by
  induction fuel generalizing active inner m i with
  | zero => cases h
  | succ fuel ih =>
    obtain ⟨move, hmove, hstep⟩ := State.exists_move setup active m
    have hnext {log : List UInt16} {q : Progress}
        (hq : (move.upon (inner ++ outer)).Leads setup log q) :
        (Progress.running ⟨active, inner ++ outer, m⟩).Leads setup (move.entered ++ log) q := by
      have hleads := Progress.Leads.step (s := ⟨active, inner ++ outer, m⟩)
        (by rw [hstep]; exact hq)
      rwa [hstep, move.entered_upon] at hleads
    rw [State.runNested, hstep] at h
    -- the caller goes on waiting
    have hgoes {a : Activation} {inner' : List Activation} {m' : Machine}
        (hcompiled' : EndsCompiled (a :: inner'))
        (hupon : ∀ waiting, move.upon (inner ++ waiting) = .running ⟨a, inner' ++ waiting, m'⟩) :
        (Progress.running ⟨active, inner ++ outer, m⟩).Leads setup i.entered (i.upon outer) := by
      have hentered := move.entered_upon (inner ++ [State.caller site])
      rw [hupon] at hentered h
      dsimp only at h
      rw [if_neg (by simp), hentered] at h
      obtain ⟨j, hj, rfl⟩ := Option.map_eq_some_iff.1 h
      exact hnext (by rw [hupon]; exact ih hcompiled' hj)
    have hclose (m' : Machine) : State.close (inner ++ outer) m' =
        State.close outer (State.close (inner ++ [State.caller site]) m') := by
      rw [State.close_append, State.close_append]
      rfl
    cases hmove with
    | stays same => exact hgoes (hcompiled.of_same same) fun _ => rfl
    | @descends a back m' same =>
      have hupon : ∀ waiting, (Move.calls a back m').upon (inner ++ waiting) =
          .running ⟨a, back :: inner ++ waiting, m'⟩ := fun _ => rfl
      exact hgoes (hcompiled.of_same same).cons hupon
    | @invokes a back m' q f r same =>
      have hupon : ∀ waiting, (Move.calls a back m').upon (inner ++ waiting) =
          .running ⟨a, back :: inner ++ waiting, m'⟩ := fun _ => rfl
      exact hgoes (hcompiled.of_same same).cons hupon
    | returns =>
      cases inner with
      | nil =>
        obtain rfl := Option.some.inj h
        exact hnext (.refl _)
      | cons a inner => exact hgoes hcompiled.tail fun _ => rfl
    | @ends outcome =>
      have hended := hnext (.refl _)
      rw [Move.upon, hclose] at hended
      cases outcome with
      | ok value =>
        obtain rfl := Option.some.inj h
        exact hended
      | error failure =>
        obtain rfl := Option.some.inj h
        exact hended
    | strays entry =>
      have hended := hnext (.refl _)
      rw [Move.upon, hclose, ← State.site_eq hsite hcompiled entry] at hended
      obtain rfl := Option.some.inj h
      exact hended

theorem State.siteOf_caller (image : Image) (site : Location) :
    siteOf image [caller site] = site := by
  rw [siteOf, caller, callSite?, Option.getD_some, Nat.add_sub_cancel]

/-- The caller of an attempt is not compiled. -/
theorem Invocation.balance_of_upon {image : Image} {p₀ : Promotion} {log : List UInt16}
    {site : Location} {i : Invocation}
    (h : (i.upon [State.caller site]).Balanced image p₀ log) :
    p₀.Balance image log [] i.machine.promotion := by
  unfold Invocation.upon at h
  cases hc : i.completion <;> rw [hc] at h <;> exact h

namespace Machine

variable {setup : Setup} {fuel : Nat} {site : Location} {callee returnFunction : UInt16}
  {returnAddress : Option Nat} {m : Machine}

/-- All that an attempt can be. -/
inductive Attempts (setup : Setup) (fuel : Nat) (site : Location) (callee returnFunction : UInt16)
    (returnAddress : Option Nat) (m : Machine) : Attempt → Prop
  | refused (missing : m.promotion.routine? callee = none) :
      Attempts setup fuel site callee returnFunction returnAddress m (.refused m)
  | unframed {r : Routine} {fault : Fault} {m' : Machine}
      (found : m.promotion.routine? callee = some r)
      (frame : enterFrame setup.image callee returnFunction returnAddress m = .error fault m') :
      Attempts setup fuel site callee returnFunction returnAddress m (.unframed fault m')
  | ran {r : Routine} {m' : Machine} {i : Invocation}
      (found : m.promotion.routine? callee = some r)
      (frame : enterFrame setup.image callee returnFunction returnAddress m = .ok () m')
      (run : State.runNested setup fuel
        ⟨State.executing r { m' with promotion := m'.promotion.enter }, [] ++ [State.caller site],
          { m' with promotion := m'.promotion.enter }⟩ = some i) :
      Attempts setup fuel site callee returnFunction returnAddress m (.ran i)

theorem attempts_of_attempt {a : Attempt}
    (h : Machine.attempt setup fuel site callee returnFunction returnAddress m = some a) :
    Attempts setup fuel site callee returnFunction returnAddress m a := by
  unfold Machine.attempt at h
  cases hr : m.promotion.routine? callee with
  | none =>
    rw [hr] at h
    obtain rfl := Option.some.inj h
    exact .refused hr
  | some r =>
    rw [hr] at h
    dsimp only at h
    cases hframe : enterFrame setup.image callee returnFunction returnAddress m with
    | error fault m' =>
      rw [hframe] at h
      obtain rfl := Option.some.inj h
      exact .unframed hr hframe
    | ok _ m' =>
      rw [hframe] at h
      obtain ⟨i, hi, rfl⟩ := Option.map_eq_some_iff.1 h
      exact .ran hr hframe hi

/-- The machine after a call was counted. -/
def counted (image : Image) (callee : UInt16) (m : Machine) : Machine :=
  { m with
    promotion := (m.promotion.onCall image callee).2.2
    journal := m.journal.logAll (m.promotion.onCall image callee).2.1 }

theorem enterCall_of_found {image : Image}
    (hfound : (m.promotion.onCall image callee).1 = true) :
    enterCall image callee returnFunction returnAddress m =
      match enterFrame image callee returnFunction returnAddress (m.counted image callee) with
      | .error e m => .error e m
      | .ok _ n =>
        match (m.counted image callee).promotion.routine? callee with
        | none => .ok none n
        | some routine => .ok (some routine) { n with promotion := n.promotion.enter } := by
  rw [enterCall_eq, if_pos hfound]
  rfl

/-- What a call at `site` does in a run, when counting it has found compiled code: it is interpreted
    if the attempt is refused, fails if the frame cannot be pushed, and otherwise leads to where
    compiled code gets to. -/
def CallsBy (setup : Setup) (site : Location) (callee returnFunction : UInt16)
    (returnAddress : Option Nat) (m : Machine) : Attempt → Prop
  | .refused m' => enterCall setup.image callee returnFunction returnAddress m =
      (do enterFrame setup.image callee returnFunction returnAddress; return none :
        Action (Option Routine)) m'
  | .unframed fault m' =>
      enterCall setup.image callee returnFunction returnAddress m = .error fault m'
  | .ran i => ∃ routine m', enterCall setup.image callee returnFunction returnAddress m =
      .ok (some routine) m' ∧ ∀ outer, State.siteOf setup.image outer = site →
        (Progress.running ⟨State.executing routine m', outer, m'⟩).Leads setup i.entered
          (i.upon outer)

/-- Calls in a run are attempts. -/
theorem enterCall_of_attempt {a : Attempt}
    (hfound : (m.promotion.onCall setup.image callee).1 = true)
    (h : Machine.attempt setup fuel site callee returnFunction returnAddress
      (m.counted setup.image callee) = some a) :
    CallsBy setup site callee returnFunction returnAddress m a := by
  have hcall : enterCall setup.image callee returnFunction returnAddress m = _ :=
    enterCall_of_found hfound
  cases attempts_of_attempt h with
  | refused missing =>
    rw [missing] at hcall
    rw [CallsBy, hcall]
    cases hframe : enterFrame setup.image callee returnFunction returnAddress
        (m.counted setup.image callee) with
    | error fault m' => exact (bind_of_error hframe).symm
    | ok _ m' =>
      rw [bind_of_ok hframe]
      rfl
  | unframed found frame =>
    rw [frame] at hcall
    exact hcall
  | ran found frame run =>
    rw [found, frame] at hcall
    exact ⟨_, _, hcall, fun outer hsite =>
      State.leads_of_runNested ⟨_, rfl, rfl⟩ run hsite⟩

/-- Compiled code that has run is left, with all that it has entered. -/
theorem Attempts.balance {i : Invocation} (hsound : m.promotion.Sound setup.image)
    (hbounded : m.promotion.depth ≤ Promotion.maxDepth)
    (h : Attempts setup fuel site callee returnFunction returnAddress m (.ran i)) :
    m.promotion.Balance setup.image (callee :: i.entered) [] i.machine.promotion := by
  have hframe := keepsPromotion_enterFrame setup.image callee returnFunction returnAddress
    (m := m) rfl
  cases h with
  | @ran r m' _ found frame run =>
    rw [frame] at hframe
    replace hframe : m'.promotion = m.promotion := hframe
    have hentered := (Promotion.Balance.refl hsound hbounded).enter found
    have hfunction : r.program.function = callee := by
      obtain ⟨options, program, hcompile, rfl⟩ := hsound.routine? found
      exact (compile_linked hcompile).1
    have hstart : (Progress.running ⟨State.executing r
        { m' with promotion := m'.promotion.enter }, [State.caller site],
        { m' with promotion := m'.promotion.enter }⟩).Balanced setup.image m.promotion
          [callee] := by
      show m.promotion.Balance setup.image [callee] [r.program.function] m'.promotion.enter
      rw [hframe, ← hfunction]
      exact hentered
    -- nothing compiled waits, so that the code ends with nothing open
    exact Invocation.balance_of_upon (hstart.leads
      (State.leads_of_runNested ⟨_, rfl, rfl⟩ run (State.siteOf_caller setup.image site)))

end Machine

/-! ## Sessions -/

namespace Session

variable {s t : Session} {image : Image}

/-- What promotion can be when a run of the session tries to run a function compiled: as before the
    run or in a state of it, or with calls counted after that. -/
inductive Meets (s : Session) : Promotion → Prop
  | before : Meets s s.machine.promotion
  | state {t : State} (ht : s.start.Visits s.setup t) : Meets s t.machine.promotion
  | counted {p : Promotion} (h : Meets s p) (f : UInt16) : Meets s (p.onCall s.setup.image f).2.2

/-- The function whose compiled code the start of a run enters. -/
def first (s : Session) : List UInt16 :=
  match s.start with
  | .ended _ => []
  | .running t => t.active.compiled?.toList

/-- The functions whose compiled code is entered in a run of at most `fuel` steps, in order. -/
def entries (fuel : Nat) (s : Session) : List UInt16 :=
  match s.start with
  | .ended _ => []
  | .running t => s.first ++ t.entries s.setup fuel

theorem balanced_start (hsound : s.machine.promotion.Sound s.setup.image)
    (hbounded : s.machine.promotion.depth ≤ Promotion.maxDepth) :
    s.start.Balanced s.setup.image s.machine.promotion s.first := by
  have hcounted := (Promotion.Balance.refl hsound hbounded).counts
    (.inr ⟨s.setup.image.entry, rfl⟩)
  have hcall := promotion_enterCall s.setup.image s.setup.image.entry s.setup.image.entry none
    { s.machine with memory := s.machine.memory.reset s.setup.image.globals.toNat }
  have hstart : s.start = State.start s.setup
    { s.machine with memory := s.machine.memory.reset s.setup.image.globals.toNat } := rfl
  rw [State.start] at hstart
  unfold first
  cases hx : Machine.enterCall s.setup.image s.setup.image.entry s.setup.image.entry none
      { s.machine with memory := s.machine.memory.reset s.setup.image.globals.toNat } with
  | error fault m =>
    rw [hx] at hcall hstart
    rw [hstart]
    show s.machine.promotion.Balance s.setup.image [] [] m.promotion
    rw [hcall]
    exact hcounted
  | ok routine m =>
    rw [hx] at hcall hstart
    rw [hstart]
    cases routine with
    | none =>
      show s.machine.promotion.Balance s.setup.image [] [] m.promotion
      rw [hcall]
      exact hcounted
    | some r =>
      show s.machine.promotion.Balance s.setup.image [r.program.function] [r.program.function]
        m.promotion
      rw [hcall.2]
      exact hcounted.enter hcall.1

/-- The account in a state of a run. -/
theorem exists_balance_of_visits (hsound : s.machine.promotion.Sound s.setup.image)
    (hbounded : s.machine.promotion.depth ≤ Promotion.maxDepth) {u : State}
    (hu : s.start.Visits s.setup u) :
    ∃ log, s.machine.promotion.Balance s.setup.image log (compiledOf (u.active :: u.waiting))
      u.machine.promotion := by
  obtain ⟨log, hleads⟩ := Progress.exists_leads_of_visits hu
  exact ⟨_, (balanced_start hsound hbounded).leads hleads⟩

/-- The account of a run that has ended. -/
theorem balance_of_run (hsound : s.machine.promotion.Sound s.setup.image)
    (hbounded : s.machine.promotion.depth ≤ Promotion.maxDepth) {fuel : Nat}
    {outcome : Except Failure Word} (hrun : s.run fuel = some (outcome, t)) :
    s.machine.promotion.Balance s.setup.image (s.entries fuel) [] t.machine.promotion := by
  have hbalanced := balanced_start hsound hbounded
  rw [run_eq_map] at hrun
  obtain ⟨e, hending, hconclude⟩ := Option.map_eq_some_iff.1 hrun
  have hpromotion : t.machine.promotion = e.machine.promotion := by
    obtain ⟨console, heq⟩ := conclude_eq s.setup e
    rw [hconclude] at heq
    exact congrArg (·.machine.promotion) heq
  rw [hpromotion]
  unfold ending at hending
  unfold entries
  cases hstart : s.start with
  | ended e' =>
    rw [hstart] at hending
    obtain rfl := Option.some.inj hending
    have hfirst : s.first = [] := by rw [first, hstart]
    rw [hstart, hfirst] at hbalanced
    exact hbalanced
  | running u =>
    rw [hstart] at hending hbalanced
    exact hbalanced.leads (State.leads_of_run hending)

/-- No compiled code is open between runs. -/
theorem depth_of_continues {settings : Settings} {console : Console} {observed : Bool}
    {allocator : Allocator}
    (hs : (Session.begin image settings console observed allocator).Continues s) :
    s.machine.promotion.depth = 0 := by
  induction hs with
  | refl => rfl
  | @run t t' fuel outcome ht hrun ih =>
    have hsettled := (settled_begin image settings console observed allocator).continues ht
    have hsound := hsettled.sound
    rw [← hsettled.image] at hsound
    have hbalance := balance_of_run hsound (ih ▸ Nat.zero_le _) hrun
    rw [hbalance.depth, ih]
    rfl
  | collect _ ih => exact ih

/-- Compiled code comes from the image, and is nested within the bound, whenever a run tries to run
    a function compiled. -/
theorem Meets.sound_bounded {p : Promotion} (hsound : s.machine.promotion.Sound s.setup.image)
    (hbounded : s.machine.promotion.depth ≤ Promotion.maxDepth) (h : s.Meets p) :
    p.Sound s.setup.image ∧ p.depth ≤ Promotion.maxDepth := by
  induction h with
  | before => exact ⟨hsound, hbounded⟩
  | state ht =>
    obtain ⟨log, hbalance⟩ := exists_balance_of_visits hsound hbounded ht
    exact ⟨hbalance.sound, hbalance.bounded⟩
  | counted _ f ih =>
    have hbalance := (Promotion.Balance.refl ih.1 ih.2).counts (.inr ⟨f, rfl⟩)
    exact ⟨hbalance.sound, hbalance.bounded⟩

/-- What it means that the nesting of compiled code is balanced in the runs of a session. -/
structure NestingBalanced (s : Session) : Prop where
  /-- Before a run nothing is nested. -/
  before : s.machine.promotion.depth = 0
  /-- In every state of a run the depth is the number of compiled activations, within the bound. -/
  during : ∀ u : State, s.start.Visits s.setup u →
    u.machine.promotion.depth = (compiledOf (u.active :: u.waiting)).length ∧
      u.machine.promotion.depth ≤ Promotion.maxDepth
  /-- After a run, however it has ended, nothing is nested, and every time that compiled code of a
      function was entered counts as one execution of the function. -/
  after : ∀ (fuel : Nat) (outcome : Except Failure Word) (t : Session),
    s.run fuel = some (outcome, t) → t.machine.promotion.depth = 0 ∧
      ∀ f, t.machine.promotion.executions f =
        s.machine.promotion.executions f + (s.entries fuel).count f
  /-- What calls in a run do, attempts say. -/
  calls : ∀ (m : Machine) (site : Location) (callee returnFunction : UInt16)
    (returnAddress : Option Nat) (fuel : Nat) (attempt : Attempt),
    (m.promotion.onCall s.setup.image callee).1 = true →
    Machine.attempt s.setup fuel site callee returnFunction returnAddress
      (m.counted s.setup.image callee) = some attempt →
    Machine.CallsBy s.setup site callee returnFunction returnAddress m attempt
  /-- An attempt that is refused changes nothing. -/
  refused : ∀ (m m' : Machine) (site : Location) (callee returnFunction : UInt16)
    (returnAddress : Option Nat) (fuel : Nat),
    Machine.attempt s.setup fuel site callee returnFunction returnAddress m =
      some (.refused m') → m' = m
  /-- An attempt whose frame cannot be pushed leaves promotion as it was. -/
  unframed : ∀ (m m' : Machine) (site : Location) (callee returnFunction : UInt16)
    (returnAddress : Option Nat) (fuel : Nat) (fault : Fault),
    Machine.attempt s.setup fuel site callee returnFunction returnAddress m =
      some (.unframed fault m') → m'.promotion = m.promotion
  /-- Compiled code that has run, whether it has returned, halted or failed, leaves the depth as it
      was. It counts as one execution of its function, and so does all that it has entered. -/
  ran : ∀ (m : Machine), s.Meets m.promotion → ∀ (site : Location)
    (callee returnFunction : UInt16) (returnAddress : Option Nat) (fuel : Nat) (i : Invocation),
    Machine.attempt s.setup fuel site callee returnFunction returnAddress m = some (.ran i) →
      i.machine.promotion.depth = m.promotion.depth ∧
        ∀ f, i.machine.promotion.executions f =
          m.promotion.executions f + (callee :: i.entered).count f

/-- **The nesting of compiled code is balanced on every path.** In every session, after any runs
    before: no compiled code is open when a run starts and when it has ended, with a value or with a
    fault at any level; within a run the depth is that of the compiled activations and within the
    bound; and whatever an attempt to run a function compiled comes to, it leaves the depth as it
    found it, and each time that compiled code was entered is counted once. -/
theorem nesting_balanced (image : Image) (settings : Settings) (console : Console)
    (observed : Bool) (allocator : Allocator) {s : Session}
    (hs : (Session.begin image settings console observed allocator).Continues s) :
    s.NestingBalanced := by
  have hsettled := (settled_begin image settings console observed allocator).continues hs
  have hsound := hsettled.sound
  rw [← hsettled.image] at hsound
  have hdepth := depth_of_continues hs
  have hbounded : s.machine.promotion.depth ≤ Promotion.maxDepth := hdepth ▸ Nat.zero_le _
  refine ⟨hdepth, ?_, ?_, ?_, ?_, ?_, ?_⟩
  · intro u hu
    obtain ⟨log, hbalance⟩ := exists_balance_of_visits hsound hbounded hu
    refine ⟨?_, hbalance.bounded⟩
    rw [hbalance.depth, hdepth, Nat.zero_add]
  · intro fuel outcome t hrun
    have hbalance := balance_of_run hsound hbounded hrun
    refine ⟨?_, fun f => hbalance.executions f⟩
    rw [hbalance.depth, hdepth]
    rfl
  · intro m site callee returnFunction returnAddress fuel attempt hfound h
    exact Machine.enterCall_of_attempt hfound h
  · intro m m' site callee returnFunction returnAddress fuel h
    cases Machine.attempts_of_attempt h with
    | refused missing => rfl
  · intro m m' site callee returnFunction returnAddress fuel fault h
    have hframe := keepsPromotion_enterFrame s.setup.image callee returnFunction returnAddress
      (m := m) rfl
    cases Machine.attempts_of_attempt h with
    | unframed found frame =>
      rw [frame] at hframe
      exact hframe
  · intro m hm site callee returnFunction returnAddress fuel i h
    obtain ⟨hmsound, hmbounded⟩ := hm.sound_bounded hsound hbounded
    have hbalance := (Machine.attempts_of_attempt h).balance hmsound hmbounded
    exact ⟨hbalance.depth, hbalance.executions⟩

end Session

/-- A compiled function calls one that cannot be compiled, for the jump out of its code, and that
    one calls a compiled function, which divides by zero. -/
def Image.failingBelow : Image where
  version := 1
  globals := 0
  entry := 0
  functions := #[⟨0, 0, 0, Code.ofInstrs [.call 1, .halt]⟩,
    ⟨1, 0, 0, Code.ofInstrs [.call 2, .ret, .jump .always 100]⟩,
    ⟨2, 0, 0, Code.ofInstrs [.pushInt 1, .pushInt 0, .binary .div, .ret]⟩]

/-- Two compiled activations are nested when the fault arises. None is left after it, and each
    counts as one execution. -/
theorem Session.nesting_balanced_failing :
    ∃ s t u, (Session.begin .failingBelow .eager default false).Continues s ∧
      s.start.Visits s.setup u ∧ compiledOf (u.active :: u.waiting) = [2, 0] ∧
      u.machine.promotion.depth = 2 ∧
      s.run 10 = some (.error ⟨.divisionByZero, some ⟨2, 18⟩⟩, t) ∧
      t.machine.promotion.depth = 0 ∧
      [0, 1, 2].map t.machine.promotion.executions = [1, 0, 1] := by
  have hs := Session.Continues.refl (Session.begin .failingBelow .eager default false)
  obtain ⟨hafter, hrun, hentries⟩ :
      ((Session.begin .failingBelow .eager default false).start.after?
        (Session.begin .failingBelow .eager default false).setup 2).map
          (fun u => compiledOf (u.active :: u.waiting)) = some [2, 0] ∧
      ((Session.begin .failingBelow .eager default false).run 10).map (·.1) =
        some (.error ⟨.divisionByZero, some ⟨2, 18⟩⟩) ∧
      (Session.begin .failingBelow .eager default false).entries 10 = [0, 2] := by
    decide +kernel
  obtain ⟨u, hu, hcompiled⟩ := Option.map_eq_some_iff.1 hafter
  obtain ⟨⟨_, t⟩, ht, rfl⟩ := Option.map_eq_some_iff.1 hrun
  have hbalanced := Session.nesting_balanced .failingBelow .eager default false .willing hs
  have hvisits := Progress.visits_of_after? hu
  obtain ⟨hdepth, hexecutions⟩ := hbalanced.after 10 _ t ht
  refine ⟨_, t, u, hs, hvisits, hcompiled, ?_, ht, hdepth, ?_⟩
  · rw [(hbalanced.during u hvisits).1, hcompiled]
    rfl
  · rw [hentries] at hexecutions
    simp only [List.map_cons, List.map_nil, hexecutions]
    decide +kernel

end StackMachine
