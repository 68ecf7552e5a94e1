import StackMachine.Proofs.Machine.Alike

/-!
# Calls and returns on two machines

A call pushes the same frame on both machines and a return pops it, whatever the first machine
decides to run compiled. Compiled code that it decides on is the compiled form of the callee.
-/

namespace StackMachine

open Native

/-! ## Compiled code comes from the image -/

namespace FunctionTable

theorem get?_modify (t : FunctionTable) (f k : UInt16) (g : FunctionRecord → FunctionRecord) :
    (t.modify f g).get? k = if f = k then (t.get? k).map g else t.get? k := by
  simp only [modify, get?, Array.getElem?_modify, UInt16.toNat_inj]

/-- Changes of the counters do not touch compiled code. -/
theorem routine?_modify (t : FunctionTable) (f k : UInt16) {g : FunctionRecord → FunctionRecord}
    (hg : ∀ r, (g r).standing = r.standing) : (t.modify f g).routine? k = t.routine? k := by
  have hr : ∀ r, (g r).routine? = r.routine? := fun r => by
    simp only [FunctionRecord.routine?, hg]
  simp only [routine?, get?_modify]
  split_ifs
  · cases t.get? k <;> simp [hr]
  · rfl

theorem routine?_countCall (t : FunctionTable) (f k : UInt16) :
    (t.countCall f).routine? k = t.routine? k :=
  t.routine?_modify f k fun _ => rfl

theorem routine?_recordExecution (t : FunctionTable) (f k : UInt16) (time : Nat) :
    (t.recordExecution f time).routine? k = t.routine? k :=
  t.routine?_modify f k fun _ => rfl

theorem routine?_install {t : FunctionTable} {f k : UInt16} {routine r : Routine}
    (h : (t.install f routine).routine? k = some r) :
    t.routine? k = some r ∨ f = k ∧ routine = r := by
  simp only [routine?, install, get?_modify] at h
  by_cases hf : f = k
  · rw [if_pos hf] at h
    cases hk : t.get? k with
    | none => simp [hk] at h
    | some record =>
      simp only [hk, Option.map_some, FunctionRecord.routine?, Option.some.injEq] at h
      exact .inr ⟨hf, h⟩
  · rw [if_neg hf] at h
    exact .inl h

theorem routine?_markFailed {t : FunctionTable} {f k : UInt16} {reason : String} {r : Routine}
    (h : (t.markFailed f reason).routine? k = some r) : t.routine? k = some r := by
  simp only [routine?, markFailed, get?_modify] at h
  by_cases hf : f = k
  · rw [if_pos hf] at h
    cases hk : t.get? k <;> simp [hk, FunctionRecord.routine?] at h
  · rw [if_neg hf] at h
    exact h

end FunctionTable

namespace Promotion

variable {image : Image} {p : Promotion}

/-- At the start nothing is compiled. -/
theorem sound_fresh (settings : Settings) (count : Nat) : (fresh settings count).Sound image := by
  intro f r h
  rw [fresh, FunctionTable.routine?, FunctionTable.get?, FunctionTable.pending,
    Array.getElem?_replicate] at h
  split_ifs at h
  cases h

theorem Sound.enter (h : p.Sound image) : p.enter.Sound image := h

theorem Sound.leave (h : p.Sound image) (f : UInt16) : (p.leave f).Sound image := by
  intro k r hk
  rw [Promotion.leave, FunctionTable.routine?_recordExecution] at hk
  exact h k r hk

theorem Sound.ensureCompiled (h : p.Sound image) (f : UInt16) :
    (p.ensureCompiled image f).2.2.Sound image := by
  unfold Promotion.ensureCompiled
  split
  · exact h
  · split
    · exact h
    · exact h
    · split
      · rename_i program hp
        intro k r hk
        rcases FunctionTable.routine?_install hk with hk | ⟨rfl, rfl⟩
        · exact h k r hk
        · exact ⟨_, _, hp, rfl⟩
      · intro k r hk
        exact h k r (FunctionTable.routine?_markFailed hk)

theorem Sound.onCall (h : p.Sound image) (f : UInt16) : (p.onCall image f).2.2.Sound image := by
  have hcount : Sound image ⟨p.mode, p.threshold, p.options, p.table.countCall f, p.depth⟩ := by
    intro k r hk
    rw [FunctionTable.routine?_countCall] at hk
    exact h k r hk
  unfold Promotion.onCall
  split_ifs
  · exact h
  · split
    · exact h
    · dsimp only
      split
      · exact hcount
      · exact hcount
      · split_ifs
        · exact hcount
        · exact hcount.ensureCompiled f
        · exact hcount.ensureCompiled f

theorem Sound.routine? (h : p.Sound image) {f : UInt16} {r : Routine}
    (hr : p.routine? f = some r) : IsCompiled image f r := by
  unfold Promotion.routine? at hr
  split_ifs at hr
  exact h f r hr

theorem onCall_of_off (h : p.mode = .off) (f : UInt16) : p.onCall image f = (false, [], p) := by
  rw [onCall, if_pos h]

end Promotion

/-! ## Frames -/

/-- A machine that never compiles enters a frame and interprets. -/
theorem Machine.enterCall_of_off {image : Image} {callee caller : UInt16} {pc : Option Nat}
    {n : Machine} (hoff : n.promotion.mode = .off) :
    Machine.enterCall image callee caller pc n =
      (do Machine.enterFrame image callee caller pc; return none : Action (Option Routine)) n := by
  have hn : { n with
      promotion := (n.promotion.onCall image callee).2.2
      journal := n.journal.logAll (n.promotion.onCall image callee).2.1 } = n := by
    rw [Promotion.onCall_of_off hoff]
    rfl
  rw [Machine.enterCall_eq, hn, Promotion.onCall_of_off hoff]
  cases hf : Machine.enterFrame image callee caller pc n with
  | ok _ n' =>
    rewrite [bind_of_ok hf]
    rfl
  | error e n' =>
    rewrite [bind_of_error hf]
    rfl

/-- The top frame, by the links. -/
theorem CallStack.back?_of_links {s : CallStack} {link : Link} {rest : List Link}
    (h : s.links = link :: rest) :
    ∃ f, s.frames.back? = some f ∧ f.link = link ∧ links ⟨s.frames.pop, s.limit⟩ = rest := by
  simp only [links] at h
  obtain ⟨f, fs, hrev, rfl, rfl⟩ := List.map_eq_cons_iff.1 h
  have hframes : s.frames.toList = fs.reverse ++ [f] := by
    rw [← List.reverse_reverse s.frames.toList, hrev, List.reverse_cons]
  refine ⟨f, ?_, rfl, ?_⟩
  · rw [← Array.getLast?_toList, hframes, List.getLast?_concat]
  · simp [links, hframes]

namespace Same

variable {image : Image} {links : List Link} {m n : Machine}

theorem popArguments (k : Nat) (args : List Word) (h : Same image links m n) :
    Paired (Result image links) (Agrees image) (Machine.popArguments k args m)
      (Machine.popArguments k args n) := by
  induction k generalizing args m n with
  | zero => exact ⟨rfl, h⟩
  | succ k ih =>
    refine h.pop.bind fun w _ _ _ ⟨hw, h⟩ => ?_
    subst hw
    exact ih (w :: args) h

theorem pushFrame (f : Frame) (h : Same image links m n)
    (hf : f.returnAddress.isSome → (image.function? f.returnFunction).isSome) :
    Paired (fun _ _ => Same image (f.link :: links)) (Agrees image)
      (Machine.onCalls (CallStack.push f) m) (Machine.onCalls (CallStack.push f) n) := by
  have hcalls := h.calls
  rw [Machine.onCalls_eq, Machine.onCalls_eq, ← hcalls, CallStack.push]
  split_ifs with hfull
  · exact ⟨rfl, { h.toAgrees with callLimit := rfl }⟩
  · refine { h with
      callLimit := rfl
      links := ?_
      known := List.forall_mem_cons.2 ⟨hf, h.known⟩
      frames := by simp }
    rw [CallStack.links_push, h.links]

/-- Both machines enter the frame of a call, or neither does. The callee is a function of the
    image then. -/
theorem enterFrame (callee returnFunction : UInt16) (returnAddress : Option Nat)
    (h : Same image links m n)
    (hreturn : returnAddress.isSome → (image.function? returnFunction).isSome) :
    Paired (fun _ _ m n => (image.function? callee).isSome ∧
        Same image ((returnFunction, returnAddress) :: links) m n) (Agrees image)
      (Machine.enterFrame image callee returnFunction returnAddress m)
      (Machine.enterFrame image callee returnFunction returnAddress n) := by
  unfold Machine.enterFrame
  cases hcallee : image.function? callee with
  | none => exact ⟨rfl, h.toAgrees⟩
  | some f =>
    dsimp only
    by_cases hl : f.locals < f.arity
    · rw [if_pos hl]
      exact ⟨rfl, h.toAgrees⟩
    · rw [if_neg hl]
      refine (h.aside h.checkRoom).bind fun _ _ _ _ ⟨_, h⟩ => ?_
      refine (h.popArguments _ []).bind fun args _ _ _ ⟨ha, h⟩ => ?_
      subst ha
      exact (h.pushFrame _ hreturn).mono fun _ _ _ _ h => ⟨rfl, h⟩

/-- A counted call. The second machine interprets the callee; if the first does not, it has the
    compiled form of the callee. -/
theorem enterCall (callee returnFunction : UInt16) (returnAddress : Option Nat)
    (h : Same image links m n)
    (hreturn : returnAddress.isSome → (image.function? returnFunction).isSome) :
    Paired (fun r r' m n => r' = none ∧ (∀ routine ∈ r, IsCompiled image callee routine) ∧
        (image.function? callee).isSome ∧
        Same image ((returnFunction, returnAddress) :: links) m n) (Agrees image)
      (Machine.enterCall image callee returnFunction returnAddress m)
      (Machine.enterCall image callee returnFunction returnAddress n) := by
  rw [Machine.enterCall_eq, Machine.enterCall_eq, Promotion.onCall_of_off h.off]
  have hsound := h.sound.onCall callee
  have hsame : Same image links
      { m with
        promotion := (m.promotion.onCall image callee).2.2
        journal := m.journal.logAll (m.promotion.onCall image callee).2.1 }
      { n with promotion := n.promotion, journal := n.journal.logAll [] } :=
    { h with sound := hsound }
  obtain ⟨_, _, m', n', hm, hn, hcallee, h'⟩ | ⟨e, m', n', hm, hn, h'⟩ :=
    (hsame.enterFrame callee returnFunction returnAddress hreturn).cases
  · rw [hm, hn]
    dsimp only
    cases hr : if (m.promotion.onCall image callee).1 = true then
        (m.promotion.onCall image callee).2.2.routine? callee else none with
    | none => exact ⟨rfl, by simp, hcallee, h'⟩
    | some routine =>
      refine ⟨rfl, ?_, hcallee, { h' with sound := h'.sound.enter }⟩
      intro r hmem
      obtain rfl : routine = r := by simpa using hmem
      split_ifs at hr
      exact hsound.routine? hr
  · rw [hm, hn]
    exact ⟨rfl, h'⟩

/-- Both machines leave their top frame the way its link says. -/
theorem leaveFrame {link : Link} {rest : List Link} (h : Same image (link :: rest) m n) :
    Paired (fun r r' m n => r = r' ∧ Same image rest m n ∧
        match link.2 with
        | none => ∃ value, r = .finish value
        | some pc => r = .resume link.1 pc) (Agrees image)
      (Machine.leaveFrame m) (Machine.leaveFrame n) := by
  refine h.popOrZero.bind fun value _ m n ⟨hv, h⟩ => ?_
  subst hv
  obtain ⟨f, hback, hlink, hrest⟩ := CallStack.back?_of_links h.links
  have hcalls := h.calls
  have hpop : CallStack.pop m.memory.calls =
      .ok f ⟨m.memory.calls.frames.pop, m.memory.calls.limit⟩ := by
    simp only [CallStack.pop, hback]
  have hpopped : Paired (fun a b m n => (a = f ∧ b = f) ∧ Same image rest m n) (Agrees image)
      (Machine.onCalls CallStack.pop m) (Machine.onCalls CallStack.pop n) := by
    rw [Machine.onCalls_eq, Machine.onCalls_eq, ← hcalls, hpop]
    exact ⟨⟨rfl, rfl⟩, { h with
      callLimit := rfl
      links := hrest
      known := fun link hlink => h.known link (List.mem_cons_of_mem _ hlink)
      frames := by simp }⟩
  refine hpopped.bind fun a b m n ⟨⟨ha, hb⟩, h⟩ => ?_
  rw [ha, hb, ← hlink, Frame.link]
  cases f.returnAddress with
  | none => exact ⟨rfl, h, value, rfl⟩
  | some pc => exact (h.push value).bind fun _ _ _ _ ⟨_, h⟩ => ⟨rfl, h, rfl⟩

end Same

end StackMachine
