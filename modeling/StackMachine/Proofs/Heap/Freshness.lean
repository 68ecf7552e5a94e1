import StackMachine.Proofs.Heap.Changes

/-!
# Stale handles never resolve again

A handle that allocation has given out is `Current` while its array lives, and `Spent` from then
on: its slot has moved on to a later generation, or the last generation is used up and the slot
is retired. A spent handle stays spent, and a new handle is neither current nor spent before it is
given out.

* `issued_never_alias`: over the whole life of a heap all handles are distinct, and one that has
  stopped resolving never resolves again.
-/

namespace StackMachine.Heap

/-- The handle word that an operation gives out. -/
def Operation.issued? (h : Heap) : Operation → Option Word
  | alloc length =>
    match Heap.alloc length h with
    | .ok w _ => some w
    | .error _ _ => none
  | _ => none

/-- The handle words that a sequence of operations gives out, in order. -/
def issued (h : Heap) : List Operation → List Word
  | [] => []
  | op :: ops => (op.issued? h).toList ++ issued (op.after h) ops

/-- The handle resolves. -/
def Current (h : Heap) (handle : Handle) : Prop :=
  ∃ s, h.slots[handle.index]? = some s ∧ s.generation = handle.generation ∧ s.isLive = true

/-- The handle has been given out and does not resolve any more. -/
def Spent (h : Heap) (handle : Handle) : Prop :=
  ∃ s, h.slots[handle.index]? = some s ∧ (handle.generation < s.generation ∨
    handle.generation = s.generation ∧ s.generation = Handle.maxGeneration ∧ s.isLive = false ∧
      handle.index ∉ h.free.toList)

variable {h h' : Heap} {handle : Handle}

theorem Current.not_spent (hc : Current h handle) : ¬ Spent h handle := by
  rintro ⟨t, ht, hspent⟩
  obtain ⟨s, hs, hg, hl⟩ := hc
  obtain rfl : s = t := Option.some.inj (hs.symm.trans ht)
  rcases hspent with hlt | ⟨-, -, hdead, -⟩
  · omega
  · rw [hl] at hdead
    cases hdead

theorem isLive_iff {w : Word} (hw : w.handle? = some handle) :
    h.isLive w = true ↔ Current h handle := by
  simp only [isLive, get, hw, resolve?, Current]
  cases hs : h.slots[handle.index]? with
  | none => simp [Except.toBool]
  | some s =>
    by_cases hg : s.generation = handle.generation
    · cases hc : s.contents <;> simp [hg, hc, Except.toBool, Slot.isLive]
    · simp [hg, Except.toBool]

/-! ## One operation -/

/-- Placing an array gives out a new handle. -/
theorem Placed.fresh {array : Array Word} (hp : Placed array handle h h') :
    ¬ Current h handle ∧ ¬ Spent h handle ∧ Current h' handle := by
  have hcurrent : Current h' handle := ⟨_, by rw [hp.slots, if_pos rfl], rfl, rfl⟩
  rcases hp.vacancy with ⟨hs, hfree, -⟩ | ⟨rfl, -⟩
  · refine ⟨?_, ?_, hcurrent⟩
    · rintro ⟨t, ht, -, hl⟩
      obtain rfl := Option.some.inj (hs.symm.trans ht)
      cases hl
    · rintro ⟨t, ht, hspent⟩
      obtain rfl := Option.some.inj (hs.symm.trans ht)
      rcases hspent with hlt | ⟨-, -, -, hnot⟩
      · exact lt_irrefl _ hlt
      · exact hnot (by rw [hfree]; exact List.mem_cons_self)
  · have hnone : h.slots[h.slots.size]? = none := by simp
    refine ⟨?_, ?_, hcurrent⟩
    · rintro ⟨t, ht, -⟩
      rw [hnone] at ht
      cases ht
    · rintro ⟨t, ht, -⟩
      rw [hnone] at ht
      cases ht

/-- A handle other than the new one is what it was. -/
theorem Placed.old {array : Array Word} {new : Handle} (hp : Placed array new h h') :
    (Current h handle → Current h' handle) ∧ (Spent h handle → Spent h' handle) := by
  by_cases hi : handle.index = new.index
  · -- the slot was vacant, so that the handle can only belong to an earlier generation
    rcases hp.vacancy with ⟨hs, hfree, -⟩ | ⟨rfl, -⟩
    · refine ⟨?_, ?_⟩
      · rintro ⟨t, ht, -, hl⟩
        rw [hi] at ht
        obtain rfl := Option.some.inj (hs.symm.trans ht)
        cases hl
      · rintro ⟨t, ht, hspent⟩
        rw [hi] at ht
        obtain rfl := Option.some.inj (hs.symm.trans ht)
        rcases hspent with hlt | ⟨-, -, -, hnot⟩
        · exact ⟨⟨new.generation, false, some array⟩, by rw [hp.slots, if_pos hi], .inl hlt⟩
        · exact absurd (by rw [hfree, hi]; exact List.mem_cons_self) hnot
    · have hnone : h.slots[handle.index]? = none := by rw [hi]; simp
      refine ⟨?_, ?_⟩ <;>
      · rintro ⟨t, ht, -⟩
        rw [hnone] at ht
        cases ht
  · have hslot : h'.slots[handle.index]? = h.slots[handle.index]? := by rw [hp.slots, if_neg hi]
    refine ⟨fun ⟨s, hs, hg⟩ => ⟨s, hslot.trans hs, hg⟩, ?_⟩
    rintro ⟨s, hs, hlt | ⟨hg, hmax, hdead, hnot⟩⟩
    · exact ⟨s, hslot.trans hs, .inl hlt⟩
    · refine ⟨s, hslot.trans hs, .inr ⟨hg, hmax, hdead, fun hmem => hnot ?_⟩⟩
      rcases hp.vacancy with ⟨-, hfree, -⟩ | ⟨-, -, hfree, -⟩
      · rw [hfree]
        exact .tail _ hmem
      · rw [hfree] at hmem
        cases hmem

/-- A handle is current until its array is released, and spent then. -/
theorem Released.current {gone : Nat → Prop} (hv : h.Valid) (hr : Released gone h h')
    (hc : Current h handle) : Current h' handle ∨ Spent h' handle := by
  obtain ⟨s, hs, hg, hl⟩ := hc
  by_cases hgone : gone handle.index
  · have hs' := hr.freed _ s hs hl hgone
    refine .inr ⟨_, hs', ?_⟩
    by_cases hreusable : s.reusable = true
    · left
      simp [Slot.release, hreusable, hg]
    · -- the last generation: the slot is retired and not queued
      have hmax : s.generation = Handle.maxGeneration := by
        have := hv.generation _ s hs
        simp only [Slot.reusable, decide_eq_true_eq] at hreusable
        omega
      refine .inr ⟨by simp [Slot.release, hreusable, hg], by simp [Slot.release, hreusable, hmax],
        rfl, fun hmem => ?_⟩
      obtain ⟨t, ht, -, hfree | hr⟩ := hr.free _ hmem
      · obtain ⟨u, hu, hc⟩ := hv.free _ hfree
        obtain rfl := Option.some.inj (hs.symm.trans hu)
        simp [Slot.isLive, hc] at hl
      · obtain rfl := Option.some.inj (hs.symm.trans ht)
        exact hreusable hr
  · exact .inl ⟨s, hr.kept _ s hs fun _ => hgone, hg, hl⟩

theorem Released.spent {gone : Nat → Prop} (hr : Released gone h h') (hs : Spent h handle) :
    Spent h' handle := by
  obtain ⟨s, hs, hspent⟩ := hs
  rcases hspent with hlt | ⟨hg, hmax, hdead, hnot⟩
  · by_cases hgone : s.isLive = true ∧ gone handle.index
    · refine ⟨_, hr.freed _ s hs hgone.1 hgone.2, .inl ?_⟩
      simp only [Slot.release]
      split_ifs <;> omega
    · exact ⟨s, hr.kept _ s hs fun hl hg => hgone ⟨hl, hg⟩, .inl hlt⟩
  · refine ⟨s, hr.kept _ s hs (by simp [hdead]), .inr ⟨hg, hmax, hdead, fun hmem => ?_⟩⟩
    obtain ⟨t, ht, -, hfree | hr⟩ := hr.free _ hmem
    · exact hnot hfree
    · obtain rfl := Option.some.inj (hs.symm.trans ht)
      simp [Slot.reusable, hmax] at hr

theorem put_old (i k : Nat) (w : Word) :
    (Current h handle → Current (h.put i k w) handle) ∧
      (Spent h handle → Spent (h.put i k w) handle) := by
  constructor
  · rintro ⟨s, hs, hg, hl⟩
    refine ⟨_, by rw [getElem?_put, hs]; rfl, ?_⟩
    split_ifs <;> simpa [Slot.isLive] using ⟨hg, hl⟩
  · rintro ⟨s, hs, hspent⟩
    refine ⟨_, by rw [getElem?_put, hs]; rfl, ?_⟩
    split_ifs
    · simpa [Slot.isLive] using hspent
    · exact hspent

theorem Change.current (hv : h.Valid) (hc : Change h h') (hh : Current h handle) :
    Current h' handle ∨ Spent h' handle := by
  cases hc with
  | same slots free => exact .inl (by rw [Current, slots]; exact hh)
  | placed p => exact .inl (p.old.1 hh)
  | written p => exact .inl (p ▸ (put_old _ _ _).1 hh)
  | released p => exact p.current hv hh

theorem Change.spent (hc : Change h h') (hh : Spent h handle) : Spent h' handle := by
  cases hc with
  | same slots free =>
    rw [Spent, slots, free]
    exact hh
  | placed p => exact p.old.2 hh
  | written p => exact p ▸ (put_old _ _ _).2 hh
  | released p => exact p.spent hh

/-! ## Histories -/

/-- The handle has been given out: it is current or spent. -/
def Known (h : Heap) (handle : Handle) : Prop := Current h handle ∨ Spent h handle

theorem Change.known (hv : h.Valid) (hc : Change h h') (hh : Known h handle) : Known h' handle :=
  hh.elim (hc.current hv) fun hs => .inr (hc.spent hs)

theorem Valid.spent_replay (hv : h.Valid) (ops : List Operation) (hh : Spent h handle) :
    Spent (h.replay ops) handle :=
  hv.replay_induction (fun _ hc => hc.spent) hh ops

theorem Valid.known_replay (hv : h.Valid) (ops : List Operation) (hh : Known h handle) :
    Known (h.replay ops) handle :=
  hv.replay_induction (fun hv hc => hc.known hv) hh ops

/-- A word that an operation gives out holds a handle that was not known before and is now. -/
theorem Operation.issued?_eq_some (hv : h.Valid) {op : Operation} {w : Word}
    (hw : op.issued? h = some w) :
    ∃ handle, w.handle? = some handle ∧ ¬ Known h handle ∧ Known (op.after h) handle := by
  cases op with
  | alloc length =>
    rw [Operation.issued?] at hw
    rw [Operation.after]
    obtain ⟨handle, h', he, hp⟩ | ⟨e, words, he⟩ := hv.alloc length
    · rw [he] at hw ⊢
      cases hw
      obtain ⟨hcurrent, hspent, hnew⟩ := hp.fresh
      exact ⟨handle, Word.handle?_ofHandle hp.fits, fun hk => hk.elim hcurrent hspent, .inl hnew⟩
    · rw [he] at hw
      cases hw
  | _ => cases hw

theorem Valid.issued (hv : h.Valid) (ops : List Operation) {w : Word} (hw : w ∈ h.issued ops) :
    ∃ handle, w.handle? = some handle ∧ ¬ Known h handle ∧ Known (h.replay ops) handle := by
  induction ops generalizing h with
  | nil => cases hw
  | cons op ops ih =>
    have hc := op.change hv
    rw [Heap.issued, List.mem_append, Option.mem_toList] at hw
    rcases hw with hw | hw
    · obtain ⟨handle, hhandle, hnot, hknown⟩ := Operation.issued?_eq_some hv hw
      exact ⟨handle, hhandle, hnot, (hc.valid hv).known_replay ops hknown⟩
    · obtain ⟨handle, hhandle, hnot, hknown⟩ := ih (hc.valid hv) hw
      exact ⟨handle, hhandle, fun hk => hnot (hc.known hv hk), hknown⟩

/-- No word is given out twice. -/
theorem Valid.nodup_issued (hv : h.Valid) (ops : List Operation) : (h.issued ops).Nodup := by
  induction ops generalizing h with
  | nil => exact .nil
  | cons op ops ih =>
    have hc := op.change hv
    rw [Heap.issued]
    cases hw : op.issued? h with
    | none => exact ih (hc.valid hv)
    | some w =>
      refine List.nodup_cons.2 ⟨fun hmem => ?_, ih (hc.valid hv)⟩
      obtain ⟨handle, hhandle, -, hknown⟩ := Operation.issued?_eq_some hv hw
      obtain ⟨other, hother, hnot, -⟩ := (hc.valid hv).issued ops hmem
      obtain rfl := Option.some.inj (hhandle.symm.trans hother)
      exact hnot hknown

/-- Over the whole life of a heap allocation gives out each handle word once, and a word that has
    stopped resolving does not resolve after any further operations. -/
theorem issued_never_alias (threshold : Nat) (collects : Bool) (allocator : Allocator)
    (ops : List Operation) :
    ((empty threshold collects allocator).issued ops).Nodup ∧
      ∀ w ∈ (empty threshold collects allocator).issued ops,
        ¬ ((empty threshold collects allocator).replay ops).isLive w →
          ∀ later, ¬ ((empty threshold collects allocator).replay (ops ++ later)).isLive w := by
  have hv := valid_empty threshold collects allocator
  refine ⟨hv.nodup_issued ops, fun w hw hstale later => ?_⟩
  obtain ⟨handle, hhandle, -, hknown⟩ := hv.issued ops hw
  have hspent : Spent ((empty threshold collects allocator).replay ops) handle :=
    hknown.resolve_left fun hc => hstale ((isLive_iff hhandle).2 hc)
  have hlater := (hv.replay ops).spent_replay later hspent
  rw [isLive_iff hhandle, replay, List.foldl_append]
  exact fun hc => hc.not_spent hlater

end StackMachine.Heap
