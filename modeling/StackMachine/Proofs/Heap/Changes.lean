import StackMachine.Proofs.Heap.Marking

/-!
# What an operation does to a heap

Allocation, access, collection and clearing change the slots of a heap in few ways: an array is
placed into a vacant slot, an element is written, or arrays are released. `Placed`, `Heap.put` and
`Released` describe these ways slot by slot, and `Valid` is what all of them keep: no mark is left
over, generations and indices fit into handles, and the queue holds each of its slots once and
only slots without array.

* `Operation.change`: every operation on a valid heap changes it in one of these ways.
* `Valid.replay`: a heap on which operations were carried out is valid.
-/

namespace StackMachine

theorem Queue.toList_of_pop?_eq_none {α : Type} {q : Queue α} (h : q.pop? = none) :
    q.toList = [] := by
  obtain ⟨front, back⟩ := q
  cases front with
  | cons a front => cases h
  | nil =>
    cases hb : back.reverse with
    | nil => simp [Queue.toList, hb]
    | cons a rest => simp [Queue.pop?, hb] at h

namespace Heap

/-! ## Valid heaps -/

/-- What every operation keeps. -/
structure Valid (h : Heap) : Prop where
  unmarked : ∀ i, ¬ Marked h.slots i
  generation : ∀ (i : Nat) (s : Slot), h.slots[i]? = some s → s.generation ≤ Handle.maxGeneration
  size : h.slots.size ≤ slotBound
  nodup : h.free.toList.Nodup
  free : ∀ i ∈ h.free.toList, ∃ s : Slot, h.slots[i]? = some s ∧ s.contents = none

/-- The handle names a vacant slot of `h`, or a new one, and `h'` has the array there. -/
structure Placed (array : Array Word) (handle : Handle) (h h' : Heap) : Prop where
  fits : handle.Fits
  collects : h'.collects = h.collects
  allocator : h'.allocator = h.allocator
  slots : ∀ i : Nat, h'.slots[i]? =
    if i = handle.index then some ⟨handle.generation, false, some array⟩ else h.slots[i]?
  vacancy :
    (h.slots[handle.index]? = some ⟨handle.generation, false, none⟩ ∧
      h.free.toList = handle.index :: h'.free.toList ∧ h'.slots.size = h.slots.size) ∨
    (handle = ⟨h.slots.size, 0⟩ ∧ h.free.toList = [] ∧ h'.free.toList = [] ∧
      h'.slots.size = h.slots.size + 1)

/-- The arrays of the slots in `gone` are freed. What is queued afterwards is one of them, or a slot
    that was vacant before. -/
structure Released (gone : Nat → Prop) (h h' : Heap) : Prop where
  size : h'.slots.size = h.slots.size
  kept : ∀ (i : Nat) (s : Slot), h.slots[i]? = some s → (s.isLive = true → ¬ gone i) →
    h'.slots[i]? = some s
  freed : ∀ (i : Nat) (s : Slot), h.slots[i]? = some s → s.isLive = true → gone i →
    h'.slots[i]? = some s.release
  nodup : h'.free.toList.Nodup
  free : ∀ i ∈ h'.free.toList, ∃ s : Slot, h.slots[i]? = some s ∧ (s.isLive = true → gone i) ∧
    (i ∈ h.free.toList ∨ s.reusable = true)

variable {h h' : Heap}

/-! ## Allocation -/

theorem Valid.slot_of_free (hv : h.Valid) {i : Nat} (hi : i ∈ h.free.toList) :
    ∃ g, h.slots[i]? = some ⟨g, false, none⟩ := by
  obtain ⟨⟨g, b, contents⟩, hs, hc⟩ := hv.free i hi
  have hm : b = false := Bool.eq_false_iff.2 fun hm => hv.unmarked i ⟨_, hs, hm⟩
  subst hm
  obtain rfl : contents = none := hc
  exact ⟨g, hs⟩

/-- An array finds a place unless all slots are taken. -/
theorem Valid.place (hv : h.Valid) (length : Int) (array : Array Word) :
    (∃ handle h', h.place length array = .ok (.ofHandle handle) h' ∧ Placed array handle h h') ∨
      h.slots.size = slotBound ∧
        ∃ words, h.place length array = .error (.outOfMemory length) { h with words } := by
  unfold Heap.place
  cases hpop : h.free.pop? with
  | some popped =>
    obtain ⟨i, free⟩ := popped
    have hfree := Queue.toList_of_pop? hpop
    obtain ⟨g, hs⟩ := hv.slot_of_free (hfree ▸ List.mem_cons_self)
    refine .inl ⟨⟨i, g⟩, { h with
        slots := h.slots.modify i fun s => ⟨s.generation, false, some array⟩
        free
        words := h.words + array.size + 1 },
      by simp only [hs], ⟨?_, hv.generation i _ hs⟩, rfl, rfl, fun j => ?_,
      .inl ⟨hs, hfree, by simp⟩⟩
    · have := (Array.getElem?_eq_some_iff.1 hs).1
      exact lt_of_lt_of_le this hv.size
    · rw [Array.getElem?_modify]
      by_cases hj : i = j
      · subst hj
        simp [hs]
      · rw [if_neg hj, if_neg (Ne.symm hj)]
  | none =>
    have hfree := Queue.toList_of_pop?_eq_none hpop
    by_cases hroom : h.slots.size < slotBound
    · simp only [if_pos hroom]
      refine .inl ⟨⟨h.slots.size, 0⟩, { h with
          slots := h.slots.push ⟨0, false, some array⟩
          words := h.words + array.size + 1 },
        rfl, ⟨hroom, Nat.zero_le _⟩, rfl, rfl, fun j => ?_, .inr ⟨rfl, hfree, hfree, by simp⟩⟩
      rw [Array.getElem?_push]
    · simp only [if_neg hroom]
      exact .inr ⟨le_antisymm hv.size (by omega), _, rfl⟩

theorem lt_of_grants {n : Nat} (hn : h.grants n = true) : n < lengthBound := by
  rw [grants, Bool.and_eq_true, decide_eq_true_eq] at hn
  exact hn.1

theorem Valid.alloc (hv : h.Valid) (length : Int64) :
    (∃ handle h', Heap.alloc length h = .ok (.ofHandle handle) h' ∧
        Placed (Array.replicate length.toInt.toNat .zero) handle h h') ∨
      ∃ e words, Heap.alloc length h = .error e { h with words } := by
  unfold Heap.alloc
  dsimp only
  split_ifs
  · exact .inr ⟨_, h.words, rfl⟩
  · exact .inr ⟨_, h.words, rfl⟩
  · rcases hv.place length.toInt (Array.replicate length.toInt.toNat .zero) with hp | ⟨-, words, hp⟩
    · exact .inl hp
    · exact .inr ⟨_, words, hp⟩

/-! ## Access -/

theorem getElem?_put (h : Heap) (i k : Nat) (w : Word) (j : Nat) :
    (h.put i k w).slots[j]? = h.slots[j]?.map fun s =>
      if i = j then ⟨s.generation, s.marked, s.contents.map (·.setIfInBounds k w)⟩ else s := by
  rw [put, Array.getElem?_modify]
  by_cases hij : i = j
  · simp only [if_pos hij]
    congr 1
    funext s
    cases s.contents <;> rfl
  · simp [if_neg hij]

@[simp]
theorem free_put (h : Heap) (i k : Nat) (w : Word) : (h.put i k w).free = h.free := rfl

theorem store_cases (h : Heap) (array index w : Word) :
    (∃ i k, Heap.store array index w h = .ok () (h.put i k w)) ∨
      ∃ e, Heap.store array index w h = .error e h := by
  unfold Heap.store
  cases h.locate array index with
  | error e => exact .inr ⟨e, rfl⟩
  | ok place => exact .inl ⟨place.1, place.2, rfl⟩

/-! ## Release -/

theorem mem_indices {slots : Array Slot} {p : Slot → Bool} {i : Nat} :
    i ∈ indices slots p ↔ ∃ s, slots[i]? = some s ∧ p s = true := by
  simp [indices, List.mem_zipIdx_iff_getElem?]

theorem nodup_indices (slots : Array Slot) (p : Slot → Bool) : (indices slots p).Nodup := by
  refine List.Nodup.sublist (List.Sublist.map _ List.filter_sublist) ?_
  rw [List.zipIdx_map_snd]
  exact List.nodup_range'

/-- Clearing frees every array. -/
theorem released_clear (h : Heap) : Released (fun _ => True) h h.clear where
  size := by simp [clear]
  kept i s hs hd := by
    have hdead : ¬ s.isLive = true := fun hl => hd hl trivial
    simp [clear, hs, hdead]
  freed i s hs hl _ := by simp [clear, hs, hl]
  nodup := by
    rw [clear, Queue.toList_ofList]
    exact nodup_indices _ _
  free i hi := by
    rw [clear, Queue.toList_ofList, mem_indices] at hi
    obtain ⟨s, hs, hr⟩ := hi
    exact ⟨s, hs, fun _ => trivial, .inr hr⟩

/-- A slot after marking. -/
theorem getElem?_mark {slots : Array Slot} (roots : List Word) (hu : ∀ i, ¬ Marked slots i)
    {i : Nat} {s : Slot} (hs : slots[i]? = some s) :
    ∃ b, (mark slots roots)[i]? = some ⟨s.generation, b, s.contents⟩ ∧
      (b = true ↔ s.isLive = true ∧ Reachable slots (· ∈ roots) i) := by
  obtain ⟨b, hb⟩ := (remarked_mark slots roots).slot i
  rw [hs] at hb
  refine ⟨b, hb, ?_⟩
  have hmarked : b = true ↔ Marked (mark slots roots) i := by simp [Marked, hb]
  have harray : arrayAt? slots i = s.contents := by simp [arrayAt?, hs]
  rw [hmarked]
  constructor
  · intro hm
    have hlive := isSome_of_marked_mark hu hm
    exact ⟨by rwa [harray] at hlive, (marked_mark_iff hu hlive).1 hm⟩
  · rintro ⟨hl, hr⟩
    exact (marked_mark_iff hu (by rw [harray]; exact hl)).2 hr

theorem slots_collect (h : Heap) (roots : List Word) :
    (h.collect roots).2.slots = (mark h.slots roots).map sweptSlot := rfl

theorem free_collect (h : Heap) (roots : List Word) :
    (h.collect roots).2.free.toList =
      h.free.toList ++ indices (mark h.slots roots) fun s => isGarbage s && s.reusable := by
  simp [collect, sweep]

/-- What the sweep leaves of a slot that was not marked before the collection. -/
theorem sweptSlot_eq {s : Slot} {b : Bool} {live : Prop} (hm : s.marked = false)
    (hb : b = true ↔ s.isLive = true ∧ live) :
    ((s.isLive = true → live) → sweptSlot ⟨s.generation, b, s.contents⟩ = s) ∧
      (s.isLive = true → ¬ live → sweptSlot ⟨s.generation, b, s.contents⟩ = s.release) := by
  obtain ⟨g, m, contents⟩ := s
  obtain rfl : m = false := hm
  cases contents with
  | none =>
    have hfalse : b = false := Bool.eq_false_iff.2 fun h => by cases (hb.1 h).1
    subst hfalse
    exact ⟨fun _ => rfl, nofun⟩
  | some array =>
    refine ⟨fun h => ?_, fun _ h => ?_⟩
    · rw [hb.2 ⟨rfl, h rfl⟩]
      rfl
    · rw [Bool.eq_false_iff.2 fun hb' => h (hb.1 hb').2]
      rfl

/-- A collection frees the arrays that cannot be reached. -/
theorem Valid.collect (hv : h.Valid) (roots : List Word) :
    Released (fun i => ¬ Reachable h.slots (· ∈ roots) i) h (h.collect roots).2 where
  size := by rw [slots_collect, Array.size_map, (remarked_mark h.slots roots).size_eq]
  kept i s hs hd := by
    obtain ⟨b, hb, hm⟩ := getElem?_mark roots hv.unmarked hs
    have hu : s.marked = false := Bool.eq_false_iff.2 fun hm => hv.unmarked i ⟨s, hs, hm⟩
    rw [slots_collect, Array.getElem?_map, hb, Option.map_some,
      (sweptSlot_eq hu hm).1 fun hl => not_not.1 (hd hl)]
  freed i s hs hl hg := by
    obtain ⟨b, hb, hm⟩ := getElem?_mark roots hv.unmarked hs
    have hu : s.marked = false := Bool.eq_false_iff.2 fun hm => hv.unmarked i ⟨s, hs, hm⟩
    rw [slots_collect, Array.getElem?_map, hb, Option.map_some, (sweptSlot_eq hu hm).2 hl hg]
  nodup := by
    rw [free_collect]
    refine hv.nodup.append (nodup_indices _ _) fun i hi hi' => ?_
    -- a slot that is freed now held an array, so it was not in the queue
    obtain ⟨t, ht, hc⟩ := hv.free i hi
    obtain ⟨s, hs, hg⟩ := mem_indices.1 hi'
    obtain ⟨b, hb, -⟩ := getElem?_mark roots hv.unmarked ht
    obtain rfl := Option.some.inj (hb.symm.trans hs)
    simp [isGarbage, Slot.isLive, hc] at hg
  free i hi := by
    rw [free_collect, List.mem_append] at hi
    rcases hi with hi | hi
    · obtain ⟨s, hs, hc⟩ := hv.free i hi
      exact ⟨s, hs, fun hl => by simp [Slot.isLive, hc] at hl, .inl hi⟩
    · obtain ⟨t, ht, hg⟩ := mem_indices.1 hi
      have hlt : i < h.slots.size := by
        rw [← (remarked_mark h.slots roots).size_eq]
        exact (Array.getElem?_eq_some_iff.1 ht).1
      obtain ⟨s, hs⟩ : ∃ s, h.slots[i]? = some s := ⟨_, Array.getElem?_eq_getElem hlt⟩
      obtain ⟨b, hb, hm⟩ := getElem?_mark roots hv.unmarked hs
      obtain rfl := Option.some.inj (hb.symm.trans ht)
      rw [Bool.and_eq_true, isGarbage, Bool.and_eq_true] at hg
      obtain ⟨⟨hl, hunmarked⟩, hr⟩ := hg
      refine ⟨s, hs, fun _ hreach => ?_, .inr hr⟩
      rw [hm.2 ⟨hl, hreach⟩] at hunmarked
      cases hunmarked

/-! ## Every operation -/

/-- The ways in which an operation changes a heap. -/
inductive Change (h h' : Heap) : Prop
  | same (slots : h'.slots = h.slots) (free : h'.free = h.free)
  | placed {array handle} (p : Placed array handle h h')
  | written {i k w} (p : h' = h.put i k w)
  | released {gone} (p : Released gone h h')

theorem Operation.change (hv : h.Valid) (op : Operation) : Change h (op.after h) := by
  cases op with
  | alloc length =>
    rw [Operation.after]
    obtain ⟨handle, h', he, hp⟩ | ⟨e, words, he⟩ := hv.alloc length
    · rw [he]
      exact .placed hp
    · rw [he]
      exact .same rfl rfl
  | load array index => exact .same rfl rfl
  | store array index w =>
    rw [Operation.after]
    obtain ⟨i, k, he⟩ | ⟨e, he⟩ := h.store_cases array index w
    · rw [he]
      exact .written rfl
    · rw [he]
      exact .same rfl rfl
  | collect roots => exact .released (hv.collect roots)
  | clear => exact .released h.released_clear

theorem Placed.valid {array : Array Word} {handle : Handle} (hv : h.Valid)
    (hp : Placed array handle h h') : h'.Valid where
  unmarked i := by
    rintro ⟨s, hs, hm⟩
    rw [hp.slots] at hs
    split_ifs at hs
    · cases hs; cases hm
    · exact hv.unmarked i ⟨s, hs, hm⟩
  generation i s hs := by
    rw [hp.slots] at hs
    split_ifs at hs
    · cases hs; exact hp.fits.2
    · exact hv.generation i s hs
  size := by
    rcases hp.vacancy with ⟨-, -, hsize⟩ | ⟨rfl, -, -, hsize⟩
    · exact hsize ▸ hv.size
    · have : h.slots.size < slotBound := hp.fits.1
      omega
  nodup := by
    rcases hp.vacancy with ⟨-, hfree, -⟩ | ⟨-, -, hfree, -⟩
    · have := hv.nodup
      rw [hfree] at this
      exact this.of_cons
    · rw [hfree]; exact .nil
  free i hi := by
    rcases hp.vacancy with ⟨-, hfree, -⟩ | ⟨-, -, hfree, -⟩
    · have hnodup := hv.nodup
      rw [hfree, List.nodup_cons] at hnodup
      obtain ⟨s, hs, hc⟩ := hv.free i (by rw [hfree]; exact .tail _ hi)
      have hne : i ≠ handle.index := fun he => hnodup.1 (he ▸ hi)
      exact ⟨s, by rw [hp.slots, if_neg hne, hs], hc⟩
    · rw [hfree] at hi; cases hi

theorem Valid.put (hv : h.Valid) (i k : Nat) (w : Word) : (h.put i k w).Valid where
  unmarked j := by
    rintro ⟨s, hs, hm⟩
    rw [getElem?_put] at hs
    obtain ⟨t, ht, rfl⟩ := Option.map_eq_some_iff.1 hs
    refine hv.unmarked j ⟨t, ht, ?_⟩
    split_ifs at hm <;> exact hm
  generation j s hs := by
    rw [getElem?_put] at hs
    obtain ⟨t, ht, rfl⟩ := Option.map_eq_some_iff.1 hs
    split_ifs <;> exact hv.generation j t ht
  size := by
    simp only [Heap.put, Array.size_modify]
    exact hv.size
  nodup := hv.nodup
  free j hj := by
    obtain ⟨s, hs, hc⟩ := hv.free j hj
    refine ⟨_, by rw [getElem?_put, hs]; rfl, ?_⟩
    split_ifs <;> simp [hc]

theorem Released.cases {gone : Nat → Prop} (hr : Released gone h h') {i : Nat} {s' : Slot}
    (hs : h'.slots[i]? = some s') :
    ∃ s, h.slots[i]? = some s ∧
      (s' = s ∧ (s.isLive = true → ¬ gone i) ∨ s' = s.release ∧ s.isLive = true ∧ gone i) := by
  have hlt : i < h.slots.size := hr.size ▸ (Array.getElem?_eq_some_iff.1 hs).1
  obtain ⟨s, ht⟩ : ∃ s, h.slots[i]? = some s := ⟨_, Array.getElem?_eq_getElem hlt⟩
  refine ⟨s, ht, ?_⟩
  by_cases hgone : s.isLive = true ∧ gone i
  · exact .inr ⟨Option.some.inj (hs.symm.trans (hr.freed i s ht hgone.1 hgone.2)), hgone⟩
  · have hkept : s.isLive = true → ¬ gone i := fun hl hg => hgone ⟨hl, hg⟩
    exact .inl ⟨Option.some.inj (hs.symm.trans (hr.kept i s ht hkept)), hkept⟩

theorem Released.valid {gone : Nat → Prop} (hv : h.Valid) (hr : Released gone h h') :
    h'.Valid where
  unmarked i := by
    rintro ⟨s', hs', hm⟩
    obtain ⟨s, hs, ⟨rfl, -⟩ | ⟨rfl, -⟩⟩ := hr.cases hs'
    · exact hv.unmarked i ⟨_, hs, hm⟩
    · cases hm
  generation i s' hs' := by
    obtain ⟨s, hs, ⟨rfl, -⟩ | ⟨rfl, -⟩⟩ := hr.cases hs'
    · exact hv.generation i _ hs
    · have := hv.generation i s hs
      simp only [Slot.release, Slot.reusable, decide_eq_true_eq]
      split_ifs <;> omega
  size := hr.size ▸ hv.size
  nodup := hr.nodup
  free i hi := by
    obtain ⟨s, hs, hl, -⟩ := hr.free i hi
    by_cases hlive : s.isLive = true
    · exact ⟨_, hr.freed i s hs hlive (hl hlive), rfl⟩
    · refine ⟨s, hr.kept i s hs fun h => absurd h hlive, ?_⟩
      simpa [Slot.isLive] using hlive

theorem Change.valid (hv : h.Valid) (hc : Change h h') : h'.Valid := by
  cases hc with
  | same slots free =>
    exact ⟨by rw [slots]; exact hv.unmarked, by rw [slots]; exact hv.generation,
      by rw [slots]; exact hv.size, by rw [free]; exact hv.nodup,
      by rw [slots, free]; exact hv.free⟩
  | placed p => exact p.valid hv
  | written p => exact p ▸ hv.put _ _ _
  | released p => exact p.valid hv

theorem valid_empty (threshold : Nat) (collects : Bool) (allocator : Allocator) :
    (empty threshold collects allocator).Valid where
  unmarked i := by simp [Marked, empty]
  generation i s hs := by simp [empty] at hs
  size := Nat.zero_le _
  nodup := .nil
  free i hi := by cases hi

/-- What every change of a valid heap keeps holds after any sequence of operations. -/
theorem Valid.replay_induction {P : Heap → Prop}
    (hstep : ∀ {h h'}, Valid h → Change h h' → P h → P h') (hv : h.Valid) (hp : P h)
    (ops : List Operation) : P (h.replay ops) := by
  induction ops generalizing h with
  | nil => exact hp
  | cons op ops ih =>
    have hc := op.change hv
    exact ih (hc.valid hv) (hstep hv hc hp)

/-- A heap on which operations were carried out is valid. -/
theorem Valid.replay (hv : h.Valid) (ops : List Operation) : (h.replay ops).Valid :=
  hv.replay_induction (fun hv hc _ => hc.valid hv) hv ops

end Heap

end StackMachine
