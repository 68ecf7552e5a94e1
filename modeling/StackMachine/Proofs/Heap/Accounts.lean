import StackMachine.Proofs.Heap.Collection

/-!
# The accounts of a heap

Besides its slots a heap keeps a queue of the slots to use next, a count of the words in use and the
threshold of the next collection. Allocation brings them up to date step by step, a collection
counts afresh and clearing builds the queue anew. `Consistent` says how they belong to the slots.

* `Operation.consistent`: every operation keeps a heap consistent.
* `consistent_replay`: a heap is consistent after any sequence of operations.
-/

namespace StackMachine.Heap

/-- What the arrays of a heap count for: each its length and one word more. -/
def footprint (h : Heap) : Nat :=
  ∑ i ∈ Finset.range h.slots.size, (arrayAt? h.slots i).elim 0 fun array => array.size + 1

/-- A slot without array is queued, unless its generations are used up. -/
def Queued (h : Heap) : Prop :=
  ∀ (i : Nat) (s : Slot), h.slots[i]? = some s → s.contents = none → i ∉ h.free.toList →
    s.generation = Handle.maxGeneration

/-- The slots of the heap are valid, and its accounts belong to them. The heap began with the
    threshold `initial`. -/
structure Consistent (initial : Nat) (h : Heap) : Prop extends Valid h where
  queued : h.Queued
  words : h.slots.size < 2 ^ 32 → h.words = h.footprint
  initialThreshold : h.initialThreshold = initial
  threshold : initial ≤ h.threshold

variable {h h' : Heap} {initial : Nat}

/-! ## The queue -/

/-- A slot without array that is not queued after an array was placed was neither before. -/
theorem Placed.unqueued {array : Array Word} {handle : Handle} (hp : Placed array handle h h')
    {i : Nat} {s : Slot} (hs : h'.slots[i]? = some s) (hc : s.contents = none)
    (hfree : i ∉ h'.free.toList) : h.slots[i]? = some s ∧ i ∉ h.free.toList := by
  rw [hp.slots] at hs
  split_ifs at hs with hi
  · cases hs
    cases hc
  · refine ⟨hs, fun hmem => ?_⟩
    rcases hp.vacancy with ⟨-, hcons, -⟩ | ⟨-, hnil, -⟩
    · rw [hcons, List.mem_cons] at hmem
      exact hmem.elim hi hfree
    · rw [hnil] at hmem
      cases hmem

theorem Placed.queued {array : Array Word} {handle : Handle} (hp : Placed array handle h h')
    (hq : h.Queued) : h'.Queued := by
  intro i s hs hc hfree
  obtain ⟨hs, hfree⟩ := hp.unqueued hs hc hfree
  exact hq i s hs hc hfree

/-- Writing an element leaves a slot without array as it is. -/
theorem getElem?_of_put {i j k : Nat} {w : Word} {s : Slot} (hs : (h.put j k w).slots[i]? = some s)
    (hc : s.contents = none) : h.slots[i]? = some s := by
  rw [getElem?_put] at hs
  obtain ⟨⟨generation, marked, contents⟩, ht, rfl⟩ := Option.map_eq_some_iff.1 hs
  split_ifs at hc ⊢
  · obtain rfl : contents = none := Option.map_eq_none_iff.1 hc
    exact ht
  · exact ht

theorem Queued.put (hq : h.Queued) (i k : Nat) (w : Word) : (h.put i k w).Queued :=
  fun j s hs hc hfree => hq j s (getElem?_of_put hs hc) hc hfree

/-- A slot that cannot be used again is in its last generation, also after its array is freed. -/
theorem Valid.generation_eq (hv : h.Valid) {i : Nat} {s : Slot} (hs : h.slots[i]? = some s)
    (hr : ¬ s.reusable = true) :
    s.generation = Handle.maxGeneration ∧ s.release.generation = Handle.maxGeneration := by
  have hle := hv.generation i s hs
  have hmax : s.generation = Handle.maxGeneration := by
    simp only [Slot.reusable, decide_eq_true_eq] at hr
    omega
  exact ⟨hmax, by simp [Slot.release, hr, hmax]⟩

/-- Clearing queues every slot that can be used again. -/
theorem mem_free_clear {i : Nat} :
    i ∈ h.clear.free.toList ↔ ∃ s : Slot, h.slots[i]? = some s ∧ s.reusable = true := by
  rw [clear, Queue.toList_ofList, mem_indices]

theorem Valid.queued_clear (hv : h.Valid) : h.clear.Queued := by
  intro i s' hs' _ hfree
  obtain ⟨s, hs, hcase⟩ := h.released_clear.cases hs'
  obtain ⟨hmax, hmax'⟩ := hv.generation_eq hs fun hr => hfree (mem_free_clear.2 ⟨s, hs, hr⟩)
  rcases hcase with ⟨rfl, -⟩ | ⟨rfl, -⟩
  · exact hmax
  · exact hmax'

/-- A collection queues the slots it frees, as far as they can be used again. -/
theorem Valid.mem_free_collect (hv : h.Valid) {roots : List Word} {i : Nat} {s : Slot}
    (hs : h.slots[i]? = some s) (hl : s.isLive = true) (hr : s.reusable = true)
    (hgone : ¬ Reachable h.slots (· ∈ roots) i) : i ∈ (h.collect roots).2.free.toList := by
  rw [free_collect, List.mem_append]
  -- the slot has no mark, so that the sweep takes it for garbage
  obtain ⟨b, hb, hmark⟩ := getElem?_mark roots hv.unmarked hs
  have hunmarked : b = false := Bool.eq_false_iff.2 fun hb => hgone (hmark.1 hb).2
  refine .inr (mem_indices.2 ⟨_, hb, ?_⟩)
  simp only [Slot.isLive] at hl
  simp only [Slot.reusable] at hr
  simp [isGarbage, Slot.isLive, Slot.reusable, hunmarked, hl, hr]

/-- A collection leaves the queue as it is and adds the slots it frees. -/
theorem Valid.queued_collect (hv : h.Valid) (hq : h.Queued) (roots : List Word) :
    (h.collect roots).2.Queued := by
  intro i s' hs' hc hfree
  obtain ⟨s, hs, ⟨rfl, -⟩ | ⟨rfl, hl, hgone⟩⟩ := (hv.collect roots).cases hs'
  · rw [free_collect, List.mem_append, not_or] at hfree
    exact hq i s' hs hc hfree.1
  · exact (hv.generation_eq hs fun hr => hfree (hv.mem_free_collect hs hl hr hgone)).2

/-! ## The words in use -/

/-- The count of the collector is the footprint. -/
theorem liveWords_eq (h : Heap) : h.liveWords = h.footprint := by
  have hlist : ∀ (slots : List Slot) (n : Nat), slots.foldl (fun n s => n + s.words) n =
      n + ∑ i ∈ Finset.range slots.length,
        (slots[i]?.bind Slot.contents).elim 0 fun array => array.size + 1 := by
    intro slots
    induction slots with
    | nil => simp
    | cons s slots ih =>
      intro n
      have hs : s.words = s.contents.elim 0 fun array => array.size + 1 := by
        unfold Slot.words
        cases s.contents <;> rfl
      rw [List.foldl_cons, ih, List.length_cons, Finset.sum_range_succ']
      simp only [List.getElem?_cons_succ, List.getElem?_cons_zero, Option.bind_some, ← hs]
      omega
  have hall := hlist h.slots.toList 0
  simpa [liveWords, footprint, arrayAt?, ← Array.foldl_toList] using hall

/-- A new array adds its words, wherever it is placed. -/
theorem Placed.footprint_eq {array : Array Word} {handle : Handle} (hp : Placed array handle h h') :
    h'.footprint = h.footprint + array.size + 1 := by
  have hnew : arrayAt? h'.slots handle.index = some array := by
    rw [arrayAt?, hp.slots, if_pos rfl]
    rfl
  have hold : ∀ i, i ≠ handle.index → arrayAt? h'.slots i = arrayAt? h.slots i := fun i hi => by
    rw [arrayAt?, arrayAt?, hp.slots, if_neg hi]
  rcases hp.vacancy with ⟨hs, -, hsize⟩ | ⟨rfl, -, -, hsize⟩
  · have hvacant : arrayAt? h.slots handle.index = none := by
      rw [arrayAt?, hs]
      rfl
    have hmem : handle.index ∈ Finset.range h.slots.size :=
      Finset.mem_range.2 (Array.getElem?_eq_some_iff.1 hs).1
    have hrest : ∀ i ∈ (Finset.range h.slots.size).erase handle.index,
        (arrayAt? h'.slots i).elim 0 (fun array => array.size + 1) =
          (arrayAt? h.slots i).elim 0 fun array => array.size + 1 := fun i hi => by
      rw [hold i (Finset.ne_of_mem_erase hi)]
    rw [footprint, footprint, hsize, ← Finset.add_sum_erase _ _ hmem,
      ← Finset.add_sum_erase _ _ hmem, Finset.sum_congr rfl hrest, hnew, hvacant]
    simp only [Option.elim_some, Option.elim_none]
    omega
  · have hrest : ∀ i ∈ Finset.range h.slots.size,
        (arrayAt? h'.slots i).elim 0 (fun array => array.size + 1) =
          (arrayAt? h.slots i).elim 0 fun array => array.size + 1 := fun i hi => by
      rw [hold i (Finset.mem_range.1 hi).ne]
    rw [footprint, footprint, hsize, Finset.sum_range_succ, Finset.sum_congr rfl hrest, hnew]
    rfl

theorem footprint_put (h : Heap) (i k : Nat) (w : Word) :
    (h.put i k w).footprint = h.footprint := by
  have hsize : (h.put i k w).slots.size = h.slots.size := by simp [put]
  rw [footprint, footprint, hsize]
  refine Finset.sum_congr rfl fun j _ => ?_
  rw [arrayAt?, arrayAt?, getElem?_put]
  cases h.slots[j]? with
  | none => rfl
  | some s =>
    by_cases hij : i = j
    · cases hc : s.contents <;> simp [hij, hc]
    · simp [hij]

theorem footprint_clear (h : Heap) : h.clear.footprint = 0 := by
  refine Finset.sum_eq_zero fun i _ => ?_
  have hgone : ¬ (arrayAt? h.clear.slots i).isSome := fun hsome =>
    (h.released_clear.arrayAt?_eq.1.1 hsome).2 trivial
  rw [Option.not_isSome_iff_eq_none.1 hgone]
  rfl

/-! ## Every operation -/

/-- What an allocation enters into the accounts. Only when all slots are taken are words counted for
    which there is no array. -/
theorem Valid.alloc_accounts (hv : h.Valid) (length : Int64) :
    (∃ array handle w h', Heap.alloc length h = .ok w h' ∧ Placed array handle h h' ∧
        h'.words = h.words + array.size + 1 ∧ h'.threshold = h.threshold ∧
          h'.initialThreshold = h.initialThreshold) ∨
      ∃ e words, Heap.alloc length h = .error e { h with words } ∧
        (h.slots.size < 2 ^ 32 → words = h.words) := by
  unfold Heap.alloc
  dsimp only
  split_ifs
  · exact .inr ⟨_, h.words, rfl, fun _ => rfl⟩
  · exact .inr ⟨_, h.words, rfl, fun _ => rfl⟩
  · generalize Array.replicate length.toInt.toNat Word.zero = array
    rcases hv.place length.toInt array with ⟨handle, h', he, hp⟩ | ⟨hfull, words, he⟩
    · refine .inl ⟨array, handle, _, h', he, hp, ?_⟩
      unfold Heap.place at he
      split at he
      · obtain ⟨-, rfl⟩ := EStateM.Result.ok.inj he
        exact ⟨rfl, rfl, rfl⟩
      · split_ifs at he
        obtain ⟨-, rfl⟩ := EStateM.Result.ok.inj he
        exact ⟨rfl, rfl, rfl⟩
    · exact .inr ⟨_, words, he, fun hroom => absurd hfull hroom.ne⟩

theorem Consistent.alloc (hc : Consistent initial h) (length : Int64) :
    Consistent initial (left (Heap.alloc length h)) := by
  obtain ⟨array, handle, w, h', he, hp, hwords, hthreshold, hinitial⟩ | ⟨e, words, he, hwords⟩ :=
    hc.toValid.alloc_accounts length
  · rw [he]
    refine { hp.valid hc.toValid with
      queued := hp.queued hc.queued
      words := fun hroom => ?_
      initialThreshold := hinitial.trans hc.initialThreshold
      threshold := hc.threshold.trans_eq hthreshold.symm }
    have hsize : h.slots.size ≤ h'.slots.size := by
      rcases hp.vacancy with ⟨-, -, hsize⟩ | ⟨-, -, -, hsize⟩ <;> omega
    change h'.words = h'.footprint
    rw [hwords, hp.footprint_eq, hc.words (hsize.trans_lt hroom)]
  · rw [he]
    exact { hc with
      words := fun hroom => (hwords hroom).trans (hc.words hroom) }

theorem Consistent.store (hc : Consistent initial h) (array index w : Word) :
    Consistent initial (left (Heap.store array index w h)) := by
  obtain ⟨i, k, he⟩ | ⟨e, he⟩ := h.store_cases array index w
  · rw [he]
    refine { hc.toValid.put i k w with
      queued := hc.queued.put i k w
      words := fun hroom => ?_
      initialThreshold := hc.initialThreshold
      threshold := hc.threshold }
    rw [left, footprint_put]
    exact hc.words (by simpa [left, put] using hroom)
  · rw [he]
    exact hc

/-- A collection counts the words that are left. -/
theorem Consistent.collect (hc : Consistent initial h) (roots : List Word) :
    Consistent initial (h.collect roots).2 where
  toValid := (hc.toValid.collect roots).valid hc.toValid
  queued := hc.toValid.queued_collect hc.queued roots
  words _ := liveWords_eq (h.collect roots).2
  initialThreshold := hc.initialThreshold
  threshold := hc.initialThreshold ▸ le_max_right _ _

theorem Consistent.clear (hc : Consistent initial h) : Consistent initial h.clear where
  toValid := h.released_clear.valid hc.toValid
  queued := hc.toValid.queued_clear
  words _ := h.footprint_clear.symm
  initialThreshold := hc.initialThreshold
  threshold := hc.initialThreshold.ge

theorem Operation.consistent (hc : Consistent initial h) (op : Operation) :
    Consistent initial (op.after h) := by
  cases op with
  | alloc length => exact hc.alloc length
  | load array index => exact hc
  | store array index w => exact hc.store array index w
  | collect roots => exact hc.collect roots
  | clear => exact hc.clear

theorem consistent_empty (threshold : Nat) (collects : Bool) (allocator : Allocator) :
    Consistent threshold (empty threshold collects allocator) where
  toValid := valid_empty threshold collects allocator
  queued i s hs := by simp [empty] at hs
  words _ := rfl
  initialThreshold := rfl
  threshold := le_rfl

/-- Whatever is done to a heap that was empty, the queue holds slots without array, each once; a
    slot without array that is not queued is in its last generation, and none is beyond it; no mark
    is left; the words in use are those of the arrays; and the threshold is at least the initial
    one. -/
theorem consistent_replay (threshold : Nat) (collects : Bool) (allocator : Allocator)
    (ops : List Operation) :
    Consistent threshold ((empty threshold collects allocator).replay ops) := by
  have hempty := consistent_empty threshold collects allocator
  generalize empty threshold collects allocator = h at hempty
  induction ops generalizing h with
  | nil => exact hempty
  | cons op ops ih => exact ih _ (op.consistent hempty)

end StackMachine.Heap
