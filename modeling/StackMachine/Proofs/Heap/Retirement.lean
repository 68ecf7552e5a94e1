import StackMachine.Proofs.Heap.Accounts
import StackMachine.Proofs.Heap.Freshness

/-!
# Retired slots

A slot without array that is not queued is retired: nothing uses it again. When its generations are
used up this is as it should be, and a collection retires a slot only then, since it never takes one
out of the queue. Clearing builds the queue anew and asks a slot without array for its generation
alone. A slot that waits for its last array has the same generation as one that has had it, so that
clearing drops it from the queue, and its last generation is never used.

* `Operation.retired_after`: how one operation can retire a slot.
* `Dropped.lost`: a slot that clearing drops is lost for good.
* `lost_early_iff`: a slot is retired before its last handle was given out if and only if clearing
  has dropped it.
-/

namespace StackMachine.Heap

/-- The slot has no array and is not queued. -/
def Retired (h : Heap) (i : Nat) : Prop :=
  ∃ s, h.slots[i]? = some s ∧ s.contents = none ∧ i ∉ h.free.toList

/-- The slot is queued, and the array that it waits for is its last one. -/
def AwaitsLast (h : Heap) (i : Nat) : Prop :=
  i ∈ h.free.toList ∧ ∃ s, h.slots[i]? = some s ∧ s.generation = Handle.maxGeneration

/-- The last handle that a slot can give out. -/
def lastHandle (i : Nat) : Handle := ⟨i, Handle.maxGeneration⟩

/-- One of the operations clears the heap while the slot waits for its last array. -/
def Dropped (h : Heap) (ops : List Operation) (i : Nat) : Prop :=
  ∃ before after, ops = before ++ .clear :: after ∧ AwaitsLast (h.replay before) i

variable {h h' : Heap} {handle : Handle} {i : Nat}

/-! ## One operation -/

/-- A handle that resolves after an array was placed is the new one or resolved before. -/
theorem Placed.current_after {array : Array Word} {new : Handle} (hp : Placed array new h h')
    (hc : Current h' handle) : handle = new ∨ Current h handle := by
  obtain ⟨s, hs, hg, hl⟩ := hc
  rw [hp.slots] at hs
  split_ifs at hs with hi
  · obtain rfl := Option.some.inj hs
    left
    show Handle.mk handle.index handle.generation = new
    rw [hi, ← hg]
  · exact .inr ⟨s, hs, hg, hl⟩

theorem Placed.retired_after {array : Array Word} (hp : Placed array handle h h')
    (hr : Retired h' i) : Retired h i := by
  obtain ⟨s, hs, hc, hfree⟩ := hr
  obtain ⟨hs, hfree⟩ := hp.unqueued hs hc hfree
  exact ⟨s, hs, hc, hfree⟩

theorem Released.current_after {gone : Nat → Prop} (hr : Released gone h h')
    (hc : Current h' handle) : Current h handle := by
  obtain ⟨s', hs', hg, hl⟩ := hc
  obtain ⟨s, hs, ⟨rfl, -⟩ | ⟨rfl, -⟩⟩ := hr.cases hs'
  · exact ⟨s', hs, hg, hl⟩
  · cases hl

theorem current_put {k : Nat} {w : Word} (hc : Current (h.put i k w) handle) :
    Current h handle := by
  obtain ⟨s, hs, hg, hl⟩ := hc
  rw [getElem?_put] at hs
  obtain ⟨t, ht, rfl⟩ := Option.map_eq_some_iff.1 hs
  refine ⟨t, ht, ?_⟩
  split_ifs at hg hl
  · exact ⟨hg, by simpa [Slot.isLive] using hl⟩
  · exact ⟨hg, hl⟩

theorem retired_put {j k : Nat} {w : Word} (hr : Retired (h.put j k w) i) : Retired h i := by
  obtain ⟨s, hs, hc, hfree⟩ := hr
  exact ⟨s, getElem?_of_put hs hc, hc, hfree⟩

/-- A handle that resolves after an operation was given out by it or resolved before. -/
theorem Operation.current_after (hv : h.Valid) {op : Operation}
    (hc : Current (op.after h) handle) :
    op.issued? h = some (.ofHandle handle) ∨ Current h handle := by
  cases op with
  | alloc length =>
    rw [Operation.after] at hc
    rw [Operation.issued?]
    obtain ⟨new, h', he, hp⟩ | ⟨e, words, he⟩ := hv.alloc length
    · rw [he] at hc ⊢
      rcases hp.current_after hc with rfl | hold
      · exact .inl rfl
      · exact .inr hold
    · rw [he] at hc
      exact .inr hc
  | load array index => exact .inr hc
  | store array index w =>
    rw [Operation.after] at hc
    obtain ⟨i, k, he⟩ | ⟨e, he⟩ := h.store_cases array index w
    · rw [he] at hc
      exact .inr (current_put hc)
    · rw [he] at hc
      exact .inr hc
  | collect roots => exact .inr ((hv.collect roots).current_after hc)
  | clear => exact .inr (h.released_clear.current_after hc)

/-- A slot that cannot be used again and has an array: the handle of that array is its last. -/
theorem Valid.current_lastHandle (hv : h.Valid) {s : Slot} (hs : h.slots[i]? = some s)
    (hl : s.isLive = true) (hr : ¬ s.reusable = true) : Current h (lastHandle i) :=
  ⟨s, hs, (hv.generation_eq hs hr).1, hl⟩

/-- A collection retires a slot only when it frees the last array of the slot. -/
theorem Valid.retired_collect (hv : h.Valid) {roots : List Word}
    (hr : Retired (h.collect roots).2 i) : Retired h i ∨ Current h (lastHandle i) := by
  obtain ⟨s', hs', hc, hfree⟩ := hr
  obtain ⟨s, hs, ⟨rfl, -⟩ | ⟨rfl, hl, hgone⟩⟩ := (hv.collect roots).cases hs'
  · rw [free_collect, List.mem_append, not_or] at hfree
    exact .inl ⟨s', hs, hc, hfree.1⟩
  · have hused : ¬ s.reusable = true := fun hr => hfree (hv.mem_free_collect hs hl hr hgone)
    exact .inr (hv.current_lastHandle hs hl hused)

/-- Clearing retires a slot also when it waits for its last array. -/
theorem Valid.retired_clear (hv : h.Valid) (hr : Retired h.clear i) :
    Retired h i ∨ Current h (lastHandle i) ∨ AwaitsLast h i := by
  obtain ⟨s', hs', hc, hfree⟩ := hr
  obtain ⟨s, hs, hcase⟩ := h.released_clear.cases hs'
  have hused : ¬ s.reusable = true := fun hr => hfree (mem_free_clear.2 ⟨s, hs, hr⟩)
  rcases hcase with ⟨rfl, -⟩ | ⟨rfl, hl, -⟩
  · by_cases hqueued : i ∈ h.free.toList
    · exact .inr (.inr ⟨hqueued, s', hs, (hv.generation_eq hs hused).1⟩)
    · exact .inl ⟨s', hs, hc, hqueued⟩
  · exact .inr (.inl (hv.current_lastHandle hs hl hused))

/-- How a slot comes to be retired. -/
theorem Operation.retired_after (hv : h.Valid) {op : Operation} (hr : Retired (op.after h) i) :
    Retired h i ∨ Current h (lastHandle i) ∨ op = .clear ∧ AwaitsLast h i := by
  cases op with
  | alloc length =>
    rw [Operation.after] at hr
    obtain ⟨handle, h', he, hp⟩ | ⟨e, words, he⟩ := hv.alloc length
    · rw [he] at hr
      exact .inl (hp.retired_after hr)
    · rw [he] at hr
      exact .inl hr
  | load array index => exact .inl hr
  | store array index w =>
    rw [Operation.after] at hr
    obtain ⟨j, k, he⟩ | ⟨e, he⟩ := h.store_cases array index w
    · rw [he] at hr
      exact .inl (retired_put hr)
    · rw [he] at hr
      exact .inl hr
  | collect roots =>
    rcases hv.retired_collect hr with hold | hlast
    · exact .inl hold
    · exact .inr (.inl hlast)
  | clear =>
    rcases hv.retired_clear hr with hold | hlast | hwaits
    · exact .inl hold
    · exact .inr (.inl hlast)
    · exact .inr (.inr ⟨rfl, hwaits⟩)

/-! ## Histories -/

theorem replay_append (h : Heap) (ops later : List Operation) :
    h.replay (ops ++ later) = (h.replay ops).replay later := List.foldl_append

theorem issued_append (h : Heap) (ops later : List Operation) :
    h.issued (ops ++ later) = h.issued ops ++ (h.replay ops).issued later := by
  induction ops generalizing h with
  | nil => rfl
  | cons op ops ih =>
    rw [List.cons_append, issued, issued, ih, List.append_assoc]
    rfl

theorem Dropped.append {ops : List Operation} (hd : Dropped h ops i) (later : List Operation) :
    Dropped h (ops ++ later) i := by
  obtain ⟨before, after, rfl, hwaits⟩ := hd
  exact ⟨before, after ++ later, by simp, hwaits⟩

/-- What is known of the handles that operations on an empty heap have given out: those that resolve
    are among them, and so is the last handle of a retired slot unless clearing has dropped it. -/
structure Traced (h : Heap) (ops : List Operation) : Prop where
  current : ∀ handle, Current (h.replay ops) handle → .ofHandle handle ∈ h.issued ops
  retired : ∀ i, Retired (h.replay ops) i →
    .ofHandle (lastHandle i) ∈ h.issued ops ∨ Dropped h ops i

/-- One operation more. -/
theorem Traced.concat (hv : h.Valid) {ops : List Operation} (ht : Traced h ops) (op : Operation) :
    Traced h (ops ++ [op]) := by
  have hvalid := hv.replay ops
  have hreplay : h.replay (ops ++ [op]) = op.after (h.replay ops) := replay_append h ops [op]
  have hissued : h.issued (ops ++ [op]) = h.issued ops ++ (op.issued? (h.replay ops)).toList := by
    rw [issued_append, issued, issued, List.append_nil]
  refine ⟨fun handle hc => ?_, fun i hr => ?_⟩
  · rw [hreplay] at hc
    rw [hissued, List.mem_append]
    rcases op.current_after hvalid hc with hnew | hold
    · exact .inr (Option.mem_toList.2 hnew)
    · exact .inl (ht.current handle hold)
  · rw [hreplay] at hr
    rw [hissued, List.mem_append]
    rcases op.retired_after hvalid hr with hold | hlast | ⟨rfl, hwaits⟩
    · exact (ht.retired i hold).imp .inl fun hd => hd.append [op]
    · exact .inl (.inl (ht.current _ hlast))
    · exact .inr ⟨ops, [], rfl, hwaits⟩

theorem traced_empty (threshold : Nat) (collects : Bool) (allocator : Allocator)
    (ops : List Operation) :
    Traced (empty threshold collects allocator) ops := by
  induction ops using List.reverseRecOn with
  | nil =>
    refine ⟨?_, ?_⟩
    · rintro handle ⟨s, hs, -⟩
      simp [replay, empty] at hs
    · rintro i ⟨s, hs, -⟩
      simp [replay, empty] at hs
  | append_singleton ops op ih => exact ih.concat (valid_empty threshold collects allocator) op

/-! ## Slots that clearing drops -/

/-- The handle that a slot waits to give out is not known. -/
theorem AwaitsLast.not_known (hv : h.Valid) (hw : AwaitsLast h i) : ¬ Known h (lastHandle i) := by
  obtain ⟨hmem, s, hs, hmax⟩ := hw
  rintro (⟨t, ht, -, hl⟩ | ⟨t, ht, hlt | ⟨-, -, -, hfree⟩⟩)
  · obtain ⟨u, hu, hc⟩ := hv.free i hmem
    obtain rfl := Option.some.inj (hu.symm.trans ht)
    simp [Slot.isLive, hc] at hl
  · obtain rfl := Option.some.inj (hs.symm.trans ht)
    exact absurd hlt (Nat.not_lt.2 hmax.le)
  · exact hfree hmem

/-- Clearing makes it a handle that is used up. -/
theorem AwaitsLast.spent_clear (hv : h.Valid) (hw : AwaitsLast h i) :
    Spent h.clear (lastHandle i) := by
  obtain ⟨hmem, s, hs, hmax⟩ := hw
  obtain ⟨t, ht, hc⟩ := hv.free i hmem
  obtain rfl := Option.some.inj (hs.symm.trans ht)
  have hdead : s.isLive = false := by simp [Slot.isLive, hc]
  refine ⟨s, h.released_clear.kept i s hs (by simp [hdead]), .inr ⟨hmax.symm, hmax, hdead, ?_⟩⟩
  rw [mem_free_clear]
  rintro ⟨u, hu, hr⟩
  obtain rfl := Option.some.inj (hs.symm.trans hu)
  simp [Slot.reusable, hmax] at hr

theorem AwaitsLast.fits (hv : h.Valid) (hw : AwaitsLast h i) : (lastHandle i).Fits := by
  obtain ⟨-, s, hs, -⟩ := hw
  exact ⟨lt_of_lt_of_le (Array.getElem?_eq_some_iff.1 hs).1 hv.size, le_rfl⟩

/-- The slot of a last handle that is used up is retired. -/
theorem Spent.retired (hv : h.Valid) (hs : Spent h (lastHandle i)) : Retired h i := by
  obtain ⟨s, hs, hlt | ⟨-, -, hdead, hfree⟩⟩ := hs
  · exact absurd hlt (Nat.not_lt.2 (hv.generation i s hs))
  · exact ⟨s, hs, by simpa [Slot.isLive] using hdead, hfree⟩

/-- A slot that clearing drops stays out of use, and its last handle is never given out. -/
theorem Dropped.lost (hv : h.Valid) {ops : List Operation} (hd : Dropped h ops i) :
    Retired (h.replay ops) i ∧ .ofHandle (lastHandle i) ∉ h.issued ops := by
  obtain ⟨before, after, rfl, hwaits⟩ := hd
  have hbefore := hv.replay before
  have hclear := (h.replay before).released_clear.valid hbefore
  have hspent := hwaits.spent_clear hbefore
  have hword := Word.handle?_ofHandle (hwaits.fits hbefore)
  constructor
  · rw [replay_append]
    exact (hclear.spent_replay after hspent).retired (hclear.replay after)
  · rw [issued_append, List.mem_append, not_or]
    constructor
    · intro hmem
      obtain ⟨handle, hhandle, -, hknown⟩ := hv.issued before hmem
      obtain rfl := Option.some.inj (hword.symm.trans hhandle)
      exact hwaits.not_known hbefore hknown
    · intro hmem
      obtain ⟨handle, hhandle, hnot, -⟩ := hclear.issued after hmem
      obtain rfl := Option.some.inj (hword.symm.trans hhandle)
      exact hnot (.inr hspent)

/-- Whatever is done to a heap that was empty: a slot is lost early, that is, retired before the
    handle of its last generation was given out, if and only if the heap was cleared while the slot
    was queued in that generation. No other operation loses a slot. -/
theorem lost_early_iff (threshold : Nat) (collects : Bool) (allocator : Allocator)
    (ops : List Operation) (i : Nat) :
    (Retired ((empty threshold collects allocator).replay ops) i ∧
        .ofHandle (lastHandle i) ∉ (empty threshold collects allocator).issued ops) ↔
      Dropped (empty threshold collects allocator) ops i := by
  constructor
  · rintro ⟨hretired, hnot⟩
    exact ((traced_empty threshold collects allocator ops).retired i hretired).resolve_left hnot
  · exact Dropped.lost (valid_empty threshold collects allocator)

/-! ## A slot that is lost -/

theorem churn_succ (h : Heap) (n : Nat) :
    h.churn (n + 1) = (left (Heap.alloc 0 (h.churn n))).clear := by
  have hrounds : rounds (n + 1) = rounds n ++ [.alloc 0, .clear] := by
    simp [rounds, List.replicate_succ']
  rw [churn, churn, hrounds, replay_append]
  rfl

/-- A heap with one slot, which is queued in the given generation. -/
def single (threshold : Nat) (collects : Bool) (generation : Nat) : Heap :=
  ⟨#[⟨generation, false, none⟩], .ofList [0], 0, threshold, threshold, collects, .willing⟩

/-- The same heap while the slot has an array. -/
def singleFull (threshold : Nat) (collects : Bool) (generation : Nat) : Heap :=
  ⟨#[⟨generation, false, some #[]⟩], .empty, 1, threshold, threshold, collects, .willing⟩

theorem clear_singleFull {threshold generation : Nat} {collects : Bool}
    (hlt : generation < Handle.maxGeneration) :
    (singleFull threshold collects generation).clear =
      single threshold collects (generation + 1) := by
  simp [clear, singleFull, single, indices, Slot.isLive, Slot.release, Slot.reusable, hlt]

/-- Each round uses up one generation. -/
theorem churn_empty (threshold : Nat) (collects : Bool) {n : Nat}
    (hlt : n < Handle.maxGeneration) :
    (empty threshold collects).churn (n + 1) = single threshold collects (n + 1) := by
  induction n with
  | zero =>
    have halloc : left (Heap.alloc 0 ((empty threshold collects).churn 0)) =
        singleFull threshold collects 0 := rfl
    rw [churn_succ, halloc, clear_singleFull hlt]
  | succ n ih =>
    have halloc : left (Heap.alloc 0 (single threshold collects (n + 1))) =
        singleFull threshold collects (n + 1) := rfl
    rw [churn_succ, ih (by omega), halloc, clear_singleFull hlt]

/-- After 524287 rounds the only slot waits for its last array. A collection leaves it in the queue,
    but clearing retires it, and the handle of its last generation has not been given out. -/
theorem clear_drops_last_generation :
    0 ∈ (((empty 1048576 true).replay (rounds 524287)).collect []).2.free.toList ∧
      Retired ((empty 1048576 true).replay (rounds 524287 ++ [.clear])) 0 ∧
      .ofHandle (lastHandle 0) ∉ (empty 1048576 true).issued (rounds 524287 ++ [.clear]) := by
  have hsingle : (empty 1048576 true).replay (rounds 524287) = single 1048576 true 524287 :=
    churn_empty 1048576 true (by decide)
  have hwaits : AwaitsLast ((empty 1048576 true).replay (rounds 524287)) 0 := by
    rw [hsingle]
    exact ⟨by simp [single], _, rfl, rfl⟩
  refine ⟨?_, Dropped.lost (valid_empty 1048576 true .willing) ⟨_, [], rfl, hwaits⟩⟩
  rw [free_collect]
  exact List.mem_append_left _ hwaits.1

end StackMachine.Heap
