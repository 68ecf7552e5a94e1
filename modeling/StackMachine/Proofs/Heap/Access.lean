import StackMachine.Proofs.Heap.Accounts
import StackMachine.Proofs.Heap.Freshness
import StackMachine.Proofs.Heap.Renaming

/-!
# The laws of array memory

Seen from outside a heap is a memory with an address for each element: the word that names the array
and the index word. Different addresses are different places. The array of a word is the only one in
its slot, and an index that is not negative is told by its position; so a write is seen at its own
address and nowhere else, and a new array is seen under its own word only.

* `load_store`, `Valid.get_alloc`: what is read after a write, and what words name after an
  allocation.
* `locate_eq_error_iff`: writing fails where reading does.
* `laws_replay`: the laws hold of every heap that operations lead to.
-/

namespace StackMachine.Heap

variable {h h' : Heap} {a b i j v w : Word} {e : Fault} {xs : Array Word} {n : Nat}

/-! ## Places -/

theorem get_eq_ok_iff :
    h.get w = .ok xs ↔ ∃ handle, w.handle? = some handle ∧ h.resolve? handle = some xs := by
  unfold get
  cases hw : w.handle? with
  | none => simp
  | some handle => cases hr : h.resolve? handle <;> simp [hr]

/-- What a word names is told by what its handle resolves to. -/
theorem get_congr
    (hr : ∀ handle, w.handle? = some handle → h'.resolve? handle = h.resolve? handle) :
    h'.get w = h.get w := by
  unfold get
  cases hw : w.handle? with
  | none => rfl
  | some handle => simp only [hr handle hw]

theorem isLive_iff_get : h.isLive w = true ↔ ∃ xs, h.get w = .ok xs := by
  unfold isLive
  cases h.get w <;> simp [Except.toBool]

theorem position_eq_ok_iff {k : Nat} : position i n = .ok k ↔ i.toInt.toInt = k ∧ k < n := by
  unfold position
  dsimp only
  split_ifs with hi
  · rw [Except.ok.injEq]
    omega
  · simp only [false_iff]
    omega

/-- Different index words stand for different positions. -/
theorem eq_of_position {k n' : Nat} (hi : position i n = .ok k) (hj : position j n' = .ok k) :
    j = i := by
  have hint : j.toInt = i.toInt :=
    Int64.toInt_inj.1 ((position_eq_ok_iff.1 hj).1.trans (position_eq_ok_iff.1 hi).1.symm)
  obtain ⟨i⟩ := i
  obtain ⟨j⟩ := j
  have hbits := congrArg Int64.toUInt64 hint
  simp only [Word.toInt, UInt64.toUInt64_toInt64] at hbits
  exact congrArg Word.mk hbits

/-! ## Writing -/

/-- An element cannot be written just when it cannot be read, for the same reason. -/
theorem locate_eq_error_iff : h.locate a i = .error e ↔ h.load a i = .error e := by
  unfold locate load get
  cases a.handle? with
  | none => simp
  | some handle =>
    cases hr : h.resolve? handle with
    | none => simp [hr]
    | some xs => cases hp : position i xs.size <;> simp [hr, hp, Except.map]

theorem locate_eq_ok_iff {slot k : Nat} :
    h.locate a i = .ok (slot, k) ↔ ∃ handle xs, a.handle? = some handle ∧
      h.resolve? handle = some xs ∧ slot = handle.index ∧ position i xs.size = .ok k := by
  unfold locate
  cases a.handle? with
  | none => simp
  | some handle =>
    cases hr : h.resolve? handle with
    | none => simp [hr]
    | some xs =>
      cases hp : position i xs.size <;> simp [Except.map, hr, hp, eq_comm]

/-- What a write does: it names an array and a position in it, and puts the word there. -/
theorem store_eq_ok_iff :
    Heap.store a i v h = .ok () h' ↔ ∃ handle xs k, a.handle? = some handle ∧
      h.resolve? handle = some xs ∧ position i xs.size = .ok k ∧ h' = h.put handle.index k v := by
  unfold Heap.store
  constructor
  · intro hstore
    cases hl : h.locate a i with
    | error e =>
      rw [hl] at hstore
      cases hstore
    | ok place =>
      obtain ⟨slot, k⟩ := place
      obtain ⟨handle, xs, ha, hr, rfl, hk⟩ := locate_eq_ok_iff.1 hl
      rw [hl] at hstore
      obtain ⟨-, rfl⟩ := EStateM.Result.ok.inj hstore
      exact ⟨handle, xs, k, ha, hr, hk, rfl⟩
  · rintro ⟨handle, xs, k, ha, hr, hk, rfl⟩
    rw [locate_eq_ok_iff.2 ⟨handle, xs, ha, hr, rfl, hk⟩]

theorem store_eq_error_iff :
    Heap.store a i v h = .error e h' ↔ h.load a i = .error e ∧ h' = h := by
  rw [← locate_eq_error_iff]
  unfold Heap.store
  cases h.locate a i <;> simp [eq_comm]

/-- The array that is written to has the word at its position, and every other word names what it
    named. -/
theorem get_put {handle : Handle} (ha : a.handle? = some handle) (hr : h.resolve? handle = some xs)
    (k : Nat) (v b : Word) :
    (h.put handle.index k v).get b =
      if b = a then .ok (xs.setIfInBounds k v) else h.get b := by
  by_cases hb : b = a
  · subst hb
    rw [if_pos rfl, get_eq_ok_iff]
    exact ⟨handle, ha, by rw [resolve?_put, hr, Option.map_some, if_pos rfl]⟩
  · rw [if_neg hb]
    apply get_congr
    intro other hb'
    rw [resolve?_put]
    cases hr' : h.resolve? other with
    | none => rfl
    | some ys =>
      -- a word whose array were in the slot that is written would be the same word
      have hne : handle.index ≠ other.index := by
        intro hi
        rw [← eq_of_resolve? hr hr' hi] at hb'
        exact hb (Word.eq_of_handle? hb' ha)
      rw [Option.map_some, if_neg hne]

/-- A write is seen at its own address and at no other. -/
theorem load_store (hs : Heap.store a i v h = .ok () h') (b j : Word) :
    h'.load b j = if b = a ∧ j = i then .ok v else h.load b j := by
  obtain ⟨handle, xs, k, ha, hr, hk, rfl⟩ := store_eq_ok_iff.1 hs
  have hget : h.get a = .ok xs := get_eq_ok_iff.2 ⟨handle, ha, hr⟩
  have hlt : k < xs.size := (position_eq_ok_iff.1 hk).2
  unfold load
  rw [get_put ha hr]
  by_cases hb : b = a
  · subst hb
    simp only [if_pos, true_and, Array.size_setIfInBounds, hget]
    by_cases hj : j = i
    · subst hj
      simp [hk, hlt]
    · rw [if_neg hj]
      cases hj' : position j xs.size with
      | error e => rfl
      | ok k' =>
        have hne : k ≠ k' := by
          rintro rfl
          exact hj (eq_of_position hk hj')
        simp [Array.getD_eq_getD_getElem?, hne]
  · simp only [hb, if_false, false_and]

theorem count_put (h : Heap) (slot k : Nat) (v : Word) : (h.put slot k v).count = h.count := by
  have hlive : (h.put slot k v).slots.map Slot.isLive = h.slots.map Slot.isLive := by
    apply Array.ext_getElem?
    intro i
    rw [Array.getElem?_map, Array.getElem?_map, getElem?_put, Option.map_map]
    congr 1
    funext s
    by_cases hi : slot = i <;> simp [hi, Slot.isLive]
  have hcount : ∀ h : Heap, h.count = (h.slots.map Slot.isLive).countP id := by
    intro h
    rw [Array.countP_map]
    rfl
  rw [hcount, hcount, hlive]

/-- The same words name arrays, with the same lengths, and the accounts are the same. -/
structure SameShape (h h' : Heap) : Prop where
  length : ∀ w, h'.length w = h.length w
  isLive : ∀ w, h'.isLive w = h.isLive w
  free : h'.free = h.free
  words : h'.words = h.words
  threshold : h'.threshold = h.threshold
  initialThreshold : h'.initialThreshold = h.initialThreshold
  collects : h'.collects = h.collects
  count : h'.count = h.count
  liveWords : h'.liveWords = h.liveWords

theorem sameShape_of_store (hs : Heap.store a i v h = .ok () h') : SameShape h h' := by
  obtain ⟨handle, xs, k, ha, hr, -, rfl⟩ := store_eq_ok_iff.1 hs
  have hget : h.get a = .ok xs := get_eq_ok_iff.2 ⟨handle, ha, hr⟩
  refine ⟨?_, ?_, rfl, rfl, rfl, rfl, rfl, count_put h _ _ v, ?_⟩
  · intro w
    unfold length
    rw [get_put ha hr]
    by_cases hw : w = a
    · simp [hw, hget]
    · rw [if_neg hw]
  · intro w
    unfold isLive
    rw [get_put ha hr]
    by_cases hw : w = a
    · simp [hw, hget, Except.toBool]
    · rw [if_neg hw]
  · rw [liveWords_eq, liveWords_eq, footprint_put]

/-! ## Allocation -/

/-- A placed array is what its handle resolves to, and other handles resolve as they did. -/
theorem Placed.resolve?_eq {handle : Handle} (hp : Placed xs handle h h') (other : Handle) :
    h'.resolve? other = if other = handle then some xs else h.resolve? other := by
  by_cases hne : other = handle
  · rw [if_pos hne, hne, hp.resolve?_new]
  rw [if_neg hne]
  cases hr : h.resolve? other with
  | some ys => exact hp.resolve?_old hr
  | none =>
    rw [Option.eq_none_iff_forall_ne_some]
    intro ys hys
    obtain ⟨s, hs, hg, hc⟩ := resolve?_eq_some.1 hys
    rw [hp.slots] at hs
    split_ifs at hs with hi
    · -- the slot of the new array holds no other one
      exact hne (eq_of_resolve? hys hp.resolve?_new hi)
    · rw [resolve?_eq_some.2 ⟨s, hs, hg, hc⟩] at hr
      cases hr

/-- What an allocation does: its word named no array before, names the zeros now, and every other
    word names what it named. -/
theorem Valid.get_alloc (hv : h.Valid) {length : Int64} (ha : Heap.alloc length h = .ok w h') :
    h.isLive w = false ∧
      ∀ b, h'.get b =
        if b = w then .ok (Array.replicate length.toInt.toNat .zero) else h.get b := by
  obtain ⟨handle, h₁, he, hp⟩ | ⟨e, words, he⟩ := hv.alloc length
  · rw [he] at ha
    obtain ⟨rfl, rfl⟩ := EStateM.Result.ok.inj ha
    have hw := Word.handle?_ofHandle hp.fits
    refine ⟨?_, fun b => ?_⟩
    · rw [Bool.eq_false_iff, Ne, isLive_iff hw]
      exact hp.fresh.1
    by_cases hb : b = .ofHandle handle
    · rw [if_pos hb, hb, get_eq_ok_iff]
      exact ⟨handle, hw, hp.resolve?_new⟩
    · rw [if_neg hb]
      apply get_congr
      intro other hb'
      have hne : other ≠ handle := by
        rintro rfl
        exact hb (Word.eq_of_handle? hb' hw)
      rw [hp.resolve?_eq, if_neg hne]
  · rw [he] at ha
    cases ha

/-! ## The laws -/

/-- The laws of array memory.

    * Two words name the array of the same slot just when they are one word that names an array.
    * After a write, reading gives the word at this address and at any other what it gave before;
      the lengths, what is live, the queue and the accounts stay.
    * An element can be written just when it can be read. Otherwise both fail with one fault, and
      the heap stays as it is.
    * The word that an allocation gives named no array before and names one of zeros after it. Every
      other word names what it named. -/
structure ArrayLaws (h : Heap) : Prop where
  aliases : ∀ a b : Word,
    (∃ x y, a.handle? = some x ∧ b.handle? = some y ∧ (h.resolve? x).isSome ∧
      (h.resolve? y).isSome ∧ x.index = y.index) ↔ a = b ∧ h.isLive a = true
  stored : ∀ (a i v : Word) (h' : Heap), Heap.store a i v h = .ok () h' →
    (∀ b j, h'.load b j = if b = a ∧ j = i then .ok v else h.load b j) ∧ SameShape h h'
  succeeds : ∀ a i v : Word, (∃ h', Heap.store a i v h = .ok () h') ↔ ∃ w, h.load a i = .ok w
  fails : ∀ (a i v : Word) (e : Fault) (h' : Heap),
    Heap.store a i v h = .error e h' ↔ h.load a i = .error e ∧ h' = h
  allocated : ∀ (length : Int64) (w : Word) (h' : Heap), Heap.alloc length h = .ok w h' →
    h.isLive w = false ∧ h'.get w = .ok (Array.replicate length.toInt.toNat .zero) ∧
      ∀ b, b ≠ w → h'.get b = h.get b ∧ ∀ j, h'.load b j = h.load b j

theorem aliases_iff (h : Heap) (a b : Word) :
    (∃ x y, a.handle? = some x ∧ b.handle? = some y ∧ (h.resolve? x).isSome ∧
      (h.resolve? y).isSome ∧ x.index = y.index) ↔ a = b ∧ h.isLive a = true := by
  rw [isLive_iff_get]
  constructor
  · rintro ⟨x, y, ha, hb, hx, hy, hindex⟩
    obtain ⟨xs, hx⟩ := Option.isSome_iff_exists.1 hx
    obtain ⟨ys, hy⟩ := Option.isSome_iff_exists.1 hy
    obtain rfl := eq_of_resolve? hx hy hindex
    exact ⟨Word.eq_of_handle? ha hb, xs, get_eq_ok_iff.2 ⟨x, ha, hx⟩⟩
  · rintro ⟨rfl, xs, hget⟩
    obtain ⟨x, ha, hx⟩ := get_eq_ok_iff.1 hget
    have hsome := Option.isSome_iff_exists.2 ⟨xs, hx⟩
    exact ⟨x, x, ha, ha, hsome, hsome, rfl⟩

theorem exists_store_iff (h : Heap) (a i v : Word) :
    (∃ h', Heap.store a i v h = .ok () h') ↔ ∃ w, h.load a i = .ok w := by
  cases hl : h.load a i with
  | error e =>
    rw [store_eq_error_iff.2 ⟨hl, rfl⟩]
    simp
  | ok w =>
    obtain ⟨slot, k, he⟩ | ⟨e, he⟩ := h.store_cases a i v
    · exact ⟨fun _ => ⟨w, rfl⟩, fun _ => ⟨_, he⟩⟩
    · have hfail := (store_eq_error_iff.1 he).1
      rw [hl] at hfail
      cases hfail

/-- **The laws of array memory hold of every heap that operations lead to.** -/
theorem laws_replay (threshold : Nat) (collects : Bool) (allocator : Allocator)
    (ops : List Operation) :
    ArrayLaws ((empty threshold collects allocator).replay ops) := by
  have hv := (valid_empty threshold collects allocator).replay ops
  generalize (empty threshold collects allocator).replay ops = h at hv
  refine ⟨h.aliases_iff, ?_, h.exists_store_iff, ?_, ?_⟩
  · intro a i v h' hs
    exact ⟨load_store hs, sameShape_of_store hs⟩
  · intro a i v e h'
    exact store_eq_error_iff
  · intro length w h' ha
    obtain ⟨hnew, hget⟩ := hv.get_alloc ha
    refine ⟨hnew, by rw [hget, if_pos rfl], fun b hb => ?_⟩
    have hsame : h'.get b = h.get b := by rw [hget, if_neg hb]
    refine ⟨hsame, fun j => ?_⟩
    unfold load
    rw [hsame]

end StackMachine.Heap
