import StackMachine.Proofs.Heap.Changes
import StackMachine.Proofs.Paired
import StackMachine.Proofs.Pointwise

/-!
# Heaps up to the names of arrays

Two heaps that hold the same arrays in different slots are `Matched` by a relation between their
handles: it is one to one, the handles it relates resolve, and the arrays have the same words,
again up to the names of arrays. The first heap is one that never collects, so that its arrays
stay; in the second one slots are freed and used again.

* `Matched.alloc`: allocation relates one more pair of handles.
* `Matched.collect`: a collection of the second heap leaves the arrays that can be reached there
  related.
-/

namespace StackMachine

open Heap

/-- Two words are the same, or they hold handles that `β` relates. -/
inductive Related (β : Handle → Handle → Prop) : Word → Word → Prop
  | plain {w} (hw : w.handle? = none) : Related β w w
  | handle {v w a b} (hv : v.handle? = some a) (hw : w.handle? = some b) (hab : β a b) :
      Related β v w

namespace Related

variable {β γ : Handle → Handle → Prop} {v w : Word}

theorem mono (hsub : ∀ a b, β a b → γ a b) (h : Related β v w) : Related γ v w := by
  cases h with
  | plain hw => exact .plain hw
  | handle hv hw hab => exact .handle hv hw (hsub _ _ hab)

/-- A word that is not a handle has only itself as counterpart. -/
theorem eq_of_plain (h : Related β v w) (hv : v.handle? = none) : w = v := by
  cases h with
  | plain hw => rfl
  | handle hv' hw hab =>
    rw [hv] at hv'
    cases hv'

theorem zero : Related β .zero .zero := .plain (by decide)

theorem isZero_eq (h : Related β v w) : v.isZero = w.isZero := by
  have hne : ∀ u : Word, ∀ a, u.handle? = some a → u.isZero = false := by
    intro u a hu
    by_contra hz
    have hzero : u = .zero := by
      rw [Bool.not_eq_false, Word.isZero, beq_iff_eq] at hz
      obtain ⟨bits⟩ := u
      exact congrArg Word.mk hz
    subst hzero
    rw [show Word.zero.handle? = none by decide] at hu
    cases hu
  cases h with
  | plain hw => rfl
  | handle hv hw hab => rw [hne v _ hv, hne w _ hw]

end Related

namespace Heap

/-- A heap that has never freed an array and never will. -/
structure Growing (h : Heap) : Prop where
  collects : h.collects = false
  free : h.free.toList = []
  arrays : ∀ (i : Nat) (s : Slot), h.slots[i]? = some s →
    ∃ xs, s.contents = some xs ∧ xs.size < lengthBound

/-- The handles that `β` relates name arrays that are equal up to the names of arrays. Both heaps
    have the same allocator. -/
structure Matched (β : Handle → Handle → Prop) (h h' : Heap) : Prop where
  unique : ∀ {a b c d}, β a b → β c d → (a = c ↔ b = d)
  arrays : ∀ {a b}, β a b → ∃ xs ys, h.resolve? a = some xs ∧ h'.resolve? b = some ys ∧
    Pointwise (Related β) xs ys
  growing : h.Growing
  valid : h.Valid
  valid' : h'.Valid
  allocator : h'.allocator = h.allocator
  size : h'.slots.size ≤ h.slots.size

variable {β : Handle → Handle → Prop} {h h' h₁ : Heap} {a b : Handle}

/-! ## Handles that resolve -/

theorem resolve?_eq_some {xs : Array Word} :
    h.resolve? a = some xs ↔
      ∃ s, h.slots[a.index]? = some s ∧ s.generation = a.generation ∧ s.contents = some xs := by
  unfold resolve?
  cases hs : h.slots[a.index]? with
  | none => simp
  | some s =>
    by_cases hg : s.generation = a.generation <;> simp [hg]

/-- Two handles of one slot that both resolve are the same. -/
theorem eq_of_resolve? {xs ys : Array Word} (ha : h.resolve? a = some xs)
    (hb : h.resolve? b = some ys) (hi : a.index = b.index) : a = b := by
  obtain ⟨s, hs, hg, -⟩ := resolve?_eq_some.1 ha
  obtain ⟨t, ht, hg', -⟩ := resolve?_eq_some.1 hb
  rw [hi] at hs
  obtain rfl := Option.some.inj (hs.symm.trans ht)
  obtain ⟨i, g⟩ := a
  obtain ⟨j, g'⟩ := b
  simp only at hi hg hg'
  rw [hi, ← hg, ← hg']

theorem resolve?_put (i k : Nat) (w : Word) :
    (h.put i k w).resolve? a =
      (h.resolve? a).map fun xs => if i = a.index then xs.setIfInBounds k w else xs := by
  unfold resolve?
  rw [getElem?_put]
  cases hs : h.slots[a.index]? with
  | none => rfl
  | some s =>
    by_cases hg : s.generation = a.generation <;> by_cases hi : i = a.index <;> simp [hg, hi]

namespace Placed

variable {array : Array Word} (hp : Placed array a h h₁)
include hp

theorem resolve?_new : h₁.resolve? a = some array :=
  resolve?_eq_some.2 ⟨_, by rw [hp.slots, if_pos rfl], rfl, rfl⟩

/-- The slot of the new array held none before. -/
theorem index_ne {xs : Array Word} (hb : h.resolve? b = some xs) : b.index ≠ a.index := by
  intro hi
  obtain ⟨s, hs, -, hc⟩ := resolve?_eq_some.1 hb
  rw [hi] at hs
  rcases hp.vacancy with ⟨ht, -⟩ | ⟨rfl, -⟩
  · obtain rfl := Option.some.inj (hs.symm.trans ht)
    cases hc
  · simp at hs

theorem resolve?_old {xs : Array Word} (hb : h.resolve? b = some xs) :
    h₁.resolve? b = some xs := by
  obtain ⟨s, hs, hg, hc⟩ := resolve?_eq_some.1 hb
  exact resolve?_eq_some.2 ⟨s, by rw [hp.slots, if_neg (hp.index_ne hb), hs], hg, hc⟩

end Placed

namespace Growing

theorem count_eq (hg : h.Growing) : h.count = h.slots.size := by
  rw [count, Array.countP_eq_size]
  intro s hs
  obtain ⟨i, hi⟩ := Array.getElem?_of_mem hs
  obtain ⟨xs, hxs, -⟩ := hg.arrays i s hi
  rw [Slot.isLive, hxs]
  rfl

theorem due_eq (hg : h.Growing) : h.due = false := by
  rw [due, hg.collects, Bool.false_and]

end Growing

/-! ## Access -/

theorem Matched.get {v w : Word} (hm : Matched β h h') (hvw : Related β v w) :
    Lookups (Pointwise (Related β)) (h.get v) (h'.get w) := by
  unfold Heap.get
  cases hvw with
  | plain hw =>
    simp only [hw]
    exact .missing _
  | handle hv hw hab =>
    obtain ⟨xs, ys, hx, hy, hxy⟩ := hm.arrays hab
    simp only [hv, hw, hx, hy]
    exact .found hxy

/-- The same element of arrays that are related. -/
theorem Matched.load {v w : Word} (hm : Matched β h h') (hvw : Related β v w) (index : Word) :
    Lookups (Related β) (h.load v index) (h'.load w index) := by
  unfold Heap.load
  obtain ⟨xs, ys, hv, hw, hxy⟩ | ⟨e, hv, hw⟩ := (hm.get hvw).cases
  · rw [hv, hw]
    simp only [hxy.size_eq]
    cases position index ys.size with
    | error e => exact .missing e
    | ok i =>
      refine .found ?_
      rw [Array.getD_eq_getD_getElem?, Array.getD_eq_getD_getElem?]
      cases hi : xs[i]? with
      | none =>
        rw [hxy.get_none hi]
        exact .zero
      | some x =>
        obtain ⟨y, hi', hrelated⟩ := hxy.get hi
        rw [hi']
        exact hrelated
  · rw [hv, hw]
    exact .missing e

theorem Matched.length {v w : Word} (hm : Matched β h h') (hvw : Related β v w) :
    h.length v = h'.length w := by
  unfold Heap.length
  obtain ⟨xs, ys, hv, hw, hxy⟩ | ⟨e, hv, hw⟩ := (hm.get hvw).cases
  · rw [hv, hw]
    exact congrArg Except.ok hxy.size_eq
  · rw [hv, hw]

/-- The length of an array is bounded. -/
theorem Growing.length_lt {v : Word} {n : Nat} (hg : h.Growing) (hn : h.length v = .ok n) :
    n < lengthBound := by
  unfold Heap.length Heap.get at hn
  cases hv : v.handle? with
  | none => simp [hv] at hn
  | some a =>
    cases ha : h.resolve? a with
    | none => simp [hv, ha] at hn
    | some xs =>
      obtain ⟨s, hs, -, hc⟩ := resolve?_eq_some.1 ha
      obtain ⟨ys, hys, hshort⟩ := hg.arrays _ s hs
      obtain rfl := Option.some.inj (hc.symm.trans hys)
      simp only [hv, ha, Except.ok.injEq] at hn
      omega

/-- Writing related words to the same position of related arrays. -/
theorem Matched.put {x y : Word} (hm : Matched β h h') (hab : β a b) (k : Nat)
    (hxy : Related β x y) : Matched β (h.put a.index k x) (h'.put b.index k y) where
  unique := hm.unique
  arrays := by
    intro c d hcd
    obtain ⟨xs, ys, hx, hy, hxs⟩ := hm.arrays hcd
    obtain ⟨as, bs, ha, hb, -⟩ := hm.arrays hab
    rw [resolve?_put, resolve?_put, hx, hy]
    refine ⟨_, _, rfl, rfl, ?_⟩
    -- related handles share their slot with `a` on one side if and only if on the other
    have hiff : a.index = c.index ↔ b.index = d.index := by
      constructor
      · intro hi
        rw [(hm.unique hab hcd).1 (eq_of_resolve? ha hx hi)]
      · intro hi
        rw [(hm.unique hab hcd).2 (eq_of_resolve? hb hy hi)]
    dsimp only
    by_cases hi : a.index = c.index
    · rw [if_pos hi, if_pos (hiff.1 hi)]
      exact hxs.setIfInBounds hxy k
    · rw [if_neg hi, if_neg (fun hj => hi (hiff.2 hj))]
      exact hxs
  growing := by
    refine ⟨hm.growing.collects, hm.growing.free, fun i s hs => ?_⟩
    rw [getElem?_put] at hs
    obtain ⟨t, ht, rfl⟩ := Option.map_eq_some_iff.1 hs
    obtain ⟨xs, hxs, hshort⟩ := hm.growing.arrays i t ht
    split_ifs
    · exact ⟨xs.setIfInBounds k x, by simp [hxs], by simpa using hshort⟩
    · exact ⟨xs, hxs, hshort⟩
  valid := hm.valid.put _ _ _
  valid' := hm.valid'.put _ _ _
  allocator := hm.allocator
  size := by simpa [Heap.put] using hm.size

theorem Matched.store {v w x y : Word} (hm : Matched β h h') (hvw : Related β v w) (index : Word)
    (hxy : Related β x y) :
    Paired (fun _ _ => Matched β) (Matched β) (Heap.store v index x h)
      (Heap.store w index y h') := by
  unfold Heap.store locate
  cases hvw with
  | plain hw =>
    simp only [hw]
    exact ⟨rfl, hm⟩
  | handle hv hw hab =>
    obtain ⟨xs, ys, hx, hy, hxs⟩ := hm.arrays hab
    simp only [hv, hw, hx, hy, hxs.size_eq]
    cases position index ys.size with
    | error e => exact ⟨rfl, hm⟩
    | ok k => exact hm.put hab k hxy

/-! ## Allocation -/

/-- One more pair of handles. -/
def extend (β : Handle → Handle → Prop) (a b c d : Handle) : Prop := β c d ∨ c = a ∧ d = b

theorem Growing.placed {array : Array Word} (hg : h.Growing) (hp : Placed array a h h₁)
    (hshort : array.size < lengthBound) : h₁.Growing ∧ h₁.slots.size = h.slots.size + 1 := by
  rcases hp.vacancy with ⟨-, hfree, -⟩ | ⟨-, -, hfree, hsize⟩
  · rw [hg.free] at hfree
    cases hfree
  · refine ⟨⟨hp.collects.trans hg.collects, hfree, fun i s hs => ?_⟩, hsize⟩
    rw [hp.slots] at hs
    split_ifs at hs
    · cases hs
      exact ⟨array, rfl, hshort⟩
    · exact hg.arrays i s hs

/-- Arrays that are related are placed in both heaps. -/
theorem Matched.placed {h₁' : Heap} {xs ys : Array Word} (hm : Matched β h h')
    (hp : Placed xs a h h₁) (hp' : Placed ys b h' h₁') (hxy : Pointwise (Related β) xs ys)
    (hshort : xs.size < lengthBound) : Matched (extend β a b) h₁ h₁' := by
  have hsub : ∀ c d, β c d → extend β a b c d := fun _ _ hcd => .inl hcd
  have hfresh : ∀ {c d}, β c d → c ≠ a ∧ d ≠ b := by
    intro c d hcd
    obtain ⟨us, vs, hu, hv, -⟩ := hm.arrays hcd
    exact ⟨fun he => hp.index_ne hu (congrArg _ he), fun he => hp'.index_ne hv (congrArg _ he)⟩
  obtain ⟨hgrowing, hsize⟩ := hm.growing.placed hp hshort
  exact {
    unique := by
      rintro c d e f (hcd | ⟨rfl, rfl⟩) (hef | ⟨rfl, rfl⟩)
      · exact hm.unique hcd hef
      · exact iff_of_false (hfresh hcd).1 (hfresh hcd).2
      · exact iff_of_false (hfresh hef).1.symm (hfresh hef).2.symm
      · exact iff_of_true rfl rfl
    arrays := by
      rintro c d (hcd | ⟨rfl, rfl⟩)
      · obtain ⟨us, vs, hu, hv, huv⟩ := hm.arrays hcd
        exact ⟨us, vs, hp.resolve?_old hu, hp'.resolve?_old hv,
          huv.mono fun _ _ _ _ h => h.mono hsub⟩
      · exact ⟨xs, ys, hp.resolve?_new, hp'.resolve?_new, hxy.mono fun _ _ _ _ h => h.mono hsub⟩
    growing := hgrowing
    valid := hp.valid hm.valid
    valid' := hp'.valid hm.valid'
    allocator := hp'.allocator.trans (hm.allocator.trans hp.allocator.symm)
    size := by
      have := hm.size
      rcases hp'.vacancy with ⟨-, -, hsize'⟩ | ⟨-, -, -, hsize'⟩ <;> omega }

theorem Matched.grants (hm : Matched β h h') (n : Nat) : h'.grants n = h.grants n := by
  rw [Heap.grants, Heap.grants, hm.allocator]

/-- Both heaps have room for an array, or there is no memory for its length. -/
theorem Matched.alloc (hm : Matched β h h') (length : Int64) (hroom : h.slots.size < slotBound) :
    Paired (fun v w g g' => ∃ γ, (∀ a b, β a b → γ a b) ∧ Related γ v w ∧ Matched γ g g')
      (Matched β) (Heap.alloc length h) (Heap.alloc length h') := by
  unfold Heap.alloc
  dsimp only
  rw [hm.grants]
  split_ifs with hneg hgrants
  · exact ⟨rfl, hm⟩
  · exact ⟨rfl, hm⟩
  · have hlength := lt_of_grants (by simpa using hgrants)
    have hsize := hm.size
    obtain ⟨a, g, he, hp⟩ | ⟨hfull, -⟩ := hm.valid.place length.toInt
      (Array.replicate length.toInt.toNat .zero)
    · obtain ⟨b, g', he', hp'⟩ | ⟨hfull, -⟩ := hm.valid'.place length.toInt
        (Array.replicate length.toInt.toNat .zero)
      · rw [he, he']
        have hnew : Related (extend β a b) (.ofHandle a) (.ofHandle b) :=
          .handle (Word.handle?_ofHandle hp.fits) (Word.handle?_ofHandle hp'.fits) (.inr ⟨rfl, rfl⟩)
        exact ⟨extend β a b, fun _ _ => .inl, hnew,
          hm.placed hp hp' (.replicate _ .zero) (by simpa using hlength)⟩
      · omega
    · omega

/-! ## Collection -/

/-- A collection of the second heap keeps what its roots reach. -/
theorem Matched.collect (hm : Matched β h h') (roots : List Word) :
    ∃ γ, Matched γ h (h'.collect roots).2 ∧
      ∀ v w, w ∈ roots → Related β v w → Related γ v w := by
  have hr := hm.valid'.collect roots
  have hnames : ∀ {a b w}, β a b → w.handle? = some b → Names h'.slots w b.index := by
    intro a b w hab hw
    obtain ⟨-, ys, -, hy, -⟩ := hm.arrays hab
    obtain ⟨s, hs, hg, -⟩ := resolve?_eq_some.1 hy
    exact ⟨s, hs, by rw [hw, hg]⟩
  refine ⟨fun a b => β a b ∧ Reachable h'.slots (· ∈ roots) b.index, ?_, ?_⟩
  · exact {
      unique := fun hab hcd => hm.unique hab.1 hcd.1
      arrays := by
        rintro a b ⟨hab, hreach⟩
        obtain ⟨xs, ys, hx, hy, hxy⟩ := hm.arrays hab
        obtain ⟨s, hs, hg, hc⟩ := resolve?_eq_some.1 hy
        have hs' := hr.kept _ s hs fun _ => not_not.2 hreach
        refine ⟨xs, ys, hx, resolve?_eq_some.2 ⟨s, hs', hg, hc⟩, hxy.mono ?_⟩
        intro x _ y hmem hrelated
        cases hrelated with
        | plain hw => exact .plain hw
        | handle hv hw hcd =>
          exact .handle hv hw ⟨hcd, .element hreach (arrayAt?_eq_some.2 ⟨s, hs, hc⟩) hmem
            (hnames hcd hw)⟩
      growing := hm.growing
      valid := hm.valid
      valid' := hr.valid hm.valid'
      allocator := hm.allocator
      size := hr.size.trans_le hm.size }
  · intro v w hmem hvw
    cases hvw with
    | plain hw => exact .plain hw
    | handle hv hw hab => exact .handle hv hw ⟨hab, .root hmem (hnames hab hw)⟩

end Heap

end StackMachine
