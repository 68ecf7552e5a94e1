import Mathlib

/-!
# Arrays that are related element by element

`Pointwise R xs ys` relates the elements of two arrays of one size by `R`. The operations on the
stacks, the globals and the arrays of the heap keep it.
-/

namespace StackMachine

variable {α β : Type}

/-- The arrays have the same size, and `R` relates their elements. -/
def Pointwise (R : α → β → Prop) (xs : Array α) (ys : Array β) : Prop :=
  ∀ i : Nat, Option.Rel R xs[i]? ys[i]?

theorem pointwise_toArray {R : α → β → Prop} {xs : List α} {ys : List β}
    (h : List.Forall₂ R xs ys) : Pointwise R xs.toArray ys.toArray := by
  intro i
  rw [List.getElem?_toArray, List.getElem?_toArray]
  induction h generalizing i with
  | nil => exact .none
  | cons h hs ih =>
    cases i with
    | zero => exact .some h
    | succ i => exact ih i

namespace Pointwise

variable {R : α → β → Prop} {xs : Array α} {ys : Array β}

theorem empty : Pointwise R #[] #[] := fun _ => .none

theorem replicate {a : α} {b : β} (n : Nat) (h : R a b) :
    Pointwise R (Array.replicate n a) (Array.replicate n b) := by
  intro i
  rw [Array.getElem?_replicate, Array.getElem?_replicate]
  split_ifs
  · exact .some h
  · exact .none

theorem get (h : Pointwise R xs ys) {i : Nat} {a : α} (ha : xs[i]? = some a) :
    ∃ b, ys[i]? = some b ∧ R a b := by
  have hi := h i
  rw [ha] at hi
  generalize ys[i]? = y at hi
  cases hi with
  | some hab => exact ⟨_, rfl, hab⟩

theorem get_none (h : Pointwise R xs ys) {i : Nat} (ha : xs[i]? = none) : ys[i]? = none := by
  have hi := h i
  rw [ha] at hi
  generalize ys[i]? = y at hi
  cases hi with
  | none => rfl

theorem mono {S : α → β → Prop} (h : Pointwise R xs ys) (hs : ∀ a ∈ xs, ∀ b ∈ ys, R a b → S a b) :
    Pointwise S xs ys := by
  intro i
  cases hx : xs[i]? with
  | none =>
    rw [h.get_none hx]
    exact .none
  | some a =>
    obtain ⟨b, hb, hab⟩ := h.get hx
    rw [hb]
    exact .some (hs a (Array.mem_of_getElem? hx) b (Array.mem_of_getElem? hb) hab)

theorem size_eq (h : Pointwise R xs ys) : xs.size = ys.size := by
  rcases Nat.lt_trichotomy xs.size ys.size with hlt | heq | hgt
  · have hy := h.get_none (Array.getElem?_eq_none (le_refl xs.size))
    rw [Array.getElem?_eq_none_iff] at hy
    omega
  · exact heq
  · obtain ⟨b, hb, -⟩ := h.get (Array.getElem?_eq_getElem hgt)
    rw [Array.getElem?_eq_none le_rfl] at hb
    cases hb

/-- Every element has a counterpart. -/
theorem exists_right (h : Pointwise R xs ys) {a : α} (ha : a ∈ xs) : ∃ b ∈ ys, R a b := by
  obtain ⟨i, hi⟩ := Array.getElem?_of_mem ha
  obtain ⟨b, hb, hab⟩ := h.get hi
  exact ⟨b, Array.mem_of_getElem? hb, hab⟩

theorem push {a : α} {b : β} (h : Pointwise R xs ys) (hab : R a b) :
    Pointwise R (xs.push a) (ys.push b) := by
  intro i
  rw [Array.getElem?_push, Array.getElem?_push, h.size_eq]
  split_ifs
  · exact .some hab
  · exact h i

theorem pop (h : Pointwise R xs ys) : Pointwise R xs.pop ys.pop := by
  intro i
  rw [Array.getElem?_pop, Array.getElem?_pop, h.size_eq]
  split_ifs
  · exact h i
  · exact .none

theorem back?_cases (h : Pointwise R xs ys) :
    (xs.back? = none ∧ ys.back? = none) ∨
      ∃ a b, xs.back? = some a ∧ ys.back? = some b ∧ R a b := by
  rw [Array.back?_eq_getElem?, Array.back?_eq_getElem?, h.size_eq]
  cases hx : xs[ys.size - 1]? with
  | none => exact .inl ⟨rfl, h.get_none hx⟩
  | some a =>
    obtain ⟨b, hb, hab⟩ := h.get hx
    exact .inr ⟨a, b, rfl, hb, hab⟩

theorem setIfInBounds {a : α} {b : β} (h : Pointwise R xs ys) (hab : R a b) (i : Nat) :
    Pointwise R (xs.setIfInBounds i a) (ys.setIfInBounds i b) := by
  intro j
  rw [Array.getElem?_setIfInBounds, Array.getElem?_setIfInBounds, h.size_eq]
  split_ifs
  · exact .some hab
  · exact .none
  · exact h j

theorem modify {f : α → α} {g : β → β} (h : Pointwise R xs ys) (i : Nat)
    (hfg : ∀ a b, R a b → R (f a) (g b)) : Pointwise R (xs.modify i f) (ys.modify i g) := by
  intro j
  rw [Array.getElem?_modify, Array.getElem?_modify]
  split_ifs
  · have hj := h j
    generalize xs[j]? = x at hj
    generalize ys[j]? = y at hj
    cases hj with
    | some hab => exact .some (hfg _ _ hab)
    | none => exact .none
  · exact h j

/-- Elements that are related by a function are the images under it. -/
theorem eq_map {f : α → β} (h : Pointwise R xs ys) (hf : ∀ a ∈ xs, ∀ b, R a b → f a = b) :
    ys = xs.map f := by
  apply Array.ext_getElem?
  intro i
  rw [Array.getElem?_map]
  cases hx : xs[i]? with
  | none => rw [h.get_none hx, Option.map_none]
  | some a =>
    obtain ⟨b, hb, hab⟩ := h.get hx
    rw [hb, Option.map_some, hf a (Array.mem_of_getElem? hx) b hab]

end Pointwise

end StackMachine
