import StackMachine.Heap.Collect
import StackMachine.Proofs.Word.Handles

/-!
# Marking is reachability

A collection has to keep the arrays that can be reached: those that a root names, by index and
current generation, and those that an element of a reachable array names. `Reachable` is the least
set of slots with this property, and marking computes it, on graphs with cycles and sharing and
among words that name nothing.

* `marked_mark_iff`: on slots without marks, an array is marked exactly if it can be reached.
-/

namespace StackMachine.Heap

/-- The array in a slot. -/
def arrayAt? (slots : Array Slot) (i : Nat) : Option (Array Word) := slots[i]?.bind Slot.contents

/-- The word names the slot `i` in its current generation. -/
def Names (slots : Array Slot) (w : Word) (i : Nat) : Prop :=
  ∃ s, slots[i]? = some s ∧ w.handle? = some ⟨i, s.generation⟩

/-- The slots that some words lead to, directly or through the elements of arrays. -/
inductive Reachable (slots : Array Slot) (root : Word → Prop) : Nat → Prop
  | root {w i} (hw : root w) (hn : Names slots w i) : Reachable slots root i
  | element {i array w j} (hi : Reachable slots root i) (ha : arrayAt? slots i = some array)
      (hw : w ∈ array) (hn : Names slots w j) : Reachable slots root j

/-- The slot at `i` has a mark. -/
def Marked (slots : Array Slot) (i : Nat) : Prop := ∃ s, slots[i]? = some s ∧ s.marked = true

variable {slots slots' : Array Slot} {w : Word} {work : List Word} {i j : Nat}

theorem arrayAt?_eq_some {array : Array Word} :
    arrayAt? slots i = some array ↔ ∃ s, slots[i]? = some s ∧ s.contents = some array :=
  Option.bind_eq_some_iff

/-- A word is still to be visited when it names an array without mark. -/
theorem unvisited?_eq_some_iff {array : Array Word} :
    unvisited? slots w = some (i, array) ↔
      Names slots w i ∧ ¬ Marked slots i ∧ arrayAt? slots i = some array := by
  simp only [Names, Marked, arrayAt?]
  unfold unvisited?
  constructor
  · intro h
    split at h
    · cases h
    · rename_i handle hw
      split at h
      · cases h
      · rename_i s hs
        split_ifs at h with hg
        obtain ⟨a, ha, he⟩ := Option.map_eq_some_iff.1 h
        obtain ⟨rfl, rfl⟩ := Prod.mk.inj he
        refine ⟨⟨s, hs, by rw [hw, hg.1]⟩, fun ⟨t, ht, hm⟩ => ?_, by rw [hs]; exact ha⟩
        obtain rfl : s = t := Option.some.inj (hs.symm.trans ht)
        rw [hg.2] at hm
        cases hm
  · rintro ⟨⟨s, hs, hw⟩, hm, ha⟩
    rw [hs] at ha
    rw [hw]
    simp only [hs]
    have hmarked : s.marked = false := Bool.eq_false_iff.2 fun h => hm ⟨s, hs, h⟩
    rw [if_pos ⟨trivial, hmarked⟩]
    simpa using ha

/-- The name of an array that is not visited any more has a mark. -/
theorem marked_of_unvisited? {array : Array Word} (h : unvisited? slots w = none)
    (hn : Names slots w i) (ha : arrayAt? slots i = some array) : Marked slots i := by
  by_contra hm
  rw [unvisited?_eq_some_iff.2 ⟨hn, hm, ha⟩] at h
  cases h

/-! ## Marks and nothing else -/

/-- The slots differ in their marks only, and no mark is taken back. -/
structure Remarked (slots slots' : Array Slot) : Prop where
  slot : ∀ i : Nat, ∃ b, slots'[i]? = slots[i]?.map fun s => { s with marked := b }
  marks : ∀ i, Marked slots i → Marked slots' i

namespace Remarked

theorem refl (slots : Array Slot) : Remarked slots slots := by
  refine ⟨fun i => ?_, fun _ h => h⟩
  cases h : slots[i]? with
  | none => exact ⟨false, rfl⟩
  | some s => exact ⟨s.marked, rfl⟩

theorem trans {slots'' : Array Slot} (h : Remarked slots slots') (h' : Remarked slots' slots'') :
    Remarked slots slots'' := by
  refine ⟨fun i => ?_, fun i hm => h'.marks i (h.marks i hm)⟩
  obtain ⟨b, hb⟩ := h.slot i
  obtain ⟨b', hb'⟩ := h'.slot i
  exact ⟨b', by rw [hb', hb, Option.map_map]; rfl⟩

theorem size_eq (h : Remarked slots slots') : slots'.size = slots.size := by
  have hle : ∀ i, slots'.size ≤ i ↔ slots.size ≤ i := by
    intro i
    obtain ⟨b, hb⟩ := h.slot i
    rw [← Array.getElem?_eq_none_iff, ← Array.getElem?_eq_none_iff, hb, Option.map_eq_none_iff]
  exact le_antisymm ((hle _).2 le_rfl) ((hle _).1 le_rfl)

theorem arrayAt?_eq (h : Remarked slots slots') (i : Nat) :
    arrayAt? slots' i = arrayAt? slots i := by
  obtain ⟨b, hb⟩ := h.slot i
  rw [arrayAt?, arrayAt?, hb]
  cases slots[i]? <;> rfl

theorem names_iff (h : Remarked slots slots') : Names slots' w i ↔ Names slots w i := by
  obtain ⟨b, hb⟩ := h.slot i
  simp [Names, hb]

theorem unvisited?_eq_none (h : Remarked slots slots') (hw : unvisited? slots w = none) :
    unvisited? slots' w = none := by
  by_contra hne
  obtain ⟨⟨i, array⟩, hi⟩ := Option.ne_none_iff_exists'.1 hne
  obtain ⟨hn, hm, ha⟩ := unvisited?_eq_some_iff.1 hi
  rw [h.names_iff] at hn
  rw [h.arrayAt?_eq] at ha
  exact hm (h.marks i (marked_of_unvisited? hw hn ha))

end Remarked

theorem marked_setMark_iff {array : Array Word} (ha : arrayAt? slots i = some array) :
    Marked (setMark slots i) j ↔ j = i ∨ Marked slots j := by
  obtain ⟨s, hs, -⟩ := arrayAt?_eq_some.1 ha
  simp only [Marked, setMark, Array.getElem?_modify]
  by_cases hij : i = j
  · subst hij
    simp [hs]
  · rw [if_neg hij]
    simp [Ne.symm hij]

theorem remarked_setMark {array : Array Word} (ha : arrayAt? slots i = some array) :
    Remarked slots (setMark slots i) := by
  refine ⟨fun j => ?_, fun j hj => (marked_setMark_iff ha).2 (.inr hj)⟩
  obtain ⟨b, hb⟩ := (Remarked.refl slots).slot j
  rw [setMark, Array.getElem?_modify]
  split_ifs
  · exact ⟨true, rfl⟩
  · exact ⟨b, hb⟩

theorem remarked_mark (slots : Array Slot) (work : List Word) :
    Remarked slots (mark slots work) := by
  fun_induction mark slots work with
  | case1 slots => exact .refl slots
  | case2 slots w work hw ih => exact ih
  | case3 slots w work i array hw ih =>
    exact (remarked_setMark (unvisited?_eq_some_iff.1 hw).2.2).trans ih

/-! ## Everything marked can be reached -/

theorem mem_withHandles {words : Array Word} :
    w ∈ withHandles words work ↔ (w ∈ words ∧ w.isHandle = true) ∨ w ∈ work := by
  obtain ⟨words⟩ := words
  simp only [withHandles, List.foldr_toArray, List.mem_toArray]
  induction words with
  | nil => simp
  | cons v words ih =>
    rw [List.foldr_cons]
    split_ifs with hv
    · rw [List.mem_cons, ih, List.mem_cons]
      grind
    · rw [ih, List.mem_cons]
      grind

/-- Marking stays within any set of slots that contains what the worklist names and is closed
    under elements. -/
theorem marked_mark {P : Nat → Prop}
    (hclosed : ∀ i array, P i → arrayAt? slots i = some array → ∀ w ∈ array, ∀ j, Names slots w j →
      P j)
    (hwork : ∀ w ∈ work, ∀ i, Names slots w i → P i) (hm : Marked (mark slots work) i) :
    Marked slots i ∨ P i ∧ (arrayAt? slots i).isSome := by
  fun_induction mark slots work with
  | case1 slots => exact .inl hm
  | case2 slots w work hw ih => exact ih hclosed (fun v hv => hwork v (.tail _ hv)) hm
  | case3 slots w work k array hw ih =>
    obtain ⟨hn, -, ha⟩ := unvisited?_eq_some_iff.1 hw
    have hr := remarked_setMark ha
    have hk : P k := hwork w (.head _) k hn
    have hmarked := ih
      (fun i a hi hia v hv j hj => hclosed i a hi (by rwa [hr.arrayAt?_eq] at hia) v hv j
        (hr.names_iff.1 hj))
      (fun v hv j hj => by
        rcases mem_withHandles.1 hv with ⟨hv, -⟩ | hv
        · exact hclosed k array hk ha v hv j (hr.names_iff.1 hj)
        · exact hwork v (.tail _ hv) j (hr.names_iff.1 hj)) hm
    rw [marked_setMark_iff ha, hr.arrayAt?_eq] at hmarked
    rcases hmarked with (rfl | hi) | hi
    · exact .inr ⟨hk, by rw [ha]; rfl⟩
    · exact .inl hi
    · exact .inr hi

/-! ## Everything that can be reached is marked -/

/-- A word that has just been visited is visited. -/
theorem unvisited?_setMark {array : Array Word} (hw : unvisited? slots w = some (i, array)) :
    unvisited? (setMark slots i) w = none := by
  obtain ⟨⟨t, -, ht⟩, -, ha⟩ := unvisited?_eq_some_iff.1 hw
  by_contra hne
  obtain ⟨⟨j, b⟩, hj⟩ := Option.ne_none_iff_exists'.1 hne
  obtain ⟨hn, hm, -⟩ := unvisited?_eq_some_iff.1 hj
  obtain ⟨s, -, hs⟩ := (remarked_setMark ha).names_iff.1 hn
  obtain rfl : j = i := congrArg Handle.index (Option.some.inj (hs.symm.trans ht))
  exact hm ((marked_setMark_iff ha).2 (.inl rfl))

theorem unvisited?_of_not_isHandle (slots : Array Slot) (hw : w.isHandle ≠ true) :
    unvisited? slots w = none := by
  rw [unvisited?, Word.handle?, if_neg hw]

/-- No word of the worklist is left to be visited. -/
theorem unvisited?_mark (hw : w ∈ work) : unvisited? (mark slots work) w = none := by
  fun_induction mark slots work with
  | case1 slots => cases hw
  | case2 slots v work hv ih =>
    rcases List.mem_cons.1 hw with rfl | hw
    · exact (remarked_mark slots work).unvisited?_eq_none hv
    · exact ih hw
  | case3 slots v work k array hv ih =>
    rcases List.mem_cons.1 hw with rfl | hw
    · exact (remarked_mark _ _).unvisited?_eq_none (unvisited?_setMark hv)
    · exact ih (mem_withHandles.2 (.inr hw))

/-- The elements of a marked array that are still to be visited wait in the worklist. In the end
    there are none. -/
theorem unvisited?_mark_of_marked {array : Array Word}
    (hinv : ∀ i array, Marked slots i → arrayAt? slots i = some array → ∀ w ∈ array,
      unvisited? slots w = none ∨ w ∈ work)
    (hm : Marked (mark slots work) i) (ha : arrayAt? slots i = some array) (hw : w ∈ array) :
    unvisited? (mark slots work) w = none := by
  fun_induction mark slots work with
  | case1 slots => exact (hinv i array hm ha w hw).resolve_right (by simp)
  | case2 slots v work hv ih =>
    refine ih (fun j a hj hja u hu => ?_) hm ha
    rcases hinv j a hj hja u hu with h | h
    · exact .inl h
    · rcases List.mem_cons.1 h with rfl | h
      · exact .inl hv
      · exact .inr h
  | case3 slots v work k words hv ih =>
    obtain ⟨hn, -, hk⟩ := unvisited?_eq_some_iff.1 hv
    have hr := remarked_setMark hk
    refine ih (fun j a hj hja u hu => ?_) hm (by rwa [hr.arrayAt?_eq])
    rw [hr.arrayAt?_eq] at hja
    rcases (marked_setMark_iff hk).1 hj with rfl | hj
    · -- the array that gets its mark now: all its handles are put on the worklist
      obtain rfl : words = a := Option.some.inj (hk.symm.trans hja)
      by_cases hu' : u.isHandle = true
      · exact .inr (mem_withHandles.2 (.inl ⟨hu, hu'⟩))
      · exact .inl (unvisited?_of_not_isHandle _ hu')
    · rcases hinv j a hj hja u hu with h | h
      · exact .inl (hr.unvisited?_eq_none h)
      · rcases List.mem_cons.1 h with rfl | h
        · exact .inl (unvisited?_setMark hv)
        · exact .inr (mem_withHandles.2 (.inr h))

/-- Marking computes reachability. -/
theorem marked_mark_iff {roots : List Word} (hu : ∀ i, ¬ Marked slots i)
    (hlive : (arrayAt? slots i).isSome) :
    Marked (mark slots roots) i ↔ Reachable slots (· ∈ roots) i := by
  have hr := remarked_mark slots roots
  constructor
  · intro hm
    refine ((marked_mark (P := Reachable slots (· ∈ roots)) ?_ ?_ hm).resolve_left (hu i)).1
    · exact fun i array hi ha w hw j hj => .element hi ha hw hj
    · exact fun w hw i hi => .root hw hi
  · intro hi
    obtain ⟨array, ha⟩ := Option.isSome_iff_exists.1 hlive
    have hclosed : ∀ w j, unvisited? (mark slots roots) w = none → Names slots w j →
        ∀ b, arrayAt? slots j = some b → Marked (mark slots roots) j := fun w j hw hn b hb =>
      marked_of_unvisited? hw (hr.names_iff.2 hn) ((hr.arrayAt?_eq j).trans hb)
    induction hi generalizing array with
    | root hw hn => exact hclosed _ _ (unvisited?_mark hw) hn array ha
    | element hi hb hw hn ih =>
      have hm := ih (by rw [hb]; rfl) _ hb
      have hv := unvisited?_mark_of_marked (fun i _ hm => absurd hm (hu i)) hm hb hw
      exact hclosed _ _ hv hn array ha

/-- A mark is given to arrays only. -/
theorem isSome_of_marked_mark {roots : List Word} (hu : ∀ i, ¬ Marked slots i)
    (hm : Marked (mark slots roots) i) : (arrayAt? slots i).isSome :=
  ((marked_mark (P := fun _ => True) (fun _ _ _ _ _ _ _ _ => trivial)
    (fun _ _ _ _ => trivial) hm).resolve_left (hu i)).2

end StackMachine.Heap
