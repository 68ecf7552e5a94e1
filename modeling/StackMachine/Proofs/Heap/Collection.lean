import StackMachine.Memory.Basic
import StackMachine.Proofs.Heap.Changes

/-!
# Collections are exact

A collection of the memory keeps the arrays that can be reached from the operand stack, the locals
of the frames and the globals, as they are, and frees all others. `Collected` says so in full, and
that the number which a collection gives is the number of arrays it freed.

* `collected_collect`: a collection of a memory whose heap is the work of operations is exact.
-/

namespace StackMachine.Memory

open Heap

/-- The word is on the operand stack, a local of a frame, or a global. -/
def IsRoot (m : Memory) (w : Word) : Prop :=
  w ∈ m.stack.words ∨ (∃ f ∈ m.calls.frames, w ∈ f.locals) ∨ w ∈ m.globals.words

/-- The memory `m'` is what is left of `m` when `freed` arrays that could not be reached are
    gone. -/
structure Collected (m : Memory) (freed : Nat) (m' : Memory) : Prop where
  stack : m'.stack = m.stack
  calls : m'.calls = m.calls
  globals : m'.globals = m.globals
  survives : ∀ i, (arrayAt? m'.heap.slots i).isSome ↔
    (arrayAt? m.heap.slots i).isSome ∧ Reachable m.heap.slots m.IsRoot i
  kept : ∀ i : Nat, (arrayAt? m'.heap.slots i).isSome → m'.heap.slots[i]? = m.heap.slots[i]?
  freed : freed = ((Finset.range m.heap.slots.size).filter fun i =>
    (arrayAt? m.heap.slots i).isSome ∧ ¬ (arrayAt? m'.heap.slots i).isSome).card
  stale : ∀ w i, Names m.heap.slots w i → (arrayAt? m.heap.slots i).isSome →
    ¬ (arrayAt? m'.heap.slots i).isSome → m'.heap.get w = .error (.invalidHandle w.bits.toNat)

variable {m : Memory}

theorem mem_roots {w : Word} : w ∈ m.roots ↔ m.IsRoot w := by
  simp [roots, IsRoot]

theorem reachable_roots_iff {slots : Array Slot} {i : Nat} :
    Reachable slots (· ∈ m.roots) i ↔ Reachable slots m.IsRoot i := by
  have hroots : (· ∈ m.roots) = m.IsRoot := funext fun w => propext mem_roots
  rw [hroots]

end StackMachine.Memory

namespace StackMachine.Heap

variable {h h' : Heap} {i : Nat}

/-- Which arrays are left after a release. -/
theorem Released.arrayAt?_eq {gone : Nat → Prop} (hr : Released gone h h') :
    ((arrayAt? h'.slots i).isSome ↔ (arrayAt? h.slots i).isSome ∧ ¬ gone i) ∧
      ((arrayAt? h'.slots i).isSome → h'.slots[i]? = h.slots[i]?) := by
  cases hs : h.slots[i]? with
  | none =>
    have hs' : h'.slots[i]? = none := by
      rw [Array.getElem?_eq_none_iff] at hs ⊢
      rw [hr.size]
      exact hs
    simp [arrayAt?, hs, hs']
  | some s =>
    have hlive : (arrayAt? h.slots i).isSome = s.isLive := by simp [arrayAt?, hs, Slot.isLive]
    by_cases hg : s.isLive = true ∧ gone i
    · have hs' := hr.freed i s hs hg.1 hg.2
      have hnone : (arrayAt? h'.slots i).isSome = false := by simp [arrayAt?, hs', Slot.release]
      simp [hlive, hnone, hg]
    · have hs' := hr.kept i s hs fun hl hgone => hg ⟨hl, hgone⟩
      have hsome : (arrayAt? h'.slots i).isSome = s.isLive := by
        simp [arrayAt?, hs', Slot.isLive]
      rw [hlive, hsome, hs']
      exact ⟨⟨fun hl => ⟨hl, fun hgone => hg ⟨hl, hgone⟩⟩, fun hl => hl.1⟩, fun _ => rfl⟩

/-- A word that names a slot without array does not resolve. -/
theorem get_of_vacant {w : Word} {g : Nat} (hw : w.handle? = some ⟨i, g⟩)
    (ha : ¬ (arrayAt? h.slots i).isSome) : h.get w = .error (.invalidHandle w.bits.toNat) := by
  have hresolve : h.resolve? ⟨i, g⟩ = none := by
    unfold resolve?
    cases hs : h.slots[i]? with
    | none => rfl
    | some s =>
      have hc : s.contents = none := by simpa [arrayAt?, hs] using ha
      simp [hc]
  simp only [get, hw, hresolve]

/-- No slot holds an array. -/
def Vacant (h : Heap) : Prop := ∀ i, ¬ (arrayAt? h.slots i).isSome

theorem vacant_clear (h : Heap) : h.clear.Vacant := fun _ hi =>
  (h.released_clear.arrayAt?_eq.1.1 hi).2 trivial

/-- A word does not name an array on any heap without arrays, and the fault is always the same. -/
theorem exists_get_of_vacant (w : Word) : ∃ e, ∀ h : Heap, h.Vacant → h.get w = .error e := by
  cases hw : w.handle? with
  | none => exact ⟨.notAnArray w.bits.toNat, fun h _ => by simp only [get, hw]⟩
  | some handle => exact ⟨_, fun h hv => get_of_vacant hw (hv handle.index)⟩

theorem length_indices (slots : Array Slot) (p : Slot → Bool) :
    (indices slots p).length = slots.countP p := by
  calc (indices slots p).length = slots.toList.zipIdx.countP (p ∘ Prod.fst) := by
        rw [indices, List.length_map, List.countP_eq_length_filter]
        rfl
    _ = slots.countP p := by rw [← List.countP_map, List.zipIdx_map_fst, Array.countP_toList]

/-- Garbage is what held an array and cannot be reached. -/
theorem exists_isGarbage_mark_iff {slots : Array Slot} (roots : List Word)
    (hu : ∀ i, ¬ Marked slots i) :
    (∃ s, (mark slots roots)[i]? = some s ∧ isGarbage s = true) ↔
      (arrayAt? slots i).isSome ∧ ¬ Reachable slots (· ∈ roots) i := by
  cases hs : slots[i]? with
  | none =>
    obtain ⟨b, hb⟩ := (remarked_mark slots roots).slot i
    simp [arrayAt?, hs, hb]
  | some s =>
    obtain ⟨b, hb, hm⟩ := getElem?_mark roots hu hs
    have hlive : (arrayAt? slots i).isSome = s.isLive := by simp [arrayAt?, hs, Slot.isLive]
    rw [hb, hlive]
    cases hl : s.isLive with
    | false => simp_all [isGarbage, Slot.isLive]
    | true => cases b <;> simp_all [isGarbage, Slot.isLive]

/-- The number that a collection gives. -/
theorem Valid.collect_fst (hv : h.Valid) (roots : List Word) :
    (h.collect roots).1 = ((Finset.range h.slots.size).filter fun i =>
      (arrayAt? h.slots i).isSome ∧ ¬ (arrayAt? (h.collect roots).2.slots i).isSome).card := by
  have hcount : (h.collect roots).1 = (indices (mark h.slots roots) isGarbage).length :=
    (length_indices _ _).symm
  rw [hcount, ← List.toFinset_card_of_nodup (nodup_indices _ _)]
  congr 1
  ext i
  have hlt : (arrayAt? h.slots i).isSome → i < h.slots.size := by
    intro ha
    by_contra hi
    simp [arrayAt?, Array.getElem?_eq_none_iff.2 (not_lt.1 hi)] at ha
  rw [List.mem_toFinset, mem_indices, exists_isGarbage_mark_iff roots hv.unmarked,
    Finset.mem_filter, Finset.mem_range, (hv.collect roots).arrayAt?_eq.1]
  tauto

end StackMachine.Heap

namespace StackMachine.Memory

open Heap

/-- A collection of valid memory is exact. -/
theorem Collected.of_valid {m : Memory} (hv : m.heap.Valid) :
    m.Collected m.collect.1 m.collect.2 := by
  have hr := hv.collect m.roots
  have hsurvives : ∀ i, (arrayAt? m.collect.2.heap.slots i).isSome ↔
      (arrayAt? m.heap.slots i).isSome ∧ Reachable m.heap.slots m.IsRoot i := fun i => by
    rw [← reachable_roots_iff, ← not_not (a := Reachable _ _ _)]
    exact hr.arrayAt?_eq.1
  exact {
    stack := rfl
    calls := rfl
    globals := rfl
    survives := hsurvives
    kept := fun i => hr.arrayAt?_eq.2
    freed := hv.collect_fst m.roots
    stale := fun w i ⟨s, _, hw⟩ _ hgone => get_of_vacant hw hgone }

/-- A collection is exact, whatever is on the stacks and in the globals and whatever was done to
    the heap before: it keeps the arrays that can be reached, as they are, it frees the others,
    whose handles stop resolving, and it gives their number. -/
theorem collected_collect (stack : OperandStack) (calls : CallStack) (globals : Globals)
    (threshold : Nat) (collects : Bool) (allocator : Allocator) (ops : List Operation) :
    let m : Memory := ⟨stack, calls, globals, (Heap.empty threshold collects allocator).replay ops⟩
    m.Collected m.collect.1 m.collect.2 :=
  Collected.of_valid ((valid_empty threshold collects allocator).replay ops)

end StackMachine.Memory
