import StackMachine.Heap.Basic

/-!
# Garbage collection

A collection marks every array that can be reached from a list of root words and frees the
others. Marking works off a list of words, so that cycles and long chains need no recursion; it
ends because every array is marked at most once.
-/

namespace StackMachine.Heap

/-! ## Marking -/

/-- A slot whose array is still to be visited. -/
def isPending (s : Slot) : Bool := s.isLive && !s.marked

/-- The array that a word leads to, if it has not been visited: the index of its slot, and its
words. -/
def unvisited? (slots : Array Slot) (w : Word) : Option (Nat × Array Word) :=
  match w.handle? with
  | none => none
  | some handle =>
    match slots[handle.index]? with
    | none => none
    | some s =>
      if s.generation = handle.generation ∧ s.marked = false then
        s.contents.map fun array => (handle.index, array)
      else none

theorem unvisited?_eq_some {slots : Array Slot} {w : Word} {i : Nat} {array : Array Word}
    (h : unvisited? slots w = some (i, array)) :
    ∃ hi : i < slots.size, slots[i].marked = false ∧ slots[i].contents = some array := by
  unfold unvisited? at h
  split at h
  · simp at h
  · split at h
    · simp at h
    · rename_i handle _ s hs
      split at h
      · rename_i hg
        rw [Option.map_eq_some_iff] at h
        obtain ⟨a, ha, he⟩ := h
        simp only [Prod.mk.injEq] at he
        obtain ⟨rfl, rfl⟩ := he
        obtain ⟨hi, hs⟩ := Array.getElem?_eq_some_iff.1 hs
        exact ⟨hi, by rw [hs]; exact hg.2, by rw [hs]; exact ha⟩
      · simp at h

/-- Sets the mark of a slot. -/
def setMark (slots : Array Slot) (i : Nat) : Array Slot :=
  slots.modify i fun s => ⟨s.generation, true, s.contents⟩

theorem countP_setMark_lt {slots : Array Slot} {w : Word} {i : Nat} {array : Array Word}
    (h : unvisited? slots w = some (i, array)) :
    (setMark slots i).countP isPending < slots.countP isPending := by
  obtain ⟨hi, hm, hc⟩ := unvisited?_eq_some h
  have hp : isPending slots[i] = true := by simp [isPending, Slot.isLive, hm, hc]
  have hpos : 0 < slots.countP isPending :=
    Array.countP_pos_iff.2 ⟨_, Array.getElem_mem hi, hp⟩
  have he : setMark slots i
      = slots.set i ⟨slots[i].generation, true, slots[i].contents⟩ hi := by
    apply Array.ext
    · simp [setMark]
    · intro j h₁ h₂
      simp only [setMark, Array.getElem_modify, Array.getElem_set]
      split
      · subst_vars; rfl
      · rfl
  rw [he, Array.countP_set]
  simp only [hp, if_true]
  simp only [isPending, Bool.not_true, Bool.and_false, Bool.false_eq_true, if_false]
  omega

/-- Puts the handles among some words in front of a worklist. -/
def withHandles (words : Array Word) (work : List Word) : List Word :=
  words.foldr (fun w work => if w.isHandle then w :: work else work) work

/-- Marks the arrays that a list of words leads to. -/
def mark (slots : Array Slot) (work : List Word) : Array Slot :=
  match work with
  | [] => slots
  | w :: work =>
    match _h : unvisited? slots w with
    | none => mark slots work
    | some (i, array) =>
      mark (setMark slots i) (withHandles array work)
termination_by (slots.countP isPending, work.length)
decreasing_by
  · exact Prod.Lex.right _ (by simp)
  · exact Prod.Lex.left _ _ (countP_setMark_lt _h)

/-! ## Sweeping -/

/-- A slot whose array was not reached. -/
def isGarbage (s : Slot) : Bool := s.isLive && !s.marked

/-- A slot after the sweep: garbage is freed and marks are taken back. -/
def sweptSlot (s : Slot) : Slot :=
  if s.isLive then (if s.marked then ⟨s.generation, false, s.contents⟩ else s.release) else s

/-- Frees the arrays without mark and gives their number. Their slots are queued in ascending
order unless they are retired; the next collection is due when twice the surviving words are in
use, or the initial threshold if that is more. -/
def sweep (h : Heap) : Nat × Heap :=
  let freed := h.slots.countP isGarbage
  let free := h.free.append (indices h.slots fun s => isGarbage s && s.reusable)
  let h := { h with slots := h.slots.map sweptSlot, free }
  let words := h.liveWords
  (freed, { h with words, threshold := max (words * 2) h.initialThreshold })

/-- Frees every array that the roots do not reach and gives the number of arrays freed. -/
def collect (h : Heap) (roots : List Word) : Nat × Heap :=
  sweep { h with slots := mark h.slots roots }

/-! ## Histories -/

/-- What can be asked of a heap. -/
inductive Operation where
  | alloc (length : Int64)
  | load (array index : Word)
  | store (array index w : Word)
  | collect (roots : List Word)
  | clear

/-- The heap that an action leaves behind, whether it succeeds or not. -/
def left {α : Type} : EStateM.Result Fault Heap α → Heap
  | .ok _ h => h
  | .error _ h => h

/-- The heap after an operation. -/
def Operation.after (h : Heap) : Operation → Heap
  | alloc length => left (Heap.alloc length h)
  | load _ _ => h
  | store array index w => left (Heap.store array index w h)
  | collect roots => (h.collect roots).2
  | clear => h.clear

/-- The heap after a sequence of operations. -/
def replay (h : Heap) (ops : List Operation) : Heap := ops.foldl Operation.after h

/-- An empty array is made and the heap cleared, `n` times over. -/
def rounds (n : Nat) : List Operation := (List.replicate n [.alloc 0, .clear]).flatten

/-- The heap after `n` rounds. -/
def churn (h : Heap) (n : Nat) : Heap := h.replay (rounds n)

end StackMachine.Heap
