/-!
# Queues

First in, first out. A queue is kept as two lists, so that both ends are cheap; `toList` is the
view in which the operations are described.
-/

namespace StackMachine

/-- A queue: `front` in order, then `back` in reverse. -/
structure Queue (α : Type) where
  front : List α
  back : List α
deriving DecidableEq, Repr, Inhabited

namespace Queue

variable {α : Type}

/-- A queue without elements. -/
def empty : Queue α := ⟨[], []⟩

/-- The elements, first in first. -/
def toList (q : Queue α) : List α := q.front ++ q.back.reverse

/-- Adds an element at the end. -/
def push (q : Queue α) (a : α) : Queue α := ⟨q.front, a :: q.back⟩

/-- Adds several elements at the end, in order. -/
def append (q : Queue α) (as : List α) : Queue α := as.foldl push q

/-- A queue with the given elements. -/
def ofList (as : List α) : Queue α := ⟨as, []⟩

/-- Takes the first element away. -/
def pop? (q : Queue α) : Option (α × Queue α) :=
  match q.front with
  | a :: front => some (a, ⟨front, q.back⟩)
  | [] =>
    match q.back.reverse with
    | a :: front => some (a, ⟨front, []⟩)
    | [] => none

@[simp]
theorem toList_empty : (empty : Queue α).toList = [] := rfl

@[simp]
theorem toList_ofList (as : List α) : (ofList as).toList = as := by simp [toList, ofList]

@[simp]
theorem toList_push (q : Queue α) (a : α) : (q.push a).toList = q.toList ++ [a] := by
  simp [toList, push]

@[simp]
theorem toList_append (q : Queue α) (as : List α) :
    (q.append as).toList = q.toList ++ as := by
  induction as generalizing q with
  | nil => simp [append]
  | cons a as ih =>
    have := ih (q.push a)
    simp only [append, List.foldl_cons] at this ⊢
    simp [this]

theorem toList_of_pop? {q r : Queue α} {a : α} (h : q.pop? = some (a, r)) :
    q.toList = a :: r.toList := by
  unfold pop? at h
  split at h
  · rename_i hf
    simp only [Option.some.injEq, Prod.mk.injEq] at h
    obtain ⟨rfl, rfl⟩ := h
    simp [toList, hf]
  · rename_i hf
    split at h
    · rename_i hb
      simp only [Option.some.injEq, Prod.mk.injEq] at h
      obtain ⟨rfl, rfl⟩ := h
      simp [toList, hf, hb]
    · simp at h

end Queue

end StackMachine
