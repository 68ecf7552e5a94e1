import StackMachine.Native.Registers
import StackMachine.Proofs.Paired

/-!
# Registers are part of the stack

A stack with registers above it stands for the plain stack of all its operands. `Spread` relates
the two; pushing, popping and looking at the top go together on both sides, also when they fail, and
flushing changes only one of them. Pushes that are not checked need `room`: the words that may still
come without reaching the limit.
-/

namespace StackMachine.Native

theorem Registers.length_toList (r : Registers) : r.toList.length = r.size := by
  cases r <;> rfl

theorem CachedStack.length_toList (c : CachedStack) : c.toList.length = c.size := by
  rw [CachedStack.toList, List.length_append, Registers.length_toList, Array.length_toList]
  rfl

/-- The plain stack `s` holds the operands of `c`. Where pushes are not checked, `room` more words
    fit. -/
structure Spread (checked : Bool) (room : Nat) (c : CachedStack) (s : OperandStack) : Prop where
  limit : c.stack.limit = s.limit
  words : s.words.toList = c.toList
  bounded : s.words.size ≤ s.limit
  room : checked = false → s.words.size + room ≤ s.limit

namespace Spread

variable {checked : Bool} {room : Nat} {c : CachedStack} {s : OperandStack} {w : Word}

theorem size_eq (h : Spread checked room c s) :
    s.words.size = c.stack.words.size + c.registers.size := by
  have hlength := congrArg List.length h.words
  rwa [CachedStack.length_toList, Array.length_toList] at hlength

/-- Less room is there as well; where pushes are checked it does not matter. -/
theorem anti {room' : Nat} (h : Spread checked room c s)
    (hr : checked = false → room' ≤ room) : Spread checked room' c s :=
  ⟨h.limit, h.words, h.bounded, fun hc => by have := h.room hc; have := hr hc; omega⟩

/-- The plain stack after a push. -/
theorem pushed {c' : CachedStack} (h : Spread checked (room + 1) c s) (hs : s.words.size < s.limit)
    (hl : c'.stack.limit = c.stack.limit) (hw : c'.toList = c.toList ++ [w]) :
    Spread checked room c' ⟨s.words.push w, s.limit⟩ := by
  refine ⟨hl.trans h.limit, by simp [h.words, hw], ?_, ?_⟩
  · simp; omega
  · intro hc
    have := h.room hc
    simp
    omega

/-- The stack has a word to spare when one is put into the registers above two others. -/
theorem store (h : Spread checked (room + 1) c s) (hs : s.words.size < s.limit) :
    ∃ c', CachedStack.store w c = .ok () c' ∧
      Spread checked room c' ⟨s.words.push w, s.limit⟩ := by
  obtain ⟨stack, registers⟩ := c
  have hsize := h.size_eq
  cases registers with
  | none => exact ⟨_, rfl, h.pushed hs rfl (by simp [CachedStack.toList, Registers.toList])⟩
  | one top => exact ⟨_, rfl, h.pushed hs rfl (by simp [CachedStack.toList, Registers.toList])⟩
  | two below top =>
    have hl := h.limit
    simp only [Registers.size] at hsize hl
    refine ⟨⟨⟨stack.words.push below, stack.limit⟩, .two top w⟩, ?_, h.pushed hs rfl ?_⟩
    · simp only [CachedStack.store, OperandStack.push]
      rw [if_neg (by omega)]
    · simp [CachedStack.toList, Registers.toList]

theorem push (h : Spread checked (room + 1) c s) :
    Paired (fun _ _ => Spread checked room) (Spread checked (room + 1))
      (CachedStack.push checked w c) (OperandStack.push w s) := by
  have hsize := h.size_eq
  have hl := h.limit
  by_cases hs : s.words.size < s.limit
  · obtain ⟨c', hc', hspread⟩ := h.store (w := w) hs
    have hpush : CachedStack.push checked w c = .ok () c' := by
      rw [CachedStack.push, if_neg, hc']
      simp
      omega
    have hplain : OperandStack.push w s = .ok () ⟨s.words.push w, s.limit⟩ := by
      rw [OperandStack.push, if_neg (by omega)]
    rw [hpush, hplain]
    exact hspread
  · -- a full stack: without checks there would have been room
    have hc : checked = true := by
      by_contra hc
      have := h.room (by simpa using hc)
      omega
    have hpush : CachedStack.push checked w c = .error (.stackOverflow c.stack.limit) c := by
      rw [CachedStack.push, if_pos]
      simp [hc]
      omega
    have hplain : OperandStack.push w s = .error (.stackOverflow s.limit) s := by
      rw [OperandStack.push, if_pos (by omega)]
    rw [hpush, hplain]
    exact ⟨by rw [hl], h⟩

/-- The plain stack after a pop. -/
theorem popped {d : CachedStack} (h : Spread checked room c s)
    (hl : d.stack.limit = c.stack.limit) (hw : c.toList = d.toList ++ [w]) :
    OperandStack.pop s = .ok w ⟨s.words.pop, s.limit⟩ ∧
      Spread checked (room + 1) d ⟨s.words.pop, s.limit⟩ := by
  have hwords : s.words.toList = d.toList ++ [w] := h.words.trans hw
  have hback : s.words.back? = some w := by
    rw [← Array.getLast?_toList, hwords, List.getLast?_concat]
  have hsize : s.words.size = d.toList.length + 1 := by
    simpa using congrArg List.length hwords
  refine ⟨by simp only [OperandStack.pop, hback], hl.trans h.limit, ?_, ?_, ?_⟩
  · simp [hwords]
  · have := h.bounded
    simp
    omega
  · intro hc
    have := h.room hc
    simp
    omega

theorem pop (h : Spread checked room c s) :
    Paired (fun a b c s => a = b ∧ Spread checked (room + 1) c s) (Spread checked room)
      (CachedStack.pop c) (OperandStack.pop s) := by
  obtain ⟨stack, registers⟩ := c
  cases registers with
  | two below top =>
    obtain ⟨h1, h2⟩ := h.popped (d := ⟨stack, .one below⟩) (w := top) rfl
      (by simp [CachedStack.toList, Registers.toList])
    rw [h1]
    exact ⟨rfl, h2⟩
  | one top =>
    obtain ⟨h1, h2⟩ := h.popped (d := ⟨stack, .none⟩) (w := top) rfl
      (by simp [CachedStack.toList, Registers.toList])
    rw [h1]
    exact ⟨rfl, h2⟩
  | none =>
    cases hback : stack.words.back? with
    | none =>
      have hs : s.words.back? = none := by
        rw [← Array.getLast?_toList, h.words, ← hback, ← Array.getLast?_toList]
        simp [CachedStack.toList, Registers.toList]
      simp only [CachedStack.pop, OperandStack.pop, hback, hs]
      exact ⟨rfl, h⟩
    | some w =>
      have hlast : w ∈ stack.words.toList.getLast? := by simpa using hback
      obtain ⟨h1, h2⟩ := h.popped (d := ⟨⟨stack.words.pop, stack.limit⟩, .none⟩) (w := w) rfl
        (by simp [CachedStack.toList, Registers.toList, List.dropLast_append_getLast? w hlast])
      rw [h1]
      simp only [CachedStack.pop, OperandStack.pop, hback]
      exact ⟨rfl, h2⟩

theorem peek (h : Spread checked room c s) : CachedStack.peek c = s.peek := by
  obtain ⟨stack, registers⟩ := c
  have hback : s.words.back? = (stack.words.toList ++ registers.toList).getLast? := by
    rw [← Array.getLast?_toList, h.words]
    rfl
  cases registers with
  | none => simp [CachedStack.peek, OperandStack.peek, hback, Registers.toList]
  | one top => simp [CachedStack.peek, OperandStack.peek, hback, Registers.toList]
  | two below top => simp [CachedStack.peek, OperandStack.peek, hback, Registers.toList]

/-- Flushing succeeds and leaves the plain stack itself. -/
theorem flush (h : Spread checked room c s) : CachedStack.flush c = .ok () ⟨s, .none⟩ := by
  obtain ⟨⟨words, limit⟩, registers⟩ := c
  obtain ⟨swords, slimit⟩ := s
  have hsize := h.size_eq
  have hb := h.bounded
  obtain rfl : limit = slimit := h.limit
  have hwords := h.words
  simp only [CachedStack.toList] at hwords
  cases registers with
  | none =>
    have : swords = words := by
      apply Array.toList_inj.1
      simpa [Registers.toList] using hwords
    simp [CachedStack.flush, this]
  | one top =>
    have : swords = words.push top := by
      apply Array.toList_inj.1
      simpa [Registers.toList] using hwords
    simp only [Registers.size] at hsize hb
    simp only [CachedStack.flush, OperandStack.push]
    rw [if_neg (by omega), this]
  | two below top =>
    have : swords = (words.push below).push top := by
      apply Array.toList_inj.1
      simpa [Registers.toList] using hwords
    simp only [Registers.size] at hsize hb
    simp only [CachedStack.flush, OperandStack.push]
    rw [if_neg (by omega)]
    simp only [Array.size_push]
    rw [if_neg (by omega), this]

/-- A plain stack stands for itself. -/
theorem refl {s : OperandStack} (hb : s.words.size ≤ s.limit)
    (hr : checked = false → s.words.size + room ≤ s.limit) : Spread checked room ⟨s, .none⟩ s :=
  ⟨rfl, by simp [CachedStack.toList, Registers.toList], hb, hr⟩

theorem isEmpty (h : Spread checked room c s) : CachedStack.isEmpty c = s.isEmpty := by
  obtain ⟨stack, registers⟩ := c
  have hsize := h.size_eq
  cases registers <;>
    simp_all [CachedStack.isEmpty, OperandStack.isEmpty, Registers.size, Array.isEmpty]

end Spread

end StackMachine.Native
