import StackMachine.Fault
import StackMachine.Word

/-!
# The operand stack

A stack of words that holds at most `limit` of them. Operations that fail keep the stack as it
was; the action form (`EStateM`) hands the state on together with the fault.
-/

namespace StackMachine

/-- The operand stack; the top is the last word. -/
structure OperandStack where
  words : Array Word
  limit : Nat
deriving DecidableEq, Inhabited

namespace OperandStack

/-- A stack without words. -/
def empty (limit : Nat) : OperandStack := ⟨#[], limit⟩

/-- The number of words. -/
def size (s : OperandStack) : Nat := s.words.size

/-- Whether there is no word. -/
def isEmpty (s : OperandStack) : Bool := s.words.isEmpty

/-- Puts a word on top. -/
@[inline]
def push (w : Word) : EStateM Fault OperandStack Unit := fun s =>
  if s.limit ≤ s.words.size then .error (.stackOverflow s.limit) s
  else .ok () ⟨s.words.push w, s.limit⟩

/-- Takes the top word away. -/
@[inline]
def pop : EStateM Fault OperandStack Word := fun s =>
  match s.words.back? with
  | some w => .ok w ⟨s.words.pop, s.limit⟩
  | none => .error .stackUnderflow s

/-- Takes the top word away; an empty stack gives zero. -/
@[inline]
def popOrZero (s : OperandStack) : Word × OperandStack :=
  match s.words.back? with
  | some w => (w, ⟨s.words.pop, s.limit⟩)
  | none => (.zero, s)

/-- The top word. -/
@[inline]
def peek (s : OperandStack) : Except Fault Word :=
  match s.words.back? with
  | some w => .ok w
  | none => .error .stackUnderflow

/-- Takes all words away. -/
def clear (s : OperandStack) : OperandStack := ⟨#[], s.limit⟩

end OperandStack

end StackMachine
