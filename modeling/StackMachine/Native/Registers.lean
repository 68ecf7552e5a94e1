import StackMachine.Memory.OperandStack

/-!
# Registers on top of the operand stack

Compiled code keeps up to two words in registers. They sit above the words of the stack, so that
stack and registers together hold the operands; when a third word comes, the lowest is spilled
to the stack.
-/

namespace StackMachine.Native

/-- Words kept in registers, lowest first. -/
inductive Registers where
  | none
  | one (top : Word)
  | two (below top : Word)
deriving DecidableEq, Inhabited

/-- The words in registers, deepest first. -/
def Registers.toList : Registers → List Word
  | none => []
  | one top => [top]
  | two below top => [below, top]

/-- The number of words in registers. -/
def Registers.size : Registers → Nat
  | none => 0
  | one _ => 1
  | two _ _ => 2

/-- An operand stack with registers above it. -/
structure CachedStack where
  stack : OperandStack
  registers : Registers
deriving DecidableEq, Inhabited

namespace CachedStack

/-- All operands, bottom first. -/
def toList (s : CachedStack) : List Word := s.stack.words.toList ++ s.registers.toList

/-- The number of operands. -/
def size (s : CachedStack) : Nat := s.stack.size + s.registers.size

/-- Puts a word into the registers above those that are there. -/
def store (w : Word) : EStateM Fault CachedStack Unit := fun s =>
  match s with
  | ⟨stack, .none⟩ => .ok () ⟨stack, .one w⟩
  | ⟨stack, .one top⟩ => .ok () ⟨stack, .two top w⟩
  | ⟨stack, .two below top⟩ =>
    match OperandStack.push below stack with
    | .ok _ stack => .ok () ⟨stack, .two top w⟩
    | .error e stack => .error e ⟨stack, .two below top⟩

/-- Pushes a word. Unless `checked`, only the spill is held against the limit of the stack. -/
def push (checked : Bool) (w : Word) : EStateM Fault CachedStack Unit := fun s =>
  if checked && s.stack.limit ≤ s.stack.words.size + s.registers.size then
    .error (.stackOverflow s.stack.limit) s
  else store w s

/-- Pops a word. -/
def pop : EStateM Fault CachedStack Word := fun s =>
  match s with
  | ⟨stack, .two below top⟩ => .ok top ⟨stack, .one below⟩
  | ⟨stack, .one top⟩ => .ok top ⟨stack, .none⟩
  | ⟨stack, .none⟩ =>
    match OperandStack.pop stack with
    | .ok w stack => .ok w ⟨stack, .none⟩
    | .error e stack => .error e ⟨stack, .none⟩

/-- The top word. -/
def peek (s : CachedStack) : Except Fault Word :=
  match s.registers with
  | .two _ top | .one top => .ok top
  | .none => s.stack.peek

/-- Moves the words in registers to the stack. -/
def flush : EStateM Fault CachedStack Unit := fun s =>
  match s with
  | ⟨stack, .none⟩ => .ok () ⟨stack, .none⟩
  | ⟨stack, .one top⟩ =>
    match OperandStack.push top stack with
    | .ok _ stack => .ok () ⟨stack, .none⟩
    | .error e stack => .error e ⟨stack, .one top⟩
  | ⟨stack, .two below top⟩ =>
    match OperandStack.push below stack with
    | .error e stack => .error e ⟨stack, .two below top⟩
    | .ok _ stack =>
      match OperandStack.push top stack with
      | .ok _ stack => .ok () ⟨stack, .none⟩
      | .error e stack => .error e ⟨stack, .two below top⟩

/-- Whether there is no operand at all. -/
def isEmpty (s : CachedStack) : Bool :=
  match s.registers with
  | .none => s.stack.isEmpty
  | _ => false

end CachedStack

end StackMachine.Native
