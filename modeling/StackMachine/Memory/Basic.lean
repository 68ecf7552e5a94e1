import StackMachine.Heap.Collect
import StackMachine.Memory.CallStack
import StackMachine.Memory.OperandStack

/-!
# Memory

Everything a run changes except its input and output: operand stack, call stack, global slots
and heap. The words on the two stacks and in the global slots are the roots of a collection.
-/

namespace StackMachine

/-- The global slots of a program. -/
structure Globals where
  words : Array Word
deriving DecidableEq, Inhabited

namespace Globals

/-- Slots that are all zero. -/
def zeroed (count : Nat) : Globals := ⟨Array.replicate count .zero⟩

/-- Reads a slot. -/
def load (g : Globals) (index : UInt16) : Except Fault Word :=
  match g.words[index.toNat]? with
  | some w => .ok w
  | none => .error (.invalidGlobal index.toNat g.words.size)

/-- Writes a slot. -/
def store (index : UInt16) (w : Word) : EStateM Fault Globals Unit := fun g =>
  let count := g.words.size
  if index.toNat < count then .ok () ⟨g.words.setIfInBounds index.toNat w⟩
  else .error (.invalidGlobal index.toNat count) g

end Globals

/-- The memory of the machine. -/
structure Memory where
  stack : OperandStack
  calls : CallStack
  globals : Globals
  heap : Heap
deriving Inhabited

namespace Memory

/-- Memory with empty stacks and zero globals. -/
def fresh (maxStack maxCallDepth globals : Nat) (heap : Heap) : Memory :=
  ⟨.empty maxStack, .empty maxCallDepth, .zeroed globals, heap⟩

/-- Prepares the memory for a new run: all arrays are freed, their slots stay. -/
def reset (m : Memory) (globals : Nat) : Memory :=
  ⟨m.stack.clear, m.calls.clear, .zeroed globals, m.heap.clear⟩

/-- The words that keep arrays alive: the operand stack, the locals of all frames from the
oldest on, and the globals. -/
def roots (m : Memory) : List Word :=
  m.stack.words.toList ++ m.calls.frames.toList.flatMap (fun f => f.locals.toList)
    ++ m.globals.words.toList

/-- Frees every array that the roots do not reach and gives the number of arrays freed. -/
def collect (m : Memory) : Nat × Memory :=
  let roots := m.roots
  let ⟨stack, calls, globals, heap⟩ := m
  let (freed, heap) := heap.collect roots
  (freed, ⟨stack, calls, globals, heap⟩)

end Memory

end StackMachine
