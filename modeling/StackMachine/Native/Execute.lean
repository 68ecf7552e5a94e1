import StackMachine.Machine.Interpret
import StackMachine.Native.Registers

/-!
# Executing a compiled operation

What one operation of a compiled program does to the machine and to its registers, and where
control goes after it. The registers are flushed to the operand stack before anything that can
look at the stack from outside: calls, returns, allocation, globals, arrays, input and output.
-/

namespace StackMachine.Native

/-- A machine together with the registers of the running program. -/
structure Workspace where
  machine : Machine
  registers : Registers
deriving Inhabited

/-- A change of the workspace that may fail. -/
abbrev Work := EStateM Fault Workspace

namespace Workspace

/-- Acts on the operand stack and the registers. -/
@[inline]
def onOperands {α : Type} (act : EStateM Fault CachedStack α) : Work α := fun w =>
  let ⟨⟨⟨stack, calls, globals, heap⟩, console, collector, promotion, journal⟩, registers⟩ := w
  match act ⟨stack, registers⟩ with
  | .ok a ⟨stack, registers⟩ =>
    .ok a ⟨⟨⟨stack, calls, globals, heap⟩, console, collector, promotion, journal⟩, registers⟩
  | .error e ⟨stack, registers⟩ =>
    .error e
      ⟨⟨⟨stack, calls, globals, heap⟩, console, collector, promotion, journal⟩, registers⟩

/-- Acts on the machine. -/
@[inline]
def onMachine {α : Type} (act : Action α) : Work α := fun w =>
  let ⟨machine, registers⟩ := w
  match act machine with
  | .ok a machine => .ok a ⟨machine, registers⟩
  | .error e machine => .error e ⟨machine, registers⟩

/-- Looks something up without changing the workspace. -/
@[inline]
def inspect {α : Type} (f : Workspace → Except Fault α) : Work α := fun w =>
  match f w with
  | .ok a => .ok a w
  | .error e => .error e w

/-- Puts a word on the operands; if `checked`, the limit of the stack is held. -/
def push (checked : Bool) (w : Word) : Work Unit := onOperands (CachedStack.push checked w)

/-- Takes the top operand away. -/
def pop : Work Word := onOperands CachedStack.pop

/-- The top operand. -/
def peek : Work Word :=
  inspect fun w => CachedStack.peek ⟨w.machine.memory.stack, w.registers⟩

/-- Moves the words in registers to the stack. -/
def flush : Work Unit := onOperands CachedStack.flush

/-- Whether there is no operand at all. -/
def hasOperands (w : Workspace) : Bool :=
  !CachedStack.isEmpty ⟨w.machine.memory.stack, w.registers⟩

end Workspace

/-- Executes an operation. `checked` tells whether pushes are held against the limit of the
stack. -/
def Workspace.execute (checked : Bool) (op : Op) : Work Flow :=
  match op with
  | .nop => return .next
  | .push w => do push checked w; return .next
  | .pop => do let _ ← pop; return .next
  | .dup => do
    let w ← peek
    push checked w
    return .next
  | .binary op => do
    let b ← pop
    let a ← pop
    let w ← inspect fun _ => op.eval a b
    push checked w
    return .next
  | .unary op => do
    let a ← pop
    push checked (op.eval a)
    return .next
  | .jump .always target => return .jump target
  | .jump .ifZero target => do
    let w ← pop
    return if w.isZero then .jump target else .next
  | .jump .ifNotZero target => do
    let w ← pop
    return if w.isZero then .next else .jump target
  | .loadLocal index => do
    let w ← onMachine (Machine.loadLocal index)
    push checked w
    return .next
  | .storeLocal index => do
    let w ← pop
    onMachine (Machine.storeLocal index w)
    return .next
  | .loadGlobal index => do
    flush
    onMachine do
      let w ← Machine.loadGlobal index
      Machine.push w
    return .next
  | .storeGlobal index => do
    let w ← pop
    flush
    onMachine (Machine.storeGlobal index w)
    return .next
  | .arrayNew => do
    let length ← pop
    flush
    onMachine do
      let array ← Machine.newArray length
      Machine.push array
    return .next
  | .arrayLoad => do
    let index ← pop
    let array ← pop
    flush
    onMachine do
      let w ← Machine.loadElement array index
      Machine.push w
    return .next
  | .arrayStore => do
    let w ← pop
    let index ← pop
    let array ← pop
    flush
    onMachine (Machine.storeElement array index w)
    return .next
  | .arrayLen => do
    let array ← pop
    flush
    onMachine do
      let n ← Machine.arrayLength array
      Machine.push n
    return .next
  | .printInt => do
    let w ← pop
    flush
    onMachine (Machine.printInt w)
    return .next
  | .readInt => do
    flush
    onMachine do
      let w ← Machine.readInt
      Machine.push w
    return .next
  | .call callee => do
    flush
    return .call callee
  | .ret => do
    flush
    return .ret
  | .halt => do
    flush
    return .halt
  | .enterLeaf _ => do
    onMachine Machine.checkRoom
    return .next
  | .exitLeaf => do
    if (← get).hasOperands then return .next
    else
      push checked .zero
      return .next

end StackMachine.Native
