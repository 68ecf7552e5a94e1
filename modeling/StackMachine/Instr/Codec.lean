import StackMachine.Instr.Basic
import StackMachine.LittleEndian

/-!
# Instructions as bytes

`Instr.encode` writes an instruction and `Code.decode` reads the one that starts at an offset;
operands are little-endian. `Code.sweep` reads a function from its first byte on, one instruction
after the other, and stops at the end or at the first byte where none can be read.
-/

namespace StackMachine

/-- The code of one function. -/
abbrev Code := Array UInt8

namespace Instr

/-- The bytes of the operand. -/
def operandBytes : Instr → List UInt8
  | pushInt n => LittleEndian.bytes 8 n.toUInt64
  | pushDouble pattern => LittleEndian.bytes 8 pattern
  | jump _ offset => LittleEndian.bytes 4 offset.toUInt32.toUInt64
  | call callee => LittleEndian.bytes 2 callee.toUInt64
  | loadLocal index | storeLocal index => LittleEndian.bytes 1 index.toUInt64
  | loadGlobal index | storeGlobal index => LittleEndian.bytes 2 index.toUInt64
  | _ => []

/-- The bytes of an instruction. -/
def encode (i : Instr) : List UInt8 := i.opcode.byte :: i.operandBytes

end Instr

/-- The instruction of an opcode and the number spelled by its operand bytes. -/
def Opcode.instr (op : Opcode) (operand : UInt64) : Instr :=
  match op with
  | nop => .nop
  | pushInt => .pushInt operand.toInt64
  | pushDouble => .pushDouble operand
  | pop => .pop
  | dup => .dup
  | binary op => .binary op
  | unary op => .unary op
  | jump branch => .jump branch operand.toUInt32.toInt32
  | call => .call operand.toUInt16
  | ret => .ret
  | loadLocal => .loadLocal operand.toUInt8
  | storeLocal => .storeLocal operand.toUInt8
  | loadGlobal => .loadGlobal operand.toUInt16
  | storeGlobal => .storeGlobal operand.toUInt16
  | arrayNew => .arrayNew
  | arrayLoad => .arrayLoad
  | arrayStore => .arrayStore
  | arrayLen => .arrayLen
  | printInt => .printInt
  | readInt => .readInt
  | halt => .halt

namespace Code

/-- The code that consists of the given instructions. -/
def ofInstrs (is : List Instr) : Code := (is.flatMap Instr.encode).toArray

/-- The instruction at an offset, and the number of its bytes. An offset outside the code is a
jump target out of range, as a 64-bit number. -/
@[inline]
def decodeSized (code : Code) (pc : Nat) : Except Fault (Instr × Nat) :=
  match code[pc]? with
  | none => .error (.jumpOutOfRange (Int64.ofNat pc).toInt)
  | some b =>
    match Opcode.ofByte? b with
    | none => .error (.unknownOpcode b.toNat)
    | some op =>
      if pc + op.size ≤ code.size then
        .ok (op.instr (LittleEndian.valueAt code (pc + 1) op.operandSize), op.size)
      else .error (.truncatedInstruction b.toNat)

/-- The instruction at an offset. -/
@[inline]
def decode (code : Code) (pc : Nat) : Except Fault Instr :=
  match code.decodeSized pc with
  | .error e => .error e
  | .ok (i, _) => .ok i

/-- What a linear reading of code finds: the instructions with their offsets and, if it got
stuck, the offset and the fault. -/
structure Sweep where
  instrs : List (Nat × Instr)
  stuck : Option (Nat × Fault)
deriving Inhabited

/-- Reads the instructions from an offset on. -/
def sweepFrom (code : Code) (pc : Nat) : Sweep :=
  if code.size ≤ pc then ⟨[], none⟩
  else match code.decode pc with
    | .error fault => ⟨[], some (pc, fault)⟩
    | .ok i =>
      let rest := sweepFrom code (pc + i.size)
      ⟨(pc, i) :: rest.instrs, rest.stuck⟩
termination_by code.size - pc
decreasing_by have := i.size_pos; omega

/-- Reads all instructions of the code. -/
def sweep (code : Code) : Sweep := sweepFrom code 0

/-- The place a jump leads to, before it is held against the code. -/
def jumpPlace (next : Nat) (offset : Int32) : Int := next + offset.toInt

/-- The place a jump leads to: `next` is the end of the jump, and the end of the code is a legal
target. -/
def jumpTarget (next : Nat) (offset : Int32) (length : Nat) : Except Fault Nat :=
  let target := jumpPlace next offset
  if target < 0 ∨ (length : Int) < target then .error (.jumpOutOfRange target)
  else .ok target.toNat

end Code

end StackMachine
