import StackMachine.Operator

/-!
# Instructions

The instruction set of the machine. An opcode is the kind of an instruction; it fixes the first
byte, the mnemonic and the width of the operand. An instruction is an opcode with its operand.
-/

namespace StackMachine

/-- When a jump is taken: always, or depending on the operand it pops. -/
inductive Branch where
  | always | ifZero | ifNotZero
deriving DecidableEq, Repr, Inhabited

/-- The kinds of instructions. -/
inductive Opcode where
  | nop | pushInt | pushDouble | pop | dup
  | binary (op : BinaryOp)
  | unary (op : UnaryOp)
  | jump (branch : Branch)
  | call | ret
  | loadLocal | storeLocal | loadGlobal | storeGlobal
  | arrayNew | arrayLoad | arrayStore | arrayLen
  | printInt | readInt | halt
deriving DecidableEq, Repr, Inhabited

/-- One instruction. Jump offsets count from the end of the jump, and a double operand is kept
as its bit pattern. -/
inductive Instr where
  | nop
  | pushInt (n : Int64)
  | pushDouble (pattern : UInt64)
  | pop
  | dup
  | binary (op : BinaryOp)
  | unary (op : UnaryOp)
  | jump (branch : Branch) (offset : Int32)
  | call (callee : UInt16)
  | ret
  | loadLocal (index : UInt8)
  | storeLocal (index : UInt8)
  | loadGlobal (index : UInt16)
  | storeGlobal (index : UInt16)
  | arrayNew
  | arrayLoad
  | arrayStore
  | arrayLen
  | printInt
  | readInt
  | halt
deriving DecidableEq, Inhabited

/-! ## Opcodes -/

/-- The first byte of the instruction. -/
def BinaryOp.byte : BinaryOp → UInt8
  | add => 0x10 | sub => 0x11 | mul => 0x12 | div => 0x13 | mod => 0x14
  | eq => 0x18 | ne => 0x19 | lt => 0x1A | le => 0x1B | gt => 0x1C | ge => 0x1D
  | dadd => 0x20 | dsub => 0x21 | dmul => 0x22 | ddiv => 0x23 | dmod => 0x24
  | deq => 0x28 | dne => 0x29 | dlt => 0x2A | dle => 0x2B | dgt => 0x2C | dge => 0x2D

/-- The mnemonic. -/
def BinaryOp.name : BinaryOp → String
  | add => "add" | sub => "sub" | mul => "mul" | div => "div" | mod => "mod"
  | eq => "eq" | ne => "ne" | lt => "lt" | le => "le" | gt => "gt" | ge => "ge"
  | dadd => "dadd" | dsub => "dsub" | dmul => "dmul" | ddiv => "ddiv" | dmod => "dmod"
  | deq => "deq" | dne => "dne" | dlt => "dlt" | dle => "dle" | dgt => "dgt" | dge => "dge"

/-- The first byte of the instruction. -/
def UnaryOp.byte : UnaryOp → UInt8
  | neg => 0x15 | dneg => 0x25 | i2d => 0x30 | d2i => 0x31 | dsqrt => 0x32

/-- The mnemonic. -/
def UnaryOp.name : UnaryOp → String
  | neg => "neg" | dneg => "dneg" | i2d => "i2d" | d2i => "d2i" | dsqrt => "dsqrt"

/-- The first byte of the instruction. -/
def Branch.byte : Branch → UInt8
  | always => 0x40 | ifZero => 0x41 | ifNotZero => 0x42

/-- The mnemonic. -/
def Branch.name : Branch → String
  | always => "jmp" | ifZero => "jz" | ifNotZero => "jnz"

namespace Opcode

/-- The first byte of the instruction. -/
def byte : Opcode → UInt8
  | nop => 0x00
  | pushInt => 0x01
  | pushDouble => 0x02
  | pop => 0x03
  | dup => 0x04
  | binary op => op.byte
  | unary op => op.byte
  | jump branch => branch.byte
  | call => 0x48
  | ret => 0x49
  | loadLocal => 0x50
  | storeLocal => 0x51
  | loadGlobal => 0x52
  | storeGlobal => 0x53
  | arrayNew => 0x60
  | arrayLoad => 0x61
  | arrayStore => 0x62
  | arrayLen => 0x63
  | printInt => 0x70
  | readInt => 0x71
  | halt => 0xFF

/-- The mnemonic. -/
def name : Opcode → String
  | nop => "nop"
  | pushInt => "push_int"
  | pushDouble => "push_double"
  | pop => "pop"
  | dup => "dup"
  | binary op => op.name
  | unary op => op.name
  | jump branch => branch.name
  | call => "call"
  | ret => "ret"
  | loadLocal => "load_local"
  | storeLocal => "store_local"
  | loadGlobal => "load_global"
  | storeGlobal => "store_global"
  | arrayNew => "array_new"
  | arrayLoad => "array_load"
  | arrayStore => "array_store"
  | arrayLen => "array_len"
  | printInt => "print_int"
  | readInt => "read_int"
  | halt => "halt"

/-- The number of operand bytes. -/
def operandSize : Opcode → Nat
  | pushInt | pushDouble => 8
  | jump _ => 4
  | call | loadGlobal | storeGlobal => 2
  | loadLocal | storeLocal => 1
  | _ => 0

/-- The number of bytes of the whole instruction. -/
def size (op : Opcode) : Nat := 1 + op.operandSize

/-- The opcode with a given first byte. -/
def ofByte? (b : UInt8) : Option Opcode :=
  match b with
  | 0x00 => some nop
  | 0x01 => some pushInt
  | 0x02 => some pushDouble
  | 0x03 => some pop
  | 0x04 => some dup
  | 0x10 => some (binary .add)
  | 0x11 => some (binary .sub)
  | 0x12 => some (binary .mul)
  | 0x13 => some (binary .div)
  | 0x14 => some (binary .mod)
  | 0x15 => some (unary .neg)
  | 0x18 => some (binary .eq)
  | 0x19 => some (binary .ne)
  | 0x1A => some (binary .lt)
  | 0x1B => some (binary .le)
  | 0x1C => some (binary .gt)
  | 0x1D => some (binary .ge)
  | 0x20 => some (binary .dadd)
  | 0x21 => some (binary .dsub)
  | 0x22 => some (binary .dmul)
  | 0x23 => some (binary .ddiv)
  | 0x24 => some (binary .dmod)
  | 0x25 => some (unary .dneg)
  | 0x28 => some (binary .deq)
  | 0x29 => some (binary .dne)
  | 0x2A => some (binary .dlt)
  | 0x2B => some (binary .dle)
  | 0x2C => some (binary .dgt)
  | 0x2D => some (binary .dge)
  | 0x30 => some (unary .i2d)
  | 0x31 => some (unary .d2i)
  | 0x32 => some (unary .dsqrt)
  | 0x40 => some (jump .always)
  | 0x41 => some (jump .ifZero)
  | 0x42 => some (jump .ifNotZero)
  | 0x48 => some call
  | 0x49 => some ret
  | 0x50 => some loadLocal
  | 0x51 => some storeLocal
  | 0x52 => some loadGlobal
  | 0x53 => some storeGlobal
  | 0x60 => some arrayNew
  | 0x61 => some arrayLoad
  | 0x62 => some arrayStore
  | 0x63 => some arrayLen
  | 0x70 => some printInt
  | 0x71 => some readInt
  | 0xFF => some halt
  | _ => none

end Opcode

/-! ## Instructions -/

namespace Instr

/-- The kind of the instruction. -/
def opcode : Instr → Opcode
  | nop => .nop
  | pushInt _ => .pushInt
  | pushDouble _ => .pushDouble
  | pop => .pop
  | dup => .dup
  | binary op => .binary op
  | unary op => .unary op
  | jump branch _ => .jump branch
  | call _ => .call
  | ret => .ret
  | loadLocal _ => .loadLocal
  | storeLocal _ => .storeLocal
  | loadGlobal _ => .loadGlobal
  | storeGlobal _ => .storeGlobal
  | arrayNew => .arrayNew
  | arrayLoad => .arrayLoad
  | arrayStore => .arrayStore
  | arrayLen => .arrayLen
  | printInt => .printInt
  | readInt => .readInt
  | halt => .halt

/-- The mnemonic. -/
def name (i : Instr) : String := i.opcode.name

/-- The number of bytes of the instruction. -/
def size (i : Instr) : Nat := i.opcode.size

/-- The offset of a jump. -/
def jumpOffset? : Instr → Option Int32
  | jump _ offset => some offset
  | _ => none

/-- The operand as a whole number; a double is none. -/
def operand? : Instr → Option Int
  | pushInt n => some n.toInt
  | jump _ offset => some offset.toInt
  | call callee => some callee.toNat
  | loadLocal index | storeLocal index => some index.toNat
  | loadGlobal index | storeGlobal index => some index.toNat
  | _ => none

/-- An instruction without operand, by its mnemonic. -/
def ofPlainName? (name : String) : Option Instr :=
  match name with
  | "nop" => some .nop
  | "pop" => some .pop
  | "dup" => some .dup
  | "add" => some (.binary .add)
  | "sub" => some (.binary .sub)
  | "mul" => some (.binary .mul)
  | "div" => some (.binary .div)
  | "mod" => some (.binary .mod)
  | "neg" => some (.unary .neg)
  | "eq" => some (.binary .eq)
  | "ne" => some (.binary .ne)
  | "lt" => some (.binary .lt)
  | "le" => some (.binary .le)
  | "gt" => some (.binary .gt)
  | "ge" => some (.binary .ge)
  | "dadd" => some (.binary .dadd)
  | "dsub" => some (.binary .dsub)
  | "dmul" => some (.binary .dmul)
  | "ddiv" => some (.binary .ddiv)
  | "dmod" => some (.binary .dmod)
  | "dneg" => some (.unary .dneg)
  | "deq" => some (.binary .deq)
  | "dne" => some (.binary .dne)
  | "dlt" => some (.binary .dlt)
  | "dle" => some (.binary .dle)
  | "dgt" => some (.binary .dgt)
  | "dge" => some (.binary .dge)
  | "i2d" => some (.unary .i2d)
  | "d2i" => some (.unary .d2i)
  | "dsqrt" => some (.unary .dsqrt)
  | "ret" => some .ret
  | "array_new" => some .arrayNew
  | "array_load" => some .arrayLoad
  | "array_store" => some .arrayStore
  | "array_len" => some .arrayLen
  | "print_int" => some .printInt
  | "read_int" => some .readInt
  | "halt" => some .halt
  | _ => none

/-- An instruction with a given mnemonic, with zero for its operand. -/
def placeholder? (name : String) : Option Instr :=
  match ofPlainName? name with
  | some i => some i
  | none =>
    match name with
    | "push_int" => some (.pushInt 0)
    | "push_double" => some (.pushDouble 0)
    | "jmp" => some (.jump .always 0)
    | "jz" => some (.jump .ifZero 0)
    | "jnz" => some (.jump .ifNotZero 0)
    | "call" => some (.call 0)
    | "load_local" => some (.loadLocal 0)
    | "store_local" => some (.storeLocal 0)
    | "load_global" => some (.loadGlobal 0)
    | "store_global" => some (.storeGlobal 0)
    | _ => none

theorem size_pos (i : Instr) : 0 < i.size := by
  simp only [size, Opcode.size]
  omega

end Instr

end StackMachine
