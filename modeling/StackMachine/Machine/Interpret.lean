import StackMachine.Machine.Basic

/-!
# Interpreting an instruction

What one instruction does to the machine, and where control goes after it. Calls and returns
only say so here; the frames are handled where control is.
-/

namespace StackMachine

/-- Where control goes after an instruction. -/
inductive Flow where
  | next
  | jump (target : Nat)
  | call (callee : UInt16)
  | ret
  | halt
deriving DecidableEq, Inhabited

/-- Interprets an instruction that ends at `next` in code of the given length. -/
@[inline]
def Machine.interpret (next length : Nat) (i : Instr) : Action Flow :=
  match i with
  | .nop => return .next
  | .pushInt n => do push (.ofInt n); return .next
  | .pushDouble pattern => do push (.ofDouble pattern); return .next
  | .pop => do let _ ← pop; return .next
  | .dup => do
    let w ← peek
    push w
    return .next
  | .binary op => do
    let b ← pop
    let a ← pop
    let w ← inspect fun _ => op.eval a b
    push w
    return .next
  | .unary op => do
    let a ← pop
    push (op.eval a)
    return .next
  | .jump .always offset => do
    let target ← inspect fun _ => Code.jumpTarget next offset length
    return .jump target
  | .jump .ifZero offset => do
    let w ← pop
    if w.isZero then
      let target ← inspect fun _ => Code.jumpTarget next offset length
      return .jump target
    else return .next
  | .jump .ifNotZero offset => do
    let w ← pop
    if w.isZero then return .next
    else
      let target ← inspect fun _ => Code.jumpTarget next offset length
      return .jump target
  | .call callee => return .call callee
  | .ret => return .ret
  | .loadLocal index => do
    let w ← loadLocal index
    push w
    return .next
  | .storeLocal index => do
    let w ← pop
    storeLocal index w
    return .next
  | .loadGlobal index => do
    let w ← loadGlobal index
    push w
    return .next
  | .storeGlobal index => do
    let w ← pop
    storeGlobal index w
    return .next
  | .arrayNew => do
    let length ← pop
    let array ← newArray length
    push array
    return .next
  | .arrayLoad => do
    let index ← pop
    let array ← pop
    let w ← loadElement array index
    push w
    return .next
  | .arrayStore => do
    let w ← pop
    let index ← pop
    let array ← pop
    storeElement array index w
    return .next
  | .arrayLen => do
    let array ← pop
    let n ← arrayLength array
    push n
    return .next
  | .printInt => do
    let w ← pop
    printInt w
    return .next
  | .readInt => do
    let w ← readInt
    push w
    return .next
  | .halt => return .halt

end StackMachine
