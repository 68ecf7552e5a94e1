import StackMachine.Image.Basic

/-!
# Leaf functions

A leaf is a small function without parameters and locals whose code runs straight through to a
single `ret` at its very end. Calling it and executing its body in place come to the same, so
compiled callers take the body instead of the call.
-/

namespace StackMachine

/-- Instructions that neither move control nor touch locals. -/
def Instr.isStraight : Instr → Bool
  | .jump _ _ | .call _ | .ret | .loadLocal _ | .storeLocal _ => false
  | _ => true

namespace Native

/-- The body of a leaf: its instructions with their offsets, and the offset of its `ret`. -/
structure Leaf where
  body : List (Nat × Instr)
  retPc : Nat
deriving DecidableEq, Inhabited

/-- Reads a leaf from an offset on; `room` is the number of instructions that may still come,
the `ret` included. -/
def leafFrom? (code : Code) (room pc : Nat) : Option Leaf :=
  if pc < code.size then
    match code.decode pc, room with
    | .error _, _ => none
    | .ok _, 0 => none
    | .ok i, room + 1 =>
      if i = .ret then (if pc + i.size = code.size then some ⟨[], pc⟩ else none)
      else if i.isStraight then
        (leafFrom? code room (pc + i.size)).map fun leaf => ⟨(pc, i) :: leaf.body, leaf.retPc⟩
      else none
  else none

/-- The body of a function, if it is a leaf of at most `maxSize` instructions, the `ret`
included. -/
def leaf? (image : Image) (callee : UInt16) (maxSize : Nat) : Option Leaf :=
  match image.function? callee with
  | none => none
  | some f => if f.arity = 0 ∧ f.locals = 0 then leafFrom? f.code maxSize 0 else none

end Native

end StackMachine
