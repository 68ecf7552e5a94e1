import StackMachine.Instr.Codec

/-!
# Program images

An image is a module as the machine runs it: its functions, the number of its global slots and
the function it starts with. Nothing here says that an image makes sense; code may be
undecodable and the entry may name no function.
-/

namespace StackMachine

/-- One function of an image. The first `arity` of its locals are its parameters. -/
structure Image.Function where
  index : UInt16
  arity : UInt8
  locals : UInt8
  code : Code
deriving DecidableEq, Inhabited

/-- A module. -/
structure Image where
  version : UInt16
  globals : UInt16
  entry : UInt16
  functions : Array Image.Function
deriving DecidableEq, Inhabited

/-- The function with a given index. -/
def Image.function? (image : Image) (index : UInt16) : Option Image.Function :=
  image.functions[index.toNat]?

end StackMachine
