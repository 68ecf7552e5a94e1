import StackMachine.Double.Shortest
import StackMachine.Image.Basic

/-!
# Listings

The text of code, one instruction a line, with its offset in front. Jumps show both their signed
offset and the place they lead to. A byte where no instruction can be read is listed on its own,
and reading goes on with the next byte.
-/

namespace StackMachine

namespace Listing

/-- One line of a listing. -/
inductive Line where
  | instr (pc : Nat) (i : Instr)
  | byte (pc : Nat) (b : UInt8)
deriving DecidableEq, Inhabited

/-- The lines of code from an offset on. -/
def linesFrom (code : Code) (pc : Nat) : List Line :=
  if h : pc < code.size then
    match code.decode pc with
    | .ok i => .instr pc i :: linesFrom code (pc + i.size)
    | .error _ => .byte pc code[pc] :: linesFrom code (pc + 1)
  else []
termination_by code.size - pc
decreasing_by
  · have := i.size_pos; omega
  · omega

/-- The lines of a function. -/
def lines (code : Code) : List Line := linesFrom code 0

/-- The digits of an integer with its sign always shown. -/
def signedDigits (n : Int) : List Char :=
  if n < 0 then Decimal.intDigits n else '+' :: Decimal.intDigits n

/-- The place of a jump target in hexadecimal; a place before the code shows as the 64-bit
two's complement. -/
def placeDigits (place : Int) : List Char := Hex.padded 4 (place % 0x10000000000000000).toNat

/-- What follows the mnemonic of the instruction at `pc`. -/
def operandText (pc : Nat) (i : Instr) : List Char :=
  match i with
  | .pushDouble pattern => ' ' :: (Double.text pattern).toList
  | .jump _ offset =>
    ' ' :: signedDigits offset.toInt ++ " ; -> ".toList
      ++ placeDigits (Code.jumpPlace (pc + i.size) offset)
  | _ =>
    match i.operand? with
    | some n => ' ' :: Decimal.intDigits n
    | none => []

/-- The text of a line, without its end. -/
def Line.text : Line → List Char
  | .instr pc i => Hex.padded 4 pc ++ ": ".toList ++ i.name.toList ++ operandText pc i
  | .byte pc b => Hex.padded 4 pc ++ ": .byte 0x".toList ++ Hex.padded 2 b.toNat

end Listing

/-- The listing of code; every line ends with a newline. -/
def Code.listing (code : Code) : String :=
  String.ofList ((Listing.lines code).flatMap fun line => line.text ++ ['\n'])

/-- The header line of a function, with a blank line before it. -/
def Image.Function.heading (f : Image.Function) : String :=
  "\n.func " ++ Decimal.ofNat f.index.toNat ++ " arity=" ++ Decimal.ofNat f.arity.toNat
    ++ " locals=" ++ Decimal.ofNat f.locals.toNat ++ " ; " ++ Decimal.ofNat f.code.size
    ++ " bytes\n"

/-- The listing of an image. -/
def Image.listing (image : Image) : String :=
  image.functions.foldl (fun text f => text ++ f.heading ++ f.code.listing)
    ("; version " ++ Decimal.ofNat image.version.toNat ++ ", "
      ++ Decimal.ofNat image.globals.toNat ++ " globals, entry "
      ++ Decimal.ofNat image.entry.toNat ++ "\n")

end StackMachine
