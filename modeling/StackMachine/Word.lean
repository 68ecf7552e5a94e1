import StackMachine.Text.Decimal

/-!
# Machine words

A word is 64 bits wide and carries no type of its own. The same bits are read as a signed
integer, as an IEEE 754 double or as a handle that names an array. Handles live in the quiet
NaN space of doubles, so that a double never looks like a handle:

* `Word.ofHandle` sets the twelve exponent bits and the quiet bit, and keeps a 19-bit
  generation and a 32-bit index below them;
* `Word.ofDouble` keeps every pattern that is a number and replaces each NaN by one negative
  quiet NaN, which is outside the handle space.
-/

namespace StackMachine

/-- The name of an array: the slot it lives in and how often that slot was reused before. -/
structure Handle where
  index : Nat
  generation : Nat
deriving DecidableEq, Repr, Inhabited

/-- Largest generation that fits into a handle. -/
def Handle.maxGeneration : Nat := 0x7FFFF

/-- A 64-bit word. -/
structure Word where
  bits : UInt64
deriving DecidableEq, Repr, Inhabited

namespace Word

/-- The word zero, which is also the integer `0`, the double `0.0` and "false". -/
def zero : Word := ⟨0⟩

/-! ## Integers and truth values -/

/-- The word of an integer. -/
def ofInt (n : Int64) : Word := ⟨n.toUInt64⟩

/-- The integer that a word stands for. -/
def toInt (w : Word) : Int64 := w.bits.toInt64

/-- Truth is one, falsehood is zero. -/
def ofBool (b : Bool) : Word := if b then ⟨1⟩ else ⟨0⟩

/-- Whether a word is zero, which is false. -/
def isZero (w : Word) : Bool := w.bits == 0

/-! ## Handles -/

/-- The bits shared by all handles: exponent and quiet bit set, sign clear. -/
def handleTag : UInt64 := 0x7FF8000000000000

/-- The handle word of an index and a generation, each cut to its field. -/
def ofHandle (h : Handle) : Word :=
  ⟨handleTag + UInt64.ofNat (h.generation % 0x80000) * 0x100000000
    + UInt64.ofNat (h.index % 0x100000000)⟩

/-- A word is a handle when its thirteen high bits are those of `handleTag`. -/
def isHandle (w : Word) : Bool := w.bits &&& 0xFFF8000000000000 == handleTag

/-- The handle that a word holds, if it is one. -/
def handle? (w : Word) : Option Handle :=
  if w.isHandle then
    some ⟨(w.bits % 0x100000000).toNat, (w.bits / 0x100000000 % 0x80000).toNat⟩
  else
    none

/-! ## Doubles -/

/-- A double pattern is a NaN when its exponent is full and its fraction is not zero. -/
def isNanPattern (pattern : UInt64) : Bool :=
  pattern &&& 0x7FFFFFFFFFFFFFFF > 0x7FF0000000000000

/-- The one NaN that words hold. -/
def canonicalNan : Word := ⟨0xFFF8000000000000⟩

/-- The word of a double, given as its bit pattern: numbers keep their bits, NaNs lose them. -/
def ofDouble (pattern : UInt64) : Word :=
  if isNanPattern pattern then canonicalNan else ⟨pattern⟩

/-! ## Text -/

/-- The word as a program's user sees it: an array by its index, anything else as an integer. -/
def display (w : Word) : String :=
  match w.handle? with
  | some h => "<array " ++ Decimal.ofNat h.index ++ ">"
  | none => Decimal.ofInt w.toInt.toInt

/-- The word with everything that is in it. -/
def describe (w : Word) : String :=
  match w.handle? with
  | some h => "Array(" ++ Decimal.ofNat h.index ++ "#" ++ Decimal.ofNat h.generation ++ ")"
  | none => "Value(" ++ Decimal.ofInt w.toInt.toInt ++ ")"

end Word

end StackMachine
