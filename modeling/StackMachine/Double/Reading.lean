import StackMachine.Double.Basic
import StackMachine.Text.Decimal

/-!
# Reading a double from decimal text

The text is an optional sign followed by `inf`, `infinity` or `nan` in any case, or by digits
with an optional point and an optional exponent. A decimal is read as the double nearest to it;
of two equally near ones the one with an even significand is taken.
-/

namespace StackMachine.Double

/-- The quotient rounded to the nearest whole number, ties to even. -/
def roundQuotient (num den : Nat) : Nat :=
  let q := num / den
  let twice := 2 * (num % den)
  if twice < den then q
  else if twice = den then q + q % 2
  else q + 1

/-- The double nearest to the positive quotient `num / den`. -/
def ofQuotient (negative : Bool) (num den : Nat) : UInt64 :=
  -- the leading bit of the quotient is at place `lead` or one below it
  let lead : Int := (Nat.log2 num : Int) - Nat.log2 den
  let fits (q : Int) : Bool :=
    num * Nat.pow 2 (-q).toNat < 0x20000000000000 * (den * Nat.pow 2 q.toNat)
  let q := if fits (lead - 53) then lead - 53 else lead - 52
  let q := max q (-1074)
  let m := roundQuotient (num * Nat.pow 2 (-q).toNat) (den * Nat.pow 2 q.toNat)
  if m < 0x20000000000000 then ofParts negative m q else ofParts negative (m / 2) (q + 1)

/-- The double nearest to `± n · 10 ^ k`. Exponents far outside the range of doubles are settled
without computing the power: `n` lies between `10 ^ (log2 n / 4)` and `10 ^ (log2 n / 3 + 1)`. -/
def ofDecimal (negative : Bool) (n : Nat) (k : Int) : UInt64 :=
  let lead := Nat.log2 n
  if n = 0 || ((lead / 3 + 1 : Nat) : Int) + k < -330 then signedZero negative
  else if 310 < ((lead / 4 : Nat) : Int) + k then infinity negative
  else ofQuotient negative (n * Nat.pow 10 k.toNat) (Nat.pow 10 (-k).toNat)

/-- Splits off the digits at the front. -/
def spanDigits (cs : List Char) : List Char × List Char :=
  cs.span fun c => (Decimal.digit? c).isSome

/-- Reads the exponent part; nothing means zero. -/
def readExponent : List Char → Option Int
  | [] => some 0
  | c :: rest =>
    if c = 'e' ∨ c = 'E' then
      match rest with
      | '-' :: digits => (Decimal.readNat digits).map fun n => -(n : Int)
      | '+' :: digits => (Decimal.readNat digits).map Int.ofNat
      | digits => (Decimal.readNat digits).map Int.ofNat
    else none

/-- Reads digits with an optional point and exponent. -/
def readDecimal (negative : Bool) (cs : List Char) : Option UInt64 :=
  let (whole, rest) := spanDigits cs
  let (fraction, rest) := match rest with
    | '.' :: rest => spanDigits rest
    | _ => ([], rest)
  match Decimal.readNat (whole ++ fraction), readExponent rest with
  | some n, some e => some (ofDecimal negative n (e - fraction.length))
  | _, _ => none

/-- Reads a double without its sign. -/
def readUnsigned (negative : Bool) (cs : List Char) : Option UInt64 :=
  let name := cs.map Char.toLower
  if name = ['i', 'n', 'f'] ∨ name = ['i', 'n', 'f', 'i', 'n', 'i', 't', 'y'] then
    some (infinity negative)
  else if name = ['n', 'a', 'n'] then
    some (signedZero negative + 0x7FF8000000000000)
  else readDecimal negative cs

/-- Reads a double. -/
def read : List Char → Option UInt64
  | '-' :: rest => readUnsigned true rest
  | '+' :: rest => readUnsigned false rest
  | cs => readUnsigned false cs

end StackMachine.Double
