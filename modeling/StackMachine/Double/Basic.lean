import StackMachine.Word

/-!
# Doubles as bit patterns

A double is handled through its 64-bit pattern: one sign bit, eleven exponent bits and 52
fraction bits. A finite pattern stands for `± m · 2 ^ q` with whole `m` and `q`; `significand`
and `exponent` give the two numbers, and `ofParts` goes back.

Sums, products, quotients, roots and comparisons are those of IEEE 754 with rounding to
nearest. The remainder is exact: it has the sign of the dividend and is computed on whole
numbers.
-/

namespace StackMachine.Double

/-! ## Parts of a pattern -/

/-- Whether the sign bit is set. -/
def isNegative (x : UInt64) : Bool := x &&& 0x8000000000000000 != 0

/-- The pattern without its sign. -/
def magnitude (x : UInt64) : UInt64 := x &&& 0x7FFFFFFFFFFFFFFF

/-- Whether the pattern stands for no number. -/
def isNan (x : UInt64) : Bool := Word.isNanPattern x

/-- Whether the pattern is that of an infinity. -/
def isInfinite (x : UInt64) : Bool := magnitude x == 0x7FF0000000000000

/-- Whether the pattern is that of `± 0`. -/
def isZero (x : UInt64) : Bool := magnitude x == 0

/-- The exponent field. -/
def exponentField (x : UInt64) : Nat := (magnitude x / 0x10000000000000).toNat

/-- The fraction field. -/
def fractionField (x : UInt64) : Nat := (x &&& 0xFFFFFFFFFFFFF).toNat

/-- The whole number `m` of a finite pattern `± m · 2 ^ q`. -/
def significand (x : UInt64) : Nat :=
  if exponentField x = 0 then fractionField x else fractionField x + 0x10000000000000

/-- The exponent `q` of a finite pattern `± m · 2 ^ q`. -/
def exponent (x : UInt64) : Int := (max (exponentField x) 1 : Nat) - 1075

/-- The pattern of `± 0`. -/
def signedZero (negative : Bool) : UInt64 := if negative then 0x8000000000000000 else 0

/-- The pattern of an infinity. -/
def infinity (negative : Bool) : UInt64 := signedZero negative + 0x7FF0000000000000

/-- The pattern of `± m · 2 ^ q`, for a number that a double can hold: `m < 2 ^ 53` and
`-1074 ≤ q`. Numbers beyond the largest double become infinite. -/
def ofParts (negative : Bool) (m : Nat) (q : Int) : UInt64 :=
  if m = 0 then signedZero negative
  else
    let shift := min (52 - Nat.log2 m) (q + 1074).toNat
    let m := m * Nat.pow 2 shift
    let field := if m < 0x10000000000000 then 0 else (q - shift + 1075).toNat
    if 2047 ≤ field then infinity negative
    else signedZero negative + UInt64.ofNat (field * 0x10000000000000 + m % 0x10000000000000)

/-! ## Arithmetic -/

/-- The sum, rounded. -/
def add (x y : UInt64) : UInt64 := (Float.ofBits x + Float.ofBits y).toBits

/-- The difference, rounded. -/
def sub (x y : UInt64) : UInt64 := (Float.ofBits x - Float.ofBits y).toBits

/-- The product, rounded. -/
def mul (x y : UInt64) : UInt64 := (Float.ofBits x * Float.ofBits y).toBits

/-- The quotient, rounded. -/
def div (x y : UInt64) : UInt64 := (Float.ofBits x / Float.ofBits y).toBits

/-- The square root, rounded. -/
def sqrt (x : UInt64) : UInt64 := (Float.ofBits x).sqrt.toBits

/-- Negation flips the sign bit, also of a zero. -/
def neg (x : UInt64) : UInt64 := x ^^^ 0x8000000000000000

/-- The remainder of truncated division. It is exact and takes the sign of `x`; there is none
when `x` is infinite or `y` is zero. -/
def rem (x y : UInt64) : UInt64 :=
  if isNan x || isNan y || isInfinite x || isZero y then Word.canonicalNan.bits
  else if isInfinite y then x
  else
    let q := min (exponent x) (exponent y)
    let a := significand x * Nat.pow 2 (exponent x - q).toNat
    let b := significand y * Nat.pow 2 (exponent y - q).toNat
    ofParts (isNegative x) (a % b) q

/-- The double nearest to an integer. -/
def ofInt (n : Int64) : UInt64 := n.toFloat.toBits

/-- The integer part, clamped to the range of 64 bits; a NaN gives zero. -/
def toInt (x : UInt64) : Int64 := (Float.ofBits x).toInt64

/-! ## Comparison -/

/-- Whether two doubles are equal. A NaN is not equal to itself. -/
def eq (x y : UInt64) : Bool := Float.ofBits x == Float.ofBits y

/-- Whether one double is below another. -/
def lt (x y : UInt64) : Bool := Float.ofBits x < Float.ofBits y

/-- Whether one double is below another or equal to it. -/
def le (x y : UInt64) : Bool := Float.ofBits x ≤ Float.ofBits y

end StackMachine.Double
