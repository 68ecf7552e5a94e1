import StackMachine.Double.Basic
import StackMachine.Text.Decimal

/-!
# The shortest text of a double

A number is written with the fewest decimal digits that read back as the same double; of the
texts with that many digits the nearest to the number is taken, and of two equally near ones the
larger. Numbers from `1e-4` up to but not including `1e16` are written positionally, with at
least one digit after the point; all others with an exponent.
-/

namespace StackMachine.Double

/-- A positive number `m · 2 ^ q` with the numbers that round to it: those between
`low / scale` and `high / scale`, the ends included when `closed`. The number itself is
`mid / scale`. -/
structure Interval where
  low : Nat
  mid : Nat
  high : Nat
  scale : Nat
  closed : Bool

/-- The interval of a positive finite pattern. The next double below a power of two is only half
as far away as the one above. -/
def interval (x : UInt64) : Interval :=
  let m := significand x
  let q := exponent x
  let gap := if fractionField x = 0 ∧ 1 < exponentField x then 1 else 2
  let up := Nat.pow 2 q.toNat
  { low := (4 * m - gap) * up
    mid := 4 * m * up
    high := (4 * m + 2) * up
    scale := 4 * Nat.pow 2 (-q).toNat
    closed := m % 2 = 0 }

/-- Whether `n · 10 ^ k` rounds to the double. -/
def Interval.holds (i : Interval) (n : Nat) (k : Int) : Bool :=
  let value := n * Nat.pow 10 k.toNat * i.scale
  let unit := Nat.pow 10 (-k).toNat
  if i.closed then i.low * unit ≤ value && value ≤ i.high * unit
  else i.low * unit < value && value < i.high * unit

/-- The multiple of `10 ^ k` nearest to the number that rounds to it, if there is one. -/
def Interval.nearest? (i : Interval) (k : Int) : Option Nat :=
  let num := i.mid * Nat.pow 10 (-k).toNat
  let den := i.scale * Nat.pow 10 k.toNat
  let below := num / den
  let candidates := if num % den * 2 < den then [below, below + 1] else [below + 1, below]
  candidates.find? fun n => 0 < n && i.holds n k

/-- Tries ever finer powers of ten until one has a multiple that rounds to the number. -/
def Interval.search (i : Interval) : Nat → Int → Nat × Int
  | 0, k => (i.mid * Nat.pow 10 (-k).toNat / (i.scale * Nat.pow 10 k.toNat), k)
  | fuel + 1, k =>
    match i.nearest? k with
    | some n => (n, k)
    | none => i.search fuel (k - 1)

/-- Drops zeros at the right end. -/
def stripZeros (n : Nat) (k : Int) : Nat × Int :=
  if h : n ≠ 0 ∧ n % 10 = 0 then stripZeros (n / 10) (k + 1) else (n, k)
termination_by n
decreasing_by omega

/-- The shortest decimal `n · 10 ^ k` of a positive finite pattern, with no zero at its right
end. At most eighteen powers of ten below the leading digit are ever needed. -/
def shortest (x : UInt64) : Nat × Int :=
  let i := interval x
  let places : Int :=
    if i.scale ≤ i.mid then (Decimal.natDigits (i.mid / i.scale)).length
    else 1 - ((Decimal.natDigits (i.scale / i.mid)).length : Int)
  let (n, k) := i.search 19 places
  stripZeros n k

/-- Positional notation of digits whose decimal point stands after the first `point` of them. -/
def positional (digits : List Char) (point : Int) : List Char :=
  if point ≤ 0 then
    ['0', '.'] ++ List.replicate (-point).toNat '0' ++ digits
  else
    let p := point.toNat
    let whole := digits.take p ++ List.replicate (p - digits.length) '0'
    let fraction := digits.drop p
    whole ++ ['.'] ++ (if fraction.isEmpty then ['0'] else fraction)

/-- Notation with an exponent. -/
def scientific (digits : List Char) (point : Int) : List Char :=
  let fraction := digits.drop 1
  digits.take 1 ++ (if fraction.isEmpty then [] else '.' :: fraction)
    ++ ['e'] ++ Decimal.intDigits (point - 1)

/-- The text of a double. -/
def text (x : UInt64) : String :=
  let sign := if isNegative x then ['-'] else []
  if isNan x then "NaN"
  else if isInfinite x then String.ofList (sign ++ ['i', 'n', 'f'])
  else if isZero x then String.ofList (sign ++ ['0', '.', '0'])
  else
    let (n, k) := shortest (magnitude x)
    let digits := Decimal.natDigits n
    let point : Int := digits.length + k
    let body := if -4 < point ∧ point ≤ 16 then positional digits point
      else scientific digits point
    String.ofList (sign ++ body)

end StackMachine.Double
