/-!
# Decimal numerals

Writing and reading whole numbers in base ten. A numeral that is read may have a sign in front
and any number of leading zeros, and has at least one digit; nothing else is allowed in it.
-/

namespace StackMachine.Decimal

/-- The character of a digit. -/
def digitChar (d : Nat) : Char := Char.ofNat (48 + d)

/-- The value of a decimal digit. -/
def digit? (c : Char) : Option Nat :=
  if 48 ≤ c.toNat ∧ c.toNat ≤ 57 then some (c.toNat - 48) else none

/-- The digits of a natural number, highest first. -/
def natDigits (n : Nat) : List Char :=
  if n < 10 then [digitChar n] else natDigits (n / 10) ++ [digitChar (n % 10)]
termination_by n

/-- The digits of an integer, with a minus sign in front of a negative one. -/
def intDigits (n : Int) : List Char :=
  if n < 0 then '-' :: natDigits n.natAbs else natDigits n.natAbs

/-- The numeral of a natural number. -/
def ofNat (n : Nat) : String := String.ofList (natDigits n)

/-- The numeral of an integer. -/
def ofInt (n : Int) : String := String.ofList (intDigits n)

/-- Adds digits to the right of the number read so far. -/
def readDigits (acc : Nat) : List Char → Option Nat
  | [] => some acc
  | c :: rest =>
    match digit? c with
    | some d => readDigits (10 * acc + d) rest
    | none => none

/-- Reads one or more digits. -/
def readNat : List Char → Option Nat
  | [] => none
  | cs => readDigits 0 cs

/-- Reads a numeral with an optional plus sign that is at most `max`. -/
def readUnsigned (max : Nat) (cs : List Char) : Option Nat :=
  let digits := match cs with
    | '+' :: rest => rest
    | _ => cs
  match readNat digits with
  | some n => if n ≤ max then some n else none
  | none => none

/-- Reads a numeral with an optional sign that lies between `min` and `max`. -/
def readSigned (min max : Int) (cs : List Char) : Option Int :=
  let number : Option Int := match cs with
    | '+' :: rest => (readNat rest).map Int.ofNat
    | '-' :: rest => (readNat rest).map fun n => -(n : Int)
    | _ => (readNat cs).map Int.ofNat
  match number with
  | some n => if min ≤ n ∧ n ≤ max then some n else none
  | none => none

/-- Reads a 64-bit signed numeral. -/
def readInt64 (cs : List Char) : Option Int64 :=
  (readSigned (-9223372036854775808) 9223372036854775807 cs).map Int64.ofInt

end StackMachine.Decimal
