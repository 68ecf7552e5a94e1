/-!
# Hexadecimal numerals

Numerals in base sixteen with lower-case digits, filled with zeros to a least width.
-/

namespace StackMachine.Hex

/-- The character of a hexadecimal digit. -/
def digitChar (d : Nat) : Char :=
  if d < 10 then Char.ofNat (48 + d) else Char.ofNat (87 + d)

/-- The digits of a natural number, highest first. -/
def natDigits (n : Nat) : List Char :=
  if n < 16 then [digitChar n] else natDigits (n / 16) ++ [digitChar (n % 16)]
termination_by n

/-- The digits with zeros in front up to `width` places. -/
def padded (width n : Nat) : List Char :=
  let digits := natDigits n
  List.replicate (width - digits.length) '0' ++ digits

/-- The numeral, at least `width` digits wide. -/
def ofNat (width n : Nat) : String := String.ofList (padded width n)

/-- The numeral with `0x` in front, `width` counting the digits alone. -/
def marked (width n : Nat) : String := "0x" ++ ofNat width n

end StackMachine.Hex
