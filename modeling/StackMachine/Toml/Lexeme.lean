import StackMachine.Double.Reading

/-!
# The words of TOML

Blanks, comments, keys, strings, numbers and dates. Every reader takes the text from where it
stands and gives what it read and the rest, or nothing if the text is wrong there.
-/

namespace StackMachine.Toml

/-- A reader of something at the front of a text. -/
abbrev Reader (α : Type) := List Char → Option (α × List Char)

/-! ## Blanks and comments -/

/-- Blanks within a line. -/
def isSpace (c : Char) : Bool := c == ' ' || c == '\t'

/-- The text behind the blanks at its front. -/
def skipSpaces (cs : List Char) : List Char := cs.dropWhile isSpace

/-- The rest after a newline at the front. -/
def newline? : List Char → Option (List Char)
  | '\n' :: rest => some rest
  | '\r' :: '\n' :: rest => some rest
  | _ => none

/-- Characters that comments and literal strings may hold, quotes aside: no control but the
tab. -/
def isPrintable (c : Char) : Bool := c == '\t' || (0x20 ≤ c.toNat && c.toNat ≠ 0x7F)

/-- Skips a comment, if there is one. -/
def skipComment : List Char → List Char
  | '#' :: rest => rest.dropWhile isPrintable
  | cs => cs

/-- The rest after the end of a line, which may hold blanks and a comment. -/
def lineEnd? (cs : List Char) : Option (List Char) :=
  match skipComment (skipSpaces cs) with
  | [] => some []
  | cs => newline? cs

/-- Skips blanks, comments and newlines. The number bounds the lines. -/
def skipLines : Nat → List Char → List Char
  | 0, cs => cs
  | fuel + 1, cs =>
    let cs := skipComment (skipSpaces cs)
    match newline? cs with
    | some rest => skipLines fuel rest
    | none => cs

/-! ## Strings -/

/-- The value of a hexadecimal digit. -/
def hexDigit? (c : Char) : Option Nat :=
  if '0' ≤ c ∧ c ≤ '9' then some (c.toNat - 48)
  else if 'a' ≤ c ∧ c ≤ 'f' then some (c.toNat - 87)
  else if 'A' ≤ c ∧ c ≤ 'F' then some (c.toNat - 55)
  else none

/-- The character with a code point in hexadecimal; surrogates are none. -/
def codePoint? (digits : List Char) : Option Char :=
  match digits.foldlM (fun n c => (hexDigit? c).map fun d => 16 * n + d) 0 with
  | some n => if n < 0xD800 ∨ (0xDFFF < n ∧ n ≤ 0x10FFFF) then some (Char.ofNat n) else none
  | none => none

/-- The character of an escape of one letter. -/
def shortEscape? (c : Char) : Option Char :=
  if c = 'b' then some '\x08'
  else if c = 't' then some '\t'
  else if c = 'n' then some '\n'
  else if c = 'f' then some '\x0c'
  else if c = 'r' then some '\r'
  else if c = '"' then some '"'
  else if c = '\\' then some '\\'
  else none

/-- The character of an escape, after its backslash. -/
def escape : Reader Char
  | 'u' :: a :: b :: c :: d :: rest => (codePoint? [a, b, c, d]).map fun x => (x, rest)
  | 'U' :: a :: b :: c :: d :: e :: f :: g :: h :: rest =>
    (codePoint? [a, b, c, d, e, f, g, h]).map fun x => (x, rest)
  | c :: rest => (shortEscape? c).map fun x => (x, rest)
  | [] => none

/-- Characters of a string in double quotes that stand for themselves. -/
def isPlain (c : Char) : Bool := isPrintable c && c ≠ '"' && c ≠ '\\'

/-- Reads a string in double quotes, after the opening one. -/
def basicString (fuel : Nat) (read : List Char) : Reader (List Char) := fun cs =>
  match fuel, cs with
  | fuel + 1, '\\' :: rest =>
    match escape rest with
    | some (c, rest) => basicString fuel (c :: read) rest
    | none => none
  | fuel + 1, c :: rest =>
    if c = '"' then some (read.reverse, rest)
    else if isPlain c then basicString fuel (c :: read) rest
    else none
  | _, _ => none

/-- The rest after a backslash that hides the end of its line: the newline and all blanks after
it. -/
def hiddenBreak? (fuel : Nat) (cs : List Char) : Option (List Char) :=
  match newline? (skipSpaces cs) with
  | some rest => some (blanks fuel rest)
  | none => none
where
  /-- Skips blanks and newlines. -/
  blanks : Nat → List Char → List Char
    | 0, cs => cs
    | fuel + 1, cs =>
      let cs := skipSpaces cs
      match newline? cs with
      | some rest => blanks fuel rest
      | none => cs

/-- Reads a string in triple double quotes, after the opening ones. Up to two quotes may stand
before the closing ones. -/
def longBasicString (fuel : Nat) (read : List Char) : Reader (List Char) := fun cs =>
  match fuel, cs with
  | _ + 1, '"' :: '"' :: '"' :: '"' :: '"' :: rest => some (('"' :: '"' :: read).reverse, rest)
  | _ + 1, '"' :: '"' :: '"' :: '"' :: rest => some (('"' :: read).reverse, rest)
  | _ + 1, '"' :: '"' :: '"' :: rest => some (read.reverse, rest)
  | fuel + 1, '\\' :: rest =>
    match hiddenBreak? fuel rest with
    | some rest => longBasicString fuel read rest
    | none =>
      match escape rest with
      | some (c, rest) => longBasicString fuel (c :: read) rest
      | none => none
  | fuel + 1, c :: rest =>
    if c = '"' || isPlain c then longBasicString fuel (c :: read) rest
    else
      match newline? (c :: rest) with
      | some rest => longBasicString fuel ('\n' :: read) rest
      | none => none
  | _, _ => none

/-- Reads a string in single quotes, after the opening one. -/
def literalString (read : List Char) : Reader (List Char)
  | [] => none
  | c :: rest =>
    if c = '\'' then some (read.reverse, rest)
    else if isPrintable c then literalString (c :: read) rest
    else none

/-- Reads a string in triple single quotes, after the opening ones. -/
def longLiteralString (fuel : Nat) (read : List Char) : Reader (List Char) := fun cs =>
  match fuel, cs with
  | _ + 1, '\'' :: '\'' :: '\'' :: '\'' :: '\'' :: rest =>
    some (('\'' :: '\'' :: read).reverse, rest)
  | _ + 1, '\'' :: '\'' :: '\'' :: '\'' :: rest => some (('\'' :: read).reverse, rest)
  | _ + 1, '\'' :: '\'' :: '\'' :: rest => some (read.reverse, rest)
  | fuel + 1, c :: rest =>
    if isPrintable c then longLiteralString fuel (c :: read) rest
    else
      match newline? (c :: rest) with
      | some rest => longLiteralString fuel ('\n' :: read) rest
      | none => none
  | _, _ => none

/-- A newline right after the opening quotes of a long string does not count. -/
def skipFirstBreak (cs : List Char) : List Char := (newline? cs).getD cs

/-- Reads a string of any of the four kinds. -/
def string : Reader (List Char)
  | '"' :: '"' :: '"' :: rest => longBasicString (rest.length + 1) [] (skipFirstBreak rest)
  | '\'' :: '\'' :: '\'' :: rest => longLiteralString (rest.length + 1) [] (skipFirstBreak rest)
  | '"' :: rest => basicString (rest.length + 1) [] rest
  | '\'' :: rest => literalString [] rest
  | _ => none

/-! ## Keys -/

/-- Characters of a key without quotes. -/
def isBare (c : Char) : Bool :=
  ('a' ≤ c && c ≤ 'z') || ('A' ≤ c && c ≤ 'Z') || ('0' ≤ c && c ≤ '9') || c == '_' || c == '-'

/-- Reads one key without dots. -/
def simpleKey (cs : List Char) : Option (List Char × List Char) :=
  match cs with
  | '"' :: rest => basicString (rest.length + 1) [] rest
  | '\'' :: rest => literalString [] rest
  | _ =>
    match cs.span isBare with
    | ([], _) => none
    | found => some found

/-- Reads keys with dots between them and blanks around them; at most `fuel` of them. -/
def keys (fuel : Nat) (read : List String) : Reader (List String) := fun cs =>
  match fuel with
  | 0 => none
  | fuel + 1 =>
    match simpleKey (skipSpaces cs) with
    | none => none
    | some (key, rest) =>
      let read := String.ofList key :: read
      match skipSpaces rest with
      | '.' :: rest => keys fuel read rest
      | rest => some (read.reverse, rest)

/-! ## Numbers -/

/-- Reads digits of some base after the first one; an underscore may stand between two of
them. -/
def moreDigits (isDigit : Char → Bool) (read : List Char) : List Char → List Char × List Char
  | '_' :: c :: rest =>
    if isDigit c then moreDigits isDigit (c :: read) rest else (read.reverse, '_' :: c :: rest)
  | c :: rest =>
    if isDigit c then moreDigits isDigit (c :: read) rest else (read.reverse, c :: rest)
  | [] => (read.reverse, [])

/-- Reads one digit or more. -/
def digits (isDigit : Char → Bool) : Reader (List Char)
  | c :: rest => if isDigit c then some (moreDigits isDigit [c] rest) else none
  | [] => none

/-- Decimal digits. -/
def isDecimal (c : Char) : Bool := '0' ≤ c && c ≤ '9'

/-- Reads a sign, if there is one, and tells whether it is a minus. -/
def sign : List Char → Bool × List Char
  | '-' :: rest => (true, rest)
  | '+' :: rest => (false, rest)
  | cs => (false, cs)

/-- Reads the digits of a decimal number; a zero stands alone. -/
def decimalDigits : Reader (List Char)
  | '0' :: rest => some (['0'], rest)
  | cs => digits isDecimal cs

/-- Reads an integer of 64 bits. -/
def integer (cs : List Char) : Option (Int × List Char) :=
  let based (base : Nat) (isDigit : Char → Bool) (cs : List Char) : Option (Int × List Char) :=
    match digits isDigit cs with
    | none => none
    | some (ds, rest) =>
      let n := ds.foldl (fun n c => base * n + (hexDigit? c).getD 0) 0
      if n ≤ 9223372036854775807 then some ((n : Int), rest) else none
  match cs with
  | '0' :: 'x' :: rest => based 16 (fun c => (hexDigit? c).isSome) rest
  | '0' :: 'o' :: rest => based 8 (fun c => '0' ≤ c && c ≤ '7') rest
  | '0' :: 'b' :: rest => based 2 (fun c => c == '0' || c == '1') rest
  | _ =>
    let (negative, cs) := sign cs
    match decimalDigits cs with
    | none => none
    | some (ds, rest) =>
      match Decimal.readNat ds with
      | none => none
      | some n =>
        let n : Int := if negative then -(n : Int) else n
        if -9223372036854775808 ≤ n ∧ n ≤ 9223372036854775807 then some (n, rest) else none

/-- Reads an exponent. -/
def exponent : Reader Int
  | c :: rest =>
    if c = 'e' ∨ c = 'E' then
      let (negative, rest) := sign rest
      match digits isDecimal rest with
      | none => none
      | some (ds, rest) =>
        (Decimal.readNat ds).map fun n => (if negative then -(n : Int) else n, rest)
    else none
  | [] => none

/-- Skips a float: an integer with a fraction or an exponent or both, or one of the two special
names. It may not be too large. -/
def float? (cs : List Char) : Option (List Char) :=
  let (negative, cs) := sign cs
  match cs with
  | 'i' :: 'n' :: 'f' :: rest => some rest
  | 'n' :: 'a' :: 'n' :: rest => some rest
  | _ =>
    match decimalDigits cs with
    | none => none
    | some (whole, rest) =>
      let fraction : Option (List Char × List Char) := match rest with
        | '.' :: rest => digits isDecimal rest
        | _ => if (exponent rest).isSome then some ([], rest) else none
      match fraction with
      | none => none
      | some (fraction, rest) =>
        let (e, rest) := (exponent rest).getD (0, rest)
        match Decimal.readNat (whole ++ fraction) with
        | none => none
        | some n =>
          if Double.ofDecimal negative n (e - fraction.length) = Double.infinity false then none
          else some rest

/-! ## Dates and times -/

/-- Reads a number of two digits in a range. -/
def twoDigits (low high : Nat) : Reader Nat
  | a :: b :: rest =>
    if isDecimal a && isDecimal b then
      let n := 10 * (a.toNat - 48) + (b.toNat - 48)
      if low ≤ n ∧ n ≤ high then some (n, rest) else none
    else none
  | _ => none

/-- The number of days of a month. -/
def monthDays (year month : Nat) : Nat :=
  if month = 2 then
    if year % 4 = 0 ∧ (year % 100 ≠ 0 ∨ year % 400 = 0) then 29 else 28
  else if month = 4 ∨ month = 6 ∨ month = 9 ∨ month = 11 then 30
  else 31

/-- Skips a date. -/
def date? : List Char → Option (List Char)
  | a :: b :: c :: d :: '-' :: rest =>
    match Decimal.readNat [a, b, c, d], twoDigits 1 12 rest with
    | some year, some (month, '-' :: rest) =>
      (twoDigits 1 (monthDays year month) rest).map Prod.snd
    | _, _ => none
  | _ => none

/-- Skips a time of day. -/
def time? (cs : List Char) : Option (List Char) :=
  match twoDigits 0 23 cs with
  | some (_, ':' :: rest) =>
    match twoDigits 0 59 rest with
    | some (_, ':' :: rest) =>
      match twoDigits 0 60 rest with
      | some (_, '.' :: c :: rest) =>
        if isDecimal c then some (rest.dropWhile isDecimal) else none
      | some (_, '.' :: []) => none
      | some (_, rest) => some rest
      | none => none
    | _ => none
  | _ => none

/-- Skips the offset of a time from universal time. -/
def offset? : List Char → Option (List Char)
  | 'Z' :: rest | 'z' :: rest => some rest
  | c :: rest =>
    if c = '+' ∨ c = '-' then
      match twoDigits 0 23 rest with
      | some (_, ':' :: rest) => (twoDigits 0 59 rest).map Prod.snd
      | _ => none
    else none
  | [] => none

/-- Skips a date, a time or both. -/
def datetime? (cs : List Char) : Option (List Char) :=
  match date? cs with
  | none => time? cs
  | some rest =>
    match rest with
    | c :: more =>
      if c = 'T' ∨ c = 't' ∨ c = ' ' then
        match time? more with
        | none => some rest
        | some rest => some ((offset? rest).getD rest)
      else some rest
    | [] => some []

end StackMachine.Toml
