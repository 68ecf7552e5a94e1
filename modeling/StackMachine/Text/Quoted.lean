import StackMachine.Text.Hex
import StackMachine.Text.Hidden

/-!
# Quoted text

A text between double quotes, in which the quote, the backslash, the common control characters
and all hidden characters are written as escapes.
-/

namespace StackMachine.Text

/-- How one character is written between quotes. -/
def escape (c : Char) : String :=
  if c = '\x00' then "\\0"
  else if c = '\t' then "\\t"
  else if c = '\r' then "\\r"
  else if c = '\n' then "\\n"
  else if c = '"' then "\\\""
  else if c = '\\' then "\\\\"
  else if isHidden c then "\\u\x7b" ++ Hex.ofNat 1 c.toNat ++ "\x7d"
  else c.toString

/-- The text in double quotes. -/
def quoted (cs : List Char) : String :=
  cs.foldl (fun text c => text ++ escape c) "\"" ++ "\""

end StackMachine.Text
