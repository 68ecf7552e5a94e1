import StackMachine.Text.Decimal

/-!
# Records as indented text

Numbers, truth values, lists and records with named fields, written as JSON with two blanks of
indentation for every level.
-/

namespace StackMachine

/-- Data with named fields. Names hold no character that would have to be escaped. -/
inductive Record where
  | number (n : Nat)
  | boolean (b : Bool)
  | list (items : List Record)
  | fields (entries : List (String × Record))
deriving Inhabited

namespace Record

/-- The blanks in front of a line at the given depth. -/
def indent (depth : Nat) : String := String.ofList (List.replicate (2 * depth) ' ')

mutual

/-- The text of a record whose first line is already indented. -/
def pretty (depth : Nat) : Record → String
  | number n => Decimal.ofNat n
  | boolean b => if b then "true" else "false"
  | list [] => "[]"
  | list items => "[\n" ++ prettyItems (depth + 1) items ++ indent depth ++ "]"
  | fields [] => "\x7b\x7d"
  | fields entries => "\x7b\n" ++ prettyEntries (depth + 1) entries ++ indent depth ++ "\x7d"

/-- The lines of the items of a list. -/
def prettyItems (depth : Nat) : List Record → String
  | [] => ""
  | item :: rest =>
    indent depth ++ item.pretty depth ++ (if rest.isEmpty then "\n" else ",\n")
      ++ prettyItems depth rest

/-- The lines of the fields of a record. -/
def prettyEntries (depth : Nat) : List (String × Record) → String
  | [] => ""
  | (name, item) :: rest =>
    indent depth ++ "\"" ++ name ++ "\": " ++ item.pretty depth
      ++ (if rest.isEmpty then "\n" else ",\n") ++ prettyEntries depth rest

end

end Record

end StackMachine
