import StackMachine.Toml.Lexeme
import StackMachine.Toml.Node

/-!
# Reading TOML

A document is a sequence of lines: `key = value`, headers in single or double brackets, and
lines without content. `parse` gives the top table, or nothing if the text is no TOML 1.0
document. Arrays and inline tables may be nested up to a fixed depth.
-/

namespace StackMachine.Toml

/-- The most levels of nesting, and the most keys in a path. -/
def nestingLimit : Nat := 79

mutual

/-- Reads a value at some depth of nesting. -/
def value (fuel depth : Nat) (cs : List Char) : Option (Node × List Char) :=
  match fuel with
  | 0 => none
  | fuel + 1 =>
    match cs with
    | '"' :: _ | '\'' :: _ => (string cs).map fun (s, rest) => (.string (String.ofList s), rest)
    | '[' :: rest =>
      if depth < nestingLimit then arrayItems fuel (depth + 1) [] rest else none
    | '\x7b' :: rest =>
      if depth < nestingLimit then inlineEntries fuel (depth + 1) [] rest else none
    | 't' :: 'r' :: 'u' :: 'e' :: rest => some (.boolean true, rest)
    | 'f' :: 'a' :: 'l' :: 's' :: 'e' :: rest => some (.boolean false, rest)
    | _ =>
      match datetime? cs with
      | some rest => some (.datetime, rest)
      | none =>
        match float? cs with
        | some rest => some (.float, rest)
        | none => (integer cs).map fun (n, rest) => (.integer n, rest)

/-- Reads the items of an array up to its closing bracket. A comma may follow the last one. -/
def arrayItems (fuel depth : Nat) (read : List Node) (cs : List Char) :
    Option (Node × List Char) :=
  match fuel with
  | 0 => none
  | fuel + 1 =>
    match skipLines (cs.length + 1) cs with
    | ']' :: rest => some (.array read.reverse, rest)
    | cs =>
      match value fuel depth cs with
      | none => none
      | some (node, rest) =>
        match skipLines (rest.length + 1) rest with
        | ',' :: rest => arrayItems fuel depth (node :: read) rest
        | ']' :: rest => some (.array (node :: read).reverse, rest)
        | _ => none

/-- Reads the entries of an inline table up to its closing brace. -/
def inlineEntries (fuel depth : Nat) (read : Entries) (cs : List Char) :
    Option (Node × List Char) :=
  match fuel with
  | 0 => none
  | fuel + 1 =>
    match skipSpaces cs, read with
    | '\x7d' :: rest, [] => some (.table .inline [], rest)
    | cs, _ =>
      match keys nestingLimit [] cs with
      | some (path, '=' :: rest) =>
        match value fuel depth (skipSpaces rest), path.getLast? with
        | some (node, rest), some key =>
          match read.addDotted path.dropLast key node with
          | none => none
          | some read =>
            match skipSpaces rest with
            | ',' :: rest => inlineEntries fuel depth read rest
            | '\x7d' :: rest => some (.table .inline read, rest)
            | _ => none
        | _, _ => none
      | _ => none

end

/-- Reads a line that starts with a bracket. -/
def header (d : Draft) (cs : List Char) : Option (Draft × List Char) :=
  match cs with
  | '[' :: '[' :: rest =>
    match keys nestingLimit [] rest with
    | some (path, ']' :: ']' :: rest) =>
      match d.openNext path, lineEnd? rest with
      | some d, some rest => some (d, rest)
      | _, _ => none
    | _ => none
  | '[' :: rest =>
    match keys nestingLimit [] rest with
    | some (path, ']' :: rest) =>
      match d.openTable path, lineEnd? rest with
      | some d, some rest => some (d, rest)
      | _, _ => none
    | _ => none
  | _ => none

/-- Reads a line with a key and its value. -/
def keyValue (d : Draft) (cs : List Char) : Option (Draft × List Char) :=
  match keys nestingLimit [] cs with
  | some (path, '=' :: rest) =>
    match value (2 * rest.length + 2) 0 (skipSpaces rest) with
    | none => none
    | some (node, rest) =>
      match d.add path node, lineEnd? rest with
      | some d, some rest => some (d, rest)
      | _, _ => none
  | _ => none

/-- Reads line after line; the number bounds them. -/
def lines (fuel : Nat) (d : Draft) (cs : List Char) : Option Draft :=
  match fuel with
  | 0 => none
  | fuel + 1 =>
    match skipSpaces cs with
    | [] => some d
    | '[' :: rest =>
      match header d ('[' :: rest) with
      | some (d, rest) => lines fuel d rest
      | none => none
    | c :: rest =>
      if c = '#' ∨ c = '\n' ∨ c = '\r' then
        match lineEnd? (c :: rest) with
        | some rest => lines fuel d rest
        | none => none
      else
        match keyValue d (c :: rest) with
        | some (d, rest) => lines fuel d rest
        | none => none

/-- Reads a document. A byte order mark in front is skipped. -/
def parse (text : String) : Option Entries :=
  let cs := match text.toList with
    | '\uFEFF' :: rest => rest
    | cs => cs
  match lines (cs.length + 1) .empty cs with
  | some d => d.close
  | none => none

end StackMachine.Toml
