/-!
# TOML documents as trees

A document is a table: a list of keys with their nodes. A table remembers how it came about,
because that decides whether it may be extended later: a table may be opened by a header once,
keys with dots extend only tables made by keys with dots, and an inline table is closed for good.
-/

namespace StackMachine.Toml

/-- How a table came about: by a header of its own, by a longer header, by a key with dots, or
between braces. -/
inductive Origin where
  | header | longerHeader | dottedKey | inline
deriving DecidableEq, Repr, Inhabited

/-- A value in a document. Of floats and dates only the presence is kept. -/
inductive Node where
  | string (text : String)
  | integer (n : Int)
  | float
  | boolean (b : Bool)
  | datetime
  | array (items : List Node)
  | table (origin : Origin) (entries : List (String × Node))
  /-- The tables of headers in double brackets, in order. -/
  | tables (items : List (List (String × Node)))
deriving Inhabited

/-- The keys of a table with their nodes. -/
abbrev Entries := List (String × Node)

namespace Entries

/-- The node of a key. -/
def find? (entries : Entries) (key : String) : Option Node := List.lookup key entries

/-- Gives a key a new node, at the end if it had none. -/
def set (entries : Entries) (key : String) (node : Node) : Entries :=
  match entries with
  | [] => [(key, node)]
  | (k, n) :: rest => if k = key then (k, node) :: rest else (k, n) :: set rest key node

/-- Removes a key. -/
def erase (entries : Entries) (key : String) : Entries := entries.filter fun (k, _) => k ≠ key

/-- Adds a key with its value under a path of further keys. Tables on the way are made, or must
not have a header of their own; of several tables the last one is meant. The table that gets the
key must be one of keys with dots. -/
def addDotted (entries : Entries) (path : List String) (key : String) (node : Node) :
    Option Entries :=
  match path with
  | [] =>
    match entries.find? key with
    | none => some (entries.set key node)
    | some _ => none
  | step :: path =>
    match entries.find? step with
    | none =>
      (addDotted [] path key node).map fun es => entries.set step (.table .dottedKey es)
    | some (.table origin es) =>
      if origin = .dottedKey ∨ (origin = .longerHeader ∧ path ≠ []) then
        (addDotted es path key node).map fun es => entries.set step (.table origin es)
      else none
    | some (.tables items) =>
      match items.getLast? with
      | none => none
      | some es =>
        if path = [] then none
        else
          (addDotted es path key node).map fun es =>
            entries.set step (.tables (items.dropLast ++ [es]))
    | some _ => none

/-- Does something with the table at the end of a path of header keys. Tables on the way are
made if they are missing, and of several tables the last one is meant. -/
def descend {α : Type} (entries : Entries) (path : List String)
    (act : Entries → Option (α × Entries)) : Option (α × Entries) :=
  match path with
  | [] => act entries
  | step :: path =>
    match entries.find? step with
    | none =>
      (descend [] path act).map fun (a, es) => (a, entries.set step (.table .longerHeader es))
    | some (.table origin es) =>
      if origin = .inline then none
      else (descend es path act).map fun (a, es) => (a, entries.set step (.table origin es))
    | some (.tables items) =>
      match items.getLast? with
      | none => none
      | some es =>
        (descend es path act).map fun (a, es) =>
          (a, entries.set step (.tables (items.dropLast ++ [es])))
    | some _ => none

end Entries

/-- A document while it is read: the finished tables, and the one that keys are added to, with
its path and whether it is one of several. -/
structure Draft where
  root : Entries
  current : Entries
  path : List String
  several : Bool
deriving Inhabited

namespace Draft

/-- Nothing is read yet. -/
def empty : Draft := ⟨[], [], [], false⟩

/-- Puts the current table into its place. -/
def close (d : Draft) : Option Entries :=
  match d.path.getLast? with
  | none => some d.current
  | some key =>
    let place := fun (es : Entries) =>
      if d.several then
        match es.find? key with
        | some (.tables items) => some ((), es.set key (.tables (items ++ [d.current])))
        | _ => none
      else
        match es.find? key with
        | none => some ((), es.set key (.table .header d.current))
        | some _ => none
    (d.root.descend d.path.dropLast place).map Prod.snd

/-- Opens the table of a header in single brackets. It may continue a table that longer headers
have brought about. -/
def openTable (d : Draft) (path : List String) : Option Draft :=
  match d.close, path.getLast? with
  | some root, some key =>
    let begin := fun (es : Entries) =>
      match es.find? key with
      | none => some ([], es)
      | some (.table .longerHeader entries) => some (entries, es.erase key)
      | some _ => none
    (root.descend path.dropLast begin).map fun (current, root) => ⟨root, current, path, false⟩
  | _, _ => none

/-- Opens the next table of a header in double brackets. -/
def openNext (d : Draft) (path : List String) : Option Draft :=
  match d.close, path.getLast? with
  | some root, some key =>
    let begin := fun (es : Entries) =>
      match es.find? key with
      | none => some ((), es.set key (.tables []))
      | some (.tables _) => some ((), es)
      | some _ => none
    (root.descend path.dropLast begin).map fun (_, root) => ⟨root, [], path, true⟩
  | _, _ => none

/-- Adds a key with its value to the current table. -/
def add (d : Draft) (keys : List String) (node : Node) : Option Draft :=
  match keys.getLast? with
  | none => none
  | some key =>
    (d.current.addDotted keys.dropLast key node).map fun current => { d with current }

end Draft

end StackMachine.Toml
