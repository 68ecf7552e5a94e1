/-!
# Files

A folder in memory: files by name, and paths that lead to them from the folder. A name may lie in
folders of its own (`lib/a`), which exist as long as a file lies in them.
-/

namespace StackMachine

/-- Why a file could not be read or written. -/
inductive FileError where
  | notFound | notDirectory | isDirectory | nameTooLong
  /-- The file was expected to be text. -/
  | notText
  | other (message : String)
deriving DecidableEq, Repr, Inhabited

/-- The text of the error. -/
def FileError.message : FileError → String
  | notFound => "No such file or directory (os error 2)"
  | notDirectory => "Not a directory (os error 20)"
  | isDirectory => "Is a directory (os error 21)"
  | nameTooLong => "File name too long (os error 36)"
  | notText => "stream did not contain valid UTF-8"
  | other message => message

namespace Path

/-- The parts of a path between its slashes. -/
def parts (path : String) : List (List Char) :=
  path.toList.foldr (fun c acc =>
    if c = '/' then [] :: acc
    else
      match acc with
      | part :: rest => (c :: part) :: rest
      | [] => [[c]]) [[]]

/-- The last part that names something; a path that ends by going up names nothing. -/
def name? (path : String) : Option (List Char) :=
  match (parts path).filter fun p => p ≠ [] ∧ p ≠ ['.'] with
  | [] => none
  | first :: rest =>
    let last := rest.getLastD first
    if last = ['.', '.'] then none else some last

/-- The extension of a path: what follows the last dot of its name, unless the name starts with
that dot. -/
def extension? (path : String) : Option (List Char) :=
  match name? path with
  | none => none
  | some name =>
    let reversed := name.reverse
    match reversed.dropWhile (· ≠ '.') with
    | _ :: _ :: _ => some (reversed.takeWhile (· ≠ '.')).reverse
    | _ => none

end Path

/-- Files by the parts of their names. -/
structure Folder where
  files : List (List (List Char) × ByteArray)
deriving Inhabited

namespace Folder

/-- What a path leads to. -/
inductive Place where
  | file (name : List (List Char)) (bytes : ByteArray)
  | directory
  /-- Nothing, but a file of this name could be made. -/
  | vacant (name : List (List Char))
deriving Inhabited

/-- The contents of the file with the given name. -/
def find? (folder : Folder) (name : List (List Char)) : Option ByteArray :=
  folder.files.lookup name

/-- Whether files lie under a name. -/
def isDirectory (folder : Folder) (name : List (List Char)) : Bool :=
  name.isEmpty || folder.files.any fun (n, _) => name.length < n.length && name.isPrefixOf n

/-- Follows the parts of a path from a directory. -/
def follow (folder : Folder) (here : List (List Char)) : List (List Char) → Except FileError Place
  | [] => .ok .directory
  | part :: rest =>
    if part = [] ∨ part = ['.'] then folder.follow here rest
    else if part = ['.', '.'] then
      if here = [] then .error .notFound else folder.follow here.dropLast rest
    else if 255 < (String.ofList part).utf8ByteSize then .error .nameTooLong
    else
      let name := here ++ [part]
      match folder.find? name with
      | some bytes => if rest = [] then .ok (.file name bytes) else .error .notDirectory
      | none =>
        if folder.isDirectory name then folder.follow name rest
        else if rest = [] then .ok (.vacant name)
        else .error .notFound

/-- What a path leads to. A path from the root of the file system leaves the folder. -/
def place (folder : Folder) (path : String) : Except FileError Place :=
  match Path.parts path with
  | [] :: _ => .error .notFound
  | parts => folder.follow [] parts

/-- Reads a file. -/
def read (folder : Folder) (path : String) : Except FileError ByteArray :=
  match folder.place path with
  | .ok (.file _ bytes) => .ok bytes
  | .ok .directory => .error .isDirectory
  | .ok (.vacant _) => .error .notFound
  | .error e => .error e

/-- Puts a file at the end of a path; an older one is replaced. -/
def put (folder : Folder) (path : String) (bytes : ByteArray) : Except FileError Folder :=
  match folder.place path with
  | .ok (.file name _) | .ok (.vacant name) =>
    .ok ⟨folder.files.filter (fun (n, _) => n ≠ name) ++ [(name, bytes)]⟩
  | .ok .directory => .error .isDirectory
  | .error e => .error e

/-- Writes a file. A path that ends in a slash means a directory, whether it exists or not. -/
def write (folder : Folder) (path : String) (bytes : ByteArray) : Except FileError Folder :=
  let reversed := path.toList.reverse
  match reversed with
  | '/' :: _ =>
    match folder.place (String.ofList (reversed.dropWhile (· = '/')).reverse) with
    | .ok _ => .error .isDirectory
    | .error e => .error e
  | _ => folder.put path bytes

/-- The files by their names. -/
def toList (folder : Folder) : List (String × ByteArray) :=
  folder.files.map fun (name, bytes) =>
    (String.ofList (List.intercalate ['/'] name), bytes)

/-- A folder with the given files. -/
def ofList (files : List (String × ByteArray)) : Folder :=
  ⟨files.map fun (name, bytes) => (Path.parts name, bytes)⟩

end Folder

end StackMachine
