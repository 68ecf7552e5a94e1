import StackMachine.Assembly.Error
import StackMachine.Text.Blank

/-!
# Assembly text

Assembly text is read line by line. What follows a `#` is a comment; the rest of a line is cut
into words at blanks and commas. A line is a directive, a label that stands alone and ends with
a colon, or an instruction with at most one operand:

* `.globals N` sets the number of global slots and `.entry F` the function to start with;
* `.func NAME arity=A locals=L` opens a function and `.end` closes it.

`Source.parse` gives the functions with their labels and instruction lines in order; mnemonics
and operands are still words.
-/

namespace StackMachine.Assembly

/-- An instruction line. -/
structure Statement where
  line : Nat
  mnemonic : String
  operand : Option String
deriving DecidableEq, Repr, Inhabited

/-- What the body of a function consists of. -/
inductive Item where
  | label (line : Nat) (name : String)
  | instr (statement : Statement)
deriving DecidableEq, Repr, Inhabited

/-- A function as it is written. -/
structure Definition where
  name : String
  arity : UInt8
  locals : UInt8
  items : Array Item
deriving DecidableEq, Repr, Inhabited

/-- The parts of assembly text. The entry is kept with its line. -/
structure Source where
  globals : UInt16
  entry : Option (Nat × String)
  functions : Array Definition
deriving DecidableEq, Repr, Inhabited

/-! ## Words -/

/-- A line without its comment. -/
def withoutComment (line : List Char) : List Char := line.takeWhile (· ≠ '#')

/-- Blanks and commas stand between words. -/
def isSeparator (c : Char) : Bool := Text.isBlank c || c == ','

/-- The words of a line. -/
def lineWords (line : List Char) : List String :=
  (Text.words isSeparator (withoutComment line)).map String.ofList

/-- The lines of a text that have words, with their numbers. -/
def numberedLines (text : List Char) : List (Nat × List String) :=
  ((Text.pieces (· == '\n') text).zipIdx 1).map fun (line, n) => (n, lineWords line)

/-! ## Numbers -/

/-- Reads an unsigned number of at most `max`. -/
def readUnsigned (line max : Nat) (word : String) : Except Error Nat :=
  match Decimal.readUnsigned max word.toList with
  | some n => .ok n
  | none => .error (.grammar line (.invalidNumber word))

/-- Reads a number of eight bits. -/
def readUInt8 (line : Nat) (word : String) : Except Error UInt8 :=
  (readUnsigned line 255 word).map UInt8.ofNat

/-- Reads a number of sixteen bits. -/
def readUInt16 (line : Nat) (word : String) : Except Error UInt16 :=
  (readUnsigned line 65535 word).map UInt16.ofNat

/-! ## Lines -/

/-- The arity and the locals of a function header, read so far. -/
structure Attributes where
  arity : UInt8
  locals : Option UInt8

/-- Reads one `key=value` attribute. -/
def Attributes.add (line : Nat) (attributes : Attributes) (word : String) :
    Except Error Attributes :=
  let chars := word.toList
  let key := chars.takeWhile (· ≠ '=')
  match chars.dropWhile (· ≠ '=') with
  | [] => .error (.grammar line (.attributeWithoutValue word))
  | _ :: value =>
    let value := String.ofList value
    if key = "arity".toList then
      (readUInt8 line value).map fun n => { attributes with arity := n }
    else if key = "locals".toList then
      (readUInt8 line value).map fun n => { attributes with locals := some n }
    else .error (.grammar line (.unknownAttribute (String.ofList key)))

/-- Reads the words after `.func`. Without the attribute, a function has no locals but its
parameters. -/
def readHeader (line : Nat) : List String → Except Error Definition
  | [] => .error (.grammar line .functionWithoutName)
  | name :: words =>
    match words.foldlM (Attributes.add line) ⟨0, none⟩ with
    | .error e => .error e
    | .ok ⟨arity, locals⟩ =>
      let locals := locals.getD arity
      if locals < arity then .error (.grammar line .localsBelowArity)
      else .ok ⟨name, arity, locals, #[]⟩

/-- The text read so far and the function that is still open. -/
structure Draft where
  source : Source
  current : Option Definition

namespace Draft

/-- Nothing is read yet. -/
def empty : Draft := ⟨⟨0, none, #[]⟩, none⟩

/-- Adds an item to the open function. -/
def addItem (draft : Draft) (current : Definition) (item : Item) : Draft :=
  { draft with current := some { current with items := current.items.push item } }

/-- A word that is a label: it ends with a colon. -/
def isLabel (word : String) : Bool := word.toList.getLast? == some ':'

/-- The name of a label, without the colons at its end. -/
def labelName (word : String) : List Char :=
  (word.toList.reverse.dropWhile (· == ':')).reverse

/-- Reads a label. -/
def addLabel (draft : Draft) (line : Nat) (word : String) : Except Error Draft :=
  match draft.current with
  | none => .error (.grammar line .labelOutsideFunction)
  | some current =>
    let name := labelName word
    if name.isEmpty then .error (.grammar line .emptyLabel)
    else .ok (draft.addItem current (.label line (String.ofList name)))

/-- Reads an instruction. -/
def addInstr (draft : Draft) (line : Nat) (mnemonic : String) (operands : List String) :
    Except Error Draft :=
  match draft.current with
  | none => .error (.grammar line .instructionOutsideFunction)
  | some current =>
    match operands with
    | [] => .ok (draft.addItem current (.instr ⟨line, mnemonic, none⟩))
    | [operand] => .ok (draft.addItem current (.instr ⟨line, mnemonic, some operand⟩))
    | _ => .error (.grammar line .tooManyOperands)

/-- Reads the words of a line. Words after the last one that a directive needs are ignored. -/
def addLine (draft : Draft) (line : Nat) : List String → Except Error Draft
  | [] => .ok draft
  | first :: rest =>
    if first = ".globals" then
      match rest with
      | [] => .error (.grammar line .globalsWithoutCount)
      | count :: _ =>
        (readUInt16 line count).map fun n =>
          { draft with source := { draft.source with globals := n } }
    else if first = ".entry" then
      match rest with
      | [] => .error (.grammar line .entryWithoutFunction)
      | name :: _ =>
        .ok { draft with source := { draft.source with entry := some (line, name) } }
    else if first = ".func" then
      match draft.current with
      | some current => .error (.unterminatedFunction current.name)
      | none => (readHeader line rest).map fun f => { draft with current := some f }
    else if first = ".end" then
      match draft.current with
      | none => .error (.grammar line .endOutsideFunction)
      | some f =>
        .ok ⟨{ draft.source with functions := draft.source.functions.push f }, none⟩
    else if first.toList.head? = some '.' then
      .error (.grammar line (.unknownDirective first))
    else if isLabel first && rest.isEmpty then
      draft.addLabel line first
    else
      draft.addInstr line first rest

end Draft

/-- Reads assembly text. -/
def Source.parse (text : String) : Except Error Source :=
  match (numberedLines text.toList).foldlM (fun d (line, words) => d.addLine line words)
      Draft.empty with
  | .error e => .error e
  | .ok draft =>
    match draft.current with
    | some f => .error (.unterminatedFunction f.name)
    | none => .ok draft.source

end StackMachine.Assembly
