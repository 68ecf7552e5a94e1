import StackMachine.Assembly.Source
import StackMachine.Double.Reading
import StackMachine.Image.Format

/-!
# From assembly text to an image

Functions are numbered in the order of their definitions. Within a function the first pass gives
every label its offset, and the second reads the operands: a jump takes a label of its function
or a byte offset, a call takes the name or the number of a function, and everything else a
number.
-/

namespace StackMachine.Assembly

/-- The functions of a text by name, with their numbers. -/
abbrev Names := List (String × UInt16)

/-- The labels of a function, with their offsets. -/
abbrev Labels := List (String × Nat)

/-- A function by name, or else by number. -/
def resolveFunction (names : Names) (line : Nat) (word : String) : Except Error UInt16 :=
  match names.lookup word with
  | some index => .ok index
  | none =>
    match Decimal.readUnsigned 65535 word.toList with
    | some n =>
      if n < names.length then .ok (UInt16.ofNat n) else .error (.undefinedFunction line word)
    | none => .error (.undefinedFunction line word)

/-- The offset of a jump that ends at `next`. -/
def resolveJump (labels : Labels) (line next : Nat) (word : String) : Except Error Int32 :=
  let offset : Except Error Int := match labels.lookup word with
    | some target => .ok ((target : Int) - next)
    | none =>
      match Decimal.readInt64 word.toList with
      | some n => .ok n.toInt
      | none => .error (.undefinedLabel line word)
  match offset with
  | .error e => .error e
  | .ok offset =>
    if -2147483648 ≤ offset ∧ offset ≤ 2147483647 then .ok (Int32.ofInt offset)
    else .error (.grammar line .jumpTooFar)

/-- Reads the operand of an instruction at offset `pc` that has the given mnemonic. -/
def resolveOperand (names : Names) (labels : Labels) (line pc : Nat) (mnemonic word : String) :
    Except Error Instr :=
  let jump (branch : Branch) : Except Error Instr :=
    (resolveJump labels line (pc + (Instr.jump branch 0).size) word).map (.jump branch)
  match mnemonic with
  | "push_int" =>
    match Decimal.readInt64 word.toList with
    | some n => .ok (.pushInt n)
    | none => .error (.grammar line (.invalidNumber word))
  | "push_double" =>
    match Double.read word.toList with
    | some pattern => .ok (.pushDouble pattern)
    | none => .error (.grammar line (.invalidNumber word))
  | "jmp" => jump .always
  | "jz" => jump .ifZero
  | "jnz" => jump .ifNotZero
  | "call" => (resolveFunction names line word).map .call
  | "load_local" => (readUInt8 line word).map .loadLocal
  | "store_local" => (readUInt8 line word).map .storeLocal
  | "load_global" => (readUInt16 line word).map .loadGlobal
  | "store_global" => (readUInt16 line word).map .storeGlobal
  | _ => .error (.unknownInstruction line mnemonic)

/-- The instruction of a statement at offset `pc`. -/
def resolve (names : Names) (labels : Labels) (pc : Nat) (s : Statement) : Except Error Instr :=
  match Instr.ofPlainName? s.mnemonic, s.operand with
  | some i, none => .ok i
  | some _, some _ => .error (.grammar s.line (.unexpectedOperand s.mnemonic))
  | none, none => .error (.grammar s.line (.missingOperand s.mnemonic))
  | none, some word => resolveOperand names labels s.line pc s.mnemonic word

/-- The outcome of the first pass: offsets of the labels, the statements with their offsets, and
the end of the code. -/
structure Layout where
  labels : Labels
  placed : Array (Nat × Statement)
  size : Nat

/-- Places one more item. -/
def Layout.add (layout : Layout) : Item → Except Error Layout
  | .label line name =>
    if (layout.labels.lookup name).isSome then .error (.duplicateLabel line name)
    else .ok { layout with labels := (name, layout.size) :: layout.labels }
  | .instr s =>
    match Instr.placeholder? s.mnemonic with
    | none => .error (.unknownInstruction s.line s.mnemonic)
    | some i =>
      .ok { layout with
        placed := layout.placed.push (layout.size, s)
        size := layout.size + i.size }

/-- The first pass over a function. -/
def Definition.layout (f : Definition) : Except Error Layout :=
  f.items.toList.foldlM Layout.add ⟨[], #[], 0⟩

/-- The instructions of a function. -/
def Definition.instrs (f : Definition) (names : Names) : Except Error (List Instr) :=
  match f.layout with
  | .error e => .error e
  | .ok layout =>
    layout.placed.toList.mapM fun (pc, s) => resolve names layout.labels pc s

/-- The functions by name; a name may be used once. -/
def namesOf (functions : List Definition) : Except Error Names :=
  (functions.zipIdx).foldlM (fun names (f, index) =>
    if (names.lookup f.name).isSome then .error (.duplicateFunction f.name)
    else .ok ((f.name, UInt16.ofNat index) :: names)) []

/-- Assembles one function. -/
def Definition.assemble (f : Definition) (names : Names) (index : Nat) :
    Except Error Image.Function :=
  (f.instrs names).map fun is => ⟨UInt16.ofNat index, f.arity, f.locals, Code.ofInstrs is⟩

/-- Puts an image together. -/
def Source.assemble (source : Source) : Except Error Image :=
  let functions := source.functions.toList
  if functions.isEmpty then .error .empty
  else
    match namesOf functions with
    | .error e => .error e
    | .ok names =>
      let entry : Except Error UInt16 := match source.entry with
        | none => .ok 0
        | some (line, word) => resolveFunction names line word
      match entry with
      | .error e => .error e
      | .ok entry =>
        match functions.zipIdx.mapM (fun (f, index) => Definition.assemble f names index) with
        | .error e => .error e
        | .ok functions => .ok ⟨Image.formatVersion, source.globals, entry, functions.toArray⟩

end StackMachine.Assembly

namespace StackMachine

open Assembly in
/-- Assembles a text. -/
def assemble (text : String) : Except Assembly.Error Image :=
  match Source.parse text with
  | .error e => .error e
  | .ok source => source.assemble

/-- Assembles a text into the binary form of its image. -/
def assembleToBytes (text : String) : Except Assembly.Error (List UInt8) :=
  (assemble text).map Image.serialize

end StackMachine
