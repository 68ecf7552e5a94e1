import StackMachine.Command.Statistics

/-!
# Command lines

A command line names a command, then its operand and its options in any order. An option is
written `--name value` or `--name=value`; behind `--` everything is an operand. No option is
given twice. A line that does not fit is a usage error.
-/

namespace StackMachine.Command

/-! ## Options and operands -/

/-- Whether an option takes a value: never, if one is joined to it, or always. -/
inductive Takes where
  | nothing | joined | value
deriving DecidableEq, Repr, Inhabited

/-- An option that a command knows. -/
structure Switch where
  name : List Char
  short : Option Char := none
  takes : Takes
deriving Inhabited

/-- A command line taken apart. -/
structure Arguments where
  /-- The options with their values, in order. -/
  options : List (List Char × Option String)
  operands : List String
deriving Inhabited

/-- What one word of a command line is. -/
inductive Part where
  /-- The word behind which there are no options. -/
  | barrier
  | operand
  /-- An option that is complete. -/
  | option (name : List Char) (value : Option String)
  /-- An option whose value is the next word. -/
  | awaiting (name : List Char)
  | wrong
deriving Inhabited

/-- An option with the value that is joined to it, if any. -/
def Switch.part (s : Switch) (joined : Option (List Char)) : Part :=
  match s.takes, joined with
  | .nothing, none | .joined, none => .option s.name none
  | .nothing, some _ => .wrong
  | .joined, some value | .value, some value => .option s.name (some (String.ofList value))
  | .value, none => .awaiting s.name

/-- Splits a word at its first equals sign. -/
def splitJoined (cs : List Char) : List Char × Option (List Char) :=
  match cs.span (· ≠ '=') with
  | (name, _ :: value) => (name, some value)
  | (name, []) => (name, none)

/-- The value joined to a short option; an equals sign in front of it is dropped. -/
def shortJoined : List Char → Option (List Char)
  | [] => none
  | '=' :: value => some value
  | value => some value

/-- Tells what a word is. A single dash is an operand. -/
def Part.of (switches : List Switch) (word : String) : Part :=
  match word.toList with
  | ['-', '-'] => .barrier
  | '-' :: '-' :: cs =>
    let (name, joined) := splitJoined cs
    match switches.find? fun s => s.name == name with
    | some s => s.part joined
    | none => .wrong
  | '-' :: c :: cs =>
    match switches.find? fun s => s.short == some c with
    | some s => s.part (shortJoined cs)
    | none => .wrong
  | _ => .operand

/-- Words that can be the value of an option before them. -/
def isValue (word : String) : Bool :=
  match word.toList with
  | '-' :: _ :: _ => false
  | _ => true

namespace Arguments

/-- Puts an option in front of the others. -/
def addOption (name : List Char) (value : Option String) (a : Arguments) : Arguments :=
  { a with options := (name, value) :: a.options }

/-- Puts an operand in front of the others. -/
def addOperand (word : String) (a : Arguments) : Arguments :=
  { a with operands := word :: a.operands }

/-- Takes the words of a command apart. -/
def scan (switches : List Switch) : List String → Option Arguments
  | [] => some ⟨[], []⟩
  | word :: rest =>
    match Part.of switches word with
    | .barrier => some ⟨[], rest⟩
    | .operand => (scan switches rest).map (addOperand word)
    | .option name value => (scan switches rest).map (addOption name value)
    | .awaiting name =>
      match rest with
      | value :: rest =>
        if isValue value then (scan switches rest).map (addOption name (some value)) else none
      | [] => none
    | .wrong => none

/-- Takes the words of a command apart that takes one operand and no option twice. -/
def read (switches : List Switch) (words : List String) : Option (Arguments × String) :=
  match scan switches words with
  | some a =>
    match a.operands with
    | [operand] => if (a.options.map Prod.fst).Nodup then some (a, operand) else none
    | _ => none
  | none => none

/-- Whether an option is given. -/
def has (a : Arguments) (name : String) : Bool :=
  a.options.any fun (n, _) => n == name.toList

/-- The value of an option that may be missing; nothing if it is wrong. -/
def value? {α : Type} (a : Arguments) (name : String) (read : String → Option α) :
    Option (Option α) :=
  match a.options.lookup name.toList with
  | some (some text) => (read text).map some
  | _ => some none

end Arguments

/-! ## Commands -/

/-- What a program is run with. -/
structure RunOptions where
  file : String
  jitMode : Option JitMode := none
  jitThreshold : Option Nat := none
  noInline : Bool := false
  traceJit : Bool := false
  trace : Bool := false
  noGc : Bool := false
  gcThreshold : Option Nat := none
  statistics : Option StatisticsFormat := none
  settingsFile : Option String := none
deriving DecidableEq, Repr, Inhabited

end Command

/-- A command. -/
inductive Command where
  /-- Runs a program. -/
  | run (options : Command.RunOptions)
  /-- Assembles a source file into an image file. -/
  | assemble (input output : String)
  /-- Lists the code of a program. -/
  | dump (file : String)
deriving DecidableEq, Repr, Inhabited

namespace Command

/-- Reads the path of a file, which is not empty. -/
def readPath (text : String) : Option String := if text.isEmpty then none else some text

/-- The options of a run. -/
def runSwitches : List Switch := [
  ⟨"jit".toList, none, .value⟩,
  ⟨"jit-threshold".toList, none, .value⟩,
  ⟨"no-inline".toList, none, .nothing⟩,
  ⟨"trace-jit".toList, none, .nothing⟩,
  ⟨"trace".toList, none, .nothing⟩,
  ⟨"no-gc".toList, none, .nothing⟩,
  ⟨"gc-threshold".toList, none, .value⟩,
  ⟨"stats".toList, none, .joined⟩,
  ⟨"config".toList, none, .value⟩]

/-- Reads the words behind `run`. Statistics without a format are for people. -/
def parseRun (words : List String) : Option Command := do
  let (a, operand) ← Arguments.read runSwitches words
  let file ← readPath operand
  let jitMode ← a.value? "jit" JitMode.ofName?
  let jitThreshold ← a.value? "jit-threshold" fun s =>
    (Decimal.readSigned 0 4294967295 s.toList).map Int.toNat
  let gcThreshold ← a.value? "gc-threshold" fun s =>
    Decimal.readUnsigned 18446744073709551615 s.toList
  let format ← a.value? "stats" StatisticsFormat.ofName?
  let settingsFile ← a.value? "config" readPath
  some (.run {
    file := file
    jitMode := jitMode
    jitThreshold := jitThreshold
    noInline := a.has "no-inline"
    traceJit := a.has "trace-jit"
    trace := a.has "trace"
    noGc := a.has "no-gc"
    gcThreshold := gcThreshold
    statistics := if a.has "stats" then some (format.getD .human) else none
    settingsFile := settingsFile })

/-- Reads the words behind `asm`. The output file must be given. -/
def parseAssemble (words : List String) : Option Command := do
  let (a, operand) ← Arguments.read [⟨"output".toList, some 'o', .value⟩] words
  let input ← readPath operand
  let output ← a.value? "output" readPath
  output.map (.assemble input)

/-- Reads the words behind `dump`. -/
def parseDump (words : List String) : Option Command := do
  let (_, operand) ← Arguments.read [] words
  (readPath operand).map .dump

/-- Reads a command line. -/
def parse : List String → Option Command
  | [] => none
  | command :: words =>
    if command = "run" then parseRun words
    else if command = "asm" then parseAssemble words
    else if command = "dump" then parseDump words
    else none

end StackMachine.Command
