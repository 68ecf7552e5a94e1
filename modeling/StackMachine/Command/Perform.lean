import StackMachine.Assembly.Assemble
import StackMachine.Command.Arguments
import StackMachine.Command.Folder
import StackMachine.Listing
import StackMachine.Settings.File

/-!
# Carrying out commands

A command reads files and the standard input and leaves a report: what it prints, what it says
about the run, and how it ended. Writing the file that it makes is the last thing it does.
-/

namespace StackMachine.Command

/-- Why a command failed. -/
inductive Error where
  | unreadable (path : String) (reason : FileError)
  | badSettings (path : String)
  | noImage (path : String) (reason : FileError)
  | badImage (path : String) (reason : LoadError)
  | badSource (path : String) (reason : Assembly.Error)
  | unwritable (path : String) (reason : FileError)
  | failed (reason : Failure)

/-- The text of the error. -/
def Error.message : Error → String
  | unreadable path reason => "failed to read " ++ path ++ ": " ++ reason.message
  | badSettings path => "failed to parse " ++ path ++ ": not a settings file"
  | noImage path reason => path ++ ": I/O error: " ++ reason.message
  | badImage path reason => path ++ ": " ++ reason.message
  | badSource path reason => path ++ ": " ++ reason.message
  | unwritable path reason => "failed to write " ++ path ++ ": " ++ reason.message
  | failed reason => reason.message

/-- What a command leaves. -/
structure Report where
  /-- The bytes for the standard output. -/
  output : ByteArray := .empty
  /-- The lines of the log that are shown. -/
  log : List String := []
  /-- The lines of statistics. -/
  statistics : List String := []
  /-- The file that the command makes. -/
  file : Option (String × ByteArray) := none
  error : Option Error := none

namespace Report

/-- The exit code: one for a failure. -/
def code (r : Report) : Nat := if r.error.isSome then 1 else 0

/-- The report of a command that failed before it did anything. -/
def ofError (e : Error) : Report := { error := some e }

/-- The lines for the standard error. -/
def complaints (r : Report) : List String :=
  r.log ++ r.statistics ++ (r.error.toList.map fun e => "error: " ++ e.message)

end Report

/-- Where files are read from. -/
abbrev Files := String → Except FileError ByteArray

/-- Reads a text file. -/
def readText (files : Files) (path : String) : Except Error String :=
  match files path with
  | .error e => .error (.unreadable path e)
  | .ok bytes =>
    match String.fromUTF8? bytes with
    | some text => .ok text
    | none => .error (.unreadable path .notText)

/-- Reads and assembles a source file. -/
def readSource (files : Files) (path : String) : Except Error Image :=
  match readText files path with
  | .error e => .error e
  | .ok text =>
    match StackMachine.assemble text with
    | .ok image => .ok image
    | .error e => .error (.badSource path e)

/-- Reads a program: a source file if the extension says so, else an image file. -/
def readProgram (files : Files) (path : String) : Except Error Image :=
  if Path.extension? path = some "sasm".toList then readSource files path
  else
    match files path with
    | .error e => .error (.noImage path e)
    | .ok bytes =>
      match Image.load bytes.toList with
      | .ok image => .ok image
      | .error e => .error (.badImage path e)

/-- Reads a settings file. -/
def readSettings (files : Files) (path : String) : Except Error Settings :=
  match readText files path with
  | .error e => .error e
  | .ok text =>
    match Settings.parse text with
    | some settings => .ok settings
    | none => .error (.badSettings path)

namespace RunOptions

/-- The settings of a run: those of the settings file, which options override. -/
def settings (options : RunOptions) (base : Settings) : Settings where
  jitMode := options.jitMode.getD base.jitMode
  jitThreshold := options.jitThreshold.getD base.jitThreshold
  jitInline := base.jitInline && !options.noInline
  traceJit := base.traceJit || options.traceJit
  traceExec := base.traceExec || options.trace
  gcEnabled := base.gcEnabled && !options.noGc
  gcThreshold := options.gcThreshold.getD base.gcThreshold
  gcStats := base.gcStats
  maxStack := base.maxStack
  maxCallDepth := base.maxCallDepth

/-- The format of the statistics, if they are wanted. -/
def format? (options : RunOptions) (base : Settings) : Option StatisticsFormat :=
  match options.statistics with
  | some format => some format
  | none => if base.gcStats then some .human else none

/-- Whether an event is shown: warnings always, others if an option asks for them. -/
def shows (options : RunOptions) : Event → Bool
  | .compileFailed _ _ => true
  | .hot _ _ | .compiled _ _ _ _ => options.traceJit
  | .executing _ => options.trace
  | .collected _ _ _ => false

/-- The report of a run that ended. -/
def report (options : RunOptions) (base : Settings) (outcome : Except Failure Word)
    (session : Session) : Report :=
  let written := session.machine.console.output.past.written
  let log := (session.machine.journal.events.toList.filter options.shows).map
    (Event.line session.setup.settings.traceJit)
  let statistics := match options.format? base with
    | some format => (Statistics.ofSession session).text format
    | none => []
  match outcome with
  | .ok w =>
    { output := written ++ ("result: " ++ Decimal.ofInt w.toInt.toInt ++ "\n").toUTF8
      log := log
      statistics := statistics }
  | .error failure =>
    { output := written, log := log, statistics := statistics, error := some (.failed failure) }

/-- Reads the settings and the program of a run and makes it ready. -/
def prepare (options : RunOptions) (files : Files) (input : ByteArray) :
    Except Error (Settings × Session) :=
  let base : Except Error Settings := match options.settingsFile with
    | none => .ok {}
    | some path => readSettings files path
  match base with
  | .error e => .error e
  | .ok base =>
    match readProgram files options.file with
    | .error e => .error e
    | .ok image =>
      let console : Console := ⟨.ofBytes input, .ofDevice .willing⟩
      .ok (base, Session.begin image (options.settings base) console false)

/-- Runs a program with at most `fuel` steps. Nothing is given if it does not end by then. -/
def perform (options : RunOptions) (files : Files) (input : ByteArray) (fuel : Nat) :
    Option Report :=
  match options.prepare files input with
  | .error e => some (.ofError e)
  | .ok (base, session) =>
    (session.run fuel).map fun (outcome, session) => options.report base outcome session

end RunOptions

/-- Carries out a command, up to writing its file. -/
def perform (command : Command) (files : Files) (input : ByteArray) (fuel : Nat) :
    Option Report :=
  match command with
  | .run options => options.perform files input fuel
  | .assemble source output =>
    match readSource files source with
    | .ok image => some { file := some (output, ⟨image.serialize.toArray⟩) }
    | .error e => some (.ofError e)
  | .dump file =>
    match readProgram files file with
    | .ok image => some { output := image.listing.toUTF8 }
    | .error e => some (.ofError e)

/-- Carries out a command in a folder. -/
def performIn (command : Command) (folder : Folder) (input : ByteArray) (fuel : Nat) :
    Option (Report × Folder) :=
  match command.perform folder.read input fuel with
  | none => none
  | some report =>
    match report.file with
    | none => some (report, folder)
    | some (path, bytes) =>
      match folder.write path bytes with
      | .ok folder => some (report, folder)
      | .error e => some ({ report with error := some (.unwritable path e) }, folder)

end StackMachine.Command
