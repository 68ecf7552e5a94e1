import StackMachine.Command.Perform
import StackMachine.Machine.Interactive

/-!
# The command line

Reads the files of a command, lets the program talk to the standard streams, and writes what the
command reports.
-/

namespace StackMachine

/-- The reason why the system refused a file. -/
def fileError (e : IO.Error) : FileError :=
  match e with
  | .noFileOrDirectory .. => .notFound
  | e => .other (toString e)

/-- Reads a file. -/
def readFile (path : String) : IO (Except FileError ByteArray) := do
  try
    return .ok (← IO.FS.readBinFile path)
  catch e =>
    return .error (fileError e)

/-- The files that a command reads. -/
def Command.inputs : Command → List String
  | .run options => options.settingsFile.toList ++ [options.file]
  | .assemble source _ => [source]
  | .dump file => [file]

/-- Writes the output from a position on. -/
def display (output : ByteArray) (shown : Nat) : IO Unit := do
  let stdout ← IO.getStdout
  stdout.write (output.extract shown output.size)
  stdout.flush

/-- Reads the rest of a line, byte for byte, so that nothing behind it is waited for. -/
partial def readLine (stream : IO.FS.Stream) (line : ByteArray) : IO ByteArray := do
  let byte ← stream.read 1
  if byte.isEmpty then return line
  else if byte.toList = [10] then return line ++ byte
  else readLine stream (line ++ byte)

/-- Runs a program to its end; what it has written is shown before it waits for a line. Gives
the ending and how much of the output was shown. -/
partial def converse (setup : Setup) (s : State) (shown : Nat) : IO (Ending × Nat) := do
  match s.advance setup 1000000 with
  | .ended e => return (e, shown)
  | .running s =>
    if s.wantsLine setup then
      let output := s.machine.console.output.past.written
      display output shown
      let (s, arrived) ← try
          let line ← readLine (← IO.getStdin) .empty
          pure (if line.isEmpty then (s, false) else (s.feed line, true))
        catch e => pure (s.refuse (fileError e).message, false)
      if arrived then converse setup s output.size
      else
        match s.step setup with
        | .ended e => return (e, output.size)
        | .running s => converse setup s output.size
    else converse setup s shown

/-- Runs a program in conversation with the standard streams. -/
def runCommand (options : Command.RunOptions) (files : Command.Files) :
    IO (Command.Report × Nat) := do
  match options.prepare files .empty with
  | .error e => return (.ofError e, 0)
  | .ok (base, session) =>
    let setup := session.setup
    let (ending, shown) ← match session.start with
      | .ended e => pure (e, 0)
      | .running state => converse setup state 0
    let (outcome, session) := Session.conclude setup ending
    return (options.report base outcome session, shown)

/-- Writes the file of a report. -/
def saveFile (report : Command.Report) : IO Command.Report := do
  match report.file with
  | none => return report
  | some (path, bytes) =>
    try
      IO.FS.writeBinFile path bytes
      return report
    catch e =>
      return { report with error := some (.unwritable path (fileError e)) }

/-- Carries out a command and gives its exit code. -/
def carryOut (command : Command) : IO UInt32 := do
  let contents ← command.inputs.mapM fun path => do return (path, ← readFile path)
  let files : Command.Files := fun path => (contents.lookup path).getD (.error .notFound)
  let (report, shown) ← match command with
    | .run options => runCommand options files
    | command => pure ((command.perform files .empty 0).getD {}, 0)
  let report ← saveFile report
  display report.output shown
  for line in report.complaints do
    IO.eprintln line
  return UInt32.ofNat report.code

end StackMachine

/-- The program. A command line that does not fit ends it with exit code two. -/
def main (args : List String) : IO UInt32 :=
  match StackMachine.Command.parse args with
  | some command => StackMachine.carryOut command
  | none => do
    IO.eprintln "usage: run FILE [OPTIONS] | asm FILE -o FILE | dump FILE"
    return 2
