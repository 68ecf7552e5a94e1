import StackMachine.Fault
import StackMachine.Text.Blank

/-!
# Input and output of a program

A program reads lines from its input and writes lines to its output. Both streams may refuse what
is asked of them. The input is a string of bytes with a position in it, together with the requests
for a line that fail. The output is a device: what it does with a request can depend on everything
that was asked of it before.
-/

namespace StackMachine

/-- A request that a stream does not carry out: it takes the first bytes and gives a reason. -/
structure Refusal where
  taken : Nat
  reason : String

/-! ## Input -/

/-- The input, how far it has been read, how many lines were asked for, and what becomes of the
requests, counted from the first one, that it does not carry out. -/
structure Input where
  bytes : ByteArray
  position : Nat
  requests : Nat
  refuses : Nat → Option Refusal
deriving Inhabited

namespace Input

/-- Input that can be read to its end. -/
def ofBytes (bytes : ByteArray) : Input := ⟨bytes, 0, 0, fun _ => none⟩

/-- The end of the line that contains position `i`: just behind the next newline, or the end of
the input. -/
def lineEnd (bytes : ByteArray) (i : Nat) : Nat :=
  if h : i < bytes.size then
    if bytes[i] = 10 then i + 1 else lineEnd bytes (i + 1)
  else bytes.size
termination_by bytes.size - i

/-- Reads a line with its newline; at the end of the input there is none. A request that fails
takes bytes of the line away, at most all of them. -/
def readLine : EStateM Fault Input (Option ByteArray) := fun input =>
  let ⟨bytes, position, requests, refuses⟩ := input
  match refuses requests with
  | some ⟨taken, reason⟩ =>
    let position := position + min taken (lineEnd bytes position - position)
    .error (.io reason) ⟨bytes, position, requests + 1, refuses⟩
  | none =>
    if position < bytes.size then
      let stop := lineEnd bytes position
      .ok (some (bytes.extract position stop)) ⟨bytes, stop, requests + 1, refuses⟩
    else .ok none ⟨bytes, position, requests + 1, refuses⟩

end Input

/-! ## Output -/

/-- What is asked of an output device. -/
inductive Request where
  | write (bytes : ByteArray)
  | flush

/-- What was asked of a device, latest first, and what it has taken. -/
structure Transcript where
  written : ByteArray
  requests : List Request
deriving Inhabited

/-- The behaviour of an output device. -/
structure Device where
  write : Transcript → ByteArray → Option Refusal
  flush : Transcript → Option String

namespace Device

/-- A device that takes everything. -/
def willing : Device := ⟨fun _ _ => none, fun _ => none⟩

/-- A device that takes `limit` bytes in all and then refuses for the given reason. -/
def bounded (limit : Nat) (reason : String) : Device where
  write past bytes :=
    if past.written.size + bytes.size ≤ limit then none
    else some ⟨limit - past.written.size, reason⟩
  flush _ := none

/-- The same device, except that it fails to flush. -/
def withoutFlush (device : Device) (reason : String) : Device :=
  { device with flush := fun _ => some reason }

end Device

/-- A device that takes everything is as good as any. -/
instance : Inhabited Device := ⟨.willing⟩

/-- A device and its past. -/
structure Output where
  device : Device
  past : Transcript
deriving Inhabited

namespace Output

/-- A device of which nothing was asked. -/
def ofDevice (device : Device) : Output := ⟨device, ⟨.empty, []⟩⟩

/-- Writes bytes; those that a refusing device takes stay written. -/
def write (bytes : ByteArray) : EStateM Fault Output Unit := fun output =>
  let ⟨device, past⟩ := output
  let refusal := device.write past bytes
  let ⟨written, requests⟩ := past
  let requests := .write bytes :: requests
  match refusal with
  | none => .ok () ⟨device, ⟨written ++ bytes, requests⟩⟩
  | some ⟨taken, reason⟩ =>
    .error (.io reason) ⟨device, ⟨written ++ bytes.extract 0 taken, requests⟩⟩

/-- Flushes the device. -/
def flush : EStateM Fault Output Unit := fun output =>
  let ⟨device, past⟩ := output
  let failure := device.flush past
  let ⟨written, requests⟩ := past
  let output := ⟨device, ⟨written, .flush :: requests⟩⟩
  match failure with
  | none => .ok () output
  | some reason => .error (.io reason) output

end Output

/-! ## Console -/

/-- The two streams of a program. -/
structure Console where
  input : Input
  output : Output
deriving Inhabited

namespace Console

/-- Writes an integer on a line of its own. -/
def printInt (n : Int64) : EStateM Fault Console Unit := fun c =>
  let ⟨input, output⟩ := c
  match Output.write (Decimal.ofInt n.toInt ++ "\n").toUTF8 output with
  | .ok _ output => .ok () ⟨input, output⟩
  | .error e output => .error e ⟨input, output⟩

/-- Flushes the output. -/
def flush : EStateM Fault Console Unit := fun c =>
  let ⟨input, output⟩ := c
  match Output.flush output with
  | .ok _ output => .ok () ⟨input, output⟩
  | .error e output => .error e ⟨input, output⟩

/-- The integer on a line, blanks around it aside. -/
def lineInt (line : ByteArray) : Except Fault Int64 :=
  match String.fromUTF8? line with
  | none => .error (.io "stream did not contain valid UTF-8")
  | some text =>
    let word := Text.trim text.toList
    match Decimal.readInt64 word with
    | some n => .ok n
    | none => .error (.invalidInput (String.ofList word))

/-- Reads an integer from a line of its own, after flushing the output. The end of the input
reads as zero. -/
def readInt : EStateM Fault Console Int64 := fun c =>
  match flush c with
  | .error e c => .error e c
  | .ok _ ⟨input, output⟩ =>
    match Input.readLine input with
    | .error e input => .error e ⟨input, output⟩
    | .ok none input => .ok 0 ⟨input, output⟩
    | .ok (some line) input =>
      match lineInt line with
      | .ok n => .ok n ⟨input, output⟩
      | .error e => .error e ⟨input, output⟩

end Console

end StackMachine
