import StackMachine.Machine.Run

/-!
# Running with input that is not yet there

A program that talks to a person reads its input line by line, as the lines arrive. `State.advance`
runs until the next line is wanted and the input has none; the caller then adds a line with
`State.feed`, or says with `State.refuse` that there will be none, and goes on.
-/

namespace StackMachine

/-- Adds bytes at the end of the input. -/
def Input.append (input : Input) (bytes : ByteArray) : Input :=
  { input with bytes := input.bytes ++ bytes }

/-- The next request for a line fails. -/
def Input.refuse (input : Input) (reason : String) : Input :=
  { input with
    refuses := fun n => if n = input.requests then some ⟨0, reason⟩ else input.refuses n }

/-- Whether everything was read. -/
def Input.isExhausted (input : Input) : Bool := input.bytes.size ≤ input.position

namespace State

/-- Whether the next step reads a line of input. -/
def readsLine (setup : Setup) (s : State) : Bool :=
  match s.active with
  | .interpreting a =>
    match setup.image.function? a.function with
    | none => false
    | some f =>
      match f.code.decode a.pc with
      | .ok .readInt => true
      | _ => false
  | .executing a =>
    match a.routine.program.insts[a.ip]? with
    | some inst => inst.op == .readInt
    | none => false

/-- Whether the next step reads a line that the input does not have. -/
def wantsLine (setup : Setup) (s : State) : Bool :=
  s.machine.console.input.isExhausted && s.readsLine setup

/-- At most `fuel` steps, and none that wants a line. -/
def advance (setup : Setup) (fuel : Nat) (s : State) : Progress :=
  match fuel with
  | 0 => .running s
  | fuel + 1 =>
    if s.wantsLine setup then .running s
    else
      match step setup s with
      | .ended e => .ended e
      | .running s => advance setup fuel s

/-- Adds a line to the input. -/
def feed (s : State) (line : ByteArray) : State :=
  let ⟨active, waiting, ⟨memory, ⟨input, output⟩, collector, promotion, journal⟩⟩ := s
  ⟨active, waiting, ⟨memory, ⟨input.append line, output⟩, collector, promotion, journal⟩⟩

/-- The next line cannot be read. -/
def refuse (s : State) (reason : String) : State :=
  let ⟨active, waiting, ⟨memory, ⟨input, output⟩, collector, promotion, journal⟩⟩ := s
  ⟨active, waiting, ⟨memory, ⟨input.refuse reason, output⟩, collector, promotion, journal⟩⟩

end State

end StackMachine
