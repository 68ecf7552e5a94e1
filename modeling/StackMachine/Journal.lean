import StackMachine.Instr.Basic
import StackMachine.Text.Decimal
import StackMachine.Text.Hex

/-!
# The journal of a run

What the machine reports while it runs: log events about compilation, collection and execution,
and, when it is observed, the trace of interpreted instructions.
-/

namespace StackMachine

/-- An instruction about to be interpreted, with the sizes of the two stacks before it. -/
structure TraceEvent where
  function : UInt16
  pc : Nat
  instr : Instr
  stackDepth : Nat
  callDepth : Nat
deriving Inhabited

/-- One line of the trace; the mnemonic is padded to twelve places. -/
def TraceEvent.text (e : TraceEvent) : String :=
  let name := e.instr.name
  let padding := String.ofList (List.replicate (12 - name.length) ' ')
  "[fn " ++ Decimal.ofNat e.function.toNat ++ " @ " ++ Hex.ofNat 4 e.pc ++ "] " ++ name
    ++ padding ++ " stack=" ++ Decimal.ofNat e.stackDepth ++ " depth="
    ++ Decimal.ofNat e.callDepth

/-- A log event. -/
inductive Event where
  /-- A function was called often enough to be compiled. -/
  | hot (function : UInt16) (calls : Nat)
  /-- A function was compiled. -/
  | compiled (function : UInt16) (instructions inlined : Nat) (loops : Bool)
  /-- A function could not be compiled. -/
  | compileFailed (function : UInt16) (reason : String)
  /-- A collection ended. -/
  | collected (freed liveWords threshold : Nat)
  /-- An instruction is about to be interpreted. -/
  | executing (event : TraceEvent)
deriving Inhabited

/-- The log line of an event. Compilation is reported at level INFO when `traceJit` is set and
at level DEBUG otherwise. -/
def Event.line (traceJit : Bool) : Event → String
  | hot function calls =>
    level traceJit ++ " stackvm::jit: hot function detected function="
      ++ Decimal.ofNat function.toNat ++ " calls=" ++ Decimal.ofNat calls
  | compiled function instructions inlined loops =>
    level traceJit ++ " stackvm::jit: compiled function function="
      ++ Decimal.ofNat function.toNat ++ " instructions=" ++ Decimal.ofNat instructions
      ++ " inlined=" ++ Decimal.ofNat inlined ++ " loops=" ++ (if loops then "true" else "false")
  | compileFailed function reason =>
    "WARN stackvm::jit: compilation failed, staying interpreted function="
      ++ Decimal.ofNat function.toNat ++ " error=" ++ reason
  | collected freed liveWords threshold =>
    "DEBUG stackvm::gc: collection finished freed=" ++ Decimal.ofNat freed ++ " live_words="
      ++ Decimal.ofNat liveWords ++ " next_threshold=" ++ Decimal.ofNat threshold
  | executing event => "TRACE stackvm::exec: " ++ event.text
where
  level (traceJit : Bool) : String := if traceJit then "INFO" else "DEBUG"

/-- The log and the trace so far. -/
structure Journal where
  events : Array Event
  trace : Array TraceEvent
deriving Inhabited

namespace Journal

/-- A journal in which nothing is written. -/
def empty : Journal := ⟨#[], #[]⟩

/-- Adds a log event. -/
def log (j : Journal) (event : Event) : Journal := { j with events := j.events.push event }

/-- Adds log events. -/
def logAll (j : Journal) (events : List Event) : Journal := events.foldl log j

end Journal

end StackMachine
