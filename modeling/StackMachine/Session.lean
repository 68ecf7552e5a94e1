import StackMachine.Machine.Run

/-!
# Sessions

A session is a machine with a program, on which the program can be run again and again. Every run
starts with fresh memory, but compiled code, call counts, the generations of heap slots and the
streams carry over from run to run.
-/

namespace StackMachine

/-- A machine and what it works on. -/
structure Session where
  setup : Setup
  machine : Machine
deriving Inhabited

namespace Session

/-- A new session. With `observed`, interpreted instructions are traced. -/
def begin (image : Image) (settings : Settings) (console : Console) (observed : Bool)
    (allocator : Allocator := .willing) : Session where
  setup := ⟨image, settings, observed⟩
  machine :=
    { memory := .fresh settings.maxStack settings.maxCallDepth image.globals.toNat
        (.empty settings.gcThreshold settings.gcEnabled allocator)
      console
      collector := {}
      promotion := .fresh settings image.functions.size
      journal := .empty }

/-- Ends a run: the output is flushed, and failing to do so is a fault of the run unless it has
already failed. -/
def conclude (setup : Setup) (e : Ending) : Except Failure Word × Session :=
  let ⟨outcome, machine⟩ := e
  match Machine.onConsole Console.flush machine with
  | .ok _ machine => (outcome, ⟨setup, machine⟩)
  | .error fault machine =>
    match outcome with
    | .ok _ => (.error ⟨fault, none⟩, ⟨setup, machine⟩)
    | .error failure => (.error failure, ⟨setup, machine⟩)

/-- The first state of a run, with fresh memory. -/
def start (s : Session) : Progress :=
  let ⟨setup, memory, console, collector, promotion, journal⟩ := s
  let memory := memory.reset setup.image.globals.toNat
  State.start setup ⟨memory, console, collector, promotion, journal⟩

/-- Runs the program from the start with at most `fuel` steps. Nothing is given if it does not
end by then. -/
def run (fuel : Nat) (s : Session) : Option (Except Failure Word × Session) :=
  let setup := s.setup
  match s.start with
  | .ended e => some (conclude setup e)
  | .running state =>
    match State.run setup fuel state with
    | some e => some (conclude setup e)
    | none => none

/-- Runs a collection and gives the number of arrays freed. -/
def collect (s : Session) : Nat × Session :=
  let ⟨setup, machine⟩ := s
  let (freed, machine) := machine.collect
  (freed, ⟨setup, machine⟩)

/-- Forgets what was logged and traced. -/
def forget (s : Session) : Session :=
  { s with machine := { s.machine with journal := .empty } }

/-- The lines of the log. -/
def logLines (s : Session) : List String :=
  s.machine.journal.events.toList.map (Event.line s.setup.settings.traceJit)

/-- The arrays that can be reached from the roots, with their handles in ascending order. -/
def reachableArrays (s : Session) : List (Word × Array Word) :=
  let memory := s.machine.memory
  let marked := Heap.mark memory.heap.slots memory.roots
  let arrays := marked.toList.zipIdx.filterMap fun (slot, index) =>
    match slot.marked, slot.contents with
    | true, some array => some (Word.ofHandle ⟨index, slot.generation⟩, array)
    | _, _ => none
  arrays.mergeSort fun a b => a.1.bits ≤ b.1.bits

end Session

end StackMachine
