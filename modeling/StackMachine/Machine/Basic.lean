import StackMachine.Console
import StackMachine.Memory.Basic
import StackMachine.Promotion

/-!
# The machine

The state of a machine apart from control, and the actions that instructions are made of. An
action either gives a result or a fault, and in both cases the state it leaves behind: operands
that were popped before a fault are gone.
-/

namespace StackMachine

/-- What the collector has done so far. -/
structure CollectorStats where
  cycles : Nat := 0
  freed : Nat := 0
  liveWords : Nat := 0
deriving DecidableEq, Repr, Inhabited

/-- The state of a machine. -/
structure Machine where
  memory : Memory
  console : Console
  collector : CollectorStats
  promotion : Promotion
  journal : Journal
deriving Inhabited

/-- What a machine works on: the image, the settings, and whether interpreted instructions are
observed. -/
structure Setup where
  image : Image
  settings : Settings
  observed : Bool := false
deriving Inhabited

/-- A change of the machine that may fail. -/
abbrev Action := EStateM Fault Machine

namespace Machine

/-! ## Parts of the state -/

/-- Acts on the operand stack. -/
@[inline]
def onStack {α : Type} (act : EStateM Fault OperandStack α) : Action α := fun m =>
  let ⟨⟨stack, calls, globals, heap⟩, console, collector, promotion, journal⟩ := m
  match act stack with
  | .ok a stack => .ok a ⟨⟨stack, calls, globals, heap⟩, console, collector, promotion, journal⟩
  | .error e stack =>
    .error e ⟨⟨stack, calls, globals, heap⟩, console, collector, promotion, journal⟩

/-- Acts on the call stack. -/
@[inline]
def onCalls {α : Type} (act : EStateM Fault CallStack α) : Action α := fun m =>
  let ⟨⟨stack, calls, globals, heap⟩, console, collector, promotion, journal⟩ := m
  match act calls with
  | .ok a calls => .ok a ⟨⟨stack, calls, globals, heap⟩, console, collector, promotion, journal⟩
  | .error e calls =>
    .error e ⟨⟨stack, calls, globals, heap⟩, console, collector, promotion, journal⟩

/-- Acts on the globals. -/
@[inline]
def onGlobals {α : Type} (act : EStateM Fault Globals α) : Action α := fun m =>
  let ⟨⟨stack, calls, globals, heap⟩, console, collector, promotion, journal⟩ := m
  match act globals with
  | .ok a globals =>
    .ok a ⟨⟨stack, calls, globals, heap⟩, console, collector, promotion, journal⟩
  | .error e globals =>
    .error e ⟨⟨stack, calls, globals, heap⟩, console, collector, promotion, journal⟩

/-- Acts on the heap. -/
@[inline]
def onHeap {α : Type} (act : EStateM Fault Heap α) : Action α := fun m =>
  let ⟨⟨stack, calls, globals, heap⟩, console, collector, promotion, journal⟩ := m
  match act heap with
  | .ok a heap => .ok a ⟨⟨stack, calls, globals, heap⟩, console, collector, promotion, journal⟩
  | .error e heap =>
    .error e ⟨⟨stack, calls, globals, heap⟩, console, collector, promotion, journal⟩

/-- Acts on the console. -/
@[inline]
def onConsole {α : Type} (act : EStateM Fault Console α) : Action α := fun m =>
  let ⟨memory, console, collector, promotion, journal⟩ := m
  match act console with
  | .ok a console => .ok a ⟨memory, console, collector, promotion, journal⟩
  | .error e console => .error e ⟨memory, console, collector, promotion, journal⟩

/-- Looks something up without changing the machine. -/
@[inline]
def inspect {α : Type} (f : Machine → Except Fault α) : Action α := fun m =>
  match f m with
  | .ok a => .ok a m
  | .error e => .error e m

/-! ## Operands, locals and globals -/

/-- Puts a word on the operand stack. -/
@[inline]
def push (w : Word) : Action Unit := onStack (OperandStack.push w)

/-- Takes the top word off the operand stack. -/
@[inline]
def pop : Action Word := onStack OperandStack.pop

/-- The top word of the operand stack. -/
@[inline]
def peek : Action Word := inspect fun m => m.memory.stack.peek

/-- Reads a local of the top frame. -/
def loadLocal (index : UInt8) : Action Word := inspect fun m => m.memory.calls.loadLocal index

/-- Writes a local of the top frame. -/
def storeLocal (index : UInt8) (w : Word) : Action Unit := onCalls (CallStack.storeLocal index w)

/-- Reads a global slot. -/
def loadGlobal (index : UInt16) : Action Word := inspect fun m => m.memory.globals.load index

/-- Writes a global slot. -/
def storeGlobal (index : UInt16) (w : Word) : Action Unit := onGlobals (Globals.store index w)

/-! ## Arrays -/

/-- Runs a collection and gives the number of arrays freed. -/
def collect (m : Machine) : Nat × Machine :=
  let ⟨memory, console, ⟨cycles, total, _⟩, promotion, journal⟩ := m
  let (freed, memory) := memory.collect
  let live := memory.heap.words
  let event := .collected freed live memory.heap.threshold
  (freed, ⟨memory, console, ⟨cycles + 1, total + freed, live⟩, promotion, journal.log event⟩)

/-- Makes an array, after a collection if one is due. -/
def newArray (length : Word) : Action Word := fun m =>
  let m := if m.memory.heap.due then m.collect.2 else m
  onHeap (Heap.alloc length.toInt) m

/-- Reads an element of an array. -/
def loadElement (array index : Word) : Action Word :=
  inspect fun m => m.memory.heap.load array index

/-- Writes an element of an array. -/
def storeElement (array index w : Word) : Action Unit := onHeap (Heap.store array index w)

/-- The length of an array, as a word. -/
def arrayLength (array : Word) : Action Word :=
  inspect fun m => (m.memory.heap.length array).map fun n => .ofInt (Int64.ofNat n)

/-! ## Input and output -/

/-- Writes a word as an integer on a line of its own. -/
def printInt (w : Word) : Action Unit := onConsole (Console.printInt w.toInt)

/-- Reads an integer from a line of its own. -/
def readInt : Action Word := onConsole do
  let n ← Console.readInt
  return .ofInt n

/-! ## Calls -/

/-- Pops `n` arguments and puts them, in the order of the call, in front of `args`. -/
def popArguments (n : Nat) (args : List Word) : Action (List Word) :=
  match n with
  | 0 => pure args
  | n + 1 => do
    let w ← pop
    popArguments n (w :: args)

/-- Fails when no further frame fits. -/
def checkRoom : Action Unit := inspect fun m => m.memory.calls.checkRoom

/-- Pushes the frame of a call. The arguments move from the operand stack to the first locals;
the entry function, which returns nowhere, gets zeros instead. -/
def enterFrame (image : Image) (callee returnFunction : UInt16) (returnAddress : Option Nat) :
    Action Unit :=
  match image.function? callee with
  | none => throw (.invalidFunction callee.toNat)
  | some f =>
    if f.locals < f.arity then
      throw (.localsBelowArity callee.toNat f.arity.toNat f.locals.toNat)
    else do
      checkRoom
      let args ← popArguments (if returnAddress.isSome then f.arity.toNat else 0) []
      let zeros := List.replicate (f.locals.toNat - args.length) Word.zero
      onCalls (CallStack.push ⟨callee, returnFunction, returnAddress, (args ++ zeros).toArray⟩)

/-- Where a `ret` leads: back to a caller or, from the entry frame, out of the program. -/
inductive Return where
  | resume (function : UInt16) (pc : Nat)
  | finish (value : Word)

/-- Takes the top word, or zero if there is none. -/
def popOrZero : Action Word := onStack fun s =>
  let (w, s) := s.popOrZero
  .ok w s

/-- Pops the frame of a call. The top word, or zero if there is none, is the value of the call
and is left for the caller. -/
def leaveFrame : Action Return := do
  let value ← popOrZero
  let frame ← onCalls CallStack.pop
  match frame.returnAddress with
  | none => return .finish value
  | some pc =>
    push value
    return .resume frame.returnFunction pc

/-! ## Promotion -/

/-- Counts a call of `callee`, pushes its frame and gives its compiled code if the call is to
run compiled; in that case a compiled activation has started. -/
def enterCall (image : Image) (callee returnFunction : UInt16) (returnAddress : Option Nat) :
    Action (Option Native.Routine) := fun m =>
  let ⟨memory, console, collector, promotion, journal⟩ := m
  let (available, events, promotion) := promotion.onCall image callee
  let routine := if available then promotion.routine? callee else none
  let m : Machine := ⟨memory, console, collector, promotion, journal.logAll events⟩
  match enterFrame image callee returnFunction returnAddress m with
  | .error e m => .error e m
  | .ok _ m =>
    match routine with
    | none => .ok none m
    | some routine => .ok (some routine) { m with promotion := m.promotion.enter }

end Machine

end StackMachine
