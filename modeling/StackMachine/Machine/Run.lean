import StackMachine.Native.Execute

/-!
# Running a program

A run is a sequence of small steps. Control is a stack of activations: the active one and those
that wait for a call to return. An activation either interprets code, over as many calls as it
likes, or executes one compiled function; compiled code that calls an interpreted function waits
for an activation that ends when that function returns.

* `State.step` makes one step and `State.run` makes as many as it is given;
* `State.start` is the first state of a run.

A run ends with a value, or with a fault and its location. In both cases the activations that
are left are closed, so that the count of nested compiled activations is again what it was.
-/

namespace StackMachine

open Native

/-- Code that is being interpreted: the instruction to execute next, and the number of frames
below which the activation ends. -/
structure Interpreting where
  function : UInt16
  pc : Nat
  floor : Nat
deriving DecidableEq, Inhabited

/-- A compiled function that is being executed. -/
structure Executing where
  routine : Routine
  ip : Nat
  checked : Bool
  registers : Registers
deriving DecidableEq, Inhabited

/-- A thread of control. -/
inductive Activation where
  | interpreting (a : Interpreting)
  | executing (a : Executing)
deriving DecidableEq, Inhabited

/-- A running machine: the active activation, those that wait, latest first, and the rest. -/
structure State where
  active : Activation
  waiting : List Activation
  machine : Machine
deriving Inhabited

/-- How a run ends. -/
structure Ending where
  outcome : Except Failure Word
  machine : Machine

/-- The outcome of a step. -/
inductive Progress where
  | running (s : State)
  | ended (e : Ending)

namespace State

/-! ## Ends -/

/-- Closes activations: each compiled one among them counts as an execution. -/
def close (activations : List Activation) (m : Machine) : Machine :=
  activations.foldl (fun m a => match a with
    | .interpreting _ => m
    | .executing a => { m with promotion := m.promotion.leave a.routine.program.function }) m

/-- The run ends with a value. -/
def finish (activations : List Activation) (value : Word) (m : Machine) : Progress :=
  .ended ⟨.ok value, close activations m⟩

/-- The run ends with a fault of the instruction at a location. -/
def abort (activations : List Activation) (fault : Fault) (location : Location) (m : Machine) :
    Progress :=
  .ended ⟨.error ⟨fault, some location⟩, close activations m⟩

/-- Where the call was made that the latest of the waiting activations waits for. The call is the
instruction before the one with which the activation goes on. -/
def callSite? : List Activation → Option Location
  | [] => none
  | .interpreting a :: _ => some ⟨a.function, a.pc - Opcode.call.size⟩
  | .executing a :: _ => a.routine.program.insts[a.ip - 1]?.map Inst.location

/-- The program halts; its value is the top word, or zero if there is none. -/
def halt (activations : List Activation) (m : Machine) : Progress :=
  match Machine.popOrZero m with
  | .ok value m => finish activations value m
  | .error _ m => finish activations .zero m

/-! ## Calls and returns -/

/-- The first activation of a compiled function. Pushes are left unchecked when the stack has
room for everything that the function can push. -/
def executing (routine : Routine) (m : Machine) : Activation :=
  let stack := m.memory.stack
  .executing
    { routine
      ip := 0
      checked := routine.alwaysChecked || stack.limit < stack.size + routine.growth
      registers := .none }

/-- The waiting activation goes on after the active one has returned. When there is none, the
run is over. -/
def resume (waiting : List Activation) (m : Machine) : Progress :=
  match waiting with
  | [] => .ended ⟨.ok .zero, m⟩
  | active :: waiting => .running ⟨active, waiting, m⟩

/-! ## Steps -/

/-- Reports the instruction about to be interpreted, if anyone listens. -/
@[inline]
def report (setup : Setup) (a : Interpreting) (i : Instr) (m : Machine) : Machine :=
  if setup.settings.traceExec || setup.observed then
    let ⟨memory, console, collector, promotion, ⟨events, trace⟩⟩ := m
    let event := ⟨a.function, a.pc, i, memory.stack.size, memory.calls.depth⟩
    let events := if setup.settings.traceExec then events.push (.executing event) else events
    let trace := if setup.observed then trace.push event else trace
    ⟨memory, console, collector, promotion, ⟨events, trace⟩⟩
  else m

/-- A call from interpreted code. -/
def callFromInterpreter (setup : Setup) (a : Interpreting) (next : Nat) (callee : UInt16)
    (waiting : List Activation) (m : Machine) : Progress :=
  match Machine.enterCall setup.image callee a.function (some next) m with
  | .error fault m => abort waiting fault ⟨a.function, a.pc⟩ m
  | .ok none m => .running ⟨.interpreting { a with function := callee, pc := 0 }, waiting, m⟩
  | .ok (some routine) m =>
    .running ⟨executing routine m, .interpreting { a with pc := next } :: waiting, m⟩

/-- A return in interpreted code. -/
def returnFromInterpreter (a : Interpreting) (waiting : List Activation) (m : Machine) :
    Progress :=
  match Machine.leaveFrame m with
  | .error fault m => abort waiting fault ⟨a.function, a.pc⟩ m
  | .ok (.finish value) m => finish waiting value m
  | .ok (.resume function pc) m =>
    if m.memory.calls.depth < a.floor then resume waiting m
    else .running ⟨.interpreting { a with function, pc }, waiting, m⟩

/-- One step of interpreted code. Running past the end of the code halts. A function that does not
exist is not at fault itself, but the call that led to it, if there is one. -/
@[inline]
def interpret (setup : Setup) (a : Interpreting) (waiting : List Activation) (m : Machine) :
    Progress :=
  match setup.image.function? a.function with
  | none =>
    .ended ⟨.error ⟨.invalidFunction a.function.toNat, callSite? waiting⟩, close waiting m⟩
  | some f =>
    if f.code.size ≤ a.pc then halt waiting m
    else
      match f.code.decode a.pc with
      | .error fault => abort waiting fault ⟨a.function, a.pc⟩ m
      | .ok i =>
        let next := a.pc + i.size
        match Machine.interpret next f.code.size i (report setup a i m) with
        | .error fault m => abort waiting fault ⟨a.function, a.pc⟩ m
        | .ok .next m => .running ⟨.interpreting { a with pc := next }, waiting, m⟩
        | .ok (.jump target) m => .running ⟨.interpreting { a with pc := target }, waiting, m⟩
        | .ok (.call callee) m => callFromInterpreter setup a next callee waiting m
        | .ok .ret m => returnFromInterpreter a waiting m
        | .ok .halt m => halt waiting m

/-- A call from compiled code. The registers are flushed. -/
def callFromNative (setup : Setup) (a : Executing) (location : Location) (callee : UInt16)
    (waiting : List Activation) (m : Machine) : Progress :=
  let back := Activation.executing { a with ip := a.ip + 1, registers := .none }
  let function := a.routine.program.function
  let depth := m.memory.calls.depth
  match Machine.enterCall setup.image callee function (some (location.pc + Opcode.call.size)) m with
  | .error fault m => abort (back :: waiting) fault location m
  | .ok none m =>
    .running ⟨.interpreting ⟨callee, 0, depth + 1⟩, back :: waiting, m⟩
  | .ok (some routine) m => .running ⟨executing routine m, back :: waiting, m⟩

/-- A return from compiled code. The registers are flushed. -/
def returnFromNative (a : Executing) (location : Location) (waiting : List Activation)
    (m : Machine) : Progress :=
  match Machine.leaveFrame m with
  | .error fault m => abort (.executing a :: waiting) fault location m
  | .ok (.finish value) m => finish (.executing a :: waiting) value m
  | .ok (.resume _ _) m => resume waiting (close [.executing a] m)

/-- The end of a compiled program halts. If the registers cannot be flushed, the call of the
program is at fault, or the entry function if it was not called. -/
def runOff (setup : Setup) (a : Executing) (waiting : List Activation) (m : Machine) : Progress :=
  match Workspace.flush ⟨m, a.registers⟩ with
  | .ok _ w => halt (.executing a :: waiting) w.machine
  | .error fault w =>
    let location := (callSite? waiting).getD ⟨setup.image.entry, 0⟩
    abort (.executing a :: waiting) fault location w.machine

/-- One step of compiled code. -/
def execute (setup : Setup) (a : Executing) (waiting : List Activation) (m : Machine) :
    Progress :=
  match a.routine.program.insts[a.ip]? with
  | none => runOff setup a waiting m
  | some inst =>
    match Workspace.execute a.checked inst.op ⟨m, a.registers⟩ with
    | .error fault w => abort (.executing a :: waiting) fault inst.location w.machine
    | .ok .next ⟨m, registers⟩ =>
      .running ⟨.executing { a with ip := a.ip + 1, registers }, waiting, m⟩
    | .ok (.jump target) ⟨m, registers⟩ =>
      .running ⟨.executing { a with ip := target, registers }, waiting, m⟩
    | .ok (.call callee) ⟨m, _⟩ => callFromNative setup a inst.location callee waiting m
    | .ok .ret ⟨m, _⟩ => returnFromNative a inst.location waiting m
    | .ok .halt ⟨m, _⟩ => halt (.executing a :: waiting) m

/-- One step. -/
@[inline]
def step (setup : Setup) (s : State) : Progress :=
  let ⟨active, waiting, m⟩ := s
  match active with
  | .interpreting a => interpret setup a waiting m
  | .executing a => execute setup a waiting m

/-- At most `fuel` steps. -/
def run (setup : Setup) (fuel : Nat) (s : State) : Option Ending :=
  match fuel with
  | 0 => none
  | fuel + 1 =>
    match step setup s with
    | .ended e => some e
    | .running s => run setup fuel s

/-- The first state of a run: the entry function is called with an empty stack. -/
def start (setup : Setup) (m : Machine) : Progress :=
  let entry := setup.image.entry
  match Machine.enterCall setup.image entry entry none m with
  | .error fault m => abort [] fault ⟨entry, 0⟩ m
  | .ok none m => .running ⟨.interpreting ⟨entry, 0, 1⟩, [], m⟩
  | .ok (some routine) m => .running ⟨executing routine m, [], m⟩

end State

end StackMachine
