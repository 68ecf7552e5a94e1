import StackMachine.Journal
import StackMachine.Native.Program
import StackMachine.Settings.Basic

/-!
# Promotion of functions

A function starts out interpreted and is compiled once: at its first call, or when it was called
often enough, depending on the mode. Whether compilation succeeds or fails is final. The table
keeps a record per function; calls to functions outside it change nothing.
-/

namespace StackMachine

open Native

/-- What became of a function. -/
inductive Standing where
  | pending
  | compiled (routine : Routine)
  | failed (reason : String)
deriving DecidableEq, Inhabited

/-- The record of one function. Times are in microseconds. -/
structure FunctionRecord where
  standing : Standing := .pending
  calls : Nat := 0
  compiles : Nat := 0
  executions : Nat := 0
  time : Nat := 0
deriving DecidableEq, Inhabited

namespace FunctionRecord

/-- The compiled code of the function. -/
def routine? (r : FunctionRecord) : Option Routine :=
  match r.standing with
  | .compiled routine => some routine
  | _ => none

/-- Whether there is compiled code. -/
def isCompiled (r : FunctionRecord) : Bool :=
  match r.standing with
  | .compiled _ => true
  | _ => false

/-- Whether compilation was given up. -/
def isFailed (r : FunctionRecord) : Bool :=
  match r.standing with
  | .failed _ => true
  | _ => false

/-- The number of calls that are spliced into the compiled code. -/
def inlinedCalls (r : FunctionRecord) : Nat :=
  match r.standing with
  | .compiled routine => routine.program.inlinedCalls
  | _ => 0

/-- Whether the compiled code jumps back. -/
def hasLoops (r : FunctionRecord) : Bool :=
  match r.standing with
  | .compiled routine => routine.program.hasLoops
  | _ => false

end FunctionRecord

/-- A record per function. -/
structure FunctionTable where
  records : Array FunctionRecord
deriving DecidableEq, Inhabited

namespace FunctionTable

/-- A table of functions that are all pending. -/
def pending (count : Nat) : FunctionTable := ⟨Array.replicate count {}⟩

/-- What is known of a function. -/
def get? (t : FunctionTable) (f : UInt16) : Option FunctionRecord := t.records[f.toNat]?

/-- The compiled code of a function. -/
def routine? (t : FunctionTable) (f : UInt16) : Option Routine :=
  match t.get? f with
  | some r => r.routine?
  | none => none

/-- Changes the record of a function. -/
def modify (t : FunctionTable) (f : UInt16) (g : FunctionRecord → FunctionRecord) :
    FunctionTable :=
  ⟨t.records.modify f.toNat g⟩

/-- Counts a call. -/
def countCall (t : FunctionTable) (f : UInt16) : FunctionTable :=
  t.modify f fun r => { r with calls := r.calls + 1 }

/-- Enters compiled code. -/
def install (t : FunctionTable) (f : UInt16) (routine : Routine) : FunctionTable :=
  t.modify f fun r => { r with standing := .compiled routine, compiles := r.compiles + 1 }

/-- Enters that a function cannot be compiled. -/
def markFailed (t : FunctionTable) (f : UInt16) (reason : String) : FunctionTable :=
  t.modify f fun r => { r with standing := .failed reason }

/-- Counts a run of compiled code. -/
def recordExecution (t : FunctionTable) (f : UInt16) (time : Nat) : FunctionTable :=
  t.modify f fun r => { r with executions := r.executions + 1, time := r.time + time }

/-- The number of functions that are compiled. -/
def compiledCount (t : FunctionTable) : Nat := t.records.countP FunctionRecord.isCompiled

end FunctionTable

/-- The state of promotion: the policy, the table, and how many compiled activations are nested
at the moment. -/
structure Promotion where
  mode : JitMode
  threshold : Nat
  options : Options
  table : FunctionTable
  depth : Nat
deriving DecidableEq, Inhabited

namespace Promotion

/-- The most compiled activations that may be nested. -/
def maxDepth : Nat := 64

/-- The start for a given number of functions. -/
def fresh (settings : Settings) (count : Nat) : Promotion where
  mode := settings.jitMode
  threshold := settings.jitThreshold
  options := { inline := settings.jitInline }
  table := .pending count
  depth := 0

/-- Compiles a function unless its standing is final. Gives whether compiled code is there, and
what is to be logged. -/
def ensureCompiled (p : Promotion) (image : Image) (f : UInt16) :
    Bool × List Event × Promotion :=
  match p.table.get? f with
  | none => (false, [], p)
  | some r =>
    match r.standing with
    | .compiled _ => (true, [], p)
    | .failed _ => (false, [], p)
    | .pending =>
      match compile image f p.options with
      | .ok program =>
        let event := .compiled f program.insts.size program.inlinedCalls program.hasLoops
        (true, [event], { p with table := p.table.install f program.prepare })
      | .error e =>
        (false, [.compileFailed f e.message],
          { p with table := p.table.markFailed f e.message })

/-- Counts a call and compiles the function when its time has come. Gives whether compiled code
is there, and what is to be logged. -/
def onCall (p : Promotion) (image : Image) (f : UInt16) : Bool × List Event × Promotion :=
  if p.mode = .off then (false, [], p)
  else
    match p.table.get? f with
    | none => (false, [], p)
    | some r =>
      let calls := r.calls + 1
      let ⟨mode, threshold, options, table, depth⟩ := p
      let p : Promotion := ⟨mode, threshold, options, table.countCall f, depth⟩
      match r.standing with
      | .compiled _ => (true, [], p)
      | .failed _ => (false, [], p)
      | .pending =>
        if mode = .on then
          if calls < threshold then (false, [], p)
          else
            let (available, events, p) := p.ensureCompiled image f
            (available, .hot f calls :: events, p)
        else p.ensureCompiled image f

/-- The compiled code of a function, unless too many compiled activations are nested. -/
def routine? (p : Promotion) (f : UInt16) : Option Routine :=
  if maxDepth ≤ p.depth then none else p.table.routine? f

/-- Starts a compiled activation. -/
def enter (p : Promotion) : Promotion := { p with depth := p.depth + 1 }

/-- Ends a compiled activation of a function. -/
def leave (p : Promotion) (f : UInt16) : Promotion :=
  { p with table := p.table.recordExecution f 0, depth := p.depth - 1 }

end Promotion

end StackMachine
