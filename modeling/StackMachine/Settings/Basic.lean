import StackMachine.Heap.Basic

/-!
# Settings

How a program is run: when functions are compiled, when garbage is collected, how large the
stacks may grow and what is reported.
-/

namespace StackMachine

/-- When functions are compiled: never, after enough calls, or at the first call. -/
inductive JitMode where
  | off | on | always
deriving DecidableEq, Repr, Inhabited

/-- The name of the mode. -/
def JitMode.name : JitMode → String
  | off => "off"
  | on => "on"
  | always => "always"

/-- Every mode. -/
def JitMode.all : List JitMode := [off, on, always]

/-- The mode with the given name. -/
def JitMode.ofName? (name : String) : Option JitMode := all.find? fun mode => mode.name == name

/-- The settings of a run. -/
structure Settings where
  /-- When functions are compiled. -/
  jitMode : JitMode := .on
  /-- The calls after which a function is compiled in mode `on`. -/
  jitThreshold : Nat := 10
  /-- Whether small leaf functions are spliced into their callers. -/
  jitInline : Bool := true
  /-- Whether compilation is reported at a higher level. -/
  traceJit : Bool := false
  /-- Whether every interpreted instruction is logged. -/
  traceExec : Bool := false
  /-- Whether an allocation may start a collection. -/
  gcEnabled : Bool := true
  /-- The words in use from which on a collection is due. -/
  gcThreshold : Nat := Heap.defaultThreshold
  /-- Whether statistics are printed after the run. -/
  gcStats : Bool := false
  /-- The most words on the operand stack. -/
  maxStack : Nat := 65536
  /-- The most frames on the call stack. -/
  maxCallDepth : Nat := 1024
deriving DecidableEq, Repr, Inhabited

namespace Settings

/-- The settings that compile nothing. -/
def interpreter : Settings := { jitMode := .off }

/-- The settings that compile every function at its first call. -/
def eager : Settings := { jitMode := .always }

end Settings

end StackMachine
