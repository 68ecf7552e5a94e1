import StackMachine.Settings.Basic
import StackMachine.Toml.Document

/-!
# Settings files

Settings are read from a TOML document. Keys that are missing keep their default and keys that
are unknown are ignored; a known key with a value of the wrong kind is an error.
-/

namespace StackMachine.Settings

open Toml

/-- Reads a truth value. -/
def readBool : Node → Option Bool
  | .boolean b => some b
  | _ => none

/-- Reads a number that is not negative and at most `max`. -/
def readNat (max : Nat) : Node → Option Nat
  | .integer n => if 0 ≤ n ∧ n.toNat ≤ max then some n.toNat else none
  | _ => none

/-- A node without content, as it may stand beside the name of a mode. -/
def isEmptyNode : Node → Bool
  | .array [] | .tables [] | .table _ [] => true
  | _ => false

/-- Reads a mode: its name, or a table whose only key is the name and holds nothing. -/
def readMode : Node → Option JitMode
  | .string name => JitMode.ofName? name
  | .table _ [(name, node)] => if isEmptyNode node then JitMode.ofName? name else none
  | _ => none

/-- The value of a key, or its default if the key is missing. -/
def readKey {α : Type} (entries : Entries) (key : String) (default : α)
    (read : Node → Option α) : Option α :=
  match entries.find? key with
  | some node => read node
  | none => some default

/-- Reads settings from the top table of a document. -/
def ofEntries (entries : Entries) : Option Settings := do
  let base : Settings := {}
  let jitMode ← readKey entries "jit_mode" base.jitMode readMode
  let jitThreshold ← readKey entries "jit_threshold" base.jitThreshold (readNat 4294967295)
  let jitInline ← readKey entries "jit_inline" base.jitInline readBool
  let traceJit ← readKey entries "trace_jit" base.traceJit readBool
  let traceExec ← readKey entries "trace_exec" base.traceExec readBool
  let gcEnabled ← readKey entries "gc_enabled" base.gcEnabled readBool
  let gcThreshold ← readKey entries "gc_threshold" base.gcThreshold (readNat 9223372036854775807)
  let gcStats ← readKey entries "gc_stats" base.gcStats readBool
  let maxStack ← readKey entries "max_stack" base.maxStack (readNat 9223372036854775807)
  let maxCallDepth ←
    readKey entries "max_call_depth" base.maxCallDepth (readNat 9223372036854775807)
  some {
    jitMode := jitMode
    jitThreshold := jitThreshold
    jitInline := jitInline
    traceJit := traceJit
    traceExec := traceExec
    gcEnabled := gcEnabled
    gcThreshold := gcThreshold
    gcStats := gcStats
    maxStack := maxStack
    maxCallDepth := maxCallDepth }

/-- Reads settings from the text of a settings file. -/
def parse (text : String) : Option Settings :=
  match Toml.parse text with
  | some entries => ofEntries entries
  | none => none

end StackMachine.Settings
