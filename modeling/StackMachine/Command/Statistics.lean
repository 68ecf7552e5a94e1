import StackMachine.Session
import StackMachine.Text.Record

/-!
# Statistics of a run

What the collector and the compiler did, as lines for people or as a JSON record. Time is not
measured: every duration is written as zero.
-/

namespace StackMachine

/-- How statistics are written. -/
inductive StatisticsFormat where
  | human | json
deriving DecidableEq, Repr, Inhabited

/-- The format with the given name. -/
def StatisticsFormat.ofName? (name : String) : Option StatisticsFormat :=
  if name = "human" then some .human
  else if name = "json" then some .json
  else none

/-- The counters of a session. -/
structure Statistics where
  collector : CollectorStats
  functions : Array FunctionRecord
deriving Inhabited

namespace Statistics

/-- The statistics of a session. -/
def ofSession (s : Session) : Statistics :=
  ⟨s.machine.collector, s.machine.promotion.table.records⟩

/-- What became of a function, in one word. -/
def standingName (r : FunctionRecord) : String :=
  if r.isCompiled then "compiled" else if r.isFailed then "failed" else "interpreted"

/-- The line about the collector. -/
def collectorLine (c : CollectorStats) : String :=
  "[GC] cycles: " ++ Decimal.ofNat c.cycles ++ ", arrays freed: " ++ Decimal.ofNat c.freed
    ++ ", live words: " ++ Decimal.ofNat c.liveWords ++ ", total pause: 0ns, max pause: 0ns"

/-- The line about a function. -/
def functionLine (index : Nat) (r : FunctionRecord) : String :=
  "[JIT] fn " ++ Decimal.ofNat index ++ ": " ++ Decimal.ofNat r.calls ++ " calls, "
    ++ standingName r ++ ", " ++ Decimal.ofNat r.executions ++ " native runs in 0ns, "
    ++ Decimal.ofNat r.inlinedCalls ++ " inlined calls"

/-- The lines for people; functions that were never called are left out. -/
def lines (s : Statistics) : List String :=
  collectorLine s.collector ::
    s.functions.toList.zipIdx.filterMap fun (r, index) =>
      if 0 < r.calls then some (functionLine index r) else none

/-- A duration of no time. -/
def noTime : Record := .fields [("secs", .number 0), ("nanos", .number 0)]

/-- The record about a function. -/
def functionRecord (index : Nat) (r : FunctionRecord) : Record :=
  .fields [
    ("function", .number index),
    ("call_count", .number r.calls),
    ("compile_count", .number r.compiles),
    ("native_executions", .number r.executions),
    ("native_time", noTime),
    ("compiled", .boolean r.isCompiled),
    ("failed", .boolean r.isFailed),
    ("inlined_calls", .number r.inlinedCalls),
    ("has_loops", .boolean r.hasLoops)]

/-- The record with everything. -/
def record (s : Statistics) : Record :=
  .fields [
    ("gc", .fields [
      ("cycles", .number s.collector.cycles),
      ("arrays_freed", .number s.collector.freed),
      ("total_pause", noTime),
      ("max_pause", noTime),
      ("live_words", .number s.collector.liveWords)]),
    ("jit", .list (s.functions.toList.zipIdx.map fun (r, index) => functionRecord index r))]

/-- The text of the statistics in a format, as lines. -/
def text (s : Statistics) : StatisticsFormat → List String
  | .human => s.lines
  | .json => [s.record.pretty 0]

end Statistics

end StackMachine
