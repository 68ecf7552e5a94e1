import StackMachine.Assembly.Assemble
import StackMachine.Assembly.Error
import StackMachine.Assembly.Source
import StackMachine.Command.Arguments
import StackMachine.Command.Folder
import StackMachine.Command.Perform
import StackMachine.Command.Statistics
import StackMachine.Console
import StackMachine.Double.Basic
import StackMachine.Double.Reading
import StackMachine.Double.Shortest
import StackMachine.Fault
import StackMachine.Heap.Basic
import StackMachine.Heap.Collect
import StackMachine.Image.Basic
import StackMachine.Image.Format
import StackMachine.Instr.Basic
import StackMachine.Instr.Codec
import StackMachine.Journal
import StackMachine.Listing
import StackMachine.LittleEndian
import StackMachine.Machine.Basic
import StackMachine.Machine.Interactive
import StackMachine.Machine.Interpret
import StackMachine.Machine.Run
import StackMachine.Main
import StackMachine.Memory.Basic
import StackMachine.Memory.CallStack
import StackMachine.Memory.OperandStack
import StackMachine.Native.Execute
import StackMachine.Native.Leaf
import StackMachine.Native.Program
import StackMachine.Native.Registers
import StackMachine.Operator
import StackMachine.Promotion
import StackMachine.Proofs.LittleEndian
import StackMachine.Proofs.Pointwise
import StackMachine.Proofs.Paired
import StackMachine.Proofs.Console
import StackMachine.Proofs.Word.Handles
import StackMachine.Proofs.Heap.Marking
import StackMachine.Proofs.Heap.Changes
import StackMachine.Proofs.Heap.Collection
import StackMachine.Proofs.Heap.Freshness
import StackMachine.Proofs.Heap.Renaming
import StackMachine.Proofs.Heap.Accounts
import StackMachine.Proofs.Heap.Retirement
import StackMachine.Proofs.Heap.Access
import StackMachine.Proofs.Image.Cursor
import StackMachine.Proofs.Image.RoundTrip
import StackMachine.Proofs.Image.Damage
import StackMachine.Proofs.Instr.Codec
import StackMachine.Proofs.Assembly.WellFormed
import StackMachine.Proofs.Machine.Parts
import StackMachine.Proofs.Machine.Phases
import StackMachine.Proofs.Machine.Alike
import StackMachine.Proofs.Machine.Calls
import StackMachine.Proofs.Machine.Renaming
import StackMachine.Proofs.Machine.Tame
import StackMachine.Proofs.Machine.Collecting
import StackMachine.Proofs.Machine.Faults
import StackMachine.Proofs.Machine.Invariant
import StackMachine.Proofs.Machine.Grounded
import StackMachine.Proofs.Machine.Honest
import StackMachine.Proofs.Machine.Frames
import StackMachine.Proofs.Machine.Blame
import StackMachine.Proofs.Machine.Stepping
import StackMachine.Proofs.Machine.Uniform
import StackMachine.Proofs.Machine.Abreast
import StackMachine.Proofs.Native.Layout
import StackMachine.Proofs.Native.Registers
import StackMachine.Proofs.Native.Twin
import StackMachine.Proofs.Native.Splice
import StackMachine.Proofs.Native.Mirror
import StackMachine.Proofs.Native.Lockstep
import StackMachine.Proofs.Native.Compilable
import StackMachine.Proofs.Native.Rendering
import StackMachine.Proofs.Native.Headroom
import StackMachine.Proofs.Assembly.Labels
import StackMachine.Proofs.Assembly.Resolution
import StackMachine.Proofs.Text.ReadBack
import StackMachine.Proofs.Assembly.Writing
import StackMachine.Proofs.Native.Transparency
import StackMachine.Proofs.Native.Framing
import StackMachine.Proofs.Native.Located
import StackMachine.Proofs.Native.Promotion
import StackMachine.Proofs.Native.Stepping
import StackMachine.Proofs.Native.Returns
import StackMachine.Proofs.Native.Isolation
import StackMachine.Proofs.Native.InPlace
import StackMachine.Proofs.Native.Moves
import StackMachine.Proofs.Native.Nesting
import StackMachine.Proofs.Native.Cache
import StackMachine.Proofs.Listing
import StackMachine.Queue
import StackMachine.Session
import StackMachine.Settings.Basic
import StackMachine.Settings.File
import StackMachine.Text.Blank
import StackMachine.Text.Decimal
import StackMachine.Text.Hex
import StackMachine.Text.Hidden
import StackMachine.Text.Quoted
import StackMachine.Text.Record
import StackMachine.Toml.Document
import StackMachine.Toml.Lexeme
import StackMachine.Toml.Node
import StackMachine.Word
