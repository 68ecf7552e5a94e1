import StackMachine.Fault
import StackMachine.Word

/-!
# The call stack

One frame per active call: the function, where to go on after it returns, and its locals. The
frame of the entry function returns nowhere.
-/

namespace StackMachine

/-- The frame of one call. `returnAddress` is absent in the frame of the entry. -/
structure Frame where
  function : UInt16
  returnFunction : UInt16
  returnAddress : Option Nat
  locals : Array Word
deriving DecidableEq, Inhabited

namespace Frame

/-- A frame whose locals are all zero. -/
def zeroed (function returnFunction : UInt16) (returnAddress : Option Nat) (locals : Nat) :
    Frame :=
  ⟨function, returnFunction, returnAddress, Array.replicate locals .zero⟩

/-- Reads a local. -/
def load (f : Frame) (index : UInt8) : Except Fault Word :=
  match f.locals[index.toNat]? with
  | some w => .ok w
  | none => .error (.invalidLocal index.toNat f.locals.size)

end Frame

/-- The frames, oldest first, and how many there may be. -/
structure CallStack where
  frames : Array Frame
  limit : Nat
deriving DecidableEq, Inhabited

namespace CallStack

/-- A call stack without frames. -/
def empty (limit : Nat) : CallStack := ⟨#[], limit⟩

/-- The number of frames. -/
def depth (s : CallStack) : Nat := s.frames.size

/-- Fails when no further frame fits. -/
def checkRoom (s : CallStack) : Except Fault Unit :=
  if s.limit ≤ s.frames.size then .error (.callStackOverflow s.limit) else .ok ()

/-- Puts a frame on top. -/
def push (f : Frame) : EStateM Fault CallStack Unit := fun s =>
  if s.limit ≤ s.frames.size then .error (.callStackOverflow s.limit) s
  else .ok () ⟨s.frames.push f, s.limit⟩

/-- Takes the top frame away. -/
def pop : EStateM Fault CallStack Frame := fun s =>
  match s.frames.back? with
  | some f => .ok f ⟨s.frames.pop, s.limit⟩
  | none => .error .stackUnderflow s

/-- The top frame. -/
def top (s : CallStack) : Except Fault Frame :=
  match s.frames.back? with
  | some f => .ok f
  | none => .error .stackUnderflow

/-- Reads a local of the top frame. -/
def loadLocal (s : CallStack) (index : UInt8) : Except Fault Word :=
  match s.frames.back? with
  | some f => f.load index
  | none => .error .stackUnderflow

/-- Writes a local of the top frame. -/
def storeLocal (index : UInt8) (w : Word) : EStateM Fault CallStack Unit := fun s =>
  match s.frames.back? with
  | none => .error .stackUnderflow s
  | some f =>
    let count := f.locals.size
    if index.toNat < count then
      .ok () ⟨s.frames.modify (s.frames.size - 1) fun f =>
        { f with locals := f.locals.setIfInBounds index.toNat w }, s.limit⟩
    else .error (.invalidLocal index.toNat count) s

/-- Takes all frames away. -/
def clear (s : CallStack) : CallStack := ⟨#[], s.limit⟩

end CallStack

end StackMachine
