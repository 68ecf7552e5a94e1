import StackMachine.Text.Decimal
import StackMachine.Text.Hex
import StackMachine.Text.Quoted

/-!
# Faults

What can go wrong while a program runs, with the wording of each cause, and the place in the
program where it went wrong.
-/

namespace StackMachine

/-- Why a run stopped early. -/
inductive Fault where
  | stackOverflow (limit : Nat)
  | stackUnderflow
  | callStackOverflow (limit : Nat)
  | divisionByZero
  | moduloByZero
  | indexOutOfBounds (index : Int) (length : Nat)
  | negativeArrayLength (length : Int)
  | outOfMemory (length : Int)
  | invalidHandle (bits : Nat)
  | notAnArray (bits : Nat)
  | unknownOpcode (opcode : Nat)
  | truncatedInstruction (opcode : Nat)
  | invalidLocal (index count : Nat)
  | invalidGlobal (index count : Nat)
  | invalidFunction (function : Nat)
  | localsBelowArity (function arity locals : Nat)
  | jumpOutOfRange (target : Int)
  | invalidInput (text : String)
  | io (reason : String)
deriving DecidableEq, Repr, Inhabited

namespace Fault

/-- What went wrong, in words. -/
def message : Fault → String
  | stackOverflow limit => "operand stack overflow (limit " ++ Decimal.ofNat limit ++ ")"
  | stackUnderflow => "operand stack underflow"
  | callStackOverflow limit => "call stack overflow (limit " ++ Decimal.ofNat limit ++ ")"
  | divisionByZero => "division by zero"
  | moduloByZero => "modulo by zero"
  | indexOutOfBounds index length =>
    "array index " ++ Decimal.ofInt index ++ " out of bounds (length "
      ++ Decimal.ofNat length ++ ")"
  | negativeArrayLength length => "negative array length " ++ Decimal.ofInt length
  | outOfMemory length => "cannot allocate an array of length " ++ Decimal.ofInt length
  | invalidHandle bits => "invalid or dead heap handle " ++ Hex.marked 16 bits
  | notAnArray bits => "value " ++ Hex.marked 16 bits ++ " is not an array handle"
  | unknownOpcode opcode => "unknown opcode " ++ Hex.marked 2 opcode
  | truncatedInstruction opcode => "truncated operand for opcode " ++ Hex.marked 2 opcode
  | invalidLocal index count =>
    "local slot " ++ Decimal.ofNat index ++ " out of range (" ++ Decimal.ofNat count
      ++ " locals)"
  | invalidGlobal index count =>
    "global slot " ++ Decimal.ofNat index ++ " out of range (" ++ Decimal.ofNat count
      ++ " globals)"
  | invalidFunction function => "call to undefined function " ++ Decimal.ofNat function
  | localsBelowArity function arity locals =>
    "function " ++ Decimal.ofNat function ++ " has " ++ Decimal.ofNat locals
      ++ " locals for " ++ Decimal.ofNat arity ++ " parameters"
  | jumpOutOfRange target => "jump target " ++ Decimal.ofInt target ++ " outside the function"
  | invalidInput text => "invalid integer input " ++ Text.quoted text.toList
  | io reason => "I/O error: " ++ reason

end Fault

/-- A place in a program: a function and a byte offset in its code. -/
structure Location where
  function : UInt16
  pc : Nat
deriving DecidableEq, Repr, Inhabited

/-- A fault with the instruction that raised it. The final flush of the output belongs to no
instruction. -/
structure Failure where
  fault : Fault
  location : Option Location
deriving DecidableEq, Repr, Inhabited

/-- The text of the failure, with its location if there is one. -/
def Failure.message (f : Failure) : String :=
  let place := match f.location with
    | some l =>
      " (function " ++ Decimal.ofNat l.function.toNat ++ " at pc " ++ Hex.marked 4 l.pc ++ ")"
    | none => ""
  "runtime error: " ++ f.fault.message ++ place

end StackMachine
