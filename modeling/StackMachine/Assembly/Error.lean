import StackMachine.Text.Decimal

/-!
# Errors in assembly text

Each error names what is wrong; those that belong to a line carry its number, counted from one.
-/

namespace StackMachine.Assembly

/-- A breach of the grammar of assembly text. -/
inductive SyntaxError where
  | globalsWithoutCount
  | entryWithoutFunction
  | functionWithoutName
  | attributeWithoutValue (word : String)
  | unknownAttribute (key : String)
  | localsBelowArity
  | endOutsideFunction
  | unknownDirective (directive : String)
  | labelOutsideFunction
  | emptyLabel
  | instructionOutsideFunction
  | tooManyOperands
  | invalidNumber (text : String)
  | unexpectedOperand (mnemonic : String)
  | missingOperand (mnemonic : String)
  | jumpTooFar
deriving DecidableEq, Repr, Inhabited

/-- What is wrong, in words. -/
def SyntaxError.message : SyntaxError → String
  | globalsWithoutCount => ".globals needs a count"
  | entryWithoutFunction => ".entry needs a function"
  | functionWithoutName => ".func needs a name"
  | attributeWithoutValue word => "expected key=value, got `" ++ word ++ "`"
  | unknownAttribute key => "unknown attribute `" ++ key ++ "`"
  | localsBelowArity => "locals must be at least arity"
  | endOutsideFunction => ".end outside of a function"
  | unknownDirective directive => "unknown directive `" ++ directive ++ "`"
  | labelOutsideFunction => "label outside of a function"
  | emptyLabel => "empty label"
  | instructionOutsideFunction => "instruction outside of a function"
  | tooManyOperands => "too many operands"
  | invalidNumber text => "invalid number `" ++ text ++ "`"
  | unexpectedOperand mnemonic => "`" ++ mnemonic ++ "` takes no operand"
  | missingOperand mnemonic => "`" ++ mnemonic ++ "` needs an operand"
  | jumpTooFar => "jump offset out of range"

/-- Why a text cannot be assembled. -/
inductive Error where
  | grammar (line : Nat) (error : SyntaxError)
  | unknownInstruction (line : Nat) (mnemonic : String)
  | undefinedLabel (line : Nat) (label : String)
  | duplicateLabel (line : Nat) (label : String)
  | undefinedFunction (line : Nat) (name : String)
  | duplicateFunction (name : String)
  | unterminatedFunction (name : String)
  | empty
deriving DecidableEq, Repr, Inhabited

/-- The text of the error. -/
def Error.message : Error → String
  | grammar line error => "line " ++ Decimal.ofNat line ++ ": " ++ error.message
  | unknownInstruction line mnemonic =>
    "line " ++ Decimal.ofNat line ++ ": unknown instruction `" ++ mnemonic ++ "`"
  | undefinedLabel line label =>
    "line " ++ Decimal.ofNat line ++ ": undefined label `" ++ label ++ "`"
  | duplicateLabel line label =>
    "line " ++ Decimal.ofNat line ++ ": duplicate label `" ++ label ++ "`"
  | undefinedFunction line name =>
    "line " ++ Decimal.ofNat line ++ ": undefined function `" ++ name ++ "`"
  | duplicateFunction name => "duplicate function `" ++ name ++ "`"
  | unterminatedFunction name => "unterminated function `" ++ name ++ "` (missing .end)"
  | empty => "no functions defined"

end StackMachine.Assembly
