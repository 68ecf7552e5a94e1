import StackMachine.Double.Basic
import StackMachine.Fault

/-!
# Operators

The instructions that replace one or two operands by a result. Integer arithmetic wraps around
at 64 bits and division goes toward zero; comparisons give one or zero. Dividing by zero is a
fault, for doubles as well as for integers.
-/

namespace StackMachine

/-- Operators on two operands. -/
inductive BinaryOp where
  | add | sub | mul | div | mod
  | eq | ne | lt | le | gt | ge
  | dadd | dsub | dmul | ddiv | dmod
  | deq | dne | dlt | dle | dgt | dge
deriving DecidableEq, Repr, Inhabited

/-- Operators on one operand. -/
inductive UnaryOp where
  | neg | dneg | i2d | d2i | dsqrt
deriving DecidableEq, Repr, Inhabited

/-- The result of `a op b`. -/
def BinaryOp.eval (op : BinaryOp) (a b : Word) : Except Fault Word :=
  match op with
  | add => .ok (.ofInt (a.toInt + b.toInt))
  | sub => .ok (.ofInt (a.toInt - b.toInt))
  | mul => .ok (.ofInt (a.toInt * b.toInt))
  | div => if b.isZero then .error .divisionByZero else .ok (.ofInt (a.toInt / b.toInt))
  | mod => if b.isZero then .error .moduloByZero else .ok (.ofInt (a.toInt % b.toInt))
  | eq => .ok (.ofBool (a.toInt == b.toInt))
  | ne => .ok (.ofBool (a.toInt != b.toInt))
  | lt => .ok (.ofBool (a.toInt < b.toInt))
  | le => .ok (.ofBool (a.toInt ≤ b.toInt))
  | gt => .ok (.ofBool (b.toInt < a.toInt))
  | ge => .ok (.ofBool (b.toInt ≤ a.toInt))
  | dadd => .ok (.ofDouble (Double.add a.bits b.bits))
  | dsub => .ok (.ofDouble (Double.sub a.bits b.bits))
  | dmul => .ok (.ofDouble (Double.mul a.bits b.bits))
  | ddiv =>
    if Double.isZero b.bits then .error .divisionByZero
    else .ok (.ofDouble (Double.div a.bits b.bits))
  | dmod =>
    if Double.isZero b.bits then .error .moduloByZero
    else .ok (.ofDouble (Double.rem a.bits b.bits))
  | deq => .ok (.ofBool (Double.eq a.bits b.bits))
  | dne => .ok (.ofBool (!Double.eq a.bits b.bits))
  | dlt => .ok (.ofBool (Double.lt a.bits b.bits))
  | dle => .ok (.ofBool (Double.le a.bits b.bits))
  | dgt => .ok (.ofBool (Double.lt b.bits a.bits))
  | dge => .ok (.ofBool (Double.le b.bits a.bits))

/-- The result of `op a`. -/
def UnaryOp.eval (op : UnaryOp) (a : Word) : Word :=
  match op with
  | neg => .ofInt (-a.toInt)
  | dneg => .ofDouble (Double.neg a.bits)
  | i2d => .ofDouble (Double.ofInt a.toInt)
  | d2i => .ofInt (Double.toInt a.bits)
  | dsqrt => .ofDouble (Double.sqrt a.bits)

end StackMachine
