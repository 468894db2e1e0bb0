import Midend.Operator
import Midend.Value.Basic

/-!
# Faults of evaluation

Why an expression has no value, with the wording of each cause.
-/

namespace Midend

/-- Why an evaluation failed. -/
inductive Fault where
  | recursionLimit
  | divisionByZero
  | unaryMismatch (op : UnOp) (operand : Option ValueKind)
  | binaryMismatch (op : BinOp) (left right : Option ValueKind)
  | nonBooleanCondition (kind : Option ValueKind)
  | mutatedValue (op : UnOp)
  | notAnLvalue
deriving DecidableEq

namespace Fault

/-- The name of a kind in a message. -/
def kindText : Option ValueKind → String
  | some k => k.text
  | none => "unknown"

/-- The name of the cause. -/
def name : Fault → String
  | recursionLimit => "RecursionLimitReached"
  | divisionByZero => "DivisionByZero"
  | unaryMismatch .. => "UnaryMismatch"
  | binaryMismatch .. => "BinaryMismatch"
  | nonBooleanCondition _ => "NonBooleanCondition"
  | mutatedValue _ => "MutatedValue"
  | notAnLvalue => "NotAnLvalue"

/-- What went wrong, as an error says it. -/
def message : Fault → String
  | recursionLimit => "recursion limit reached"
  | divisionByZero => "attempted to divide by zero"
  | unaryMismatch op operand =>
    "unsupported unary operation `" ++ op.text ++ "` on " ++ kindText operand
  | binaryMismatch op left right =>
    "unsupported binary operation " ++ kindText left ++ " `" ++ op.text ++ "` " ++ kindText right
  | nonBooleanCondition kind => "condition is " ++ kindText kind ++ ", not boolean"
  | mutatedValue op => "cannot apply `" ++ op.text ++ "` to a value"
  | notAnLvalue => "assignment target is not a variable"

end Fault

end Midend
