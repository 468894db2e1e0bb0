import Midend.Value.Fault
import Midend.Value.Numeric

/-!
# Operators on values

`Value.unary` and `Value.binary` give the operators their meaning; an unknown
operand makes the result unknown. `Value.convert` is the conversion of an
assignment to a variable of primitive type.
-/

namespace Midend

namespace Literal

/-- Whether the literal is a number. -/
def isNumeric (l : Literal) : Bool := l.num?.isSome

/-- Equality of constants as `==` decides it. Numbers compare after promotion. Strings compare by
identity, which no two constants are known to share. -/
def logicalEq : Literal → Literal → Bool
  | null, null => true
  | bool a, bool b => a == b
  | str _, str _ => false
  | a, b =>
    match a.num?, b.num? with
    | some a, some b => a.compare? b == some .eq
    | _, _ => false

/-- Equality under which floating point numbers compare by value: a NaN differs from itself and the
two zeros are equal. -/
def valueEq : Literal → Literal → Bool
  | float a, float b => (Num.float a).compare? (.float b) == some .eq
  | double a, double b => (Num.double a).compare? (.double b) == some .eq
  | a, b => a == b

/-- Applies a unary operator to a constant. A step writes a variable and is not defined on
constants. -/
def unary (op : UnOp) (l : Literal) : Except Fault Literal :=
  let mismatch := Except.error (Fault.unaryMismatch op (some l.kind))
  match op with
  | .not =>
    match l with
    | bool b => .ok (bool !b)
    | _ => mismatch
  | .plus =>
    match l.num? with
    | some n => .ok n.toLiteral
    | none => mismatch
  | .neg =>
    match l.num? with
    | some n => .ok n.neg.toLiteral
    | none => mismatch
  | .bitNot =>
    match l.num? with
    | some (.int i) => .ok (int (~~~i))
    | some (.long i) => .ok (long (~~~i))
    | _ => mismatch
  | .step _ => .error (.mutatedValue op)

/-- Whether either constant is a string. -/
def eitherString : Literal → Literal → Bool
  | str _, _ | _, str _ => true
  | _, _ => false

/-- Applies a binary operator to constants. Both operands count as evaluated. -/
def binary (op : BinOp) (a b : Literal) : Except Fault Literal :=
  let mismatch := Except.error (Fault.binaryMismatch op (some a.kind) (some b.kind))
  match op with
  | .arith op =>
    if op = .add ∧ eitherString a b then .ok (str (a.display ++ b.display))
    else
      match a.num?, b.num? with
      | some m, some n =>
        match op.apply m n with
        | some r => .ok r.toLiteral
        | none => .error .divisionByZero
      | _, _ => mismatch
  | .shift op =>
    match a.num?, b.num? with
    | some m, some n =>
      match op.apply m n with
      | some r => .ok r.toLiteral
      | none => mismatch
    | _, _ => mismatch
  | .bits op =>
    match a, b with
    | bool p, bool q => .ok (bool (op.bools p q))
    | a, b =>
      match a.num?, b.num? with
      | some m, some n =>
        match op.apply m n with
        | some r => .ok r.toLiteral
        | none => mismatch
      | _, _ => mismatch
  | .logic op =>
    match a, b with
    | bool p, bool q => .ok (bool (op.apply p q))
    | _, _ => mismatch
  | .equality negated => .ok (bool (a.logicalEq b != negated))
  | .order op =>
    match a.num?, b.num? with
    | some m, some n => .ok (bool (op.holds (m.compare? n)))
    | _, _ => mismatch

/-- The constant as a value of primitive type; none if it cannot be converted. -/
def convert (p : PrimTy) (l : Literal) : Option Literal :=
  match p, l with
  | .boolean, bool b => some (bool b)
  | .boolean, _ => none
  | p, l =>
    match l.num? with
    | none => none
    | some n =>
      match p with
      | .boolean => none
      | .char => some (char n.toInt32.toUInt32.toUInt16)
      | .byte => some (byte n.toInt32.toInt8)
      | .short => some (short n.toInt32.toInt16)
      | .int => some (int n.toInt32)
      | .long => some (long n.toInt64)
      | .float => some (float n.toSingle)
      | .double => some (double n.toDouble)

end Literal

namespace Value

/-- Whether the value is known to be a number. -/
def isNumeric : Value → Bool
  | unknown => false
  | known l => l.isNumeric

/-- Equality as `==` decides it; none if either value is unknown. -/
def logicalEq? : Value → Value → Option Bool
  | known a, known b => some (a.logicalEq b)
  | _, _ => none

/-- Equality under which unknown equals unknown and floating point numbers compare by value. -/
def valueEq : Value → Value → Bool
  | unknown, unknown => true
  | known a, known b => a.valueEq b
  | _, _ => false

/-- Applies a unary operator. A step is not defined on values, known or not. -/
def unary (op : UnOp) (v : Value) : Except Fault Value :=
  match v with
  | known l => (l.unary op).map known
  | unknown => if op.isStep then .error (.mutatedValue op) else .ok unknown

/-- Applies a binary operator. -/
def binary (op : BinOp) (a b : Value) : Except Fault Value :=
  match a, b with
  | known a, known b => (a.binary op b).map known
  | _, _ => .ok unknown

/-- The value as one of primitive type; unknown if it cannot be converted. -/
def convert (v : Value) (p : PrimTy) : Value :=
  match v with
  | unknown => unknown
  | known l => ofOption (l.convert p)

end Value

end Midend
