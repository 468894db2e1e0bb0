/-!
# Operators

Binary operators are grouped by what they do to values. A step (`++` or `--`) is
the one unary operator that writes its operand.
-/

namespace Midend

/-- The arithmetic operators. -/
inductive ArithOp where
  | add | sub | mul | div | rem
deriving DecidableEq

/-- The shifts. -/
inductive ShiftOp where
  /-- `<<` -/
  | left
  /-- `>>`, which copies the sign. -/
  | right
  /-- `>>>`, which shifts in zeros. -/
  | unsignedRight
deriving DecidableEq

/-- The bitwise operators, which Booleans have, too. -/
inductive BitOp where
  | and | or | xor
deriving DecidableEq

/-- The comparisons of numbers. -/
inductive OrderOp where
  | lt | le | gt | ge
deriving DecidableEq

/-- The operators that may skip their right operand. -/
inductive LogicOp where
  | and | or
deriving DecidableEq

/-- A binary operator. -/
inductive BinOp where
  | arith (op : ArithOp)
  | shift (op : ShiftOp)
  | bits (op : BitOp)
  | order (op : OrderOp)
  /-- `==`, or `!=` if negated. -/
  | equality (negated : Bool)
  /-- `&&` and `||`, whose right operand is only evaluated depending on the left one. -/
  | logic (op : LogicOp)
deriving DecidableEq

namespace BinOp

/-- The operator as it is written. -/
def text : BinOp → String
  | order .lt => "<"
  | order .le => "<="
  | order .gt => ">"
  | order .ge => ">="
  | equality false => "=="
  | equality true => "!="
  | logic .or => "||"
  | logic .and => "&&"
  | shift .right => ">>"
  | shift .left => "<<"
  | shift .unsignedRight => ">>>"
  | bits .and => "&"
  | bits .or => "|"
  | bits .xor => "^"
  | arith .add => "+"
  | arith .sub => "-"
  | arith .mul => "*"
  | arith .div => "/"
  | arith .rem => "%"

/-- All binary operators. -/
def all : List BinOp :=
  [order .lt, order .le, order .gt, order .ge, equality false, equality true, logic .or,
    logic .and, shift .right, shift .left, shift .unsignedRight, bits .and, bits .or, bits .xor,
    arith .add, arith .sub, arith .mul, arith .div, arith .rem]

/-- The operator that is written like this. -/
def ofText? (s : String) : Option BinOp := all.find? (·.text == s)

/-- Whether the operator can be combined with `=`. -/
def isAssignable : BinOp → Bool
  | arith _ | shift _ | bits _ => true
  | order _ | equality _ | logic _ => false

/-- Whether the right operand may be skipped. -/
def isShortCircuit : BinOp → Bool
  | logic _ => true
  | _ => false

/-- Whether the operator compares its operands. -/
def isComparison : BinOp → Bool
  | order _ | equality _ => true
  | _ => false

/-- Whether the operator is a shift. -/
def isShift : BinOp → Bool
  | shift _ => true
  | _ => false

/-- Whether the operator divides, and so may fail. -/
def isDivision : BinOp → Bool
  | arith .div | arith .rem => true
  | _ => false

/-- The binding power in text: higher binds tighter. -/
def precedence : BinOp → Nat
  | logic .or => 3
  | logic .and => 4
  | bits .or => 5
  | bits .xor => 6
  | bits .and => 7
  | equality _ => 8
  | order _ => 9
  | shift _ => 10
  | arith .add | arith .sub => 11
  | arith .mul | arith .div | arith .rem => 12

end BinOp

/-- An increment or decrement, written before or after its operand. -/
structure Step where
  increments : Bool
  after : Bool
deriving DecidableEq

/-- A unary operator. -/
inductive UnOp where
  | step (s : Step)
  | not
  | neg
  | plus
  | bitNot
deriving DecidableEq

namespace UnOp

/-- The operator as it is written. -/
def text : UnOp → String
  | step s => if s.increments then "++" else "--"
  | not => "!"
  | neg => "-"
  | plus => "+"
  | bitNot => "~"

/-- Whether the operator is written after its operand. -/
def isAfter : UnOp → Bool
  | step s => s.after
  | _ => false

/-- Whether the operator writes its operand. -/
def isStep : UnOp → Bool
  | step _ => true
  | _ => false

/-- Whether the operator increments its operand. -/
def isIncrement : UnOp → Bool
  | step s => s.increments
  | _ => false

end UnOp

end Midend
