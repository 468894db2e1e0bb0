import Midend.Floating.Arithmetic
import Midend.Operator
import Midend.Value.Basic

/-!
# Promoted numbers

Arithmetic is done on numbers of four representations. Two operands are first
widened to the wider of their representations (`Num.promote`), after which each
operation is that of one representation: two's complement for the integers, one
rounding for the others.
-/

namespace Midend

open Floating (Format)

/-- A number after promotion. -/
inductive Num where
  | int (i : Int32)
  | long (i : Int64)
  | float (bits : UInt32)
  | double (bits : UInt64)
deriving DecidableEq

/-- Two numbers of one representation. -/
inductive NumPair where
  | ints (a b : Int32)
  | longs (a b : Int64)
  | floats (a b : UInt32)
  | doubles (a b : UInt64)

/-- The number a literal promotes to. -/
def Literal.num? : Literal → Option Num
  | .char u => some (.int (Int32.ofInt u.toNat))
  | .byte i => some (.int i.toInt32)
  | .short i => some (.int i.toInt32)
  | .int i => some (.int i)
  | .long i => some (.long i)
  | .float bits => some (.float bits)
  | .double bits => some (.double bits)
  | .null | .bool _ | .str _ => none

namespace Num

/-- The literal of a number. -/
def toLiteral : Num → Literal
  | int i => .int i
  | long i => .long i
  | float bits => .float bits
  | double bits => .double bits

/-! ## Widening and narrowing -/

/-- The nearest single of an integer, as a word. -/
def singleOfInt (i : Int) : UInt32 := UInt32.ofNat (Format.single.ofInt i)

/-- The nearest double of an integer, as a word. -/
def doubleOfInt (i : Int) : UInt64 := UInt64.ofNat (Format.double.ofInt i)

/-- The double that is equal to a single, as a word. -/
def doubleOfSingle (bits : UInt32) : UInt64 :=
  UInt64.ofNat (Format.single.convert .double bits.toNat)

/-- The nearest single of a double, as a word. -/
def singleOfDouble (bits : UInt64) : UInt32 :=
  UInt32.ofNat (Format.double.convert .single bits.toNat)

/-- Integers keep their low bits; floating point numbers are brought into range. -/
def toInt32 : Num → Int32
  | int i => i
  | long i => i.toInt32
  | float bits =>
    Int32.ofInt ((Format.single.decode bits.toNat).truncate Int32.minValue.toInt
      Int32.maxValue.toInt)
  | double bits =>
    Int32.ofInt ((Format.double.decode bits.toNat).truncate Int32.minValue.toInt
      Int32.maxValue.toInt)

/-- The number as a `long`; floating point numbers are brought into range. -/
def toInt64 : Num → Int64
  | int i => i.toInt64
  | long i => i
  | float bits =>
    Int64.ofInt ((Format.single.decode bits.toNat).truncate Int64.minValue.toInt
      Int64.maxValue.toInt)
  | double bits =>
    Int64.ofInt ((Format.double.decode bits.toNat).truncate Int64.minValue.toInt
      Int64.maxValue.toInt)

/-- The number as a single, as a word. -/
def toSingle : Num → UInt32
  | int i => singleOfInt i.toInt
  | long i => singleOfInt i.toInt
  | float bits => bits
  | double bits => singleOfDouble bits

/-- The number as a double, as a word. -/
def toDouble : Num → UInt64
  | int i => doubleOfInt i.toInt
  | long i => doubleOfInt i.toInt
  | float bits => doubleOfSingle bits
  | double bits => bits

/-- Both operands in the wider of their representations. -/
def promote (a b : Num) : NumPair :=
  match a, b with
  | int a, int b => .ints a b
  | double a, b => .doubles a b.toDouble
  | a, double b => .doubles a.toDouble b
  | float a, b => .floats a b.toSingle
  | a, float b => .floats a.toSingle b
  | a, b => .longs a.toInt64 b.toInt64

end Num

namespace ArithOp

/-- Integer arithmetic modulo the width. Division truncates and fails on a zero divisor. -/
def ints (op : ArithOp) (a b : Int32) : Option Int32 :=
  match op with
  | add => some (a + b)
  | sub => some (a - b)
  | mul => some (a * b)
  | div => if b = 0 then none else some (a / b)
  | rem => if b = 0 then none else some (a % b)

/-- The result for `long` operands, which wraps; none for a zero divisor. -/
def longs (op : ArithOp) (a b : Int64) : Option Int64 :=
  match op with
  | add => some (a + b)
  | sub => some (a - b)
  | mul => some (a * b)
  | div => if b = 0 then none else some (a / b)
  | rem => if b = 0 then none else some (a % b)

/-- Floating point arithmetic on patterns. -/
def floating (op : ArithOp) (f : Format) (a b : Nat) : Nat :=
  match op with
  | add => f.add a b
  | sub => f.sub a b
  | mul => f.mul a b
  | div => f.div a b
  | rem => f.rem a b

/-- Arithmetic on promoted operands; none for an integer division by zero. -/
def apply (op : ArithOp) (a b : Num) : Option Num :=
  match a.promote b with
  | .ints a b => (op.ints a b).map .int
  | .longs a b => (op.longs a b).map .long
  | .floats a b => some (.float (UInt32.ofNat (op.floating .single a.toNat b.toNat)))
  | .doubles a b => some (.double (UInt64.ofNat (op.floating .double a.toNat b.toNat)))

end ArithOp

namespace Num

/-- How two numbers compare after promotion; none if either is not a number. -/
def compare? (a b : Num) : Option Ordering :=
  match a.promote b with
  | .ints a b => some (compare a.toInt b.toInt)
  | .longs a b => some (compare a.toInt b.toInt)
  | .floats a b => (Format.single.decode a.toNat).compare (Format.single.decode b.toNat)
  | .doubles a b => (Format.double.decode a.toNat).compare (Format.double.decode b.toNat)

/-- The number with the opposite sign; integers wrap. -/
def neg : Num → Num
  | int i => int (-i)
  | long i => long (-i)
  | float bits => float (UInt32.ofNat (Format.single.neg bits.toNat))
  | double bits => double (UInt64.ofNat (Format.double.neg bits.toNat))

end Num

namespace ShiftOp

/-- A shift of an `int`, by the distance modulo 32. -/
def ints (op : ShiftOp) (a distance : Int32) : Int32 :=
  match op with
  | left => a <<< distance
  | right => a >>> distance
  | unsignedRight => (a.toUInt32 >>> distance.toUInt32).toInt32

/-- A shift of a `long`, by the distance modulo 64. -/
def longs (op : ShiftOp) (a distance : Int64) : Int64 :=
  match op with
  | left => a <<< distance
  | right => a >>> distance
  | unsignedRight => (a.toUInt64 >>> distance.toUInt64).toInt64

/-- A shift has the width of its promoted left operand alone; none if an operand is not
integral. -/
def apply (op : ShiftOp) (a distance : Num) : Option Num :=
  match a, distance with
  | .int a, .int d => some (.int (op.ints a d))
  | .int a, .long d => some (.int (op.ints a d.toInt32))
  | .long a, .int d => some (.long (op.longs a d.toInt64))
  | .long a, .long d => some (.long (op.longs a d))
  | _, _ => none

end ShiftOp

namespace BitOp

/-- The result for Booleans. -/
def bools (op : BitOp) (a b : Bool) : Bool :=
  match op with
  | and => a && b
  | or => a || b
  | xor => a != b

/-- The result for `int` operands. -/
def ints (op : BitOp) (a b : Int32) : Int32 :=
  match op with
  | and => a &&& b
  | or => a ||| b
  | xor => a ^^^ b

/-- The result for `long` operands. -/
def longs (op : BitOp) (a b : Int64) : Int64 :=
  match op with
  | and => a &&& b
  | or => a ||| b
  | xor => a ^^^ b

/-- A bitwise operation on promoted integers; none if an operand is not integral. -/
def apply (op : BitOp) (a b : Num) : Option Num :=
  match a.promote b with
  | .ints a b => some (.int (op.ints a b))
  | .longs a b => some (.long (op.longs a b))
  | .floats .. | .doubles .. => none

end BitOp

/-- Whether two numbers that compare as `o` satisfy the operator. -/
def OrderOp.holds (op : OrderOp) (o : Option Ordering) : Bool :=
  match op with
  | lt => o == some .lt
  | le => o == some .lt || o == some .eq
  | gt => o == some .gt
  | ge => o == some .gt || o == some .eq

/-- Whether two truth values satisfy the operator. -/
def LogicOp.apply (op : LogicOp) (a b : Bool) : Bool :=
  match op with
  | and => a && b
  | or => a || b

end Midend
