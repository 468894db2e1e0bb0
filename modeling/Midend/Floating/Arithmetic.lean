import Midend.Floating.Format

/-!
# Floating point arithmetic on bit patterns

Sums, products, quotients and remainders are computed exactly on what the
patterns stand for and rounded once. A NaN operand is passed on, made quiet, the
left one before the right one; an operation without a result gives
`Format.invalid`.
-/

namespace Midend.Floating

/-- A signed significand, for arithmetic at a fixed scale. -/
def signed (negative : Bool) (n : Nat) : Int := if negative then -(n : Int) else n

/-- A significand written at a finer scale. -/
def atScale (significand : Nat) (scale finer : Int) : Nat :=
  significand <<< (scale - finer).toNat

/-- How two numbers compare; a NaN compares with nothing, and the two zeros are equal. -/
def Datum.compare : Datum → Datum → Option Ordering
  | .nan .., _ | _, .nan .. => none
  | .infinite a, .infinite b => some (Ord.compare b a)
  | .infinite a, .finite .. => some (if a then .lt else .gt)
  | .finite .., .infinite b => some (if b then .gt else .lt)
  | .finite a m p, .finite b n q =>
    let s := min p q
    some (Ord.compare (signed a (atScale m p s)) (signed b (atScale n q s)))

/-- The integer part, brought into `lo … hi`; a NaN counts as zero. -/
def Datum.truncate (lo hi : Int) : Datum → Int
  | .nan .. => 0
  | .infinite negative => if negative then lo else hi
  | .finite negative m q =>
    max lo (min hi (signed negative (m <<< q.toNat >>> (-q).toNat)))

namespace Format

variable (f : Format)

/-- Passes on a NaN operand, or else applies `op` to what the operands stand for. -/
def combine (op : Datum → Datum → Nat) (a b : Nat) : Nat :=
  match f.decode a, f.decode b with
  | .nan s p, _ => f.quietNan s p
  | _, .nan s p => f.quietNan s p
  | x, y => op x y

/-- The other sign. -/
def neg (a : Nat) : Nat := a ^^^ f.signBit true

/-- The sum of two data that are no NaNs; that of opposite infinities is invalid. -/
def addDatum : Datum → Datum → Nat
  | .finite a m p, .finite b n q =>
    let s := min p q
    let sum := signed a (atScale m p s) + signed b (atScale n q s)
    if sum = 0 then f.signBit (a && b) else f.ofScaled (sum < 0) sum.natAbs s
  | .infinite a, .infinite b => if a = b then f.infinity a else f.invalid
  | .infinite a, _ => f.infinity a
  | _, .infinite b => f.infinity b
  | _, _ => f.invalid

/-- The product of two data that are no NaNs; that of an infinity and zero is invalid. -/
def mulDatum : Datum → Datum → Nat
  | .finite a m p, .finite b n q => f.ofScaled (a != b) (m * n) (p + q)
  | .infinite a, .finite b n _ => if n = 0 then f.invalid else f.infinity (a != b)
  | .finite a m _, .infinite b => if m = 0 then f.invalid else f.infinity (a != b)
  | .infinite a, .infinite b => f.infinity (a != b)
  | _, _ => f.invalid

/-- The quotient of two data that are no NaNs; by zero it is an infinity, if it is anything. -/
def divDatum : Datum → Datum → Nat
  | .finite a m p, .finite b n q =>
    if n = 0 then (if m = 0 then f.invalid else f.infinity (a != b))
    else f.ofRatio (a != b) (m <<< (p - q).toNat) (n <<< (q - p).toNat)
  | .infinite a, .finite b .. => f.infinity (a != b)
  | .finite a .., .infinite b => f.signBit (a != b)
  | _, _ => f.invalid

/-- The remainder of the quotient rounded toward zero; it has the sign of the dividend. -/
def remDatum : Datum → Datum → Nat
  | .finite a m p, .finite _ n q =>
    if n = 0 then f.invalid
    else
      let s := min p q
      f.ofScaled a (atScale m p s % atScale n q s) s
  | .finite a m p, .infinite _ => f.ofScaled a m p
  | _, _ => f.invalid

/-- The sum of the floats with the given words. -/
def add : Nat → Nat → Nat := f.combine f.addDatum

/-- Subtraction adds the other sign, and passes a NaN on as it is. -/
def sub : Nat → Nat → Nat :=
  f.combine fun x y =>
    match y with
    | .finite b n q => f.addDatum x (.finite (!b) n q)
    | .infinite b => f.addDatum x (.infinite (!b))
    | .nan .. => f.addDatum x y

/-- The product of the floats with the given words. -/
def mul : Nat → Nat → Nat := f.combine f.mulDatum

/-- The quotient of the floats with the given words. -/
def div : Nat → Nat → Nat := f.combine f.divDatum

/-- The remainder of the floats with the given words, with the sign of the first. -/
def rem : Nat → Nat → Nat := f.combine f.remDatum

/-- The nearest number of another format; the payload of a NaN keeps its leading bits. -/
def convert (target : Format) (a : Nat) : Nat :=
  match f.decode a with
  | .nan s p =>
    target.quietNan s
      (p <<< (target.fractionBits - f.fractionBits) >>> (f.fractionBits - target.fractionBits))
  | .infinite s => target.infinity s
  | .finite s m q => target.ofScaled s m q

end Format

end Midend.Floating
