import Midend.Floating.Arithmetic
import Midend.Text.Number

/-!
# Reading numbers

A numeral is a number as it is written: a sign, digits, digits after a point and an
exponent. `Numeral.integer?` is its value when it has neither point nor exponent.

`Numeral.double?` is a floating point number of 64 bits. The leading digits that
fit 64 bits form the significand; the others count only as places. The significand
is rounded to a floating point number and then brought to its place by powers of
ten, rounding after each. The result is the nearest number when the significand is
below `2 ^ 53` and the power at most `10 ^ 22`, both of which are exact.
-/

namespace Midend.Decimal

open Floating Text

/-- A written number. -/
structure Numeral where
  negative : Bool
  /-- The digits before the point. -/
  whole : List Nat
  /-- The digits after the point. -/
  fraction : Option (List Nat)
  exponent : Option Int

/-! ## Grammar -/

/-- The digits at the start of a text, and the rest. -/
def takeDigits (cs : List Char) : List Nat × List Char :=
  ((cs.takeWhile Char.isDigit).filterMap digit?, cs.dropWhile Char.isDigit)

/-- The value of decimal digits. -/
def ofDigits (ds : List Nat) : Nat := ds.foldl (10 * · + ·) 0

/-- The digits after a point, if there is one. -/
def takeFraction : List Char → Option (List Nat) × List Char
  | '.' :: cs => ((takeDigits cs).1, (takeDigits cs).2)
  | cs => (none, cs)

/-- The exponent, to the end of the text. -/
def readExponent? : List Char → Option (Option Int)
  | [] => some none
  | c :: cs =>
    let (negative, cs) :=
      match cs with
      | '-' :: cs => (true, cs)
      | '+' :: cs => (false, cs)
      | cs => (false, cs)
    let (ds, rest) := takeDigits cs
    if (c = 'e' ∨ c = 'E') ∧ ds ≠ [] ∧ rest = [] then
      some (some (signed negative (ofDigits ds)))
    else none

/-- Reads a numeral. -/
def Numeral.ofText? (s : String) : Option Numeral :=
  let (negative, cs) :=
    match s.toList with
    | '-' :: cs => (true, cs)
    | cs => (false, cs)
  let (whole, cs) := takeDigits cs
  let (fraction, cs) := takeFraction cs
  if whole = [] ∨ fraction = some [] then none
  else (readExponent? cs).map fun e => ⟨negative, whole, fraction, e⟩

namespace Numeral

/-- The value of a numeral with neither point nor exponent. -/
def integer? (n : Numeral) : Option Int :=
  match n.fraction, n.exponent with
  | none, none => some (signed n.negative (ofDigits n.whole))
  | _, _ => none

/-! ## Floating point -/

/-- Appends digits to a number as long as it fits 64 bits, and counts those that are left. -/
def append : Nat → List Nat → Nat × Nat
  | n, [] => (n, 0)
  | n, d :: ds => if 10 * n + d ≤ maxCount then append (10 * n + d) ds else (n, ds.length + 1)

/-- The significand and its power of ten. -/
def scaled (n : Numeral) : Nat × Int :=
  let fraction := n.fraction.getD []
  let (m, dropped) := append 0 n.whole
  let (m, ignored) := append m fraction
  (m, dropped + ignored - fraction.length + n.exponent.getD 0)

/-- The greatest power of ten of the format of 64 bits. -/
def maxTens : Nat := 308

/-- The power of ten as a floating point number. -/
def tens (k : Nat) : Nat := Format.double.ofRatio false (Nat.pow 10 k) 1

/-- Divides by the greatest power of ten, at most `k` times and no further than zero. -/
def descend : Nat → Nat → Nat
  | 0, w => w
  | k + 1, w => if w = 0 then 0 else descend k (Format.double.div w (tens maxTens))

/-- Brings a floating point number to its place; `none` past the largest finite one. -/
def shift? (w : Nat) (e : Int) : Option Nat :=
  if w = 0 then some 0
  else if e < 0 then
    let k := (-e).toNat
    let times := (k - 1) / maxTens
    some (Format.double.div (descend times w) (tens (k - times * maxTens)))
  else if e ≤ maxTens then
    let w := Format.double.mul w (tens e.toNat)
    if w = Format.double.infinity false then none else some w
  else none

/-- The pattern of the floating point number of 64 bits; `none` past the largest finite one. -/
def double? (n : Numeral) : Option Nat :=
  let (m, e) := n.scaled
  (shift? (Format.double.ofRatio false m 1) e).map (Format.double.signBit n.negative + ·)

end Numeral

end Midend.Decimal
