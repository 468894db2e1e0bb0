import Midend.Decimal.Shortest

/-!
# Writing floating point numbers

Magnitudes in a range are written positionally, all others with an exponent. A
`Layout` says where the range ends and how exponents look. Positional numbers have
at least one digit after the point: `0.001`, `1234567.0`. In source text those with
an exponent have one too: `1.0E7`, `-1.5E-4`.
-/

namespace Midend.Decimal

open Floating

/-- Where positional notation begins and ends, how exponents are written, and how numbers without
digits are spelled. -/
structure Layout where
  /-- The least exponent of the leading digit that is written positionally. -/
  plainFrom : Int
  /-- The least exponent above it that is not. -/
  plainBelow : Int
  exponentMark : String
  /-- A positive exponent has a plus sign. -/
  signsExponent : Bool
  /-- A single digit before an exponent is followed by a point and a zero. -/
  padsScientific : Bool
  tie : Tie
  nan : String
  infinity : String

/-- The layout of numbers in source text and in concatenated strings. -/
def sourceLayout : Layout := ⟨-3, 7, "E", false, true, .upper, "NaN", "Infinity"⟩

/-- The text `a.b`, with a zero for a missing `b`. -/
def pointed (whole fraction : List Char) : String :=
  String.ofList whole ++ "." ++ (if fraction.isEmpty then "0" else String.ofList fraction)

/-- Digits written positionally, the leading one at exponent `e`. -/
def positional (digits : List Char) (e : Int) : String :=
  if e < 0 then pointed ['0'] (List.replicate (-e - 1).toNat '0' ++ digits)
  else
    let padded := digits ++ List.replicate (e.toNat + 1 - digits.length) '0'
    pointed (padded.take (e.toNat + 1)) (padded.drop (e.toNat + 1))

/-- Digits with the point after the first one and the exponent `e`. -/
def Layout.scientific (l : Layout) (digits : List Char) (e : Int) : String :=
  (if digits.length = 1 ∧ ¬ l.padsScientific then String.ofList digits
    else pointed (digits.take 1) (digits.drop 1)) ++
    l.exponentMark ++ (if 0 < e ∧ l.signsExponent then "+" else "") ++ toString e

/-- A positive decimal in the given layout. -/
def Layout.write (l : Layout) (d : Dec) : String :=
  let digits := Nat.toDigits 10 d.digits
  let e := d.exponent + (digits.length : Int) - 1
  if l.plainFrom ≤ e ∧ e < l.plainBelow then positional digits e
  else l.scientific digits e

/-- The number with bit pattern `w` in the given layout. -/
def Layout.text (l : Layout) (f : Format) (w : Nat) : String :=
  match f.decode w with
  | .nan .. => l.nan
  | .infinite negative => (if negative then "-" else "") ++ l.infinity
  | .finite negative significand scale =>
    (if negative then "-" else "") ++
      (if significand = 0 then "0.0"
       else l.write (Binary.shortest ⟨significand, scale, f.hasNarrowGapBelow w⟩ l.tie))

end Midend.Decimal
