/-!
# Binary floating point formats

A floating point number is kept as its bit pattern: a sign, an exponent field and
a fraction field. `Format.decode` reads a pattern as a `Datum`, where a finite
number is `± significand · 2 ^ scale` exactly, and `Format.ofRatio` is the one
place where a result is rounded: to the nearest number of the format, a half to
the even neighbour.
-/

namespace Midend.Floating

/-- A binary format, given by the widths of its fields. -/
structure Format where
  fractionBits : Nat
  exponentBits : Nat
deriving DecidableEq

/-- What a bit pattern stands for. -/
inductive Datum where
  | nan (negative : Bool) (payload : Nat)
  | infinite (negative : Bool)
  | finite (negative : Bool) (significand : Nat) (scale : Int)
deriving DecidableEq

namespace Format

/-- The format of 32 bits. -/
def single : Format := ⟨23, 8⟩

/-- The format of 64 bits. -/
def double : Format := ⟨52, 11⟩

variable (f : Format)

/-- The exponent field of the infinities and of the patterns that are not a number. -/
def topExponent : Nat := 1 <<< f.exponentBits - 1

/-- The scale of the last place of the least positive number. -/
def leastScale : Int := 2 - (1 <<< (f.exponentBits - 1) : Nat) - f.fractionBits

/-- The sign as the leading bit of a pattern. -/
def signBit (negative : Bool) : Nat :=
  if negative then 1 <<< (f.exponentBits + f.fractionBits) else 0

/-- The leading bit of the fraction field, set in a quiet NaN. -/
def quietBit : Nat := 1 <<< (f.fractionBits - 1)

/-- The pattern of an infinity. -/
def infinity (negative : Bool) : Nat :=
  f.signBit negative + f.topExponent <<< f.fractionBits

/-- A quiet NaN. -/
def quietNan (negative : Bool) (payload : Nat) : Nat :=
  f.infinity negative + (payload ||| f.quietBit)

/-- The result of an operation that has none: a quiet NaN with its sign set. -/
def invalid : Nat := f.quietNan true 0

/-! ## Reading a pattern -/

/-- The sign bit of a word. -/
def isNegative (w : Nat) : Bool := w.testBit (f.exponentBits + f.fractionBits)

/-- The exponent of a word, with its bias. -/
def exponentField (w : Nat) : Nat := w >>> f.fractionBits % 1 <<< f.exponentBits

/-- The bits of a word below its exponent. -/
def fractionField (w : Nat) : Nat := w % 1 <<< f.fractionBits

/-- What the pattern `w` stands for. -/
def decode (w : Nat) : Datum :=
  let fraction := f.fractionField w
  if f.exponentField w = f.topExponent then
    if fraction = 0 then .infinite (f.isNegative w) else .nan (f.isNegative w) fraction
  else if f.exponentField w = 0 then .finite (f.isNegative w) fraction f.leastScale
  else
    .finite (f.isNegative w) (1 <<< f.fractionBits + fraction)
      (f.leastScale + (f.exponentField w - 1 : Nat))

/-- The gap to the number below is half the gap to the number above: the significand is the
least of its binade, and the binade is not the lowest. -/
def hasNarrowGapBelow (w : Nat) : Bool :=
  f.fractionField w == 0 && f.exponentField w > 1

/-! ## Rounding -/

/-- The nearest natural number to `num / den`, a half going to the even one. -/
def roundQuotient (num den : Nat) : Nat :=
  let quotient := num / den
  let twice := 2 * (num % den)
  if twice > den || (twice == den && quotient % 2 == 1) then quotient + 1 else quotient

/-- The binary order of magnitude: the `k` with `2 ^ k ≤ num / den < 2 ^ (k + 1)`, for positive
`num` and `den`. -/
def magnitude (num den : Nat) : Int :=
  let k := (num.log2 : Int) - den.log2
  if num <<< (-k).toNat < den <<< k.toNat then k - 1 else k

/-- The pattern of the number of the format nearest to `± num / den`, a half going to the even
neighbour. Past the largest finite number that is an infinity. -/
def ofRatio (negative : Bool) (num den : Nat) : Nat :=
  if num = 0 then f.signBit negative
  else
    let scale := max (magnitude num den - f.fractionBits) f.leastScale
    let significand := roundQuotient (num <<< (-scale).toNat) (den <<< scale.toNat)
    let w := (scale - f.leastScale).toNat <<< f.fractionBits + significand
    if w ≥ f.topExponent <<< f.fractionBits then f.infinity negative
    else f.signBit negative + w

/-- The nearest pattern to `± significand · 2 ^ scale`. -/
def ofScaled (negative : Bool) (significand : Nat) (scale : Int) : Nat :=
  f.ofRatio negative (significand <<< scale.toNat) (1 <<< (-scale).toNat)

/-- The nearest pattern to an integer. -/
def ofInt (i : Int) : Nat := f.ofRatio (i < 0) i.natAbs 1

end Format

end Midend.Floating
