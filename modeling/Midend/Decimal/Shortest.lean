import Midend.Floating.Format

/-!
# The shortest decimal of a floating point number

A decimal reads back as the number `x` when it lies among the reals that round
to `x`: from halfway to the number below to halfway to the number above, the ends
included when the significand of `x` is even. The digits of `x` are the fewest
that read back; of two decimals of that length the nearer is taken, and if they
are equally near a `Tie` decides.
-/

namespace Midend.Decimal

/-- A positive number, `significand · 2 ^ scale`. -/
structure Binary where
  significand : Nat
  scale : Int
  /-- The gap to the number below is half the gap to the number above. -/
  narrowBelow : Bool

/-- A decimal, `digits · 10 ^ exponent`. -/
structure Dec where
  digits : Nat
  exponent : Int
deriving DecidableEq

/-- Which of two equally near decimals is taken. -/
inductive Tie where
  | upper
  /-- The one whose last digit is even. -/
  | even

/-- Whether the lower of two equally near decimals is taken. -/
def Tie.takesLower (t : Tie) (lower : Nat) : Bool :=
  match t with
  | upper => false
  | even => lower % 2 == 0

/-- Compares `a · 10 ^ i` with `n · 2 ^ j`. -/
def compareScaled (a : Nat) (i : Int) (n : Nat) (j : Int) : Ordering :=
  compare ((a * Nat.pow 10 i.toNat) <<< (-j).toNat) ((n * Nat.pow 10 (-i).toNat) <<< j.toNat)

/-- Whether the decimal lies among the reals that round to `x`. -/
def Binary.readsBack (x : Binary) (d : Dec) : Bool :=
  let lower := if x.narrowBelow then 4 * x.significand - 1 else 4 * x.significand - 2
  let upper := 4 * x.significand + 2
  let closed := x.significand % 2 == 0
  let below := compareScaled d.digits d.exponent lower (x.scale - 2)
  let above := compareScaled d.digits d.exponent upper (x.scale - 2)
  (below == .gt || (closed && below == .eq)) && (above == .lt || (closed && above == .eq))

/-- Moves a guess at the number of places before the point up or down, at most `n` steps. -/
def Binary.settlePlaces (x : Binary) : Nat → Int → Int
  | 0, k => k
  | n + 1, k =>
    if compareScaled 1 k x.significand x.scale != .gt then x.settlePlaces n (k + 1)
    else if compareScaled 1 (k - 1) x.significand x.scale == .gt then x.settlePlaces n (k - 1)
    else k

/-- The least `k` with `x < 10 ^ k`. -/
def Binary.places (x : Binary) : Int :=
  x.settlePlaces 8 ((((x.significand.log2 : Int) + x.scale) * 30103).ediv 100000)

/-- The two neighbours of `x` on the grid `10 ^ exponent`: of those that read back, the nearer. -/
def Binary.onGrid (x : Binary) (tie : Tie) (exponent : Int) : Option Dec :=
  let num := x.significand <<< x.scale.toNat * Nat.pow 10 (-exponent).toNat
  let den := Nat.pow 10 exponent.toNat <<< (-x.scale).toNat
  let below : Dec := ⟨num / den, exponent⟩
  let above : Dec := ⟨num / den + 1, exponent⟩
  match x.readsBack below, x.readsBack above with
  | true, true =>
    let twice := 2 * (num % den)
    some (if twice < den || (twice == den && tie.takesLower (num / den)) then below else above)
  | true, false => some below
  | false, true => some above
  | false, false => none

/-- Drops trailing zeros, at most `n` of them. -/
def Dec.strip : Nat → Dec → Dec
  | 0, d => d
  | n + 1, d =>
    if d.digits != 0 && d.digits % 10 == 0 then Dec.strip n ⟨d.digits / 10, d.exponent + 1⟩ else d

/-- The value itself, digit by digit. -/
def Binary.exact (x : Binary) : Dec :=
  ⟨x.significand <<< x.scale.toNat * Nat.pow 5 (-x.scale).toNat, min x.scale 0⟩

/-- The fewest digits that read back as `x`. -/
def Binary.shortest (x : Binary) (tie : Tie) : Dec :=
  let k := x.places
  let found := (List.range 17).findSome? fun n => x.onGrid tie (k - (n + 1 : Nat))
  let d := found.getD x.exact
  d.strip (Nat.toDigits 10 d.digits).length

end Midend.Decimal
