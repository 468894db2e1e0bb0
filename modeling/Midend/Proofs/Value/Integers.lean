import Mathlib.Data.Int.ModEq
import Midend.Proofs.Value.Words

/-!
# Arithmetic on integral constants

A constant of an integral type stands for an integer (`Literal.integer?`), and a
constant of a given type is known from an integer modulo the width of that type
(`Literal.Wraps`, `Literal.Wraps.unique`). The operators first promote both operands,
which keeps their integers, then operate in 32 or 64 bits: what they give wraps the
integer result, or is exactly that where it fits. `Literal.binary_integers` collects
this for all of them.
-/

namespace Midend

namespace PrimTy

/-- The number of bits of a constant of the type. -/
def bits : PrimTy → Nat
  | boolean => 1
  | byte => 8
  | char | short => 16
  | int | float => 32
  | long | double => 64

/-- The least integer of an integral type. -/
def least : PrimTy → Int
  | byte => -2 ^ 7
  | short => -2 ^ 15
  | int => -2 ^ 31
  | long => -2 ^ 63
  | boolean | char | float | double => 0

/-- The type that arithmetic on integers is done in. -/
def word (isLong : Bool) : PrimTy := if isLong then long else int

end PrimTy

/-- Integers in an interval of length `m` are determined by their residues. -/
theorem eq_of_modEq {i j a m : Int} (h : i ≡ j [ZMOD m]) (hi : a ≤ i ∧ i < a + m)
    (hj : a ≤ j ∧ j < a + m) : i = j := by
  have hmod : (i - a) % m = (j - a) % m := h.sub_right a
  rw [Int.emod_eq_of_lt (by omega) (by omega), Int.emod_eq_of_lt (by omega) (by omega)] at hmod
  omega

namespace Literal

/-- The integer that a constant of an integral type stands for. -/
def integer? : Literal → Option Int
  | char u => some u.toNat
  | byte i => some i.toInt
  | short i => some i.toInt
  | int i => some i.toInt
  | long i => some i.toInt
  | null | bool _ | float _ | double _ | str _ => none

/-- Whether the literal is of type `long`. -/
def isLong : Literal → Bool
  | long _ => true
  | _ => false

/-- The constant is the one of type `t` that is congruent to `n` modulo the width of `t`. -/
structure Wraps (l : Literal) (t : PrimTy) (n : Int) : Prop where
  prim? : l.prim? = some t
  modEq : ∃ i, l.integer? = some i ∧ i ≡ n [ZMOD 2 ^ t.bits]

variable {l m : Literal} {t : PrimTy} {n k : Int}

/-- An integer lies in the range of its type. -/
theorem integer_bounds (hn : l.integer? = some n) (ht : l.prim? = some t) :
    t.least ≤ n ∧ n < t.least + 2 ^ t.bits := by
  cases l <;> cases hn <;> cases ht
  case char.refl.refl u =>
    have := u.toNat_lt
    simp only [PrimTy.least, PrimTy.bits]
    omega
  case byte.refl.refl i => exact ⟨i.le_toInt, i.toInt_lt⟩
  case short.refl.refl i => exact ⟨i.le_toInt, i.toInt_lt⟩
  case int.refl.refl i => exact ⟨i.le_toInt, i.toInt_lt⟩
  case long.refl.refl i => exact ⟨i.le_toInt, i.toInt_lt⟩

/-- A constant is known from its type and integer. -/
theorem eq_of_integer? (ht : l.prim? = m.prim?) (hl : l.integer? = some n)
    (hm : m.integer? = some n) : l = m := by
  have h : l.integer? = m.integer? := hl.trans hm.symm
  cases l <;> cases hl <;> cases m <;> cases ht <;> replace h := Option.some.inj h
  case char.refl.char.refl u v => rw [UInt16.toNat_inj.1 (Int.ofNat_inj.1 h)]
  case byte.refl.byte.refl i j => rw [Int8.toInt_inj.1 h]
  case short.refl.short.refl i j => rw [Int16.toInt_inj.1 h]
  case int.refl.int.refl i j => rw [Int32.toInt_inj.1 h]
  case long.refl.long.refl i j => rw [Int64.toInt_inj.1 h]

namespace Wraps

/-- What is congruent wraps to the same literal. -/
theorem of_modEq (h : l.Wraps t n) (hn : n ≡ k [ZMOD 2 ^ t.bits]) : l.Wraps t k := by
  obtain ⟨i, hi, hin⟩ := h.modEq
  exact ⟨h.prim?, i, hi, hin.trans hn⟩

/-- An integer that fits the type is not changed. -/
theorem integer?_eq (h : l.Wraps t n) (hn : t.least ≤ n ∧ n < t.least + 2 ^ t.bits) :
    l.integer? = some n := by
  obtain ⟨i, hi, hin⟩ := h.modEq
  rw [hi, eq_of_modEq hin (integer_bounds hi h.prim?) hn]

/-- Only one constant of a type wraps an integer. -/
theorem unique (h : l.Wraps t n) (h' : m.Wraps t n) : l = m := by
  obtain ⟨i, hi, hin⟩ := h'.modEq
  have hl := (h.of_modEq hin.symm).integer?_eq (integer_bounds hi h'.prim?)
  exact eq_of_integer? (h.prim?.trans h'.prim?.symm) hl hi

end Wraps

end Literal

/-! ## Promoted integers -/

namespace Num

/-- The integer of a promoted integral constant. -/
def integer? : Num → Option Int
  | int i => some i.toInt
  | long i => some i.toInt
  | float _ | double _ => none

/-- Whether the number is of type `long`. -/
def isLong : Num → Bool
  | long _ => true
  | _ => false

/-- The word that is congruent to an integer. -/
def ofInt (isLong : Bool) (n : Int) : Num :=
  if isLong then long (Int64.ofInt n) else int (Int32.ofInt n)

theorem bmod_modEq (n : Int) (m : Nat) : n.bmod m ≡ n [ZMOD m] := Int.bmod_emod

/-- A number made from an integer wraps it. -/
theorem wraps_ofInt (isLong : Bool) (n : Int) :
    (ofInt isLong n).toLiteral.Wraps (.word isLong) n := by
  cases isLong with
  | false =>
    refine ⟨rfl, _, rfl, ?_⟩
    rw [Int32.toInt_ofInt]
    exact bmod_modEq ..
  | true =>
    refine ⟨rfl, _, rfl, ?_⟩
    rw [Int64.toInt_ofInt]
    exact bmod_modEq ..

/-- An integer literal is a number with the same value. -/
theorem exists_of_integer? {l : Literal} {n : Int} (h : l.integer? = some n) :
    ∃ m, l.num? = some m ∧ m.integer? = some n ∧ m.isLong = l.isLong := by
  cases l <;> cases h
  case char.refl u =>
    refine ⟨_, rfl, ?_, rfl⟩
    have := u.toNat_lt
    rw [integer?, Int32.toInt_ofInt_of_le (by omega) (by omega)]
  case byte.refl i => exact ⟨_, rfl, congrArg some i.toInt_toInt32, rfl⟩
  case short.refl i => exact ⟨_, rfl, congrArg some i.toInt_toInt32, rfl⟩
  case int.refl i => exact ⟨_, rfl, rfl, rfl⟩
  case long.refl i => exact ⟨_, rfl, rfl, rfl⟩

variable {m n : Num} {x y : Int}

/-- Two integers are promoted to words of one size, and keep their values. -/
theorem promote_integers (hm : m.integer? = some x) (hn : n.integer? = some y) :
    (∃ i j : Int32, m.promote n = .ints i j ∧ (m.isLong || n.isLong) = false ∧ i.toInt = x ∧
        j.toInt = y) ∨
      ∃ i j : Int64, m.promote n = .longs i j ∧ (m.isLong || n.isLong) = true ∧ i.toInt = x ∧
        j.toInt = y := by
  cases m <;> cases hm <;> cases n <;> cases hn
  case int.refl.int.refl i j => exact .inl ⟨i, j, rfl, rfl, rfl, rfl⟩
  case int.refl.long.refl i j => exact .inr ⟨_, j, rfl, rfl, i.toInt_toInt64, rfl⟩
  case long.refl.int.refl i j => exact .inr ⟨i, _, rfl, rfl, rfl, j.toInt_toInt64⟩
  case long.refl.long.refl i j => exact .inr ⟨i, j, rfl, rfl, rfl, rfl⟩

/-- An integral number is narrowed to `int` by its low bits. -/
theorem toInt32_modEq (hm : m.integer? = some x) : m.toInt32.toInt ≡ x [ZMOD 2 ^ 32] := by
  cases m <;> cases hm
  case int.refl i => rfl
  case long.refl i =>
    rw [toInt32, Int64.toInt_toInt32]
    exact bmod_modEq ..

theorem toInt_toInt64 (hm : m.integer? = some x) : m.toInt64.toInt = x := by
  cases m <;> cases hm
  case int.refl i => exact i.toInt_toInt64
  case long.refl i => rfl

/-- A `char` keeps the low bits of an `int`. -/
theorem toUInt32_modEq (i : Int32) : (i.toUInt32.toNat : Int) ≡ i.toInt [ZMOD 2 ^ 32] := by
  have h : i.toInt % (2 ^ 32 : Nat) = i.toUInt32.toNat := toInt_emod i.toBitVec
  rw [← h]
  exact Int.mod_modEq ..

/-- Integers are compared by value. -/
theorem compare?_integers (hm : m.integer? = some x) (hn : n.integer? = some y) :
    m.compare? n = some (compare x y) := by
  obtain ⟨i, j, hp, -, rfl, rfl⟩ | ⟨i, j, hp, -, rfl, rfl⟩ := promote_integers hm hn <;>
    rw [compare?, hp]

end Num

section

variable {m n : Num} {x y : Int}

/-- Arithmetic on integers is arithmetic on their values, wrapped. -/
theorem ArithOp.apply_integers (op : ArithOp) (hm : m.integer? = some x)
    (hn : n.integer? = some y) :
    op.apply m n =
      if (BinOp.arith op).isDivision ∧ y = 0 then none
      else some (.ofInt (m.isLong || n.isLong) (op.onInts x y)) := by
  obtain ⟨i, j, hp, hlong, rfl, rfl⟩ | ⟨i, j, hp, hlong, rfl, rfl⟩ := Num.promote_integers hm hn
  · have hz : j = 0 ↔ j.toInt = 0 := Int32.toInt_inj.symm
    rw [apply, hp, hlong]
    simp only [ints_eq, hz]
    split <;> rfl
  · have hz : j = 0 ↔ j.toInt = 0 := Int64.toInt_inj.symm
    rw [apply, hp, hlong]
    simp only [longs_eq, hz]
    split <;> rfl

theorem BitOp.apply_integers (op : BitOp) (hm : m.integer? = some x) (hn : n.integer? = some y) :
    op.apply m n = some (.ofInt (m.isLong || n.isLong) (op.onInts x y)) := by
  obtain ⟨i, j, hp, hlong, rfl, rfl⟩ | ⟨i, j, hp, hlong, rfl, rfl⟩ := Num.promote_integers hm hn
  · rw [apply, hp, hlong]
    simp only [ints_eq]
    rfl
  · rw [apply, hp, hlong]
    simp only [longs_eq]
    rfl

/-- A shift is done in the word of its left operand, by a distance modulo the bits of that. -/
theorem ShiftOp.apply_integers (op : ShiftOp) (hm : m.integer? = some x)
    (hn : n.integer? = some y) :
    op.apply m n =
      some (.ofInt m.isLong (op.onInts (PrimTy.word m.isLong).bits x
        (y % (PrimTy.word m.isLong).bits).toNat)) := by
  cases m <;> cases hm <;> cases n <;> cases hn
  case int.refl.int.refl i j => exact congrArg (some ∘ Num.int) (op.ints_eq i j)
  case int.refl.long.refl i j =>
    have hj : j.toInt32.toInt % 32 = j.toInt % 32 := by
      rw [Int64.toInt_toInt32]
      exact (Num.bmod_modEq j.toInt (2 ^ 32)).of_dvd (by decide)
    have h := congrArg (some ∘ Num.int) (op.ints_eq i j.toInt32)
    rw [hj] at h
    exact h
  case long.refl.int.refl i j =>
    have h := congrArg (some ∘ Num.long) (op.longs_eq i j.toInt64)
    rw [j.toInt_toInt64] at h
    exact h
  case long.refl.long.refl i j => exact congrArg (some ∘ Num.long) (op.longs_eq i j)

end

/-- A comparison asks for the order of the values. -/
theorem OrderOp.holds_compare (op : OrderOp) (x y : Int) :
    op.holds (some (compare x y)) = op.onInts x y := by
  rcases lt_trichotomy x y with h | h | h
  · rw [compare_lt_iff_lt.2 h]
    cases op <;> simp [OrderOp.holds, OrderOp.onInts] <;> omega
  · rw [compare_eq_iff_eq.2 h]
    cases op <;> simp [OrderOp.holds, OrderOp.onInts] <;> omega
  · rw [compare_gt_iff_gt.2 h]
    cases op <;> simp [OrderOp.holds, OrderOp.onInts] <;> omega

/-! ## Operators on constants -/

namespace Literal

variable {a c : Literal} {x y : Int}

/-- An arithmetic operator fails on a zero divisor and wraps otherwise. -/
theorem binary_arith (op : ArithOp) (ha : a.integer? = some x) (hc : c.integer? = some y) :
    a.binary (.arith op) c =
      if (BinOp.arith op).isDivision ∧ y = 0 then .error .divisionByZero
      else .ok (Num.ofInt (a.isLong || c.isLong) (op.onInts x y)).toLiteral := by
  obtain ⟨m, hm, hmx, hml⟩ := Num.exists_of_integer? ha
  obtain ⟨n, hn, hny, hnl⟩ := Num.exists_of_integer? hc
  have hs : ¬(op = .add ∧ eitherString a c = true) := by
    rintro ⟨-, hs⟩
    cases a <;> cases ha <;> cases c <;> cases hc <;> cases hs
  have happly := op.apply_integers hmx hny
  rw [hml, hnl] at happly
  by_cases hz : (BinOp.arith op).isDivision = true ∧ y = 0
  · rw [if_pos hz] at happly
    simp only [binary, if_neg hs, hm, hn, happly, if_pos hz]
  · rw [if_neg hz] at happly
    simp only [binary, if_neg hs, hm, hn, happly, if_neg hz]

/-- An operator on bits wraps its result. -/
theorem binary_bits (op : BitOp) (ha : a.integer? = some x) (hc : c.integer? = some y) :
    a.binary (.bits op) c =
      .ok (Num.ofInt (a.isLong || c.isLong) (op.onInts x y)).toLiteral := by
  obtain ⟨m, hm, hmx, hml⟩ := Num.exists_of_integer? ha
  obtain ⟨n, hn, hny, hnl⟩ := Num.exists_of_integer? hc
  have happly := op.apply_integers hmx hny
  cases a <;> cases ha <;> simp only [binary, hm, hn, happly, hml, hnl]

/-- A shift takes its distance modulo the size of the word. -/
theorem binary_shift (op : ShiftOp) (ha : a.integer? = some x) (hc : c.integer? = some y) :
    a.binary (.shift op) c =
      .ok (Num.ofInt a.isLong (op.onInts (PrimTy.word a.isLong).bits x
        (y % (PrimTy.word a.isLong).bits).toNat)).toLiteral := by
  obtain ⟨m, hm, hmx, hml⟩ := Num.exists_of_integer? ha
  obtain ⟨n, hn, hny, -⟩ := Num.exists_of_integer? hc
  simp only [binary, hm, hn, op.apply_integers hmx hny, hml]

/-- A comparison of integers is one of their values. -/
theorem binary_order (op : OrderOp) (ha : a.integer? = some x) (hc : c.integer? = some y) :
    a.binary (.order op) c = .ok (.bool (op.onInts x y)) := by
  obtain ⟨m, hm, hmx, -⟩ := Num.exists_of_integer? ha
  obtain ⟨n, hn, hny, -⟩ := Num.exists_of_integer? hc
  simp only [binary, hm, hn, Num.compare?_integers hmx hny, op.holds_compare]

/-- Integers are equal when their values are. -/
theorem binary_equality (negated : Bool) (ha : a.integer? = some x) (hc : c.integer? = some y) :
    a.binary (.equality negated) c = .ok (.bool (decide (x = y) != negated)) := by
  obtain ⟨m, hm, hmx, -⟩ := Num.exists_of_integer? ha
  obtain ⟨n, hn, hny, -⟩ := Num.exists_of_integer? hc
  have h : a.logicalEq c = (m.compare? n == some .eq) := by
    cases a <;> cases ha <;> simp only [logicalEq, hm, hn]
  have hxy : (some (compare x y) == some .eq) = decide (x = y) := by
    rw [Bool.eq_iff_iff, beq_iff_eq, decide_eq_true_iff, Option.some.injEq, compare_eq_iff_eq]
  rw [binary, h, Num.compare?_integers hmx hny, hxy]

/-! ## Conversions -/

variable {l : Literal} {t u : PrimTy} {n : Int}

/-- A conversion to an integral type goes through `int`, and wraps all the same. -/
theorem convert_wraps (h : l.integer? = some n) (ht : t.isIntegral = true) :
    ∃ r, l.convert t = some r ∧ r.Wraps t n := by
  obtain ⟨m, hm, hmn, -⟩ := Num.exists_of_integer? h
  have hint := Num.toInt32_modEq hmn
  have hconvert : l.convert t = match t with
      | .char => some (char m.toInt32.toUInt32.toUInt16)
      | .byte => some (byte m.toInt32.toInt8)
      | .short => some (short m.toInt32.toInt16)
      | .int => some (int m.toInt32)
      | .long => some (long m.toInt64)
      | _ => none := by
    cases t <;> cases ht <;> simp only [convert, hm]
  rw [hconvert]
  cases t with
  | char =>
    refine ⟨_, rfl, rfl, _, rfl, ?_⟩
    have h := ((Num.toUInt32_modEq m.toInt32).trans hint).of_dvd (m := 2 ^ 16) (by decide)
    rw [UInt32.toNat_toUInt16]
    push_cast
    exact (Int.mod_modEq ..).trans h
  | byte =>
    refine ⟨_, rfl, rfl, _, rfl, ?_⟩
    rw [Int32.toInt_toInt8]
    exact (Num.bmod_modEq ..).trans (hint.of_dvd (by decide))
  | short =>
    refine ⟨_, rfl, rfl, _, rfl, ?_⟩
    rw [Int32.toInt_toInt16]
    exact (Num.bmod_modEq ..).trans (hint.of_dvd (by decide))
  | int => exact ⟨_, rfl, rfl, _, rfl, hint⟩
  | long =>
    refine ⟨_, rfl, rfl, _, rfl, ?_⟩
    rw [Num.toInt_toInt64 hmn]
  | _ => cases ht

/-- What wraps to a type, wraps to one that is no wider in the same way. -/
theorem Wraps.convert (h : l.Wraps t n) (hu : u.isIntegral = true) (hle : u.bits ≤ t.bits) :
    ∃ r, l.convert u = some r ∧ r.Wraps u n := by
  obtain ⟨i, hi, hin⟩ := h.modEq
  obtain ⟨r, hr, hrw⟩ := convert_wraps hi hu
  exact ⟨r, hr, hrw.of_modEq (hin.of_dvd (pow_dvd_pow 2 hle))⟩

/-- A conversion through a type that is no narrower changes nothing. -/
theorem convert_convert (h : l.integer? = some n) (ht : t.isIntegral = true)
    (hu : u.isIntegral = true) (hle : u.bits ≤ t.bits) :
    (l.convert t).bind (·.convert u) = l.convert u := by
  obtain ⟨r, hr, hrw⟩ := convert_wraps h ht
  obtain ⟨s, hs, hsw⟩ := hrw.convert hu hle
  obtain ⟨s', hs', hsw'⟩ := convert_wraps h hu
  rw [hr, hs', Option.bind_some, hs, hsw.unique hsw']

/-! ## Quotients -/

theorem least_word (isLong : Bool) :
    (PrimTy.word isLong).least + 2 ^ (PrimTy.word isLong).bits = -(PrimTy.word isLong).least := by
  cases isLong <;> rfl

/-- An integer fits the word that it is promoted to. -/
theorem bounds_word {isLong : Bool} (ha : a.integer? = some x) (h : a.isLong → isLong) :
    (PrimTy.word isLong).least ≤ x ∧ x < -(PrimTy.word isLong).least := by
  obtain ⟨m, -, hm, hl⟩ := Num.exists_of_integer? ha
  cases m <;> cases hm
  case int.refl i =>
    have := i.le_toInt
    have := i.toInt_lt
    cases isLong with
    | false => exact ⟨i.le_toInt, i.toInt_lt⟩
    | true =>
      show -2 ^ 63 ≤ i.toInt ∧ i.toInt < 2 ^ 63
      omega
  case long.refl i =>
    rw [h hl.symm]
    exact ⟨i.le_toInt, i.toInt_lt⟩

end Literal

/-- A quotient is no larger than its dividend, except that of the least integer by -1. -/
theorem tdiv_bounds {x y m : Int} (hx : -m ≤ x ∧ x < m) (h : ¬(x = -m ∧ y = -1)) :
    -m ≤ x.tdiv y ∧ x.tdiv y < m := by
  have habs : (x.tdiv y).natAbs = x.natAbs / y.natAbs := Int.natAbs_tdiv x y
  rcases Nat.lt_or_ge y.natAbs 2 with hy | hy
  · obtain rfl | rfl | rfl : y = 0 ∨ y = 1 ∨ y = -1 := by omega
    · simp; omega
    · simpa using hx
    · simp; omega
  · have hle : x.natAbs / y.natAbs ≤ x.natAbs / 2 := Nat.div_le_div_left hy (by decide)
    omega

/-- A remainder lies in the range of the dividend. -/
theorem tmod_bounds {x m : Int} (hx : -m ≤ x ∧ x < m) (y : Int) :
    -m ≤ x.tmod y ∧ x.tmod y < m := by
  have habs : (x.tmod y).natAbs = x.natAbs % y.natAbs := Int.natAbs_tmod x y
  have hle := Nat.mod_le x.natAbs y.natAbs
  rcases le_total 0 x with h | h
  · have := Int.tmod_nonneg y h
    omega
  · have := Int.tmod_nonneg y (Int.neg_nonneg.2 h)
    rw [Int.neg_tmod] at this
    omega

namespace Literal

variable {a c : Literal} {x y : Int}

/-- The type of arithmetic on two constants of integral types. -/
def wordWith (a c : Literal) : PrimTy := .word (a.isLong || c.isLong)

/-- The operator gives the constant of type `t` that wraps `n`. -/
def Gives (op : BinOp) (a c : Literal) (t : PrimTy) (n : Int) : Prop :=
  ∃ r, Value.binary op (.known a) (.known c) = .ok (.known r) ∧ r.Wraps t n

/-- Arithmetic gives the wrapped result at the promoted width. -/
theorem gives_arith (op : ArithOp) (ha : a.integer? = some x) (hc : c.integer? = some y)
    (h : (BinOp.arith op).isDivision = true → y ≠ 0) :
    Gives (.arith op) a c (a.wordWith c) (op.onInts x y) := by
  have hz : ¬((BinOp.arith op).isDivision = true ∧ y = 0) := fun hz => h hz.1 hz.2
  refine ⟨_, ?_, Num.wraps_ofInt ..⟩
  rw [Value.binary, binary_arith op ha hc, if_neg hz]
  rfl

theorem gives_bits (op : BitOp) (ha : a.integer? = some x) (hc : c.integer? = some y) :
    Gives (.bits op) a c (a.wordWith c) (op.onInts x y) := by
  refine ⟨_, ?_, Num.wraps_ofInt ..⟩
  rw [Value.binary, binary_bits op ha hc]
  rfl

/-- A shift gives it at the width of its left operand. -/
theorem gives_shift (op : ShiftOp) (ha : a.integer? = some x) (hc : c.integer? = some y) :
    Gives (.shift op) a c (.word a.isLong)
      (op.onInts (PrimTy.word a.isLong).bits x (y % (PrimTy.word a.isLong).bits).toNat) := by
  refine ⟨_, ?_, Num.wraps_ofInt ..⟩
  rw [Value.binary, binary_shift op ha hc]
  rfl

/-- The quotient `q` and the remainder `r` of constants that stand for `x` and `y`. Only the
quotient of the least integer by -1 does not fit the word. The quotient, times the divisor, and the
remainder add up to the dividend. -/
structure Divide (a c q r : Literal) (x y : Int) : Prop where
  quotient : Value.binary (.arith .div) (.known a) (.known c) = .ok (.known q)
  quotient_wraps : q.Wraps (a.wordWith c) (x.tdiv y)
  quotient_fits : ¬(x = (a.wordWith c).least ∧ y = -1) → q.integer? = some (x.tdiv y)
  remainder : Value.binary (.arith .rem) (.known a) (.known c) = .ok (.known r)
  remainder_wraps : r.Wraps (a.wordWith c) (x.tmod y)
  remainder_fits : r.integer? = some (x.tmod y)
  sum : ∃ p, Value.binary (.arith .mul) (.known q) (.known c) = .ok (.known p) ∧
    Gives (.arith .add) p r (a.wordWith c) x

/-- What the operators give on two constants of integral types that stand for `x` and `y`. -/
structure OperateOn (a c : Literal) (x y : Int) : Prop where
  arith (op : ArithOp) : (BinOp.arith op).isDivision = false →
    Gives (.arith op) a c (a.wordWith c) (op.onInts x y)
  bits (op : BitOp) : Gives (.bits op) a c (a.wordWith c) (op.onInts x y)
  zero : y = 0 → ∀ op : ArithOp, (BinOp.arith op).isDivision = true →
    Value.binary (.arith op) (.known a) (.known c) = .error .divisionByZero
  division : y ≠ 0 → ∃ q r, Divide a c q r x y
  shift (op : ShiftOp) : Gives (.shift op) a c (.word a.isLong)
    (op.onInts (PrimTy.word a.isLong).bits x (y % (PrimTy.word a.isLong).bits).toNat)
  order (op : OrderOp) :
    Value.binary (.order op) (.known a) (.known c) = .ok (.known (.bool (op.onInts x y)))
  equality (negated : Bool) :
    Value.binary (.equality negated) (.known a) (.known c) =
      .ok (.known (.bool (decide (x = y) != negated)))

theorem Wraps.isLong_eq {l : Literal} {isLong : Bool} {n : Int} (h : l.Wraps (.word isLong) n) :
    l.isLong = isLong := by
  have ht := h.prim?
  cases isLong <;> cases l <;> cases ht <;> rfl

/-- A division has one quotient and one remainder. -/
theorem exists_divide (ha : a.integer? = some x) (hc : c.integer? = some y) (hy : y ≠ 0) :
    ∃ q r, Divide a c q r x y := by
  have hx : (a.wordWith c).least ≤ x ∧ x < -(a.wordWith c).least :=
    bounds_word ha (by simp +contextual)
  have hfits : (a.wordWith c).least + 2 ^ (a.wordWith c).bits = -(a.wordWith c).least :=
    least_word _
  obtain ⟨q, hq, hqw⟩ := gives_arith .div ha hc fun _ => hy
  obtain ⟨r, hr, hrw⟩ := gives_arith .rem ha hc fun _ => hy
  have hrx : r.integer? = some (x.tmod y) := by
    refine hrw.integer?_eq ?_
    have := tmod_bounds (x := x) (m := -(a.wordWith c).least) (by omega) y
    simp only [ArithOp.onInts]
    omega
  refine ⟨q, r, hq, hqw, fun h => hqw.integer?_eq ?_, hr, hrw, hrx, ?_⟩
  · have := tdiv_bounds (x := x) (y := y) (m := -(a.wordWith c).least) (by omega) (by omega)
    simp only [ArithOp.onInts]
    omega
  · obtain ⟨i, hi, hix⟩ := hqw.modEq
    have hqc : q.wordWith c = a.wordWith c := by
      rw [wordWith, hqw.isLong_eq, Bool.or_assoc, Bool.or_self]
      rfl
    obtain ⟨p, hp, hpw⟩ := gives_arith .mul hi hc fun h => by cases h
    rw [hqc] at hpw
    obtain ⟨j, hj, hjx⟩ := hpw.modEq
    have hpr : p.wordWith r = a.wordWith c := by
      rw [wordWith, hpw.isLong_eq, hrw.isLong_eq, Bool.or_self]
      rfl
    obtain ⟨s, hs, hsw⟩ := gives_arith .add hj hrx fun h => by cases h
    rw [hpr] at hsw
    refine ⟨p, hp, s, hs, hsw.of_modEq ?_⟩
    have hproduct : j ≡ x.tdiv y * y [ZMOD 2 ^ (a.wordWith c).bits] := hjx.trans (hix.mul_right y)
    have hsum := hproduct.add_right (x.tmod y)
    rwa [Int.tdiv_mul_add_tmod] at hsum

/-- On integral constants the operators are those of the integers: sums, differences, products and
bitwise operations wrap to the wider word, quotients and remainders truncate, shifts are done in the
word of the left operand by a distance modulo its bits, and comparisons are exact. -/
theorem binary_integers (ha : a.integer? = some x) (hc : c.integer? = some y) :
    OperateOn a c x y where
  arith op hop := gives_arith op ha hc fun h => absurd h (by simp [hop])
  bits op := gives_bits op ha hc
  zero hy op hop := by rw [Value.binary, binary_arith op ha hc, if_pos ⟨hop, hy⟩]; rfl
  division := exists_divide ha hc
  shift op := gives_shift op ha hc
  order op := by rw [Value.binary, binary_order op ha hc]; rfl
  equality negated := by rw [Value.binary, binary_equality negated ha hc]; rfl

/-- The least `int` and a distance, or divisor, of -1. -/
theorem binary_integers_leastInt :
    (int (-2147483648)).integer? = some (-2147483648) ∧ (byte (-1)).integer? = some (-1) ∧
      OperateOn (int (-2147483648)) (byte (-1)) (-2147483648) (-1) ∧
      Value.binary (.arith .div) (.known (int (-2147483648))) (.known (byte (-1))) =
        .ok (.known (int (-2147483648))) ∧
      Value.binary (.shift .unsignedRight) (.known (int (-2147483648))) (.known (byte (-1))) =
        .ok (.known (int 1)) :=
  ⟨by decide, by decide, binary_integers (by decide) (by decide), by decide, by decide⟩

end Literal

end Midend
