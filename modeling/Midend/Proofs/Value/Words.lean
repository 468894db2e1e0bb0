import Mathlib.Data.Int.Bitwise
import Midend.Value.Operators

/-!
# Operators on machine words

Integers are computed with in words of 32 or 64 bits. Every operator on words is an
operation on the integers, brought back into the word: `ArithOp.ints_eq`,
`BitOp.ints_eq` and `ShiftOp.ints_eq`, and the same for `longs`. The integer
operations on bits are those of two's complement without a width (`toInt_and`,
`toInt_or`, `toInt_xor`), and a shift is a product or a quotient by a power of two.
-/

namespace Midend

/-! ## Bits of integers -/

/-- An integer is determined by its bits. -/
theorem eq_of_testBit {m n : Int} (h : ∀ k, m.testBit k = n.testBit k) : m = n := by
  -- Far up, the bits of a number are clear and those of a negative one are set.
  have hmixed : ∀ a c : Nat, ¬ ∀ k, a.testBit k = !c.testBit k := by
    intro a c h
    have hk := h (a + c)
    have hpow : a + c < 2 ^ (a + c) := Nat.lt_two_pow_self
    rw [Nat.testBit_eq_false_of_lt (by omega), Nat.testBit_eq_false_of_lt (by omega)] at hk
    cases hk
  cases m with
  | ofNat a =>
    cases n with
    | ofNat c => exact congrArg Int.ofNat (Nat.eq_of_testBit_eq h)
    | negSucc c => exact absurd h (hmixed a c)
  | negSucc a =>
    cases n with
    | ofNat c => exact absurd (fun k => (h k).symm) (hmixed c a)
    | negSucc c => exact congrArg Int.negSucc (Nat.eq_of_testBit_eq fun k => Bool.not_inj (h k))

section

variable {w : Nat} (x y : BitVec w)

/-- The integer of a word has its bits, and its sign in all higher places. -/
theorem testBit_toInt (k : Nat) :
    x.toInt.testBit k = if k < w then x.getLsbD k else x.msb := by
  have hlt := x.isLt
  rw [BitVec.toInt_eq_msb_cond]
  cases hm : x.msb with
  | false =>
    rw [if_neg Bool.false_ne_true]
    show x.toNat.testBit k = _
    split
    · rfl
    · next hk =>
      have hle : 2 ^ w ≤ 2 ^ k := Nat.pow_le_pow_right (by decide) (by omega)
      exact Nat.testBit_eq_false_of_lt (by omega)
  | true =>
    have hneg : (x.toNat : Int) - (2 ^ w : Nat) = Int.negSucc (2 ^ w - (x.toNat + 1)) := by omega
    rw [if_pos rfl, hneg]
    show (!(2 ^ w - (x.toNat + 1)).testBit k) = _
    rw [Nat.testBit_two_pow_sub_succ hlt]
    split
    · next hk =>
      rw [decide_eq_true hk, Bool.true_and, Bool.not_not]
      rfl
    · next hk => simp [hk]

theorem toInt_and : (x &&& y).toInt = Int.land x.toInt y.toInt := by
  refine eq_of_testBit fun k => ?_
  rw [Int.testBit_land, testBit_toInt, testBit_toInt, testBit_toInt]
  split <;> simp

theorem toInt_or : (x ||| y).toInt = Int.lor x.toInt y.toInt := by
  refine eq_of_testBit fun k => ?_
  rw [Int.testBit_lor, testBit_toInt, testBit_toInt, testBit_toInt]
  split <;> simp

theorem toInt_xor : (x ^^^ y).toInt = Int.xor x.toInt y.toInt := by
  refine eq_of_testBit fun k => ?_
  rw [Int.testBit_lxor, testBit_toInt, testBit_toInt, testBit_toInt]
  split <;> simp

end

/-! ## Operations on the integers -/

/-- The operation on the integers; division truncates. -/
def ArithOp.onInts : ArithOp → Int → Int → Int
  | add => fun x y => x + y
  | sub => fun x y => x - y
  | mul => fun x y => x * y
  | div => Int.tdiv
  | rem => Int.tmod

/-- The operation on the integers, in two's complement. -/
def BitOp.onInts : BitOp → Int → Int → Int
  | and => Int.land
  | or => Int.lor
  | xor => Int.xor

/-- The shift of an integer in a word of `w` bits. -/
def ShiftOp.onInts (op : ShiftOp) (w : Nat) (x : Int) (distance : Nat) : Int :=
  match op with
  | left => x * 2 ^ distance
  | right => x / 2 ^ distance
  | unsignedRight => x % 2 ^ w / 2 ^ distance

/-- Whether the integers satisfy the operator. -/
def OrderOp.onInts : OrderOp → Int → Int → Bool
  | lt => fun x y => decide (x < y)
  | le => fun x y => decide (x ≤ y)
  | gt => fun x y => decide (x > y)
  | ge => fun x y => decide (x ≥ y)

/-- Arithmetic on words of 32 bits is arithmetic on integers, wrapped. -/
theorem ArithOp.ints_eq (op : ArithOp) (a b : Int32) :
    op.ints a b =
      if (BinOp.arith op).isDivision ∧ b = 0 then none
      else some (Int32.ofInt (op.onInts a.toInt b.toInt)) := by
  cases op with
  | add => simp [ints, onInts, BinOp.isDivision, Int32.ofInt_add]
  | sub => simp [ints, onInts, BinOp.isDivision, Int32.ofInt_sub]
  | mul => simp [ints, onInts, BinOp.isDivision, Int32.ofInt_mul]
  | div =>
    have h : a / b = Int32.ofInt (a.toInt.tdiv b.toInt) :=
      Int32.toInt_inj.1 (by rw [Int32.toInt_div, Int32.toInt_ofInt])
    simp [ints, onInts, BinOp.isDivision, h]
  | rem =>
    have h : a % b = Int32.ofInt (a.toInt.tmod b.toInt) := by
      rw [← Int32.toInt_mod, Int32.ofInt_toInt]
    simp [ints, onInts, BinOp.isDivision, h]

theorem ArithOp.longs_eq (op : ArithOp) (a b : Int64) :
    op.longs a b =
      if (BinOp.arith op).isDivision ∧ b = 0 then none
      else some (Int64.ofInt (op.onInts a.toInt b.toInt)) := by
  cases op with
  | add => simp [longs, onInts, BinOp.isDivision, Int64.ofInt_add]
  | sub => simp [longs, onInts, BinOp.isDivision, Int64.ofInt_sub]
  | mul => simp [longs, onInts, BinOp.isDivision, Int64.ofInt_mul]
  | div =>
    have h : a / b = Int64.ofInt (a.toInt.tdiv b.toInt) :=
      Int64.toInt_inj.1 (by rw [Int64.toInt_div, Int64.toInt_ofInt])
    simp [longs, onInts, BinOp.isDivision, h]
  | rem =>
    have h : a % b = Int64.ofInt (a.toInt.tmod b.toInt) := by
      rw [← Int64.toInt_mod, Int64.ofInt_toInt]
    simp [longs, onInts, BinOp.isDivision, h]

/-- The operators on bits of 32 bits are those on integers. -/
theorem BitOp.ints_eq (op : BitOp) (a b : Int32) :
    op.ints a b = Int32.ofInt (op.onInts a.toInt b.toInt) := by
  have h : (op.ints a b).toInt = op.onInts a.toInt b.toInt := by
    cases op with
    | and => exact toInt_and ..
    | or => exact toInt_or ..
    | xor => exact toInt_xor ..
  rw [← h, Int32.ofInt_toInt]

theorem BitOp.longs_eq (op : BitOp) (a b : Int64) :
    op.longs a b = Int64.ofInt (op.onInts a.toInt b.toInt) := by
  have h : (op.longs a b).toInt = op.onInts a.toInt b.toInt := by
    cases op with
    | and => exact toInt_and ..
    | or => exact toInt_or ..
    | xor => exact toInt_xor ..
  rw [← h, Int64.ofInt_toInt]

/-- Operating on the bits of two `int`s as `long`s gives the same. -/
theorem BitOp.ints_eq_longs (op : BitOp) (a b : Int32) :
    op.ints a b = (op.longs a.toInt64 b.toInt64).toInt32 := by
  rw [longs_eq, ints_eq, Int32.toInt_toInt64, Int32.toInt_toInt64, Int64.toInt32_ofInt]

/-! ## Shifts -/

section

variable {w : Nat} (x : BitVec w) (k : Nat)

theorem toInt_emod : x.toInt % (2 ^ w : Nat) = x.toNat := by
  rw [BitVec.toInt_eq_toNat_bmod, Int.bmod_emod]
  exact Int.emod_eq_of_lt (Int.natCast_nonneg _) (Int.ofNat_lt.2 x.isLt)

/-- A shift to the left multiplies by a power of two. -/
theorem shiftLeft_eq_ofInt : x <<< k = BitVec.ofInt w (x.toInt * 2 ^ k) := by
  refine BitVec.toInt_inj.1 ?_
  rw [BitVec.toInt_shiftLeft, BitVec.toInt_ofInt, BitVec.toInt_eq_toNat_bmod x, Int.bmod_mul_bmod,
    Nat.shiftLeft_eq]
  push_cast
  rfl

/-- An arithmetic shift to the right divides by a power of two, rounding down. -/
theorem sshiftRight_eq_ofInt : x.sshiftRight k = BitVec.ofInt w (x.toInt / 2 ^ k) := by
  rw [← BitVec.ofInt_toInt (x := x.sshiftRight k), BitVec.toInt_sshiftRight,
    Int.shiftRight_eq_div_pow]
  push_cast
  rfl

/-- A logical shift to the right divides the unsigned value. -/
theorem ushiftRight_eq_ofInt : x >>> k = BitVec.ofInt w (x.toInt % 2 ^ w / 2 ^ k) := by
  have hdiv : x.toInt % 2 ^ w / 2 ^ k = (x.toNat / 2 ^ k : Nat) := by
    have h := toInt_emod x
    push_cast at h ⊢
    rw [h]
  have hlt : x.toNat / 2 ^ k < 2 ^ w := Nat.lt_of_le_of_lt (Nat.div_le_self ..) x.isLt
  refine BitVec.eq_of_toNat_eq ?_
  rw [hdiv, BitVec.ofInt_natCast, BitVec.toNat_ofNat, Nat.mod_eq_of_lt hlt,
    BitVec.toNat_ushiftRight, Nat.shiftRight_eq_div_pow]

end

/-- The distance of a shift, which keeps its low bits only. -/
theorem toNat_smod_int (d : Int32) : (d.toBitVec.smod 32).toNat = (d.toInt % 32).toNat := by
  have h : (d.toBitVec.smod 32).toInt = d.toInt % 32 :=
    BitVec.toInt_smod.trans (Int.fmod_eq_emod_of_nonneg _ (by decide))
  rw [BitVec.toInt_eq_toNat_cond] at h
  split at h <;> omega

theorem toNat_smod_long (d : Int64) : (d.toBitVec.smod 64).toNat = (d.toInt % 64).toNat := by
  have h : (d.toBitVec.smod 64).toInt = d.toInt % 64 :=
    BitVec.toInt_smod.trans (Int.fmod_eq_emod_of_nonneg _ (by decide))
  rw [BitVec.toInt_eq_toNat_cond] at h
  split at h <;> omega

theorem toNat_umod_int (d : Int32) : (d.toBitVec % 32).toNat = (d.toInt % 32).toNat := by
  have h := toInt_emod d.toBitVec
  have hmod : (d.toBitVec % 32).toNat = d.toBitVec.toNat % 32 := BitVec.toNat_umod
  change d.toInt % 4294967296 = _ at h
  omega

theorem toNat_umod_long (d : Int64) : (d.toBitVec % 64).toNat = (d.toInt % 64).toNat := by
  have h := toInt_emod d.toBitVec
  have hmod : (d.toBitVec % 64).toNat = d.toBitVec.toNat % 64 := BitVec.toNat_umod
  change d.toInt % 18446744073709551616 = _ at h
  omega

/-- Shifts of 32 bits take their distance modulo 32. -/
theorem ShiftOp.ints_eq (op : ShiftOp) (a d : Int32) :
    op.ints a d = Int32.ofInt (op.onInts 32 a.toInt (d.toInt % 32).toNat) := by
  refine Int32.toBitVec_inj.1 ?_
  rw [Int32.toBitVec_ofInt]
  cases op with
  | left =>
    rw [ints, Int32.toBitVec_shiftLeft, BitVec.shiftLeft_eq', toNat_smod_int]
    exact shiftLeft_eq_ofInt ..
  | right =>
    rw [ints, Int32.toBitVec_shiftRight, BitVec.sshiftRight_eq', toNat_smod_int]
    exact sshiftRight_eq_ofInt ..
  | unsignedRight =>
    rw [ints, UInt32.toBitVec_toInt32, UInt32.toBitVec_shiftRight, Int32.toBitVec_toUInt32,
      Int32.toBitVec_toUInt32, BitVec.ushiftRight_eq', toNat_umod_int]
    exact ushiftRight_eq_ofInt ..

/-- Shifts of 64 bits take their distance modulo 64. -/
theorem ShiftOp.longs_eq (op : ShiftOp) (a d : Int64) :
    op.longs a d = Int64.ofInt (op.onInts 64 a.toInt (d.toInt % 64).toNat) := by
  refine Int64.toBitVec_inj.1 ?_
  rw [Int64.toBitVec_ofInt]
  cases op with
  | left =>
    rw [longs, Int64.toBitVec_shiftLeft, BitVec.shiftLeft_eq', toNat_smod_long]
    exact shiftLeft_eq_ofInt ..
  | right =>
    rw [longs, Int64.toBitVec_shiftRight, BitVec.sshiftRight_eq', toNat_smod_long]
    exact sshiftRight_eq_ofInt ..
  | unsignedRight =>
    rw [longs, UInt64.toBitVec_toInt64, UInt64.toBitVec_shiftRight, Int64.toBitVec_toUInt64,
      Int64.toBitVec_toUInt64, BitVec.ushiftRight_eq', toNat_umod_long]
    exact ushiftRight_eq_ofInt ..

end Midend
