import Midend.Value.Operators

/-!
# Faults of operators

An operator is defined on some primitive types (`UnOp.definedOn`,
`BinOp.definedOn`), and a sum also on two operands of which one is a string. On
constants of these types it has no fault but a division by zero
(`Literal.unary_of_definedOn`, `Literal.binary_of_definedOn`), which it has only if
it divides, and by an integer that is zero (`Literal.binary_divisionByZero`).
-/

namespace Midend

/-- The primitive types that a unary operator is defined on. -/
def UnOp.definedOn (op : UnOp) (p : Option PrimTy) : Bool :=
  match op with
  | .not => p == some .boolean
  | .bitNot => p.any PrimTy.isIntegral
  | .neg | .plus | .step _ => p.any PrimTy.isNumeric

/-- The primitive types that a binary operator is defined on. -/
def BinOp.definedOn (op : BinOp) (p q : Option PrimTy) : Bool :=
  match op with
  | .arith _ | .order _ => p.any PrimTy.isNumeric && q.any PrimTy.isNumeric
  | .shift _ => p.any PrimTy.isIntegral && q.any PrimTy.isIntegral
  | .bits _ =>
    p.any PrimTy.isIntegral && q.any PrimTy.isIntegral ||
      p == some .boolean && q == some .boolean
  | .logic _ => p == some .boolean && q == some .boolean
  | .equality _ => true

namespace Literal

variable {l a c : Literal} {f : Fault}

/-! ## Constants by their types -/

theorem exists_bool (h : l.prim? = some .boolean) : ∃ p, l = .bool p := by
  cases l <;> cases h
  exact ⟨_, rfl⟩

theorem exists_num (h : l.prim?.any PrimTy.isNumeric = true) : ∃ n, l.num? = some n := by
  cases l <;> first | exact ⟨_, rfl⟩ | cases h

theorem exists_integer (h : l.prim?.any PrimTy.isIntegral = true) :
    (∃ i, l.num? = some (.int i)) ∨ ∃ i, l.num? = some (.long i) := by
  cases l <;> first | exact .inl ⟨_, rfl⟩ | exact .inr ⟨_, rfl⟩ | cases h

end Literal

/-- Arithmetic fails only where it divides by the integer zero. -/
theorem ArithOp.apply_eq_none {op : ArithOp} {m n : Num} (h : op.apply m n = none) :
    (BinOp.arith op).isDivision = true ∧ (n = .int 0 ∨ n = .long 0) := by
  have hints : ∀ {i j : Int32}, op.ints i j = none →
      (BinOp.arith op).isDivision = true ∧ j = 0 := by
    intro i j h
    cases op <;> simp_all [ints, BinOp.isDivision]
  have hlongs : ∀ {i j : Int64}, op.longs i j = none →
      (BinOp.arith op).isDivision = true ∧ j = 0 := by
    intro i j h
    cases op <;> simp_all [longs, BinOp.isDivision]
  cases m <;> cases n <;> simp only [apply, Num.promote, Option.map_eq_none_iff, reduceCtorEq] at h
  case int.int =>
    obtain ⟨hop, rfl⟩ := hints h
    exact ⟨hop, .inl rfl⟩
  case int.long | long.long =>
    obtain ⟨hop, hj⟩ := hlongs h
    exact ⟨hop, .inr (congrArg Num.long hj)⟩
  case long.int i j =>
    obtain ⟨hop, hj⟩ := hlongs h
    refine ⟨hop, .inl (congrArg Num.int (Int32.toInt_inj.1 ?_))⟩
    have := congrArg Int64.toInt hj
    simpa [Num.toInt64] using this

namespace Literal

variable {l a c : Literal} {f : Fault}

/-! ## Unary operators -/

/-- A unary operator fails on a step or on a type it is not defined on. -/
theorem unary_eq_error {op : UnOp} (h : l.unary op = .error f) :
    f = .mutatedValue op ∨ f = .unaryMismatch op (some l.kind) := by
  cases op with
  | step s => exact .inl (Except.error.inj h).symm
  | _ =>
    simp only [unary] at h
    split at h <;> cases h
    exact .inr rfl

/-- A step is not among the operators on constants. -/
theorem unary_of_definedOn {op : UnOp} (h : op.definedOn l.prim? = true)
    (hop : op.isStep = false) : ∃ r, l.unary op = .ok r := by
  cases op with
  | step s => cases hop
  | not =>
    obtain ⟨p, rfl⟩ := exists_bool (eq_of_beq h)
    exact ⟨_, rfl⟩
  | neg | plus =>
    obtain ⟨n, hn⟩ := exists_num h
    simp [unary, hn]
  | bitNot =>
    obtain ⟨i, hi⟩ | ⟨i, hi⟩ := exists_integer h <;> simp [unary, hi]

/-! ## Binary operators -/

/-- A division fails for a zero divisor of an integer type only. -/
theorem binary_divisionByZero {op : BinOp} (h : a.binary op c = .error .divisionByZero) :
    op.isDivision = true ∧ (c.num? = some (.int 0) ∨ c.num? = some (.long 0)) := by
  cases op with
  | arith op =>
    simp only [binary] at h
    split at h
    · cases h
    · split at h
      · next m n _ hn =>
        split at h
        · cases h
        · next hr =>
          obtain ⟨hop, hz⟩ := ArithOp.apply_eq_none hr
          rw [hn]
          exact ⟨hop, hz.imp (congrArg some) (congrArg some)⟩
      · cases h
  | equality negated => cases h
  | shift op | bits op | order op | logic op =>
    simp only [binary] at h
    repeat' split at h
    all_goals cases h

/-- A binary operator fails on a zero divisor or on types it is not defined on. -/
theorem binary_eq_error {op : BinOp} (h : a.binary op c = .error f) :
    f = .divisionByZero ∨ f = .binaryMismatch op (some a.kind) (some c.kind) := by
  cases op with
  | equality negated => cases h
  | arith op | shift op | bits op | order op | logic op =>
    simp only [binary] at h
    repeat' split at h
    all_goals cases h
    all_goals first | exact .inl rfl | exact .inr rfl

/-- Where it is defined on the types, only the zero divisor is left. -/
theorem binary_of_definedOn {op : BinOp} (h : op.definedOn a.prim? c.prim? = true)
    (he : a.binary op c = .error f) : f = .divisionByZero := by
  refine (binary_eq_error he).resolve_right ?_
  rintro rfl
  cases op with
  | arith op =>
    rw [BinOp.definedOn, Bool.and_eq_true] at h
    obtain ⟨m, hm⟩ := exists_num h.1
    obtain ⟨n, hn⟩ := exists_num h.2
    simp only [binary, hm, hn] at he
    repeat' split at he
    all_goals cases he
  | order op =>
    rw [BinOp.definedOn, Bool.and_eq_true] at h
    obtain ⟨m, hm⟩ := exists_num h.1
    obtain ⟨n, hn⟩ := exists_num h.2
    simp [binary, hm, hn] at he
  | shift op =>
    rw [BinOp.definedOn, Bool.and_eq_true] at h
    obtain ⟨i, hi⟩ | ⟨i, hi⟩ := exists_integer h.1 <;>
      obtain ⟨j, hj⟩ | ⟨j, hj⟩ := exists_integer h.2 <;>
      simp [binary, hi, hj, ShiftOp.apply] at he
  | bits op =>
    rw [BinOp.definedOn, Bool.or_eq_true, Bool.and_eq_true, Bool.and_eq_true] at h
    rcases h with h | h
    · simp only [binary] at he
      split at he
      · cases he
      · obtain ⟨i, hi⟩ | ⟨i, hi⟩ := exists_integer h.1 <;>
          obtain ⟨j, hj⟩ | ⟨j, hj⟩ := exists_integer h.2 <;>
          simp [hi, hj, BitOp.apply, Num.promote] at he
    · obtain ⟨p, rfl⟩ := exists_bool (eq_of_beq h.1)
      obtain ⟨q, rfl⟩ := exists_bool (eq_of_beq h.2)
      cases he
  | logic op =>
    rw [BinOp.definedOn, Bool.and_eq_true] at h
    obtain ⟨p, rfl⟩ := exists_bool (eq_of_beq h.1)
    obtain ⟨q, rfl⟩ := exists_bool (eq_of_beq h.2)
    cases he
  | equality negated => cases he

/-- A sum with a string is one. -/
theorem binary_eitherString (h : eitherString a c = true) :
    a.binary (.arith .add) c = .ok (.str (a.display ++ c.display)) := if_pos ⟨rfl, h⟩

end Literal

/-! ## Values -/

namespace Value

variable {x y : Value} {f : Fault}

theorem unary_eq_error {op : UnOp} (h : unary op x = .error f) :
    f = .mutatedValue op ∨ f = .unaryMismatch op x.kind? := by
  cases x with
  | unknown =>
    rw [unary] at h
    split at h <;> cases h
    exact .inl rfl
  | known l =>
    rw [unary] at h
    cases hl : l.unary op with
    | ok r =>
      rw [hl] at h
      cases h
    | error f' =>
      rw [hl] at h
      obtain rfl : f' = f := Except.error.inj h
      exact Literal.unary_eq_error hl

theorem unary_ne_divisionByZero (op : UnOp) (x : Value) : unary op x ≠ .error .divisionByZero := by
  intro h
  obtain hf | hf := unary_eq_error h <;> cases hf

/-- Only of known operands is anything but the unknown value made. -/
theorem binary_cases (op : BinOp) (x y : Value) :
    binary op x y = .ok .unknown ∨
      ∃ a c, x = .known a ∧ y = .known c ∧ binary op x y = (a.binary op c).map .known := by
  cases x with
  | unknown => exact .inl rfl
  | known a =>
    cases y with
    | unknown => exact .inl rfl
    | known c => exact .inr ⟨a, c, rfl, rfl, rfl⟩

/-- A known result comes from known operands. -/
theorem binary_eq_known {op : BinOp} {l : Literal} (h : binary op x y = .ok (.known l)) :
    ∃ a c, x = .known a ∧ y = .known c ∧ a.binary op c = .ok l := by
  obtain hu | ⟨a, c, hx, hy, hr⟩ := binary_cases op x y
  · rw [hu] at h
    cases h
  · rw [hr] at h
    refine ⟨a, c, hx, hy, ?_⟩
    cases hl : a.binary op c <;> rw [hl] at h <;> cases h
    rfl

/-- A fault comes from known operands. -/
theorem binary_eq_error {op : BinOp} (h : binary op x y = .error f) :
    ∃ a c, x = .known a ∧ y = .known c ∧ a.binary op c = .error f := by
  obtain hu | ⟨a, c, hx, hy, hr⟩ := binary_cases op x y
  · rw [hu] at h
    cases h
  · rw [hr] at h
    refine ⟨a, c, hx, hy, ?_⟩
    cases hl : a.binary op c <;> rw [hl] at h <;> cases h
    rfl

end Value

end Midend
