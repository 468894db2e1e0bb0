import Midend.Eval.Expr

/-!
# Values of primitive type

A known value has a primitive type if it is a constant of that type
(`Value.HasTy`). The operators and the conversions give values of the type that is
found for the expression: `Value.unary_hasTy`, `Value.binary_hasTy`,
`Value.convert_hasTy` and `Value.asConditional_hasTy`. Nothing is said of values
of a reference type, which may be `null` or of another type.
-/

namespace Midend

theorem primOf_eq_some {ty : Option Ty} {p : PrimTy} :
    primOf ty = some p ↔ ty = some (.prim p) := by
  cases ty with
  | none => exact ⟨nofun, nofun⟩
  | some t => cases t <;> simp [primOf, Ty.prim?]

theorem Literal.ty?_eq_prim {l : Literal} {p : PrimTy} :
    l.ty? = some (.prim p) ↔ l.prim? = some p := by
  cases l <;> simp [ty?, prim?, Ty.string]

theorem Literal.kind_eq_prim {l : Literal} {p : PrimTy} :
    l.kind = .prim p ↔ l.prim? = some p := by
  cases l <;> simp [kind, prim?]

/-! ## Promoted numbers -/

namespace Num

/-- The type of a promoted number. -/
def prim : Num → PrimTy
  | int _ => .int
  | long _ => .long
  | float _ => .float
  | double _ => .double

theorem prim?_toLiteral (n : Num) : n.toLiteral.prim? = some n.prim := by
  cases n <;> rfl

@[simp] theorem prim_neg (n : Num) : n.neg.prim = n.prim := by
  cases n <;> rfl

end Num

/-- A number has the promoted type of its literal. -/
theorem Literal.prim_of_num? {l : Literal} {n : Num} {p : PrimTy} (hn : l.num? = some n)
    (hp : l.prim? = some p) : n.prim = p.promoted := by
  cases l <;> cases hn <;> cases hp <;> rfl

/-- The type of both numbers. -/
def NumPair.prim : NumPair → PrimTy
  | ints .. => .int
  | longs .. => .long
  | floats .. => .float
  | doubles .. => .double

/-- Two numbers are promoted to the type of the higher rank. -/
theorem Num.prim_promote (m n : Num) :
    (m.promote n).prim = if m.prim.rank ≤ n.prim.rank then n.prim else m.prim := by
  cases m <;> cases n <;> rfl

theorem ArithOp.prim_apply {op : ArithOp} {m n r : Num} (h : op.apply m n = some r) :
    r.prim = (m.promote n).prim := by
  unfold apply at h
  cases hp : m.promote n with
  | ints | longs =>
    rw [hp] at h
    obtain ⟨i, -, rfl⟩ := Option.map_eq_some_iff.1 h
    rfl
  | floats | doubles =>
    rw [hp] at h
    obtain rfl := Option.some.inj h
    rfl

theorem BitOp.prim_apply {op : BitOp} {m n r : Num} (h : op.apply m n = some r) :
    r.prim = (m.promote n).prim := by
  unfold apply at h
  cases hp : m.promote n with
  | ints | longs =>
    rw [hp] at h
    obtain rfl := Option.some.inj h
    rfl
  | floats | doubles =>
    rw [hp] at h
    cases h

theorem ShiftOp.prim_apply {op : ShiftOp} {m n r : Num} (h : op.apply m n = some r) :
    r.prim = m.prim := by
  cases m <;> cases n <;> cases h <;> rfl

/-! ## Operators on constants -/

namespace Literal

variable {l a c r : Literal} {p q t : PrimTy}

/-- The type of two promoted operands. -/
theorem prim_promote {m n : Num} (ha : a.prim? = some p) (hc : c.prim? = some q)
    (hm : a.num? = some m) (hn : c.num? = some n) (ht : p.promotedWith q = some t) :
    (m.promote n).prim = t := by
  rw [PrimTy.promotedWith, Option.ite_none_right_eq_some] at ht
  rw [Num.prim_promote, prim_of_num? hm ha, prim_of_num? hn hc]
  exact Option.some.inj ht.2

/-- An arithmetic result has the promoted type of both operands. -/
theorem prim?_arith {op : ArithOp} (ha : a.prim? = some p) (hc : c.prim? = some q)
    (ht : p.promotedWith q = some t) (h : a.binary (.arith op) c = .ok r) : r.prim? = some t := by
  have hs : ¬(op = .add ∧ eitherString a c = true) := by
    rintro ⟨-, hs⟩
    cases a <;> cases ha <;> cases c <;> cases hc <;> cases hs
  simp only [binary, if_neg hs] at h
  split at h
  · next m n hm hn =>
    split at h
    · next x hx =>
      obtain rfl := Except.ok.inj h
      rw [Num.prim?_toLiteral, ArithOp.prim_apply hx, prim_promote ha hc hm hn ht]
    · cases h
  · cases h

/-- A shift has the promoted type of its left operand. -/
theorem prim?_shift {op : ShiftOp} (ha : a.prim? = some p) (h : a.binary (.shift op) c = .ok r) :
    r.prim? = some p.promoted := by
  simp only [binary] at h
  split at h
  · next m n hm hn =>
    split at h
    · next x hx =>
      obtain rfl := Except.ok.inj h
      rw [Num.prim?_toLiteral, ShiftOp.prim_apply hx, prim_of_num? hm ha]
    · cases h
  · cases h

/-- An operator on bits has the type of its operands, promoted when they are integers. -/
theorem prim?_bits {op : BitOp} (ha : a.prim? = some p) (hc : c.prim? = some q)
    (ht : (BinOp.bits op).resultPrim p q = some t) (h : a.binary (.bits op) c = .ok r) :
    r.prim? = some t := by
  simp only [binary] at h
  split at h
  · cases ha
    cases hc
    obtain rfl : PrimTy.boolean = t := Option.some.inj ht
    obtain rfl := Except.ok.inj h
    rfl
  · split at h
    · next m n hm hn =>
      split at h
      · next x hx =>
        obtain rfl := Except.ok.inj h
        have hb : ¬(p = .boolean ∧ q = .boolean) := by
          rintro ⟨rfl, -⟩
          cases a <;> cases hm <;> cases ha
        rw [BinOp.resultPrim, if_neg hb] at ht
        rw [Num.prim?_toLiteral, BitOp.prim_apply hx, prim_promote ha hc hm hn ht]
      · cases h
    · cases h

/-- A test gives a boolean. -/
theorem prim?_test {op : BinOp} (hop : op.isTest = true) (h : a.binary op c = .ok r) :
    r.prim? = some .boolean := by
  cases op with
  | order op =>
    simp only [binary] at h
    split at h
    · obtain rfl := Except.ok.inj h
      rfl
    · cases h
  | equality negated =>
    obtain rfl := Except.ok.inj h
    rfl
  | logic op =>
    simp only [binary] at h
    split at h
    · obtain rfl := Except.ok.inj h
      rfl
    · cases h
  | arith | shift | bits => cases hop

/-- A binary result has the type the operator is given. -/
theorem prim?_binary {op : BinOp} (ha : a.prim? = some p) (hc : c.prim? = some q)
    (ht : op.resultPrim p q = some t) (h : a.binary op c = .ok r) : r.prim? = some t := by
  cases op with
  | arith op => exact prim?_arith ha hc ht h
  | shift op =>
    obtain rfl : p.promoted = t := Option.some.inj ht
    exact prim?_shift ha h
  | bits op => exact prim?_bits ha hc ht h
  | order | equality | logic =>
    obtain rfl : PrimTy.boolean = t := Option.some.inj ht
    exact prim?_test rfl h

theorem prim?_not (h : l.unary .not = .ok r) : r.prim? = some .boolean := by
  cases l <;> cases h
  rfl

/-- The other unary operators promote. -/
theorem prim?_unary {op : UnOp} (hl : l.prim? = some p) (h : l.unary op = .ok r)
    (hop : op ≠ .not) : r.prim? = some p.promoted := by
  cases op with
  | step s => cases h
  | not => exact absurd rfl hop
  | neg =>
    simp only [unary] at h
    split at h
    · next n hn =>
      obtain rfl := Except.ok.inj h
      rw [Num.prim?_toLiteral, Num.prim_neg, prim_of_num? hn hl]
    · cases h
  | plus =>
    simp only [unary] at h
    split at h
    · next n hn =>
      obtain rfl := Except.ok.inj h
      rw [Num.prim?_toLiteral, prim_of_num? hn hl]
    · cases h
  | bitNot =>
    simp only [unary] at h
    split at h
    · next i hn =>
      obtain rfl := Except.ok.inj h
      exact congrArg some (prim_of_num? hn hl)
    · next i hn =>
      obtain rfl := Except.ok.inj h
      exact congrArg some (prim_of_num? hn hl)
    · cases h

/-- A conversion gives a value of the type. -/
theorem prim?_convert (h : l.convert p = some r) : r.prim? = some p := by
  unfold convert at h
  split at h
  · obtain rfl := Option.some.inj h
    rfl
  · cases h
  · split at h
    · cases h
    · split at h <;> cases h <;> rfl

end Literal

/-! ## Values -/

namespace Value

variable {x y r : Value} {ty ty' : Option Ty} {p : PrimTy}

/-- If the type is primitive and the value known, it is a constant of the type. -/
def HasTy (ty : Option Ty) (x : Value) : Prop :=
  ∀ p l, ty = some (.prim p) → x = .known l → l.prim? = some p

theorem hasTy_unknown (ty : Option Ty) : unknown.HasTy ty := fun _ _ _ h => nomatch h

theorem hasTy_literal (l : Literal) : (known l).HasTy l.ty? := by
  rintro p m hp ⟨⟩
  exact Literal.ty?_eq_prim.1 hp

/-- A unary result has the type of the operator. -/
theorem unary_hasTy {op : UnOp} (hx : x.HasTy ty) (h : unary op x = .ok r) :
    r.HasTy (op.resultTy ty) := by
  cases x with
  | unknown =>
    rw [unary] at h
    split at h
    · cases h
    · obtain rfl := Except.ok.inj h
      exact hasTy_unknown _
  | known l =>
    rw [unary] at h
    cases hm : l.unary op with
    | error f =>
      rw [hm] at h
      cases h
    | ok m =>
      rw [hm] at h
      obtain rfl := Except.ok.inj h
      rintro t n ht ⟨⟩
      cases op with
      | step s => cases hm
      | not =>
        obtain rfl : PrimTy.boolean = t := Ty.prim.inj (Option.some.inj ht)
        exact Literal.prim?_not hm
      | neg | plus | bitNot =>
        obtain ⟨p, hp, ⟨⟩⟩ := Option.map_eq_some_iff.1 ht
        exact Literal.prim?_unary (hx p l (primOf_eq_some.1 hp) rfl) hm nofun

/-- A binary result has the type of the operator. -/
theorem binary_hasTy {op : BinOp} (hx : x.HasTy ty) (hy : y.HasTy ty')
    (h : binary op x y = .ok r) : r.HasTy (op.resultTy ty ty') := by
  cases x with
  | unknown =>
    obtain rfl := Except.ok.inj h
    exact hasTy_unknown _
  | known a =>
    cases y with
    | unknown =>
      obtain rfl := Except.ok.inj h
      exact hasTy_unknown _
    | known c =>
      rw [binary] at h
      cases hm : a.binary op c with
      | error f =>
        rw [hm] at h
        cases h
      | ok m =>
        rw [hm] at h
        obtain rfl := Except.ok.inj h
        rintro t n ht ⟨⟩
        unfold BinOp.resultTy at ht
        split at ht
        · next htest =>
          obtain rfl : PrimTy.boolean = t := Ty.prim.inj (Option.some.inj ht)
          exact Literal.prim?_test htest hm
        · split at ht
          · cases ht
          · obtain ⟨p, hp, ht⟩ := Option.bind_eq_some_iff.1 ht
            obtain ⟨q, hq, ht⟩ := Option.bind_eq_some_iff.1 ht
            obtain ⟨t', ht, ⟨⟩⟩ := Option.map_eq_some_iff.1 ht
            exact Literal.prim?_binary (hx p a (primOf_eq_some.1 hp) rfl)
              (hy q c (primOf_eq_some.1 hq) rfl) ht hm

/-- A converted value has the type, known or not. -/
theorem convert_hasTy (x : Value) (p : PrimTy) : (x.convert p).HasTy (some (.prim p)) := by
  rintro q l ⟨⟩ hl
  cases x with
  | unknown => cases hl
  | known a =>
    rw [convert] at hl
    cases hc : a.convert p with
    | none =>
      rw [hc] at hl
      cases hl
    | some m =>
      rw [hc] at hl
      obtain rfl := Value.known.inj hl
      exact Literal.prim?_convert hc

end Value

/-- A conditional expression has a primitive type by promotion, or as both its arms do. -/
theorem conditionalTy_eq_prim {t f : Option Ty} {p : PrimTy}
    (h : conditionalTy t f = some (.prim p)) : p.isNumeric = true ∨ t = some (.prim p) ∧ f = t := by
  cases t with
  | none => cases h
  | some t =>
    cases f with
    | none => cases h
    | some f =>
      simp only [conditionalTy, Option.bind_eq_bind, Option.bind_some] at h
      split at h
      · next heq =>
        exact .inr ⟨h, by rw [heq]⟩
      · obtain ⟨q, -, h⟩ := Option.bind_eq_some_iff.1 h
        obtain ⟨q', -, h⟩ := Option.bind_eq_some_iff.1 h
        rw [Option.ite_none_left_eq_some] at h
        obtain ⟨p', hp, ⟨⟩⟩ := Option.map_eq_some_iff.1 h.2
        refine .inl ?_
        cases q <;> cases q' <;> cases hp <;> rfl

/-- A conditional's result has the type of the conditional. -/
theorem Value.asConditional_hasTy {t f : Option Ty} {x : Value} (h : x.HasTy t ∨ x.HasTy f) :
    (x.asConditional (conditionalTy t f)).HasTy (conditionalTy t f) := by
  intro p l hp hl
  rw [hp, Value.asConditional] at hl
  split at hl
  · exact convert_hasTy x p p l rfl hl
  · next hnum =>
    obtain hn | ⟨ht, hf⟩ := conditionalTy_eq_prim hp
    · exact absurd hn hnum
    · rw [hf, or_self] at h
      exact h p l ht hl

end Midend
