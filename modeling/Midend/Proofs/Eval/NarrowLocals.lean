import Midend.Proofs.Eval.Discipline
import Midend.Proofs.Value.Integers

/-!
# Stores into locals of integral types

A compound assignment or a step operates on promoted words and converts what it gets to
the type of the local. No type is wider than the words its constants are promoted to
(`Literal.bits_le_wordWith`), so the local is left with the result of the operation on
integers modulo the width of its own type. `Expr.eval_modulo` says this of all the
operators that respect residues, and of conversions in a row.
-/

namespace Midend

open Eval

/-- The operation on integers of an operator that respects residues modulo every width. -/
def BinOp.modular? : BinOp → Option (Int → Int → Int)
  | arith op => if (arith op).isDivision then none else some op.onInts
  | bits op => some op.onInts
  | shift _ | order _ | equality _ | logic _ => none

namespace Literal

variable {a c : Literal} {x y n : Int} {t : PrimTy}

/-- A modular operator computes on the words of its operands. -/
theorem gives_modular {op : BinOp} {f : Int → Int → Int} (hop : op.modular? = some f)
    (ha : a.integer? = some x) (hc : c.integer? = some y) :
    Gives op a c (a.wordWith c) (f x y) := by
  cases op with
  | arith op =>
    obtain ⟨hdivision, rfl⟩ : ¬(BinOp.arith op).isDivision = true ∧ op.onInts = f := by
      simpa [BinOp.modular?] using hop
    exact gives_arith op ha hc fun h => absurd h hdivision
  | bits op =>
    obtain rfl := Option.some.inj hop
    exact gives_bits op ha hc
  | _ => cases hop

/-- A constant is promoted to a word that is no narrower. -/
theorem bits_le_wordWith (ha : a.prim? = some t) (ht : t.isIntegral = true) (c : Literal) :
    t.bits ≤ (a.wordWith c).bits := by
  have hle : ∀ (t : PrimTy) (left right : Bool), t.isIntegral = true →
      (t = .long → left = true) → t.bits ≤ (PrimTy.word (left || right)).bits := by
    intro t left right
    cases t <;> cases left <;> cases right <;> decide
  refine hle t a.isLong c.isLong ht ?_
  rintro rfl
  cases a <;> cases ha
  rfl

/-- Integers are numeric. -/
theorem isNumeric_of_integer? (ha : a.integer? = some x) : a.isNumeric = true := by
  obtain ⟨m, hm, -⟩ := Num.exists_of_integer? ha
  rw [isNumeric, hm]
  rfl

end Literal

/-- The local is of an integral type `t` and holds the constant `old`, which stands for `x`. -/
structure Body.LocalHolds (b : Body) (s : EvalState) (v : VarId) (t : PrimTy) (old : Literal)
    (x : Int) : Prop where
  varTy : b.varTy v = some (.prim t)
  isIntegral : t.isIntegral = true
  get : s.context.get v = .known old
  prim? : old.prim? = some t
  integer? : old.integer? = some x

variable {b : Body} {s s' : EvalState} {v : VarId} {t : PrimTy} {old e : Literal} {x y n : Int}
  {depth : Nat} {target value : Expr}

/-- Storing an integer in a narrower type keeps it modulo the size of that type. -/
theorem stored_wraps {l : Literal} {w : PrimTy} (hty : b.varTy v = some (.prim t))
    (ht : t.isIntegral = true) (hl : l.Wraps w n) (hw : t.bits ≤ w.bits) :
    ∃ r, stored b v (.known l) = .known r ∧ r.Wraps t n := by
  obtain ⟨r, hr, hrw⟩ := hl.convert ht hw
  refine ⟨r, ?_, hrw⟩
  rw [stored, hty]
  exact congrArg Value.ofOption hr

/-- What an operator that respects residues leaves in the local. -/
theorem Body.LocalHolds.stored {op : BinOp} {f : Int → Int → Int}
    (h : b.LocalHolds s v t old x) (hop : op.modular? = some f) (he : e.integer? = some y) :
    ∃ r r', Value.binary op (.known old) (.known e) = .ok r ∧ stored b v r = .known r' ∧
      r'.Wraps t (f x y) := by
  obtain ⟨r, hr, hrw⟩ := Literal.gives_modular hop h.integer? he
  obtain ⟨r', hr', hrw'⟩ :=
    stored_wraps h.varTy h.isIntegral hrw (Literal.bits_le_wordWith h.prim? h.isIntegral e)
  exact ⟨_, r', hr, hr', hrw'⟩

namespace Expr

/-- The outcome of an expression that ends in the state `s`, binds `v` there and gives `result`. -/
def binds (id : ExprId) (v : VarId) (new result : Value) (s : EvalState) :
    Except EvalError Value × EvalState :=
  (.ok result, { s with context := s.context.bind v new }.observe id result)

/-- Below the depth bound an expression comes to what its layer comes to. -/
theorem eval_of_kind {id : ExprId} {k : ExprKind Expr} {r : Value} (hdepth : depth < evalDepth)
    (h : evalKind b (depth + 1) id k s = (.ok r, s')) :
    (node id k).eval b depth s = (.ok r, s'.observe id r) := by
  rw [eval, locate_eq_ok, if_neg (by omega), bind_of_ok h]
  rfl

/-- A compound assignment stores the operator's result, converted to the type of its local. -/
theorem eval_compound {id : ExprId} {op : BinOp} {q r : Value} (hdepth : depth < evalDepth)
    (htarget : target.localTarget? = some v)
    (hvalue : value.eval b (depth + 1) s = (.ok q, s'))
    (hop : Value.binary op (s.context.get v) q = .ok r) :
    (node id (.assign target (some op) value)).eval b depth s =
      binds id v (stored b v r) (stored b v r) s' := by
  have hkind : evalKind b (depth + 1) id (.assign target (some op) value) s =
      (.ok (stored b v r), { s' with context := s'.context.bind v (stored b v r) }) := by
    unfold evalKind
    rw [htarget]
    refine bind_eq_ok.2 ⟨_, s, rfl, bind_eq_ok.2 ⟨q, s', hvalue, bind_eq_ok.2 ⟨r, s', ?_, rfl⟩⟩⟩
    rw [hop]
    rfl
  exact eval_of_kind hdepth hkind

/-- A step stores its operator's result, converted to the type of its local. -/
theorem eval_step {id : ExprId} {st : Step} {r : Value} (hdepth : depth < evalDepth)
    (htarget : target.localTarget? = some v) (hold : s.context.get v = .known old)
    (hnumeric : old.isNumeric = true)
    (hop : Value.binary (.arith (if st.increments then .add else .sub)) (.known old)
      (.known (.int 1)) = .ok r) :
    (node id (.unary (.step st) target)).eval b depth s =
      binds id v (stored b v r) (if st.after then .known old else stored b v r) s := by
  have hkind : evalKind b (depth + 1) id (.unary (.step st) target) s =
      (.ok (if st.after then .known old else stored b v r),
        { s with context := s.context.bind v (stored b v r) }) := by
    unfold evalKind
    rw [htarget]
    refine bind_eq_ok.2 ⟨_, s, rfl, ?_⟩
    rw [hold, if_neg (by simp [Value.isNumeric, hnumeric])]
    refine bind_eq_ok.2 ⟨r, s, ?_, bind_eq_ok.2 ⟨_, _, rfl, rfl⟩⟩
    rw [hop]
    rfl
  exact eval_of_kind hdepth hkind

/-- Where a local of an integral type holds `x`, an operator that respects residues leaves the
result on integers modulo the width of the type in it, whatever the operands are promoted to, and a
step adds or takes one. Only the steps written after the local give its old value. Conversions
compose likewise: one to a type that is no narrower than the next does not show. -/
theorem eval_modulo (h : b.LocalHolds s v t old x) (hdepth : depth < evalDepth)
    (htarget : target.localTarget? = some v) :
    (∀ id op f value e y s', op.modular? = some f →
      value.eval b (depth + 1) s = (.ok (.known e), s') → e.integer? = some y →
      ∃ r : Literal, r.Wraps t (f x y) ∧
        (node id (.assign target (some op) value)).eval b depth s =
          binds id v (.known r) (.known r) s') ∧
    (∀ id st, ∃ r : Literal, r.Wraps t (if st.increments then x + 1 else x - 1) ∧
        (node id (.unary (.step st) target)).eval b depth s =
          binds id v (.known r) (.known (if st.after then old else r)) s) ∧
    ∀ (l : Literal) n t u, l.integer? = some n → t.isIntegral = true → u.isIntegral = true →
      u.bits ≤ t.bits → ((Value.known l).convert t).convert u = (Value.known l).convert u ∧
        ∃ r, (Value.known l).convert u = .known r ∧ r.Wraps u n := by
  refine ⟨fun id op f value e y s' hop hvalue he => ?_, fun id st => ?_,
    fun l n t u hl ht hu hle => ?_⟩
  · obtain ⟨q, r, hq, hr, hwraps⟩ := h.stored hop he
    rw [← h.get] at hq
    refine ⟨r, hwraps, ?_⟩
    rw [eval_compound hdepth htarget hvalue hq, hr]
  · have hop : (BinOp.arith (if st.increments then .add else .sub)).modular? =
        some fun x y => if st.increments then x + y else x - y := by
      cases st.increments <;> rfl
    obtain ⟨q, r, hq, hr, hwraps⟩ := h.stored (e := .int 1) hop rfl
    refine ⟨r, hwraps, ?_⟩
    rw [eval_step hdepth htarget h.get (Literal.isNumeric_of_integer? h.integer?) hq, hr]
    cases st.after <;> rfl
  · obtain ⟨q, hq, -⟩ := Literal.convert_wraps hl ht
    obtain ⟨r, hr, hwraps⟩ := Literal.convert_wraps hl hu
    have hqr := Literal.convert_convert hl ht hu hle
    rw [hq, Option.bind_some, hr] at hqr
    simp only [Value.convert, hq, hr, hqr, Value.ofOption, true_and]
    exact ⟨r, rfl, hwraps⟩

/-- A body whose one local is a `byte`. -/
def narrowBody : Body where
  name := "narrow"
  vars := #[⟨"x", .prim .byte, .localVar, .dummy⟩]

/-- The state in which the local holds the greatest `byte`. -/
def narrowState : EvalState := { context := (∅ : Context).bind 0 (.known (.byte 127)) }

/-- A `long` that does not fit an `int` is added to the greatest `byte`, or 1 by a step after it. -/
theorem eval_modulo_narrowBody :
    narrowBody.LocalHolds narrowState 0 .byte (.byte 127) 127 ∧ 0 < evalDepth ∧
    (node 0 (.var 0)).localTarget? = some 0 ∧
    (node 2 (.assign (node 0 (.var 0)) (some (.arith .add))
      (node 1 (.lit (.long 1099511627779))))).eval narrowBody 0 narrowState =
      binds 2 0 (.known (.byte (-126))) (.known (.byte (-126))) narrowState ∧
    (node 1 (.unary (.step ⟨true, true⟩) (node 0 (.var 0)))).eval narrowBody 0 narrowState =
      binds 1 0 (.known (.byte (-128))) (.known (.byte 127)) narrowState := by
  have h : narrowBody.LocalHolds narrowState 0 .byte (.byte 127) 127 :=
    ⟨rfl, rfl, rfl, rfl, by decide⟩
  have hdepth : 0 < evalDepth := by decide
  have htarget : (node 0 (.var 0)).localTarget? = some 0 := rfl
  obtain ⟨hassign, hstep, -⟩ := eval_modulo h hdepth htarget
  refine ⟨h, hdepth, htarget, ?_, ?_⟩
  · obtain ⟨r, hr, heval⟩ := hassign 2 (.arith .add) _ (node 1 (.lit (.long 1099511627779)))
      (.long 1099511627779) 1099511627779 narrowState rfl rfl (by decide)
    obtain rfl := hr.unique (m := .byte (-126)) ⟨rfl, -126, by decide, by decide⟩
    exact heval
  · obtain ⟨r, hr, heval⟩ := hstep 1 ⟨true, true⟩
    obtain rfl := hr.unique (m := .byte (-128)) ⟨rfl, -128, by decide, by decide⟩
    exact heval

end Expr

end Midend
