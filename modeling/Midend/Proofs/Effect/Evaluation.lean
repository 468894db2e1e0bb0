import Midend.Proofs.Eval.Discipline
import Midend.Proofs.Eval.Frame
import Midend.Proofs.Fold.Effects
import Midend.Proofs.Value.Faults

/-!
# Effects and evaluation

The effects of an expression say what the evaluator can do with it. Without the
writing of locals among them the evaluator leaves the context as it was, also where
it fails, and without exceptions it divides by no zero
(`Body.Accepted.eval_of_effects`).

Both are kept by one discipline. Its condition on an expression is that it writes no
local, and that it divides, if at all, by a literal other than zero. What holds of a
value is that a literal has its own. If the condition fails somewhere in an
expression, the effect is among those of the whole (`Expr.covers_of_effects`),
whatever role the expression has.
-/

namespace Midend

open Eval

/-! ## Divisors -/

/-- Only literals cannot be zero, those other than an integer zero. -/
theorem Expr.exists_literal_of_mayBeZero {e : Expr} (h : e.mayBeZero = false) :
    ∃ l, e.peel.kind = .lit l ∧ l.num? ≠ some (.int 0) ∧ l.num? ≠ some (.long 0) := by
  unfold mayBeZero at h
  split at h
  · next i hi => exact ⟨.int i, hi, by simp_all [Literal.num?]⟩
  · next i hi => exact ⟨.long i, hi, by simp_all [Literal.num?]⟩
  · next x hx => exact ⟨.float x, hx, nofun, nofun⟩
  · next x hx => exact ⟨.double x, hx, nofun, nofun⟩
  · cases h

/-- A divisor that cannot be zero is not divided by as zero. -/
theorem Expr.LiteralValue.ne_divisionByZero {e : Expr} {op : BinOp} {x y : Value}
    (hy : e.LiteralValue y) (hop : (op.isDivision && e.mayBeZero) = false) :
    Value.binary op x y ≠ .error .divisionByZero := by
  intro h
  obtain ⟨a, c, -, rfl, hac⟩ := Value.binary_eq_error h
  obtain ⟨hdiv, hzero⟩ := Literal.binary_divisionByZero hac
  rw [hdiv, Bool.true_and] at hop
  obtain ⟨l, hl, hint, hlong⟩ := e.exists_literal_of_mayBeZero hop
  obtain rfl := Value.known.inj (hy l hl)
  exact hzero.elim hint hlong

/-- An increment or decrement divides by nothing. -/
theorem step_ne_divisionByZero {st : Step} {x y : Value} :
    Value.binary (.arith (if st.increments then .add else .sub)) x y ≠ .error .divisionByZero := by
  intro h
  obtain ⟨a, c, -, -, hac⟩ := Value.binary_eq_error h
  obtain ⟨hdiv, -⟩ := Literal.binary_divisionByZero hac
  split at hdiv <;> cases hdiv

/-! ## The discipline -/

/-- If `W` the context stays `c`, and if `X` nothing divides by zero. -/
def Discipline.ofEffects (b : Body) (c : Context) (W X : Prop) : Discipline b where
  inv s := W → s.context = c
  fault f := X → f ≠ .divisionByZero
  result := Expr.LiteralValue
  layer e := (W → ∀ t, e.target? = some t → t.localTarget? = none) ∧ (X → e.mayFail = false)
  paths := {
    restore := fun hs _ => hs
    join := fun hs ht hw => by rw [hs hw, ht hw, Context.join_self]
    report := fun _ hs => hs }
  observe _ _ hs hw := by
    rw [EvalState.context_observe]
    exact hs hw
  recursionLimit _ := nofun
  place _ _ := .inr fun _ => nofun
  lit _ h := congrArg Value.known (ExprKind.lit.inj h)
  var _ := nofun
  paren h := h
  unknown h l hl := absurd hl (h l)
  assign hlayer hv _ :=
    .assignLocal (fun _ _ hw => nomatch (hlayer.1 hw _ rfl).symm.trans hv) nofun
  compound hlayer hv _ hx := by
    refine Upholds.bind (R := fun _ => True) (.ofExcept (.intro (fun _ _ => trivial) ?_)) ?_
    · rintro f hf hX rfl
      exact hx.ne_divisionByZero (hlayer.2 hX) hf
    · exact fun _ _ =>
        .assignLocal (fun _ _ hw => nomatch (hlayer.1 hw _ rfl).symm.trans hv) nofun
  step hlayer hv := by
    refine .step (Q := fun _ => True) (fun _ _ => nofun) (fun _ _ _ _ => nofun)
      (fun _ _ => .intro (fun _ _ => trivial) ?_) ?_
    · rintro f hf - rfl
      exact step_ne_divisionByZero hf
    · exact fun _ _ =>
        .assignLocal (fun _ _ hw => nomatch (hlayer.1 hw _ rfl).symm.trans hv) nofun
  unary _ _ _ := .intro (fun _ _ => nofun) fun f hf _ => by
    rintro rfl
    exact Value.unary_ne_divisionByZero _ _ hf
  binary hlayer _ hy := .intro (fun _ _ => nofun) fun f hf hX => by
    rintro rfl
    exact hy.ne_divisionByZero (hlayer.2 hX) hf
  decided := nofun
  condition _ _ := .inr fun _ => nofun
  conditional _ := nofun

/-! ## Effects that cover the discipline -/

namespace Expr

variable (callees : CalleeEffects)

/-- A target that is a local has the effect of writing one. -/
theorem writeLocal_targetEffects {v : VarId} {reads : Bool} :
    ∀ {e : Expr}, e.localTarget? = some v → (e.targetEffects callees reads).has .writeLocal = true
  | node _ kind, h => by
    cases kind with
    | var w => exact EffectSet.writeLocal_localWrite reads
    | paren inner => exact writeLocal_targetEffects (e := inner) h
    | _ => cases h

/-- What assigns to a local has this effect in any role. -/
theorem has_writeLocal_of_target {e t : Expr} {v : VarId} (ht : e.target? = some t)
    (hv : t.localTarget? = some v) (role : Role) :
    (e.effectsAs callees role).has .writeLocal = true := by
  obtain ⟨id, k⟩ := e
  unfold target? at ht
  split at ht
  · next l op value hk =>
    obtain rfl := Option.some.inj ht
    obtain rfl : k = _ := hk
    cases role with
    | value =>
      have hl : (l.effectsAs callees (.target op.isSome)).has .writeLocal = true :=
        writeLocal_targetEffects callees hv
      exact has_effectsAs_operand (o := (_, l)) List.mem_cons_self hl
    | target reads => rfl
  · next st hk =>
    obtain rfl := Option.some.inj ht
    obtain rfl : k = _ := hk
    cases role with
    | value => exact writeLocal_targetEffects callees hv
    | target reads => rfl
  · cases ht

/-- What may divide by zero has exceptions among its effects in any role. -/
theorem has_exception_of_mayFail {e : Expr} (h : e.mayFail = true) (role : Role) :
    (e.effectsAs callees role).has .exception = true := by
  obtain ⟨id, k⟩ := e
  unfold mayFail at h
  split at h
  · next l op r hk =>
    obtain rfl : k = _ := hk
    cases role with
    | value => simp [effectsAs, effects, kindEffects, divisionEffects, h, EffectSet.throws,
        EffectSet.singleton]
    | target reads => rfl
  · next l op r hk =>
    obtain rfl : k = _ := hk
    cases role with
    | value => simp [effectsAs, effects, kindEffects, divisionEffects, h, EffectSet.throws,
        EffectSet.singleton]
    | target reads => rfl
  · cases h

variable {callees} {b : Body} {c : Context} {W X : Prop}

/-- An expression without the effects is under the discipline. -/
theorem covers_of_effects {e : Expr} {role : Role}
    (hW : W → (e.effectsAs callees role).has .writeLocal = false)
    (hX : X → (e.effectsAs callees role).has .exception = false) :
    (Discipline.ofEffects b c W X).Covers e := by
  intro s hs
  rw [← map_snd_rolesAs e role] at hs
  obtain ⟨⟨r, s⟩, hrole, rfl⟩ := List.mem_map.1 hs
  refine ⟨fun hw t ht => ?_, fun hx => ?_⟩
  · by_contra hne
    obtain ⟨v, hv⟩ := Option.ne_none_iff_exists'.1 hne
    have heffect := has_effectsAs hrole (has_writeLocal_of_target callees ht hv r)
    rw [hW hw] at heffect
    cases heffect
  · by_contra hne
    have hfail : s.mayFail = true := by simpa using hne
    have heffect := has_effectsAs hrole (has_exception_of_mayFail callees hfail r)
    rw [hX hx] at heffect
    cases heffect

end Expr

namespace Body

variable {b : Body}

/-- The effects recorded for an expression say what evaluating it may do: without the writing of
locals it leaves the context as it is, and without exceptions it divides by no zero. -/
theorem Accepted.eval_of_effects (hb : b.Accepted) (callees : CalleeEffects) {e : Expr}
    (he : e ∈ b.root.flatMap Stmt.allExprs) (depth : Nat) (s : EvalState) :
    (((Effects.compute b callees).expr e.id).has .writeLocal = false →
      (e.eval b depth s).2.context = s.context) ∧
    (((Effects.compute b callees).expr e.id).has .exception = false →
      ∀ err t, e.eval b depth s = (.error err, t) → err.fault ≠ .divisionByZero) := by
  obtain ⟨role, t, ht, x, hx, hrole⟩ := exists_uses he
  rw [Effects.expr_compute hb ht hx hrole]
  have hkeeps := Expr.eval_upholds (Discipline.ofEffects b s.context
    ((e.effectsAs callees role).has .writeLocal = false)
    ((e.effectsAs callees role).has .exception = false)) depth (Expr.covers_of_effects id id)
  refine ⟨fun hw => (hkeeps s fun _ => rfl).1 hw, fun hx err t herr => ?_⟩
  exact (hkeeps.of_error (fun _ => rfl) herr).2 hx

/-- The body `{ int q = x / (4) % -x; q /= x; }`. -/
def quotients : Body where
  name := "quotients"
  vars := #[⟨"x", .prim .int, .param, .dummy⟩, ⟨"q", .prim .int, .localVar, .dummy⟩]
  exprs := #[⟨.dummy, .var 0⟩, ⟨.dummy, .lit (.int 4)⟩, ⟨.dummy, .paren 1⟩,
    ⟨.dummy, .binary 0 (.arith .div) 2⟩, ⟨.dummy, .var 0⟩, ⟨.dummy, .unary .neg 4⟩,
    ⟨.dummy, .binary 3 (.arith .rem) 5⟩, ⟨.dummy, .var 1⟩, ⟨.dummy, .var 0⟩,
    ⟨.dummy, .assign 7 (some (.arith .div)) 8⟩]
  stmts := #[⟨.dummy, .decl 1 (some 6)⟩, ⟨.dummy, .expr 9⟩]
  params := [0]
  block := [0, 1]

/-- The witness is an accepted body. -/
theorem quotients_accepted : quotients.Accepted :=
  ⟨quotients.has_of_reaches (by decide) (by decide) (by decide), by decide⟩

/-- The remainder fails where `x` is zero and leaves the context; the quotient in it has no
exceptions. -/
theorem Accepted.eval_of_effects_quotients :
    let s : EvalState := { context := .ofList [(0, .known (.int 0))] }
    let effects := Effects.compute quotients noSignatures
    (effects.expr 6).has .writeLocal = false ∧ (effects.expr 6).has .exception = true ∧
      ((quotients.exprTree 6).eval quotients 0 s).1 = .error ⟨.divisionByZero, .dummy⟩ ∧
      ((quotients.exprTree 6).eval quotients 0 s).2.context = s.context ∧
      (effects.expr 3).has .exception = false ∧
      ∀ err t, (quotients.exprTree 3).eval quotients 0 s = (.error err, t) →
        err.fault ≠ .divisionByZero := by
  have hremainder : quotients.exprTree 6 ∈ quotients.root.flatMap Stmt.allExprs :=
    mem_allExprs (s := quotients.stmtTree 0)
      (List.mem_flatMap.2 ⟨_, List.mem_cons_self, List.mem_cons_self⟩)
      List.mem_cons_self (Expr.mem_subexprs_self _)
  have hquotient : quotients.exprTree 3 ∈ quotients.root.flatMap Stmt.allExprs :=
    mem_allExprs_trans hremainder (Expr.mem_subexprs_child List.mem_cons_self)
  obtain ⟨hcontext, -⟩ := quotients_accepted.eval_of_effects noSignatures hremainder 0
    { context := .ofList [(0, .known (.int 0))] }
  obtain ⟨-, hzero⟩ := quotients_accepted.eval_of_effects noSignatures hquotient 0
    { context := .ofList [(0, .known (.int 0))] }
  exact ⟨rfl, rfl, rfl, hcontext rfl, rfl, hzero rfl⟩

end Body

end Midend
