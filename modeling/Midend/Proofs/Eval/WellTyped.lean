import Midend.Proofs.Body.Fault
import Midend.Proofs.Eval.Typed
import Midend.Proofs.Value.Faults

/-!
# Well-typed bodies

A body is well-typed (`Body.WellTyped`) if its operators are applied to operands of
the types they are defined on, or add to a string, its conditions are truth values,
and its variables are assigned values of their own sort; `nullable` says whether a
variable that is a string may be assigned `null`.

Evaluating a statement of such a body meets none of the faults about operands,
conditions and targets, with one exception (`Body.WellTyped.fault_of_eval`). The type
of a sum with an operand of string type is a string, but the evaluator adds `null` and
an operand that is no string as it would numbers, and fails. So a body that assigns
`null` to a variable may fail although it is well-typed (`Body.fault_nullSum`). One
that does not fails only at the limit of nesting or at a division by zero.
-/

namespace Midend

open Eval

/-! ## Conditions on trees -/

/-- Whether operands of the given types can be operands of the operator. -/
def BinOp.takes (op : BinOp) (l r : Option Ty) : Bool :=
  op.definedOn (primOf l) (primOf r) ||
    op == .arith .add && (l.any Ty.isString || r.any Ty.isString)

/-- Whether a variable of the first type can be assigned a value of the second: numbers go to
numeric variables and truth values to boolean ones, and a variable that is a string receives
strings. -/
def receives (target value : Option Ty) : Bool :=
  (!(primOf value).any PrimTy.isNumeric || (primOf target).any PrimTy.isNumeric) &&
    (primOf value != some .boolean || primOf target == some .boolean) &&
    (!target.any Ty.isString || value.any Ty.isString)

namespace Expr

/-- Whether the expression is the literal `null`, perhaps in parentheses. -/
def isNull (e : Expr) : Bool :=
  match e.peel.kind with
  | .lit .null => true
  | _ => false

/-- Whether a variable of the given type can be assigned the value of the expression. -/
def assignable (nullable : Bool) (env : TyEnv) (target : Option Ty) (e : Expr) : Bool :=
  receives target (e.staticTy env) || nullable && e.isNull

/-- Whether the types of the operands fit the expression. What is assigned to a field or an array
element plays no part. -/
def wellTyped (nullable : Bool) (env : TyEnv) (e : Expr) : Bool :=
  match e.kind with
  | .unary (.step st) operand =>
    match operand.localTarget? with
    | some v => UnOp.definedOn (.step st) (primOf (env v))
    | none => true
  | .unary op operand => op.definedOn (primOf (operand.staticTy env))
  | .binary l op r => op.takes (l.staticTy env) (r.staticTy env)
  | .conditional c _ _ => c.staticTy env == some (.prim .boolean)
  | .assign target op value =>
    match target.localTarget?, op with
    | some v, none => value.assignable nullable env (env v)
    | some v, some op =>
      op.takes (env v) (value.staticTy env) &&
        receives (env v) (op.resultTy (env v) (value.staticTy env))
    | none, _ => true
  | _ => true

end Expr

/-- Whether the types of its expressions fit the statement itself. -/
def Stmt.wellTyped (nullable : Bool) (env : TyEnv) : StmtKind Expr Stmt → Bool
  | .decl v (some e) => e.assignable nullable env (env v)
  | .branch c .. | .whileLoop c _ | .doLoop _ c | .assert c _ | .forLoop _ (some c) .. =>
    c.staticTy env == some (.prim .boolean)
  | _ => true

/-- Variables are primitive or strings, and everything below the root block is well-typed. -/
structure Body.WellTyped (nullable : Bool) (b : Body) : Prop where
  vars : ∀ x ∈ b.vars, x.ty.prim?.isSome = true ∨ x.ty.isString = true
  exprs : ∀ e ∈ b.root.flatMap Stmt.allExprs, e.wellTyped nullable b.varTy = true
  stmts : ∀ s ∈ b.root.flatMap Stmt.substmts, Stmt.wellTyped nullable b.varTy s.kind = true

/-! ## Strings -/

/-- A sum of `null` with something that is no string. -/
def Fault.isNullSum : Fault → Bool
  | .binaryMismatch (.arith .add) (some l) (some r) =>
    (l == .null || r == .null) && l != .string && r != .string
  | _ => false

/-- The faults of well-typed expressions. -/
def Fault.Tolerated (nullable : Bool) (f : Fault) : Prop :=
  f = .recursionLimit ∨ f = .divisionByZero ∨ nullable = true ∧ f.isNullSum = true

/-- A string, or `null` if that is allowed. -/
def Literal.IsText (nullable : Bool) (l : Literal) : Prop :=
  (∃ s, l = .str s) ∨ nullable = true ∧ l = .null

/-- Constants of primitive types, and strings. -/
def Typing.text (nullable : Bool) : Typing where
  fits ty x := x.HasTy ty ∧
    (ty.any Ty.isString = true → ∀ l, x = .known l → l.IsText nullable)
  unknown ty := ⟨Value.hasTy_unknown ty, fun _ _ h => nomatch h⟩

/-- A string has no primitive type. -/
theorem primOf_of_isString {ty : Option Ty} (h : ty.any Ty.isString = true) : primOf ty = none := by
  rcases ty with _ | ⟨p⟩ | ⟨name⟩ | ⟨e⟩ <;> first | cases h | rfl

namespace Literal

variable {nullable : Bool} {a c : Literal}

/-- A sum with a text is a string or a sum of `null` and no string. -/
theorem sum_of_isText (h : a.IsText nullable ∨ c.IsText nullable) :
    eitherString a c = true ∨
      nullable = true ∧ (Fault.binaryMismatch (.arith .add) (some a.kind) (some c.kind)).isNullSum =
        true := by
  rcases h with (⟨s, rfl⟩ | ⟨hn, rfl⟩) | (⟨s, rfl⟩ | ⟨hn, rfl⟩)
  · exact .inl rfl
  · cases c <;> simp [eitherString, kind, Fault.isNullSum, hn]
  · cases a <;> exact .inl rfl
  · cases a <;> simp [eitherString, kind, Fault.isNullSum, hn]

/-- A sum with a text operand is a text. -/
theorem str_of_sum {r : Literal} (h : a.IsText nullable ∨ c.IsText nullable)
    (hr : a.binary (.arith .add) c = .ok r) : ∃ s, r = .str s := by
  by_cases hs : eitherString a c = true
  · rw [binary_eitherString hs] at hr
    exact ⟨_, (Except.ok.inj hr).symm⟩
  · have hnum : a.num? = none ∨ c.num? = none := by
      rcases h with (⟨s, rfl⟩ | ⟨-, rfl⟩) | (⟨s, rfl⟩ | ⟨-, rfl⟩)
      · exact .inl rfl
      · exact .inl rfl
      · exact .inr rfl
      · exact .inr rfl
    rw [binary, if_neg fun h => hs h.2] at hr
    split at hr
    · next hm hn => simp_all
    · cases hr

end Literal

/-- Every operator but equality needs primitive operands. -/
theorem BinOp.definedOn_cases {op : BinOp} {p q : Option PrimTy} (h : op.definedOn p q = true) :
    (∃ negated, op = .equality negated) ∨ (∃ t, p = some t) ∧ ∃ t, q = some t := by
  rcases p with _ | p <;> rcases q with _ | q
  case some.some => exact .inr ⟨⟨p, rfl⟩, q, rfl⟩
  all_goals cases op <;> simp_all [definedOn]

/-- An operator that is defined on the types is defined on their values. -/
theorem BinOp.definedOn_of_hasTy {op : BinOp} {tl tr : Option Ty} {a c : Literal}
    (h : op.definedOn (primOf tl) (primOf tr) = true) (ha : (Value.known a).HasTy tl)
    (hc : (Value.known c).HasTy tr) : op.definedOn a.prim? c.prim? = true := by
  obtain ⟨negated, rfl⟩ | ⟨⟨p, hp⟩, q, hq⟩ := definedOn_cases h
  · rfl
  · rwa [ha p a (primOf_eq_some.1 hp) rfl, hc q c (primOf_eq_some.1 hq) rfl, ← hp, ← hq]

theorem UnOp.definedOn_of_hasTy {op : UnOp} {t : Option Ty} {l : Literal}
    (h : op.definedOn (primOf t) = true) (hl : (Value.known l).HasTy t) :
    op.definedOn l.prim? = true := by
  cases hp : primOf t with
  | none =>
    rw [hp] at h
    cases op <;> cases h
  | some p => rwa [hl p l (primOf_eq_some.1 hp) rfl, ← hp]

/-- The type of an operation is a string only if it is a sum with one. -/
theorem BinOp.isString_resultTy {op : BinOp} {tl tr : Option Ty}
    (h : (op.resultTy tl tr).any Ty.isString = true) :
    op = .arith .add ∧ (tl.any Ty.isString = true ∨ tr.any Ty.isString = true) := by
  unfold resultTy at h
  split at h
  · cases h
  · split at h
    · next hs => exact ⟨hs.1, by simpa using hs.2⟩
    · cases hl : primOf tl with
      | none => simp [hl] at h
      | some p =>
        cases hr : primOf tr with
        | none => simp [hl, hr] at h
        | some q => cases ht : op.resultPrim p q <;> simp [hl, hr, ht, Ty.isString] at h

/-- A conditional expression is a string only if both its arms are. -/
theorem conditionalTy_of_isString {tx ty : Option Ty} {t : Ty} (h : conditionalTy tx ty = some t)
    (ht : t.isString = true) : tx = some t ∧ ty = some t := by
  cases tx with
  | none => cases h
  | some tx =>
    cases ty with
    | none => cases h
    | some ty =>
      simp only [conditionalTy, Option.bind_eq_bind, Option.bind_some] at h
      split at h
      · next heq =>
        subst heq
        exact ⟨h, h⟩
      · obtain ⟨p, -, h⟩ := Option.bind_eq_some_iff.1 h
        obtain ⟨q, -, h⟩ := Option.bind_eq_some_iff.1 h
        rw [Option.ite_none_left_eq_some] at h
        obtain ⟨r, -, rfl⟩ := Option.map_eq_some_iff.1 h.2
        cases ht

/-! ## What operations make of typed values -/

namespace Typing

variable {nullable : Bool} {x y : Value} {tx ty : Option Ty}

/-- A literal fits its own type. -/
theorem fits_text_literal (l : Literal) : (text nullable).fits l.ty? (.known l) := by
  refine ⟨Value.hasTy_literal l, fun hs m hm => ?_⟩
  obtain rfl := Value.known.inj hm
  cases l <;> first | exact .inl ⟨_, rfl⟩ | cases hs

theorem fits_text_none (x : Value) : (text nullable).fits none x := ⟨nofun, nofun⟩

/-- One of the operands of a sum with a string is a text. -/
theorem text_or_text {a c : Literal} (hs : tx.any Ty.isString = true ∨ ty.any Ty.isString = true)
    (hx : (text nullable).fits tx (.known a)) (hy : (text nullable).fits ty (.known c)) :
    a.IsText nullable ∨ c.IsText nullable :=
  hs.imp (fun h => hx.2 h a rfl) fun h => hy.2 h c rfl

/-- On operands of the types it takes an operator fails in the tolerated ways only. -/
theorem binary_text {op : BinOp} (htakes : op.takes tx ty = true)
    (hx : (text nullable).fits tx x) (hy : (text nullable).fits ty y) :
    Outcome (Fault.Tolerated nullable) ((text nullable).fits (op.resultTy tx ty))
      (Value.binary op x y) := by
  refine .intro (fun r hr => ⟨Value.binary_hasTy hx.1 hy.1 hr, ?_⟩) fun f hf => ?_
  · rintro hs l rfl
    obtain ⟨a, c, rfl, rfl, hac⟩ := Value.binary_eq_known hr
    obtain ⟨rfl, hsum⟩ := BinOp.isString_resultTy hs
    exact .inl (Literal.str_of_sum (text_or_text hsum hx hy) hac)
  · obtain ⟨a, c, rfl, rfl, hac⟩ := Value.binary_eq_error hf
    rw [BinOp.takes, Bool.or_eq_true, Bool.and_eq_true, Bool.or_eq_true, beq_iff_eq] at htakes
    rcases htakes with hd | ⟨rfl, hs⟩
    · exact .inr (.inl (Literal.binary_of_definedOn (op.definedOn_of_hasTy hd hx.1 hy.1) hac))
    · rcases Literal.sum_of_isText (text_or_text hs hx hy) with hstring | ⟨hn, hnull⟩
      · rw [Literal.binary_eitherString hstring] at hac
        cases hac
      · rcases Literal.binary_eq_error hac with rfl | rfl
        · exact .inr (.inl rfl)
        · exact .inr (.inr ⟨hn, hnull⟩)

theorem unary_text {op : UnOp} (hop : op.isStep = false) (hd : op.definedOn (primOf tx) = true)
    (hx : (text nullable).fits tx x) :
    Outcome (Fault.Tolerated nullable) ((text nullable).fits (op.resultTy tx))
      (Value.unary op x) := by
  refine .intro (fun r hr => ⟨Value.unary_hasTy hx.1 hr, fun hs => ?_⟩) fun f hf => ?_
  · cases op with
    | step st => cases hop
    | not => cases hs
    | neg | plus | bitNot => cases hp : primOf tx <;> simp [UnOp.resultTy, hp, Ty.isString] at hs
  · cases x with
    | unknown =>
      rw [Value.unary, hop] at hf
      cases hf
    | known l =>
      obtain ⟨r, hr⟩ := Literal.unary_of_definedOn (UnOp.definedOn_of_hasTy hd hx.1) hop
      rw [Value.unary, hr] at hf
      cases hf

/-- A conditional's result fits the type of the conditional. -/
theorem conditional_text (hx : (text nullable).fits tx x ∨ (text nullable).fits ty x) :
    (text nullable).fits (conditionalTy tx ty) (x.asConditional (conditionalTy tx ty)) := by
  refine ⟨Value.asConditional_hasTy (hx.imp And.left And.left), fun hs => ?_⟩
  obtain ⟨t, ht, hstring⟩ := (Option.any_eq_true _ _).1 hs
  have harms := conditionalTy_of_isString ht hstring
  have hvalue : x.asConditional (conditionalTy tx ty) = x := by
    rw [ht]
    cases t with
    | prim p => cases hstring
    | named | array => rfl
  rw [hvalue]
  rw [harms.1, harms.2, or_self] at hx
  exact hx.2 hstring

/-- Strings are stored as they are. -/
theorem stored_of_isString {b : Body} {v : VarId} (hs : (b.varTy v).any Ty.isString = true) :
    stored b v x = x := by
  rw [stored, primOf_of_isString hs]

/-- What a variable receives fits its type. -/
theorem stored_text {b : Body} {v : VarId} (h : receives (b.varTy v) tx = true)
    (hx : (text nullable).fits tx x) : (text nullable).fits (b.varTy v) (stored b v x) := by
  refine ⟨stored_hasTy x, fun hs => ?_⟩
  rw [stored_of_isString hs]
  simp only [receives, hs, Bool.and_eq_true, Bool.not_true, Bool.false_or] at h
  exact hx.2 h.2

/-- A known value of a numeric type is numeric. -/
theorem not_mismatch_of_numeric (h : (primOf tx).any PrimTy.isNumeric = true)
    (hx : (text nullable).fits tx x) : ¬(x.isKnown && !x.isNumeric) = true := by
  cases x with
  | unknown => exact Bool.false_ne_true
  | known l =>
    obtain ⟨p, hp, hnumeric⟩ := (Option.any_eq_true _ _).1 h
    obtain ⟨n, hn⟩ : ∃ n, l.num? = some n := by
      refine Literal.exists_num ?_
      rw [hx.1 p l (primOf_eq_some.1 hp) rfl]
      exact hnumeric
    simp [Value.isKnown, Value.isNumeric, Literal.isNumeric, hn]

/-- The sum that a step makes. -/
theorem step_text {op : ArithOp} (h : (primOf tx).any PrimTy.isNumeric = true)
    (hx : (text nullable).fits tx x) :
    Outcome (Fault.Tolerated nullable) (fun _ => True)
      (Value.binary (.arith op) x (.known (.int 1))) := by
  have htakes : (BinOp.arith op).takes tx (some (.prim .int)) = true := by
    rw [BinOp.takes, BinOp.definedOn, h]
    rfl
  exact (binary_text htakes hx (fits_text_literal (.int 1))).imp fun _ _ => trivial

/-- An assignable value fits the type of the local it is stored in. -/
theorem stored_assignable {b : Body} {v : VarId} {e : Expr}
    (h : e.assignable nullable b.varTy (b.varTy v) = true)
    (hx : (text nullable).fits (e.staticTy b.varTy) x) (hl : e.LiteralValue x) :
    (text nullable).fits (b.varTy v) (stored b v x) := by
  rw [Expr.assignable, Bool.or_eq_true, Bool.and_eq_true] at h
  rcases h with h | ⟨hn, hnull⟩
  · exact stored_text h hx
  · have hvalue : x = .known .null := by
      unfold Expr.isNull at hnull
      split at hnull
      · next hk => exact hl _ hk
      · cases hnull
    refine ⟨stored_hasTy x, fun hs l hl => .inr ⟨hn, ?_⟩⟩
    rw [stored_of_isString hs, hvalue] at hl
    exact (Value.known.inj hl).symm

end Typing

/-! ## The discipline -/

/-- Values have the types of their expressions, and no fault is met but those tolerated. -/
def StmtDiscipline.wellTyped (b : Body) (nullable : Bool) : StmtDiscipline b where
  inv := EvalState.Typed (.text nullable) b.varTy fun _ => none
  fault := Fault.Tolerated nullable
  result e x := (Typing.text nullable).fits (e.staticTy b.varTy) x ∧ e.LiteralValue x
  layer e := e.wellTyped nullable b.varTy = true ∧ ∀ t, e.target? = some t → t.isLvalue = true
  stmtLayer k := Stmt.wellTyped nullable b.varTy k = true
  paths := (EvalState.typed_loopable ..).toJoinable
  loops := EvalState.typed_loopable ..
  observe _ _ hs := hs.observe (Typing.fits_text_none _)
  recursionLimit := .inl rfl
  place hlayer ht := .inl (hlayer.2 _ ht)
  lit := ⟨Typing.fits_text_literal _, fun _ h => congrArg Value.known (ExprKind.lit.inj h)⟩
  var hs := ⟨hs.context _, nofun⟩
  paren hx := hx
  unknown h := ⟨(Typing.text nullable).unknown _, fun l hl => absurd hl (h l)⟩
  assign hlayer hv hx := by
    have htyped := hlayer.1
    simp only [Expr.wellTyped, Expr.kind, hv] at htyped
    rw [Expr.staticTy, Expr.staticTy_of_localTarget? hv]
    exact (assignLocal_typed (Typing.stored_assignable htyped hx.1 hx.2)).imp fun _ h => ⟨h, nofun⟩
  compound hlayer hv hs hx := by
    have htyped := hlayer.1
    simp only [Expr.wellTyped, Expr.kind, hv, Bool.and_eq_true] at htyped
    rw [Expr.staticTy, Expr.staticTy_of_localTarget? hv]
    refine (Upholds.ofExcept (Typing.binary_text htyped.1 (hs.context _) hx.1)).bind fun y hy => ?_
    exact (assignLocal_typed (Typing.stored_text htyped.2 hy)).imp fun _ h => ⟨h, nofun⟩
  step hlayer hv := by
    have htyped := hlayer.1
    simp only [Expr.wellTyped, Expr.kind, hv] at htyped
    rw [Expr.staticTy_unary, UnOp.resultTy, Expr.staticTy_of_localTarget? hv]
    refine .step (Q := fun _ => True) (fun _ hs => ⟨hs.context _, nofun⟩)
      (fun _ hs hx => absurd hx (Typing.not_mismatch_of_numeric htyped (hs.context _)))
      (fun _ hs => Typing.step_text htyped (hs.context _))
      fun y _ => (assignLocal_typed (T := .text nullable) ⟨stored_hasTy y, fun hs => ?_⟩).imp
        fun _ h => ⟨h, nofun⟩
    -- A variable that is a string has no steps.
    rw [primOf_of_isString hs] at htyped
    cases htyped
  unary {id op e x} hlayer hop hx := by
    have htyped : op.definedOn (primOf (e.staticTy b.varTy)) = true := by
      cases op with
      | step st => cases hop
      | not | neg | plus | bitNot => exact hlayer.1
    rw [Expr.staticTy_unary]
    exact (Typing.unary_text hop htyped hx.1).imp fun _ h => ⟨h, nofun⟩
  binary hlayer hx hy := by
    rw [Expr.staticTy_binary]
    exact (Typing.binary_text hlayer.1 hx.1 hy.1).imp fun _ h => ⟨h, nofun⟩
  decided := by
    intro id l op r
    rw [Expr.staticTy_binary]
    exact ⟨Typing.fits_text_literal (.bool op.deciding), nofun⟩
  condition hlayer hc :=
    .inl (Literal.exists_bool (hc.1.1 _ _ (eq_of_beq hlayer.1) rfl))
  conditional hx := by
    rw [Expr.staticTy_conditional]
    exact ⟨Typing.conditional_text (hx.imp And.left And.left), nofun⟩
  decl := by
    intro v
    refine (assignLocal_typed (T := .text nullable) ?_).imp fun _ _ => trivial
    rw [stored_unknown]
    exact Typing.unknown _ _
  init hlayer hx :=
    (assignLocal_typed (Typing.stored_assignable hlayer hx.1 hx.2)).imp fun _ _ => trivial
  branch hlayer hc := .inl (Literal.exists_bool (hc.1.1 _ _ (eq_of_beq hlayer) rfl))

/-! ## Bodies -/

namespace Body

variable {b : Body} {nullable : Bool}

/-- Every reachable statement of a well-typed body follows the discipline. -/
theorem WellTyped.covers (hw : b.WellTyped nullable) (hb : b.Accepted) {s : Stmt}
    (hs : s ∈ b.root.flatMap Stmt.substmts) :
    (StmtDiscipline.wellTyped b nullable).Covers s.kind := by
  refine ⟨hw.stmts s hs, fun x hx e he => ⟨hw.exprs e (mem_allExprs hs hx he), ?_⟩⟩
  exact Expr.badTarget?_eq_none.1 (hb.badTarget? hs hx) e he

/-- A statement of a well-typed body that fails where nothing is known nests too deep, divides by
zero, or adds `null`, which a variable received, and something that is no string. -/
theorem WellTyped.fault_of_eval (hw : b.WellTyped nullable) (hb : b.Accepted) {s : Stmt}
    (hs : s ∈ b.root.flatMap Stmt.substmts) {st t : EvalState} (hcontext : st.context = ∅)
    (hcontinues : st.continues = []) {err : EvalError} (h : s.eval b st = (.error err, t)) :
    err.fault = .recursionLimit ∨ err.fault = .divisionByZero ∨
      nullable = true ∧ err.fault.isNullSum = true := by
  have hstart : EvalState.Typed (.text nullable) b.varTy (fun _ => none) st := by
    refine ⟨?_, ?_, fun _ _ _ x _ => Typing.fits_text_none x⟩
    · rw [hcontext]
      exact Context.hasTys_empty
    · rw [hcontinues]
      exact fun _ hc => (List.not_mem_nil hc).elim
  have hkeeps := Stmt.eval_upholds (StmtDiscipline.wellTyped b nullable) (s := s) fun u hu =>
    hw.covers hb (mem_substmts_trans hs hu)
  exact (hkeeps.of_error hstart h).2

/-- The body `{ { String s = null; return s + 1; } }`. -/
def nullSum : Body where
  name := "nullSum"
  vars := #[⟨"s", .string, .localVar, .dummy⟩]
  exprs := #[⟨.dummy, .lit .null⟩, ⟨.dummy, .var 0⟩, ⟨.dummy, .lit (.int 1)⟩,
    ⟨.dummy, .binary 1 (.arith .add) 2⟩]
  stmts := #[⟨.dummy, .decl 0 (some 0)⟩, ⟨.dummy, .ret (some 3)⟩, ⟨.dummy, .block [0, 1]⟩]
  block := [2]

theorem nullSum_accepted : nullSum.Accepted :=
  ⟨nullSum.has_of_reaches (by decide) (by decide) (by decide), by decide⟩

theorem nullSum_wellTyped : nullSum.WellTyped true := ⟨by decide, by decide, by decide⟩

/-- The evaluation of the only statement of the body. -/
def nullSumEval : Except EvalError Unit × EvalState := (nullSum.stmtTree 2).eval nullSum {}

/-- The error of the sum. -/
def nullSumError : EvalError :=
  { fault := .binaryMismatch (.arith .add) (some .null) (some (.prim .int)) }

/-- The sum of null and an integer fails, and in the tolerated way. -/
theorem WellTyped.fault_of_eval_nullSum :
    nullSumEval.1 = .error nullSumError ∧ nullSumError.fault.isNullSum = true := by
  have hs : nullSum.stmtTree 2 ∈ nullSum.root.flatMap Stmt.substmts :=
    List.mem_flatMap.2 ⟨_, List.mem_cons_self, List.mem_cons_self⟩
  have heval : (nullSum.stmtTree 2).eval nullSum {} = (.error nullSumError, nullSumEval.2) :=
    Prod.ext rfl rfl
  rcases nullSum_wellTyped.fault_of_eval nullSum_accepted hs rfl rfl heval with h | h | ⟨-, h⟩
  · cases h
  · cases h
  · exact ⟨rfl, h⟩

/-- The body is well-typed and the sum has the type of a string, but evaluating it fails. -/
theorem fault_nullSum :
    nullSum.Accepted ∧ nullSum.WellTyped true ∧
      (nullSum.exprTree 3).staticTy nullSum.varTy = some .string ∧
      nullSumEval.1 = .error nullSumError :=
  ⟨nullSum_accepted, nullSum_wellTyped, rfl, rfl⟩

end Body

end Midend
