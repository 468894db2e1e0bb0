import Midend.Proofs.Eval.Closed
import Midend.Proofs.Eval.Evaluator

/-!
# Evaluations in other monads

Two evaluations of one tree, by `Expr.eval` and in another monad, take the same steps in
the same order. A relation between what they do that holds of every step and that every
way to compose them keeps (`Mirrors`) holds of every expression
(`Expr.evaluateIn_mirrors`) and of every statement (`Stmt.evaluateIn_mirrors`).
-/

namespace Midend

variable {m : Type → Type} [Monad m] [Evaluates m]

/-- The relation is between evaluations in `m` and evaluations that have the depth for a
parameter, and every way to compose them keeps it. -/
structure Mirrors (R : ∀ {α : Type}, Nat → m α → Eval α → Prop) : Prop where
  pure : ∀ {α : Type} {depth : Nat} (a : α), R depth (Pure.pure a) (Pure.pure a)
  bind : ∀ {α β : Type} {depth : Nat} {x : m α} {y : Eval α} {f : α → m β} {g : α → Eval β},
    R depth x y → (∀ a, R depth (f a) (g a)) → R depth (x >>= f) (y >>= g)
  steps : Eval.Closed (fun _ => True) (fun _ => True) fun x => ∀ depth, R depth (liftM x) x
  observe : ∀ (e : ExprId) (v : Value) (depth : Nat),
    R depth (liftM (Eval.observe e v)) (Eval.observe e v)
  continueLoop : ∀ depth : Nat, R depth (liftM (modify EvalState.continueLoop : Eval Unit))
    (modify EvalState.continueLoop)
  nested : ∀ {α : Type} {depth : Nat} {x : m α} {y : Eval α}, R (depth + 1) x y →
    R depth (Evaluates.nested x) (if depth ≥ evalDepth then Eval.fail .recursionLimit else y)
  locate : ∀ {α : Type} {depth : Nat} {x : m α} {y : Eval α} (span : Span), R depth x y →
    R depth (Evaluates.locate span x) (Eval.locate span y)
  iteration : ∀ {depth : Nat} {x : m Unit} {y : Eval Unit}, R depth x y →
    R depth (Evaluates.iteration x) (Eval.iteration y)

namespace Mirrors

variable {R : ∀ {α : Type}, Nat → m α → Eval α → Prop} {α : Type} {depth : Nat} {x x' : m α}
  {y y' : Eval α}

/-- The context is as much a step as what changes it. -/
theorem context (hR : Mirrors R) (depth : Nat) :
    R depth (liftM Eval.context) Eval.context := by
  have h : R depth (liftM (Eval.context >>= Pure.pure)) (Eval.context >>= Pure.pure) :=
    hR.steps.context_bind (fun c _ => hR.steps.pure c) depth
  exact h

theorem setContext (hR : Mirrors R) (c : Context) (depth : Nat) :
    R depth (liftM (Eval.setContext c)) (Eval.setContext c) :=
  hR.steps.setContext trivial depth

theorem forget (hR : Mirrors R) (vs : IdSet) (depth : Nat) :
    R depth (liftM (Eval.forget vs)) (Eval.forget vs) :=
  hR.steps.forget (fun _ _ => trivial) depth

theorem maybe (hR : Mirrors R) (hx : R depth x y) :
    R depth (Evaluates.maybe x) (Eval.maybe y) :=
  hR.bind (hR.context depth) fun _ => hR.bind hx fun _ => hR.steps.meet trivial depth

theorem either (hR : Mirrors R) (hx : R depth x y) (hx' : R depth x' y') :
    R depth (Evaluates.either x x') (Eval.either y y') := by
  refine hR.bind (hR.context depth) fun c => hR.bind hx fun a => ?_
  refine hR.bind (hR.context depth) fun _ => hR.bind (hR.setContext c depth) fun _ => ?_
  exact hR.bind hx' fun e => hR.bind (hR.steps.meet trivial depth) fun _ => hR.pure (a, e)

end Mirrors

/-- What follows a check for a fault follows it inside of the check. -/
theorem Eval.fail_or_bind {α β : Type} {p : Prop} [Decidable p] (f : Fault) (x : Eval α)
    (g : α → Eval β) :
    (if p then fail f else x) >>= g = if p then fail f else x >>= g := by
  split <;> rfl

variable {R : ∀ {α : Type}, Nat → m α → Eval α → Prop} {b : Body}

/-! ## Expressions -/

namespace Expr

mutual

/-- Evaluation in a monad mirrors plain evaluation wherever the steps do. -/
theorem evaluateIn_mirrors (hR : Mirrors R) (depth : Nat) :
    ∀ e : Expr, R depth (e.evaluateIn b) (e.eval b depth)
  | node id kind => by
    have h := hR.bind (hR.nested (evaluateKindIn_mirrors hR (depth + 1) id kind)) fun v =>
      hR.bind (hR.observe id v depth) fun _ => hR.pure v
    rw [Eval.fail_or_bind] at h
    exact hR.locate _ h

theorem evaluateKindIn_mirrors (hR : Mirrors R) (depth : Nat) (id : ExprId) :
    ∀ k : ExprKind Expr, R depth (evaluateKindIn b id k) (evalKind b depth id k)
  | .lit _ | .field none .. | .err => hR.pure _
  | .var v => hR.bind (hR.context depth) fun c => hR.pure (c.get v)
  | .paren inner => evaluateIn_mirrors hR depth inner
  | .assign target op value => by
    have hv := evaluateIn_mirrors hR depth value
    cases hl : target.localTarget? with
    | none =>
      simp only [evaluateKindIn, evalKind, hl]
      exact hR.bind (evaluatePlaceIn_mirrors hR depth target) fun _ =>
        hR.bind hv fun _ => hR.pure _
    | some v =>
      cases op with
      | none =>
        simp only [evaluateKindIn, evalKind, hl]
        exact hR.bind hv fun _ => hR.steps.assignLocal trivial depth
      | some op =>
        simp only [evaluateKindIn, evalKind, hl]
        refine hR.bind (hR.context depth) fun _ => hR.bind hv fun _ => ?_
        exact hR.bind (hR.steps.ofExcept _ depth) fun _ => hR.steps.assignLocal trivial depth
  | .binary l (.logic op) r => by
    have hr := evaluateIn_mirrors hR depth r
    refine hR.bind (evaluateIn_mirrors hR depth l) fun x => ?_
    cases x with
    | unknown => exact hR.bind (hR.maybe hr) fun _ => hR.pure _
    | known a =>
      change R depth (if _ then _ else _) (if _ then _ else _)
      split
      · exact hR.pure _
      · exact hR.bind hr fun _ => hR.steps.ofExcept _ depth
  | .binary l (.arith _) r | .binary l (.shift _) r | .binary l (.bits _) r
  | .binary l (.order _) r | .binary l (.equality _) r =>
    hR.bind (evaluateIn_mirrors hR depth l) fun _ =>
      hR.bind (evaluateIn_mirrors hR depth r) fun _ => hR.steps.binary depth
  | .unary (.step st) operand => by
    rw [evaluateKindIn, evalKind]
    cases operand.localTarget? with
    | none => exact hR.bind (evaluatePlaceIn_mirrors hR depth operand) fun _ => hR.pure _
    | some v => exact hR.steps.step trivial depth
  | .unary .not e | .unary .neg e | .unary .plus e | .unary .bitNot e =>
    hR.bind (evaluateIn_mirrors hR depth e) fun _ => hR.steps.ofExcept _ depth
  | .conditional c t f => by
    have ht := evaluateIn_mirrors hR depth t
    have hf := evaluateIn_mirrors hR depth f
    rw [evaluateKindIn, evalKind]
    refine hR.bind (evaluateIn_mirrors hR depth c) fun x => ?_
    cases x with
    | unknown => exact hR.bind (hR.either ht hf) fun _ => hR.pure _
    | known l =>
      cases l with
      | bool p =>
        cases p with
        | true => exact hR.bind ht fun _ => hR.pure _
        | false => exact hR.bind hf fun _ => hR.pure _
      | _ => exact hR.steps.fail _ depth
  | .field (some e) .. | .cast _ e | .instanceOf e _ =>
    hR.bind (evaluateIn_mirrors hR depth e) fun _ => hR.pure _
  | .index a i =>
    hR.bind (evaluateIn_mirrors hR depth a) fun _ =>
      hR.bind (evaluateIn_mirrors hR depth i) fun _ => hR.pure _
  | .call none _ args | .create _ args =>
    hR.bind (evaluateListIn_mirrors hR depth args) fun _ => hR.pure _
  | .call (some e) _ args =>
    hR.bind (evaluateIn_mirrors hR depth e) fun _ =>
      hR.bind (evaluateListIn_mirrors hR depth args) fun _ => hR.pure _

theorem evaluatePlaceIn_mirrors (hR : Mirrors R) (depth : Nat) :
    ∀ e : Expr, R depth (e.evaluatePlaceIn b) (e.evalPlace b depth)
  | node _ kind => by
    cases kind with
    | paren inner =>
      rw [evaluatePlaceIn, evalPlace]
      exact evaluatePlaceIn_mirrors hR depth inner
    | field receiver name isStatic =>
      cases receiver with
      | none => exact hR.pure _
      | some e => exact hR.bind (evaluateIn_mirrors hR depth e) fun _ => hR.pure _
    | index a i =>
      have ha := evaluateIn_mirrors hR depth a
      have hi := evaluateIn_mirrors hR depth i
      exact hR.bind ha fun _ => hR.bind hi fun _ => hR.pure _
    | _ => exact hR.steps.fail _ depth

theorem evaluateListIn_mirrors (hR : Mirrors R) (depth : Nat) :
    ∀ es : List Expr, R depth (evaluateListIn b es) (evalList b depth es)
  | [] => hR.pure _
  | e :: es => hR.bind (evaluateIn_mirrors hR depth e) fun _ => evaluateListIn_mirrors hR depth es

end

theorem performIn_mirrors (hR : Mirrors R) (e : Expr) : R 0 (e.performIn b) (e.run b) :=
  hR.bind (evaluateIn_mirrors hR 0 e) fun _ => hR.pure _

theorem performOptionIn_mirrors (hR : Mirrors R) :
    ∀ e : Option Expr, R 0 (performOptionIn b e) (runOption b e)
  | none => hR.pure _
  | some e => performIn_mirrors hR e

end Expr

/-! ## Statements -/

namespace Stmt

-- `Stmt.eval` has no depth for a parameter. No statement is inside an expression, so it is what is
-- done at depth zero.
mutual

theorem evaluateIn_mirrors (hR : Mirrors R) : ∀ s : Stmt, R 0 (s.evaluateIn b) (s.eval b)
  | node id kind => hR.locate _ (evaluateKindIn_mirrors hR (node id kind) kind)

/-- One case for each form of statement; the loops differ in what they forget and join. -/
theorem evaluateKindIn_mirrors (hR : Mirrors R) (whole : Stmt) :
    ∀ k : StmtKind Expr Stmt, R 0 (evaluateKindIn b whole k) (evalKind b whole k)
  | .decl _ none => hR.bind (hR.steps.assignLocal trivial 0) fun _ => hR.pure _
  | .decl _ (some e) =>
    hR.bind (Expr.evaluateIn_mirrors hR 0 e) fun _ =>
      hR.bind (hR.steps.assignLocal trivial 0) fun _ => hR.pure _
  | .expr e | .throw e => Expr.performIn_mirrors hR e
  | .ret e => Expr.performOptionIn_mirrors hR e
  | .block body => evaluateListIn_mirrors hR body
  | .branch c t f => by
    have ht := evaluateIn_mirrors hR t
    have hf := evaluateOptionIn_mirrors hR f
    rw [evaluateKindIn, evalKind]
    refine hR.bind (Expr.evaluateIn_mirrors hR 0 c) fun x => ?_
    cases x with
    | unknown => exact hR.bind (hR.either ht hf) fun _ => hR.pure _
    | known l =>
      cases l with
      | bool p =>
        cases p with
        | true => exact ht
        | false => exact hf
      | _ => exact hR.steps.fail _ 0
  | .assert c message => by
    refine hR.maybe (hR.bind (Expr.performIn_mirrors hR c) fun _ => hR.bind (hR.context 0) ?_)
    exact fun d => hR.bind (Expr.performOptionIn_mirrors hR message) fun _ => hR.setContext d 0
  | .whileLoop c body => by
    have hc := Expr.performIn_mirrors hR (b := b) c
    have hbody := hR.iteration (evaluateIn_mirrors hR body)
    refine hR.bind (hR.forget _ 0) fun _ => hR.bind hc fun _ => ?_
    exact hR.bind hbody fun _ => hR.forget _ 0
  | .doLoop body c => by
    have hc := Expr.performIn_mirrors hR (b := b) c
    have hbody := hR.iteration (evaluateIn_mirrors hR body)
    refine hR.bind (hR.forget _ 0) fun _ => hR.bind hbody fun _ => ?_
    exact hR.bind hc fun _ => hR.forget _ 0
  | .forLoop init c update body => by
    have hinit := evaluateListIn_mirrors hR init
    have hc := Expr.performOptionIn_mirrors hR (b := b) c
    have hbody := hR.iteration (evaluateIn_mirrors hR body)
    have hupdate := Expr.evaluateListIn_mirrors hR (b := b) 0 update
    refine hR.bind hinit fun _ => hR.bind (hR.forget _ 0) fun _ => hR.bind hc fun _ => ?_
    exact hR.bind hbody fun _ => hR.bind hupdate fun _ => hR.forget _ 0
  | .forEach _ iterable body => by
    have hbody := hR.iteration (evaluateIn_mirrors hR body)
    refine hR.bind (Expr.performIn_mirrors hR iterable) fun _ => hR.bind (hR.forget _ 0) fun _ => ?_
    exact hR.bind hbody fun _ => hR.forget _ 0
  | .switch selector cases => by
    refine hR.bind (Expr.performIn_mirrors hR selector) fun _ => hR.bind (hR.forget _ 0) fun _ => ?_
    refine hR.bind (hR.context 0) fun entry => ?_
    exact hR.bind (evaluateCasesIn_mirrors hR entry cases) fun _ => hR.setContext entry 0
  | .guarded resources body catches none => by
    have hresources := evaluateListIn_mirrors hR resources
    have hbody := evaluateListIn_mirrors hR body
    refine hR.bind (hR.forget _ 0) fun _ => hR.bind (hR.context 0) fun entry => ?_
    refine hR.bind hresources fun _ => hR.bind hbody fun _ => ?_
    exact hR.bind (evaluateCatchesIn_mirrors hR entry catches) fun _ => hR.setContext entry 0
  | .guarded resources body catches (some finalizer) => by
    have hresources := evaluateListIn_mirrors hR resources
    have hbody := evaluateListIn_mirrors hR body
    have hfinalizer := evaluateListIn_mirrors hR finalizer
    refine hR.bind (hR.forget _ 0) fun _ => hR.bind (hR.context 0) fun entry => ?_
    refine hR.bind hresources fun _ => hR.bind hbody fun _ => ?_
    refine hR.bind (evaluateCatchesIn_mirrors hR entry catches) fun _ => ?_
    refine hR.bind (hR.setContext entry 0) fun _ => ?_
    exact hR.bind hfinalizer fun _ => hR.setContext entry 0
  | .continueLoop => hR.continueLoop 0
  | .breakOut | .empty | .err => hR.pure _

theorem evaluateOptionIn_mirrors (hR : Mirrors R) :
    ∀ s : Option Stmt, R 0 (evaluateOptionIn b s) (evalOption b s)
  | none => hR.pure _
  | some s => evaluateIn_mirrors hR s

theorem evaluateListIn_mirrors (hR : Mirrors R) :
    ∀ ss : List Stmt, R 0 (evaluateListIn b ss) (evalList b ss)
  | [] => hR.pure _
  | s :: ss => hR.bind (evaluateIn_mirrors hR s) fun _ => evaluateListIn_mirrors hR ss

/-- Each case of a `switch` starts from the entry context joined with the one before it. -/
theorem evaluateCasesIn_mirrors (hR : Mirrors R) (entry : Context) :
    ∀ cs : List (SwitchCase Expr Stmt),
      R 0 (evaluateCasesIn b entry cs) (evalCases b entry cs)
  | [] => hR.pure _
  | ⟨_, labels, body⟩ :: cs => by
    refine hR.bind (Expr.evaluateListIn_mirrors hR 0 labels) fun _ => ?_
    refine hR.bind (hR.setContext entry 0) fun _ => ?_
    exact hR.bind (evaluateListIn_mirrors hR body) fun _ => evaluateCasesIn_mirrors hR entry cs

theorem evaluateCatchesIn_mirrors (hR : Mirrors R) (entry : Context) :
    ∀ cs : List (CatchClause Stmt),
      R 0 (evaluateCatchesIn b entry cs) (evalCatches b entry cs)
  | [] => hR.pure _
  | ⟨_, _, body⟩ :: cs => by
    refine hR.bind (hR.setContext entry 0) fun _ => ?_
    exact hR.bind (evaluateListIn_mirrors hR body) fun _ => evaluateCatchesIn_mirrors hR entry cs

end

end Stmt

end Midend
