import Midend.Proofs.Eval.Discipline
import Midend.Proofs.Eval.Restored
import Midend.Proofs.Value.Faults

/-!
# An evaluator after a fault

Whoever owns an evaluator makes calls, some of which fail, and between them replaces
the context, records values and reports (`Evaluator.Reached`). In all its states the
counter is zero and no loop is open, so a call comes to what the context lets it
come to and nothing else that happened before (`Evaluator.reusable`). An expression
whose height is within the limit of the counter never meets it.
-/

namespace Midend

open Eval Evaluation

/-! ## Heights -/

namespace Expr

mutual

/-- The number of nodes on the longest path from the expression down to a leaf. -/
def height : Expr → Nat
  | node _ kind => heightOfKind kind + 1

/-- The height of the highest operand, or zero. -/
def heightOfKind : ExprKind Expr → Nat
  | .lit _ | .var _ | .err | .field none .. => 0
  | .field (some r) .. => r.height
  | .assign l _ r | .binary l _ r | .index l r => max l.height r.height
  | .unary _ e | .paren e | .cast _ e | .instanceOf e _ => e.height
  | .conditional c t f => max c.height (max t.height f.height)
  | .call none _ args => heightOfList args
  | .call (some r) _ args => max r.height (heightOfList args)
  | .create _ args => heightOfList args

/-- The height of the highest expression of a list, or zero. -/
def heightOfList : List Expr → Nat
  | [] => 0
  | e :: es => max e.height (heightOfList es)

end

/-- A bound on the height of a list bounds each of its trees. -/
theorem heightOfList_le {n : Nat} {es : List Expr} :
    heightOfList es ≤ n ↔ ∀ e ∈ es, e.height ≤ n := by
  induction es with
  | nil => simp [heightOfList]
  | cons e es ih => rw [heightOfList, Nat.max_le, ih, List.forall_mem_cons]

/-- A bound on the height of a layer bounds each of its children. -/
theorem heightOfKind_le {n : Nat} {k : ExprKind Expr} :
    heightOfKind k ≤ n ↔ ∀ c ∈ k.children, c.height ≤ n := by
  cases k with
  | field receiver name isStatic =>
    cases receiver <;> simp [heightOfKind, ExprKind.children]
  | call receiver callee args =>
    cases receiver with
    | none => exact heightOfList_le
    | some r =>
      rw [heightOfKind, Nat.max_le, heightOfList_le, ExprKind.children, Option.toList,
        List.singleton_append, List.forall_mem_cons]
  | create ty args => exact heightOfList_le
  | conditional c t f =>
    rw [heightOfKind, Nat.max_le, Nat.max_le]
    simp [ExprKind.children]
  | assign | binary | index =>
    rw [heightOfKind, Nat.max_le]
    simp [ExprKind.children]
  | _ => simp [heightOfKind, ExprKind.children]

end Expr

/-! ## The limit -/

namespace Value

/-- No unary operator reports the depth bound. -/
theorem unary_ne_recursionLimit (op : UnOp) (x : Value) : unary op x ≠ .error .recursionLimit := by
  intro h
  obtain hf | hf := unary_eq_error h <;> cases hf

/-- No binary operator reports the depth bound. -/
theorem binary_ne_recursionLimit (op : BinOp) (x y : Value) :
    binary op x y ≠ .error .recursionLimit := by
  intro h
  obtain ⟨a, c, -, -, hr⟩ := binary_eq_error h
  obtain hf | hf := Literal.binary_eq_error hr <;> cases hf

end Value

/-- The evaluation does not meet the limit on nested expressions. -/
abbrev Eval.Shallow {α : Type} (x : Eval α) : Prop :=
  Upholds (fun _ => True) (· ≠ .recursionLimit) (fun _ => True) x

namespace Eval.Shallow

theorem joinable : EvalState.Joinable fun _ => True :=
  ⟨fun _ _ => trivial, fun _ _ => trivial, fun _ _ => trivial⟩

/-- An operator's fault is not the depth bound. -/
theorem operator {r : Except Fault Value} (h : r ≠ .error .recursionLimit) :
    Outcome (· ≠ Fault.recursionLimit) (fun _ => True) r :=
  .intro (fun _ _ => trivial) fun _ he hf => h (hf ▸ he)

theorem assignLocal {b : Body} {v : VarId} {x : Value} : Shallow (Eval.assignLocal b v x) :=
  Upholds.assignLocal (fun _ _ => trivial) trivial

theorem step {b : Body} {st : Step} {v : VarId} : Shallow (Eval.step b st v) :=
  Upholds.step (Q := fun _ => True) (fun _ _ => trivial) (fun _ _ _ => nofun)
    (fun _ _ => operator (Value.binary_ne_recursionLimit _ _ _)) fun _ _ => assignLocal

end Eval.Shallow

namespace Expr

variable {b : Body}

mutual

/-- The limit is not met below as many expressions as there is room for. -/
theorem eval_shallow {depth : Nat} :
    ∀ {e : Expr}, depth + e.height ≤ evalDepth → Shallow (e.eval b depth)
  | node id kind, h => by
    rw [height] at h
    have hk : heightOfKind kind ≤ evalDepth - (depth + 1) := by omega
    rw [eval]
    refine .locate (.ite (fun hlimit => by omega) fun _ => ?_)
    have hkind : Shallow (evalKind b (depth + 1) id kind) := evalKind_shallow fun c hc => by
      have := heightOfKind_le.1 hk c hc
      omega
    exact hkind.bind fun _ _ => (Upholds.ofModify fun _ _ => trivial).bind fun _ _ => .pure trivial

/-- A layer whose children fit below the bound never reaches it. -/
theorem evalKind_shallow {depth : Nat} {id : ExprId} :
    ∀ {k : ExprKind Expr}, (∀ c ∈ k.children, depth + c.height ≤ evalDepth) →
      Shallow (evalKind b depth id k)
  | .lit _, _ | .field none .., _ | .err, _ => .pure trivial
  | .var _, _ => .context_bind fun _ _ => .pure trivial
  | .paren inner, h => eval_shallow (h inner (by simp [ExprKind.children]))
  | .assign target op value, h => by
    have ht : Shallow (target.evalPlace b depth) :=
      evalPlace_shallow (h target (by simp [ExprKind.children]))
    have hv : Shallow (value.eval b depth) := eval_shallow (h value (by simp [ExprKind.children]))
    cases hl : target.localTarget? with
    | none =>
      simp only [evalKind, hl]
      exact ht.bind fun _ _ => hv.bind fun _ _ => .pure trivial
    | some v =>
      cases op with
      | none =>
        simp only [evalKind, hl]
        exact hv.bind fun _ _ => Shallow.assignLocal
      | some op =>
        simp only [evalKind, hl]
        refine .context_bind fun s _ => hv.bind fun x _ => ?_
        have hr := Shallow.operator (Value.binary_ne_recursionLimit op (s.context.get v) x)
        exact (Upholds.ofExcept hr).bind fun _ _ => Shallow.assignLocal
  | .binary l (.logic op) r, h => by
    have hl : Shallow (l.eval b depth) := eval_shallow (h l (by simp [ExprKind.children]))
    have hr : Shallow (r.eval b depth) := eval_shallow (h r (by simp [ExprKind.children]))
    refine hl.bind fun x _ => ?_
    cases x with
    | unknown => exact (hr.maybe Shallow.joinable).bind fun _ _ => .pure trivial
    | known a =>
      refine .ite (fun _ => .pure trivial) fun _ => hr.bind fun y _ => .ofExcept ?_
      exact Shallow.operator (Value.binary_ne_recursionLimit _ _ _)
  | .binary l (.arith _) r, h | .binary l (.shift _) r, h | .binary l (.bits _) r, h
  | .binary l (.order _) r, h | .binary l (.equality _) r, h => by
    have hl : Shallow (l.eval b depth) := eval_shallow (h l (by simp [ExprKind.children]))
    have hr : Shallow (r.eval b depth) := eval_shallow (h r (by simp [ExprKind.children]))
    refine hl.bind fun _ _ => hr.bind fun _ _ => .binary Shallow.joinable ?_
    exact Shallow.operator (Value.binary_ne_recursionLimit _ _ _)
  | .unary (.step st) operand, h => by
    cases hl : operand.localTarget? with
    | none =>
      have hp : Shallow (operand.evalPlace b depth) :=
        evalPlace_shallow (h operand (by simp [ExprKind.children]))
      simp only [evalKind, hl]
      exact hp.bind fun _ _ => .pure trivial
    | some v =>
      simp only [evalKind, hl]
      exact Shallow.step
  | .unary .not e, h | .unary .neg e, h | .unary .plus e, h | .unary .bitNot e, h => by
    have he : Shallow (e.eval b depth) := eval_shallow (h e (by simp [ExprKind.children]))
    refine he.bind fun _ _ => .ofExcept ?_
    exact Shallow.operator (Value.unary_ne_recursionLimit _ _)
  | .conditional c t f, h => by
    have hc : Shallow (c.eval b depth) := eval_shallow (h c (by simp [ExprKind.children]))
    have ht : Shallow (t.eval b depth) := eval_shallow (h t (by simp [ExprKind.children]))
    have hf : Shallow (f.eval b depth) := eval_shallow (h f (by simp [ExprKind.children]))
    rw [evalKind]
    refine hc.bind fun x _ => ?_
    split
    · exact ht.bind fun _ _ => .pure trivial
    · exact hf.bind fun _ _ => .pure trivial
    · exact (ht.either Shallow.joinable hf).bind fun _ _ => .pure trivial
    · exact .fail nofun
  | .field (some e) .., h | .cast _ e, h | .instanceOf e _, h => by
    have he : Shallow (e.eval b depth) := eval_shallow (h e (by simp [ExprKind.children]))
    exact he.bind fun _ _ => .pure trivial
  | .index a i, h => by
    have ha : Shallow (a.eval b depth) := eval_shallow (h a (by simp [ExprKind.children]))
    have hi : Shallow (i.eval b depth) := eval_shallow (h i (by simp [ExprKind.children]))
    exact ha.bind fun _ _ => hi.bind fun _ _ => .pure trivial
  | .call none _ args, h | .create _ args, h => by
    have hargs : Shallow (evalList b depth args) := evalList_shallow h
    exact hargs.bind fun _ _ => .pure trivial
  | .call (some e) _ args, h => by
    have he : Shallow (e.eval b depth) := eval_shallow (h e List.mem_cons_self)
    have hargs : Shallow (evalList b depth args) :=
      evalList_shallow fun x hx => h x (List.mem_cons_of_mem _ hx)
    exact he.bind fun _ _ => hargs.bind fun _ _ => .pure trivial

/-- An assignment target that fits below the bound never reaches it. -/
theorem evalPlace_shallow {depth : Nat} :
    ∀ {e : Expr}, depth + e.height ≤ evalDepth → Shallow (e.evalPlace b depth)
  | node _ kind, h => by
    rw [height] at h
    have hk : ∀ c ∈ kind.children, depth + c.height ≤ evalDepth := fun c hc => by
      have := heightOfKind_le.1 (Nat.le_refl _) c hc
      omega
    cases kind with
    | paren inner =>
      rw [evalPlace]
      exact evalPlace_shallow (hk inner (by simp [ExprKind.children]))
    | field receiver name isStatic =>
      cases receiver with
      | none => exact .pure trivial
      | some e =>
        have he : Shallow (e.eval b depth) := eval_shallow (hk e (by simp [ExprKind.children]))
        exact he.bind fun _ _ => .pure trivial
    | index a i =>
      have ha : Shallow (a.eval b depth) := eval_shallow (hk a (by simp [ExprKind.children]))
      have hi : Shallow (i.eval b depth) := eval_shallow (hk i (by simp [ExprKind.children]))
      exact ha.bind fun _ _ => hi.bind fun _ _ => .pure trivial
    | _ => exact .fail nofun

theorem evalList_shallow {depth : Nat} :
    ∀ {es : List Expr}, (∀ e ∈ es, depth + e.height ≤ evalDepth) →
      Shallow (evalList b depth es)
  | [], _ => .pure trivial
  | e :: _, h => by
    have he : Shallow (e.eval b depth) := eval_shallow (h e List.mem_cons_self)
    exact he.bind fun _ _ => evalList_shallow fun x hx => h x (List.mem_cons_of_mem _ hx)

end

end Expr

/-! ## Calls -/

namespace Evaluator

/-- What an evaluator is asked to evaluate. -/
inductive Request where
  | expr (e : Expr)
  | stmt (s : Stmt)
  | block (ss : List Stmt)

namespace Request

/-- What a request gives if nothing fails. -/
def Result : Request → Type
  | expr _ => Value
  | stmt _ | block _ => Unit

/-- The call of an evaluator. -/
def call (b : Body) : (r : Request) → Evaluation r.Result
  | expr e => e.evaluate b
  | stmt s => s.evaluate b
  | block ss => Stmt.evaluateList b ss

/-- The evaluation that is asked for. -/
def eval (b : Body) : (r : Request) → Eval r.Result
  | expr e => e.eval b 0
  | stmt s => s.eval b
  | block ss => Stmt.evalList b ss

/-- Every request restores depth and stack. -/
theorem call_balanced (b : Body) : ∀ r : Request, Balanced 0 (r.call b) (r.eval b)
  | expr e => Expr.evaluate_balanced 0 e
  | stmt s => Stmt.evaluate_balanced s
  | block ss => Stmt.evaluateList_balanced ss

/-- From the counter at zero the call is the evaluation that is asked for. -/
theorem call_eq (b : Body) (r : Request) (s : EvalState) :
    r.call b ⟨s, 0⟩ = ((r.eval b s).1, ⟨(r.eval b s).2, 0⟩) :=
  (r.call_balanced b).mirrors s

end Request

/-- The evaluators that a new one may become: by calls, successful or not, and by its owner, who
may replace the context, start or stop to record values, and report between them. -/
inductive Reached : Evaluator → Prop where
  | new : Reached {}
  | call {s : Evaluator} (b : Body) (r : Request) : Reached s → Reached (r.call b s).2
  | between {s : Evaluator} (context : Context) (observed : Option (IdMap Value))
      (reports : List Diagnostic) : Reached s →
      Reached { s with state := { s.state with context, observed, reports } }

/-- Between calls no expression is being evaluated and no loop is open. -/
theorem Reached.idle {s : Evaluator} (h : s.Reached) :
    s.depth = 0 ∧ s.state.continues = [] := by
  induction h with
  | new => exact ⟨rfl, rfl⟩
  | @call s b r _ ih =>
    obtain ⟨hdepth, hheight⟩ := (r.call_balanced b).restores s
    rw [ih.1] at hdepth
    rw [ih.2] at hheight
    exact ⟨hdepth, List.length_eq_zero_iff.1 hheight⟩
  | between _ _ _ _ ih => exact ih

/-- Two reached evaluators with the same context are at the same point. -/
theorem Reached.matches {s t : Evaluator} (hs : s.Reached) (ht : t.Reached)
    (h : s.state.context = t.state.context) : s.Matches t :=
  ⟨hs.idle.1.trans ht.idle.1.symm, h, hs.idle.2.trans ht.idle.2.symm⟩

/-- A failed evaluation leaves the evaluator as good as new. Whatever it is in the middle of, a call
puts back the counter and the height of the stack, whether it succeeds or fails. So a call between
others has the result, ends in the context and gives the reports that the context before it
determines, and is the evaluation that has the depth for a parameter. If the expression asked for is
of height 64 or less, it does not meet the limit. -/
theorem reusable (b : Body) :
    (∀ (s : Evaluator) (r : Request), s.Restored (r.call b s).2) ∧
    (∀ s t : Evaluator, s.Reached → t.Reached → s.state.context = t.state.context →
      ∀ r : Request, Same s t (r.call b s) (r.call b t)) ∧
    (∀ (s : EvalState) (r : Request),
      r.call b ⟨s, 0⟩ = ((r.eval b s).1, ⟨(r.eval b s).2, 0⟩)) ∧
    ∀ (s : Evaluator) (e : Expr), s.depth = 0 → e.height ≤ 64 →
      ∀ err, (e.evaluate b s).1 = .error err → err.fault ≠ .recursionLimit := by
  refine ⟨fun s r => (r.call_balanced b).restores s, ?_, fun s r => r.call_eq b s, ?_⟩
  · intro s t hs ht h r
    exact (r.call_balanced b).same (hs.matches ht h)
  · rintro ⟨s, -⟩ e rfl hheight err herr
    have hroom : 0 + e.height ≤ evalDepth := by
      rw [Nat.zero_add]
      exact hheight
    have hshallow : Outcome _ _ (e.eval b 0 s).1 := (Expr.eval_shallow hroom s trivial).2
    have hsame : (e.evaluate b ⟨s, 0⟩).1 = (e.eval b 0 s).1 :=
      congrArg Prod.fst (Request.call_eq b (.expr e) s)
    rw [← hsame, herr] at hshallow
    exact hshallow

/-- A loop whose body divides by zero. -/
def stumbling : Body where
  name := "stumbling"
  vars := #[⟨"c", .prim .boolean, .param, .dummy⟩]
  exprs := #[⟨.dummy, .var 0⟩, ⟨.dummy, .lit (.int 1)⟩, ⟨.dummy, .lit (.int 0)⟩,
    ⟨.dummy, .binary 1 (.arith .div) 2⟩]
  stmts := #[⟨.dummy, .expr 3⟩, ⟨.dummy, .whileLoop 0 0⟩]
  params := [0]
  block := [1]

/-- What becomes of a new evaluator that evaluates the loop. -/
def stumbled : Evaluator := (Request.call stumbling (.stmt (stumbling.stmtTree 1)) {}).2

/-- An expression and a loop were open when the evaluator failed, and it has left both. -/
theorem reusable_stumbling :
    (Request.call stumbling (.stmt (stumbling.stmtTree 1)) {}).1 =
      .error ⟨.divisionByZero, .dummy⟩ ∧
    Restored {} stumbled ∧
    Same stumbled {} (Request.call stumbling (.expr (stumbling.exprTree 3)) stumbled)
      (Request.call stumbling (.expr (stumbling.exprTree 3)) {}) ∧
    (stumbling.exprTree 3).height ≤ 64 ∧
    ∀ err, ((stumbling.exprTree 3).evaluate stumbling stumbled).1 = .error err →
      err.fault ≠ .recursionLimit := by
  obtain ⟨hrestored, hsame, -, hlimit⟩ := reusable stumbling
  have hreached : stumbled.Reached := .call _ _ .new
  have hheight : (stumbling.exprTree 3).height ≤ 64 := by decide
  refine ⟨rfl, hrestored {} _, hsame _ _ hreached .new rfl _, hheight, ?_⟩
  exact hlimit _ _ hreached.idle.1 hheight

end Evaluator

end Midend
