import Midend.Proofs.Eval.Frame
import Midend.Proofs.Eval.Mirrors

/-!
# What an evaluator puts back

A fault leaves every layer of an evaluation at once. On its way out it passes each
place where the counter is counted down and each where the stack is popped, so both
are as they were before the call (`Evaluator.Restored`). An evaluation depends on
nothing but the point it starts from (`Evaluation.Same`), and started from the depth
that `Expr.eval` has for a parameter it is that evaluation. `Evaluation.Balanced` says
these three, for every expression (`Expr.evaluate_balanced`) and every statement
(`Stmt.evaluate_balanced`).
-/

namespace Midend

/-! ## What calls leave -/

namespace Evaluator

/-- The counter and the height of the stack are what they were. -/
structure Restored (s t : Evaluator) : Prop where
  depth : t.depth = s.depth
  height : t.state.continues.length = s.state.continues.length

/-- The two evaluators are at the same point: they know the same of the locals, in as many
expressions and in the same loops. What they recorded and reported plays no part. -/
structure Matches (s t : Evaluator) : Prop where
  depth : s.depth = t.depth
  context : s.state.context = t.state.context
  continues : s.state.continues = t.state.continues

variable {s t u : Evaluator}

theorem Restored.trans (h : s.Restored t) (h' : t.Restored u) : s.Restored u :=
  ⟨h'.depth.trans h.depth, h'.height.trans h.height⟩

/-- An evaluation inside an expression is left with the counter as it was before it. -/
theorem Restored.leave (h : s.enter.Restored t) : s.Restored t.leave :=
  ⟨congrArg (· - 1) h.depth, h.height⟩

theorem Restored.pop (h : s.push.Restored t) : s.Restored t.pop := by
  refine ⟨h.depth, ?_⟩
  change t.state.continues.tail.length = s.state.continues.length
  rw [List.length_tail, h.height]
  rfl

namespace Matches

theorem enter (h : s.Matches t) : s.enter.Matches t.enter :=
  ⟨congrArg (· + 1) h.depth, h.context, h.continues⟩

theorem leave (h : s.Matches t) : s.leave.Matches t.leave :=
  ⟨congrArg (· - 1) h.depth, h.context, h.continues⟩

theorem push (h : s.Matches t) : s.push.Matches t.push :=
  ⟨h.depth, h.context, congrArg (none :: ·) h.continues⟩

theorem pop (h : s.Matches t) : s.pop.Matches t.pop :=
  ⟨h.depth, h.context, congrArg List.tail h.continues⟩

/-- A `continue` takes both to matching evaluators. -/
theorem arrive (h : s.Matches t) : s.arrive.Matches t.arrive := by
  refine ⟨h.depth, ?_, h.continues⟩
  change Eval.endOf s.state.context s.state.continues = Eval.endOf t.state.context t.state.continues
  rw [h.context, h.continues]

end Matches

end Evaluator

namespace Evaluation

variable {α β : Type}

/-- From `s` and from `t` an evaluation comes to the same: it has the same result, leaves both at
the same point, and reports the same. -/
structure Same (s t : Evaluator) (p q : Except EvalError α × Evaluator) : Prop where
  result : p.1 = q.1
  leaves : p.2.Matches q.2
  reports : ∃ ds, p.2.state.reports = s.state.reports ++ ds ∧
    q.2.state.reports = t.state.reports ++ ds

/-- Nothing is reported. -/
theorem Same.of_quiet {s t : Evaluator} {p q : Except EvalError α × Evaluator}
    (hresult : p.1 = q.1) (hleaves : p.2.Matches q.2)
    (hp : p.2.state.reports = s.state.reports) (hq : q.2.state.reports = t.state.reports) :
    Same s t p q :=
  ⟨hresult, hleaves, [], by rw [List.append_nil, hp], by rw [List.append_nil, hq]⟩

/-- The evaluation puts back what it must and depends on nothing but the point it starts from, both
at any depth, and it is `y` where `depth` expressions are being evaluated. -/
structure Balanced (depth : Nat) (x : Evaluation α) (y : Eval α) : Prop where
  restores : ∀ s : Evaluator, s.Restored (x s).2
  same : ∀ {s t : Evaluator}, s.Matches t → Same s t (x s) (x t)
  mirrors : ∀ s, x ⟨s, depth⟩ = ((y s).1, ⟨(y s).2, depth⟩)

namespace Balanced

variable {depth : Nat} {x : Evaluation α} {y : Eval α}

theorem pure (a : α) : Balanced depth (Pure.pure a) (Pure.pure a) where
  restores _ := ⟨rfl, rfl⟩
  same h := .of_quiet rfl h rfl rfl
  mirrors _ := rfl

theorem bind {f : α → Evaluation β} {g : α → Eval β} (hx : Balanced depth x y)
    (hf : ∀ a, Balanced depth (f a) (g a)) : Balanced depth (x >>= f) (y >>= g) where
  restores s := by
    have hs₁ := hx.restores s
    rcases h : x s with ⟨e | a, s₁⟩ <;> rw [h] at hs₁
    · rw [Eval.bind_of_error h]
      exact hs₁
    · rw [Eval.bind_of_ok h]
      exact hs₁.trans ((hf a).restores s₁)
  same {s t} h := by
    obtain ⟨hresult, hleaves, ds, hds, hdt⟩ := hx.same h
    rcases hs : x s with ⟨r, s₁⟩
    rcases ht : x t with ⟨r', t₁⟩
    rw [hs, ht] at hresult hleaves
    rw [hs] at hds
    rw [ht] at hdt
    obtain rfl : r = r' := hresult
    cases r with
    | error e =>
      rw [Eval.bind_of_error hs, Eval.bind_of_error ht]
      exact ⟨rfl, hleaves, ds, hds, hdt⟩
    | ok a =>
      obtain ⟨hresult, hleaves, es, hes, het⟩ := (hf a).same hleaves
      rw [Eval.bind_of_ok hs, Eval.bind_of_ok ht]
      refine ⟨hresult, hleaves, ds ++ es, ?_, ?_⟩
      · rw [hes, hds, List.append_assoc]
      · rw [het, hdt, List.append_assoc]
  mirrors s := by
    have hs := hx.mirrors s
    rcases hy : y s with ⟨e | a, t⟩ <;> rw [hy] at hs
    · rw [Eval.bind_of_error hs, Eval.bind_of_error hy]
    · rw [Eval.bind_of_ok hs, Eval.bind_of_ok hy]
      exact (hf a).mirrors t

theorem locate {span : Span} (hx : Balanced depth x y) :
    Balanced depth (Evaluation.locate span x) (Eval.locate span y) where
  restores s := by
    have hs := hx.restores s
    unfold Evaluation.locate
    generalize x s = p at hs ⊢
    obtain ⟨e | a, t⟩ := p <;> exact hs
  same {s t} h := by
    obtain ⟨hresult, hleaves, hreports⟩ := hx.same h
    unfold Evaluation.locate
    generalize x s = p, x t = q at hresult hleaves hreports ⊢
    obtain ⟨r, s₁⟩ := p
    obtain ⟨r', t₁⟩ := q
    obtain rfl : r = r' := hresult
    cases r <;> exact ⟨rfl, hleaves, hreports⟩
  mirrors s := by
    unfold Evaluation.locate Eval.locate
    rw [hx.mirrors]
    rcases y s with ⟨e | a, t⟩ <;> rfl

/-- The counter is put back at the limit, too. -/
theorem nested (hx : Balanced (depth + 1) x y) :
    Balanced depth (Evaluation.nested x)
      (if depth ≥ evalDepth then Eval.fail .recursionLimit else y) where
  restores s := by
    unfold Evaluation.nested
    split
    · exact ⟨rfl, rfl⟩
    · exact (hx.restores s.enter).leave
  same {s t} h := by
    obtain ⟨hresult, hleaves, hreports⟩ := hx.same h.enter
    unfold Evaluation.nested
    rw [h.enter.depth]
    split
    · exact .of_quiet rfl h rfl rfl
    · exact ⟨hresult, hleaves.leave, hreports⟩
  mirrors s := by
    have hs : x (Evaluator.enter ⟨s, depth⟩) = _ := hx.mirrors s
    have hlimit : (Evaluator.enter ⟨s, depth⟩).depth > evalDepth ↔ depth ≥ evalDepth :=
      Nat.lt_succ_iff
    unfold Evaluation.nested
    simp only [hlimit, hs]
    split <;> rfl

/-- The stack is popped after a fault, too. -/
theorem iteration {x : Evaluation Unit} {y : Eval Unit} (hx : Balanced depth x y) :
    Balanced depth (Evaluation.iteration x) (Eval.iteration y) where
  restores s := by
    have hs := hx.restores s.push
    unfold Evaluation.iteration
    generalize x s.push = p at hs ⊢
    obtain ⟨e | ⟨⟩, t⟩ := p
    · exact hs.pop
    · exact ⟨hs.pop.depth, hs.pop.height⟩
  same {s t} h := by
    obtain ⟨hresult, hleaves, hreports⟩ := hx.same h.push
    unfold Evaluation.iteration
    generalize x s.push = p, x t.push = q at hresult hleaves hreports ⊢
    obtain ⟨r, s₁⟩ := p
    obtain ⟨r', t₁⟩ := q
    obtain rfl : r = r' := hresult
    cases r with
    | error e => exact ⟨rfl, hleaves.pop, hreports⟩
    | ok a => exact ⟨rfl, hleaves.arrive.pop, hreports⟩
  mirrors s := by
    have hs : x (Evaluator.push ⟨s, depth⟩) = _ :=
      hx.mirrors { s with continues := none :: s.continues }
    unfold Evaluation.iteration Eval.iteration
    rw [hs]
    rcases y { s with continues := none :: s.continues } with ⟨e | ⟨⟩, t⟩
    · rfl
    · rfl

end Balanced

end Evaluation

/-! ## Steps -/

namespace Eval

open Evaluation

variable {α β : Type}

/-- A step that is the same for an evaluator, whatever its counter. -/
def Steps (x : Eval α) : Prop := ∀ depth, Balanced depth (liftM x) x

/-- A lifted step acts on the state and keeps the counter. -/
theorem liftM_apply (x : Eval α) (s : Evaluator) :
    (liftM x : Evaluation α) s = ((x s.state).1, { s with state := (x s.state).2 }) := rfl

namespace Steps

variable {x y : Eval α}

theorem pure (a : α) : Steps (Pure.pure a : Eval α) := fun _ => Balanced.pure a

theorem fail (f : Fault) : Steps (Eval.fail f : Eval α) := fun _ =>
  ⟨fun _ => ⟨rfl, rfl⟩, fun h => .of_quiet rfl h rfl rfl, fun _ => rfl⟩

theorem bind {f : α → Eval β} (hx : Steps x) (hf : ∀ a, Steps (f a)) : Steps (x >>= f) := by
  intro depth
  have hlift : (liftM (x >>= f) : Evaluation β) = liftM x >>= fun a => liftM (f a) := by
    funext s
    have hs := liftM_apply x s
    rcases h : x s.state with ⟨e | a, t⟩ <;> rw [h] at hs
    · rw [bind_of_error hs, liftM_apply, bind_of_error h]
    · rw [bind_of_ok hs, liftM_apply, bind_of_ok h]
      rfl
  rw [hlift]
  exact (hx depth).bind fun a => hf a depth

/-- A step that looks at the context and the stack, keeps the height of the stack, and reports
nothing. -/
theorem ofModify {f : EvalState → EvalState}
    (hheight : ∀ s, (f s).continues.length = s.continues.length)
    (hcontext : ∀ s t, s.context = t.context → (f s).context = (f t).context)
    (hcontinues : ∀ s t, s.context = t.context → s.continues = t.continues →
      (f s).continues = (f t).continues)
    (hreports : ∀ s, (f s).reports = s.reports) : Steps (modify f : Eval Unit) := fun _ => {
  restores := fun s => ⟨rfl, hheight s.state⟩
  same := fun {s t} h => .of_quiet rfl ⟨h.depth, hcontext _ _ h.context,
    hcontinues _ _ h.context h.continues⟩ (hreports s.state) (hreports t.state)
  mirrors := fun _ => rfl }

/-- A step that changes the context. -/
theorem ofContext (f : Context → Context) :
    Steps (modify fun s => { s with context := f s.context } : Eval Unit) :=
  .ofModify (fun _ => rfl) (fun _ _ h => congrArg f h) (fun _ _ _ h => h) fun _ => rfl

theorem context : Steps Eval.context := fun _ =>
  ⟨fun _ => ⟨rfl, rfl⟩, fun h => .of_quiet (congrArg Except.ok h.context) h rfl rfl, fun _ => rfl⟩

theorem observe (e : ExprId) (v : Value) : Steps (Eval.observe e v) := by
  refine .ofModify (fun s => ?_) (fun s t h => ?_) (fun s t _ h => ?_) fun s => ?_
  · rw [EvalState.continues_observe]
  · rw [EvalState.context_observe, EvalState.context_observe, h]
  · rw [EvalState.continues_observe, EvalState.continues_observe, h]
  · unfold EvalState.observe
    split <;> rfl

theorem warn (d : Diagnostic) : Steps (Eval.warn d) := fun _ =>
  ⟨fun _ => ⟨rfl, rfl⟩, fun h => ⟨rfl, ⟨h.depth, h.context, h.continues⟩, [d], rfl, rfl⟩,
    fun _ => rfl⟩

theorem continueLoop : Steps (modify EvalState.continueLoop : Eval Unit) := by
  refine .ofModify (fun s => ?_) (fun s t h => ?_) (fun s t hc h => ?_) fun s => ?_
  · unfold EvalState.continueLoop
    split <;> simp_all
  · rw [EvalState.context_continueLoop, EvalState.context_continueLoop, h]
  · unfold EvalState.continueLoop
    rw [← h, ← hc]
    split
    · exact h
    · rfl
    · rfl
  · unfold EvalState.continueLoop
    split <;> rfl

/-- Every operation of the plain evaluator is balanced once lifted. -/
theorem closed : Closed (fun _ => True) (fun _ => True) Steps where
  pure := .pure
  fail := .fail
  bind := .bind
  context_bind hf := Steps.context.bind fun c => hf c trivial
  change {f} _ := .ofContext f
  warn {d} _ := .warn d

end Steps

end Eval

/-! ## Trees -/

namespace Evaluation

/-- So evaluation with the counter mirrors plain evaluation. -/
theorem mirrors : Mirrors Balanced where
  pure := .pure
  bind := .bind
  steps := Eval.Steps.closed
  observe := Eval.Steps.observe
  continueLoop := Eval.Steps.continueLoop
  nested := .nested
  locate _ := .locate
  iteration := .iteration

end Evaluation

/-- Whatever an expression comes to, it puts back the counter and the height of the stack. -/
theorem Expr.evaluate_balanced {b : Body} (depth : Nat) (e : Expr) :
    Evaluation.Balanced depth (e.evaluate b) (e.eval b depth) :=
  evaluateIn_mirrors Evaluation.mirrors depth e

/-- Whatever a statement comes to, it puts back the counter and the height of the stack. -/
theorem Stmt.evaluate_balanced {b : Body} (s : Stmt) :
    Evaluation.Balanced 0 (s.evaluate b) (s.eval b) :=
  evaluateIn_mirrors Evaluation.mirrors s

/-- Evaluating statements restores depth and stack and comes to what the plain evaluation does. -/
theorem Stmt.evaluateList_balanced {b : Body} (ss : List Stmt) :
    Evaluation.Balanced 0 (evaluateList b ss) (evalList b ss) :=
  evaluateListIn_mirrors Evaluation.mirrors ss

end Midend
