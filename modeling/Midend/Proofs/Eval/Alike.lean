import Midend.Proofs.Eval.Frame

/-!
# What evaluation depends on

What an evaluation finds depends on the context alone, not on what was recorded or
reported before it or on the loops around it: from states with the same context it
gives the same result and ends in states with the same context
(`Stmt.evalList_alike`).

While the body of a loop is evaluated the contexts that are saved for this loop
count too, so two states are compared with those of the loops that both
evaluations have entered (`EvalState.Alike`).
-/

namespace Midend

/-- The two lists start with the same `n` saved contexts. -/
def SameTop : Nat → List (Option Context) → List (Option Context) → Prop
  | 0, _, _ => True
  | n + 1, cs, ds => ∃ k cs' ds', cs = k :: cs' ∧ ds = k :: ds' ∧ SameTop n cs' ds'

/-- The states have the same context and, for the `n` innermost loops, the same contexts saved. -/
structure EvalState.Alike (n : Nat) (s t : EvalState) : Prop where
  context : s.context = t.context
  continues : SameTop n s.continues t.continues

namespace EvalState.Alike

variable {n : Nat} {s t : EvalState}

/-- States in the same context are alike outside of all loops. -/
theorem of_context (h : s.context = t.context) : s.Alike 0 t := ⟨h, trivial⟩

theorem observe (h : s.Alike n t) (e : ExprId) (x : Value) :
    (s.observe e x).Alike n (t.observe e x) :=
  ⟨by simp [h.context], by simp [h.continues]⟩

theorem continueLoop (h : s.Alike n t) : s.continueLoop.Alike n t.continueLoop := by
  refine ⟨by simp [h.context], ?_⟩
  cases n with
  | zero => trivial
  | succ n =>
    obtain ⟨k, cs, ds, hs, ht, hrest⟩ := h.continues
    unfold EvalState.continueLoop
    rw [hs, ht]
    cases k with
    | none => exact ⟨_, cs, ds, rfl, by rw [h.context], hrest⟩
    | some c => exact ⟨_, cs, ds, rfl, by rw [h.context], hrest⟩

end EvalState.Alike

/-! ## Steps -/

namespace Eval

variable {α β : Type}

/-- From states that are alike the evaluation gives the same result and ends in states that are. -/
def Alike (x : Eval α) : Prop :=
  ∀ ⦃n s t⦄, s.Alike n t → (x s).1 = (x t).1 ∧ (x s).2.Alike n (x t).2

namespace Alike

theorem pure (a : α) : Alike (Pure.pure a : Eval α) := fun _ _ _ h => ⟨rfl, h⟩

theorem fail (f : Fault) : Alike (Eval.fail f : Eval α) := fun _ _ _ h => ⟨rfl, h⟩

theorem bind {x : Eval α} {f : α → Eval β} (hx : Alike x) (hf : ∀ a, Alike (f a)) :
    Alike (x >>= f) := by
  intro n s t h
  obtain ⟨hresult, hstate⟩ := hx h
  rcases hs : x s with ⟨r, s₁⟩
  rcases ht : x t with ⟨r', t₁⟩
  rw [hs, ht] at hresult hstate
  obtain rfl : r = r' := hresult
  cases r with
  | error e =>
    rw [bind_of_error hs, bind_of_error ht]
    exact ⟨rfl, hstate⟩
  | ok a =>
    rw [bind_of_ok hs, bind_of_ok ht]
    exact hf a hstate

theorem locate {span : Span} {x : Eval α} (hx : Alike x) : Alike (Eval.locate span x) := by
  intro n s t h
  obtain ⟨hresult, hstate⟩ := hx h
  unfold Eval.locate
  rcases hs : x s with ⟨r, s₁⟩
  rcases ht : x t with ⟨r', t₁⟩
  rw [hs, ht] at hresult hstate
  obtain rfl : r = r' := hresult
  cases r <;> exact ⟨rfl, hstate⟩

theorem ofModify {f : EvalState → EvalState} (hf : ∀ n s t, s.Alike n t → (f s).Alike n (f t)) :
    Alike (modify f : Eval Unit) := fun n s t h => ⟨rfl, hf n s t h⟩

/-- A step that changes the context. -/
theorem ofContext (f : Context → Context) :
    Alike (modify fun s => { s with context := f s.context } : Eval Unit) :=
  .ofModify fun _ _ _ h => ⟨congrArg f h.context, h.continues⟩

theorem context_bind {f : Context → Eval α} (hf : ∀ c, Alike (f c)) :
    Alike (Eval.context >>= f) := by
  intro n s t h
  have hs := hf s.context h
  rw [h.context] at hs
  have hcontext : (Eval.context >>= f) s = f t.context s := by
    rw [← h.context]
    rfl
  rw [hcontext]
  exact hs

/-- Inside of the loop the states are alike one loop deeper. -/
theorem iteration {x : Eval Unit} (hx : Alike x) : Alike (Eval.iteration x) := by
  intro n s t h
  have henter : EvalState.Alike (n + 1) { s with continues := none :: s.continues }
      { t with continues := none :: t.continues } :=
    ⟨h.context, none, _, _, rfl, rfl, h.continues⟩
  obtain ⟨hresult, hcontext, hsaved⟩ := hx henter
  unfold Eval.iteration
  rcases hs : x { s with continues := none :: s.continues } with ⟨r, s₁⟩
  rcases ht : x { t with continues := none :: t.continues } with ⟨r', t₁⟩
  rw [hs, ht] at hresult hcontext hsaved
  obtain rfl : r = r' := hresult
  obtain ⟨k, cs, ds, hcs, hds, hrest⟩ := hsaved
  have hleave : SameTop n s₁.continues.tail t₁.continues.tail := by
    rw [hcs, hds]
    exact hrest
  cases r with
  | error e => exact ⟨rfl, hcontext, hleave⟩
  | ok a =>
    refine ⟨rfl, ?_, hleave⟩
    change endOf s₁.context s₁.continues = endOf t₁.context t₁.continues
    rw [hcs, hds, show s₁.context = t₁.context from hcontext]
    cases k <;> rfl

/-- Whatever a tree writes, its evaluation is alike. -/
theorem treeClosed (w : IdSet) : TreeClosed w (fun _ => True) Alike where
  pure := .pure
  fail := .fail
  bind := .bind
  context_bind hf := .context_bind fun c => hf c trivial
  change {f} _ := .ofContext f
  warn _ := .ofModify fun _ _ _ h => ⟨h.context, h.continues⟩
  locate _ := .locate
  observe e x := .ofModify fun _ _ _ h => h.observe e x
  iteration := .iteration
  continueLoop := .ofModify fun _ _ _ h => h.continueLoop

end Alike

end Eval

/-! ## Expressions and statements -/

variable {b : Body}

/-- An expression comes to the same from states that are alike. -/
theorem Expr.eval_alike (depth : Nat) (e : Expr) : (e.eval b depth).Alike :=
  eval_closed (Eval.Alike.treeClosed (IdSet.ofList e.written)) depth
    (assignsIn_of_written fun _ => IdSet.mem_ofList.2)

theorem Expr.run_alike (e : Expr) : (e.run b).Alike :=
  run_closed (Eval.Alike.treeClosed (IdSet.ofList e.written)) fun _ => IdSet.mem_ofList.2

/-- What statements do to the context depends on the context alone. -/
theorem Stmt.evalList_alike (ss : List Stmt) : (evalList b ss).Alike :=
  evalList_closed (Eval.Alike.treeClosed (writtenByAll ss)) (assignsIn_writtenByAll fun _ hv => hv)

end Midend
