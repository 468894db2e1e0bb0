import Midend.Proofs.Eval.Frame

/-!
# What evaluation leaves alone

A local that a statement does not write has the same value in the context after the
evaluation as before, whether the evaluation succeeds or fails
(`Stmt.get_eval_of_not_mem_written`). Forgetting what a loop writes, going back to
the entry of a switch or `try`, and joining the paths of a branch all leave it as it
is. So do the contexts of `continue` statements, which end an iteration: those of a
loop inside the statement give the local its value, as they were taken inside. What
a `continue` adds to a loop around the statement plays no part before its end.
-/

namespace Midend

open Eval

namespace EvalState

variable {v : VarId} {x : Value}

/-- Where the context of `continue` statements gave the local the value, if it was there, so does
what became of it. -/
def ContinuesKeep (v : VarId) (x : Value) : List (Option Context) → List (Option Context) → Prop
  | [], ds => ds = []
  | c :: outer, ds => ∃ d, ds = d :: outer ∧ ((∀ e ∈ c, e.get v = x) → ∀ e ∈ d, e.get v = x)

/-- The context gives the local the value, and the contexts of `continue` statements keep it as
it was in `cs`. -/
structure Untouched (v : VarId) (x : Value) (cs : List (Option Context)) (s : EvalState) :
    Prop where
  context : s.context.get v = x
  continues : ContinuesKeep v x cs s.continues

theorem ContinuesKeep.refl : ∀ cs, ContinuesKeep v x cs cs
  | [] => rfl
  | c :: _ => ⟨c, rfl, id⟩

variable {cs : List (Option Context)} {s : EvalState}

theorem Untouched.observe (hs : s.Untouched v x cs) (e : ExprId) (y : Value) :
    (s.observe e y).Untouched v x cs :=
  ⟨by rw [context_observe, hs.context], by rw [continues_observe]; exact hs.continues⟩

/-- A change of other variables leaves this one as it is. -/
theorem Untouched.change (hs : s.Untouched v x cs) {w : IdSet} (hv : v ∉ w)
    {f : Context → Context} (hf : Context.Change (· ∈ w) (fun c => c.get v = x) f) :
    Untouched v x cs { s with context := f s.context } := by
  refine ⟨?_, hs.continues⟩
  change (f s.context).get v = x
  cases hf with
  | goBack hc => exact hc
  | meet hc => rw [Context.get_join, hs.context, hc, Value.join_self]
  | forget hvs => rw [Context.get_forget, if_neg fun h => hv (hvs v h), hs.context]
  | @bind u hu y =>
    have hne : v ≠ u := fun heq => hv (heq ▸ hu)
    rw [Context.get_bind, if_neg hne, hs.context]

theorem Untouched.continueLoop (hs : s.Untouched v x cs) : s.continueLoop.Untouched v x cs := by
  refine ⟨by rw [context_continueLoop, hs.context], ?_⟩
  have hkeep := hs.continues
  unfold EvalState.continueLoop
  cases cs with
  | nil =>
    have hnil : s.continues = [] := hkeep
    rw [hnil]
    exact hnil
  | cons c outer =>
    obtain ⟨d, hd, hc⟩ := hkeep
    rw [hd]
    cases d with
    | none =>
      refine ⟨some s.context, rfl, fun _ e he => ?_⟩
      obtain rfl := Option.mem_some_iff.1 he
      exact hs.context
    | some d =>
      refine ⟨some (d.join s.context), rfl, fun h e he => ?_⟩
      obtain rfl := Option.mem_some_iff.1 he
      rw [Context.get_join, hc h d rfl, hs.context, Value.join_self]

end EvalState

/-- An evaluation that leaves the local alone, whichever loops it is in. -/
def Eval.Leaves {α : Type} (v : VarId) (x : Value) (y : Eval α) : Prop :=
  ∀ cs, Upholds (EvalState.Untouched v x cs) (fun _ => True) (fun _ => True) y

namespace Eval.Leaves

variable {α β : Type} {v : VarId} {x : Value} {y : Eval α}

theorem pure {a : α} : Leaves v x (Pure.pure a : Eval α) := fun _ => .pure trivial

theorem fail {f : Fault} : Leaves v x (Eval.fail f : Eval α) := fun _ => .fail trivial

theorem bind {f : α → Eval β} (hy : Leaves v x y) (hf : ∀ a, Leaves v x (f a)) :
    Leaves v x (y >>= f) := fun cs => (hy cs).bind fun a _ => hf a cs

theorem context_bind {f : Context → Eval α} (hf : ∀ c : Context, c.get v = x → Leaves v x (f c)) :
    Leaves v x (Eval.context >>= f) := fun cs => .context_bind fun _ hs => hf _ hs.context cs

theorem locate {span : Span} (hy : Leaves v x y) : Leaves v x (Eval.locate span y) :=
  fun cs => (hy cs).locate

/-- Inside the body of a loop the innermost `continue` statements are those of the loop, and the
contexts taken at them give the local its value. -/
theorem iteration {y : Eval Unit} (hy : Leaves v x y) : Leaves v x (Eval.iteration y) := by
  intro cs s hs
  have hstart : EvalState.Untouched v x (none :: s.continues)
      { s with continues := none :: s.continues } := ⟨hs.context, .refl _⟩
  unfold Eval.iteration
  rcases hrun : y { s with continues := none :: s.continues } with ⟨e | ⟨⟩, t⟩
  · obtain ⟨ht, -⟩ := (hy _).of_error hstart hrun
    obtain ⟨d, hd, -⟩ := ht.continues
    refine ⟨⟨ht.context, ?_⟩, trivial⟩
    change EvalState.ContinuesKeep v x cs t.continues.tail
    rw [hd]
    exact hs.continues
  · obtain ⟨ht, -⟩ := (hy _).of_ok hstart hrun
    obtain ⟨d, hd, hcontinued⟩ := ht.continues
    refine ⟨⟨?_, ?_⟩, trivial⟩
    · change (endOf t.context t.continues).get v = x
      rw [hd]
      cases d with
      | none => exact ht.context
      | some d =>
        have hget := hcontinued (fun _ he => nomatch he) d rfl
        rw [endOf, Context.get_join, ht.context, hget, Value.join_self]
    · change EvalState.ContinuesKeep v x cs t.continues.tail
      rw [hd]
      exact hs.continues

/-- A tree that does not write the variable leaves it as it is. -/
theorem treeClosed {w : IdSet} (hv : v ∉ w) :
    TreeClosed w (fun c => c.get v = x) (Leaves v x) where
  pure _ := .pure
  fail _ := .fail
  bind := .bind
  context_bind := .context_bind
  change hf := fun _ => .ofModify fun _ hs => hs.change hv hf
  warn _ := fun _ => .ofModify fun _ hs => ⟨hs.context, hs.continues⟩
  locate _ := .locate
  observe e y := fun _ => .ofModify fun _ hs => hs.observe e y
  iteration := .iteration
  continueLoop := fun _ => .ofModify fun _ hs => hs.continueLoop

end Eval.Leaves

/-! ## Statements -/

namespace Stmt

/-- However the evaluation of a statement ends, a local that the statement does not write has the
value that it had before. -/
theorem get_eval_of_not_mem_written (b : Body) (s : Stmt) (st : EvalState) (v : VarId)
    (h : v ∉ s.written) : (s.eval b st).2.context.get v = st.context.get v := by
  have hs : Leaves v (st.context.get v) (s.eval b) :=
    eval_closed (Leaves.treeClosed h) (assignsIn_of_written fun _ hw => hw)
  exact (hs st.continues st ⟨rfl, .refl _⟩).1.context

end Stmt

namespace Body

/-- A loop that writes `y` and fails when it is evaluated. -/
def failingLoop : Body where
  name := "failingLoop"
  vars := #[⟨"x", .prim .int, .localVar, .dummy⟩, ⟨"y", .prim .int, .localVar, .dummy⟩]
  exprs := #[⟨.dummy, .lit (.bool true)⟩, ⟨.dummy, .var 1⟩, ⟨.dummy, .lit (.int 1)⟩,
    ⟨.dummy, .lit (.int 0)⟩, ⟨.dummy, .binary 2 (.arith .div) 3⟩, ⟨.dummy, .assign 1 none 4⟩]
  stmts := #[⟨.dummy, .whileLoop 0 1⟩, ⟨.dummy, .expr 5⟩]
  block := [0]

/-- The evaluation fails inside of a loop and the other local keeps its value. -/
theorem get_eval_failingLoop :
    let st : EvalState := { context := Context.bind ∅ 0 (.known (.int 7)) }
    let s := failingLoop.stmtTree 0
    0 ∉ s.written ∧ (s.eval failingLoop st).1 = .error ⟨.divisionByZero, .dummy⟩ ∧
      (s.eval failingLoop st).2.context.get 0 = .known (.int 7) := by
  intro st s
  have hw : 0 ∉ s.written := by decide
  refine ⟨hw, by rfl, ?_⟩
  rw [Stmt.get_eval_of_not_mem_written failingLoop s st 0 hw]
  rfl

end Body

end Midend
