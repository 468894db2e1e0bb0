import Midend.Proofs.Effect.Performed
import Midend.Proofs.Fold.Rounds

/-!
# Folding and effects

A round of folding loses no act, adds none and keeps their order
(`Body.foldRound_performed`). It drops acts in one way only: with an arm that the
literal condition of a conditional expression does not choose. What is replaced by
a literal performs nothing.
-/

namespace Midend

/-! ## Pruned lists -/

/-- The second list without some of its members, all of which satisfy `P`. -/
inductive Pruned {α : Type} (P : α → Prop) : List α → List α → Prop
  | nil : Pruned P [] []
  | keep {a : α} {as bs : List α} : Pruned P as bs → Pruned P (a :: as) (a :: bs)
  | drop {b : α} {as bs : List α} : P b → Pruned P as bs → Pruned P as (b :: bs)

namespace Pruned

variable {α β : Type} {P : α → Prop}

theorem refl : ∀ as : List α, Pruned P as as
  | [] => .nil
  | _ :: as => .keep (refl as)

theorem append {as bs cs ds : List α} (h : Pruned P as bs) (h' : Pruned P cs ds) :
    Pruned P (as ++ cs) (bs ++ ds) := by
  induction h with
  | nil => exact h'
  | keep _ ih => exact .keep ih
  | drop hb _ ih => exact .drop hb ih

theorem none : ∀ {bs : List α}, (∀ b ∈ bs, P b) → Pruned P [] bs
  | [], _ => .nil
  | b :: _, h => .drop (h b List.mem_cons_self) (none fun c hc => h c (List.mem_cons_of_mem _ hc))

theorem flatMap {f g : β → List α} :
    ∀ {l : List β}, (∀ x ∈ l, Pruned P (f x) (g x)) → Pruned P (l.flatMap f) (l.flatMap g)
  | [], _ => .nil
  | x :: l, h => by
    rw [List.flatMap_cons, List.flatMap_cons]
    exact (h x List.mem_cons_self).append (flatMap fun y hy => h y (List.mem_cons_of_mem _ hy))

end Pruned

/-- Every act is performed by a node of the tree. -/
theorem Expr.fst_mem_ids {callees : CalleeEffects} {fails : ExprId → Bool} {e : Expr} {role : Role}
    {a : ExprId × Act} (h : a ∈ e.performedAs callees fails role) :
    a.1 ∈ e.subexprs.map Expr.id := by
  obtain ⟨o, ho, ha⟩ := List.mem_flatMap.1 h
  obtain ⟨act, -, rfl⟩ := List.mem_map.1 ha
  refine List.mem_map.2 ⟨o.2, ?_, rfl⟩
  rw [← map_snd_rolesAs e role]
  exact List.mem_map_of_mem (mem_rolesAs_of_evaluationsAs ho)

namespace Body

variable {b c : Body} {callees : CalleeEffects} {values : IdMap Value}
  {σ origin : ExprId → ExprId}

/-- Whether an expression is a division whose divisor may be zero. -/
def mayFail (b : Body) (i : ExprId) : Bool := (b.exprTree i).mayFail

/-- The acts of the root block in evaluation order. -/
def performed (b : Body) (callees : CalleeEffects) (fails : ExprId → Bool) : List (ExprId × Act) :=
  (Stmt.inOrderOfList b.root).flatMap fun e => e.performedAs callees fails .value

/-- The act lies in an arm that a literal condition does not choose. -/
def Unchosen (b : Body) (a : ExprId × Act) : Prop :=
  ∃ e ∈ b.root.flatMap Stmt.allExprs, ∃ c t f v, e.kind = .conditional c t f ∧
    c.kind = .lit (.bool v) ∧ a.1 ∈ (if v then f else t).subexprs.map Expr.id

/-- Whether an expression may fail is the same in the arena and in its tree. -/
theorem Accepted.mayFail_eq (h : b.Accepted) {e : Expr} (he : e ∈ b.root.flatMap Stmt.allExprs) :
    b.mayFail e.id = e.mayFail := by
  rw [Body.mayFail, h.spans.exprTree he]

/-- What is replaced by a literal performs nothing. -/
theorem Accepted.performedAs_of_constant (h : b.Accepted) {e : Expr} {l : Literal}
    (he : b.Uses .value e) (hc : (b.foldFacts callees values).constant? e.id = some l) :
    e.performedAs callees b.mayFail .value = [] := by
  obtain ⟨hpure, -⟩ := FoldFacts.constant?_eq_some _ hc
  refine Expr.performedAs_of_isPure ?_ fun s hs => h.mayFail_eq (mem_allExprs_trans he.mem hs)
  obtain ⟨t, ht, x, hx, hmem⟩ := he
  rwa [foldFacts, Effects.expr_compute h ht hx hmem] at hpure

/-- A replacement performs what the expression does, without an arm that is not chosen. -/
theorem Accepted.performed_replaced (h : b.Accepted) {e r : Expr}
    (hr : b.Replaces (b.foldFacts callees values) e r) :
    Pruned b.Unchosen (r.performedAs callees b.mayFail .value)
      (e.performedAs callees b.mayFail .value) := by
  have he := hr.evaluated.mem
  rcases hr.result with ⟨j, l, rfl, hconst⟩ | hsimp
  · rw [h.performedAs_of_constant hr.evaluated hconst]
    exact .nil
  · cases hsimp with
    | paren _ =>
      rw [Expr.performedAs_node]
      simp only [ExprKind.operands, ExprKind.children, Expr.actsAs, Expr.kind, List.map_cons,
        List.map_nil, List.flatMap_singleton, List.append_nil]
      exact .refl _
    | @arm id c t f v hc hty =>
      have hcond : c.performedAs callees b.mayFail .value = [] := by
        obtain ⟨i, k⟩ := c
        obtain rfl : k = .lit (.bool v) := hc
        rfl
      have hother : ∀ a ∈ (if v then f else t).performedAs callees b.mayFail .value,
          b.Unchosen a := fun a ha => ⟨_, he, c, t, f, v, rfl, hc, Expr.fst_mem_ids ha⟩
      rw [Expr.performedAs_node callees b.mayFail id]
      simp only [ExprKind.operands, ExprKind.children, Expr.actsAs, Expr.kind, List.map_cons,
        List.map_nil, List.flatMap_cons, List.flatMap_nil, List.append_nil, hcond, List.nil_append]
      cases v with
      | true =>
        have happend := (Pruned.refl (t.performedAs callees b.mayFail .value)).append
          (Pruned.none hother)
        rwa [List.append_nil] at happend
      | false => exact (Pruned.none hother).append (.refl _)

section

variable (h : b.Accepted) (ha : b.Applied (b.edits callees values) σ origin c)

include h ha

/-- With its replacements an expression performs what it did, without arms that are not chosen. -/
theorem performed_subst {e : Expr} {role : Role} (he : b.Uses role e) :
    Pruned b.Unchosen
      ((e.subst (b.replacement (b.edits callees values) σ)).performedAs callees b.mayFail role)
      (e.performedAs callees b.mayFail role) := by
  induction e using Expr.ofChildren generalizing role with
  | node id k ih =>
    cases hρ : b.replacement (b.edits callees values) σ id with
    | some r =>
      have hr := (standsFor_of_replacement h ha he.mem hρ).replaces
      obtain ⟨rfl, -⟩ := h.uses_unique he hr.evaluated rfl
      rw [Expr.subst_of_some (e := .node id k) hρ]
      exact h.performed_replaced hr
    | none =>
      rw [Expr.subst_of_none (e := .node id k) hρ, Expr.performedAs_node, Expr.performedAs_node,
        ExprKind.operands_map, List.flatMap_map, Expr.actsAs_map]
      refine .append (.flatMap fun o ho => ?_) (.refl _)
      exact ih o.2 (ExprKind.mem_children_of_operands ho) (he.operand ho)

/-- A round performs what was performed before it, less the arms that are not chosen. -/
theorem performed_applied :
    Pruned b.Unchosen (c.performed callees b.mayFail) (b.performed callees b.mayFail) := by
  have horder : Stmt.inOrderOfList c.root = (Stmt.inOrderOfList b.root).map
      (Expr.subst (b.replacement (b.edits callees values) σ)) := by
    rw [root_applied h ha, ← Stmt.mapList_eq]
    exact Stmt.inOrderOfList_mapList _ _
  rw [performed, performed, horder, List.flatMap_map]
  refine .flatMap fun x hx => ?_
  rw [Stmt.inOrderOfList_eq] at hx
  obtain ⟨s, hs, hx⟩ := List.mem_flatMap.1 hx
  obtain ⟨t, ht, hx⟩ := Stmt.exists_of_mem_inOrder hx
  have hvalue : b.Uses .value x :=
    ⟨t, List.mem_flatMap.2 ⟨s, hs, ht⟩, x, hx, Expr.mem_rolesAs_self x .value⟩
  exact performed_subst h ha hvalue

end

/-- A round of folding performs what the body did before it, in the same order, without acts in arms
that are not chosen by a literal condition. Whether a division may fail is judged before the
round. -/
theorem foldRound_performed (h : b.Accepted) {n : Nat}
    (hn : (b.foldRound callees).result = .ok n) :
    Pruned b.Unchosen ((b.foldRound callees).body.performed callees b.mayFail)
      (b.performed callees b.mayFail) := by
  obtain ⟨-, -, hbody⟩ := foldRound_of_ok hn
  obtain ⟨σ, origin, ha⟩ := (h.ready callees b.roundValues).applied
  rw [hbody]
  exact performed_applied h ha

/-- The assignment in the arm that is not chosen is the only act of `chosenArm`. -/
theorem foldRound_performed_chosenArm :
    chosenArm.Accepted ∧ (chosenArm.foldRound noSignatures).result = .ok 2 ∧
      chosenArm.performed noSignatures chosenArm.mayFail = [(5, .assignment)] ∧
      (chosenArm.foldRound noSignatures).body.performed noSignatures chosenArm.mayFail = [] ∧
      chosenArm.Unchosen (5, .assignment) := by
  have hresult : (chosenArm.foldRound noSignatures).result = .ok 2 := by rfl
  have hbefore : chosenArm.performed noSignatures chosenArm.mayFail = [(5, .assignment)] := by rfl
  have hafter :
      (chosenArm.foldRound noSignatures).body.performed noSignatures chosenArm.mayFail = [] := by
    rfl
  refine ⟨chosenArm_accepted, hresult, hbefore, hafter, ?_⟩
  have hpruned := foldRound_performed chosenArm_accepted hresult
  rw [hbefore, hafter] at hpruned
  cases hpruned with
  | drop h _ => exact h

end Body

end Midend
