import Midend.Proofs.Body.Trees
import Midend.Proofs.Effect.Monotone
import Midend.Proofs.Effect.Performed
import Midend.Proofs.Effect.Recorded

/-!
# Effects of parents

The effects of a layer cover those of its operands, each in its own role, and
those of a statement cover its expressions and what is nested in it. In an
accepted body the table holds for each node exactly these sets, so there, too, a
parent has every effect of its children, and the body every effect of its nodes
(`Effects.compute_covers`).
-/

namespace Midend

namespace Effects

/-- The effects recorded for a node. -/
def node (effects : Effects) : NodeId → EffectSet
  | .expr id => effects.expr id
  | .stmt id => effects.stmt id

variable {b : Body} {callees : CalleeEffects} {κ : EffectKind}

/-- What is recorded of an operand is recorded of its expression. -/
theorem has_expr_of_operand (hb : b.Accepted) {s : Stmt} (hs : s ∈ b.root.flatMap Stmt.substmts)
    {x e c : Expr} (hx : x ∈ s.kind.exprChildren) (he : e ∈ x.subexprs) (hc : c ∈ e.kind.children)
    (h : ((compute b callees).expr c.id).has κ = true) :
    ((compute b callees).expr e.id).has κ = true := by
  rw [← Expr.map_snd_rolesAs x .value] at he
  obtain ⟨⟨role, e⟩, hrole, rfl⟩ := List.mem_map.1 he
  obtain ⟨id, k⟩ := e
  obtain ⟨o, ho, rfl⟩ : ∃ o ∈ k.operands role, o.2 = c := by
    rwa [Expr.kind, ← ExprKind.map_snd_operands role, List.mem_map] at hc
  have hoperand : o ∈ x.rolesAs .value := Expr.rolesAs_trans hrole (Expr.mem_rolesAs_operand ho)
  rw [expr_compute hb hs hx hoperand] at h
  rw [expr_compute hb hs hx hrole]
  exact Expr.has_effectsAs_operand ho h

/-- What is recorded of an expression is recorded of the statement that it belongs to. -/
theorem has_stmt_of_expr (hb : b.Accepted) {s : Stmt} (hs : s ∈ b.root.flatMap Stmt.substmts)
    {x e : Expr} (hx : x ∈ s.kind.exprChildren) (he : e ∈ x.subexprs)
    (h : ((compute b callees).expr e.id).has κ = true) :
    ((compute b callees).stmt s.id).has κ = true := by
  rw [← Expr.map_snd_rolesAs x .value] at he
  obtain ⟨⟨role, e⟩, hrole, rfl⟩ := List.mem_map.1 he
  rw [expr_compute hb hs hx hrole] at h
  rw [stmt_compute hb hs]
  obtain ⟨id, k⟩ := s
  exact Stmt.has_effects_of_expr hx (Expr.has_effectsAs hrole h)

/-- What is recorded of a nested statement is recorded of those around it. -/
theorem has_stmt_of_nested (hb : b.Accepted) {s t : Stmt} (hs : s ∈ b.root.flatMap Stmt.substmts)
    (ht : t ∈ s.substmts) (h : ((compute b callees).stmt t.id).has κ = true) :
    ((compute b callees).stmt s.id).has κ = true := by
  rw [stmt_compute hb (Body.mem_substmts_trans hs ht)] at h
  rw [stmt_compute hb hs]
  exact Stmt.has_effects h ht

/-- What is recorded of a statement is among the effects of the body. -/
theorem has_body_of_stmt (hb : b.Accepted) {s : Stmt} (hs : s ∈ b.root.flatMap Stmt.substmts)
    (h : ((compute b callees).stmt s.id).has κ = true) :
    (compute b callees).body.has κ = true := by
  rw [stmt_compute hb hs] at h
  exact Stmt.has_listEffects h (Stmt.substmtsOfList_eq b.root ▸ hs)

/-- Under any signatures, every reachable node of an accepted body has all effects of its children,
and the body has all effects of its reachable nodes. -/
theorem compute_covers (hb : b.Accepted) (callees : CalleeEffects) {n : NodeId}
    (hn : b.Reaches n) :
    (compute b callees).body.contains ((compute b callees).node n) = true ∧
      ∀ c ∈ b.nodeChildren n,
        ((compute b callees).node n).contains ((compute b callees).node c) = true := by
  simp only [EffectSet.contains_iff]
  cases n with
  | stmt id =>
    obtain ⟨s, hs, rfl⟩ := hb.exists_stmt hn
    refine ⟨fun κ => has_body_of_stmt hb hs, fun c hc κ h => ?_⟩
    rw [Body.nodeChildren, hb.spans.stmtKind hs, StmtKind.exprChildren_map,
      StmtKind.stmtChildren_map, List.map_map, List.map_map] at hc
    rcases List.mem_append.1 hc with hc | hc
    · obtain ⟨x, hx, rfl⟩ := List.mem_map.1 hc
      exact has_stmt_of_expr hb hs hx (Expr.mem_subexprs_self x) h
    · obtain ⟨t, ht, rfl⟩ := List.mem_map.1 hc
      exact has_stmt_of_nested hb hs (Stmt.mem_substmts_child ht) h
  | expr id =>
    obtain ⟨s, hs, x, hx, e, he, rfl⟩ := hb.exists_expr hn
    refine ⟨fun κ h => ?_, fun c hc κ h => ?_⟩
    · exact has_body_of_stmt hb hs (has_stmt_of_expr hb hs hx he h)
    · rw [Body.nodeChildren, hb.spans.holdsExpr (Body.mem_allExprs hs hx he) e
        (Expr.mem_subexprs_self e), ExprKind.children_map, List.map_map] at hc
      obtain ⟨o, ho, rfl⟩ := List.mem_map.1 hc
      exact has_expr_of_operand hb hs hx he ho h

/-- The loop `while (true) (a[i++]) *= scale(x) / n;`. -/
def scaledElements : Body where
  name := "scaledElements"
  vars := #[⟨"a", .array (.prim .int), .param, .dummy⟩, ⟨"i", .prim .int, .param, .dummy⟩,
    ⟨"x", .prim .int, .param, .dummy⟩, ⟨"n", .prim .int, .param, .dummy⟩]
  exprs := #[⟨.dummy, .var 0⟩, ⟨.dummy, .var 1⟩, ⟨.dummy, .unary (.step ⟨true, true⟩) 1⟩,
    ⟨.dummy, .index 0 2⟩, ⟨.dummy, .paren 3⟩, ⟨.dummy, .var 2⟩, ⟨.dummy, .call none scale [5]⟩,
    ⟨.dummy, .var 3⟩, ⟨.dummy, .binary 6 (.arith .div) 7⟩,
    ⟨.dummy, .assign 4 (some (.arith .mul)) 8⟩, ⟨.dummy, .lit (.bool true)⟩]
  stmts := #[⟨.dummy, .expr 9⟩, ⟨.dummy, .whileLoop 10 0⟩]
  params := [0, 1, 2, 3]
  block := [1]

theorem compute_covers_scaledElements :
    scaledElements.Accepted ∧ scaledElements.Reaches (.expr 9) ∧
      ((compute scaledElements scaleSignatures.get?).node (.expr 9)).contains
        ((compute scaledElements scaleSignatures.get?).node (.expr 4)) = true ∧
      (compute scaledElements scaleSignatures.get?).node (.expr 4) =
        .ofList [.readLocal, .writeLocal, .readGlobal, .writeGlobal] := by
  have hb : scaledElements.Accepted :=
    ⟨scaledElements.has_of_reaches (by decide) (by decide) (by decide), by decide⟩
  have hn : scaledElements.Reaches (.expr 9) :=
    .child (n := .stmt 0) (.child (n := .stmt 1) (.root (by decide)) (by decide)) (by decide)
  exact ⟨hb, hn, (compute_covers hb scaleSignatures.get? hn).2 (.expr 4) (by decide), by decide⟩

end Effects

end Midend
