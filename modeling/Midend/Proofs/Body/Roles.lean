import Midend.Proofs.Body.Fault
import Midend.Proofs.Effect.Recorded

/-!
# Roles in bodies

In an accepted body every expression has one role (`Accepted.uses_unique`), that of
a target if it is one of an assignment or step (`Accepted.uses_target`), and every
target can be assigned to (`Accepted.writable`).
-/

namespace Midend

namespace Expr

/-- The targets in an expression can be assigned to. -/
def Writable (e : Expr) (role : Role) : Prop :=
  ∀ reads s, (Role.target reads, s) ∈ e.rolesAs role → s.isLvalue = true

/-- The operands of a writable expression are writable in their roles. -/
theorem Writable.operand {id : ExprId} {k : ExprKind Expr} {role : Role}
    (h : (node id k).Writable role) {o : Role × Expr} (ho : o ∈ k.operands role) :
    o.2.Writable o.1 := by
  intro reads s hs
  refine h reads s ?_
  rw [rolesAs_node]
  exact List.mem_cons_of_mem _ (List.mem_flatMap.2 ⟨o, ho, hs⟩)

/-- Where no assignment or step has a bad target, all targets can be assigned to. -/
theorem writable_of_target {e : Expr} (h : ∀ s ∈ e.subexprs, ∀ t, s.target? = some t → t.isLvalue)
    {role : Role} (hrole : ∀ reads, role = .target reads → e.isLvalue) : e.Writable role := by
  induction e using ofChildren generalizing role with
  | node id k ih =>
    intro reads s hs
    rw [rolesAs_node] at hs
    rcases List.mem_cons.1 hs with hs | hs
    · obtain ⟨rfl, rfl⟩ := Prod.mk.inj hs
      exact hrole reads rfl
    · obtain ⟨o, ho, hs⟩ := List.mem_flatMap.1 hs
      have hc := ExprKind.mem_children_of_operands ho
      refine ih o.2 hc (fun t ht => h t (subexprs_subset hc ht)) (fun r hr => ?_) reads s hs
      obtain ⟨_, c⟩ := o
      subst hr
      rcases ExprKind.target_of_operands ho with ⟨-, ⟨op, r, rfl⟩ | ⟨st, rfl⟩⟩ | ⟨rfl, rfl⟩
      · exact h _ (mem_subexprs_self _) c rfl
      · exact h _ (mem_subexprs_self _) c rfl
      · exact hrole r rfl

/-- A target that is writable can be assigned to. -/
theorem Writable.isLvalue {e : Expr} {reads : Bool} (h : e.Writable (.target reads)) :
    e.isLvalue = true :=
  h reads e (mem_rolesAs_self e _)

end Expr

namespace Body

variable {b : Body}

/-- All targets in an accepted body can be assigned to. -/
theorem Accepted.writable (h : b.Accepted) {t : Stmt} (ht : t ∈ b.root.flatMap Stmt.substmts)
    {x : Expr} (hx : x ∈ t.kind.exprChildren) : x.Writable .value :=
  Expr.writable_of_target (Expr.badTarget?_eq_none.1 (h.badTarget? ht hx)) (fun _ hr => nomatch hr)

/-- The expression is used in the role. -/
def Uses (b : Body) (role : Role) (e : Expr) : Prop :=
  ∃ t ∈ b.root.flatMap Stmt.substmts, ∃ x ∈ t.kind.exprChildren, (role, e) ∈ x.roles

/-- An expression that has a role is reachable. -/
theorem Uses.mem {role : Role} {e : Expr} (h : b.Uses role e) :
    e ∈ b.root.flatMap Stmt.allExprs := by
  obtain ⟨t, ht, x, hx, he⟩ := h
  exact mem_allExprs ht hx (Expr.mem_subexprs_of_roles he)

/-- Every reachable expression has a role. -/
theorem exists_uses {e : Expr} (h : e ∈ b.root.flatMap Stmt.allExprs) : ∃ role, b.Uses role e := by
  obtain ⟨s, hs, he⟩ := List.mem_flatMap.1 h
  obtain ⟨t, ht, he⟩ := List.mem_flatMap.1 he
  obtain ⟨x, hx, he⟩ := List.mem_flatMap.1 he
  rw [← Expr.map_snd_roles] at he
  obtain ⟨⟨role, _⟩, hrole, rfl⟩ := List.mem_map.1 he
  exact ⟨role, t, List.mem_flatMap.2 ⟨s, hs, ht⟩, x, hx, hrole⟩

/-- The expressions below one in use are used in their roles. -/
theorem Uses.sub {role r : Role} {e s : Expr} (h : b.Uses role e) (hs : (r, s) ∈ e.rolesAs role) :
    b.Uses r s := by
  obtain ⟨t, ht, x, hx, he⟩ := h
  have hx' : (role, e) ∈ x.rolesAs .value := he
  exact ⟨t, ht, x, hx, Expr.rolesAs_trans hx' hs⟩

/-- The operands of an expression in use are used in their roles. -/
theorem Uses.operand {role : Role} {id : ExprId} {k : ExprKind Expr} (h : b.Uses role (.node id k))
    {o : Role × Expr} (ho : o ∈ k.operands role) : b.Uses o.1 o.2 :=
  h.sub (Expr.mem_rolesAs_operand ho)

/-- An expression has one role. -/
theorem Accepted.uses_unique (h : b.Accepted) {role r : Role} {e s : Expr} (he : b.Uses role e)
    (hs : b.Uses r s) (hid : e.id = s.id) : role = r ∧ e = s := by
  have hroles : ((b.root.flatMap Stmt.substmts).flatMap
      fun t => t.kind.exprChildren.flatMap Expr.roles).map (Expr.id ∘ Prod.snd) =
        (b.root.flatMap Stmt.allExprs).map Expr.id := by
    unfold Stmt.allExprs
    simp only [← List.map_map, List.map_flatMap, Expr.map_snd_roles, List.flatMap_assoc]
  have hmem : ∀ {r s}, b.Uses r s → (r, s) ∈ (b.root.flatMap Stmt.substmts).flatMap
      fun t => t.kind.exprChildren.flatMap Expr.roles := by
    rintro r s ⟨t, ht, x, hx, hs⟩
    exact List.mem_flatMap.2 ⟨t, ht, List.mem_flatMap.2 ⟨x, hx, hs⟩⟩
  have hnodup := h.nodup_exprIds
  rw [← hroles] at hnodup
  exact Prod.mk.inj (List.inj_on_of_nodup_map hnodup (hmem he) (hmem hs) hid)

/-- The target of an assignment or step is used as one. -/
theorem Accepted.uses_target (h : b.Accepted) {e v : Expr}
    (he : e ∈ b.root.flatMap Stmt.allExprs) (hv : e.target? = some v) :
    ∃ reads, b.Uses (.target reads) v := by
  obtain ⟨role, hrole⟩ := exists_uses he
  obtain ⟨id, k⟩ := e
  cases role with
  | target reads =>
    obtain ⟨t, ht, x, hx, hmem⟩ := hrole
    have hl := h.writable ht hx reads _ hmem
    cases k with
    | assign | unary => cases hl
    | _ => cases hv
  | value =>
    cases k with
    | assign l op r =>
      obtain rfl : l = v := Option.some.inj hv
      exact ⟨_, hrole.operand List.mem_cons_self⟩
    | unary op x =>
      cases op with
      | step s =>
        obtain rfl : x = v := Option.some.inj hv
        exact ⟨_, hrole.operand List.mem_cons_self⟩
      | _ => cases hv
    | _ => cases hv

end Body

end Midend
