import Midend.Proofs.Tree.Operand

/-!
# Substitution

`Expr.subst` replaces expressions by others, those nearest the root first, and
leaves everything else as it is. `Stmt.mapExprs` changes the expressions of a
statement and of those nested in it.
-/

namespace Midend

namespace Expr

variable (ρ : ExprId → Option Expr)

mutual

/-- Replaces the expressions for which `ρ` has another. -/
def subst : Expr → Expr
  | node id kind => (ρ id).getD (node id (substKind kind))

/-- Substitutes in the operands of a layer. -/
def substKind : ExprKind Expr → ExprKind Expr
  | .lit l => .lit l
  | .var v => .var v
  | .field none name isStatic => .field none name isStatic
  | .field (some e) name isStatic => .field (some e.subst) name isStatic
  | .assign l op r => .assign l.subst op r.subst
  | .binary l op r => .binary l.subst op r.subst
  | .unary op e => .unary op e.subst
  | .paren e => .paren e.subst
  | .conditional c t f => .conditional c.subst t.subst f.subst
  | .call none callee args => .call none callee (substList args)
  | .call (some e) callee args => .call (some e.subst) callee (substList args)
  | .create ty args => .create ty (substList args)
  | .index a i => .index a.subst i.subst
  | .cast ty e => .cast ty e.subst
  | .instanceOf e ty => .instanceOf e.subst ty
  | .err => .err

/-- Substitutes in each expression of a list. -/
def substList : List Expr → List Expr
  | [] => []
  | e :: es => e.subst :: substList es

end

theorem substList_eq (es : List Expr) : substList ρ es = es.map (subst ρ) := by
  induction es with
  | nil => rfl
  | cons e es ih => rw [substList, ih, List.map_cons]

theorem substKind_eq (k : ExprKind Expr) : substKind ρ k = k.map (subst ρ) := by
  cases k with
  | field receiver => cases receiver <;> rfl
  | call receiver => cases receiver <;> simp [substKind, ExprKind.map, substList_eq]
  | create => simp [substKind, ExprKind.map, substList_eq]
  | _ => rfl

variable {ρ}

/-- A node without replacement is kept over its replaced children. -/
theorem subst_of_none : ∀ {e : Expr}, ρ e.id = none → e.subst ρ = node e.id (e.kind.map (subst ρ))
  | node id k, h => by
    have h : ρ id = none := h
    rw [subst, h, substKind_eq]
    rfl

/-- A node with a replacement is replaced whole. -/
theorem subst_of_some : ∀ {e r : Expr}, ρ e.id = some r → e.subst ρ = r
  | node id k, r, h => by
    have h : ρ id = some r := h
    rw [subst, h]
    rfl

/-- What is in an expression after the substitution was kept, or is in a replacement. -/
theorem mem_subexprs_subst {e s : Expr} (h : s ∈ (e.subst ρ).subexprs) :
    ∃ o ∈ e.subexprs, ρ o.id = none ∧ s = node o.id (o.kind.map (subst ρ)) ∨
      ∃ r, ρ o.id = some r ∧ s ∈ r.subexprs := by
  induction e using ofChildren with
  | node id k ih =>
    cases hρ : ρ id with
    | some r =>
      rw [subst_of_some (e := node id k) hρ] at h
      exact ⟨_, mem_subexprs_self _, .inr ⟨r, hρ, h⟩⟩
    | none =>
      rw [subst_of_none (e := node id k) hρ, subexprs, subexprsOfKind_eq, ExprKind.children_map,
        List.flatMap_map] at h
      rcases List.mem_cons.1 h with rfl | h
      · exact ⟨node id k, mem_subexprs_self _, .inl ⟨hρ, rfl⟩⟩
      · obtain ⟨c, hc, h⟩ := List.mem_flatMap.1 h
        obtain ⟨o, ho, hs⟩ := ih c hc h
        exact ⟨o, subexprs_subset hc ho, hs⟩

/-- A target stays one if neither it nor what its parentheses are around is replaced. -/
theorem isLvalue_subst {e : Expr} {reads : Bool} (hl : e.isLvalue = true)
    (hkept : ∀ r s, (Role.target r, s) ∈ e.rolesAs (.target reads) → ρ s.id = none) :
    (e.subst ρ).isLvalue = true := by
  induction e using ofChildren with
  | node id k ih =>
    have hself : ρ id = none := hkept reads (node id k) (mem_rolesAs_self _ _)
    rw [subst_of_none (e := node id k) hself]
    cases k with
    | var | field | index => rfl
    | paren inner =>
      refine ih inner (List.mem_singleton_self _) hl fun r s hs => hkept r s ?_
      rw [rolesAs_node]
      exact List.mem_cons_of_mem _ (List.mem_flatMap.2 ⟨_, List.mem_singleton_self _, hs⟩)
    | _ => cases hl

/-- A map of the children maps the target. -/
theorem target?_map (id : ExprId) (k : ExprKind Expr) (f : Expr → Expr) :
    (node id (k.map f)).target? = (node id k).target?.map f := by
  cases k with
  | unary op e => cases op <;> rfl
  | _ => rfl

/-- If what stands for an expression has its name, or one below it, so has the whole. -/
theorem ids_subst_sublist {f : ExprId → ExprId} {e : Expr}
    (hkept : ∀ s ∈ e.subexprs, ρ s.id = none → f s.id = s.id)
    (hnew : ∀ s ∈ e.subexprs, ∀ r, ρ s.id = some r →
      (r.subexprs.map fun x => f x.id).Sublist (s.subexprs.map Expr.id)) :
    ((e.subst ρ).subexprs.map fun x => f x.id).Sublist (e.subexprs.map Expr.id) := by
  induction e using ofChildren with
  | node id k ih =>
    cases hρ : ρ id with
    | some r =>
      rw [subst_of_some (e := node id k) hρ]
      exact hnew _ (mem_subexprs_self _) r hρ
    | none =>
      rw [subst_of_none (e := node id k) hρ, subexprs, subexprsOfKind_eq, ExprKind.children_map,
        List.flatMap_map, List.map_cons, List.map_flatMap, subexprs, subexprsOfKind_eq,
        List.map_cons, List.map_flatMap]
      have hid : f id = id := hkept _ (mem_subexprs_self _) hρ
      simp only [Expr.id, hid]
      refine (List.Sublist.flatMap_right _ fun c hc => ?_).cons_cons _
      exact ih c hc (fun s hs => hkept s (subexprs_subset hc hs)) fun s hs =>
        hnew s (subexprs_subset hc hs)

end Expr

namespace Stmt

variable (g : Expr → Expr)

mutual

/-- Applies `g` to the expressions of the statement and of those nested in it. -/
def mapExprs : Stmt → Stmt
  | node id kind => node id (mapKind kind)

/-- Maps the expressions of a layer and of everything below it. -/
def mapKind : StmtKind Expr Stmt → StmtKind Expr Stmt
  | .block body => .block (mapList body)
  | .branch c t none => .branch (g c) t.mapExprs none
  | .branch c t (some f) => .branch (g c) t.mapExprs (some f.mapExprs)
  | .whileLoop c body => .whileLoop (g c) body.mapExprs
  | .doLoop body c => .doLoop body.mapExprs (g c)
  | .forLoop init c update body => .forLoop (mapList init) (c.map g) (update.map g) body.mapExprs
  | .forEach v e body => .forEach v (g e) body.mapExprs
  | .switch e cases => .switch (g e) (mapCases cases)
  | .guarded resources body catches none =>
    .guarded (mapList resources) (mapList body) (mapCatches catches) none
  | .guarded resources body catches (some finalizer) =>
    .guarded (mapList resources) (mapList body) (mapCatches catches) (some (mapList finalizer))
  | .decl v init => .decl v (init.map g)
  | .expr e => .expr (g e)
  | .throw e => .throw (g e)
  | .assert c message => .assert (g c) (message.map g)
  | .ret e => .ret (e.map g)
  | .breakOut => .breakOut
  | .continueLoop => .continueLoop
  | .empty => .empty
  | .err => .err

/-- Maps the expressions of statements. -/
def mapList : List Stmt → List Stmt
  | [] => []
  | s :: ss => s.mapExprs :: mapList ss

/-- Maps the expressions of the groups of a switch. -/
def mapCases : List (SwitchCase Expr Stmt) → List (SwitchCase Expr Stmt)
  | [] => []
  | ⟨span, labels, body⟩ :: cs => ⟨span, labels.map g, mapList body⟩ :: mapCases cs

/-- Maps the expressions of handlers. -/
def mapCatches : List (CatchClause Stmt) → List (CatchClause Stmt)
  | [] => []
  | ⟨span, param, body⟩ :: cs => ⟨span, param, mapList body⟩ :: mapCatches cs

end

theorem mapList_eq (ss : List Stmt) : mapList g ss = ss.map (mapExprs g) := by
  induction ss with
  | nil => rfl
  | cons s ss ih => rw [mapList, ih, List.map_cons]

theorem mapCases_eq (cs : List (SwitchCase Expr Stmt)) :
    mapCases g cs = cs.map fun c => ⟨c.span, c.labels.map g, c.body.map (mapExprs g)⟩ := by
  induction cs with
  | nil => rfl
  | cons c cs ih => rw [mapCases, ih, mapList_eq, List.map_cons]

theorem mapCatches_eq (cs : List (CatchClause Stmt)) :
    mapCatches g cs = cs.map fun c => ⟨c.span, c.param, c.body.map (mapExprs g)⟩ := by
  induction cs with
  | nil => rfl
  | cons c cs ih => rw [mapCatches, ih, mapList_eq, List.map_cons]

/-- A map of the expressions works layer by layer. -/
theorem mapExprs_node (id : StmtId) (k : StmtKind Expr Stmt) :
    (node id k).mapExprs g = node id (k.map g (mapExprs g)) := by
  rw [mapExprs]
  congr 1
  cases k with
  | branch c t f => cases f <;> rfl
  | guarded resources body catches finalizer =>
    cases finalizer <;> simp [mapKind, StmtKind.map, mapList_eq, mapCatches_eq]
  | _ => simp [mapKind, StmtKind.map, mapList_eq, mapCases_eq]

@[simp] theorem id_mapExprs (s : Stmt) : (s.mapExprs g).id = s.id := by
  cases s
  rfl

theorem kind_mapExprs (s : Stmt) : (s.mapExprs g).kind = s.kind.map g (mapExprs g) := by
  cases s
  rw [mapExprs_node]
  rfl

/-- Maps that agree on the expressions of a statement give the same statement. -/
theorem mapExprs_congr {f g : Expr → Expr} {s : Stmt}
    (h : ∀ t ∈ s.substmts, ∀ x ∈ t.kind.exprChildren, f x = g x) :
    s.mapExprs f = s.mapExprs g := by
  induction s using ofChildren with
  | node id k ih =>
    rw [mapExprs_node, mapExprs_node]
    congr 1
    refine (StmtKind.map_congr fun c hc => ?_).trans
      (StmtKind.map_congr_exprs (h _ List.mem_cons_self))
    exact ih c hc fun t ht => h t (substmts_subset hc ht)

/-- Mapping nothing changes nothing. -/
theorem mapExprs_id (s : Stmt) : s.mapExprs (fun e => e) = s := by
  induction s using ofChildren with
  | node id k ih =>
    rw [mapExprs_node]
    congr 1
    exact StmtKind.map_eq_self (fun _ _ => rfl) ih

/-- A statement's own expressions are mapped. -/
theorem exprChildren_mapExprs (s : Stmt) :
    (s.mapExprs g).kind.exprChildren = s.kind.exprChildren.map g := by
  rw [kind_mapExprs, StmtKind.exprChildren_map]

/-- The nested statements are mapped. -/
theorem substmts_mapExprs (s : Stmt) :
    (s.mapExprs g).substmts = s.substmts.map (mapExprs g) := by
  induction s using ofChildren with
  | node id k ih =>
    rw [mapExprs_node, substmts, substmtsOfKind_eq, StmtKind.stmtChildren_map, List.flatMap_map,
      substmts, substmtsOfKind_eq, List.map_cons, mapExprs_node, List.map_flatMap]
    congr 1
    exact List.flatMap_congr fun c hc => ih c hc

/-- The nodes after the map are the statements and the nodes of the mapped expressions. -/
theorem nodes_mapExprs (s : Stmt) :
    (s.mapExprs g).nodes = s.substmts.flatMap fun t =>
      .stmt t.id :: (t.kind.exprChildren.flatMap fun x => (g x).subexprs).map (.expr ·.id) := by
  rw [nodes, substmts_mapExprs, List.flatMap_map]
  refine List.flatMap_congr fun t _ => ?_
  rw [exprChildren_mapExprs, List.flatMap_map, id_mapExprs]

end Stmt

end Midend
