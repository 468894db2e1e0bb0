import Midend.Proofs.Fold.Collected

/-!
# The body after a round

Applying the collected edits to the arenas replaces expressions in the trees of the
root block (`root_applied`): an expression that is evaluated by a literal, if it has
the value and no effect, or by an operand that may stand for it (`Replaces`). The
trees keep their shape, so the body is accepted again (`accepted_applied`).
-/

namespace Midend

/-- An edit is the one found for the expression it replaces. -/
theorem Edit.find?_old {es : List Edit} (hn : (es.map Edit.old).Nodup) {d : Edit} (hd : d ∈ es) :
    es.find? (fun e => e.old = d.old) = some d := by
  induction es with
  | nil => cases hd
  | cons e es ih =>
    obtain ⟨hnot, hn⟩ := List.nodup_cons.1 hn
    rcases List.mem_cons.1 hd with rfl | hd
    · simp
    · have hne : e.old ≠ d.old := fun heq => hnot (heq ▸ List.mem_map_of_mem hd)
      rw [List.find?_cons_of_neg (by simpa using hne)]
      exact ih hn hd

/-- Renames a node that is an expression. -/
def NodeId.mapExpr (f : ExprId → ExprId) : NodeId → NodeId
  | expr i => expr (f i)
  | stmt i => stmt i

namespace Body

variable {b c : Body} {callees : CalleeEffects} {values : IdMap Value} {es : List Edit}
  {σ origin : ExprId → ExprId}

/-- What the edits put in the place of an expression. -/
def replacement (b : Body) (es : List Edit) (σ : ExprId → ExprId) (i : ExprId) : Option Expr :=
  (es.find? fun d => d.old = i).map fun d =>
    match d.rewrite with
    | .literal l => .node (σ i) (.lit l)
    | .operand x => b.exprTree x

/-- What no edit replaces has no replacement. -/
theorem replacement_of_not_mem {i : ExprId} (h : i ∉ es.map Edit.old) :
    b.replacement es σ i = none := by
  rw [replacement, List.find?_eq_none.2]
  · rfl
  · intro d hd hi
    exact h (List.mem_map.2 ⟨d, hd, by simpa using hi⟩)

/-- What has a replacement is replaced by an edit. -/
theorem mem_of_replacement {i : ExprId} {r : Expr} (h : b.replacement es σ i = some r) :
    i ∈ es.map Edit.old := by
  by_contra hi
  rw [replacement_of_not_mem hi] at h
  cases h

/-- The expression is evaluated, and `r` may replace it: a literal with its value, or an operand
that may stand for it. -/
structure Replaces (b : Body) (facts : FoldFacts) (e r : Expr) : Prop where
  evaluated : b.Uses .value e
  result : (∃ j l, r = .node j (.lit l) ∧ facts.constant? e.id = some l) ∨
    FoldFacts.Simplifies facts.env e r

/-- After the edits the arena holds `r` in the place of `e`, under names that no other has. -/
structure StandsFor (b c : Body) (facts : FoldFacts) (σ origin : ExprId → ExprId) (r e : Expr) :
    Prop where
  replaces : b.Replaces facts e r
  id_eq : r.id = σ e.id
  held : ∀ s ∈ r.subexprs, s.id < c.exprs.size ∧ c.exprKind s.id = s.kind.map Expr.id
  origins : (r.subexprs.map fun x => origin x.id).Sublist (e.subexprs.map Expr.id)

/-- In an accepted body an expression is determined by its identifier. -/
theorem Accepted.eq_of_id (h : b.Accepted) {e s : Expr} (he : e ∈ b.root.flatMap Stmt.allExprs)
    (hs : s ∈ b.root.flatMap Stmt.allExprs) (hid : e.id = s.id) : e = s :=
  List.inj_on_of_nodup_map h.nodup_exprIds he hs hid

/-- A constant put into the slot stands for the expression it replaces. -/
theorem standsFor_literal (ha : b.Applied (b.edits callees values) σ origin c) {d : Edit}
    (hd : d ∈ b.edits callees values) {e : Expr}
    (hsite : b.Site (b.foldFacts callees values) d e) {l : Literal} (hl : d.rewrite = .literal l) :
    b.StandsFor c (b.foldFacts callees values) σ origin (.node (σ d.old) (.lit l)) e := by
  obtain ⟨-, hlt, hkind, horigin⟩ := ha.literal d hd l hl
  have hrewrite := hsite.rewrite
  rw [hl] at hrewrite
  have hconst : (b.foldFacts callees values).constant? e.id = some l := by
    rcases (b.foldFacts callees values).rewrite?_eq_some hrewrite with ⟨m, hm, hc⟩ | ⟨x, hx, -⟩
    · rw [Rewrite.literal.inj hm]
      exact hc
    · cases hx
  refine ⟨⟨hsite.evaluated, .inl ⟨_, l, rfl, hconst⟩⟩, congrArg σ hsite.old.symm, ?_, ?_⟩
  · intro s hs
    rw [List.mem_singleton.1 hs]
    exact ⟨hlt, hkind⟩
  · refine List.singleton_sublist.2 (List.mem_map.2 ⟨e, Expr.mem_subexprs_self e, ?_⟩)
    exact hsite.old.trans horigin.symm

section

variable (h : b.Accepted) (ha : b.Applied (b.edits callees values) σ origin c)

include h ha

/-- An expression that is in a slot has been replaced there if at all. -/
theorem moved_eq {n : NodeId} (hn : n ∈ b.root.flatMap Stmt.nodes) {i : ExprId}
    (hi : i ∈ b.slots n) : Edit.moved (b.edits callees values) σ n i = σ i := by
  by_cases hm : i ∈ (b.edits callees values).map Edit.old
  · obtain ⟨d, hd, rfl⟩ := List.mem_map.1 hm
    obtain ⟨e, he⟩ := h.site hd
    have hp : d.parent = n := eq_of_nodup_flatMap
      (h.spans.slots_perm.nodup_iff.2 h.nodup_exprIds) he.parent hn he.slot hi
    refine if_pos (List.any_eq_true.2 ⟨d, hd, ?_⟩)
    simp [hp]
  · rw [Edit.moved_of_not_mem hm, ha.kept i hm]

/-- After the round a reachable expression has its children moved. -/
theorem exprKind_applied {e : Expr} (he : e ∈ b.root.flatMap Stmt.allExprs) :
    c.exprKind e.id = e.kind.map fun x => σ x.id := by
  have hk := h.spans.holdsExpr he e (Expr.mem_subexprs_self e)
  obtain ⟨s, hs, hm⟩ := List.mem_flatMap.1 he
  have hn : NodeId.expr e.id ∈ b.root.flatMap Stmt.nodes :=
    List.mem_flatMap.2 ⟨s, hs, Stmt.mem_nodes_expr hm⟩
  rw [ha.expr e.id (h.expr_lt he), hk, ExprKind.map_map]
  refine ExprKind.map_congr fun x hx => moved_eq h ha hn ?_
  rw [h.spans.slots_expr he]
  exact List.mem_map_of_mem hx

/-- After the round a reachable statement has its expressions moved. -/
theorem stmtKind_applied {t : Stmt} (ht : t ∈ b.root.flatMap Stmt.substmts) :
    c.stmtKind t.id = t.kind.map (fun x => σ x.id) Stmt.id := by
  obtain ⟨s, hs, hm⟩ := List.mem_flatMap.1 ht
  have hn : NodeId.stmt t.id ∈ b.root.flatMap Stmt.nodes :=
    List.mem_flatMap.2 ⟨s, hs, Stmt.mem_nodes_stmt hm⟩
  rw [ha.stmt, h.spans.stmtKind ht, StmtKind.map_map]
  refine StmtKind.map_congr_exprs fun x hx => moved_eq h ha hn ?_
  rw [h.spans.slots_stmt ht]
  exact List.mem_map_of_mem hx

/-- Where nothing is replaced, the arena is as before. -/
theorem kept_applied {e : Expr} (he : e ∈ b.root.flatMap Stmt.allExprs)
    (hold : ∀ x ∈ Expr.subexprsOfKind e.kind, x.id ∉ (b.edits callees values).map Edit.old) :
    ∀ s ∈ e.subexprs, s.id < c.exprs.size ∧ c.exprKind s.id = s.kind.map Expr.id := by
  intro s hs
  have hm := mem_allExprs_trans he hs
  refine ⟨Nat.lt_of_lt_of_le (h.expr_lt hm) ha.frame.exprs, ?_⟩
  rw [exprKind_applied h ha hm]
  refine ExprKind.map_congr fun x hx => ha.kept x.id (hold x ?_)
  obtain ⟨id, k⟩ := e
  rcases List.mem_cons.1 hs with rfl | hs
  · rw [Expr.subexprsOfKind_eq]
    exact List.mem_flatMap.2 ⟨x, hx, Expr.mem_subexprs_self x⟩
  · exact Expr.subexprsOfKind_trans hs (Expr.mem_subexprs_child hx)

/-- An operand put into the slot stands for the expression it replaces. -/
theorem standsFor_operand {d : Edit} (hd : d ∈ b.edits callees values) {e : Expr}
    (hsite : b.Site (b.foldFacts callees values) d e) {x : ExprId} (hx : d.rewrite = .operand x) :
    b.StandsFor c (b.foldFacts callees values) σ origin (b.exprTree x) e := by
  have he := hsite.evaluated.mem
  obtain ⟨y, rfl, hsimp⟩ := hsite.operand hx
  have hm := mem_allExprs_trans he (Expr.mem_subexprs_child hsimp.mem_children)
  have hsub := Expr.subexprs_sublist hsimp.mem_children
  rw [h.spans.exprTree hm]
  refine ⟨⟨hsite.evaluated, .inr hsimp⟩, ?_, ?_, ?_⟩
  · rw [hsite.old, ha.operand d hd _ hx]
  · refine kept_applied h ha hm fun s hs => h.not_mem_old hd hsite.old he ?_
    rw [Expr.subexprs_eq] at hsub
    exact hsub.subset (List.mem_cons_of_mem _ hs)
  · have horigin : y.subexprs.map (fun x => origin x.id) = y.subexprs.map Expr.id :=
      List.map_congr_left fun s hs => ha.origin_of_lt _ (h.expr_lt (mem_allExprs_trans hm hs))
    rw [horigin, Expr.subexprs_eq e]
    exact .map _ (hsub.cons _)

/-- A replacement stands for its expression. -/
theorem standsFor_of_replacement {e r : Expr} (he : e ∈ b.root.flatMap Stmt.allExprs)
    (hr : b.replacement (b.edits callees values) σ e.id = some r) :
    b.StandsFor c (b.foldFacts callees values) σ origin r e := by
  obtain ⟨d, hd, hold⟩ := List.mem_map.1 (mem_of_replacement hr)
  obtain ⟨e', hsite⟩ := h.site hd
  obtain rfl : e' = e := h.eq_of_id hsite.evaluated.mem he (hsite.old.trans hold)
  rw [replacement, ← hold, Edit.find?_old (h.ready callees values).nodup hd, Option.map_some,
    Option.some.injEq] at hr
  subst hr
  split
  · next l hl => exact standsFor_literal ha hd hsite hl
  · next x hx => exact standsFor_operand h ha hd hsite hx

/-- The tree with the replacements is where the edits moved the expression. -/
theorem id_subst {e : Expr} (he : e ∈ b.root.flatMap Stmt.allExprs) :
    (e.subst (b.replacement (b.edits callees values) σ)).id = σ e.id := by
  cases hr : b.replacement (b.edits callees values) σ e.id with
  | some r =>
    rw [Expr.subst_of_some hr]
    exact (standsFor_of_replacement h ha he hr).id_eq
  | none =>
    have hm : e.id ∉ (b.edits callees values).map Edit.old := by
      intro hm
      obtain ⟨d, hd, hold⟩ := List.mem_map.1 hm
      rw [replacement, ← hold, Edit.find?_old (h.ready callees values).nodup hd] at hr
      cases hr
    rw [ha.kept e.id hm, Expr.subst_of_none hr]
    rfl

/-- The arena holds the expressions with their replacements. -/
theorem holds_subst {e : Expr} (he : e ∈ b.root.flatMap Stmt.allExprs) :
    ∀ s ∈ (e.subst (b.replacement (b.edits callees values) σ)).subexprs,
      s.id < c.exprs.size ∧ c.exprKind s.id = s.kind.map Expr.id := by
  intro s hs
  obtain ⟨o, ho, ⟨-, rfl⟩ | ⟨r, hr, hs⟩⟩ := Expr.mem_subexprs_subst hs
  · have hm := mem_allExprs_trans he ho
    have hlt : o.id < b.exprs.size := h.expr_lt hm
    refine ⟨Nat.lt_of_lt_of_le hlt ha.frame.exprs, (exprKind_applied h ha hm).trans ?_⟩
    rw [Expr.kind, ExprKind.map_map]
    refine ExprKind.map_congr fun x hx => ?_
    exact (id_subst h ha (mem_allExprs_trans hm (Expr.mem_subexprs_child hx))).symm
  · exact (standsFor_of_replacement h ha (mem_allExprs_trans he ho) hr).held s hs

/-- Every node of the replaced tree comes from one node of the original, in order. -/
theorem ids_subst {e : Expr} (he : e ∈ b.root.flatMap Stmt.allExprs) :
    ((e.subst (b.replacement (b.edits callees values) σ)).subexprs.map fun x => origin x.id).Sublist
      (e.subexprs.map Expr.id) := by
  refine Expr.ids_subst_sublist (fun s hs _ => ?_) fun s hs r hr => ?_
  · exact ha.origin_of_lt _ (h.expr_lt (mem_allExprs_trans he hs))
  · exact (standsFor_of_replacement h ha (mem_allExprs_trans he hs) hr).origins

/-- The trees with their replacements name no node twice: each stands for a node of its own. -/
theorem nodup_subst :
    ((b.root.map (Stmt.mapExprs (Expr.subst (b.replacement (b.edits callees values) σ)))).flatMap
      Stmt.nodes).Nodup := by
  refine List.Nodup.of_map (NodeId.mapExpr origin) (List.Sublist.nodup ?_ h.nodup_nodes)
  rw [List.flatMap_map, List.map_flatMap]
  refine .flatMap_right _ fun s hs => ?_
  rw [Stmt.nodes_mapExprs, List.map_flatMap, Stmt.nodes]
  refine .flatMap_right _ fun t ht => ?_
  rw [List.map_cons, List.map_map, List.map_flatMap, List.map_flatMap]
  refine (List.Sublist.flatMap_right _ fun x hx => ?_).cons_cons _
  have hm := mem_allExprs (List.mem_flatMap.2 ⟨s, hs, ht⟩) hx (Expr.mem_subexprs_self x)
  have hids := (ids_subst h ha hm).map NodeId.expr
  rwa [List.map_map, List.map_map] at hids

/-- The arenas hold the trees of the root block with their replacements. -/
theorem spans_subst :
    c.Spans (b.root.map
      (Stmt.mapExprs (Expr.subst (b.replacement (b.edits callees values) σ)))) where
  block := by
    rw [List.map_map, ha.frame.block, ← h.spans.block]
    exact List.map_congr_left fun s _ => Stmt.id_mapExprs _ s
  holds s' hs' t' ht' := by
    obtain ⟨s, hs, rfl⟩ := List.mem_map.1 hs'
    rw [Stmt.substmts_mapExprs] at ht'
    obtain ⟨t, ht, rfl⟩ := List.mem_map.1 ht'
    have hm := List.mem_flatMap.2 ⟨s, hs, ht⟩
    rw [Stmt.id_mapExprs, Stmt.kind_mapExprs, StmtKind.map_map, StmtKind.exprChildren_map]
    constructor
    · rw [stmtKind_applied h ha hm]
      refine (StmtKind.map_congr_exprs fun x hx => ?_).trans
        (StmtKind.map_congr fun u _ => (Stmt.id_mapExprs _ u).symm)
      exact (id_subst h ha (mem_allExprs hm hx (Expr.mem_subexprs_self x))).symm
    · intro y hy
      obtain ⟨x, hx, rfl⟩ := List.mem_map.1 hy
      have hm := mem_allExprs hm hx (Expr.mem_subexprs_self x)
      exact fun u hu => (holds_subst h ha hm u hu).2
  nodup := nodup_subst h ha
  has n hn := by
    obtain ⟨s', hs', hn⟩ := List.mem_flatMap.1 hn
    obtain ⟨s, hs, rfl⟩ := List.mem_map.1 hs'
    rw [Stmt.nodes_mapExprs] at hn
    obtain ⟨t, ht, hn⟩ := List.mem_flatMap.1 hn
    have hm := List.mem_flatMap.2 ⟨s, hs, ht⟩
    rcases List.mem_cons.1 hn with rfl | hn
    · exact ha.frame.has (n := .stmt t.id) (h.stmt_lt hm)
    · obtain ⟨y, hy, rfl⟩ := List.mem_map.1 hn
      obtain ⟨x, hx, hy⟩ := List.mem_flatMap.1 hy
      exact (holds_subst h ha (mem_allExprs hm hx (Expr.mem_subexprs_self x)) y hy).1

/-- A target is not replaced. -/
theorem replacement_of_target {e : Expr} {reads : Bool} (he : b.Uses (.target reads) e) :
    b.replacement (b.edits callees values) σ e.id = none := by
  cases hr : b.replacement (b.edits callees values) σ e.id with
  | none => rfl
  | some r =>
    have hvalue := (standsFor_of_replacement h ha he.mem hr).replaces.evaluated
    cases (h.uses_unique he hvalue rfl).1

/-- The replacements keep every assignment target one. -/
theorem badTarget?_subst {t : Stmt} (ht : t ∈ b.root.flatMap Stmt.substmts) {x : Expr}
    (hx : x ∈ t.kind.exprChildren) :
    (x.subst (b.replacement (b.edits callees values) σ)).badTarget? = none := by
  have hvalid := Expr.badTarget?_eq_none.1 (h.badTarget? ht hx)
  have hx' := mem_allExprs ht hx (Expr.mem_subexprs_self x)
  refine Expr.badTarget?_eq_none.2 fun s hs u hu => ?_
  obtain ⟨o, ho, ⟨-, rfl⟩ | ⟨r, hr, hs⟩⟩ := Expr.mem_subexprs_subst hs
  · rw [Expr.target?_map, Option.map_eq_some_iff] at hu
    obtain ⟨v, hv, rfl⟩ := hu
    obtain ⟨reads, hrole⟩ := h.uses_target (mem_allExprs_trans hx' ho) hv
    have hkept : ∀ r s, (Role.target r, s) ∈ v.rolesAs (.target reads) →
        b.replacement (b.edits callees values) σ s.id = none :=
      fun r s hs => replacement_of_target h ha (hrole.sub hs)
    exact Expr.isLvalue_subst (hvalid o ho v hv) hkept
  · have hstands := standsFor_of_replacement h ha (mem_allExprs_trans hx' ho) hr
    rcases hstands.replaces.result with ⟨j, l, rfl, -⟩ | hsimp
    · rw [List.mem_singleton.1 hs] at hu
      cases hu
    · have hsub := Expr.subexprs_trans (Expr.mem_subexprs_child hsimp.mem_children) hs
      exact hvalid s (Expr.subexprs_trans ho hsub) u hu

/-- The trees of the root block after the edits. -/
theorem root_applied :
    c.root = b.root.map
      (Stmt.mapExprs (Expr.subst (b.replacement (b.edits callees values) σ))) :=
  (spans_subst h ha).root_eq

/-- The body is accepted after the edits. -/
theorem accepted_applied : c.Accepted := by
  refine (spans_subst h ha).accepted (Stmt.listFault?_mapExprs h.listFault? fun t ht x hx => ?_)
  exact badTarget?_subst h ha ht hx

end

end Body

end Midend
