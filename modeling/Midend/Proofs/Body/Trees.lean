import Midend.Proofs.Tree.Operand

/-!
# Complete trees

Trees are read out of the arenas to a depth. Those of an accepted body are read
completely: the arenas hold every node of them with its children
(`Accepted.spans`). Conversely, trees that the arenas hold, and that name no node
twice, are the trees of the root block (`Spans.root_eq`), so a body whose shape has
no fault in them is accepted (`Spans.accepted`). Every expression in them is in
exactly one slot (`Spans.slots_perm`).
-/

namespace Midend

/-- There are only so many different numbers below a bound. -/
theorem length_le_of_lt {ids : List Nat} {n : Nat} (hn : ids.Nodup) (h : ∀ i ∈ ids, i < n) :
    ids.length ≤ n := by
  have hle := (List.subperm_of_subset hn fun i hi => List.mem_range.2 (h i hi)).length_le
  rwa [List.length_range] at hle

/-- A statement, its own expressions, and what is nested in it. -/
theorem Stmt.nodes_node (id : StmtId) (k : StmtKind Expr Stmt) :
    (node id k).nodes =
      .stmt id :: (k.exprChildren.flatMap fun e => e.subexprs.map (.expr ·.id)) ++
        k.stmtChildren.flatMap nodes := by
  rw [nodes, substmts, substmtsOfKind_eq, List.flatMap_cons, List.flatMap_assoc, List.map_flatMap]
  rfl

namespace Body

variable {b : Body}

@[simp] theorem id_exprTo (d : Nat) (id : ExprId) : (b.exprTo d id).id = id := by
  cases d <;> rfl

@[simp] theorem id_exprTree (id : ExprId) : (b.exprTree id).id = id := by
  rw [exprTree_eq_exprTo, id_exprTo]

@[simp] theorem id_stmtTo (d : Nat) (id : StmtId) : (b.stmtTo d id).id = id := by
  cases d <;> rfl

/-! ## Expressions -/

/-- The arena holds every node of the expression with its operands. -/
def Holds (b : Body) (e : Expr) : Prop := ∀ s ∈ e.subexprs, b.exprKind s.id = s.kind.map Expr.id

/-- The arena holds a tree if it holds the layer and the operands. -/
theorem holds_node {id : ExprId} {k : ExprKind Expr} :
    b.Holds (.node id k) ↔ b.exprKind id = k.map Expr.id ∧ ∀ c ∈ k.children, b.Holds c := by
  unfold Holds
  rw [Expr.subexprs, Expr.subexprsOfKind_eq, List.forall_mem_cons]
  refine and_congr_right fun _ => ⟨fun h c hc s hs => ?_, fun h s hs => ?_⟩
  · exact h s (List.mem_flatMap.2 ⟨c, hc, hs⟩)
  · obtain ⟨c, hc, hs⟩ := List.mem_flatMap.1 hs
    exact h c hc s hs

/-- The arena holds what is below a tree that it holds. -/
theorem Holds.sub {e s : Expr} (h : b.Holds e) (hs : s ∈ e.subexprs) : b.Holds s :=
  fun t ht => h t (Expr.subexprs_trans hs ht)

/-- An expression with no more nodes than the depth is read completely: a path that is cut off
would be longer than that. -/
theorem holds_exprTo :
    ∀ {d : Nat} {id : ExprId}, (b.exprTo d id).subexprs.length ≤ d → b.Holds (b.exprTo d id)
  | 0, _, h => by simp [exprTo, Expr.subexprs] at h
  | d + 1, id, h => by
    rw [exprTo] at h
    rw [exprTo, holds_node]
    constructor
    · rw [ExprKind.map_map]
      exact (ExprKind.map_eq_self fun e _ => id_exprTo d e).symm
    · intro c hc
      have hlt := Expr.length_subexprs_lt (i := id) hc
      rw [ExprKind.children_map] at hc
      obtain ⟨e, -, rfl⟩ := List.mem_map.1 hc
      exact holds_exprTo (by omega)

/-- A tree that the arena holds is what unfolding gives, if it goes deep enough. -/
theorem exprTo_of_holds :
    ∀ {d : Nat} {e : Expr}, b.Holds e → e.subexprs.length ≤ d → b.exprTo d e.id = e
  | 0, .node .., _, h => by simp [Expr.subexprs] at h
  | d + 1, .node id k, hb, h => by
    obtain ⟨hk, hchildren⟩ := holds_node.1 hb
    rw [Expr.id, exprTo, hk, ExprKind.map_map]
    congr 1
    refine ExprKind.map_eq_self fun c hc => exprTo_of_holds (hchildren c hc) ?_
    have hlt := Expr.length_subexprs_lt (i := id) hc
    omega

/-- A tree that the arena holds is the tree of its identifier. -/
theorem exprTree_of_holds {e : Expr} (h : b.Holds e) (hlen : e.subexprs.length ≤ b.exprs.size) :
    b.exprTree e.id = e := by
  rw [exprTree_eq_exprTo]
  exact exprTo_of_holds h (Nat.le_trans hlen (Nat.le_add_right _ _))

/-- A search from an expression finds only the nodes of its tree. -/
theorem below_of_holds {e : Expr} (h : b.Holds e) (d : Nat) :
    (b.below d (.expr e.id)).Sublist (e.subexprs.map (.expr ·.id)) := by
  induction e using Expr.ofChildren generalizing d with
  | node id k ih =>
    obtain ⟨hk, hchildren⟩ := holds_node.1 h
    rw [Expr.subexprs, Expr.subexprsOfKind_eq, List.map_cons, List.map_flatMap]
    cases d with
    | zero => exact (List.nil_sublist _).cons_cons _
    | succ d =>
      rw [below, nodeChildren, Expr.id, hk, ExprKind.children_map, List.map_map, List.flatMap_map]
      exact (List.Sublist.flatMap_right _ fun c hc => ih c hc (hchildren c hc) d).cons_cons _

/-! ## Statements -/

/-- The arenas hold every node of the statement with its children. -/
def HoldsStmt (b : Body) (s : Stmt) : Prop :=
  ∀ t ∈ s.substmts,
    b.stmtKind t.id = t.kind.map Expr.id Stmt.id ∧ ∀ x ∈ t.kind.exprChildren, b.Holds x

/-- The arenas hold a statement if they hold its layer and its parts. -/
theorem holdsStmt_node {id : StmtId} {k : StmtKind Expr Stmt} :
    b.HoldsStmt (.node id k) ↔
      (b.stmtKind id = k.map Expr.id Stmt.id ∧ ∀ x ∈ k.exprChildren, b.Holds x) ∧
        ∀ c ∈ k.stmtChildren, b.HoldsStmt c := by
  unfold HoldsStmt
  rw [Stmt.substmts, Stmt.substmtsOfKind_eq, List.forall_mem_cons]
  refine and_congr_right fun _ => ⟨fun h c hc s hs => ?_, fun h s hs => ?_⟩
  · exact h s (List.mem_flatMap.2 ⟨c, hc, hs⟩)
  · obtain ⟨c, hc, hs⟩ := List.mem_flatMap.1 hs
    exact h c hc s hs

/-- A statement that was unfolded to its end is held by the arenas. -/
theorem holdsStmt_stmtTo :
    ∀ {d : Nat} {id : StmtId}, (b.stmtTo d id).substmts.length ≤ d →
      (∀ t ∈ (b.stmtTo d id).substmts, ∀ x ∈ t.kind.exprChildren, b.Holds x) →
      b.HoldsStmt (b.stmtTo d id)
  | 0, _, h, _ => by simp [stmtTo, Stmt.substmts] at h
  | d + 1, id, h, hx => by
    rw [stmtTo] at h hx
    rw [stmtTo, holdsStmt_node]
    refine ⟨⟨?_, hx _ List.mem_cons_self⟩, fun c hc => ?_⟩
    · rw [StmtKind.map_map]
      exact (StmtKind.map_eq_self (fun e _ => id_exprTree e) fun s _ => id_stmtTo d s).symm
    · have hlt := Stmt.length_substmts_lt (i := id) hc
      have hsub := Stmt.substmts_subset (i := id) hc
      rw [StmtKind.stmtChildren_map] at hc
      obtain ⟨s, -, rfl⟩ := List.mem_map.1 hc
      exact holdsStmt_stmtTo (by omega) fun t ht => hx t (hsub ht)

/-- A statement that the arenas hold is what unfolding gives, if it goes deep enough. -/
theorem stmtTo_of_holds :
    ∀ {d : Nat} {s : Stmt}, b.HoldsStmt s → s.substmts.length ≤ d →
      (∀ t ∈ s.substmts, ∀ x ∈ t.kind.exprChildren, x.subexprs.length ≤ b.exprs.size) →
      b.stmtTo d s.id = s
  | 0, .node .., _, h, _ => by simp [Stmt.substmts] at h
  | d + 1, .node id k, hb, h, hx => by
    obtain ⟨⟨hk, hexprs⟩, hnested⟩ := holdsStmt_node.1 hb
    rw [Stmt.id, stmtTo, hk, StmtKind.map_map]
    congr 1
    refine StmtKind.map_eq_self (fun x hm => ?_) fun c hc => ?_
    · exact exprTree_of_holds (hexprs x hm) (hx _ List.mem_cons_self x hm)
    · have hlt := Stmt.length_substmts_lt (i := id) hc
      refine stmtTo_of_holds (hnested c hc) (by omega) fun t ht => hx t ?_
      exact Stmt.substmts_subset hc ht

/-- A search from a statement finds only the nodes of its tree. -/
theorem below_of_holdsStmt {s : Stmt} (h : b.HoldsStmt s) (d : Nat) :
    (b.below d (.stmt s.id)).Sublist s.nodes := by
  induction s using Stmt.ofChildren generalizing d with
  | node id k ih =>
    obtain ⟨⟨hk, hexprs⟩, hnested⟩ := holdsStmt_node.1 h
    rw [Stmt.nodes_node, List.cons_append]
    cases d with
    | zero => exact (List.nil_sublist _).cons_cons _
    | succ d =>
      rw [below, nodeChildren, Stmt.id, hk, StmtKind.exprChildren_map, StmtKind.stmtChildren_map,
        List.map_map, List.map_map, List.flatMap_append, List.flatMap_map, List.flatMap_map]
      refine (List.Sublist.append ?_ ?_).cons_cons _
      · exact .flatMap_right _ fun x hm => below_of_holds (hexprs x hm) d
      · exact .flatMap_right _ fun c hc => ih c hc (hnested c hc) d

/-! ## Slots -/

/-- The expressions that a node itself names, in order. -/
def slots (b : Body) : NodeId → List ExprId
  | .expr id => (b.exprKind id).children
  | .stmt id => (b.stmtKind id).exprChildren

/-- Every operand is in one slot. -/
theorem slots_subexprs {e : Expr} (h : b.Holds e) :
    (e.id :: (e.subexprs.map (.expr ·.id)).flatMap b.slots).Perm (e.subexprs.map Expr.id) := by
  induction e using Expr.ofChildren with
  | node id k ih =>
    obtain ⟨hk, hchildren⟩ := holds_node.1 h
    have hslots : b.slots (.expr id) = k.children.map Expr.id := by
      rw [slots, hk, ExprKind.children_map]
    rw [Expr.subexprs, Expr.subexprsOfKind_eq, List.map_cons, List.flatMap_cons, List.map_cons,
      List.map_flatMap, List.map_flatMap, List.flatMap_assoc]
    refine .cons _ ?_
    rw [Expr.id, hslots]
    refine (List.map_append_flatMap_perm ..).trans ?_
    exact .flatMap_left _ fun c hc => ih c hc (hchildren c hc)

/-- The slots of a statement's nodes hold its expressions, each once. -/
theorem slots_nodes {s : Stmt} (h : b.HoldsStmt s) :
    (s.nodes.flatMap b.slots).Perm (s.allExprs.map Expr.id) := by
  induction s using Stmt.ofChildren with
  | node id k ih =>
    obtain ⟨⟨hk, hexprs⟩, hnested⟩ := holdsStmt_node.1 h
    have hslots : b.slots (.stmt id) = k.exprChildren.map Expr.id := by
      rw [slots, hk, StmtKind.exprChildren_map]
    rw [Stmt.nodes_node, Stmt.allExprs, Stmt.substmts, Stmt.substmtsOfKind_eq, List.flatMap_cons,
      List.cons_append, List.flatMap_cons, hslots, List.flatMap_append, List.flatMap_assoc,
      List.map_append, List.flatMap_assoc, List.flatMap_assoc, List.map_flatMap, List.map_flatMap,
      ← List.append_assoc]
    refine .append ?_ (.flatMap_left _ fun c hc => ih c hc (hnested c hc))
    refine (List.map_append_flatMap_perm ..).trans ?_
    exact .flatMap_left _ fun x hm => slots_subexprs (hexprs x hm)

/-! ## Root blocks -/

/-- The trees of the root block, held completely by the arenas and naming no node twice. -/
structure Spans (b : Body) (roots : List Stmt) : Prop where
  block : roots.map Stmt.id = b.block
  holds : ∀ s ∈ roots, b.HoldsStmt s
  nodup : (roots.flatMap Stmt.nodes).Nodup
  has : ∀ n ∈ roots.flatMap Stmt.nodes, b.Has n

section

variable {roots : List Stmt} (hnodup : (roots.flatMap Stmt.nodes).Nodup)
  (hhas : ∀ n ∈ roots.flatMap Stmt.nodes, b.Has n)

include hnodup hhas

/-- A statement has no more statements in it than the arena. -/
theorem length_substmts_le {s : Stmt} (hs : s ∈ roots) : s.substmts.length ≤ b.stmts.size := by
  rw [← List.length_map Stmt.id]
  refine length_le_of_lt ?_ fun i hi => ?_
  · refine List.Sublist.nodup (List.Sublist.map _ ?_) (Stmt.nodup_stmtIds hnodup)
    exact sublist_flatMap hs
  · obtain ⟨t, ht, rfl⟩ := List.mem_map.1 hi
    exact hhas (.stmt t.id) (List.mem_flatMap.2 ⟨s, hs, Stmt.mem_nodes_stmt ht⟩)

/-- An expression has no more nodes than the arena. -/
theorem length_subexprs_le {s : Stmt} (hs : s ∈ roots) {t : Stmt} (ht : t ∈ s.substmts) {x : Expr}
    (hx : x ∈ t.kind.exprChildren) : x.subexprs.length ≤ b.exprs.size := by
  have hown : x.subexprs.Sublist s.allExprs :=
    (sublist_flatMap hx).trans
      (sublist_flatMap (f := fun t : Stmt => t.kind.exprChildren.flatMap Expr.subexprs) ht)
  have hsub : x.subexprs.Sublist (roots.flatMap Stmt.allExprs) := hown.trans (sublist_flatMap hs)
  rw [← List.length_map Expr.id]
  have hids : (x.subexprs.map Expr.id).Nodup :=
    List.Sublist.nodup (hsub.map _) (Stmt.nodup_exprIds hnodup)
  refine length_le_of_lt hids fun i hi => ?_
  obtain ⟨e, he, rfl⟩ := List.mem_map.1 hi
  obtain ⟨r, hr, he⟩ := List.mem_flatMap.1 (hsub.subset he)
  exact hhas (.expr e.id) (List.mem_flatMap.2 ⟨r, hr, Stmt.mem_nodes_expr he⟩)

end

/-- The expressions of a statement are trees of the arena. -/
theorem exists_eq_exprTree {x : Expr} :
    ∀ {d : Nat} {id : StmtId} {t : Stmt}, t ∈ (b.stmtTo d id).substmts →
      x ∈ t.kind.exprChildren → ∃ i, x = b.exprTree i
  | 0, _, t, ht, hx => by
    rw [List.mem_singleton.1 ht] at hx
    cases hx
  | d + 1, id, t, ht, hx => by
    rw [stmtTo, Stmt.substmts, Stmt.substmtsOfKind_eq, StmtKind.stmtChildren_map] at ht
    rcases List.mem_cons.1 ht with rfl | ht
    · rw [Stmt.kind, StmtKind.exprChildren_map] at hx
      obtain ⟨i, -, rfl⟩ := List.mem_map.1 hx
      exact ⟨i, rfl⟩
    · obtain ⟨c, hc, ht⟩ := List.mem_flatMap.1 ht
      obtain ⟨s, -, rfl⟩ := List.mem_map.1 hc
      exact exists_eq_exprTree ht hx

/-- If no node is shared, the arenas hold the trees of the root block. -/
theorem spans (hb : ∀ n, b.Reaches n → b.Has n) (htree : b.sharedNode? = none) :
    b.Spans b.root := by
  have hnodup := nodup_nodes hb htree
  have hhas : ∀ n ∈ b.root.flatMap Stmt.nodes, b.Has n := fun n hn => hb n (reaches_of_mem_nodes hn)
  refine ⟨?_, fun s hs => ?_, hnodup, hhas⟩
  · rw [root, List.map_map]
    refine (List.map_congr_left fun i _ => ?_).trans (List.map_id _)
    rw [Function.comp, stmtTree_eq_stmtTo, id_stmtTo]
    rfl
  · have hlen := length_substmts_le hnodup hhas hs
    have hexprs := @length_subexprs_le b _ hnodup hhas s hs
    obtain ⟨i, -, rfl⟩ := List.mem_map.1 hs
    rw [stmtTree_eq_stmtTo] at hlen hexprs ⊢
    refine holdsStmt_stmtTo hlen fun t ht x hx => ?_
    have hle := hexprs ht hx
    obtain ⟨j, rfl⟩ := exists_eq_exprTree ht hx
    rw [exprTree_eq_exprTo] at hle ⊢
    exact holds_exprTo (Nat.le_trans hle (Nat.le_add_right _ _))

/-- The arenas of an accepted body hold the trees of its root block. -/
theorem Accepted.spans (h : b.Accepted) : b.Spans b.root := Body.spans h.has h.sharedNode

namespace Spans

variable {roots : List Stmt}

/-- The statement is the tree of its identifier. -/
theorem stmtTree (h : b.Spans roots) {t : Stmt} (ht : t ∈ roots.flatMap Stmt.substmts) :
    b.stmtTree t.id = t := by
  obtain ⟨s, hs, ht⟩ := List.mem_flatMap.1 ht
  have hsub : ∀ u ∈ t.substmts, u ∈ s.substmts := fun u hu => Stmt.substmts_trans ht hu
  rw [stmtTree_eq_stmtTo]
  refine stmtTo_of_holds (fun u hu => h.holds s hs u (hsub u hu)) ?_ fun u hu x hx => ?_
  · exact Nat.le_trans (Stmt.substmts_sublist ht).length_le (length_substmts_le h.nodup h.has hs)
  · exact length_subexprs_le h.nodup h.has hs (hsub u hu) hx

/-- Trees that the arenas hold are those of the root block. -/
theorem root_eq (h : b.Spans roots) : b.root = roots := by
  rw [root, ← h.block, List.map_map]
  refine (List.map_congr_left fun s hs => ?_).trans (List.map_id _)
  exact h.stmtTree (List.mem_flatMap.2 ⟨s, hs, Stmt.mem_substmts_self s⟩)

/-- The nodes of a tree are those that its statement leads to. -/
theorem mem_nodes_iff (h : b.Spans roots) {t : Stmt} (ht : t ∈ roots.flatMap Stmt.substmts)
    {n : NodeId} : n ∈ t.nodes ↔ b.LeadsTo (.stmt t.id) n := by
  constructor
  · intro hn
    rw [← h.stmtTree ht, stmtTree_eq_stmtTo] at hn
    exact .of_mem_below ((b.nodes_stmtTo _ _).subset hn)
  · intro hn
    obtain ⟨s, hs, ht⟩ := List.mem_flatMap.1 ht
    obtain ⟨d, hd⟩ := hn.exists_below
    have hheld : b.HoldsStmt t := fun u hu => h.holds s hs u (Stmt.substmts_trans ht hu)
    exact (below_of_holdsStmt hheld d).subset hd

/-- The arena has the layer of the statement. -/
theorem stmtKind (h : b.Spans roots) {t : Stmt} (ht : t ∈ roots.flatMap Stmt.substmts) :
    b.stmtKind t.id = t.kind.map Expr.id Stmt.id := by
  obtain ⟨s, hs, ht⟩ := List.mem_flatMap.1 ht
  exact (h.holds s hs t ht).1

/-- The expressions of the root block are held completely. -/
theorem holdsExpr (h : b.Spans roots) {e : Expr} (he : e ∈ roots.flatMap Stmt.allExprs) :
    b.Holds e := by
  obtain ⟨s, hs, he⟩ := List.mem_flatMap.1 he
  obtain ⟨t, ht, he⟩ := List.mem_flatMap.1 he
  obtain ⟨x, hx, he⟩ := List.mem_flatMap.1 he
  exact ((h.holds s hs t ht).2 x hx).sub he

/-- An expression of the body has no more nodes than the arena. -/
theorem length_le (h : b.Spans roots) {e : Expr} (he : e ∈ roots.flatMap Stmt.allExprs) :
    e.subexprs.length ≤ b.exprs.size := by
  obtain ⟨s, hs, he⟩ := List.mem_flatMap.1 he
  obtain ⟨t, ht, he⟩ := List.mem_flatMap.1 he
  obtain ⟨x, hx, he⟩ := List.mem_flatMap.1 he
  exact Nat.le_trans (Expr.length_subexprs_le he) (length_subexprs_le h.nodup h.has hs ht hx)

/-- The expression is the tree of its identifier. -/
theorem exprTree (h : b.Spans roots) {e : Expr} (he : e ∈ roots.flatMap Stmt.allExprs) :
    b.exprTree e.id = e :=
  exprTree_of_holds (h.holdsExpr he) (h.length_le he)

/-- The slots of a statement hold the roots of its expressions. -/
theorem slots_stmt (h : b.Spans roots) {t : Stmt} (ht : t ∈ roots.flatMap Stmt.substmts) :
    b.slots (.stmt t.id) = t.kind.exprChildren.map Expr.id := by
  rw [slots, h.stmtKind ht, StmtKind.exprChildren_map]

/-- The slots of an expression hold the roots of its operands. -/
theorem slots_expr (h : b.Spans roots) {e : Expr} (he : e ∈ roots.flatMap Stmt.allExprs) :
    b.slots (.expr e.id) = e.kind.children.map Expr.id := by
  rw [slots, h.holdsExpr he e (Expr.mem_subexprs_self e), ExprKind.children_map]

/-- A search from the root block finds only nodes of the trees. -/
theorem below_sublist (h : b.Spans roots) (d : Nat) :
    ((b.block.map .stmt).flatMap (b.below d)).Sublist (roots.flatMap Stmt.nodes) := by
  rw [← h.block, List.map_map, List.flatMap_map]
  exact .flatMap_right _ fun s hs => below_of_holdsStmt (h.holds s hs) d

/-- Every expression of the root block is in exactly one slot. -/
theorem slots_perm (h : b.Spans roots) :
    ((roots.flatMap Stmt.nodes).flatMap b.slots).Perm
      ((roots.flatMap Stmt.allExprs).map Expr.id) := by
  rw [List.flatMap_assoc, List.map_flatMap]
  exact .flatMap_left _ fun s hs => slots_nodes (h.holds s hs)

end Spans

/-! ## Accepting -/

/-- A reachable node is found by a search that is deep enough. -/
theorem Reaches.exists_below {n : NodeId} (h : b.Reaches n) :
    ∃ d, n ∈ (b.block.map .stmt).flatMap (b.below d) := by
  obtain ⟨s, hs, h⟩ := b.reaches_iff_leadsTo.1 h
  obtain ⟨d, hd⟩ := h.exists_below
  exact ⟨d, List.mem_flatMap.2 ⟨.stmt s, List.mem_map_of_mem hs, hd⟩⟩

/-- What is reached is what the trees of the root block name. -/
theorem Spans.reaches_iff (h : b.Spans b.root) {n : NodeId} :
    b.Reaches n ↔ n ∈ b.root.flatMap Stmt.nodes := by
  refine ⟨fun hn => ?_, reaches_of_mem_nodes⟩
  obtain ⟨d, hd⟩ := hn.exists_below
  exact (h.below_sublist d).subset hd

/-- The reachable nodes of an accepted body are those of its trees. -/
theorem Accepted.reaches_iff (h : b.Accepted) {n : NodeId} :
    b.Reaches n ↔ n ∈ b.root.flatMap Stmt.nodes := h.spans.reaches_iff

/-- A statement that is reached is one of the root block. -/
theorem Spans.exists_stmt (h : b.Spans b.root) {id : StmtId} (hid : b.Reaches (.stmt id)) :
    ∃ s ∈ b.root.flatMap Stmt.substmts, s.id = id := by
  obtain ⟨r, hr, hn⟩ := List.mem_flatMap.1 (h.reaches_iff.1 hid)
  obtain ⟨s, hs, hid⟩ := Stmt.stmt_mem_nodes.1 hn
  exact ⟨s, List.mem_flatMap.2 ⟨r, hr, hs⟩, hid⟩

/-- A reachable statement of an accepted body is in its trees. -/
theorem Accepted.exists_stmt (h : b.Accepted) {id : StmtId} (hid : b.Reaches (.stmt id)) :
    ∃ s ∈ b.root.flatMap Stmt.substmts, s.id = id := h.spans.exists_stmt hid

/-- An expression that is reached is one of a statement of the root block. -/
theorem Accepted.exists_expr (h : b.Accepted) {id : ExprId} (hid : b.Reaches (.expr id)) :
    ∃ s ∈ b.root.flatMap Stmt.substmts, ∃ x ∈ s.kind.exprChildren, ∃ e ∈ x.subexprs, e.id = id := by
  obtain ⟨r, hr, hn⟩ := List.mem_flatMap.1 (h.reaches_iff.1 hid)
  obtain ⟨e, he, hid⟩ := Stmt.expr_mem_nodes.1 hn
  obtain ⟨s, hs, he⟩ := List.mem_flatMap.1 he
  obtain ⟨x, hx, he⟩ := List.mem_flatMap.1 he
  exact ⟨s, List.mem_flatMap.2 ⟨r, hr, hs⟩, x, hx, e, he, hid⟩

/-- A walk finds no shared node if nothing lies twice below its stack, nor has been met before. -/
theorem findShared_eq_none :
    ∀ {steps : Nat} {visited : Visited} {stack : List NodeId},
      (∀ d, (stack.flatMap (b.below d)).Nodup) →
      (∀ d, ∀ n ∈ stack.flatMap (b.below d), visited.contains n = false) →
      b.findShared steps visited stack = none
  | _, _, [], _, _ => by
    unfold findShared
    rfl
  | 0, _, _ :: _, _, _ => rfl
  | steps + 1, visited, n :: stack, hnodup, hnew => by
    have hperm : ∀ d, (((b.nodeChildren n).reverse ++ stack).flatMap (b.below d)).Perm
        ((b.nodeChildren n ++ stack).flatMap (b.below d)) := fun d =>
      ((List.reverse_perm _).append_right stack).flatMap_right _
    have hsub : ∀ d, (n :: (b.nodeChildren n ++ stack).flatMap (b.below d)).Sublist
        ((n :: stack).flatMap (b.below (d + 1))) := by
      intro d
      rw [List.flatMap_cons, below, List.flatMap_append, ← List.cons_append]
      exact .append (.refl _) (.flatMap_right _ fun m _ => b.below_sublist (Nat.le_succ d) m)
    have hn : visited.contains n = false := by
      refine hnew 0 n (List.mem_flatMap.2 ⟨n, List.mem_cons_self, List.mem_singleton_self n⟩)
    rw [findShared, hn, if_neg Bool.false_ne_true]
    refine findShared_eq_none (fun d => ?_) fun d m hm => ?_
    · exact (hperm d).nodup_iff.2 (List.nodup_cons.1 ((hsub d).nodup (hnodup (d + 1)))).2
    · have hm := (hperm d).mem_iff.1 hm
      have hold := hnew (d + 1) m ((hsub d).subset (List.mem_cons_of_mem _ hm))
      have hne : m ≠ n := by
        rintro rfl
        exact (List.nodup_cons.1 ((hsub d).nodup (hnodup (d + 1)))).1 hm
      rw [← Bool.not_eq_true, Visited.contains_insert, not_or, Bool.not_eq_true]
      exact ⟨hold, hne⟩

/-- A body whose arenas hold the trees of its root block is accepted if these have no fault. -/
theorem Spans.accepted {roots : List Stmt} (h : b.Spans roots)
    (hfault : Stmt.listFault? false false roots = none) : b.Accepted where
  has n hn := by
    obtain ⟨d, hd⟩ := hn.exists_below
    exact h.has n ((h.below_sublist d).subset hd)
  valid := by
    have hshared : b.sharedNode? = none := by
      refine findShared_eq_none (fun d => (h.below_sublist d).nodup h.nodup) fun d n _ => ?_
      rw [← Bool.not_eq_true]
      cases n <;> simp [Visited.contains, IdSet.contains_iff]
    rw [validate, hshared, h.root_eq]
    exact hfault

end Body

end Midend
