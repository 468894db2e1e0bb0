import Mathlib.Data.List.Flatten
import Mathlib.Data.List.Nodup
import Mathlib.Data.List.Pairwise
import Mathlib.Data.List.Perm.Subperm
import Mathlib.Logic.Relation
import Midend.Body.Validate

/-!
# Single parents

`Body.validate` walks through everything below the root block and stops at a node
that it meets twice. If it finds none, the trees of the root block name every
statement and every expression at most once (`Accepted.nodup_stmtIds`,
`Accepted.nodup_exprIds`), so what an analysis reports by identifier is about one
node.

The walk takes as many steps as the arenas have nodes. That is enough if every
node it can reach is in them, as a node outside could not be visited at all.
-/

namespace Midend

/-- If no element occurs twice, only one member of the list gives it. -/
theorem eq_of_nodup_flatMap {α β : Type} {f : α → List β} {l : List α} (h : (l.flatMap f).Nodup)
    {a c : α} (ha : a ∈ l) (hc : c ∈ l) {x : β} (hxa : x ∈ f a) (hxc : x ∈ f c) : a = c := by
  have hsymm : Std.Symm (Function.onFun List.Disjoint f) := ⟨fun _ _ hd _ hx hy => hd hy hx⟩
  by_contra hne
  exact (List.nodup_flatMap.1 h).2.forall ha hc hne hxa hxc

/-! ## Children of trees -/

theorem ExprKind.children_map {ε δ : Type} (f : ε → δ) (k : ExprKind ε) :
    (k.map f).children = k.children.map f := by
  cases k with
  | field receiver name isStatic => cases receiver <;> rfl
  | call receiver callee args => cases receiver <;> simp [map, children]
  | _ => simp [map, children]

theorem StmtKind.exprChildren_map {ε δ σ τ : Type} (f : ε → δ) (g : σ → τ) (k : StmtKind ε σ) :
    (k.map f g).exprChildren = k.exprChildren.map f := by
  cases k with
  | decl v init => cases init <;> rfl
  | forLoop init cond update body => cases cond <;> simp [map, exprChildren]
  | switch selector cases =>
    simp [map, exprChildren, List.flatMap_map, List.map_flatMap]
  | assert cond message => cases message <;> rfl
  | ret e => cases e <;> rfl
  | _ => rfl

theorem StmtKind.stmtChildren_map {ε δ σ τ : Type} (f : ε → δ) (g : σ → τ) (k : StmtKind ε σ) :
    (k.map f g).stmtChildren = k.stmtChildren.map g := by
  cases k with
  | branch cond onTrue onFalse => cases onFalse <;> rfl
  | forLoop init cond update body => simp [map, stmtChildren]
  | switch selector cases =>
    simp [map, stmtChildren, List.flatMap_map, List.map_flatMap]
  | guarded resources body catches finalizer =>
    cases finalizer <;> simp [map, stmtChildren, List.flatMap_map, List.map_flatMap]
  | _ => rfl

namespace Expr

/-- An expression is among the expressions of its tree. -/
theorem mem_subexprs_self : ∀ e : Expr, e ∈ e.subexprs
  | node .. => List.mem_cons_self

theorem sublist_subexprs : ∀ es : List Expr, es.Sublist (es.flatMap subexprs)
  | [] => .slnil
  | node id kind :: es => by
    rw [List.flatMap_cons]
    exact .cons_cons _ ((sublist_subexprs es).trans (List.sublist_append_right _ _))

theorem subexprsOfList_eq (es : List Expr) : subexprsOfList es = es.flatMap subexprs := by
  induction es with
  | nil => rfl
  | cons e es ih => rw [subexprsOfList, ih, List.flatMap_cons]

/-- The expressions below a layer are those of its operands, in order. -/
theorem subexprsOfKind_eq (k : ExprKind Expr) :
    subexprsOfKind k = k.children.flatMap subexprs := by
  cases k with
  | field receiver name isStatic =>
    cases receiver <;> simp [subexprsOfKind, ExprKind.children]
  | call receiver callee args =>
    cases receiver <;> simp [subexprsOfKind, ExprKind.children, subexprsOfList_eq]
  | _ => simp [subexprsOfKind, ExprKind.children, subexprsOfList_eq]

mutual

/-- An operand of an operand is an operand. -/
theorem subexprs_trans :
    ∀ {x e s : Expr}, e ∈ x.subexprs → s ∈ e.subexprs → s ∈ x.subexprs
  | node id kind, e, s, he, hs => by
    rcases List.mem_cons.1 he with rfl | he
    · exact hs
    · exact List.mem_cons_of_mem _ (subexprsOfKind_trans he hs)
termination_by structural x => x

/-- What is below an operand is below the layer. -/
theorem subexprsOfKind_trans :
    ∀ {k : ExprKind Expr} {e s : Expr}, e ∈ subexprsOfKind k → s ∈ e.subexprs →
      s ∈ subexprsOfKind k
  | .field (some _) .., _, _, he, hs | .unary .., _, _, he, hs | .paren _, _, _, he, hs
  | .cast .., _, _, he, hs | .instanceOf .., _, _, he, hs => subexprs_trans he hs
  | .assign .., _, _, he, hs | .binary .., _, _, he, hs | .index .., _, _, he, hs => by
    refine List.mem_append.2 ((List.mem_append.1 he).imp (fun he => ?_) fun he => ?_)
    · exact subexprs_trans he hs
    · exact subexprs_trans he hs
  | .conditional .., _, _, he, hs => by
    simp only [subexprsOfKind, List.mem_append] at he ⊢
    refine he.imp (fun he => ?_) (.imp (fun he => ?_) fun he => ?_)
    · exact subexprs_trans he hs
    · exact subexprs_trans he hs
    · exact subexprs_trans he hs
  | .call none .., _, _, he, hs | .create .., _, _, he, hs => subexprsOfList_trans he hs
  | .call (some _) .., _, _, he, hs => by
    refine List.mem_append.2 ((List.mem_append.1 he).imp (fun he => ?_) fun he => ?_)
    · exact subexprs_trans he hs
    · exact subexprsOfList_trans he hs
  | .lit _, _, _, he, _ | .var _, _, _, he, _ | .err, _, _, he, _ | .field none .., _, _, he, _ =>
    nomatch he
termination_by structural k => k

theorem subexprsOfList_trans :
    ∀ {es : List Expr} {e s : Expr}, e ∈ subexprsOfList es → s ∈ e.subexprs →
      s ∈ subexprsOfList es
  | [], _, _, he, _ => nomatch he
  | x :: xs, _, _, he, hs => by
    refine List.mem_append.2 ((List.mem_append.1 he).imp (fun he => ?_) fun he => ?_)
    · exact subexprs_trans he hs
    · exact subexprsOfList_trans he hs
termination_by structural es => es

end

end Expr

namespace Stmt

theorem substmtsOfList_eq (ss : List Stmt) : substmtsOfList ss = ss.flatMap substmts := by
  induction ss with
  | nil => rfl
  | cons s ss ih => rw [substmtsOfList, ih, List.flatMap_cons]

theorem substmtsOfCases_eq (cs : List (SwitchCase Expr Stmt)) :
    substmtsOfCases cs = (cs.flatMap (·.body)).flatMap substmts := by
  induction cs with
  | nil => rfl
  | cons c cs ih =>
    rw [substmtsOfCases, ih, substmtsOfList_eq, List.flatMap_cons, List.flatMap_append]

theorem substmtsOfCatches_eq (cs : List (CatchClause Stmt)) :
    substmtsOfCatches cs = (cs.flatMap (·.body)).flatMap substmts := by
  induction cs with
  | nil => rfl
  | cons c cs ih =>
    rw [substmtsOfCatches, ih, substmtsOfList_eq, List.flatMap_cons, List.flatMap_append]

/-- The statements below a layer are those of its children, in order. -/
theorem substmtsOfKind_eq (k : StmtKind Expr Stmt) :
    substmtsOfKind k = k.stmtChildren.flatMap substmts := by
  cases k with
  | branch cond onTrue onFalse =>
    cases onFalse <;> simp [substmtsOfKind, StmtKind.stmtChildren]
  | guarded resources body catches finalizer =>
    cases finalizer <;>
      simp [substmtsOfKind, StmtKind.stmtChildren, substmtsOfList_eq, substmtsOfCatches_eq]
  | _ => simp [substmtsOfKind, StmtKind.stmtChildren, substmtsOfList_eq, substmtsOfCases_eq]

mutual

/-- What is nested in a nested statement is nested. -/
theorem substmts_trans :
    ∀ {s t u : Stmt}, t ∈ s.substmts → u ∈ t.substmts → u ∈ s.substmts
  | node id kind, t, u, ht, hu => by
    rcases List.mem_cons.1 ht with rfl | ht
    · exact hu
    · exact List.mem_cons_of_mem _ (substmtsOfKind_trans ht hu)
termination_by structural s => s

/-- What is below a child is below the layer. -/
theorem substmtsOfKind_trans :
    ∀ {k : StmtKind Expr Stmt} {t u : Stmt}, t ∈ substmtsOfKind k → u ∈ t.substmts →
      u ∈ substmtsOfKind k
  | .block _, _, _, ht, hu => substmtsOfList_trans ht hu
  | .branch _ _ none, _, _, ht, hu | .whileLoop .., _, _, ht, hu | .doLoop .., _, _, ht, hu
  | .forEach .., _, _, ht, hu => substmts_trans ht hu
  | .branch _ _ (some _), _, _, ht, hu => by
    refine List.mem_append.2 ((List.mem_append.1 ht).imp (fun ht => ?_) fun ht => ?_)
    · exact substmts_trans ht hu
    · exact substmts_trans ht hu
  | .forLoop .., _, _, ht, hu => by
    refine List.mem_append.2 ((List.mem_append.1 ht).imp (fun ht => ?_) fun ht => ?_)
    · exact substmtsOfList_trans ht hu
    · exact substmts_trans ht hu
  | .switch .., _, _, ht, hu => substmtsOfCases_trans ht hu
  | .guarded _ _ _ none, _, _, ht, hu => by
    simp only [substmtsOfKind, List.mem_append] at ht ⊢
    refine ht.imp (.imp (fun ht => ?_) fun ht => ?_) fun ht => ?_
    · exact substmtsOfList_trans ht hu
    · exact substmtsOfList_trans ht hu
    · exact substmtsOfCatches_trans ht hu
  | .guarded _ _ _ (some _), _, _, ht, hu => by
    simp only [substmtsOfKind, List.mem_append] at ht ⊢
    refine ht.imp (.imp (.imp (fun ht => ?_) fun ht => ?_) fun ht => ?_) fun ht => ?_
    · exact substmtsOfList_trans ht hu
    · exact substmtsOfList_trans ht hu
    · exact substmtsOfCatches_trans ht hu
    · exact substmtsOfList_trans ht hu
  | .decl .., _, _, ht, _ | .expr _, _, _, ht, _ | .throw _, _, _, ht, _ | .assert .., _, _, ht, _
  | .ret _, _, _, ht, _ | .breakOut, _, _, ht, _ | .continueLoop, _, _, ht, _ | .empty, _, _, ht, _
  | .err, _, _, ht, _ => nomatch ht
termination_by structural k => k

theorem substmtsOfList_trans :
    ∀ {ss : List Stmt} {t u : Stmt}, t ∈ substmtsOfList ss → u ∈ t.substmts →
      u ∈ substmtsOfList ss
  | [], _, _, ht, _ => nomatch ht
  | s :: ss, _, _, ht, hu => by
    refine List.mem_append.2 ((List.mem_append.1 ht).imp (fun ht => ?_) fun ht => ?_)
    · exact substmts_trans ht hu
    · exact substmtsOfList_trans ht hu
termination_by structural ss => ss

theorem substmtsOfCases_trans :
    ∀ {cs : List (SwitchCase Expr Stmt)} {t u : Stmt}, t ∈ substmtsOfCases cs → u ∈ t.substmts →
      u ∈ substmtsOfCases cs
  | [], _, _, ht, _ => nomatch ht
  | ⟨_, _, body⟩ :: cs, _, _, ht, hu => by
    refine List.mem_append.2 ((List.mem_append.1 ht).imp (fun ht => ?_) fun ht => ?_)
    · exact substmtsOfList_trans ht hu
    · exact substmtsOfCases_trans ht hu
termination_by structural cs => cs

theorem substmtsOfCatches_trans :
    ∀ {cs : List (CatchClause Stmt)} {t u : Stmt}, t ∈ substmtsOfCatches cs → u ∈ t.substmts →
      u ∈ substmtsOfCatches cs
  | [], _, _, ht, _ => nomatch ht
  | ⟨_, _, body⟩ :: cs, _, _, ht, hu => by
    refine List.mem_append.2 ((List.mem_append.1 ht).imp (fun ht => ?_) fun ht => ?_)
    · exact substmtsOfList_trans ht hu
    · exact substmtsOfCatches_trans ht hu
termination_by structural cs => cs

end

/-- The nodes of a tree, each statement followed by its own expressions. -/
def nodes (s : Stmt) : List NodeId :=
  s.substmts.flatMap fun t =>
    .stmt t.id :: (t.kind.exprChildren.flatMap Expr.subexprs).map (.expr ·.id)

/-- If no node occurs twice, no statement does. -/
theorem nodup_stmtIds {roots : List Stmt} (h : (roots.flatMap nodes).Nodup) :
    ((roots.flatMap substmts).map Stmt.id).Nodup := by
  refine List.Nodup.of_map NodeId.stmt (List.Sublist.nodup ?_ h)
  rw [List.map_map, List.map_flatMap]
  refine .flatMap_right _ fun s _ => ?_
  rw [List.map_eq_flatMap]
  exact .flatMap_right _ fun t _ => (List.nil_sublist _).cons_cons _

/-- If no node occurs twice, no expression does. -/
theorem nodup_exprIds {roots : List Stmt} (h : (roots.flatMap nodes).Nodup) :
    ((roots.flatMap allExprs).map Expr.id).Nodup := by
  refine List.Nodup.of_map NodeId.expr (List.Sublist.nodup ?_ h)
  rw [List.map_map, List.map_flatMap]
  refine .flatMap_right _ fun s _ => ?_
  rw [allExprs, List.map_flatMap]
  exact .flatMap_right _ fun t _ => List.sublist_cons_self _ _

theorem mem_nodes_stmt {s t : Stmt} (ht : t ∈ s.substmts) : .stmt t.id ∈ s.nodes :=
  List.mem_flatMap.2 ⟨t, ht, List.mem_cons_self⟩

theorem mem_nodes_expr {s : Stmt} {e : Expr} (he : e ∈ s.allExprs) : .expr e.id ∈ s.nodes := by
  obtain ⟨t, ht, he⟩ := List.mem_flatMap.1 he
  exact List.mem_flatMap.2 ⟨t, ht, List.mem_cons_of_mem _ (List.mem_map.2 ⟨e, he, rfl⟩)⟩

/-- The statements among the nodes are those nested in the statement. -/
theorem stmt_mem_nodes {s : Stmt} {id : StmtId} :
    .stmt id ∈ s.nodes ↔ ∃ t ∈ s.substmts, t.id = id := by
  constructor
  · intro h
    obtain ⟨t, ht, h⟩ := List.mem_flatMap.1 h
    rcases List.mem_cons.1 h with h | h
    · exact ⟨t, ht, (NodeId.stmt.inj h).symm⟩
    · obtain ⟨e, -, h⟩ := List.mem_map.1 h
      cases h
  · rintro ⟨t, ht, rfl⟩
    exact mem_nodes_stmt ht

/-- The expressions among the nodes are those of the statements nested in it. -/
theorem expr_mem_nodes {s : Stmt} {id : ExprId} :
    .expr id ∈ s.nodes ↔ ∃ e ∈ s.allExprs, e.id = id := by
  constructor
  · intro h
    obtain ⟨t, ht, h⟩ := List.mem_flatMap.1 h
    rcases List.mem_cons.1 h with h | h
    · cases h
    · obtain ⟨e, he, h⟩ := List.mem_map.1 h
      exact ⟨e, List.mem_flatMap.2 ⟨t, ht, he⟩, NodeId.expr.inj h⟩
  · rintro ⟨e, he, rfl⟩
    exact mem_nodes_expr he

end Stmt

namespace Body

variable (b : Body)

/-! ## Reachable nodes -/

/-- The nodes below the root block. -/
inductive Reaches : NodeId → Prop
  | root {s : StmtId} : s ∈ b.block → Reaches (.stmt s)
  | child {n m : NodeId} : Reaches n → m ∈ b.nodeChildren n → Reaches m

/-- The second node is the first one or lies below it. -/
def LeadsTo : NodeId → NodeId → Prop := Relation.ReflTransGen fun m c => c ∈ b.nodeChildren m

variable {b} in
/-- What a reachable node leads to is reachable. -/
theorem Reaches.leadsTo {m n : NodeId} (hm : b.Reaches m) (h : b.LeadsTo m n) : b.Reaches n := by
  induction h with
  | refl => exact hm
  | tail _ hc ih => exact .child ih hc

/-- A node is reachable if a statement of the root block leads to it. -/
theorem reaches_iff_leadsTo {n : NodeId} :
    b.Reaches n ↔ ∃ s ∈ b.block, b.LeadsTo (.stmt s) n := by
  constructor
  · intro h
    induction h with
    | root hs => exact ⟨_, hs, .refl⟩
    | child _ hc ih =>
      obtain ⟨s, hs, hn⟩ := ih
      exact ⟨s, hs, .tail hn hc⟩
  · rintro ⟨s, hs, h⟩
    exact (Reaches.root hs).leadsTo h

/-- The node is in the arenas. -/
def Has : NodeId → Prop
  | .expr id => id < b.exprs.size
  | .stmt id => id < b.stmts.size

/-- Whatever is reached is in the arenas, and the shape has no fault. -/
structure Accepted : Prop where
  has : ∀ n, b.Reaches n → b.Has n
  valid : b.validate = none

/-- If the nodes of the arenas name only nodes of the arenas, nothing else is reached. -/
theorem has_of_reaches (hroot : ∀ s ∈ b.block, s < b.stmts.size)
    (hexpr : ∀ id < b.exprs.size, ∀ e ∈ (b.exprKind id).children, e < b.exprs.size)
    (hstmt : ∀ id < b.stmts.size,
      (∀ e ∈ (b.stmtKind id).exprChildren, e < b.exprs.size) ∧
        ∀ s ∈ (b.stmtKind id).stmtChildren, s < b.stmts.size) :
    ∀ n, b.Reaches n → b.Has n := by
  intro n h
  induction h with
  | root hs => exact hroot _ hs
  | @child n m _ hm ih =>
    cases n with
    | expr id =>
      obtain ⟨e, he, rfl⟩ := List.mem_map.1 hm
      exact hexpr id ih e he
    | stmt id =>
      rcases List.mem_append.1 hm with hm | hm
      · obtain ⟨e, he, rfl⟩ := List.mem_map.1 hm
        exact (hstmt id ih).1 e he
      · obtain ⟨s, hs, rfl⟩ := List.mem_map.1 hm
        exact (hstmt id ih).2 s hs

/-- The node and those below it, to the given depth. -/
def below : Nat → NodeId → List NodeId
  | 0, n => [n]
  | depth + 1, n => n :: (b.nodeChildren n).flatMap (below depth)

/-- A deeper search finds more, and what it found before in the same order. -/
theorem below_sublist : ∀ {d e : Nat}, d ≤ e → ∀ n, (b.below d n).Sublist (b.below e n)
  | 0, 0, _, _ => .refl _
  | 0, _ + 1, _, n => (List.nil_sublist _).cons_cons n
  | _ + 1, _ + 1, h, n =>
    (List.Sublist.flatMap_right _ fun m _ => below_sublist (Nat.le_of_succ_le_succ h) m).cons_cons n

variable {b} in
/-- One step deeper the children are found, too. -/
theorem mem_below_of_child {m n : NodeId} :
    ∀ {d : Nat} {r : NodeId}, n ∈ b.below d r → m ∈ b.nodeChildren n → m ∈ b.below (d + 1) r
  | 0, r, hn, hm => by
    rw [List.mem_singleton.1 hn] at hm
    exact List.mem_cons_of_mem _ (List.mem_flatMap.2 ⟨m, hm, List.mem_singleton_self m⟩)
  | d + 1, r, hn, hm => by
    rcases List.mem_cons.1 hn with rfl | hn
    · refine List.mem_cons_of_mem _ (List.mem_flatMap.2 ⟨m, hm, ?_⟩)
      exact List.mem_cons_self
    · obtain ⟨c, hc, hn⟩ := List.mem_flatMap.1 hn
      exact List.mem_cons_of_mem _ (List.mem_flatMap.2 ⟨c, hc, mem_below_of_child hn hm⟩)

variable {b} in
/-- A search finds only what the node leads to. -/
theorem LeadsTo.of_mem_below : ∀ {d : Nat} {m n : NodeId}, n ∈ b.below d m → b.LeadsTo m n
  | 0, _, _, hn => by
    rw [List.mem_singleton.1 hn]
    exact .refl
  | _ + 1, m, n, hn => by
    rcases List.mem_cons.1 hn with rfl | hn
    · exact .refl
    · obtain ⟨c, hc, hn⟩ := List.mem_flatMap.1 hn
      exact .head hc (of_mem_below hn)

variable {b} in
/-- What a node leads to is found by a search that is deep enough. -/
theorem LeadsTo.exists_below {m n : NodeId} (h : b.LeadsTo m n) : ∃ d, n ∈ b.below d m := by
  induction h with
  | refl => exact ⟨0, List.mem_singleton_self m⟩
  | tail _ hc ih =>
    obtain ⟨d, hn⟩ := ih
    exact ⟨d + 1, mem_below_of_child hn hc⟩

/-! ## The walk -/

/-- There are no more nodes than the arenas have room for. -/
theorem length_le_of_has {seen : List NodeId} (hn : seen.Nodup) (hs : ∀ n ∈ seen, b.Has n) :
    seen.length ≤ b.exprs.size + b.stmts.size := by
  have hsub : seen ⊆ b.exprIds.map .expr ++ b.stmtIds.map .stmt := by
    intro n h
    have hb := hs n h
    cases n with
    | expr id =>
      change id < b.exprs.size at hb
      simpa [exprIds, stmtIds] using hb
    | stmt id =>
      change id < b.stmts.size at hb
      simpa [exprIds, stmtIds] using hb
  have hle := (List.subperm_of_subset hn hsub).length_le
  simpa [exprIds, stmtIds] using hle

/-- Only one node more has been visited. -/
theorem Visited.contains_insert {visited : Visited} {n m : NodeId} :
    (visited.insert n).contains m = true ↔ visited.contains m = true ∨ m = n := by
  cases n <;> cases m <;> simp [Visited.insert, Visited.contains, IdSet.contains_iff]

/-- A walk has met the nodes `seen`, and goes on from those on `stack`. -/
structure Walked (visited : Visited) (seen stack : List NodeId) : Prop where
  nodup : seen.Nodup
  has : ∀ n ∈ seen, b.Has n
  visited_iff : ∀ n, visited.contains n = true ↔ n ∈ seen
  reaches : ∀ n ∈ stack, b.Reaches n

variable {b} in
/-- The walk goes on from a node to its children. -/
theorem Walked.step {visited : Visited} {seen stack : List NodeId} {n : NodeId}
    (h : b.Walked visited seen (n :: stack)) (hb : b.Has n) (hn : n ∉ seen) :
    b.Walked (visited.insert n) (n :: seen) ((b.nodeChildren n).reverse ++ stack) where
  nodup := List.nodup_cons.2 ⟨hn, h.nodup⟩
  has m hm := by
    rcases List.mem_cons.1 hm with rfl | hm
    · exact hb
    · exact h.has m hm
  visited_iff m := by
    rw [Visited.contains_insert, h.visited_iff, List.mem_cons, or_comm]
  reaches m hm := by
    rcases List.mem_append.1 hm with hm | hm
    · exact .child (h.reaches n (by simp)) (List.mem_reverse.1 hm)
    · exact h.reaches m (by simp [hm])

/-- What lies below a node and the rest of a stack, if it lies below the node's children and that
rest. -/
theorem nodup_below_cons {stack seen : List NodeId} {n : NodeId} {d : Nat} (hn : n ∉ seen)
    (h : (((b.nodeChildren n).reverse ++ stack).flatMap (b.below d)).Nodup)
    (hs : ∀ m ∈ ((b.nodeChildren n).reverse ++ stack).flatMap (b.below d), m ∉ n :: seen) :
    ((n :: stack).flatMap (b.below d)).Nodup ∧
      ∀ m ∈ (n :: stack).flatMap (b.below d), m ∉ seen := by
  have hsub : (b.below d n).Sublist (n :: (b.nodeChildren n).flatMap (b.below d)) :=
    b.below_sublist (Nat.le_succ d) n
  have hperm : (((b.nodeChildren n).reverse ++ stack).flatMap (b.below d)).Perm
      ((b.nodeChildren n ++ stack).flatMap (b.below d)) :=
    ((List.reverse_perm _).append_right stack).flatMap_right _
  have hall : ((n :: stack).flatMap (b.below d)).Sublist
      (n :: (b.nodeChildren n ++ stack).flatMap (b.below d)) := by
    rw [List.flatMap_cons, List.flatMap_append]
    exact hsub.append (.refl _)
  constructor
  · refine hall.nodup (List.nodup_cons.2 ⟨fun hm => ?_, hperm.nodup_iff.1 h⟩)
    exact hs n (hperm.mem_iff.2 hm) (by simp)
  · intro m hm
    rcases List.mem_cons.1 (hall.subset hm) with rfl | hm
    · exact hn
    · exact fun hm' => hs m (hperm.mem_iff.2 hm) (by simp [hm'])

/-- A walk that ends without a shared node meets every node below its stack once, and none of those
it has met before. -/
theorem nodup_of_findShared (hb : ∀ n, b.Reaches n → b.Has n) (d : Nat) :
    ∀ {steps : Nat} {visited : Visited} {stack seen : List NodeId},
      b.findShared steps visited stack = none → b.Walked visited seen stack →
      b.exprs.size + b.stmts.size < steps + seen.length →
      (stack.flatMap (b.below d)).Nodup ∧ ∀ n ∈ stack.flatMap (b.below d), n ∉ seen
  | _, _, [], _, _, _, _ => by simp
  | 0, _, _ :: _, _, _, hw, hlt => by
    have hle := b.length_le_of_has hw.nodup hw.has
    omega
  | steps + 1, visited, n :: stack, seen, h, hw, hlt => by
    rw [findShared] at h
    split at h
    · cases h
    · next hc =>
      have hnew : n ∉ seen := fun hm => hc ((hw.visited_iff n).2 hm)
      have hw' := hw.step (hb n (hw.reaches n (by simp))) hnew
      obtain ⟨hnodup, hseen⟩ := nodup_of_findShared hb d h hw' (by rw [List.length_cons]; omega)
      exact b.nodup_below_cons hnew hnodup hseen

/-! ## Trees of an accepted body -/

/-- An expression is unfolded to the nodes that a search of that depth finds. -/
theorem subexprs_exprTo :
    ∀ (d : Nat) (id : ExprId), (b.exprTo d id).subexprs.map (.expr ·.id) = b.below d (.expr id)
  | 0, _ => rfl
  | d + 1, id => by
    rw [exprTo, Expr.subexprs, Expr.subexprsOfKind_eq, ExprKind.children_map, below, nodeChildren,
      List.map_cons, List.flatMap_map, List.flatMap_map, List.map_flatMap]
    simp only [subexprs_exprTo d]
    rfl

/-- A statement is unfolded to nodes that a search finds. -/
theorem nodes_stmtTo :
    ∀ (d : Nat) (id : StmtId),
      (b.stmtTo d id).nodes.Sublist (b.below (d + b.treeDepth) (.stmt id))
  | 0, id => b.below_sublist (Nat.zero_le _) (.stmt id)
  | d + 1, id => by
    have hnodes : (b.stmtTo (d + 1) id).nodes =
        .stmt id :: ((b.stmtKind id).exprChildren.flatMap fun e => b.below b.treeDepth (.expr e)) ++
          (b.stmtKind id).stmtChildren.flatMap fun s => (b.stmtTo d s).nodes := by
      rw [stmtTo, Stmt.nodes, Stmt.substmts, Stmt.substmtsOfKind_eq, StmtKind.stmtChildren_map,
        List.flatMap_cons, List.flatMap_assoc, List.flatMap_map, Stmt.kind,
        StmtKind.exprChildren_map, List.flatMap_map, List.map_flatMap]
      simp only [exprTree_eq_exprTo, subexprs_exprTo]
      rfl
    rw [hnodes, Nat.succ_add, below, nodeChildren, List.flatMap_append, List.flatMap_map,
      List.flatMap_map, List.cons_append]
    refine (List.Sublist.append ?_ ?_).cons_cons _
    · exact .flatMap_right _ fun e _ => b.below_sublist (Nat.le_add_left ..) _
    · exact .flatMap_right _ fun s _ => nodes_stmtTo d s

variable {b}

/-- If no node is shared, the trees of the root block name every node at most once. -/
theorem nodup_nodes (hb : ∀ n, b.Reaches n → b.Has n) (hs : b.sharedNode? = none) :
    (b.root.flatMap Stmt.nodes).Nodup := by
  have hw : b.Walked {} [] (b.block.map .stmt) := by
    refine ⟨.nil, by simp, fun n => ?_, fun n hn => ?_⟩
    · cases n <;> simp [Visited.contains, IdSet.contains_iff]
    · obtain ⟨s, hs, rfl⟩ := List.mem_map.1 hn
      exact .root hs
  have hlt : b.exprs.size + b.stmts.size <
      b.exprs.size + b.stmts.size + 1 + ([] : List NodeId).length := Nat.lt_succ_self _
  obtain ⟨hn, -⟩ := b.nodup_of_findShared hb (b.stmts.size + b.treeDepth) hs hw hlt
  rw [List.flatMap_map] at hn
  refine List.Sublist.nodup ?_ hn
  rw [root, List.flatMap_map]
  refine .flatMap_right _ fun s _ => ?_
  rw [stmtTree_eq_stmtTo]
  exact b.nodes_stmtTo _ _

/-- No node of an accepted body has two parents. -/
theorem Accepted.sharedNode (h : b.Accepted) : b.sharedNode? = none := by
  have hv := h.valid
  rw [validate] at hv
  split at hv
  · cases hv
  · assumption

/-- The trees of the root block name every node at most once. -/
theorem Accepted.nodup_nodes (h : b.Accepted) : (b.root.flatMap Stmt.nodes).Nodup :=
  Body.nodup_nodes h.has h.sharedNode

/-- The trees of the root block name every statement at most once. -/
theorem Accepted.nodup_stmtIds (h : b.Accepted) :
    ((b.root.flatMap Stmt.substmts).map Stmt.id).Nodup := Stmt.nodup_stmtIds h.nodup_nodes

/-- The trees of the root block name every expression at most once. -/
theorem Accepted.nodup_exprIds (h : b.Accepted) :
    ((b.root.flatMap Stmt.allExprs).map Expr.id).Nodup := Stmt.nodup_exprIds h.nodup_nodes

/-- What is nested in a reachable statement is reachable. -/
theorem mem_substmts_trans {s t : Stmt} (hs : s ∈ b.root.flatMap Stmt.substmts)
    (ht : t ∈ s.substmts) : t ∈ b.root.flatMap Stmt.substmts := by
  obtain ⟨root, hroot, hs⟩ := List.mem_flatMap.1 hs
  exact List.mem_flatMap.2 ⟨root, hroot, Stmt.substmts_trans hs ht⟩

/-- What is below an expression of a reachable statement is reachable. -/
theorem mem_allExprs {s : Stmt} (hs : s ∈ b.root.flatMap Stmt.substmts) {x e : Expr}
    (hx : x ∈ s.kind.exprChildren) (he : e ∈ x.subexprs) : e ∈ b.root.flatMap Stmt.allExprs := by
  obtain ⟨root, hroot, hs⟩ := List.mem_flatMap.1 hs
  refine List.mem_flatMap.2 ⟨root, hroot, List.mem_flatMap.2 ⟨s, hs, ?_⟩⟩
  exact List.mem_flatMap.2 ⟨x, hx, he⟩

/-- What is below a reachable expression is reachable. -/
theorem mem_allExprs_trans {e s : Expr} (he : e ∈ b.root.flatMap Stmt.allExprs)
    (hs : s ∈ e.subexprs) : s ∈ b.root.flatMap Stmt.allExprs := by
  obtain ⟨root, hroot, he⟩ := List.mem_flatMap.1 he
  obtain ⟨t, ht, he⟩ := List.mem_flatMap.1 he
  obtain ⟨x, hx, he⟩ := List.mem_flatMap.1 he
  exact mem_allExprs (List.mem_flatMap.2 ⟨root, hroot, ht⟩) hx (Expr.subexprs_trans he hs)

/-- No expression occurs twice in an accepted body. -/
theorem Accepted.nodup_ownExprs (h : b.Accepted) :
    ((b.root.flatMap Stmt.substmts).flatMap
      fun s => s.kind.exprChildren.flatMap Expr.subexprs).Nodup := by
  rw [List.flatMap_assoc]
  exact h.nodup_exprIds.of_map _

/-- No two statements of the root block have an expression in common. -/
theorem Accepted.eq_of_mem_subexprs (h : b.Accepted) {s t : Stmt}
    (hs : s ∈ b.root.flatMap Stmt.substmts) (ht : t ∈ b.root.flatMap Stmt.substmts) {e : Expr}
    (hes : e ∈ s.kind.exprChildren.flatMap Expr.subexprs)
    (het : e ∈ t.kind.exprChildren.flatMap Expr.subexprs) : s = t :=
  eq_of_nodup_flatMap h.nodup_ownExprs hs ht hes het

/-- No two expressions of a statement have an expression in common. -/
theorem Accepted.eq_of_mem_exprChildren (h : b.Accepted) {s : Stmt}
    (hs : s ∈ b.root.flatMap Stmt.substmts) {x y e : Expr} (hx : x ∈ s.kind.exprChildren)
    (hy : y ∈ s.kind.exprChildren) (hex : e ∈ x.subexprs) (hey : e ∈ y.subexprs) : x = y :=
  eq_of_nodup_flatMap ((List.nodup_flatMap.1 h.nodup_ownExprs).1 s hs) hx hy hex hey

/-- The nodes of the trees of the root block are reached. -/
theorem reaches_of_mem_nodes {n : NodeId} (hn : n ∈ b.root.flatMap Stmt.nodes) : b.Reaches n := by
  obtain ⟨r, hr, hn⟩ := List.mem_flatMap.1 hn
  obtain ⟨id, hid, rfl⟩ := List.mem_map.1 hr
  rw [stmtTree_eq_stmtTo] at hn
  exact (Reaches.root hid).leadsTo (.of_mem_below ((b.nodes_stmtTo _ _).subset hn))

/-- The nodes of the trees of the root block are in the arenas. -/
theorem Accepted.has_of_mem_nodes (h : b.Accepted) {n : NodeId}
    (hn : n ∈ b.root.flatMap Stmt.nodes) : b.Has n := h.has _ (reaches_of_mem_nodes hn)

/-- The reachable statements of an accepted body are in its arena. -/
theorem Accepted.stmt_lt (h : b.Accepted) {s : Stmt} (hs : s ∈ b.root.flatMap Stmt.substmts) :
    s.id < b.stmts.size := by
  obtain ⟨r, hr, hs⟩ := List.mem_flatMap.1 hs
  exact h.has_of_mem_nodes (n := .stmt s.id) (List.mem_flatMap.2 ⟨r, hr, Stmt.mem_nodes_stmt hs⟩)

/-- The reachable expressions of an accepted body are in its arena. -/
theorem Accepted.expr_lt (h : b.Accepted) {e : Expr} (he : e ∈ b.root.flatMap Stmt.allExprs) :
    e.id < b.exprs.size := by
  obtain ⟨r, hr, he⟩ := List.mem_flatMap.1 he
  exact h.has_of_mem_nodes (n := .expr e.id) (List.mem_flatMap.2 ⟨r, hr, Stmt.mem_nodes_expr he⟩)

end Body

end Midend
