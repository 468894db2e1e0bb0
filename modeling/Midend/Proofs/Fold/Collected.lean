import Midend.Fold.Fixpoint
import Midend.Proofs.Body.Roles
import Midend.Proofs.Fold.Apply

/-!
# Collected edits

A round collects its edits before it applies any. Each is about an expression that
is evaluated for its value, in a slot of the parent that it names
(`Accepted.site`), and no edit is about an expression inside one that another
replaces (`Accepted.apart`). So all of them can be applied in order
(`Accepted.ready`).
-/

namespace Midend

/-! ## Edits of an expression -/

namespace FoldFacts

variable (facts : FoldFacts)

/-- The edits of an expression in a role. The parent of a target is of no account, as a target is
not replaced. -/
def editsAs (parent : NodeId) (e : Expr) : Role → List Edit
  | .value => facts.exprEdits parent e
  | .target _ => facts.targetEdits e.id e

theorem listEdits_eq (id : ExprId) (es : List Expr) :
    facts.listEdits id es = es.flatMap (facts.exprEdits (.expr id)) := by
  induction es with
  | nil => rfl
  | cons e es ih => rw [listEdits, ih, List.flatMap_cons]

/-- A target that is an lvalue is edited in its own slots only. -/
theorem targetEdits_parent {e : Expr} (h : e.isLvalue = true) (p q : ExprId) :
    facts.targetEdits p e = facts.targetEdits q e := by
  obtain ⟨id, k⟩ := e
  cases k with
  | var | paren | index => simp only [targetEdits]
  | field receiver => cases receiver <;> simp only [targetEdits]
  | _ => cases h

/-- A target that can be assigned to is not replaced, but its operands may be. -/
theorem targetEdits_eq {e : Expr} {reads : Bool} (h : e.Writable (.target reads))
    (parent : ExprId) :
    facts.targetEdits parent e =
      (e.kind.operands (.target reads)).flatMap fun o => facts.editsAs (.expr e.id) o.2 o.1 := by
  have hl := h.isLvalue
  obtain ⟨id, k⟩ := e
  cases k with
  | var v => rfl
  | paren inner =>
    simp only [targetEdits, Expr.kind, ExprKind.operands, List.flatMap_singleton, editsAs]
    exact facts.targetEdits_parent (e := inner) hl id inner.id
  | field receiver name isStatic =>
    cases receiver <;> simp [targetEdits, Expr.kind, ExprKind.operands, ExprKind.children, editsAs,
      Expr.id]
  | index a i =>
    simp [targetEdits, Expr.kind, ExprKind.operands, ExprKind.children, editsAs, Expr.id]
  | _ => cases hl

/-- The edits of a writable layer are those of its operands in order. -/
theorem kindEdits_eq {id : ExprId} {k : ExprKind Expr} (h : (Expr.node id k).Writable .value) :
    facts.kindEdits id k =
      (k.operands .value).flatMap fun o => facts.editsAs (.expr id) o.2 o.1 := by
  cases k with
  | assign l op r =>
    have hl := (h.operand (o := (.target op.isSome, l)) (by simp [ExprKind.operands])).isLvalue
    simp only [kindEdits, ExprKind.operands, List.flatMap_cons, List.flatMap_nil, editsAs,
      List.append_nil]
    rw [facts.targetEdits_parent hl id l.id]
  | unary op e =>
    cases op with
    | step s =>
      have hl := (h.operand (o := (.target true, e)) (by simp [ExprKind.operands])).isLvalue
      simp only [kindEdits, ExprKind.operands, List.flatMap_singleton, editsAs]
      exact facts.targetEdits_parent hl id e.id
    | _ => simp [kindEdits, ExprKind.operands, ExprKind.children, editsAs]
  | field receiver =>
    cases receiver <;> simp [kindEdits, ExprKind.operands, ExprKind.children, editsAs]
  | call receiver =>
    cases receiver <;> simp [kindEdits, ExprKind.operands, ExprKind.children, editsAs, listEdits_eq,
      List.flatMap_map]
  | create => simp [kindEdits, ExprKind.operands, ExprKind.children, editsAs, listEdits_eq,
      List.flatMap_map]
  | _ => simp [kindEdits, ExprKind.operands, ExprKind.children, editsAs]

/-- An expression is replaced, or it is kept and the edits are those of its operands. -/
theorem editsAs_node (parent : NodeId) {id : ExprId} {k : ExprKind Expr} {role : Role}
    (h : (Expr.node id k).Writable role) :
    (role = .value ∧ ∃ r, facts.rewrite? (.node id k) = some r ∧
      facts.editsAs parent (.node id k) role = [⟨parent, id, r⟩]) ∨
    facts.editsAs parent (.node id k) role =
      (k.operands role).flatMap fun o => facts.editsAs (.expr id) o.2 o.1 := by
  cases role with
  | value =>
    cases hr : facts.rewrite? (.node id k) with
    | some r =>
      refine .inl ⟨rfl, r, rfl, ?_⟩
      rw [editsAs, exprEdits, hr]
    | none =>
      refine .inr ?_
      rw [editsAs, exprEdits, hr]
      exact facts.kindEdits_eq h
  | target reads => exact .inr (facts.targetEdits_eq h _)

/-- An edit is about an expression that is evaluated, in a slot of the parent it names. -/
theorem exists_of_mem_editsAs {parent : NodeId} {e : Expr} {role : Role} (h : e.Writable role)
    {d : Edit} (hd : d ∈ facts.editsAs parent e role) :
    ∃ s, (Role.value, s) ∈ e.rolesAs role ∧ s.id = d.old ∧ facts.rewrite? s = some d.rewrite ∧
      (s = e ∧ d.parent = parent ∨
        ∃ q ∈ e.subexprs, s ∈ q.kind.children ∧ d.parent = .expr q.id) := by
  induction e using Expr.ofChildren generalizing parent role with
  | node id k ih =>
    rw [Expr.rolesAs_node]
    rcases facts.editsAs_node parent h with ⟨rfl, r, hr, hedits⟩ | hedits
    · rw [hedits] at hd
      obtain rfl := List.mem_singleton.1 hd
      exact ⟨_, List.mem_cons_self, rfl, hr, .inl ⟨rfl, rfl⟩⟩
    · rw [hedits] at hd
      obtain ⟨o, ho, hd⟩ := List.mem_flatMap.1 hd
      have hc := ExprKind.mem_children_of_operands ho
      obtain ⟨s, hs, hid, hr, hslot⟩ := ih o.2 hc (h.operand ho) hd
      refine ⟨s, List.mem_cons_of_mem _ (List.mem_flatMap.2 ⟨o, ho, hs⟩), hid, hr, .inr ?_⟩
      rcases hslot with ⟨rfl, hp⟩ | ⟨q, hq, hslot⟩
      · exact ⟨_, Expr.mem_subexprs_self _, hc, hp⟩
      · exact ⟨q, Expr.subexprs_subset hc hq, hslot⟩

/-- What the edits replace lies apart. -/
theorem editsAs_sublist {trees : ExprId → Expr} {parent : NodeId} {e : Expr} {role : Role}
    (h : e.Writable role) (ht : ∀ s ∈ e.subexprs, trees s.id = s) :
    ((facts.editsAs parent e role).flatMap fun d => (trees d.old).subexprs).Sublist e.subexprs := by
  induction e using Expr.ofChildren generalizing parent role with
  | node id k ih =>
    rcases facts.editsAs_node parent h with ⟨rfl, r, -, hedits⟩ | hedits
    · rw [hedits, List.flatMap_singleton]
      have hself : trees id = .node id k := ht _ (Expr.mem_subexprs_self _)
      rw [hself]
    · rw [hedits, List.flatMap_assoc, Expr.subexprs, Expr.subexprsOfKind_eq,
        ← ExprKind.map_snd_operands role, List.flatMap_map]
      refine .cons _ (.flatMap_right _ fun o ho => ?_)
      have hc := ExprKind.mem_children_of_operands ho
      exact ih o.2 hc (h.operand ho) fun s hs => ht s (Expr.subexprs_subset hc hs)

/-- An operand that may stand for an expression: what is inside parentheses if it is a literal, and
the arm chosen by a literal if it has the type of the whole. -/
inductive Simplifies (env : TyEnv) : Expr → Expr → Prop
  | paren {id : ExprId} {e : Expr} :
    e.kind.isLiteral = true → Simplifies env (.node id (.paren e)) e
  | arm {id : ExprId} {c t f : Expr} {v : Bool} : c.kind = .lit (.bool v) →
    (if v then t else f).staticTy env = (Expr.node id (.conditional c t f)).staticTy env →
    Simplifies env (.node id (.conditional c t f)) (if v then t else f)

/-- An expression is simplified to one of its children. -/
theorem Simplifies.mem_children {env : TyEnv} {e c : Expr} (h : Simplifies env e c) :
    c ∈ e.kind.children := by
  cases h with
  | paren _ => exact List.mem_singleton_self _
  | @arm _ _ _ _ v _ _ => cases v <;> simp [Expr.kind, ExprKind.children]

/-- The operand that replaces an expression is one that the rewrite rules allow. -/
theorem simplifies_of_simpler? {e : Expr} {r : Rewrite} (h : facts.simpler? e = some r) :
    ∃ c, r = .operand c.id ∧ Simplifies facts.env e c := by
  obtain ⟨id, k⟩ := e
  cases k with
  | paren e =>
    rw [simpler?, Expr.kind, Option.ite_none_right_eq_some] at h
    exact ⟨e, (Option.some.inj h.2).symm, .paren h.1⟩
  | conditional c t f =>
    rw [simpler?, Expr.kind] at h
    simp only at h
    split at h
    · next v hc =>
      rw [Option.ite_none_right_eq_some, Bool.and_eq_true, beq_iff_eq] at h
      exact ⟨_, (Option.some.inj h.2).symm, .arm hc h.1.2⟩
    · cases h
  | _ => cases h

/-- A constant is pure and has one known value. -/
theorem constant?_eq_some {i : ExprId} {l : Literal} (h : facts.constant? i = some l) :
    (facts.effects.expr i).isPure = true ∧ facts.values.get? i = some (.known l) := by
  rw [constant?, Option.ite_none_right_eq_some] at h
  obtain ⟨hpure, h⟩ := h
  obtain ⟨v, hv, hl⟩ := Option.bind_eq_some_iff.1 h
  cases v with
  | unknown => cases hl
  | known m =>
    obtain rfl : m = l := Option.some.inj hl
    exact ⟨hpure, hv⟩

/-- An expression is replaced by its constant or by the operand it simplifies to. -/
theorem rewrite?_eq_some {e : Expr} {r : Rewrite} (h : facts.rewrite? e = some r) :
    (∃ l, r = .literal l ∧ facts.constant? e.id = some l) ∨
      ∃ c, r = .operand c.id ∧ Simplifies facts.env e c := by
  unfold rewrite? at h
  split at h
  · cases h
  · split at h
    · next l hl => exact .inl ⟨l, (Option.some.inj h).symm, hl⟩
    · exact .inr (facts.simplifies_of_simpler? h)

end FoldFacts

/-! ## Edits of a body -/

namespace Body

variable {b : Body} {callees : CalleeEffects} {values : IdMap Value}

/-- What is known of a body, given the recorded values. -/
def foldFacts (b : Body) (callees : CalleeEffects) (values : IdMap Value) : FoldFacts :=
  ⟨b.varTy, .compute b callees, values⟩

/-- The edits of a body are those of its statements' expressions in order. -/
theorem edits_eq (b : Body) (callees : CalleeEffects) (values : IdMap Value) :
    b.edits callees values = (b.root.flatMap Stmt.substmts).flatMap fun t =>
      t.kind.exprChildren.flatMap fun x =>
        (b.foldFacts callees values).editsAs (.stmt t.id) x .value :=
  List.flatMap_assoc.symm

/-- The edit is about the expression, in a slot of its parent. -/
structure Site (b : Body) (facts : FoldFacts) (d : Edit) (e : Expr) : Prop where
  evaluated : b.Uses .value e
  old : e.id = d.old
  rewrite : facts.rewrite? e = some d.rewrite
  parent : d.parent ∈ b.root.flatMap Stmt.nodes
  slot : d.old ∈ b.slots d.parent

/-- An operand that is put in place of the expression may stand for it. -/
theorem Site.operand {facts : FoldFacts} {d : Edit} {e : Expr} (h : b.Site facts d e) {x : ExprId}
    (hx : d.rewrite = .operand x) : ∃ c, x = c.id ∧ FoldFacts.Simplifies facts.env e c := by
  have hr := h.rewrite
  rw [hx] at hr
  rcases facts.rewrite?_eq_some hr with ⟨l, hl, -⟩ | ⟨c, hc, hs⟩
  · cases hl
  · exact ⟨c, Rewrite.operand.inj hc, hs⟩

/-- Each edit of an accepted body belongs to one reachable expression. -/
theorem Accepted.site (h : b.Accepted) {d : Edit} (hd : d ∈ b.edits callees values) :
    ∃ e, b.Site (b.foldFacts callees values) d e := by
  rw [edits_eq] at hd
  obtain ⟨t, ht, hd⟩ := List.mem_flatMap.1 hd
  obtain ⟨x, hx, hd⟩ := List.mem_flatMap.1 hd
  obtain ⟨e, he, hold, hr, hslot⟩ := FoldFacts.exists_of_mem_editsAs _ (h.writable ht hx) hd
  obtain ⟨root, hroot, hsub⟩ := List.mem_flatMap.1 ht
  rcases hslot with ⟨rfl, hp⟩ | ⟨q, hq, hc, hp⟩
  · refine ⟨e, ⟨t, ht, e, hx, he⟩, hold, hr, ?_, ?_⟩
    · rw [hp]
      exact List.mem_flatMap.2 ⟨root, hroot, Stmt.mem_nodes_stmt hsub⟩
    · rw [hp, h.spans.slots_stmt ht, ← hold]
      exact List.mem_map_of_mem hx
  · have hmem := mem_allExprs ht hx hq
    refine ⟨e, ⟨t, ht, x, hx, he⟩, hold, hr, ?_, ?_⟩
    · rw [hp]
      obtain ⟨root, hroot, hmem⟩ := List.mem_flatMap.1 hmem
      exact List.mem_flatMap.2 ⟨root, hroot, Stmt.mem_nodes_expr hmem⟩
    · rw [hp, h.spans.slots_expr hmem, ← hold]
      exact List.mem_map_of_mem hc

variable (callees values)

/-- The expressions that the edits replace lie apart. -/
theorem Accepted.apart (h : b.Accepted) :
    ((b.edits callees values).flatMap fun d => (b.exprTree d.old).subexprs).Sublist
      (b.root.flatMap Stmt.allExprs) := by
  have hall : b.root.flatMap Stmt.allExprs = (b.root.flatMap Stmt.substmts).flatMap fun t =>
      t.kind.exprChildren.flatMap Expr.subexprs := List.flatMap_assoc.symm
  rw [hall, edits_eq, List.flatMap_assoc]
  refine .flatMap_right _ fun t ht => ?_
  rw [List.flatMap_assoc]
  refine .flatMap_right _ fun x hx => ?_
  refine FoldFacts.editsAs_sublist _ (h.writable ht hx) fun s hs => ?_
  exact h.spans.exprTree (mem_allExprs ht hx hs)

/-- Two edits of an accepted body replace disjoint trees. -/
theorem Accepted.nodup_apart (h : b.Accepted) :
    ((b.edits callees values).flatMap fun d => (b.exprTree d.old).subexprs.map Expr.id).Nodup := by
  have hids := (h.apart callees values).map Expr.id
  rw [List.map_flatMap] at hids
  exact hids.nodup h.nodup_exprIds

theorem mem_ids_exprTree (i : ExprId) : i ∈ (b.exprTree i).subexprs.map Expr.id :=
  List.mem_map.2 ⟨_, Expr.mem_subexprs_self _, id_exprTree i⟩

variable {callees values}

/-- Of an expression that an edit replaces, and of all in it, no other is replaced. -/
theorem Accepted.not_mem_old (h : b.Accepted) {d : Edit} (hd : d ∈ b.edits callees values)
    {e c : Expr} (he : e.id = d.old) (hm : e ∈ b.root.flatMap Stmt.allExprs)
    (hc : c ∈ Expr.subexprsOfKind e.kind) : c.id ∉ (b.edits callees values).map Edit.old := by
  intro hold
  obtain ⟨d', hd', heq⟩ := List.mem_map.1 hold
  have htree : b.exprTree d.old = e := he ▸ h.spans.exprTree hm
  have hnodup := h.nodup_apart callees values
  obtain ⟨id, k⟩ := e
  have hin : c.id ∈ (b.exprTree d.old).subexprs.map Expr.id := by
    rw [htree]
    exact List.mem_map_of_mem (List.mem_cons_of_mem _ hc)
  obtain rfl : d = d' :=
    eq_of_nodup_flatMap hnodup hd hd' hin (heq ▸ mem_ids_exprTree d'.old)
  have hone := (List.nodup_flatMap.1 hnodup).1 d hd
  rw [htree, Expr.subexprs, List.map_cons, List.nodup_cons] at hone
  exact hone.1 (he.trans heq ▸ List.mem_map_of_mem hc)

/-- The collected edits can be applied in order. -/
theorem Accepted.ready (h : b.Accepted) (callees : CalleeEffects) (values : IdMap Value) :
    b.Ready (b.edits callees values) where
  nodup := by
    refine List.Sublist.nodup ?_ (h.nodup_apart callees values)
    rw [List.map_eq_flatMap]
    exact .flatMap_right _ fun d _ => List.singleton_sublist.2 (mem_ids_exprTree d.old)
  has d hd := by
    obtain ⟨e, he⟩ := h.site hd
    exact h.has_of_mem_nodes he.parent
  slot d hd := by
    obtain ⟨e, he⟩ := h.site hd
    have hnodup := h.spans.slots_perm.nodup_iff.2 h.nodup_exprIds
    exact List.count_eq_one_of_mem ((List.nodup_flatMap.1 hnodup).1 _ he.parent) he.slot
  old_lt d hd := by
    obtain ⟨e, he⟩ := h.site hd
    exact he.old ▸ h.expr_lt he.evaluated.mem
  operand_lt d hd x hx := by
    obtain ⟨e, he⟩ := h.site hd
    obtain ⟨c, rfl, hs⟩ := he.operand hx
    exact h.expr_lt (mem_allExprs_trans he.evaluated.mem (Expr.mem_subexprs_child hs.mem_children))
  operand_kept d hd x hx := by
    obtain ⟨e, he⟩ := h.site hd
    obtain ⟨c, rfl, hs⟩ := he.operand hx
    refine h.not_mem_old hd he.old he.evaluated.mem ?_
    rw [Expr.subexprsOfKind_eq]
    exact List.mem_flatMap.2 ⟨c, hs.mem_children, Expr.mem_subexprs_self c⟩

end Body

end Midend
