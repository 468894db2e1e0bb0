import Mathlib.Data.Option.Basic
import Midend.Proofs.Tree.Subst

/-!
# Trees without faults

A statement has no fault if its jumps have something to leave and no expression in
it has a bad target (`Stmt.shapeFault?_node`). Only the latter depends on the
expressions, so a change of expressions that makes no bad target makes no fault
(`Stmt.listFault?_mapExprs`).
-/

namespace Midend

/-- No bad target is found if every target in the expression can be assigned to. -/
theorem Expr.badTarget?_eq_none {e : Expr} :
    e.badTarget? = none ↔ ∀ s ∈ e.subexprs, ∀ t, s.target? = some t → t.isLvalue = true := by
  rw [badTarget?, List.findSome?_eq_none_iff]
  refine forall₂_congr fun s _ => ?_
  cases s.target? with
  | none => simp
  | some t => simp

namespace Stmt

variable {inLoop inBreakable : Bool} {id : StmtId} {k : StmtKind Expr Stmt} {g : Expr → Expr}

theorem listFault?_eq_none {ss : List Stmt} :
    listFault? inLoop inBreakable ss = none ↔
      ∀ s ∈ ss, s.shapeFault? inLoop inBreakable = none := by
  induction ss with
  | nil => simp [listFault?]
  | cons s ss ih => rw [listFault?, Option.orElse_eq_none, ih, List.forall_mem_cons]

theorem casesFault?_eq_none {cs : List (SwitchCase Expr Stmt)} :
    casesFault? inLoop inBreakable cs = none ↔
      ∀ s ∈ cs.flatMap (·.body), s.shapeFault? inLoop inBreakable = none := by
  induction cs with
  | nil => simp [casesFault?]
  | cons c cs ih =>
    rw [casesFault?, Option.orElse_eq_none, listFault?_eq_none, ih, List.flatMap_cons,
      List.forall_mem_append]

theorem catchesFault?_eq_none {cs : List (CatchClause Stmt)} :
    catchesFault? inLoop inBreakable cs = none ↔
      ∀ s ∈ cs.flatMap (·.body), s.shapeFault? inLoop inBreakable = none := by
  induction cs with
  | nil => simp [catchesFault?]
  | cons c cs ih =>
    rw [catchesFault?, Option.orElse_eq_none, listFault?_eq_none, ih, List.flatMap_cons,
      List.forall_mem_append]

/-- Nothing is wrong below a layer if nothing is wrong with its children. -/
theorem kindFault?_eq_none :
    kindFault? inLoop inBreakable k = none ↔
      ∀ c ∈ k.stmtChildren, c.shapeFault? inLoop inBreakable = none := by
  cases k with
  | branch c t f => cases f <;> simp [kindFault?, StmtKind.stmtChildren]
  | guarded resources body catches finalizer =>
    cases finalizer <;>
      simp only [kindFault?, StmtKind.stmtChildren, Option.orElse_eq_none, listFault?_eq_none,
        catchesFault?_eq_none, List.forall_mem_append, Option.getD_some, Option.getD_none,
        List.append_nil, and_assoc]
  | switch e cases => exact casesFault?_eq_none
  | block body => exact listFault?_eq_none
  | forLoop init c update body =>
    simp only [kindFault?, StmtKind.stmtChildren, listFault?_eq_none, Option.orElse_eq_none,
      List.forall_mem_append, List.forall_mem_singleton]
  | _ => simp [kindFault?, StmtKind.stmtChildren]

/-- A statement is as it must be if its layer is and its children are inside of it. -/
theorem shapeFault?_node :
    (node id k).shapeFault? inLoop inBreakable = none ↔
      ownFault? inLoop inBreakable id k = none ∧
        ∀ c ∈ k.stmtChildren,
          c.shapeFault? (inLoop || k.isLoop) (inBreakable || k.isBreakable) = none := by
  rw [shapeFault?, Option.orElse_eq_none, kindFault?_eq_none]

/-- The expressions of an accepted layer assign only to what can be assigned to. -/
theorem badTarget?_of_ownFault? (h : ownFault? inLoop inBreakable id k = none) :
    ∀ x ∈ k.exprChildren, x.badTarget? = none := by
  unfold ownFault? at h
  cases k with
  | breakOut | continueLoop => simp [StmtKind.exprChildren]
  | _ => exact List.findSome?_eq_none_iff.1 h

/-- A statement without faults has no bad targets. -/
theorem badTarget?_of_shapeFault? {s : Stmt} (h : s.shapeFault? inLoop inBreakable = none) :
    ∀ t ∈ s.substmts, ∀ x ∈ t.kind.exprChildren, x.badTarget? = none := by
  induction s using ofChildren generalizing inLoop inBreakable with
  | node id k ih =>
    obtain ⟨hown, hnested⟩ := shapeFault?_node.1 h
    intro t ht
    rw [substmts, substmtsOfKind_eq] at ht
    rcases List.mem_cons.1 ht with rfl | ht
    · exact badTarget?_of_ownFault? hown
    · obtain ⟨c, hc, ht⟩ := List.mem_flatMap.1 ht
      exact ih c hc (hnested c hc) t ht

/-- A layer stays accepted when its expressions are exchanged for accepted ones. -/
theorem ownFault?_map {h : Stmt → Stmt} (hown : ownFault? inLoop inBreakable id k = none)
    (hg : ∀ x ∈ k.exprChildren, (g x).badTarget? = none) :
    ownFault? inLoop inBreakable id (k.map g h) = none := by
  have hexprs : (k.map g h).exprChildren.findSome? Expr.badTarget? = none := by
    rw [StmtKind.exprChildren_map, List.findSome?_eq_none_iff]
    intro y hy
    obtain ⟨x, hx, rfl⟩ := List.mem_map.1 hy
    exact hg x hx
  unfold ownFault? at hown ⊢
  rw [hexprs]
  cases k with
  | breakOut | continueLoop => simpa [StmtKind.map, StmtKind.exprChildren] using hown
  | _ => rfl

/-- A statement stays accepted when expressions are exchanged for accepted ones. -/
theorem shapeFault?_mapExprs {s : Stmt} (h : s.shapeFault? inLoop inBreakable = none)
    (hg : ∀ t ∈ s.substmts, ∀ x ∈ t.kind.exprChildren, (g x).badTarget? = none) :
    (s.mapExprs g).shapeFault? inLoop inBreakable = none := by
  induction s using ofChildren generalizing inLoop inBreakable with
  | node id k ih =>
    obtain ⟨hown, hnested⟩ := shapeFault?_node.1 h
    have hloop : (k.map g (mapExprs g)).isLoop = k.isLoop := by cases k <;> rfl
    have hbreak : (k.map g (mapExprs g)).isBreakable = k.isBreakable := by cases k <;> rfl
    rw [mapExprs_node, shapeFault?_node, hloop, hbreak, StmtKind.stmtChildren_map]
    refine ⟨ownFault?_map hown (hg _ List.mem_cons_self), fun c' hc' => ?_⟩
    obtain ⟨c, hc, rfl⟩ := List.mem_map.1 hc'
    exact ih c hc (hnested c hc) fun t ht => hg t (substmts_subset hc ht)

/-- A change of expressions that makes no bad target makes no fault. -/
theorem listFault?_mapExprs {ss : List Stmt} (h : listFault? inLoop inBreakable ss = none)
    (hg : ∀ t ∈ ss.flatMap substmts, ∀ x ∈ t.kind.exprChildren, (g x).badTarget? = none) :
    listFault? inLoop inBreakable (ss.map (mapExprs g)) = none := by
  rw [listFault?_eq_none] at h ⊢
  intro s' hs'
  obtain ⟨s, hs, rfl⟩ := List.mem_map.1 hs'
  exact shapeFault?_mapExprs (h s hs) fun t ht => hg t (List.mem_flatMap.2 ⟨s, hs, ht⟩)

end Stmt

namespace Body

variable {b : Body}

theorem Accepted.listFault? (h : b.Accepted) : Stmt.listFault? false false b.root = none := by
  have hv := h.valid
  rw [validate] at hv
  split at hv
  · cases hv
  · exact hv

/-- The targets in an accepted body can be assigned to. -/
theorem Accepted.badTarget? (h : b.Accepted) {t : Stmt} (ht : t ∈ b.root.flatMap Stmt.substmts)
    {x : Expr} (hx : x ∈ t.kind.exprChildren) : x.badTarget? = none := by
  obtain ⟨s, hs, ht⟩ := List.mem_flatMap.1 ht
  have hfault := Stmt.listFault?_eq_none.1 h.listFault? s hs
  exact Stmt.badTarget?_of_shapeFault? hfault t ht x hx

end Body

end Midend
