import Midend.Body.Visit
import Midend.Proofs.Body.Roles
import Midend.Proofs.Body.Trees
import Midend.Proofs.Effect.Cover
import Midend.Proofs.Effect.Monotone
import Midend.Proofs.Invariant.Groups
import Midend.Proofs.Invariant.Soundness
import Midend.Proofs.Tree.Parts

/-!
# Completeness of loop invariants

The search through an expression stops at invariant ones, and finds those that are
inside no other (`LoopFacts.mem_invariantsAs`). Targets are passed over, but their
writes keep them from being invariant anyway. So the occurrences in the groups of a
loop are the maximal invariant expressions of what it repeats, each once, and the
groups are their classes (`Body.invariants_exact`).
-/

namespace Midend

namespace Expr

/-- Two expressions that are inside each other are the same. -/
theorem subexprs_antisymm {e s : Expr} (h : s ∈ e.subexprs) (h' : e ∈ s.subexprs) : s = e := by
  obtain ⟨id, k⟩ := e
  rw [subexprs, subexprsOfKind_eq] at h
  rcases List.mem_cons.1 h with h | h
  · exact h
  · obtain ⟨c, hc, h⟩ := List.mem_flatMap.1 h
    have hle := Nat.le_trans (length_subexprs_le h') (length_subexprs_le h)
    exact absurd (length_subexprs_lt hc) (Nat.not_lt.2 hle)

/-- No two operands of an expression have an expression in common. -/
theorem eq_of_mem_operands {id : ExprId} {k : ExprKind Expr} {role : Role} {o o' : Role × Expr}
    (h : (node id k).subexprs.Nodup) (ho : o ∈ k.operands role) (ho' : o' ∈ k.operands role)
    {e : Expr} (he : e ∈ o.2.subexprs) (he' : e ∈ o'.2.subexprs) : o = o' := by
  rw [subexprs, subexprsOfKind_eq, ← ExprKind.map_snd_operands role, List.flatMap_map] at h
  exact eq_of_nodup_flatMap (List.nodup_cons.1 h).2 ho ho' he he'

theorem mem_subexprs_of_rolesAs {x e : Expr} {role r : Role} (h : (r, e) ∈ x.rolesAs role) :
    e ∈ x.subexprs := by
  rw [← map_snd_rolesAs x role]
  exact List.mem_map_of_mem h

end Expr

namespace LoopFacts

variable (facts : LoopFacts)

/-! ## Invariants of an expression -/

/-- The outermost invariant expressions of an expression in a role. -/
def invariantsAs (e : Expr) : Role → List Expr
  | .value => facts.exprInvariants e
  | .target _ => facts.targetInvariants e

theorem listInvariants_eq (es : List Expr) :
    facts.listInvariants es = es.flatMap facts.exprInvariants := by
  induction es with
  | nil => rfl
  | cons e es ih => rw [listInvariants, ih, List.flatMap_cons]

/-- The invariants of a layer are those of its operands in order. -/
theorem kindInvariants_eq (k : ExprKind Expr) :
    facts.kindInvariants k = (k.operands .value).flatMap fun o => facts.invariantsAs o.2 o.1 := by
  cases k with
  | assign l op r => simp [kindInvariants, ExprKind.operands, invariantsAs]
  | unary op e =>
    cases op <;> simp [kindInvariants, ExprKind.operands, ExprKind.children, invariantsAs]
  | field receiver =>
    cases receiver <;> simp [kindInvariants, ExprKind.operands, ExprKind.children, invariantsAs]
  | call receiver =>
    cases receiver <;>
      simp [kindInvariants, ExprKind.operands, ExprKind.children, invariantsAs, listInvariants_eq,
        List.flatMap_map]
  | create =>
    simp [kindInvariants, ExprKind.operands, ExprKind.children, invariantsAs, listInvariants_eq,
      List.flatMap_map]
  | _ => simp [kindInvariants, ExprKind.operands, ExprKind.children, invariantsAs]

/-- The invariants of a target are those of its operands: the target itself is never one. -/
theorem targetInvariants_eq {id : ExprId} {k : ExprKind Expr} {reads : Bool}
    (h : (Expr.node id k).Writable (.target reads)) :
    facts.targetInvariants (.node id k) =
      (k.operands (.target reads)).flatMap fun o => facts.invariantsAs o.2 o.1 := by
  have hl := h.isLvalue
  cases k with
  | var v => rfl
  | paren inner => simp [targetInvariants, ExprKind.operands, invariantsAs]
  | field receiver =>
    cases receiver <;> simp [targetInvariants, ExprKind.operands, ExprKind.children, invariantsAs]
  | index a i => simp [targetInvariants, ExprKind.operands, ExprKind.children, invariantsAs]
  | _ => cases hl

/-- An expression is found itself, or those of its operands are. -/
theorem invariantsAs_node {id : ExprId} {k : ExprKind Expr} {role : Role}
    (h : (Expr.node id k).Writable role) :
    (role = .value ∧ facts.isInvariant (.node id k) = true ∧
      facts.invariantsAs (.node id k) role = [.node id k]) ∨
    (role = .value → facts.isInvariant (.node id k) = false) ∧
      facts.invariantsAs (.node id k) role =
        (k.operands role).flatMap fun o => facts.invariantsAs o.2 o.1 := by
  cases role with
  | value =>
    rw [invariantsAs, exprInvariants]
    by_cases hi : facts.isInvariant (.node id k) = true
    · exact .inl ⟨rfl, hi, if_pos hi⟩
    · rw [if_neg hi]
      exact .inr ⟨fun _ => Bool.eq_false_of_not_eq_true hi, facts.kindInvariants_eq k⟩
  | target reads => exact .inr ⟨nofun, facts.targetInvariants_eq h⟩

/-- What is found in an expression are some of its nodes, in their order. -/
theorem invariantsAs_sublist {e : Expr} {role : Role} (h : e.Writable role) :
    (facts.invariantsAs e role).Sublist e.subexprs := by
  induction e using Expr.ofChildren generalizing role with
  | node id k ih =>
    rcases facts.invariantsAs_node h with ⟨-, -, hself⟩ | ⟨-, hoperands⟩
    · rw [hself]
      exact List.singleton_sublist.2 (Expr.mem_subexprs_self _)
    · rw [hoperands, Expr.subexprs, Expr.subexprsOfKind_eq, ← ExprKind.map_snd_operands role,
        List.flatMap_map]
      refine .cons _ (.flatMap_right _ fun o ho => ?_)
      exact ih o.2 (ExprKind.mem_children_of_operands ho) (h.operand ho)

variable {facts}

/-- An invariant expression that is not the layer itself is in one of its operands. -/
theorem foundIn_node {id : ExprId} {k : ExprKind Expr} {role : Role}
    (hi : role = .value → facts.isInvariant (.node id k) = false) {y : Expr} :
    facts.FoundIn ((Expr.node id k).rolesAs role) y ↔
      ∃ o ∈ k.operands role, facts.FoundIn (o.2.rolesAs o.1) y := by
  rw [Expr.rolesAs_node]
  constructor
  · rintro ⟨hy, hinv⟩
    rcases List.mem_cons.1 hy with hy | hy
    · obtain ⟨hrole, rfl⟩ := Prod.mk.inj hy
      exact absurd (hinv.symm.trans (hi hrole.symm)) (by decide)
    · obtain ⟨o, ho, hy⟩ := List.mem_flatMap.1 hy
      exact ⟨o, ho, hy, hinv⟩
  · rintro ⟨o, ho, hy, hinv⟩
    exact ⟨List.mem_cons_of_mem _ (List.mem_flatMap.2 ⟨o, ho, hy⟩), hinv⟩

/-- What is found are the invariant expressions that are evaluated for their values inside no
other. -/
theorem mem_invariantsAs {x e : Expr} {role : Role} (h : x.Writable role)
    (hnodup : x.subexprs.Nodup) :
    e ∈ facts.invariantsAs x role ↔
      facts.FoundIn (x.rolesAs role) e ∧
        ∀ y, facts.FoundIn (x.rolesAs role) y → e ∈ y.subexprs → y = e := by
  induction x using Expr.ofChildren generalizing role with
  | node id k ih =>
    rcases facts.invariantsAs_node h with ⟨rfl, hi, hself⟩ | ⟨hi, hoperands⟩
    · rw [hself, List.mem_singleton]
      constructor
      · rintro rfl
        refine ⟨⟨Expr.mem_rolesAs_self _ _, hi⟩, fun y hy he => ?_⟩
        exact Expr.subexprs_antisymm (Expr.mem_subexprs_of_rolesAs hy.1) he
      · rintro ⟨he, houter⟩
        refine (houter _ ⟨Expr.mem_rolesAs_self _ _, hi⟩ ?_).symm
        exact Expr.mem_subexprs_of_rolesAs he.1
    · -- The expression itself is not invariant, so all that counts is inside one operand.
      have hoperand : ∀ o ∈ k.operands role, (e ∈ facts.invariantsAs o.2 o.1 ↔
          facts.FoundIn (o.2.rolesAs o.1) e ∧
            ∀ y, facts.FoundIn (o.2.rolesAs o.1) y → e ∈ y.subexprs → y = e) := by
        intro o ho
        have hc := ExprKind.mem_children_of_operands ho
        refine ih o.2 hc (h.operand ho) (List.Sublist.nodup ?_ hnodup)
        exact (Expr.subexprs_sublist hc).trans (List.sublist_cons_self _ _)
      rw [hoperands, List.mem_flatMap, foundIn_node hi]
      constructor
      · rintro ⟨o, ho, he⟩
        obtain ⟨he, houter⟩ := (hoperand o ho).1 he
        refine ⟨⟨o, ho, he⟩, fun y hy hey => ?_⟩
        obtain ⟨o', ho', hy⟩ := (foundIn_node hi).1 hy
        obtain rfl : o' = o := Expr.eq_of_mem_operands hnodup ho' ho
          (Expr.subexprs_trans (Expr.mem_subexprs_of_rolesAs hy.1) hey)
          (Expr.mem_subexprs_of_rolesAs he.1)
        exact houter y hy hey
      · rintro ⟨⟨o, ho, he⟩, houter⟩
        refine ⟨o, ho, (hoperand o ho).2 ⟨he, fun y hy => houter y ?_⟩⟩
        exact (foundIn_node hi).2 ⟨o, ho, hy⟩

end LoopFacts

/-! ## What a loop repeats -/

/-- The expressions that every iteration of a loop evaluates, with their operands; none if the layer
is no loop. -/
def StmtKind.repeated : StmtKind Expr Stmt → List Expr
  | whileLoop cond body => cond.subexprs ++ body.allExprs
  | doLoop body cond => body.allExprs ++ cond.subexprs
  | forLoop _ cond update body =>
    cond.toList.flatMap Expr.subexprs ++ body.allExprs ++ update.flatMap Expr.subexprs
  | forEach _ _ body => body.allExprs
  | _ => []

theorem Stmt.flatMap_topExprs (s : Stmt) : s.topExprs.flatMap Expr.subexprs = s.allExprs :=
  List.flatMap_assoc

theorem StmtKind.flatMap_iterated (k : StmtKind Expr Stmt) :
    k.iterated.flatMap Expr.subexprs = k.repeated := by
  cases k <;> simp [iterated, repeated, Stmt.flatMap_topExprs]

/-- An expression is repeated once. -/
theorem Stmt.repeated_subperm (L : Stmt) : L.kind.repeated.Subperm L.allExprs := by
  obtain ⟨id, k⟩ := L
  rw [allExprs_node, kind]
  cases k with
  | whileLoop cond body =>
    simp only [StmtKind.repeated, StmtKind.exprChildren, StmtKind.stmtChildren,
      List.flatMap_singleton]
    exact .refl _
  | doLoop body cond =>
    simp only [StmtKind.repeated, StmtKind.exprChildren, StmtKind.stmtChildren,
      List.flatMap_singleton]
    exact List.perm_append_comm.subperm
  | forLoop init cond update body =>
    simp only [StmtKind.repeated, StmtKind.exprChildren, StmtKind.stmtChildren,
      List.flatMap_append, List.flatMap_singleton, List.append_assoc]
    refine (List.perm_append_comm.append_left _).subperm.trans (List.Sublist.subperm ?_)
    exact .append (.refl _) (.append (.refl _) (List.sublist_append_right _ _))
  | forEach v iterable body =>
    simp only [StmtKind.repeated, StmtKind.exprChildren, StmtKind.stmtChildren,
      List.flatMap_singleton]
    exact (List.sublist_append_right _ _).subperm
  | _ => exact List.nil_subperm

/-- An expression of the loop is a maximal invariant one: every iteration evaluates it, for its
value, it is invariant, and it is inside no other that is. -/
structure Stmt.Maximal (L : Stmt) (facts : LoopFacts) (e : Expr) : Prop where
  repeated : e ∈ L.kind.repeated
  notTarget : ∀ a ∈ L.allExprs, a.target? ≠ some e
  invariant : facts.isInvariant e = true
  outermost : ∀ y ∈ L.allExprs, facts.isInvariant y = true → e ∈ y.subexprs → y = e

namespace Body

variable {b : Body} {callees : CalleeEffects} {liveness : LivenessInfo} {L : Stmt} {e : Expr}

/-- A statement of an accepted body names every expression at most once. -/
theorem Accepted.nodup_exprIds_stmt (hb : b.Accepted) (hL : L ∈ b.root.flatMap Stmt.substmts) :
    (L.allExprs.map Expr.id).Nodup := Stmt.nodup_exprIds_of_mem hb.nodup_nodes hL

/-- The writing of a target keeps it from being invariant. -/
theorem Accepted.isInvariant_target (hb : b.Accepted) {facts : LoopFacts}
    (hf : facts.effects = .compute b callees) {reads : Bool} (he : b.Uses (.target reads) e) :
    facts.isInvariant e = false := by
  obtain ⟨t, ht, x, hx, he⟩ := he
  have hw : (facts.effects.expr e.id).hasWrites = true := by
    rw [hf, Effects.expr_compute hb ht hx he]
    exact Expr.hasWrites_targetEffects e
  unfold LoopFacts.isInvariant
  split
  any_goals rfl
  rw [LoopFacts.allows, hw]
  rfl

/-- The expressions that the search in a loop finds. -/
def found (b : Body) (callees : CalleeEffects) (liveness : LivenessInfo) (L : Stmt) : List Expr :=
  L.kind.iterated.flatMap (L.loopFacts (.compute b callees) liveness).exprInvariants

/-- What is found in a loop are some of its repeated expressions, in their order. -/
theorem Accepted.found_sublist (hb : b.Accepted) (hL : L ∈ b.root.flatMap Stmt.substmts) :
    (b.found callees liveness L).Sublist L.kind.repeated := by
  rw [found, ← StmtKind.flatMap_iterated]
  refine .flatMap_right _ fun x hx => ?_
  obtain ⟨t, ht, hx⟩ := Stmt.mem_exprChildren_of_iterated hx
  exact LoopFacts.invariantsAs_sublist _ (hb.writable (mem_substmts_trans hL ht) hx)

/-- An invariant expression is evaluated for its value. -/
theorem Accepted.foundIn (hb : b.Accepted) {facts : LoopFacts}
    (hf : facts.effects = .compute b callees) {t : Stmt} (ht : t ∈ b.root.flatMap Stmt.substmts)
    {x : Expr} (hx : x ∈ t.kind.exprChildren) (he : e ∈ x.subexprs)
    (hi : facts.isInvariant e = true) : facts.FoundIn x.roles e := by
  rw [← Expr.map_snd_roles] at he
  obtain ⟨⟨role, _⟩, hrole, rfl⟩ := List.mem_map.1 he
  cases role with
  | value => exact ⟨hrole, hi⟩
  | target reads =>
    exact absurd (hi.symm.trans (hb.isInvariant_target hf ⟨t, ht, x, hx, hrole⟩)) (by decide)

/-- What the search finds in an expression of a statement. -/
theorem Accepted.mem_exprInvariants (hb : b.Accepted) {facts : LoopFacts} {t : Stmt}
    (ht : t ∈ b.root.flatMap Stmt.substmts) {x : Expr} (hx : x ∈ t.kind.exprChildren) :
    e ∈ facts.exprInvariants x ↔
      facts.FoundIn x.roles e ∧ ∀ y, facts.FoundIn x.roles y → e ∈ y.subexprs → y = e := by
  have hnodup := (List.nodup_flatMap.1 ((List.nodup_flatMap.1 hb.nodup_ownExprs).1 t ht)).1 x hx
  exact LoopFacts.mem_invariantsAs (hb.writable ht hx) hnodup

/-- Whatever is found is invariant and lies in no larger invariant. -/
theorem Accepted.maximal_of_mem_found (hb : b.Accepted) (hL : L ∈ b.root.flatMap Stmt.substmts)
    (he : e ∈ b.found callees liveness L) :
    L.Maximal (L.loopFacts (.compute b callees) liveness) e := by
  obtain ⟨x, hiter, he⟩ := List.mem_flatMap.1 he
  obtain ⟨t, ht, hx⟩ := Stmt.mem_exprChildren_of_iterated hiter
  have hroot := mem_substmts_trans hL ht
  obtain ⟨hfound, houter⟩ := (hb.mem_exprInvariants hroot hx).1 he
  have hsub := Expr.mem_subexprs_of_roles hfound.1
  refine ⟨?_, fun a ha htarget => ?_, hfound.2, fun y hy hinv hey => ?_⟩
  · rw [← StmtKind.flatMap_iterated]
    exact List.mem_flatMap.2 ⟨x, hiter, hsub⟩
  · obtain ⟨u, hu, ha⟩ := List.mem_flatMap.1 ha
    obtain ⟨z, hz, ha⟩ := List.mem_flatMap.1 ha
    have hall := mem_allExprs (mem_substmts_trans hL hu) hz ha
    obtain ⟨reads, huses⟩ := hb.uses_target hall htarget
    cases (hb.uses_unique huses ⟨t, hroot, x, hx, hfound.1⟩ rfl).1
  · obtain ⟨u, hu, hy⟩ := List.mem_flatMap.1 hy
    obtain ⟨z, hz, hy⟩ := List.mem_flatMap.1 hy
    have hez := Expr.subexprs_trans hy hey
    obtain rfl : u = t := hb.eq_of_mem_subexprs (mem_substmts_trans hL hu) hroot
      (List.mem_flatMap.2 ⟨z, hz, hez⟩) (List.mem_flatMap.2 ⟨x, hx, hsub⟩)
    obtain rfl : z = x := hb.eq_of_mem_exprChildren hroot hz hx hez hsub
    exact houter y (hb.foundIn rfl hroot hx hy hinv) hey

/-- Every maximal invariant is found. -/
theorem Accepted.mem_found_of_maximal (hb : b.Accepted) (hL : L ∈ b.root.flatMap Stmt.substmts)
    (h : L.Maximal (L.loopFacts (.compute b callees) liveness) e) :
    e ∈ b.found callees liveness L := by
  have hrepeated := h.repeated
  rw [← StmtKind.flatMap_iterated] at hrepeated
  obtain ⟨x, hiter, he⟩ := List.mem_flatMap.1 hrepeated
  obtain ⟨t, ht, hx⟩ := Stmt.mem_exprChildren_of_iterated hiter
  have hroot := mem_substmts_trans hL ht
  refine List.mem_flatMap.2 ⟨x, hiter, (hb.mem_exprInvariants hroot hx).2 ⟨?_, ?_⟩⟩
  · exact hb.foundIn rfl hroot hx he h.invariant
  · intro y hy hey
    have hall : y ∈ L.allExprs :=
      List.mem_flatMap.2 ⟨t, ht, List.mem_flatMap.2 ⟨x, hx, Expr.mem_subexprs_of_roles hy.1⟩⟩
    exact h.outermost y hall hy.2 hey

/-- What the search finds are the maximal invariant expressions. -/
theorem Accepted.mem_found (hb : b.Accepted) (hL : L ∈ b.root.flatMap Stmt.substmts) :
    e ∈ b.found callees liveness L ↔
      L.Maximal (L.loopFacts (.compute b callees) liveness) e :=
  ⟨hb.maximal_of_mem_found hL, hb.mem_found_of_maximal hL⟩

/-- Invariant expressions are comparable. -/
theorem Accepted.comparable_found (hb : b.Accepted) (hL : L ∈ b.root.flatMap Stmt.substmts) :
    Expr.Comparable (b.found callees liveness L) := by
  have hall : ∀ x ∈ b.found callees liveness L, x.subexprs ⊆ b.root.flatMap Stmt.allExprs := by
    intro x hx s hs
    have hx := (L.repeated_subperm).subset ((hb.found_sublist hL).subset hx)
    obtain ⟨t, ht, hx⟩ := List.mem_flatMap.1 hx
    obtain ⟨z, hz, hx⟩ := List.mem_flatMap.1 hx
    exact mem_allExprs (mem_substmts_trans hL ht) hz (Expr.subexprs_trans hx hs)
  intro e he e' he'
  refine ⟨Expr.bare_of_sameAs (hb.idsApart.mono (hall e he) (hall e' he')), ?_⟩
  refine Expr.sameAs_of_bare fun s hs herr => ?_
  have hstable := (LoopFacts.of_isInvariant ((hb.mem_found hL).1 he).invariant).2 s hs
  rw [herr] at hstable
  exact hstable

end Body

/-- The groups hold the maximal invariant expressions of a loop, each once, and expressions that are
equal together. They are found with any hash of the fingerprints. -/
structure LoopInvariants.Exact (i : LoopInvariants) (L : Stmt) (facts : LoopFacts) : Prop where
  once : ((i.groups.flatMap InvariantGroup.occurrences).map Expr.id).Nodup
  maximal : ∀ e, e ∈ i.groups.flatMap InvariantGroup.occurrences ↔ L.Maximal facts e
  together : ∀ e ∈ i.groups.flatMap InvariantGroup.occurrences,
    ∀ e' ∈ i.groups.flatMap InvariantGroup.occurrences,
      ((∃ g ∈ i.groups, e ∈ g.occurrences ∧ e' ∈ g.occurrences) ↔ e.sameAs e' = true)
  hashed : ∀ {κ : Type} [DecidableEq κ] (hash : List (ExprKind Unit) → κ),
    (Buckets.ofList (hash ∘ Expr.fingerprint)
      (L.kind.iterated.flatMap facts.exprInvariants)).groups = i.groups

namespace Body

variable {b : Body} {callees : CalleeEffects} {liveness : LivenessInfo} {L : Stmt}

/-- The groups of one loop. -/
theorem Accepted.exact (hb : b.Accepted) (hL : L ∈ b.root.flatMap Stmt.substmts) :
    (L.invariants (.compute b callees) liveness).Exact L
      (L.loopFacts (.compute b callees) liveness) := by
  have hperm := InvariantGroup.perm_ofList (b.found callees liveness L)
  have hcomp : Expr.Comparable (b.found callees liveness L) := hb.comparable_found hL
  have hsorts := InvariantGroup.sorts_ofList hcomp
  refine ⟨?_, fun e => hperm.mem_iff.trans (hb.mem_found hL), fun e he e' he' => ?_, ?_⟩
  · refine (hperm.map Expr.id).nodup_iff.2 (((hb.found_sublist hL).map _).nodup ?_)
    obtain ⟨l, hl, hsub⟩ := L.repeated_subperm
    exact (hl.map _).nodup_iff.1 ((hsub.map _).nodup (hb.nodup_exprIds_stmt hL))
  · exact (hsorts.sameAs_iff hcomp (hperm.subset he) (hperm.subset he')).symm
  · intro κ _ hash
    refine Buckets.groups_ofList fun e he e' he' hsame => ?_
    rw [Function.comp, Function.comp, ← Expr.fingerprint_bare e, (hcomp e he e' he').1 hsame,
      Expr.fingerprint_bare]

/-- The loops of a body in the order in which a walk meets them. -/
def loopIds (b : Body) : List StmtId :=
  (b.visits.filterMap Visit.stmt?).filter fun id => (b.stmtKind id).isLoop

theorem filterMap_stmt?_visits (b : Body) :
    b.visits.filterMap Visit.stmt? = (b.root.flatMap Stmt.substmts).map Stmt.id := by
  have hparams : (b.params.map Visit.var).filterMap Visit.stmt? = [] := by simp [Visit.stmt?]
  rw [visits, List.filterMap_append, hparams, List.nil_append, Stmt.visitsOfList_eq,
    List.filterMap_flatMap, List.map_flatMap]
  exact List.flatMap_congr fun s _ => s.filterMap_stmt?_visits

/-- The loops are listed in pre-order. -/
theorem Accepted.loopIds_eq (hb : b.Accepted) :
    b.loopIds = ((b.root.flatMap Stmt.substmts).filter (·.kind.isLoop)).map Stmt.id := by
  rw [loopIds, filterMap_stmt?_visits, List.filter_map]
  congr 1
  refine List.filter_congr fun s hs => ?_
  rw [Function.comp, hb.spans.stmtKind hs]
  cases s.kind <;> simp [StmtKind.map, StmtKind.isLoop]

/-- Exactly the reachable loops are listed. -/
theorem Accepted.mem_loopIds (hb : b.Accepted) {id : StmtId} :
    id ∈ b.loopIds ↔ b.Reaches (.stmt id) ∧ (b.stmtKind id).isLoop = true := by
  rw [loopIds, List.mem_filter, filterMap_stmt?_visits, and_congr_left_iff]
  intro _
  constructor
  · intro hid
    obtain ⟨s, hs, rfl⟩ := List.mem_map.1 hid
    obtain ⟨r, hr, hs⟩ := List.mem_flatMap.1 hs
    exact hb.reaches_iff.2 (List.mem_flatMap.2 ⟨r, hr, Stmt.mem_nodes_stmt hs⟩)
  · intro hid
    obtain ⟨s, hs, rfl⟩ := hb.exists_stmt hid
    exact List.mem_map_of_mem hs

/-- The invariants of an accepted body are found loop by loop in the order in which a walk meets
the loops, for every loop that is reached once, and exactly for each of them. -/
theorem invariants_exact (hb : b.Accepted) (callees : CalleeEffects) (liveness : LivenessInfo) :
    (b.invariants (.compute b callees) liveness).map LoopInvariants.loop = b.loopIds ∧
      b.loopIds.Nodup ∧
      (∀ id, id ∈ b.loopIds ↔ b.Reaches (.stmt id) ∧ (b.stmtKind id).isLoop = true) ∧
      ∀ i ∈ b.invariants (.compute b callees) liveness,
        i.Exact (b.stmtTree i.loop)
          ((b.stmtTree i.loop).loopFacts (.compute b callees) liveness) := by
  refine ⟨?_, ?_, fun id => hb.mem_loopIds, fun i hi => ?_⟩
  · rw [hb.loopIds_eq, invariants, List.map_map]
    rfl
  · rw [loopIds, filterMap_stmt?_visits]
    exact hb.nodup_stmtIds.filter _
  · obtain ⟨L, hL, rfl⟩ := List.mem_map.1 hi
    have hroot := (List.mem_filter.1 hL).1
    have htree : b.stmtTree (L.invariants (.compute b callees) liveness).loop = L :=
      hb.spans.stmtTree hroot
    rw [htree]
    exact hb.exact hroot

/-- A loop `for (; i < n; i++)` around `a[x * y] = x * y + 1;` and
`do s = x * y; while (s < i);`. -/
def products : Body where
  name := "products"
  vars := #[⟨"a", .array (.prim .int), .param, .dummy⟩, ⟨"i", .prim .int, .param, .dummy⟩,
    ⟨"n", .prim .int, .param, .dummy⟩, ⟨"s", .prim .int, .param, .dummy⟩,
    ⟨"x", .prim .int, .param, .dummy⟩, ⟨"y", .prim .int, .param, .dummy⟩]
  exprs := #[⟨.dummy, .var 1⟩, ⟨.dummy, .var 2⟩, ⟨.dummy, .binary 0 (.order .lt) 1⟩,
    ⟨.dummy, .var 4⟩, ⟨.dummy, .var 5⟩, ⟨.dummy, .binary 3 (.arith .mul) 4⟩,
    ⟨.dummy, .var 0⟩, ⟨.dummy, .index 6 5⟩,
    ⟨.dummy, .var 4⟩, ⟨.dummy, .var 5⟩, ⟨.dummy, .binary 8 (.arith .mul) 9⟩,
    ⟨.dummy, .lit (.int 1)⟩, ⟨.dummy, .binary 10 (.arith .add) 11⟩, ⟨.dummy, .assign 7 none 12⟩,
    ⟨.dummy, .var 3⟩, ⟨.dummy, .var 4⟩, ⟨.dummy, .var 5⟩, ⟨.dummy, .binary 15 (.arith .mul) 16⟩,
    ⟨.dummy, .assign 14 none 17⟩,
    ⟨.dummy, .var 3⟩, ⟨.dummy, .var 1⟩, ⟨.dummy, .binary 19 (.order .lt) 20⟩,
    ⟨.dummy, .var 1⟩, ⟨.dummy, .unary (.step ⟨true, false⟩) 22⟩]
  stmts := #[⟨.dummy, .expr 13⟩, ⟨.dummy, .expr 18⟩, ⟨.dummy, .doLoop 1 21⟩,
    ⟨.dummy, .block [0, 2]⟩, ⟨.dummy, .forLoop [] (some 2) [23] 3⟩]
  params := [0, 1, 2, 3, 4, 5]
  block := [4]

/-- Two loops, one in the other, with equal products in one group. -/
theorem invariants_exact_products :
    products.Accepted ∧
      ((products.invariants (.compute products scaleSignatures.get?) (.compute products)).map
        fun i => (i.loop, i.groups.map fun g => g.occurrences.map Expr.id)) =
          [(4, [[5, 17], [12]]), (2, [[17]])] ∧
      ∀ i ∈ products.invariants (.compute products scaleSignatures.get?) (.compute products),
        i.Exact (products.stmtTree i.loop) ((products.stmtTree i.loop).loopFacts
          (.compute products scaleSignatures.get?) (.compute products)) := by
  have hb : products.Accepted :=
    ⟨products.has_of_reaches (by decide) (by decide) (by decide), by decide⟩
  have hexact := invariants_exact hb scaleSignatures.get? (.compute products)
  exact ⟨hb, by decide +kernel, hexact.2.2.2⟩

end Body

end Midend
