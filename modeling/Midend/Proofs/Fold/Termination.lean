import Mathlib.Algebra.Order.BigOperators.Group.List
import Mathlib.Data.Set.Card
import Midend.Proofs.Fold.Rounds

/-!
# Folding comes to an end

Every edit of a round takes at least one expression out of the body that is not a
literal: it puts a literal in the place of an expression that is none, or one of
its operands in the place of parentheses or a conditional expression. What edits
replace lies apart, so a round with so many edits leaves at least so many fewer
(`nonLiterals_applied`). Rounds can thus not go on for ever; with one round for
each such expression, and one more, the last one changes nothing.

The main result is `Body.fold_terminates`.
-/

namespace Midend

@[simp] theorem ExprKind.isLiteral_map {ε δ : Type} (f : ε → δ) (k : ExprKind ε) :
    (k.map f).isLiteral = k.isLiteral := by
  cases k with
  | field receiver => cases receiver <;> rfl
  | call receiver => cases receiver <;> rfl
  | _ => rfl

namespace Expr

/-! ## One expression -/

/-- How many among the expression and all in it are not literals. -/
def nonLiterals (e : Expr) : Nat := e.subexprs.countP fun s => !s.kind.isLiteral

/-- The nodes of a tree are those of its children and its root. -/
theorem countP_subexprs (p : Expr → Bool) (id : ExprId) (k : ExprKind Expr) :
    (node id k).subexprs.countP p =
      (k.children.map fun c => c.subexprs.countP p).sum + if p (node id k) then 1 else 0 := by
  rw [subexprs, subexprsOfKind_eq, List.countP_cons, List.countP_flatMap]
  rfl

/-- The measure of a tree is that of its children and one for a root that is no literal. -/
theorem nonLiterals_node (id : ExprId) (k : ExprKind Expr) :
    (node id k).nonLiterals =
      (k.children.map nonLiterals).sum + if k.isLiteral = false then 1 else 0 := by
  rw [nonLiterals, countP_subexprs]
  simp only [Bool.not_eq_true']
  rfl

/-- A tree whose root is no literal has a positive measure. -/
theorem nonLiterals_pos {e : Expr} (he : e.kind.isLiteral = false) : 0 < e.nonLiterals := by
  obtain ⟨id, k⟩ := e
  have hk : k.isLiteral = false := he
  rw [nonLiterals_node, if_pos hk]
  exact Nat.succ_pos _

/-- A child has a smaller measure than a parent that is no literal. -/
theorem nonLiterals_lt {e c : Expr} (he : e.kind.isLiteral = false) (hc : c ∈ e.kind.children) :
    c.nonLiterals < e.nonLiterals := by
  obtain ⟨id, k⟩ := e
  have hle := (subexprs_sublist hc).countP_le (p := fun s => !s.kind.isLiteral)
  rw [nonLiterals, nonLiterals, subexprs, List.countP_cons, if_pos (by simpa using he)]
  exact Nat.lt_succ_of_le hle

variable {ρ : ExprId → Option Expr}

/-- If what replaces an expression has fewer that are not literals, and nothing else inside it is
replaced, the whole has fewer by as many as are replaced. -/
theorem nonLiterals_subst_le {e : Expr}
    (hρ : ∀ s ∈ e.subexprs, ∀ r, ρ s.id = some r →
      r.nonLiterals < s.nonLiterals ∧ ∀ x ∈ subexprsOfKind s.kind, ρ x.id = none) :
    (e.subst ρ).nonLiterals + e.subexprs.countP (fun s => (ρ s.id).isSome) ≤ e.nonLiterals := by
  induction e using ofChildren with
  | node id k ih =>
    cases hr : ρ id with
    | some r =>
      obtain ⟨hlt, hinside⟩ := hρ _ (mem_subexprs_self _) r hr
      have hone : (node id k).subexprs.countP (fun s => (ρ s.id).isSome) = 1 := by
        rw [subexprs, List.countP_cons, List.countP_eq_zero.2 fun x hx => ?_]
        · simp [Expr.id, hr]
        · rw [hinside x hx]
          exact Bool.false_ne_true
      rw [subst_of_some (e := node id k) hr, hone]
      exact hlt
    | none =>
      have hchildren : (k.children.map fun c => (c.subst ρ).nonLiterals).sum +
          (k.children.map fun c => c.subexprs.countP fun s => (ρ s.id).isSome).sum ≤
            (k.children.map nonLiterals).sum := by
        rw [← List.sum_map_add]
        exact List.sum_le_sum fun c hc => ih c hc fun s hs => hρ s (subexprs_subset hc hs)
      have hself : ¬(ρ (node id k).id).isSome = true := by
        rw [Expr.id, hr]
        exact Bool.false_ne_true
      rw [subst_of_none (e := node id k) hr, nonLiterals_node, nonLiterals_node, countP_subexprs,
        if_neg hself, Expr.kind, ExprKind.children_map, List.map_map, ExprKind.isLiteral_map]
      change (k.children.map fun c => (c.subst ρ).nonLiterals).sum + _ + _ ≤ _
      omega

end Expr

/-- The expressions of a statement and of those nested in it, after a change to them. -/
theorem Stmt.allExprs_mapExprs (g : Expr → Expr) (s : Stmt) :
    (s.mapExprs g).allExprs =
      (s.substmts.flatMap fun t => t.kind.exprChildren).flatMap fun x => (g x).subexprs := by
  rw [allExprs, substmts_mapExprs, List.flatMap_map, List.flatMap_assoc]
  refine List.flatMap_congr fun t _ => ?_
  rw [exprChildren_mapExprs, List.flatMap_map]

/-- Literals are not rewritten. -/
theorem FoldFacts.isLiteral_of_rewrite? {facts : FoldFacts} {e : Expr} {r : Rewrite}
    (h : facts.rewrite? e = some r) : e.kind.isLiteral = false := by
  unfold rewrite? at h
  split at h
  · cases h
  · next hl => exact Bool.eq_false_of_not_eq_true hl

namespace Body

variable {b c : Body} {callees : CalleeEffects} {values : IdMap Value}
  {σ origin : ExprId → ExprId}

/-! ## Reachable expressions -/

/-- The reachable expressions that are not literals. -/
def nonLiterals (b : Body) : Set ExprId :=
  {i | b.Reaches (.expr i) ∧ (b.exprKind i).isLiteral = false}

/-- The reachable expressions of an accepted body are the nodes of its trees. -/
theorem Accepted.reaches_expr_iff (h : b.Accepted) {i : ExprId} :
    b.Reaches (.expr i) ↔ ∃ e ∈ b.root.flatMap Stmt.allExprs, e.id = i := by
  constructor
  · intro hi
    obtain ⟨s, hs, x, hx, e, he, hid⟩ := h.exists_expr hi
    exact ⟨e, mem_allExprs hs hx he, hid⟩
  · rintro ⟨e, he, rfl⟩
    obtain ⟨s, hs, he⟩ := List.mem_flatMap.1 he
    exact h.reaches_iff.2 (List.mem_flatMap.2 ⟨s, hs, Stmt.mem_nodes_expr he⟩)

/-- The measure of the arena is the measure of the trees. -/
theorem Accepted.ncard_nonLiterals (h : b.Accepted) :
    b.nonLiterals.ncard =
      (b.root.flatMap Stmt.allExprs).countP fun e => !e.kind.isLiteral := by
  have hset : b.nonLiterals =
      ((((b.root.flatMap Stmt.allExprs).filter fun e => !e.kind.isLiteral).map
        Expr.id).toFinset : Set ExprId) := by
    ext i
    have hkind : ∀ e ∈ b.root.flatMap Stmt.allExprs,
        (b.exprKind e.id).isLiteral = e.kind.isLiteral := by
      intro e he
      rw [h.spans.holdsExpr he e (Expr.mem_subexprs_self e), ExprKind.isLiteral_map]
    rw [nonLiterals, Set.mem_ofPred_eq, h.reaches_expr_iff, Finset.mem_coe, List.mem_toFinset,
      List.mem_map]
    constructor
    · rintro ⟨⟨e, he, rfl⟩, hl⟩
      exact ⟨e, List.mem_filter.2 ⟨he, by simpa [hkind e he] using hl⟩, rfl⟩
    · rintro ⟨e, he, rfl⟩
      obtain ⟨he, hl⟩ := List.mem_filter.1 he
      exact ⟨⟨e, he, rfl⟩, by simpa [hkind e he] using hl⟩
  have hnodup := h.nodup_exprIds.sublist ((List.filter_sublist
    (p := fun e : Expr => !e.kind.isLiteral)).map Expr.id)
  rw [hset, Set.ncard_coe_finset, List.toFinset_card_of_nodup hnodup, List.length_map,
    List.countP_eq_length_filter]

/-! ## One round -/

/-- Exactly the expressions the edits name are replaced. -/
theorem isSome_replacement {es : List Edit} {i : ExprId} :
    (b.replacement es σ i).isSome = true ↔ i ∈ es.map Edit.old := by
  simp [replacement]

section

variable (h : b.Accepted)

include h

/-- As many expressions are replaced as there are edits. -/
theorem countP_replacement :
    (b.root.flatMap Stmt.allExprs).countP
      (fun e => (b.replacement (b.edits callees values) σ e.id).isSome) =
        (b.edits callees values).length := by
  have hold : ∀ i ∈ (b.edits callees values).map Edit.old,
      ((b.root.flatMap Stmt.allExprs).map Expr.id).count i = 1 := by
    intro i hi
    obtain ⟨d, hd, rfl⟩ := List.mem_map.1 hi
    obtain ⟨e, he⟩ := h.site hd
    exact List.count_eq_one_of_mem h.nodup_exprIds (he.old ▸ List.mem_map_of_mem he.evaluated.mem)
  rw [← List.length_map Edit.old, ← countP_mem (h.ready callees values).nodup hold, List.countP_map]
  refine List.countP_congr fun e _ => ?_
  rw [isSome_replacement, Function.comp, decide_eq_true_eq]

variable (ha : b.Applied (b.edits callees values) σ origin c)

include ha

/-- What replaces an expression has fewer that are not literals, and nothing else inside it is
replaced. -/
theorem nonLiterals_replacement_lt {e r : Expr} (he : e ∈ b.root.flatMap Stmt.allExprs)
    (hr : b.replacement (b.edits callees values) σ e.id = some r) :
    r.nonLiterals < e.nonLiterals ∧
      ∀ x ∈ Expr.subexprsOfKind e.kind, b.replacement (b.edits callees values) σ x.id = none := by
  obtain ⟨d, hd, hold⟩ := List.mem_map.1 (mem_of_replacement hr)
  obtain ⟨e', hsite⟩ := h.site hd
  obtain rfl : e' = e := h.eq_of_id hsite.evaluated.mem he (hsite.old.trans hold)
  have hlit := FoldFacts.isLiteral_of_rewrite? hsite.rewrite
  refine ⟨?_, fun x hx => replacement_of_not_mem (h.not_mem_old hd hsite.old he hx)⟩
  rcases (standsFor_of_replacement h ha he hr).replaces.result with ⟨j, l, rfl, -⟩ | hsimp
  · exact Expr.nonLiterals_pos hlit
  · exact Expr.nonLiterals_lt hlit hsimp.mem_children

/-- Every edit takes an expression away that is not a literal. -/
theorem nonLiterals_applied :
    c.nonLiterals.ncard + (b.edits callees values).length ≤ b.nonLiterals.ncard := by
  have hall : b.root.flatMap Stmt.allExprs = ((b.root.flatMap Stmt.substmts).flatMap
      fun t => t.kind.exprChildren).flatMap Expr.subexprs := by
    rw [List.flatMap_assoc, List.flatMap_assoc]
    rfl
  have happlied : c.root.flatMap Stmt.allExprs = ((b.root.flatMap Stmt.substmts).flatMap
      fun t => t.kind.exprChildren).flatMap fun x =>
        (x.subst (b.replacement (b.edits callees values) σ)).subexprs := by
    rw [root_applied h ha, List.flatMap_map, List.flatMap_assoc, List.flatMap_assoc]
    refine List.flatMap_congr fun s _ => ?_
    rw [Stmt.allExprs_mapExprs, List.flatMap_assoc]
  rw [(accepted_applied h ha).ncard_nonLiterals, h.ncard_nonLiterals,
    ← countP_replacement h (σ := σ), happlied, hall, List.countP_flatMap, List.countP_flatMap,
    List.countP_flatMap, ← List.sum_map_add]
  refine List.sum_le_sum fun x hx => Expr.nonLiterals_subst_le fun s hs r hr => ?_
  refine nonLiterals_replacement_lt h ha ?_ hr
  rw [hall]
  exact List.mem_flatMap.2 ⟨x, hx, hs⟩

end

/-- A round takes at least one from the measure for each of its rewrites. -/
theorem Accepted.nonLiterals_foldRound (h : b.Accepted) {n : Nat}
    (hn : (b.foldRound callees).result = .ok n) :
    (b.foldRound callees).body.nonLiterals.ncard + n ≤ b.nonLiterals.ncard := by
  obtain ⟨-, rfl, hbody⟩ := foldRound_of_ok hn
  obtain ⟨σ, origin, ha⟩ := (h.ready callees b.roundValues).applied
  rw [hbody]
  exact nonLiterals_applied h ha

/-! ## All rounds -/

/-- Each round that rewrites takes at least one from the measure. -/
theorem Rounds.nonLiterals {k : Nat} (hr : Rounds callees b k c) (h : b.Accepted) :
    c.nonLiterals.ncard + k ≤ b.nonLiterals.ncard := by
  induction hr with
  | none b => exact Nat.le_refl _
  | next hn _ ih =>
    have hround := h.roundKeeps hn
    have hle := h.nonLiterals_foldRound hn
    have hrest := ih hround.accepted
    rw [hround.changed]
    omega

/-- With a round for every expression that is not a literal, and one more, the last round changes
nothing, and so would another. -/
theorem foldFrom_fixpoint :
    ∀ (bound : Nat) {b : Body} (stats : FoldStats) {s : FoldStats}, b.Accepted →
      b.nonLiterals.ncard < bound → (foldFrom callees stats bound b).result = .ok s →
      s.reachedFixpoint = true ∧
        ((foldFrom callees stats bound b).body.foldRound callees).result = .ok 0
  | 0, _, _, _, _, hlt, _ => absurd hlt (Nat.not_lt_zero _)
  | bound + 1, b, stats, s, h, hlt, hs => by
    rw [foldFrom] at hs ⊢
    cases hr : (b.foldRound callees).result with
    | error e =>
      simp only [hr] at hs
      cases hs
    | ok n =>
      have hround := h.roundKeeps hr
      have hle := h.nonLiterals_foldRound hr
      cases n with
      | zero =>
        simp only [hr] at hs ⊢
        obtain ⟨-, hlen, hbody⟩ := foldRound_of_ok hr
        have hsame : (b.foldRound callees).body = b := by
          rw [hbody, List.eq_nil_of_length_eq_zero hlen.symm]
          rfl
        rw [← Except.ok.inj hs, hsame]
        exact ⟨rfl, hr⟩
      | succ n =>
        simp only [hr] at hs ⊢
        exact foldFrom_fixpoint bound _ hround.accepted (by omega) hs

/-- A round that succeeds leaves fewer expressions that are not literals, by as many as it changes.
So folding changes no more slots than the body has of them, whether it succeeds or fails in a later
round, and if it succeeds within more rounds than that its last one changed nothing. -/
theorem fold_terminates (h : b.Accepted) (callees : CalleeEffects) :
    (∀ n, (b.foldRound callees).result = .ok n →
      (b.foldRound callees).body.nonLiterals.ncard + n ≤ b.nonLiterals.ncard) ∧
    (∀ k c, Rounds callees b k c → c.nonLiterals.ncard + k ≤ b.nonLiterals.ncard) ∧
    ∀ bound, ∃ k ≤ b.nonLiterals.ncard, Rounds callees b k (b.fold callees bound).body ∧
      ∀ stats, (b.fold callees bound).result = .ok stats →
        stats.rewrites = k ∧ (b.nonLiterals.ncard + 1 ≤ bound →
          stats.reachedFixpoint = true ∧
            ((b.fold callees bound).body.foldRound callees).result = .ok 0) := by
  refine ⟨fun n hn => h.nonLiterals_foldRound hn, fun k c hr => hr.nonLiterals h, fun bound => ?_⟩
  obtain ⟨k, hk, hok, -⟩ := @foldFrom_rounds callees bound b {} h
  refine ⟨k, ?_, hk, fun stats hs => ⟨?_, fun hbound => ?_⟩⟩
  · exact Nat.le_trans (Nat.le_add_left ..) (hk.nonLiterals h)
  · rw [hok stats hs, Nat.zero_add]
  · exact foldFrom_fixpoint bound {} h hbound hs

/-- Six expressions are no literal, and three rounds reach the fixpoint. -/
theorem fold_terminates_chosenArm :
    chosenArm.Accepted ∧ chosenArm.nonLiterals.ncard = 6 ∧
      (chosenArm.fold noSignatures 7).result = .ok ⟨3, 3, true⟩ ∧
      (chosenArm.fold noSignatures 7).body.nonLiterals.ncard ≤ 3 ∧
      ((chosenArm.fold noSignatures 7).body.foldRound noSignatures).result = .ok 0 := by
  have hcount : chosenArm.nonLiterals.ncard = 6 := by
    rw [chosenArm_accepted.ncard_nonLiterals]
    rfl
  have hresult : (chosenArm.fold noSignatures 7).result = .ok ⟨3, 3, true⟩ := by rfl
  obtain ⟨-, hrounds, hfold⟩ := fold_terminates chosenArm_accepted noSignatures
  obtain ⟨k, -, hk, hok⟩ := hfold 7
  obtain ⟨rfl, hfix⟩ := hok _ hresult
  have hle := hrounds _ _ hk
  refine ⟨chosenArm_accepted, hcount, hresult, ?_, (hfix (by rw [hcount])).2⟩
  rw [hcount] at hle
  exact Nat.le_of_add_le_add_right hle

end Body

end Midend
