import Midend.Proofs.Invariant.Maximal

/-!
# The order of occurrences

A search lists the expressions of a statement before those of the statements nested
in it. A walk in evaluation order meets some of them later: the condition of a `do`
loop, the condition and update of a `for` loop and the labels of a switch group
come after statements nested there (`StmtKind.Overtakes`). The occurrences in a
group are in evaluation order apart from pairs that are overtaken inside the loop
(`Body.occurrences_order`).
-/

namespace Midend

variable {e e' : Expr}

/-- A nested statement with `e'` is evaluated before an expression of the layer with `e`. -/
def StmtKind.Overtakes (k : StmtKind Expr Stmt) (e e' : Expr) : Prop :=
  ∃ s x, [Part.stmt s, .expr x].Sublist k.parts ∧ e ∈ x.subexprs ∧ e' ∈ s.allExprs

/-- The expressions of a part with their operands. -/
def Part.exprs : Part Expr Stmt → List Expr
  | expr x => x.subexprs
  | stmt s => s.allExprs
  | var _ => []

namespace Stmt

/-- The visits of a nested statement are among those of the statement. -/
theorem visits_sublist {s t : Stmt} (h : t ∈ s.substmts) : t.visits.Sublist s.visits := by
  induction s using ofChildren with
  | node id k ih =>
    rw [substmts, substmtsOfKind_eq] at h
    rcases List.mem_cons.1 h with rfl | h
    · exact .refl _
    · obtain ⟨c, hc, h⟩ := List.mem_flatMap.1 h
      rw [visits_node]
      refine ((ih c hc h).trans ?_).cons _
      exact sublist_flatMap (f := Part.visits) (StmtKind.mem_parts_stmt.2 hc)

theorem mem_visits_part {p : Part Expr Stmt} (h : e ∈ p.exprs) : .expr e.id ∈ p.visits := by
  cases p with
  | expr x => exact List.mem_map_of_mem h
  | stmt s => exact Stmt.expr_mem_visits.2 (List.mem_map_of_mem h)
  | var v => cases h

/-- A walk meets the parts of a layer one after the other. -/
theorem visits_of_parts {id : StmtId} {k : StmtKind Expr Stmt} {p q : Part Expr Stmt}
    (h : [p, q].Sublist k.parts) (he : e ∈ p.exprs) (he' : e' ∈ q.exprs) :
    [Visit.expr e.id, .expr e'.id].Sublist (node id k).visits := by
  rw [visits_node]
  exact (pair_sublist_flatMap.2 (.inr ⟨p, q, h, mem_visits_part he, mem_visits_part he'⟩)).cons _

/-- The order within a part is the order within the statement. -/
theorem visits_of_part {id : StmtId} {k : StmtKind Expr Stmt} {p : Part Expr Stmt}
    (hp : p ∈ k.parts) (h : [Visit.expr e.id, .expr e'.id].Sublist p.visits) :
    [Visit.expr e.id, .expr e'.id].Sublist (node id k).visits := by
  rw [visits_node]
  exact (pair_sublist_flatMap.2 (.inl ⟨p, hp, h⟩)).cons _

/-- An expression visits its nodes in pre-order. -/
theorem visits_of_subexprs {x : Expr} (h : [e, e'].Sublist x.subexprs) :
    [Visit.expr e.id, .expr e'.id].Sublist x.visits :=
  List.Sublist.map (fun s : Expr => Visit.expr s.id) h

/-- What is overtaken is met in the other order. -/
theorem visits_of_overtakes {s n : Stmt} (hn : n ∈ s.substmts) (h : n.kind.Overtakes e e') :
    [Visit.expr e'.id, .expr e.id].Sublist s.visits := by
  obtain ⟨t, x, hparts, he, he'⟩ := h
  obtain ⟨id, k⟩ := n
  exact (visits_of_parts hparts he' he).trans (visits_sublist hn)

/-- What is not overtaken is met in the order in which it is listed. -/
theorem visits_of_allExprs {s : Stmt} (h : [e, e'].Sublist s.allExprs)
    (hno : ∀ n ∈ s.substmts, ¬n.kind.Overtakes e e') :
    [Visit.expr e.id, .expr e'.id].Sublist s.visits := by
  induction s using ofChildren with
  | node id k ih =>
    rw [allExprs_node, pair_sublist_append, pair_sublist_flatMap, pair_sublist_flatMap] at h
    rcases h with (⟨x, hx, h⟩ | ⟨x, y, hxy, he, he'⟩) | (⟨c, hc, h⟩ | ⟨c, d, hcd, he, he'⟩) |
      ⟨he, he'⟩
    · exact visits_of_part (StmtKind.mem_parts_expr.2 hx) (visits_of_subexprs h)
    · exact visits_of_parts (StmtKind.pair_sublist_exprChildren.1 hxy) he he'
    · refine visits_of_part (StmtKind.mem_parts_stmt.2 hc) (ih c hc h fun n hn => ?_)
      exact hno n (substmts_subset hc hn)
    · exact visits_of_parts (StmtKind.pair_sublist_stmtChildren.1 hcd) he he'
    · obtain ⟨x, hx, he⟩ := List.mem_flatMap.1 he
      obtain ⟨c, hc, he'⟩ := List.mem_flatMap.1 he'
      rcases pair_sublist_total (StmtKind.mem_parts_expr.2 hx) (StmtKind.mem_parts_stmt.2 hc)
        nofun with h | h
      · exact visits_of_parts h he he'
      · exact absurd ⟨c, x, h, he, he'⟩ (hno _ (mem_substmts_self _))

end Stmt

namespace StmtKind

/-- Whether the layer may have a nested statement before an expression of its own. -/
def isReordered {ε σ : Type} : StmtKind ε σ → Bool
  | doLoop .. | forLoop .. | switch .. => true
  | _ => false

/-- Only a statement that visits its parts out of order lets one expression overtake another. -/
theorem isReordered_of_overtakes {k : StmtKind Expr Stmt} (h : k.Overtakes e e') :
    k.isReordered = true := by
  obtain ⟨s, x, h, -, -⟩ := h
  have hx : x ∈ k.exprChildren := mem_parts_expr.1 (h.subset (by simp))
  have hs : s ∈ k.stmtChildren := mem_parts_stmt.1 (h.subset (by simp))
  cases k with
  | doLoop | forLoop | switch => rfl
  | branch cond onTrue onFalse =>
    simp only [parts, pair_sublist_cons, reduceCtorEq, false_and, or_false, Part.stmt.injEq,
      List.mem_map, and_false, exists_false] at h
    simpa using h.subset (List.mem_cons_of_mem _ (List.mem_singleton_self (Part.expr x)))
  | whileLoop | forEach => simp [parts, pair_sublist_cons] at h
  | decl | assert | ret | expr | throw => cases hs
  | _ => cases hx

/-- What a loop repeats is in some of its parts, in the order of these. -/
theorem exists_repeated_eq (k : StmtKind Expr Stmt) :
    ∃ ps : List (Part Expr Stmt), ps.Sublist k.parts ∧ k.repeated = ps.flatMap Part.exprs := by
  cases k with
  | whileLoop cond body =>
    exact ⟨[.expr cond, .stmt body], .refl _, by simp [repeated, Part.exprs]⟩
  | doLoop body cond =>
    exact ⟨[.stmt body, .expr cond], .refl _, by simp [repeated, Part.exprs]⟩
  | forLoop init cond update body =>
    refine ⟨cond.toList.map .expr ++ .stmt body :: update.map .expr,
      List.sublist_append_right _ _, ?_⟩
    simp [repeated, Part.exprs, List.flatMap_map]
  | forEach v iterable body =>
    exact ⟨[.stmt body], by simp [parts], by simp [repeated, Part.exprs]⟩
  | _ => exact ⟨[], List.nil_sublist _, rfl⟩

end StmtKind

/-- What is repeated and not overtaken inside the loop is met in the order in which it is listed. -/
theorem Stmt.visits_of_repeated {L : Stmt} (h : [e, e'].Sublist L.kind.repeated)
    (hno : ∀ n ∈ substmtsOfKind L.kind, ¬n.kind.Overtakes e e') :
    [Visit.expr e.id, .expr e'.id].Sublist L.visits := by
  obtain ⟨id, k⟩ := L
  obtain ⟨ps, hps, heq⟩ := k.exists_repeated_eq
  rw [kind, heq, pair_sublist_flatMap] at h
  rcases h with ⟨p, hp, h⟩ | ⟨p, q, hpq, he, he'⟩
  · refine visits_of_part (hps.subset hp) ?_
    cases p with
    | expr x => exact visits_of_subexprs h
    | stmt s =>
      have hs := StmtKind.mem_parts_stmt.1 (hps.subset hp)
      refine visits_of_allExprs h fun n hn => hno n ?_
      rw [kind, substmtsOfKind_eq]
      exact List.mem_flatMap.2 ⟨s, hs, hn⟩
    | var v => cases h
  · exact visits_of_parts (hpq.trans hps) he he'

namespace Body

variable {b : Body} {callees : CalleeEffects} {liveness : LivenessInfo} {L : Stmt}

/-- Two expressions of a statement are met in one order only. -/
theorem Accepted.visits_asymm (hb : b.Accepted) (hL : L ∈ b.root.flatMap Stmt.substmts)
    (h : [Visit.expr e.id, .expr e'.id].Sublist L.visits) :
    ¬[Visit.expr e'.id, .expr e.id].Sublist L.visits := by
  have hnodup : (L.visits.filterMap Visit.expr?).Nodup :=
    L.filterMap_expr?_visits_perm.nodup_iff.2 (hb.nodup_exprIds_stmt hL)
  intro h'
  exact pair_sublist_asymm hnodup (h.filterMap Visit.expr?) (h'.filterMap Visit.expr?)

/-- An occurrence is met before one listed after it unless it is overtaken inside the loop. -/
theorem Accepted.occurrences_before_iff (hb : b.Accepted) (hL : L ∈ b.root.flatMap Stmt.substmts)
    {g : InvariantGroup} (hg : g ∈ (L.invariants (.compute b callees) liveness).groups)
    (h : [e, e'].Sublist g.occurrences) :
    [Visit.expr e.id, .expr e'.id].Sublist L.visits ↔
      ¬∃ n ∈ Stmt.substmtsOfKind L.kind, n.kind.Overtakes e e' := by
  have hcomp : Expr.Comparable (b.found callees liveness L) := hb.comparable_found hL
  have hsorts := InvariantGroup.sorts_ofList hcomp
  rw [hsorts.occurrences g hg] at h
  constructor
  · rintro h' ⟨n, hn, hover⟩
    have hmem : n ∈ L.substmts := by
      obtain ⟨id, k⟩ := L
      exact List.mem_cons_of_mem _ hn
    exact hb.visits_asymm hL h' (Stmt.visits_of_overtakes hmem hover)
  · intro hno
    have hrepeated := (h.trans List.filter_sublist).trans (hb.found_sublist hL)
    exact Stmt.visits_of_repeated hrepeated fun n hn hover => hno ⟨n, hn, hover⟩

/-- Of the occurrences in a group, each is met before those listed after it, unless it is overtaken
inside the loop. Where no `do` loop, `for` loop or switch is nested in the loop, all of them are
listed in evaluation order. -/
theorem occurrences_order (hb : b.Accepted) {i : LoopInvariants}
    (hi : i ∈ b.invariants (.compute b callees) liveness) {g : InvariantGroup}
    (hg : g ∈ i.groups) :
    (g.occurrences.Pairwise fun e e' =>
      ([Visit.expr e.id, .expr e'.id].Sublist (b.stmtTree i.loop).visits ↔
        ¬∃ n ∈ Stmt.substmtsOfKind (b.stmtTree i.loop).kind, n.kind.Overtakes e e')) ∧
      ((∀ n ∈ Stmt.substmtsOfKind (b.stmtTree i.loop).kind, n.kind.isReordered = false) →
        g.occurrences.Pairwise fun e e' =>
          [Visit.expr e.id, .expr e'.id].Sublist (b.stmtTree i.loop).visits) := by
  obtain ⟨L, hL, rfl⟩ := List.mem_map.1 hi
  have hroot := (List.mem_filter.1 hL).1
  have htree : b.stmtTree (L.invariants (.compute b callees) liveness).loop = L :=
    hb.spans.stmtTree hroot
  rw [htree, List.pairwise_iff_forall_sublist, List.pairwise_iff_forall_sublist]
  refine ⟨fun h => hb.occurrences_before_iff hroot hg h, fun hall e e' h => ?_⟩
  refine (hb.occurrences_before_iff hroot hg h).2 ?_
  rintro ⟨n, hn, hover⟩
  exact Bool.false_ne_true ((hall n hn).symm.trans (StmtKind.isReordered_of_overtakes hover))

/-- The loop `while (p) do x = a * b; while (a * b > x);`. -/
def nestedDo : Body where
  name := "nestedDo"
  vars := #[⟨"p", .prim .boolean, .param, .dummy⟩, ⟨"a", .prim .int, .param, .dummy⟩,
    ⟨"b", .prim .int, .param, .dummy⟩, ⟨"x", .prim .int, .param, .dummy⟩]
  exprs := #[⟨.dummy, .var 0⟩,
    ⟨.dummy, .var 3⟩, ⟨.dummy, .var 1⟩, ⟨.dummy, .var 2⟩, ⟨.dummy, .binary 2 (.arith .mul) 3⟩,
    ⟨.dummy, .assign 1 none 4⟩,
    ⟨.dummy, .var 1⟩, ⟨.dummy, .var 2⟩, ⟨.dummy, .binary 6 (.arith .mul) 7⟩,
    ⟨.dummy, .var 3⟩, ⟨.dummy, .binary 8 (.order .gt) 9⟩]
  stmts := #[⟨.dummy, .expr 5⟩, ⟨.dummy, .doLoop 0 10⟩, ⟨.dummy, .whileLoop 0 1⟩]
  params := [0, 1, 2, 3]
  block := [2]

theorem nestedDo_accepted : nestedDo.Accepted :=
  ⟨nestedDo.has_of_reaches (by decide) (by decide) (by decide), by decide⟩

/-- The loop `while (p) while (a * b > x) x = a * b;`. -/
def nestedWhile : Body where
  name := "nestedWhile"
  vars := nestedDo.vars
  exprs := #[⟨.dummy, .var 0⟩,
    ⟨.dummy, .var 1⟩, ⟨.dummy, .var 2⟩, ⟨.dummy, .binary 1 (.arith .mul) 2⟩,
    ⟨.dummy, .var 3⟩, ⟨.dummy, .binary 3 (.order .gt) 4⟩,
    ⟨.dummy, .var 3⟩, ⟨.dummy, .var 1⟩, ⟨.dummy, .var 2⟩, ⟨.dummy, .binary 7 (.arith .mul) 8⟩,
    ⟨.dummy, .assign 6 none 9⟩]
  stmts := #[⟨.dummy, .expr 10⟩, ⟨.dummy, .whileLoop 5 0⟩, ⟨.dummy, .whileLoop 0 1⟩]
  params := [0, 1, 2, 3]
  block := [2]

theorem nestedWhile_accepted : nestedWhile.Accepted :=
  ⟨nestedWhile.has_of_reaches (by decide) (by decide) (by decide), by decide⟩

/-- A nested `do` loop breaks the order and a nested `while` loop keeps it. -/
theorem occurrences_order_nested :
    (nestedDo.Accepted ∧
      ∃ i ∈ nestedDo.invariants (.compute nestedDo scaleSignatures.get?) (.compute nestedDo),
        ∃ g ∈ i.groups, g.occurrences.map Expr.id = [8, 4] ∧
          g.occurrences.Pairwise fun e e' =>
            ([Visit.expr e.id, .expr e'.id].Sublist (nestedDo.stmtTree i.loop).visits ↔
              ¬∃ n ∈ Stmt.substmtsOfKind (nestedDo.stmtTree i.loop).kind,
                n.kind.Overtakes e e')) ∧
    nestedWhile.Accepted ∧
      ∃ i ∈ nestedWhile.invariants (.compute nestedWhile scaleSignatures.get?)
          (.compute nestedWhile),
        i.loop = 2 ∧ ∃ g ∈ i.groups, g.occurrences.map Expr.id = [3, 9] ∧
          g.occurrences.Pairwise fun e e' =>
            [Visit.expr e.id, .expr e'.id].Sublist (nestedWhile.stmtTree i.loop).visits := by
  obtain ⟨i, hi, g, hg, hids⟩ :
      ∃ i ∈ nestedDo.invariants (.compute nestedDo scaleSignatures.get?) (.compute nestedDo),
        ∃ g ∈ i.groups, g.occurrences.map Expr.id = [8, 4] := by decide +kernel
  obtain ⟨j, hj, hloop, k, hk, hkids⟩ :
      ∃ i ∈ nestedWhile.invariants (.compute nestedWhile scaleSignatures.get?)
          (.compute nestedWhile),
        i.loop = 2 ∧ ∃ g ∈ i.groups, g.occurrences.map Expr.id = [3, 9] := by decide +kernel
  have hplain : ∀ n ∈ Stmt.substmtsOfKind (nestedWhile.stmtTree j.loop).kind,
      n.kind.isReordered = false := by
    rw [hloop]
    decide +kernel
  exact ⟨⟨nestedDo_accepted, i, hi, g, hg, hids, (occurrences_order nestedDo_accepted hi hg).1⟩,
    nestedWhile_accepted, j, hj, hloop, k, hk, hkids,
    (occurrences_order nestedWhile_accepted hj hk).2 hplain⟩

/-- The condition of the nested loop is listed before the body that is evaluated before it. -/
theorem not_occurrences_inOrder :
    nestedDo.Accepted ∧
      ¬∀ i ∈ nestedDo.invariants (.compute nestedDo scaleSignatures.get?) (.compute nestedDo),
        ∀ g ∈ i.groups, g.occurrences.Pairwise fun e e' =>
          [Visit.expr e.id, .expr e'.id].Sublist (nestedDo.stmtTree i.loop).visits :=
  ⟨nestedDo_accepted, by decide +kernel⟩

end Body

end Midend
