import Midend.Proofs.Fold.Rounds
import Midend.Proofs.Effect.Performed
import Midend.Proofs.Liveness.Pointwise
import Midend.Proofs.Liveness.Recorded

/-!
# Folding and liveness

A round of folding makes no variable live (`Body.foldRound_liveness`). What an
expression without effects is replaced by reads nothing, and the expression writes
nothing that would have been overwritten (`Expr.mem_liveIn_of_out`); an arm that is
chosen needs no more than both arms together. Targets are not replaced, so what is
written before the round is written after it, and the walks over the statements,
which grow with what their expressions need, give no larger sets for the body after
the round than for the body before it.
-/

namespace Midend

open IdSet

variable {v : VarId}

/-! ## Expressions -/

namespace Expr

variable {p : IdSet} {callees : CalleeEffects}

/-- A protected variable is live before any expression. -/
theorem mem_liveIn_of_protect {e : Expr} {o : IdSet} (h : v ∈ p) : v ∈ e.liveIn p o := by
  obtain ⟨id, k⟩ := e
  cases k with
  | unary op e => cases op <;> exact mem_union.2 (.inr h)
  | binary l op r => cases op <;> exact mem_union.2 (.inr h)
  | _ => exact mem_union.2 (.inr h)

/-- What is live after expressions, and live through each of them, is live before them. -/
theorem mem_listIn_of_out :
    ∀ {es : List Expr} {o : IdSet}, (∀ e ∈ es, ∀ {o : IdSet}, v ∈ o → v ∈ e.liveIn p o) → v ∈ o →
      v ∈ listIn p o es
  | [], _, _, ho => ho
  | e :: _, _, h, ho =>
    h e List.mem_cons_self (mem_listIn_of_out (fun x hx => h x (List.mem_cons_of_mem e hx)) ho)

theorem mem_operandsIn_of_out {k : ExprKind Expr} {o : IdSet}
    (h : ∀ e ∈ k.children, ∀ {o : IdSet}, v ∈ o → v ∈ e.liveIn p o) (ho : v ∈ o) :
    v ∈ operandsIn p o k := by
  cases k with
  | lit | var | err => exact ho
  | field receiver =>
    cases receiver with
    | none => exact ho
    | some e => exact h e (by simp [ExprKind.children]) ho
  | unary op e | paren e | cast ty e | instanceOf e ty => exact h e (by simp [ExprKind.children]) ho
  | assign l op r | binary l op r | index l r =>
    exact h l (by simp [ExprKind.children]) (h r (by simp [ExprKind.children]) ho)
  | conditional c t f =>
    exact h c (by simp [ExprKind.children]) (h t (by simp [ExprKind.children])
      (h f (by simp [ExprKind.children]) ho))
  | create ty args => exact mem_listIn_of_out h ho
  | call receiver callee args =>
    cases receiver with
    | none => exact mem_listIn_of_out h ho
    | some e =>
      rw [ExprKind.children, Option.toList_some, List.singleton_append, List.forall_mem_cons] at h
      exact h.1 (mem_listIn_of_out h.2 ho)

/-- An expression without effects that show overwrites nothing, so what is live after it is live
before it. -/
theorem mem_liveIn_of_out {e : Expr} (h : ¬(e.effects callees).Shows) {o : IdSet} (ho : v ∈ o) :
    v ∈ e.liveIn p o := by
  induction e using ofChildren generalizing o with
  | node id k ih =>
    have h : ¬((node id k).effectsAs callees .value).Shows := h
    have hoperand : ∀ o ∈ k.operands .value, ¬(o.2.effectsAs callees o.1).Shows :=
      fun o ho hshows => h (shows_of_operand ho hshows)
    have hvalue : k.operands .value = k.children.map (.value, ·) →
        ∀ c ∈ k.children, ∀ {o : IdSet}, v ∈ o → v ∈ c.liveIn p o := by
      intro hk c hc o ho
      exact ih c hc (hoperand (.value, c) (hk ▸ List.mem_map_of_mem hc)) ho
    cases k with
    | assign l op r => exact (hoperand _ List.mem_cons_self (targetEffects_shows _ _)).elim
    | unary op e =>
      cases op with
      | step s => exact (hoperand _ List.mem_cons_self (targetEffects_shows _ _)).elim
      | _ => exact mem_union.2 (.inl (mem_operandsIn_of_out (hvalue rfl) ho))
    | var w => exact mem_union.2 (.inl (mem_insert.2 (.inl ho)))
    | binary l op r =>
      cases op with
      | logic op =>
        exact mem_union.2 (.inl (hvalue rfl l List.mem_cons_self (mem_union.2 (.inl ho))))
      | _ => exact mem_union.2 (.inl (mem_operandsIn_of_out (hvalue rfl) ho))
    | conditional c t f =>
      have ht : v ∈ t.liveIn p o := hvalue rfl t (by simp [ExprKind.children]) ho
      exact mem_union.2 (.inl (hvalue rfl c List.mem_cons_self (mem_union.2 (.inl ht))))
    | field receiver =>
      cases receiver with
      | none => exact mem_union.2 (.inl ho)
      | some e =>
        exact mem_union.2 (.inl (mem_operandsIn_of_out (k := .field (some e) _ _) (hvalue rfl) ho))
    | call receiver =>
      cases receiver with
      | none =>
        exact mem_union.2 (.inl (mem_operandsIn_of_out (k := .call none _ _) (hvalue rfl) ho))
      | some e =>
        exact mem_union.2 (.inl (mem_operandsIn_of_out (k := .call (some e) _ _) (hvalue rfl) ho))
    | _ => exact mem_union.2 (.inl (mem_operandsIn_of_out (hvalue rfl) ho))

theorem readAs_map (id : ExprId) (k : ExprKind Expr) (g : Expr → Expr) (role : Role) :
    (node id (k.map g)).readAs role = (node id k).readAs role := by
  cases role with
  | value => cases k <;> rfl
  | target reads => cases reads <;> cases k <;> rfl

end Expr

namespace Body

variable {b c : Body} {callees : CalleeEffects} {values : IdMap Value}
  {σ origin : ExprId → ExprId}

/-- Nothing more is live before a replacement than before what it replaces. -/
theorem Accepted.leAt_of_replaces (h : b.Accepted) {e r : Expr}
    (hr : b.Replaces (b.foldFacts callees values) e r) : r.LeAt v e := by
  intro p p' o o' hp ho hv
  rcases hr.result with ⟨j, l, rfl, hconst⟩ | hsimp
  · obtain ⟨hpure, -⟩ := FoldFacts.constant?_eq_some _ hconst
    obtain ⟨t, ht, x, hx, hmem⟩ := hr.evaluated
    rw [foldFacts, Effects.expr_compute h ht hx hmem] at hpure
    rcases mem_union.1 hv with hv | hv
    · exact Expr.mem_liveIn_of_out (EffectSet.not_shows_of_isPure hpure) (ho hv)
    · exact Expr.mem_liveIn_of_protect (hp hv)
  · cases hsimp with
    | paren _ => exact mem_union.2 (.inl (r.liveIn_mono hp ho hv))
    | @arm id c t f w hc _ =>
      have hquiet : ¬(c.effects callees).Shows := by
        obtain ⟨i, k⟩ := c
        obtain rfl : k = .lit (.bool w) := hc
        rintro ⟨κ, -, hs⟩
        rw [Expr.effects, Expr.kindEffects, EffectSet.has_none] at hs
        cases hs
      refine mem_union.2 (.inl (Expr.mem_liveIn_of_out hquiet (mem_union.2 ?_)))
      cases w with
      | true => exact .inl (t.liveIn_mono hp ho hv)
      | false => exact .inr (f.liveIn_mono hp ho hv)

/-- What a replacement reads is read by what it replaces. -/
theorem Replaces.reads {facts : FoldFacts} {e r : Expr} (hr : b.Replaces facts e r) {q : Role}
    {s : Expr} (hs : (q, s) ∈ r.roles) : s.readAs q = none ∨ (q, s) ∈ e.roles := by
  rcases hr.result with ⟨j, l, rfl, -⟩ | hsimp
  · obtain ⟨rfl, rfl⟩ := Prod.mk.inj (List.mem_singleton.1 hs)
    exact .inl rfl
  · have hr : (Role.value, r) ∈ e.rolesAs .value := by
      cases hsimp with
      | paren _ => exact Expr.mem_rolesAs_operand (List.mem_singleton_self _)
      | @arm id c t f w _ _ =>
        refine Expr.mem_rolesAs_operand ?_
        cases w <;> simp [ExprKind.operands, ExprKind.children]
    exact .inr (Expr.rolesAs_trans hr hs)

section

variable (h : b.Accepted) (ha : b.Applied (b.edits callees values) σ origin c)

include h ha

/-- With its replacements an expression needs no more than before. -/
theorem leAs_subst {e : Expr} {role : Role} (he : b.Uses role e) :
    (e.subst (b.replacement (b.edits callees values) σ)).LeAs v e role := by
  induction e using Expr.ofChildren generalizing role with
  | node id k ih =>
    cases hρ : b.replacement (b.edits callees values) σ id with
    | some r =>
      have hr := (standsFor_of_replacement h ha he.mem hρ).replaces
      obtain ⟨rfl, -⟩ := h.uses_unique he hr.evaluated rfl
      rw [Expr.subst_of_some (e := .node id k) hρ]
      exact h.leAt_of_replaces hr
    | none =>
      rw [Expr.subst_of_none (e := .node id k) hρ]
      exact Expr.leAs_map fun o ho =>
        ih o.2 (ExprKind.mem_children_of_operands ho) (he.operand ho)

/-- With its replacements an expression reads no variable more than before. -/
theorem reads_subst {e : Expr} {role : Role} (he : b.Uses role e) {q : Role} {s : Expr}
    (hs : (q, s) ∈ (e.subst (b.replacement (b.edits callees values) σ)).rolesAs role)
    (hv : s.readAs q = some v) : ∃ q' s', (q', s') ∈ e.rolesAs role ∧ s'.readAs q' = some v := by
  induction e using Expr.ofChildren generalizing role with
  | node id k ih =>
    cases hρ : b.replacement (b.edits callees values) σ id with
    | some r =>
      have hr := (standsFor_of_replacement h ha he.mem hρ).replaces
      obtain ⟨rfl, -⟩ := h.uses_unique he hr.evaluated rfl
      rw [Expr.subst_of_some (e := .node id k) hρ] at hs
      rcases hr.reads hs with hnone | hs
      · cases hnone.symm.trans hv
      · exact ⟨q, s, hs, hv⟩
    | none =>
      rw [Expr.subst_of_none (e := .node id k) hρ, Expr.rolesAs_node, ExprKind.operands_map,
        List.flatMap_map] at hs
      rcases List.mem_cons.1 hs with hs | hs
      · obtain ⟨rfl, rfl⟩ := Prod.mk.inj hs
        rw [Expr.readAs_map] at hv
        exact ⟨q, .node id k, Expr.mem_rolesAs_self _ _, hv⟩
      · obtain ⟨o, ho, hs⟩ := List.mem_flatMap.1 hs
        obtain ⟨q', s', hs', hv'⟩ :=
          ih o.2 (ExprKind.mem_children_of_operands ho) (he.operand ho) hs
        exact ⟨q', s', Expr.rolesAs_trans (Expr.mem_rolesAs_operand ho) hs', hv'⟩

/-- The trees after a round are those before it, with other expressions that need and read no
more. -/
theorem exists_root_eq_mapList :
    ∃ g : Expr → Expr, c.root = Stmt.mapList g b.root ∧ (∀ v e, (g e).LeAt v e) ∧
      ∀ e, (g e).reads ⊆ e.reads := by
  classical
  let ρ := b.replacement (b.edits callees values) σ
  -- Nothing is known of expressions that the body does not evaluate, so they are left alone.
  refine ⟨fun e => if b.Uses .value e then e.subst ρ else e, ?_, fun v e => ?_, fun e => ?_⟩
  · rw [root_applied h ha, Stmt.mapList_eq]
    refine List.map_congr_left fun s hs => Stmt.mapExprs_congr fun t ht x hx => ?_
    have hx : b.Uses .value x :=
      ⟨t, List.mem_flatMap.2 ⟨s, hs, ht⟩, x, hx, Expr.mem_rolesAs_self x .value⟩
    exact (if_pos hx).symm
  · by_cases he : b.Uses .value e
    · simp only [if_pos he]
      exact leAs_subst h ha he
    · simp only [if_neg he]
      exact .refl v e
  · by_cases he : b.Uses .value e
    · simp only [if_pos he]
      intro v hv
      obtain ⟨⟨q, s⟩, hs, hv⟩ := List.mem_filterMap.1 hv
      obtain ⟨q', s', hs', hv'⟩ := reads_subst h ha he hs hv
      exact List.mem_filterMap.2 ⟨(q', s'), hs', hv'⟩
    · simp only [if_neg he]
      exact fun _ hv => hv

end

end Body

/-! ## Statements -/

/-- Every entry of a statement in `es` has one in `es'` with no less of `v`. -/
def EntriesLeAt (v : VarId) (es es' : List LiveEntry) : Prop :=
  ∀ ⦃id live out⦄, .stmt id live out ∈ es →
    ∃ live' out', .stmt id live' out' ∈ es' ∧ (v ∈ live → v ∈ live') ∧ (v ∈ out → v ∈ out')

namespace EntriesLeAt

variable {es es' fs fs' : List LiveEntry}

theorem append (h : EntriesLeAt v es es') (h' : EntriesLeAt v fs fs') :
    EntriesLeAt v (es ++ fs) (es' ++ fs') := by
  intro id live out hm
  rcases List.mem_append.1 hm with hm | hm
  · obtain ⟨live', out', hm, hle⟩ := h hm
    exact ⟨live', out', List.mem_append_left _ hm, hle⟩
  · obtain ⟨live', out', hm, hle⟩ := h' hm
    exact ⟨live', out', List.mem_append_right _ hm, hle⟩

/-- Entries of expressions are not compared. -/
theorem of_no_stmt (h : es.filterMap LiveEntry.stmtId? = []) : EntriesLeAt v es es' := by
  intro id live out hm
  have hid : id ∈ es.filterMap LiveEntry.stmtId? := List.mem_filterMap.2 ⟨_, hm, rfl⟩
  rw [h] at hid
  cases hid

/-- The entries of expressions play no part in the comparison. -/
theorem expr {e e' : Expr} {p p' o o' : IdSet} :
    EntriesLeAt v (e.liveEntries p o) (e'.liveEntries p' o') :=
  of_no_stmt (e.liveEntries_stmtIds o)

theorem exprs {xs xs' : List Expr} {p p' o o' : IdSet} :
    EntriesLeAt v (Expr.listEntries p o xs) (Expr.listEntries p' o' xs') :=
  of_no_stmt (Expr.listEntries_stmtIds xs o)

end EntriesLeAt

namespace Stmt

variable {all : IdSet} {rounds : Nat} {g : Expr → Expr}

mutual

/-- What a walk records of a statement grows as what it finds before it. -/
theorem liveEntries_mapExprs (hg : ∀ e, (g e).LeAt v e) :
    ∀ (s : Stmt) {t u : Targets} {o o' : IdSet}, t.LeAt v u → (v ∈ o → v ∈ o') →
      EntriesLeAt v ((s.mapExprs g).liveEntries all rounds t o) (s.liveEntries all rounds u o')
  | node n kind, t, u, o, o', ht, ho => by
    refine (kindEntries_mapKind hg kind ht ho).append fun id live out hm => ?_
    obtain ⟨hid, hlive, hout⟩ := LiveEntry.stmt.inj (List.mem_singleton.1 hm)
    rw [hid, hlive, hout]
    exact ⟨_, _, List.mem_singleton_self _, liveIn_mapExprs hg (node n kind) ht ho,
      mem_union_imp ho ht.protect⟩

/-- Replacing expressions by ones that read less keeps every statement's set or makes it smaller. -/
theorem kindEntries_mapKind (hg : ∀ e, (g e).LeAt v e) :
    ∀ (k : StmtKind Expr Stmt) {t u : Targets} {o o' : IdSet}, t.LeAt v u → (v ∈ o → v ∈ o') →
      EntriesLeAt v (kindEntries all rounds t o (mapKind g k)) (kindEntries all rounds u o' k)
  | .decl .., _, _, _, _, _, _ | .ret _, _, _, _, _, _, _ => .exprs
  | .expr _, _, _, _, _, _, _ | .throw _, _, _, _, _, _, _ => .expr
  | .assert .., _, _, _, _, _, _ => .append .exprs .expr
  | .breakOut, _, _, _, _, _, _ | .continueLoop, _, _, _, _, _, _ | .empty, _, _, _, _, _, _
  | .err, _, _, _, _, _, _ => .of_no_stmt rfl
  | .block body, _, _, _, _, ht, ho => listEntries_mapList hg body ht ho
  | .branch _ a none, _, _, _, _, ht, ho => (liveEntries_mapExprs hg a ht ho).append .expr
  | .branch _ a (some b), _, _, _, _, ht, ho =>
    ((liveEntries_mapExprs hg a ht ho).append (liveEntries_mapExprs hg b ht ho)).append .expr
  | .whileLoop c body, _, _, _, _, ht, ho =>
    have h := walkedHead_mono (fun h => hg c ht.protect
      (mem_union_imp ho (liveIn_mapExprs hg body (ht.breakable ho h) h))) (hg c ht.protect ho) _
    (liveEntries_mapExprs hg body (ht.breakable ho h) h).append .expr
  | .doLoop body c, _, _, _, _, ht, ho =>
    have h := walkedHead_mono (fun h => hg c ht.protect
      (mem_union_imp ho (liveIn_mapExprs hg body (ht.breakable ho h) h))) (hg c ht.protect ho) _
    (liveEntries_mapExprs hg body (ht.breakable ho h) h).append .expr
  | .forLoop init c update body, _, _, _, _, ht, ho =>
    have hwalk := fun {x y : IdSet} (h : v ∈ x → v ∈ y) =>
      have hu := Expr.listIn_map ht.protect (fun e (_ : e ∈ update) => hg e) h
      conditionIn_map hg ht.protect ho (liveIn_mapExprs hg body (ht.breakable ho hu) hu) c
    have h := walkedHead_mono hwalk (conditionIn_map hg ht.protect ho (fun h => h) c) _
    have hu := Expr.listIn_map ht.protect (fun e (_ : e ∈ update) => hg e) h
    ((EntriesLeAt.exprs.append (liveEntries_mapExprs hg body (ht.breakable ho hu) hu)).append
      .exprs).append (listEntries_mapList hg init ht (hwalk h))
  | .forEach w _ body, _, _, _, _, ht, ho =>
    have h := walkedHead_mono (fun h =>
      mem_union_imp ho (mem_erase_imp (liveIn_mapExprs hg body (ht.breakable ho h) h) w)) ho _
    (liveEntries_mapExprs hg body (ht.breakable ho h) h).append .expr
  | .switch _ cases, _, _, _, _, ht, ho =>
    ((caseEntries_mapCases hg cases (ht.breakable ho ht.cont) ho).append .exprs).append .expr
  | .guarded resources body catches none, t, u, o, o', ht, ho => by
    have hh : v ∈ catchesIn all rounds t o (mapCatches g catches) →
        v ∈ catchesIn all rounds u o' catches := catchesIn_mapCatches hg catches ht ho
    have hblock := ht.through (mem_union_imp (fun h : v ∈ resourceVars resources => h) hh)
    have hout := mem_union_imp ho fun h : v ∈ resourceVars resources => h
    rw [mapKind, kindEntries, kindEntries, resourceVars_mapList]
    exact ((catchEntries_mapCatches hg catches ht ho).append
      (listEntries_mapList hg body hblock hout)).append
        (listEntries_mapList hg resources (ht.through hh) (listIn_mapList hg body hblock hout))
  | .guarded resources body catches (some finalizer), t, u, o, o', ht, ho => by
    have hexit := mem_union_imp ho ht.anyExit
    have hf : v ∈ listIn all rounds t (o ∪ t.anyExit) (mapList g finalizer) →
        v ∈ listIn all rounds u (o' ∪ u.anyExit) finalizer := listIn_mapList hg finalizer ht hexit
    have hc : v ∈ catchesIn all rounds (t.through _) _ (mapCatches g catches) →
        v ∈ catchesIn all rounds (u.through _) _ catches :=
      catchesIn_mapCatches hg catches (ht.through hf) hf
    have hh := mem_union_imp hf hc
    have hblock := ht.through (mem_union_imp (fun h : v ∈ resourceVars resources => h) hh)
    have hout := mem_union_imp hf fun h : v ∈ resourceVars resources => h
    rw [mapKind, kindEntries, kindEntries, resourceVars_mapList]
    exact (((listEntries_mapList hg finalizer ht hexit).append
      (catchEntries_mapCatches hg catches (ht.through hf) hf)).append
        (listEntries_mapList hg body hblock hout)).append
          (listEntries_mapList hg resources (ht.through hh) (listIn_mapList hg body hblock hout))

theorem listEntries_mapList (hg : ∀ e, (g e).LeAt v e) :
    ∀ (ss : List Stmt) {t u : Targets} {o o' : IdSet}, t.LeAt v u → (v ∈ o → v ∈ o') →
      EntriesLeAt v (listEntries all rounds t o (mapList g ss)) (listEntries all rounds u o' ss)
  | [], _, _, _, _, _, _ => .of_no_stmt rfl
  | s :: ss, _, _, _, _, ht, ho =>
    (listEntries_mapList hg ss ht ho).append
      (liveEntries_mapExprs hg s ht (listIn_mapList hg ss ht ho))

theorem caseEntries_mapCases (hg : ∀ e, (g e).LeAt v e) :
    ∀ (cs : List (SwitchCase Expr Stmt)) {t u : Targets} {o o' : IdSet}, t.LeAt v u →
      (v ∈ o → v ∈ o') →
      EntriesLeAt v (caseEntries all rounds t o (mapCases g cs)) (caseEntries all rounds u o' cs)
  | [], _, _, _, _, _, _ => .of_no_stmt rfl
  | ⟨_, _, body⟩ :: cs, _, _, _, _, ht, ho =>
    (caseEntries_mapCases hg cs ht ho).append
      (listEntries_mapList hg body ht (casesIn_mapCases hg cs ht ho).1)

theorem catchEntries_mapCatches (hg : ∀ e, (g e).LeAt v e) :
    ∀ (cs : List (CatchClause Stmt)) {t u : Targets} {o o' : IdSet}, t.LeAt v u →
      (v ∈ o → v ∈ o') →
      EntriesLeAt v (catchEntries all rounds t o (mapCatches g cs))
        (catchEntries all rounds u o' cs)
  | [], _, _, _, _, _, _ => .of_no_stmt rfl
  | ⟨_, _, body⟩ :: cs, _, _, _, _, ht, ho =>
    (listEntries_mapList hg body ht ho).append (catchEntries_mapCatches hg cs ht ho)

end

end Stmt

/-! ## Tables -/

namespace LivenessInfo

/-- What is found for a statement is what a walk recorded of it, or nothing. -/
theorem compute_cases {b : Body} (hb : b.Accepted) (id : StmtId) :
    .stmt id ((compute b).liveIn id) ((compute b).liveOut id) ∈
        Stmt.listEntries b.allVars 1 {} ∅ b.root ∨
      (compute b).liveIn id = ∅ ∧ (compute b).liveOut id = ∅ := by
  by_cases hid : id ∈ (Stmt.listEntries b.allVars 1 {} ∅ b.root).filterMap LiveEntry.stmtId?
  · left
    obtain ⟨entry, hentry, hid⟩ := List.mem_filterMap.1 hid
    cases entry with
    | expr i live => cases hid
    | stmt i live out =>
      obtain rfl : i = id := Option.some.inj hid
      obtain ⟨hin, hout⟩ := compute_of_mem hb hentry
      rwa [hin, hout]
  · have hempty : (Array.replicate b.stmts.size (∅ : IdSet)).getD id ∅ = ∅ := by
      rw [Array.getD_eq_getD_getElem?, Array.getElem?_replicate]
      split <;> rfl
    exact .inr ⟨(get_foldl_put_of_not_mem (·.liveIn id) liveIn_put_of_ne hid).trans hempty,
      (get_foldl_put_of_not_mem (·.liveOut id) liveOut_put_of_ne hid).trans hempty⟩

end LivenessInfo

namespace Stmt

/-- What a statement closes does not depend on its expressions. -/
theorem closedVars_mapExprs (g : Expr → Expr) (s : Stmt) :
    (s.mapExprs g).closedVars = s.closedVars := by
  obtain ⟨id, k⟩ := s
  cases k with
  | branch c t f => cases f <;> rfl
  | guarded resources body catches finalizer =>
    cases finalizer <;> exact filterMap_declaredVar?_mapList g resources
  | _ => rfl

/-- A statement of simpler expressions reads no more itself. -/
theorem ownReads_mapExprs {g : Expr → Expr} (hg : ∀ e, (g e).reads ⊆ e.reads) (s : Stmt) :
    (s.mapExprs g).ownReads ⊆ s.ownReads := by
  rw [ownReads_eq, ownReads_eq, closedVars_mapExprs, exprChildren_mapExprs, List.flatMap_map]
  refine fun v hv => List.mem_append.2 ((List.mem_append.1 hv).imp_left fun hv => ?_)
  obtain ⟨e, he, hv⟩ := List.mem_flatMap.1 hv
  exact List.mem_flatMap.2 ⟨e, he, hg e hv⟩

end Stmt

/-- A round of folding that succeeds makes no variable live: neither before nor after any
statement, nor where the body starts, nor anywhere. -/
theorem Body.foldRound_liveness {b : Body} {callees : CalleeEffects} (h : b.Accepted) {n : Nat}
    (hn : (b.foldRound callees).result = .ok n) :
    let before := LivenessInfo.compute b
    let after := LivenessInfo.compute (b.foldRound callees).body
    (∀ id, ∀ v ∈ after.liveIn id, v ∈ before.liveIn id) ∧
      (∀ id, ∀ v ∈ after.liveOut id, v ∈ before.liveOut id) ∧
      (∀ v ∈ after.entry, v ∈ before.entry) ∧ ∀ v ∈ after.everLive, v ∈ before.everLive := by
  intro before after
  obtain ⟨haccepted, hframe, -⟩ := h.roundKeeps hn
  obtain ⟨-, -, hbody⟩ := foldRound_of_ok hn
  obtain ⟨σ, origin, ha⟩ := (h.ready callees b.roundValues).applied
  obtain ⟨g, hroot, hneeds, hreads⟩ := exists_root_eq_mapList h ha
  have hroot : (b.foldRound callees).body.root = Stmt.mapList g b.root := hbody ▸ hroot
  have hall : (b.foldRound callees).body.allVars = b.allVars := by
    rw [allVars, allVars, hframe.vars]
  have hstmt : ∀ id v, (v ∈ after.liveIn id → v ∈ before.liveIn id) ∧
      (v ∈ after.liveOut id → v ∈ before.liveOut id) := by
    intro id v
    rcases LivenessInfo.compute_cases haccepted id with hentry | ⟨hin, hout⟩
    · rw [hroot, hall] at hentry
      obtain ⟨live, out, hentry, hle⟩ :=
        Stmt.listEntries_mapList (hneeds v) b.root (.refl v {}) (fun h => h) hentry
      obtain ⟨hin, hout⟩ := LivenessInfo.compute_of_mem h hentry
      exact ⟨fun hv => hin ▸ hle.1 hv, fun hv => hout ▸ hle.2 hv⟩
    · exact ⟨fun hv => absurd (hin ▸ hv) (not_mem_empty v),
        fun hv => absurd (hout ▸ hv) (not_mem_empty v)⟩
  refine ⟨fun id v => (hstmt id v).1, fun id v => (hstmt id v).2, fun v hv => ?_, fun v hv => ?_⟩
  · simp only [before, after, LivenessInfo.compute, LivenessInfo.computeWith,
      LivenessInfo.entry_foldl_put] at hv ⊢
    rw [hroot, hall] at hv
    exact Stmt.listIn_mapList (hneeds v) b.root (.refl v {}) (fun h => h) hv
  · simp only [before, after, LivenessInfo.compute, LivenessInfo.computeWith,
      LivenessInfo.everLive_foldl_put, mem_ofList] at hv ⊢
    rw [hroot, Stmt.mapList_eq, List.flatMap_map] at hv
    simp only [Stmt.substmts_mapExprs, ← List.map_flatMap, List.flatMap_map] at hv
    obtain ⟨s, hs, hv⟩ := List.mem_flatMap.1 hv
    exact List.mem_flatMap.2 ⟨s, hs, s.ownReads_mapExprs hreads hv⟩

/-- Once the sum is known, nothing reads the declared variable of `chosenArm`. -/
theorem Body.foldRound_liveness_chosenArm :
    chosenArm.Accepted ∧ (chosenArm.foldRound noSignatures).result = .ok 2 ∧
      (LivenessInfo.compute chosenArm).liveOut 0 = .singleton 0 ∧
      (LivenessInfo.compute (chosenArm.foldRound noSignatures).body).liveOut 0 = ∅ ∧
      ∀ v ∈ (LivenessInfo.compute (chosenArm.foldRound noSignatures).body).liveIn 1,
        v ∈ (LivenessInfo.compute chosenArm).liveIn 1 := by
  have hresult : (chosenArm.foldRound noSignatures).result = .ok 2 := by rfl
  exact ⟨chosenArm_accepted, hresult, by rfl, by rfl,
    (foldRound_liveness chosenArm_accepted hresult).1 1⟩

end Midend
