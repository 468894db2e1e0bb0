import Midend.Proofs.Liveness.Accounted
import Midend.Proofs.Liveness.Transfer
import Midend.Proofs.Liveness.Heads

/-!
# Variables that are live somewhere

What the entries of a walk hold is what the tables hold for each node
(`LivenessInfo.liveInExpr_foldl_put`), so a variable that is read is live before the
expression that reads it and a resource is live after one of the resources declared
with it. In the other direction nothing is live that is not read or closed. Hence the
variables that are live somewhere are those of the live sets, and they are those
that are read or closed (`LivenessInfo.everLive_eq`).
-/

namespace Midend

open IdSet

namespace Stmt

variable {all : IdSet} {rounds : Nat}

/-- What is live after a list of statements is recorded as live after one of them. -/
theorem exists_out (t : Targets) (o : IdSet) :
    ∀ {ss : List Stmt}, ss ≠ [] → ∃ s ∈ ss, ∃ live out,
      .stmt s.id live out ∈ listEntries all rounds t o ss ∧ o ⊆ out
  | [], hne => absurd rfl hne
  | [s], _ => ⟨s, List.mem_singleton_self s, _, _, mem_liveEntries_self s,
      fun _ hv => mem_union.2 (.inl hv)⟩
  | _ :: r :: rs, _ => by
    obtain ⟨s, hs, live, out, hm, hout⟩ := exists_out t o (List.cons_ne_nil r rs)
    exact ⟨s, List.mem_cons_of_mem _ hs, live, out, List.mem_append_left _ hm, hout⟩

/-- The resources of a `try` statement are live through its block, so one of them is recorded with
all of them. -/
theorem exists_out_resources (t : Targets) (o : IdSet) {resources body : List Stmt}
    {catches : List (CatchClause Stmt)} {finalizer : Option (List Stmt)} {v : VarId}
    (hv : v ∈ resourceVars resources) :
    ∃ r ∈ resources, ∃ live out, .stmt r.id live out ∈
      kindEntries all rounds t o (.guarded resources body catches finalizer) ∧ v ∈ out := by
  have hne : resources ≠ [] := by
    rintro rfl
    exact not_mem_empty v hv
  have hblock : ∀ {u : Targets} {o' handlers : IdSet}, v ∈ listIn all rounds
      (u.through (resourceVars resources ∪ handlers)) (o' ∪ resourceVars resources) body := by
    intro u o' handlers
    by_cases hbody : body = []
    · subst hbody
      exact mem_union.2 (.inr hv)
    · exact mem_listIn_of_protect (mem_union.2 (.inr (mem_union.2 (.inl hv)))) hbody
  cases finalizer with
  | none =>
    obtain ⟨r, hr, live, out, hm, hout⟩ := exists_out _ _ hne
    exact ⟨r, hr, live, out, List.mem_append_right _ hm, hout v hblock⟩
  | some finalizer =>
    obtain ⟨r, hr, live, out, hm, hout⟩ := exists_out _ _ hne
    exact ⟨r, hr, live, out, List.mem_append_right _ hm, hout v hblock⟩

end Stmt

/-! ## Reads -/

namespace Expr

/-- Parentheses pass their role on. -/
theorem rolesAs_peel (e : Expr) (reads : Bool) :
    (.target reads, e.peel) ∈ e.rolesAs (.target reads) := by
  induction e using ofChildren with
  | node id k ih =>
    cases k with
    | paren inner =>
      have hi := ih inner (List.mem_singleton_self _)
      exact rolesAs_trans (mem_rolesAs_operand (o := (.target reads, inner))
        (List.mem_singleton_self _)) hi
    | _ => exact mem_rolesAs_self _ _

/-- A local that is assigned is a variable once the parentheses are off. -/
theorem kind_peel_of_localTarget? {e : Expr} {v : VarId} (h : e.localTarget? = some v) :
    e.peel.kind = .var v := by
  unfold localTarget? at h
  split at h
  · next w hw => rw [hw, Option.some.inj h]
  · cases h

theorem peel_of_var {e : Expr} {v : VarId} (h : e.kind = .var v) : e.peel = e := by
  obtain ⟨id, k⟩ := e
  obtain rfl : k = .var v := h
  rfl

/-- Only a variable is read. -/
theorem kind_of_readAs {e : Expr} {role : Role} {v : VarId} (h : e.readAs role = some v) :
    e.kind = .var v := by
  unfold readAs at h
  split at h
  · split at h
    · next w hw => rw [hw, Option.some.inj h]
    · cases h
  · split at h
    · next w hw => rw [hw, Option.some.inj h]
    · cases h
  · cases h

/-- The assignment or step writes the target, and reads it or not. -/
inductive Targets : Expr → Bool → Expr → Prop
  | assign {id : ExprId} {l r : Expr} {op : Option BinOp} :
    Targets (.node id (.assign l op r)) op.isSome l
  | step {id : ExprId} {s : Step} {l : Expr} : Targets (.node id (.unary (.step s) l)) true l

/-- What is used as a target is one, inside of parentheses or not. -/
theorem exists_targets {x e : Expr} {reads : Bool} : ∀ role : Role,
    (.target reads, e) ∈ x.rolesAs role →
      role = .target reads ∧ x.peel = e.peel ∨
        ∃ a ∈ x.subexprs, ∃ l, a.Targets reads l ∧ l.peel = e.peel := by
  induction x using ofChildren with
  | node id k ih =>
    intro role h
    rw [rolesAs_node] at h
    rcases List.mem_cons.1 h with h | h
    · obtain ⟨rfl, rfl⟩ := Prod.mk.inj h
      exact .inl ⟨rfl, rfl⟩
    · obtain ⟨⟨r, c⟩, ho, h⟩ := List.mem_flatMap.1 h
      have hc := ExprKind.mem_children_of_operands ho
      rcases ih c hc r h with ⟨hr, hpeel⟩ | ⟨a, ha, l, hl⟩
      · obtain rfl : r = .target reads := hr
        rcases ExprKind.target_of_operands ho with ⟨hrole, hk⟩ | ⟨hrole, rfl⟩
        · subst hrole
          refine .inr ⟨_, mem_subexprs_self _, c, ?_, hpeel⟩
          rcases hk with ⟨op, y, rfl⟩ | ⟨s, rfl⟩
          · obtain ⟨hreads, -⟩ | hfalse : reads = op.isSome ∧ c = c ∨ False := by
              simpa [ExprKind.operands] using ho
            · exact hreads ▸ .assign
            · exact hfalse.elim
          · obtain rfl : reads = true := by simpa [ExprKind.operands] using ho
            exact .step
        · exact .inl ⟨hrole, hpeel⟩
      · exact .inr ⟨a, subexprs_subset hc ha, l, hl⟩

end Expr

/-! ## Tables -/

namespace LivenessInfo

/-- What is found for an expression is what an entry holds, if there is one. -/
theorem liveInExpr_foldl_put {id : ExprId} :
    ∀ (entries : List LiveEntry) {info : LivenessInfo}, id < info.exprIn.size →
      .expr id ((entries.foldl put info).liveInExpr id) ∈ entries ∨
        (∀ live, .expr id live ∉ entries) ∧
          (entries.foldl put info).liveInExpr id = info.liveInExpr id
  | [], _, _ => .inr ⟨fun _ => List.not_mem_nil, rfl⟩
  | entry :: entries, info, hid => by
    have hsize : id < (info.put entry).exprIn.size := by
      cases entry <;> simpa [put] using hid
    rw [List.foldl_cons]
    rcases liveInExpr_foldl_put entries hsize with hmem | ⟨hnone, heq⟩
    · exact .inl (List.mem_cons_of_mem _ hmem)
    · cases entry with
      | stmt i live out =>
        exact .inr ⟨fun l hl => hnone l (by simpa using hl), heq⟩
      | expr i live =>
        by_cases hi : i = id
        · subst hi
          refine .inl ?_
          rw [heq]
          simp [put, liveInExpr, Array.getD_eq_getD_getElem?, hid]
        · refine .inr ⟨fun l hl => ?_, heq.trans ?_⟩
          · rcases List.mem_cons.1 hl with hl | hl
            · exact hi (LiveEntry.expr.inj hl).1.symm
            · exact hnone l hl
          · simp [put, liveInExpr, Array.getD_eq_getD_getElem?, Array.getElem?_setIfInBounds_ne hi]

/-- What is found for an expression of an accepted body is what a walk recorded of it, or nothing if
none was recorded. -/
theorem compute_expr_cases {b : Body} (hb : b.Accepted) {e : Expr}
    (he : e ∈ b.root.flatMap Stmt.allExprs) :
    .expr e.id ((compute b).liveInExpr e.id) ∈ Stmt.listEntries b.allVars 1 {} ∅ b.root ∨
      (∀ live, .expr e.id live ∉ Stmt.listEntries b.allVars 1 {} ∅ b.root) ∧
        (compute b).liveInExpr e.id = ∅ := by
  have hid := hb.expr_lt he
  refine (liveInExpr_foldl_put _ ?_).imp_right fun ⟨hnone, heq⟩ => ⟨hnone, heq.trans ?_⟩
  · simpa using hid
  · simp [liveInExpr, Array.getD_eq_getD_getElem?, hid]

/-- What a `try` statement closes is live after one of its resources. -/
theorem exists_out_of_closedVars {b : Body} (hb : b.Accepted) {s : Stmt}
    (hs : s ∈ b.root.flatMap Stmt.substmts) {v : VarId} (hv : v ∈ s.closedVars) :
    ∃ r ∈ b.root.flatMap Stmt.substmts, v ∈ (compute b).liveOut r.id := by
  obtain ⟨t, o, hentries⟩ :=
    Stmt.listEntries_walkedIn b.root {} ∅ (Stmt.substmtsOfList_eq b.root ▸ hs)
  obtain ⟨id, k⟩ := s
  cases k with
  | guarded resources body catches finalizer =>
    obtain ⟨r, hr, live, out, hm, hout⟩ := Stmt.exists_out_resources t o (mem_ofList.2 hv)
    refine ⟨r, Body.mem_substmts_trans hs (Stmt.mem_substmts_child ?_), ?_⟩
    · cases finalizer <;> simp [Stmt.kind, StmtKind.stmtChildren, hr]
    · rwa [(compute_of_mem hb (hentries (List.mem_append_left _ hm))).2]
  | _ => cases hv

/-- A variable is ever live when some statement reads or closes it. -/
theorem mem_everLive {b : Body} {v : VarId} :
    v ∈ (compute b).everLive ↔ ∃ s ∈ b.root.flatMap Stmt.substmts, v ∈ s.ownReads := by
  rw [compute, computeWith, everLive_foldl_put, mem_ofList, List.mem_flatMap]

end LivenessInfo

/-! ## Bodies -/

namespace Body

/-- Some expression reads the variable: a name that is not the target of a plain assignment, or an
assignment with an operator or a step whose target it is. -/
def ReadsVar (b : Body) (v : VarId) : Prop :=
  (∃ e ∈ b.root.flatMap Stmt.allExprs, e.kind = .var v ∧
    ∀ a ∈ b.root.flatMap Stmt.allExprs, ∀ l, a.Targets false l → l.peel ≠ e) ∨
  ∃ a ∈ b.root.flatMap Stmt.allExprs, ∃ l, a.Targets true l ∧ l.localTarget? = some v

/-- Some `try` statement declares the variable as a resource. -/
def ClosesVar (b : Body) (v : VarId) : Prop :=
  ∃ s ∈ b.root.flatMap Stmt.substmts, ∃ resources body catches finalizer,
    s.kind = .guarded resources body catches finalizer ∧ ∃ r ∈ resources, ∃ init,
      r.kind = .decl v init

variable {b : Body}

/-- The target of an assignment or step is used as one, inside of parentheses too. -/
theorem Accepted.uses_targets (hb : b.Accepted) {a l : Expr} {reads : Bool}
    (ha : a ∈ b.root.flatMap Stmt.allExprs) (hl : a.Targets reads l) :
    b.Uses (.target reads) l.peel := by
  obtain ⟨role, hrole⟩ := exists_uses ha
  cases role with
  | target r =>
    -- Neither an assignment nor a step can be written to.
    obtain ⟨t, ht, x, hx, hmem⟩ := hrole
    have hw := hb.writable ht hx r _ hmem
    cases hl <;> cases hw
  | value =>
    have hmem : (.target reads, l) ∈ a.rolesAs .value := by
      cases hl with
      | assign => exact Expr.mem_rolesAs_operand List.mem_cons_self
      | step => exact Expr.mem_rolesAs_operand (List.mem_singleton_self _)
    exact (hrole.sub hmem).sub (Expr.rolesAs_peel l reads)

/-- A variable is read where an expression is used in a role that reads it. -/
theorem Accepted.readsVar_iff (hb : b.Accepted) {v : VarId} :
    b.ReadsVar v ↔ ∃ role e, b.Uses role e ∧ e.readAs role = some v := by
  constructor
  · rintro (⟨e, he, hk, hplain⟩ | ⟨a, ha, l, hl, hv⟩)
    · obtain ⟨role, hrole⟩ := exists_uses he
      refine ⟨role, e, hrole, ?_⟩
      match role, hrole with
      | .value, _ | .target true, _ => rw [Expr.readAs, hk]
      | .target false, ⟨t, ht, x, hx, hmem⟩ =>
        obtain ⟨hr, -⟩ | ⟨a, ha, l, hl, hpeel⟩ := Expr.exists_targets .value hmem
        · cases hr
        · rw [Expr.peel_of_var hk] at hpeel
          exact absurd hpeel (hplain a (mem_allExprs ht hx ha) l hl)
    · refine ⟨_, _, hb.uses_targets ha hl, ?_⟩
      rw [Expr.readAs, Expr.kind_peel_of_localTarget? hv]
  · rintro ⟨role, e, hrole, hv⟩
    have hk := Expr.kind_of_readAs hv
    match role, hrole with
    | .value, hrole =>
      refine .inl ⟨e, hrole.mem, hk, fun a ha l hl hpeel => ?_⟩
      have htarget := hb.uses_targets ha hl
      rw [hpeel] at htarget
      exact absurd (hb.uses_unique hrole htarget rfl).1 nofun
    | .target true, ⟨t, ht, x, hx, hmem⟩ =>
      obtain ⟨hr, -⟩ | ⟨a, ha, l, hl, hpeel⟩ := Expr.exists_targets .value hmem
      · cases hr
      · refine .inr ⟨a, mem_allExprs ht hx ha, l, hl, ?_⟩
        rw [Expr.localTarget?, hpeel, Expr.peel_of_var hk, hk]
    | .target false, _ => cases hv

/-- A variable is closed when some statement declares it as a resource. -/
theorem closesVar_iff {v : VarId} :
    b.ClosesVar v ↔ ∃ s ∈ b.root.flatMap Stmt.substmts, v ∈ s.closedVars := by
  refine exists_congr fun s => and_congr_right fun _ => ⟨?_, fun h => ?_⟩
  · rintro ⟨resources, body, catches, finalizer, hk, r, hr, init, hv⟩
    rw [Stmt.closedVars, hk]
    exact List.mem_filterMap.2 ⟨r, hr, by rw [Stmt.declaredVar?, hv]⟩
  · unfold Stmt.closedVars at h
    split at h
    · next hk =>
      obtain ⟨r, hr, hv⟩ := List.mem_filterMap.1 h
      unfold Stmt.declaredVar? at hv
      split at hv
      · next w init hw => exact ⟨_, _, _, _, hk, r, hr, init, Option.some.inj hv ▸ hw⟩
      · cases hv
    · cases h

end Body

namespace LivenessInfo

variable {b : Body}

/-- The set gathered from the statements is the one read off the tree. -/
theorem mem_everLive_iff (hb : b.Accepted) {v : VarId} :
    v ∈ (compute b).everLive ↔ b.ReadsVar v ∨ b.ClosesVar v := by
  rw [mem_everLive, hb.readsVar_iff, Body.closesVar_iff]
  simp only [Stmt.ownReads_eq, List.mem_append, and_or_left, exists_or]
  refine or_congr_left ⟨?_, ?_⟩
  · rintro ⟨s, hs, hv⟩
    obtain ⟨x, hx, hv⟩ := List.mem_flatMap.1 hv
    obtain ⟨⟨role, e⟩, hu, hv⟩ := List.mem_filterMap.1 hv
    exact ⟨role, e, ⟨s, hs, x, hx, hu⟩, hv⟩
  · rintro ⟨role, e, ⟨s, hs, x, hx, hu⟩, hv⟩
    exact ⟨s, hs, List.mem_flatMap.2 ⟨x, hx, List.mem_filterMap.2 ⟨(role, e), hu, hv⟩⟩⟩

/-- The entries of a body without erroneous statements. -/
theorem accounted (herr : ∀ s ∈ b.root.flatMap Stmt.substmts, s.kind ≠ .err) :
    Accounted (compute b).everLive (Stmt.usesOf (b.root.flatMap Stmt.substmts))
      (Stmt.listEntries b.allVars 1 {} ∅ b.root) := by
  rw [← Stmt.substmtsOfList_eq]
  refine (Stmt.listEntries_accounted b.root (fun s hs => ?_) ?_ (empty_subset _)).2
  · rw [Stmt.substmtsOfList_eq] at hs
    exact ⟨herr s hs, fun v hv => mem_everLive.2 ⟨s, hs, hv⟩⟩
  · exact ⟨empty_subset _, empty_subset _, empty_subset _, empty_subset _⟩

/-- In an accepted body without erroneous statements, the variables that are live somewhere are
those that are live before or after a statement or before an expression. They are those that an
expression reads and those that a `try` statement closes. -/
theorem everLive_eq (hb : b.Accepted)
    (herr : ∀ s ∈ b.root.flatMap Stmt.substmts, s.kind ≠ .err) (v : VarId) :
    (v ∈ (compute b).everLive ↔
      (∃ s ∈ b.root.flatMap Stmt.substmts,
        v ∈ (compute b).liveIn s.id ∨ v ∈ (compute b).liveOut s.id) ∨
      ∃ e ∈ b.root.flatMap Stmt.allExprs, v ∈ (compute b).liveInExpr e.id) ∧
    (v ∈ (compute b).everLive ↔ b.ReadsVar v ∨ b.ClosesVar v) := by
  refine ⟨⟨fun hv => ?_, ?_⟩, mem_everLive_iff hb⟩
  · have haccounted := accounted herr
    rcases (mem_everLive_iff hb).1 hv with hv | hv
    · obtain ⟨role, e, hu, hv⟩ := hb.readsVar_iff.1 hv
      have hmem : (role, e) ∈ Stmt.usesOf (b.root.flatMap Stmt.substmts) := by
        obtain ⟨s, hs, x, hx, he⟩ := hu
        exact List.mem_flatMap.2 ⟨s, hs, List.mem_flatMap.2 ⟨x, hx, he⟩⟩
      refine .inr ⟨e, hu.mem, ?_⟩
      obtain ⟨live, hlive⟩ := haccounted.recorded _ hmem
      have hfound := (compute_expr_cases hb hu.mem).resolve_right fun h => h.1 live hlive
      obtain ⟨⟨role', e'⟩, hu', hid, hread⟩ := haccounted.reads _ _ hfound
      have hu' : b.Uses role' e' := by
        obtain ⟨s, hs, hu'⟩ := List.mem_flatMap.1 hu'
        obtain ⟨x, hx, hu'⟩ := List.mem_flatMap.1 hu'
        exact ⟨s, hs, x, hx, hu'⟩
      obtain ⟨rfl, rfl⟩ := hb.uses_unique hu' hu hid
      exact hread v hv
    · obtain ⟨s, hs, hv⟩ := Body.closesVar_iff.1 hv
      obtain ⟨r, hr, hout⟩ := exists_out_of_closedVars hb hs hv
      exact .inl ⟨r, hr, .inr hout⟩
  · rintro (⟨s, hs, hv⟩ | ⟨e, he, hv⟩)
    · rcases compute_cases hb s.id with hm | ⟨hin, hout⟩
      · obtain ⟨hin, hout⟩ := (accounted herr).within _ hm
        exact hv.elim (hin v) (hout v)
      · rw [hin, hout] at hv
        exact hv.elim (absurd · (not_mem_empty v)) (absurd · (not_mem_empty v))
    · rcases compute_expr_cases hb he with hm | ⟨-, hnone⟩
      · exact (accounted herr).within _ hm v hv
      · rw [hnone] at hv
        exact absurd hv (not_mem_empty v)

/-- `try (r = x) { while (c) y += 1; }` -/
def closesAfterLoop : Body where
  name := "closesAfterLoop"
  vars := #[⟨"c", .prim .boolean, .param, .dummy⟩, ⟨"x", .prim .int, .param, .dummy⟩,
    ⟨"y", .prim .int, .param, .dummy⟩, ⟨"r", .prim .int, .resource, .dummy⟩]
  exprs := #[⟨.dummy, .var 1⟩, ⟨.dummy, .var 0⟩, ⟨.dummy, .var 2⟩, ⟨.dummy, .lit (.int 1)⟩,
    ⟨.dummy, .assign 2 (some (.arith .add)) 3⟩]
  stmts := #[⟨.dummy, .decl 3 (some 0)⟩, ⟨.dummy, .expr 4⟩, ⟨.dummy, .whileLoop 1 1⟩,
    ⟨.dummy, .guarded [0] [2] [] none⟩]
  params := [0, 1, 2]
  block := [3]

/-- Reads in a loop and a resource that is closed after it. -/
theorem everLive_eq_closesAfterLoop :
    closesAfterLoop.Accepted ∧
      (∀ s ∈ closesAfterLoop.root.flatMap Stmt.substmts, s.kind ≠ .err) ∧
      (compute closesAfterLoop).everLive = .ofList [0, 1, 2, 3] ∧
      ((2 ∈ (compute closesAfterLoop).everLive ↔
        closesAfterLoop.ReadsVar 2 ∨ closesAfterLoop.ClosesVar 2) ∧
      (3 ∈ (compute closesAfterLoop).everLive ↔
        closesAfterLoop.ReadsVar 3 ∨ closesAfterLoop.ClosesVar 3)) := by
  have hb : closesAfterLoop.Accepted :=
    ⟨closesAfterLoop.has_of_reaches (by decide) (by decide) (by decide), by decide⟩
  have herr : ∀ s ∈ closesAfterLoop.root.flatMap Stmt.substmts, s.kind ≠ .err := by decide
  exact ⟨hb, herr, by decide, (everLive_eq hb herr 2).2, (everLive_eq hb herr 3).2⟩

end LivenessInfo

end Midend
