import Midend.Proofs.Body.Roles
import Midend.Proofs.Fold.Liveness

/-!
# What a walk makes live

A walk makes nothing live but what is read, and what is read is live where it is
read. Both are said of the entries of a walk by `Accounted`: no set holds a variable
outside of `V`, every expression has an entry, and an entry of an expression that is
read holds the variable. It is proved for expressions in their roles
(`Expr.tallied`) and then for statements (`Stmt.liveEntries_accounted`), for every
`V` that holds what they read and close.
-/

namespace Midend

open IdSet

namespace IdSet

/-- Every member of one set is one of the other. -/
instance : HasSubset IdSet := ⟨fun s t => ∀ v ∈ s, v ∈ t⟩

variable {s t u : IdSet} {v : VarId}

theorem empty_subset (s : IdSet) : (∅ : IdSet) ⊆ s := fun v hv => absurd hv (not_mem_empty v)

theorem union_subset (hs : s ⊆ u) (ht : t ⊆ u) : s ∪ t ⊆ u :=
  fun v hv => (mem_union.1 hv).elim (hs v) (ht v)

theorem erase_subset (hs : s ⊆ u) (w : VarId) : s.erase w ⊆ u :=
  fun v hv => hs v (mem_erase.1 hv).1

theorem insert_subset (hs : s ⊆ u) (hv : v ∈ u) : s.insert v ⊆ u :=
  fun w hw => (mem_insert.1 hw).elim (hs w) fun h => h ▸ hv

end IdSet

/-- The sets of the entry are within `V`. -/
def LiveEntry.Within (V : IdSet) : LiveEntry → Prop
  | expr _ live => live ⊆ V
  | stmt _ live out => live ⊆ V ∧ out ⊆ V

/-- The entries are within `V`. Each of `uses` has an entry, and every entry of an expression is
that of one of `uses` and holds the variable that it reads. -/
structure Accounted (V : IdSet) (uses : List (Role × Expr)) (entries : List LiveEntry) : Prop where
  within : ∀ entry ∈ entries, entry.Within V
  recorded : ∀ u ∈ uses, ∃ live, .expr u.2.id live ∈ entries
  reads : ∀ id live, .expr id live ∈ entries →
    ∃ u ∈ uses, u.2.id = id ∧ ∀ v, u.2.readAs u.1 = some v → v ∈ live

namespace Accounted

variable {V : IdSet} {uses uses' : List (Role × Expr)} {entries entries' : List LiveEntry}

theorem nil : Accounted V [] [] := ⟨nofun, nofun, nofun⟩

theorem append (h : Accounted V uses entries) (h' : Accounted V uses' entries') :
    Accounted V (uses ++ uses') (entries ++ entries') where
  within entry he := (List.mem_append.1 he).elim (h.within entry) (h'.within entry)
  recorded u hu := by
    rcases List.mem_append.1 hu with hu | hu
    · obtain ⟨live, hm⟩ := h.recorded u hu
      exact ⟨live, List.mem_append_left _ hm⟩
    · obtain ⟨live, hm⟩ := h'.recorded u hu
      exact ⟨live, List.mem_append_right _ hm⟩
  reads id live hm := by
    rcases List.mem_append.1 hm with hm | hm
    · obtain ⟨u, hu, hr⟩ := h.reads id live hm
      exact ⟨u, List.mem_append_left _ hu, hr⟩
    · obtain ⟨u, hu, hr⟩ := h'.reads id live hm
      exact ⟨u, List.mem_append_right _ hu, hr⟩

theorem append_nil (h : Accounted V uses entries) : Accounted V (uses ++ []) entries := by
  rwa [List.append_nil]

/-- The order of the uses does not matter. -/
theorem of_mem_iff (h : Accounted V uses entries) (hu : ∀ u, u ∈ uses ↔ u ∈ uses') :
    Accounted V uses' entries where
  within := h.within
  recorded u hm := h.recorded u ((hu u).2 hm)
  reads id live hm := by
    obtain ⟨u, hmem, hr⟩ := h.reads id live hm
    exact ⟨u, (hu u).1 hmem, hr⟩

/-- Operands are walked over from the last to the first. -/
theorem append_swap (h : Accounted V uses entries) (h' : Accounted V uses' entries') :
    Accounted V (uses' ++ uses) (entries ++ entries') :=
  (h.append h').of_mem_iff fun _ => List.perm_append_comm.mem_iff

/-- The entry of an expression after those of its operands. -/
theorem concat {role : Role} {e : Expr} {live : IdSet} (h : Accounted V uses entries)
    (hlive : live ⊆ V) (hread : ∀ v, e.readAs role = some v → v ∈ live) :
    Accounted V ((role, e) :: uses) (entries ++ [.expr e.id live]) := by
  have hlast : Accounted V [(role, e)] [.expr e.id live] := by
    refine ⟨fun entry he => ?_, fun u hu => ?_, fun id l hm => ?_⟩
    · cases List.mem_singleton.1 he
      exact hlive
    · cases List.mem_singleton.1 hu
      exact ⟨live, List.mem_singleton_self _⟩
    · cases List.mem_singleton.1 hm
      exact ⟨(role, e), List.mem_singleton_self _, rfl, hread⟩
  exact h.append_swap hlast

end Accounted

namespace Expr

variable {V : IdSet}

/-- What a walk over the expression in a role finds and records, if `V` holds what is live after
it. A target that is a variable is recorded with what is live before the write. -/
def Tallied (V : IdSet) (e : Expr) : Role → Prop
  | .value => ∀ ⦃p o : IdSet⦄, p ⊆ V → o ⊆ V →
    e.liveIn p o ⊆ V ∧ Accounted V e.roles (e.liveEntries p o)
  | .target reads =>
    (∀ ⦃p o : IdSet⦄, p ⊆ V → o ⊆ V → e.placeIn p o ⊆ V ∧
      (e.localTarget? = none → Accounted V (e.targetRoles reads) (e.placeEntries p o))) ∧
    ∀ w, e.localTarget? = some w → (reads = true → w ∈ V) ∧
      ∀ live, live ⊆ V → (reads = true → w ∈ live) →
        Accounted V (e.targetRoles reads) (e.targetEntries live)

theorem listEntries_accounted :
    ∀ {es : List Expr}, (∀ e ∈ es, e.Tallied V .value) → ∀ {p o : IdSet}, p ⊆ V → o ⊆ V →
      listIn p o es ⊆ V ∧ Accounted V (listRoles es) (listEntries p o es)
  | [], _, _, _, _, ho => ⟨ho, .nil⟩
  | e :: es, h, _, _, hp, ho => by
    obtain ⟨he, hes⟩ := List.forall_mem_cons.1 h
    obtain ⟨hin, hentries⟩ := listEntries_accounted hes hp ho
    exact ⟨(he hp hin).1, hentries.append_swap (he hp hin).2⟩

/-- The operands of a layer, all of them evaluated. -/
theorem operandEntries_accounted {k : ExprKind Expr} (h : ∀ e ∈ k.children, e.Tallied V .value)
    {p o : IdSet} (hp : p ⊆ V) (ho : o ⊆ V) :
    operandsIn p o k ⊆ V ∧ Accounted V (operandRoles k) (operandEntries p o k) := by
  cases k with
  | lit | var | err => exact ⟨ho, .nil⟩
  | field receiver =>
    cases receiver with
    | none => exact ⟨ho, .nil⟩
    | some e => exact h e (List.mem_singleton_self _) hp ho
  | unary op e | paren e | cast ty e | instanceOf e ty =>
    exact h e (List.mem_singleton_self _) hp ho
  | assign l op r | binary l op r | index l r =>
    obtain ⟨hin, hr⟩ := h r (by simp [ExprKind.children]) hp ho
    obtain ⟨hin', hl⟩ := h l (by simp [ExprKind.children]) hp hin
    exact ⟨hin', hr.append_swap hl⟩
  | conditional c t f =>
    obtain ⟨hin, hf⟩ := h f (by simp [ExprKind.children]) hp ho
    obtain ⟨hin', ht⟩ := h t (by simp [ExprKind.children]) hp hin
    obtain ⟨hin'', hc⟩ := h c (by simp [ExprKind.children]) hp hin'
    exact ⟨hin'', (hf.append_swap ht).append_swap hc⟩
  | create ty args => exact listEntries_accounted h hp ho
  | call receiver callee args =>
    cases receiver with
    | none => exact listEntries_accounted h hp ho
    | some e =>
      obtain ⟨he, hargs⟩ := List.forall_mem_cons.1 h
      obtain ⟨hin, hentries⟩ := listEntries_accounted hargs hp ho
      exact ⟨(he hp hin).1, hentries.append_swap (he hp hin).2⟩

/-- A layer of which `V` holds what it reads, on operands in their roles. -/
theorem tallied_node {id : ExprId} {k : ExprKind Expr} {role : Role}
    (hk : ∀ o ∈ k.operands role, o.2.Tallied V o.1)
    (hread : ∀ v, (node id k).readAs role = some v → v ∈ V) : (node id k).Tallied V role := by
  have hvalues : k.operands role = k.children.map (.value, ·) →
      ∀ e ∈ k.children, e.Tallied V .value := by
    intro heq e he
    exact hk (.value, e) (heq ▸ List.mem_map_of_mem he)
  cases role with
  | target reads =>
    -- A target that is no variable is a place whose operands are evaluated.
    have hplace : k.operands (.target reads) = k.children.map (.value, ·) →
        ∀ ⦃p o : IdSet⦄, p ⊆ V → o ⊆ V → operandsIn p o k ⊆ V ∧
          Accounted V (operandRoles k) (operandEntries p o k) :=
      fun heq p o hp ho => operandEntries_accounted (hvalues heq) hp ho
    cases k with
    | paren e =>
      obtain ⟨hplaces, hvars⟩ : e.Tallied V (.target reads) :=
        hk (.target reads, e) (List.mem_singleton_self _)
      refine ⟨fun p o hp ho => ⟨(hplaces hp ho).1, fun hl => ?_⟩, fun w hw => ?_⟩
      · obtain ⟨hin, hentries⟩ := hplaces hp ho
        exact (hentries hl).concat (union_subset hin hp) (by cases reads <;> exact nofun)
      · obtain ⟨hwV, hentries⟩ := hvars w hw
        refine ⟨hwV, fun live hlive hr => ?_⟩
        have hself : Accounted V [(Role.target reads, node id (.paren e))] [.expr id live] :=
          Accounted.nil.concat (e := node id (.paren e)) hlive (by cases reads <;> exact nofun)
        exact hself.append (hentries live hlive hr)
    | var w =>
      refine ⟨fun p o hp ho => ⟨ho, nofun⟩, fun w' hw => ?_⟩
      obtain rfl : w = w' := Option.some.inj hw
      refine ⟨fun hr => hread w (by rw [hr]; rfl), fun live hlive hr => ?_⟩
      refine Accounted.nil.concat (e := node id (.var w)) hlive fun v hv => ?_
      cases reads with
      | false => cases hv
      | true =>
        obtain rfl : w = v := Option.some.inj hv
        exact hr rfl
    | _ =>
      refine ⟨fun p o hp ho => ⟨(hplace rfl hp ho).1, fun _ => ?_⟩, nofun⟩
      obtain ⟨hin, hentries⟩ := hplace rfl hp ho
      exact hentries.concat (union_subset hin hp) (by cases reads <;> exact nofun)
  | value =>
    intro p o hp ho
    cases k with
    | assign l op r =>
      obtain ⟨hplaces, hvars⟩ : l.Tallied V (.target op.isSome) := hk _ List.mem_cons_self
      have hr : r.Tallied V .value := hk (.value, r) (List.mem_cons_of_mem _ List.mem_cons_self)
      rw [liveEntries, liveIn, roles]
      cases hl : l.localTarget? with
      | none =>
        obtain ⟨hin, hentries⟩ := hr hp ho
        obtain ⟨hin', hentries'⟩ := hplaces hp hin
        exact ⟨union_subset hin' hp,
          (hentries.append_swap (hentries' hl)).concat (union_subset hin' hp) nofun⟩
      | some w =>
        obtain ⟨hwV, hentries'⟩ := hvars w hl
        obtain ⟨hin, hentries⟩ := hr hp (erase_subset ho w)
        have hlive : (if op.isSome then (r.liveIn p (o.erase w)).insert w
            else r.liveIn p (o.erase w)) ∪ p ⊆ V := by
          refine union_subset ?_ hp
          split
          · next h => exact insert_subset hin (hwV h)
          · exact hin
        refine ⟨hlive, (hentries.append_swap (hentries' _ hlive fun h => ?_)).concat hlive nofun⟩
        rw [if_pos h]
        exact mem_union.2 (.inl (mem_insert.2 (.inr rfl)))
    | unary op e =>
      cases op with
      | step s =>
        obtain ⟨hplaces, hvars⟩ : e.Tallied V (.target true) := hk _ (List.mem_singleton_self _)
        rw [liveEntries, liveIn, roles]
        cases hl : e.localTarget? with
        | none =>
          obtain ⟨hin, hentries⟩ := hplaces hp ho
          exact ⟨union_subset hin hp, (hentries hl).concat (union_subset hin hp) nofun⟩
        | some w =>
          obtain ⟨hwV, hentries⟩ := hvars w hl
          have hlive : o.insert w ∪ p ⊆ V := union_subset (insert_subset ho (hwV rfl)) hp
          refine ⟨hlive, (hentries _ hlive fun _ => ?_).concat hlive nofun⟩
          exact mem_union.2 (.inl (mem_insert.2 (.inr rfl)))
      | _ =>
        obtain ⟨hin, hentries⟩ := operandEntries_accounted (hvalues rfl) hp ho
        exact ⟨union_subset hin hp, hentries.concat (union_subset hin hp) nofun⟩
    | binary l op r =>
      have hc := hvalues rfl
      cases op with
      | logic op =>
        obtain ⟨hin, hr⟩ := hc r (by simp [ExprKind.children]) hp ho
        obtain ⟨hin', hl⟩ := hc l (by simp [ExprKind.children]) hp (union_subset ho hin)
        exact ⟨union_subset hin' hp, (hr.append_swap hl).concat (union_subset hin' hp) nofun⟩
      | _ =>
        obtain ⟨hin, hentries⟩ := operandEntries_accounted hc hp ho
        exact ⟨union_subset hin hp, hentries.concat (union_subset hin hp) nofun⟩
    | conditional c t f =>
      have hc := hvalues rfl
      obtain ⟨htin, ht⟩ := hc t (by simp [ExprKind.children]) hp ho
      obtain ⟨hfin, hf⟩ := hc f (by simp [ExprKind.children]) hp ho
      obtain ⟨hin, hcond⟩ := hc c (by simp [ExprKind.children]) hp (union_subset htin hfin)
      exact ⟨union_subset hin hp,
        ((ht.append hf).append_swap hcond).concat (union_subset hin hp) nofun⟩
    | var w =>
      have hlive : o.insert w ∪ p ⊆ V := union_subset (insert_subset ho (hread w rfl)) hp
      refine ⟨hlive, Accounted.nil.concat (e := node id (.var w)) hlive fun v hv => ?_⟩
      obtain rfl : w = v := Option.some.inj hv
      exact mem_union.2 (.inl (mem_insert.2 (.inr rfl)))
    | _ =>
      obtain ⟨hin, hentries⟩ := operandEntries_accounted (hvalues rfl) hp ho
      exact ⟨union_subset hin hp, hentries.concat (union_subset hin hp) nofun⟩

/-- A walk over an expression makes nothing live but what it reads, and records what it reads where
it is read. -/
theorem tallied {e : Expr} {role : Role}
    (h : ∀ u ∈ e.rolesAs role, ∀ v, u.2.readAs u.1 = some v → v ∈ V) : e.Tallied V role := by
  induction e using ofChildren generalizing role with
  | node id k ih =>
    refine tallied_node (fun o ho => ?_) (h _ (mem_rolesAs_self _ role))
    refine ih o.2 (ExprKind.mem_children_of_operands ho) fun u hu => h u ?_
    rw [rolesAs_node]
    exact List.mem_cons_of_mem _ (List.mem_flatMap.2 ⟨o, ho, hu⟩)

end Expr

/-! ## Statements -/

/-- What is live at the targets is within `V`. -/
structure Targets.Within (V : IdSet) (t : Targets) : Prop where
  brk : t.brk ⊆ V
  cont : t.cont ⊆ V
  ret : t.ret ⊆ V
  protect : t.protect ⊆ V

namespace Targets.Within

variable {V : IdSet} {t : Targets}

/-- The targets inside a loop or switch stay among the variables. -/
theorem breakable (h : t.Within V) {brk cont : IdSet} (hb : brk ⊆ V) (hc : cont ⊆ V) :
    (t.breakable brk cont).Within V := ⟨hb, hc, h.ret, h.protect⟩

/-- A finalizer adds variables only. -/
theorem through (h : t.Within V) {extra : IdSet} (he : extra ⊆ V) : (t.through extra).Within V :=
  ⟨union_subset h.brk he, union_subset h.cont he, union_subset h.ret he,
    union_subset h.protect he⟩

/-- What is live at some exit is among the variables. -/
theorem anyExit (h : t.Within V) : t.anyExit ⊆ V :=
  union_subset (union_subset (union_subset h.brk h.cont) h.ret) h.protect

end Targets.Within

namespace Stmt

variable {V all : IdSet} {rounds : Nat}

/-- The statements have no error among them, and `V` holds what they read and close. -/
def ReadsWithin (V : IdSet) (ss : List Stmt) : Prop :=
  ∀ s ∈ ss, s.kind ≠ .err ∧ ∀ v ∈ s.ownReads, v ∈ V

namespace ReadsWithin

variable {ss ss' : List Stmt} {id : StmtId} {k : StmtKind Expr Stmt}

theorem left (h : ReadsWithin V (ss ++ ss')) : ReadsWithin V ss :=
  fun s hs => h s (List.mem_append_left _ hs)

theorem right (h : ReadsWithin V (ss ++ ss')) : ReadsWithin V ss' :=
  fun s hs => h s (List.mem_append_right _ hs)

theorem nested (h : ReadsWithin V (node id k).substmts) : ReadsWithin V (substmtsOfKind k) :=
  fun s hs => h s (List.mem_cons_of_mem _ hs)

theorem tallied (h : ReadsWithin V (node id k).substmts) {x : Expr} (hx : x ∈ k.exprChildren) :
    x.Tallied V .value := by
  refine Expr.tallied fun u hu v hv => (h _ List.mem_cons_self).2 v (List.mem_append_left _ ?_)
  exact List.mem_flatMap.2 ⟨x, hx, List.mem_filterMap.2 ⟨u, hu, hv⟩⟩

theorem resourceVars {resources body : List Stmt} {catches : List (CatchClause Stmt)}
    {finalizer : Option (List Stmt)}
    (h : ReadsWithin V (node id (.guarded resources body catches finalizer)).substmts) :
    Stmt.resourceVars resources ⊆ V :=
  fun v hv => (h _ List.mem_cons_self).2 v (List.mem_append_right _ (mem_ofList.1 hv))

end ReadsWithin

/-- A loop head stays among the variables when its walk does. -/
theorem walkedHead_subset {walk : IdSet → IdSet} (hw : ∀ head, head ⊆ V → walk head ⊆ V) :
    ∀ (n : Nat) {head : IdSet}, head ⊆ V → walkedHead n walk head ⊆ V
  | 0, _, h => h
  | n + 1, _, h => hw _ (walkedHead_subset hw n h)

theorem conditionIn_subset {c : Option Expr} (hc : ∀ e ∈ c.toList, e.Tallied V .value)
    {p o bodyIn : IdSet} (hp : p ⊆ V) (ho : o ⊆ V) (hb : bodyIn ⊆ V) :
    conditionIn p o c bodyIn ⊆ V := by
  cases c with
  | none => exact hb
  | some e => exact (hc e (List.mem_singleton_self _) hp (union_subset ho hb)).1

/-- Expressions that are evaluated in order. -/
theorem exprs_accounted (es : List Expr) (h : ∀ e ∈ es, e.Tallied V .value) {p o : IdSet}
    (hp : p ⊆ V) (ho : o ⊆ V) :
    Expr.listIn p o es ⊆ V ∧ Accounted V (es.flatMap Expr.roles) (Expr.listEntries p o es) := by
  rw [← Expr.listRoles_eq]
  exact Expr.listEntries_accounted h hp ho

/-- The expressions of statements with their roles. -/
def usesOf (ss : List Stmt) : List (Role × Expr) :=
  ss.flatMap fun s => s.kind.exprChildren.flatMap Expr.roles

theorem usesOf_append (ss ss' : List Stmt) : usesOf (ss ++ ss') = usesOf ss ++ usesOf ss' :=
  List.flatMap_append

mutual

/-- A walk over a statement without errors makes nothing live but what is read or closed in it, and
records what is read where it is read. -/
theorem liveEntries_accounted :
    ∀ (s : Stmt) {t : Targets} {o : IdSet}, ReadsWithin V s.substmts → t.Within V → o ⊆ V →
      s.liveIn all rounds t o ⊆ V ∧
        Accounted V (usesOf s.substmts) (s.liveEntries all rounds t o)
  | node id k, t, o, h, ht, ho => by
    obtain ⟨hin, hentries⟩ := kindEntries_accounted k id h ht ho
    have hlive := union_subset hin ht.protect
    refine ⟨hlive, ?_⟩
    have hself : Accounted V []
        [.stmt id ((node id k).liveIn all rounds t o) (o ∪ t.protect)] := by
      refine ⟨fun entry he => ?_, nofun, fun _ _ hm => by simp at hm⟩
      cases List.mem_singleton.1 he
      exact ⟨hlive, union_subset ho ht.protect⟩
    rw [← List.append_nil (usesOf _)]
    exact hentries.append hself

/-- One case for each form of statement. -/
theorem kindEntries_accounted :
    ∀ (k : StmtKind Expr Stmt) (id : StmtId) {t : Targets} {o : IdSet},
      ReadsWithin V (node id k).substmts → t.Within V → o ⊆ V →
      kindIn all rounds t o k ⊆ V ∧
        Accounted V (k.exprChildren.flatMap Expr.roles ++ usesOf (substmtsOfKind k))
          (kindEntries all rounds t o k)
  | .decl v init, _, _, _, h, ht, ho => by
    obtain ⟨hin, hentries⟩ :=
      exprs_accounted init.toList (fun e he => h.tallied he) ht.protect (erase_subset ho v)
    refine ⟨?_, hentries.append_nil⟩
    cases init <;> exact hin
  | .expr e, _, _, _, h, ht, ho => by
    obtain ⟨hin, hentries⟩ := exprs_accounted [e] (fun e he => h.tallied he) ht.protect ho
    exact ⟨hin, hentries.append_nil⟩
  | .block body, _, _, _, h, ht, ho => listEntries_accounted body h.nested ht ho
  | .branch c a none, _, _, _, h, ht, ho => by
    obtain ⟨hin, ha⟩ := liveEntries_accounted a h.nested ht ho
    obtain ⟨hin', hc⟩ := exprs_accounted [c] (fun e he => h.tallied he) ht.protect
      (union_subset hin ho)
    exact ⟨hin', ha.append_swap hc⟩
  | .branch c a (some b), _, _, _, h, ht, ho => by
    obtain ⟨hain, ha⟩ := liveEntries_accounted a h.nested.left ht ho
    obtain ⟨hbin, hb⟩ := liveEntries_accounted b h.nested.right ht ho
    obtain ⟨hin, hc⟩ := exprs_accounted [c] (fun e he => h.tallied he) ht.protect
      (union_subset hain hbin)
    rw [substmtsOfKind, usesOf_append]
    exact ⟨hin, (ha.append hb).append_swap hc⟩
  | .whileLoop c body, _, t, o, h, ht, ho => by
    have hbody := fun {head} (hh : head ⊆ V) =>
      liveEntries_accounted body h.nested (ht.breakable ho hh) hh
    have hc := fun {s} (hs : s ⊆ V) =>
      exprs_accounted [c] (fun e he => h.tallied he) ht.protect hs
    have hwalk : ∀ head, head ⊆ V →
        c.liveIn t.protect (o ∪ body.liveIn all rounds (t.breakable o head) head) ⊆ V :=
      fun head hh => (hc (union_subset ho (hbody hh).1)).1
    have hhead := walkedHead_subset hwalk rounds (hc ho).1
    obtain ⟨hin, hentries⟩ := hbody hhead
    exact ⟨walkedHead_subset hwalk (rounds + 1) (hc ho).1,
      hentries.append_swap (hc (union_subset ho hin)).2⟩
  | .doLoop body c, _, t, o, h, ht, ho => by
    have hbody := fun {head} (hh : head ⊆ V) =>
      liveEntries_accounted body h.nested (ht.breakable ho hh) hh
    have hc := fun {s} (hs : s ⊆ V) =>
      exprs_accounted [c] (fun e he => h.tallied he) ht.protect hs
    have hwalk : ∀ head, head ⊆ V →
        c.liveIn t.protect (o ∪ body.liveIn all rounds (t.breakable o head) head) ⊆ V :=
      fun head hh => (hc (union_subset ho (hbody hh).1)).1
    have hhead := walkedHead_subset hwalk rounds (hc ho).1
    obtain ⟨hin, hentries⟩ := hbody hhead
    exact ⟨hin, hentries.append_swap (hc (union_subset ho hin)).2⟩
  | .forLoop init c update body, _, t, o, h, ht, ho => by
    have hbody := fun {s} (hs : s ⊆ V) =>
      liveEntries_accounted body h.nested.right (ht.breakable ho hs) hs
    have hupdate := fun {s} (hs : s ⊆ V) => exprs_accounted update
      (fun e he => h.tallied (List.mem_append_right _ he)) ht.protect hs
    have hc : ∀ e ∈ c.toList, e.Tallied V .value :=
      fun e he => h.tallied (List.mem_append_left _ he)
    have hwalk : ∀ head, head ⊆ V → conditionIn t.protect o c
        (body.liveIn all rounds (t.breakable o (Expr.listIn t.protect head update))
          (Expr.listIn t.protect head update)) ⊆ V :=
      fun head hh => conditionIn_subset hc ht.protect ho (hbody (hupdate hh).1).1
    have hstart := conditionIn_subset hc ht.protect ho (empty_subset V)
    obtain ⟨huin, hu⟩ := hupdate (walkedHead_subset hwalk rounds hstart)
    obtain ⟨hbin, hb⟩ := hbody huin
    obtain ⟨-, hcond⟩ := exprs_accounted _ hc ht.protect (union_subset ho hbin)
    obtain ⟨-, hinit⟩ := listEntries_accounted init h.nested.left ht
      (conditionIn_subset hc ht.protect ho hbin)
    obtain ⟨hin, -⟩ := listEntries_accounted init h.nested.left ht
      (walkedHead_subset hwalk (rounds + 1) hstart)
    refine ⟨hin, (((hu.append hb).append hcond).append hinit).of_mem_iff fun u => ?_⟩
    simp only [StmtKind.exprChildren, substmtsOfKind, usesOf_append, List.flatMap_append,
      List.mem_append]
    tauto
  | .forEach v iterable body, _, t, o, h, ht, ho => by
    have hbody := fun {head} (hh : head ⊆ V) =>
      liveEntries_accounted body h.nested (ht.breakable ho hh) hh
    have hwalk : ∀ head, head ⊆ V →
        o ∪ (body.liveIn all rounds (t.breakable o head) head).erase v ⊆ V :=
      fun head hh => union_subset ho (erase_subset (hbody hh).1 v)
    have hhead := walkedHead_subset hwalk rounds ho
    have hi := fun {s} (hs : s ⊆ V) =>
      exprs_accounted [iterable] (fun e he => h.tallied he) ht.protect hs
    exact ⟨(hi (walkedHead_subset hwalk (rounds + 1) ho)).1,
      (hbody hhead).2.append_swap (hi (hwalk _ hhead)).2⟩
  | .switch selector cases, _, t, o, h, ht, ho => by
    obtain ⟨-, hentry, hcases⟩ :=
      caseEntries_accounted cases h.nested (ht.breakable ho ht.cont) ho
    have hentry' :
        switchEntry o cases (casesIn all rounds (t.breakable o t.cont) o cases).2 ⊆ V := by
      unfold switchEntry
      split
      · exact hentry
      · exact union_subset hentry ho
    obtain ⟨hlin, hl⟩ := exprs_accounted (labels cases)
      (fun e he => h.tallied (List.mem_cons_of_mem _ he)) ht.protect hentry'
    obtain ⟨hin, hs⟩ := h.tallied List.mem_cons_self ht.protect hlin
    refine ⟨hin, ((hcases.append hl).append hs).of_mem_iff fun u => ?_⟩
    simp only [StmtKind.exprChildren, substmtsOfKind, labels, List.flatMap_cons, List.mem_append]
    tauto
  | .guarded resources body catches none, _, t, o, h, ht, ho => by
    obtain ⟨hhandlers, hcatches⟩ := catchEntries_accounted catches h.nested.right ht ho
    obtain ⟨hbin, hbody⟩ := listEntries_accounted body h.nested.left.right
      (ht.through (union_subset h.resourceVars hhandlers)) (union_subset ho h.resourceVars)
    obtain ⟨hin, hresources⟩ := listEntries_accounted resources h.nested.left.left
      (ht.through hhandlers) hbin
    refine ⟨hin, ((hcatches.append hbody).append hresources).of_mem_iff fun u => ?_⟩
    simp only [StmtKind.exprChildren, substmtsOfKind, usesOf_append, List.flatMap_nil,
      List.mem_append]
    tauto
  | .guarded resources body catches (some finalizer), _, t, o, h, ht, ho => by
    obtain ⟨hfin, hfinal⟩ := listEntries_accounted finalizer h.nested.right ht
      (union_subset ho ht.anyExit)
    obtain ⟨hcin, hcatches⟩ := catchEntries_accounted catches h.nested.left.right
      (ht.through hfin) hfin
    have hhandlers := union_subset hfin hcin
    obtain ⟨hbin, hbody⟩ := listEntries_accounted body h.nested.left.left.right
      (ht.through (union_subset h.resourceVars hhandlers)) (union_subset hfin h.resourceVars)
    obtain ⟨hin, hresources⟩ := listEntries_accounted resources h.nested.left.left.left
      (ht.through hhandlers) hbin
    refine ⟨hin, (((hfinal.append hcatches).append hbody).append hresources).of_mem_iff fun u => ?_⟩
    simp only [StmtKind.exprChildren, substmtsOfKind, usesOf_append, List.flatMap_nil,
      List.mem_append]
    tauto
  | .throw e, _, _, _, h, ht, _ => by
    obtain ⟨hin, hentries⟩ :=
      exprs_accounted [e] (fun e he => h.tallied he) ht.protect ht.protect
    exact ⟨hin, hentries.append_nil⟩
  | .assert c message, _, _, _, h, ht, ho => by
    obtain ⟨hmin, hm⟩ := exprs_accounted message.toList
      (fun e he => h.tallied (List.mem_cons_of_mem _ he)) ht.protect ht.protect
    obtain ⟨hin, hc⟩ := h.tallied List.mem_cons_self ht.protect (union_subset hmin ho)
    exact ⟨union_subset hin ho, (hm.append_swap hc).append_nil⟩
  | .ret e, _, _, _, h, ht, _ => by
    obtain ⟨hin, hentries⟩ :=
      exprs_accounted e.toList (fun e he => h.tallied he) ht.protect ht.ret
    refine ⟨?_, hentries.append_nil⟩
    cases e <;> exact hin
  | .breakOut, _, _, _, _, ht, _ => ⟨ht.brk, .nil⟩
  | .continueLoop, _, _, _, _, ht, _ => ⟨ht.cont, .nil⟩
  | .empty, _, _, _, _, _, ho => ⟨ho, .nil⟩
  | .err, _, _, _, h, _, _ => absurd rfl (h _ List.mem_cons_self).1

theorem listEntries_accounted :
    ∀ (ss : List Stmt) {t : Targets} {o : IdSet}, ReadsWithin V (substmtsOfList ss) → t.Within V →
      o ⊆ V → listIn all rounds t o ss ⊆ V ∧
        Accounted V (usesOf (substmtsOfList ss)) (listEntries all rounds t o ss)
  | [], _, _, _, _, ho => ⟨ho, .nil⟩
  | s :: ss, _, _, h, ht, ho => by
    obtain ⟨hin, hentries⟩ := listEntries_accounted ss h.right ht ho
    obtain ⟨hin', hentries'⟩ := liveEntries_accounted s h.left ht hin
    rw [substmtsOfList, usesOf_append]
    exact ⟨hin', hentries.append_swap hentries'⟩

theorem caseEntries_accounted :
    ∀ (cs : List (SwitchCase Expr Stmt)) {t : Targets} {o : IdSet},
      ReadsWithin V (substmtsOfCases cs) → t.Within V → o ⊆ V →
      (casesIn all rounds t o cs).1 ⊆ V ∧ (casesIn all rounds t o cs).2 ⊆ V ∧
        Accounted V (usesOf (substmtsOfCases cs)) (caseEntries all rounds t o cs)
  | [], _, _, _, _, ho => ⟨ho, empty_subset V, .nil⟩
  | ⟨_, _, body⟩ :: cs, _, _, h, ht, ho => by
    obtain ⟨hnext, hentry, hentries⟩ := caseEntries_accounted cs h.right ht ho
    obtain ⟨hfirst, hentries'⟩ := listEntries_accounted body h.left ht hnext
    rw [substmtsOfCases, usesOf_append]
    exact ⟨hfirst, union_subset hentry hfirst, hentries.append_swap hentries'⟩

theorem catchEntries_accounted :
    ∀ (cs : List (CatchClause Stmt)) {t : Targets} {o : IdSet},
      ReadsWithin V (substmtsOfCatches cs) → t.Within V → o ⊆ V →
      catchesIn all rounds t o cs ⊆ V ∧
        Accounted V (usesOf (substmtsOfCatches cs)) (catchEntries all rounds t o cs)
  | [], _, _, _, _, _ => ⟨empty_subset V, .nil⟩
  | ⟨_, param, body⟩ :: cs, _, _, h, ht, ho => by
    obtain ⟨hin, hentries⟩ := listEntries_accounted body h.left ht ho
    obtain ⟨hin', hentries'⟩ := catchEntries_accounted cs h.right ht ho
    rw [substmtsOfCatches, usesOf_append]
    exact ⟨union_subset (erase_subset hin param) hin', hentries.append hentries'⟩

end

end Stmt

end Midend
