import Midend.Liveness.Transfer
import Midend.Proofs.Tree.Subst

/-!
# Liveness of one variable

Whether a variable is live before a node depends only on whether it is live after
the node and at the targets of its jumps, and more live there never makes less
live before (`Stmt.liveIn_mono`). Nor does it if expressions are put in the place of
others that need no less (`Stmt.liveIn_mapExprs`). For one variable a walk over the
body of a loop is therefore a monotone function of a truth value: after the first
walk no other changes anything (`mem_walkedHead`).
-/

namespace Midend

variable {v : VarId}

namespace IdSet

variable {s s' t t' : IdSet}

theorem mem_union_imp (hs : v ∈ s → v ∈ s') (ht : v ∈ t → v ∈ t') (h : v ∈ s ∪ t) :
    v ∈ s' ∪ t' :=
  mem_union.2 ((mem_union.1 h).imp hs ht)

theorem mem_erase_imp (hs : v ∈ s → v ∈ s') (w : VarId) (h : v ∈ s.erase w) : v ∈ s'.erase w :=
  mem_erase.2 ⟨hs (mem_erase.1 h).1, (mem_erase.1 h).2⟩

theorem mem_insert_imp (hs : v ∈ s → v ∈ s') (w : VarId) (h : v ∈ s.insert w) :
    v ∈ s'.insert w :=
  mem_insert.2 ((mem_insert.1 h).imp_left hs)

theorem union_assoc (s t u : IdSet) : s ∪ t ∪ u = s ∪ (t ∪ u) := by
  ext i
  simp [or_assoc]

theorem union_empty (s : IdSet) : s ∪ ∅ = s := by
  ext i
  simp

theorem union_left_comm (s t u : IdSet) : s ∪ (t ∪ u) = t ∪ (s ∪ u) := by
  ext i
  simp [or_left_comm]

end IdSet

open IdSet

namespace Expr

variable {p p' : IdSet} {g : Expr → Expr}

/-- Before `d` nothing more of `v` is live than before `e`. -/
def LeAt (v : VarId) (d e : Expr) : Prop :=
  ∀ ⦃p p' o o' : IdSet⦄, (v ∈ p → v ∈ p') → (v ∈ o → v ∈ o') →
    v ∈ d.liveIn p o → v ∈ e.liveIn p' o'

/-- The same for expressions in a role. Targets are the same variable or none. -/
def LeAs (v : VarId) (d e : Expr) : Role → Prop
  | .value => d.LeAt v e
  | .target _ => d.localTarget? = e.localTarget? ∧
    ∀ ⦃p p' o o' : IdSet⦄, (v ∈ p → v ∈ p') → (v ∈ o → v ∈ o') →
      v ∈ d.placeIn p o → v ∈ e.placeIn p' o'

theorem listIn_map (hp : v ∈ p → v ∈ p') :
    ∀ {es : List Expr} {o o' : IdSet}, (∀ e ∈ es, (g e).LeAt v e) → (v ∈ o → v ∈ o') →
      v ∈ listIn p o (es.map g) → v ∈ listIn p' o' es
  | [], _, _, _, ho => ho
  | e :: es, _, _, hg, ho => by
    rw [List.forall_mem_cons] at hg
    exact hg.1 hp (listIn_map hp hg.2 ho)

theorem operandsIn_map {k : ExprKind Expr} (hg : ∀ e ∈ k.children, (g e).LeAt v e)
    (hp : v ∈ p → v ∈ p') {o o' : IdSet} (ho : v ∈ o → v ∈ o') :
    v ∈ operandsIn p o (k.map g) → v ∈ operandsIn p' o' k := by
  cases k with
  | lit | var | err => exact ho
  | field receiver =>
    cases receiver with
    | none => exact ho
    | some e => exact hg e (by simp [ExprKind.children]) hp ho
  | unary op e | paren e | cast ty e | instanceOf e ty =>
    exact hg e (by simp [ExprKind.children]) hp ho
  | assign l op r | binary l op r | index l r =>
    exact hg l (by simp [ExprKind.children]) hp (hg r (by simp [ExprKind.children]) hp ho)
  | conditional c t f =>
    exact hg c (by simp [ExprKind.children]) hp (hg t (by simp [ExprKind.children]) hp
      (hg f (by simp [ExprKind.children]) hp ho))
  | create ty args => exact listIn_map hp hg ho
  | call receiver callee args =>
    cases receiver with
    | none => exact listIn_map hp hg ho
    | some e =>
      rw [ExprKind.children, Option.toList_some, List.singleton_append, List.forall_mem_cons] at hg
      exact hg.1 hp (listIn_map hp hg.2 ho)

/-- A layer whose operands need no more in their roles needs no more. -/
theorem leAs_map {id : ExprId} {k : ExprKind Expr} {role : Role}
    (hg : ∀ o ∈ k.operands role, (g o.2).LeAs v o.2 o.1) :
    (node id (k.map g)).LeAs v (node id k) role := by
  have hvalues : k.operands role = k.children.map (.value, ·) →
      ∀ e ∈ k.children, (g e).LeAt v e := by
    intro hk e he
    exact hg (.value, e) (hk ▸ List.mem_map_of_mem he)
  cases role with
  | target reads =>
    cases k with
    | paren e => exact hg (.target reads, e) (List.mem_singleton_self _)
    | field receiver =>
      exact ⟨by cases receiver <;> rfl, fun _ _ _ _ hp ho => operandsIn_map (hvalues rfl) hp ho⟩
    | call receiver =>
      exact ⟨by cases receiver <;> rfl, fun _ _ _ _ hp ho => operandsIn_map (hvalues rfl) hp ho⟩
    | _ => exact ⟨rfl, fun _ _ _ _ hp ho => operandsIn_map (hvalues rfl) hp ho⟩
  | value =>
    intro p p' o o' hp ho
    cases k with
    | assign l op r =>
      obtain ⟨hlocal, hplace⟩ := hg (.target op.isSome, l) List.mem_cons_self
      have hr : (g r).LeAt v r := hg (.value, r) (List.mem_cons_of_mem _ List.mem_cons_self)
      simp only [ExprKind.map, liveIn, hlocal]
      refine mem_union_imp ?_ hp
      cases l.localTarget? with
      | none => exact hplace hp (hr hp ho)
      | some w =>
        cases op with
        | none => exact hr hp (mem_erase_imp ho w)
        | some op => exact mem_insert_imp (hr hp (mem_erase_imp ho w)) w
    | unary op e =>
      cases op with
      | step s =>
        obtain ⟨hlocal, hplace⟩ := hg (.target true, e) List.mem_cons_self
        simp only [ExprKind.map, liveIn, hlocal]
        refine mem_union_imp ?_ hp
        cases e.localTarget? with
        | none => exact hplace hp ho
        | some w => exact mem_insert_imp ho w
      | _ => exact mem_union_imp (operandsIn_map (hvalues rfl) hp ho) hp
    | binary l op r =>
      have hc := hvalues rfl
      cases op with
      | logic op =>
        have hl : (g l).LeAt v l := hc l List.mem_cons_self
        have hr : (g r).LeAt v r := hc r (List.mem_cons_of_mem _ List.mem_cons_self)
        exact mem_union_imp (hl hp (mem_union_imp ho (hr hp ho))) hp
      | _ => exact mem_union_imp (operandsIn_map hc hp ho) hp
    | conditional c t f =>
      have hc := hvalues rfl
      have ht : (g t).LeAt v t := hc t (by simp [ExprKind.children])
      have hf : (g f).LeAt v f := hc f (by simp [ExprKind.children])
      exact mem_union_imp (hc c List.mem_cons_self hp (mem_union_imp (ht hp ho) (hf hp ho))) hp
    | var w => exact mem_union_imp (mem_insert_imp ho w) hp
    | field receiver =>
      cases receiver with
      | none => exact mem_union_imp ho hp
      | some e =>
        exact mem_union_imp (operandsIn_map (k := .field (some e) _ _) (hvalues rfl) hp ho) hp
    | call receiver =>
      cases receiver with
      | none => exact mem_union_imp (operandsIn_map (k := .call none _ _) (hvalues rfl) hp ho) hp
      | some e =>
        exact mem_union_imp (operandsIn_map (k := .call (some e) _ _) (hvalues rfl) hp ho) hp
    | _ => exact mem_union_imp (operandsIn_map (hvalues rfl) hp ho) hp

theorem LeAs.refl (v : VarId) (e : Expr) : ∀ role, e.LeAs v e role := by
  induction e using ofChildren with
  | node id k ih =>
    intro role
    have hmap : (node id (k.map fun e => e)).LeAs v (node id k) role :=
      leAs_map fun o ho => ih o.2 (ExprKind.mem_children_of_operands ho) o.1
    rwa [ExprKind.map_eq_self fun _ _ => rfl] at hmap

theorem LeAt.refl (v : VarId) (e : Expr) : e.LeAt v e := LeAs.refl v e .value

/-- More live after an expression is more live before it. -/
theorem liveIn_mono (hp : v ∈ p → v ∈ p') (e : Expr) {o o' : IdSet} (ho : v ∈ o → v ∈ o') :
    v ∈ e.liveIn p o → v ∈ e.liveIn p' o' :=
  LeAt.refl v e hp ho

theorem listIn_mono (hp : v ∈ p → v ∈ p') (es : List Expr) {o o' : IdSet} (ho : v ∈ o → v ∈ o')
    (h : v ∈ listIn p o es) : v ∈ listIn p' o' es := by
  refine listIn_map (g := fun e => e) hp (fun e _ => LeAt.refl v e) ho ?_
  rwa [List.map_id_fun']

end Expr

/-- Whatever of `v` is live at a target in `t` is live there in `u`. -/
structure Targets.LeAt (v : VarId) (t u : Targets) : Prop where
  brk : v ∈ t.brk → v ∈ u.brk
  cont : v ∈ t.cont → v ∈ u.cont
  ret : v ∈ t.ret → v ∈ u.ret
  protect : v ∈ t.protect → v ∈ u.protect

namespace Targets.LeAt

variable {t u : Targets} {s s' : IdSet}

theorem refl (v : VarId) (t : Targets) : t.LeAt v t := ⟨id, id, id, id⟩

/-- The comparison of targets goes into a loop or switch. -/
theorem breakable (h : t.LeAt v u) {b b' c c' : IdSet} (hb : v ∈ b → v ∈ b')
    (hc : v ∈ c → v ∈ c') : (t.breakable b c).LeAt v (u.breakable b' c') :=
  ⟨hb, hc, h.ret, h.protect⟩

/-- The comparison of targets goes through a finalizer. -/
theorem through (h : t.LeAt v u) (hs : v ∈ s → v ∈ s') : (t.through s).LeAt v (u.through s') :=
  ⟨mem_union_imp h.brk hs, mem_union_imp h.cont hs, mem_union_imp h.ret hs,
    mem_union_imp h.protect hs⟩

theorem anyExit (h : t.LeAt v u) : v ∈ t.anyExit → v ∈ u.anyExit :=
  mem_union_imp (mem_union_imp (mem_union_imp h.brk h.cont) h.ret) h.protect

end Targets.LeAt

namespace Stmt

variable {all : IdSet} {rounds : Nat}

/-- The head of the smaller walk is smaller. -/
theorem walkedHead_mono {f g : IdSet → IdSet}
    (hf : ∀ {x y}, (v ∈ x → v ∈ y) → v ∈ f x → v ∈ g y) {x y : IdSet} (h : v ∈ x → v ∈ y) :
    ∀ n, v ∈ walkedHead n f x → v ∈ walkedHead n g y
  | 0 => h
  | n + 1 => hf (walkedHead_mono hf h n)

/-- A condition that makes less live. -/
theorem conditionIn_map {g : Expr → Expr} (hg : ∀ e, (g e).LeAt v e) {p p' o o' x y : IdSet}
    (hp : v ∈ p → v ∈ p') (ho : v ∈ o → v ∈ o') (h : v ∈ x → v ∈ y) :
    ∀ c : Option Expr, v ∈ conditionIn p o (c.map g) x → v ∈ conditionIn p' o' c y
  | none => h
  | some c => hg c hp (mem_union_imp ho h)

theorem conditionIn_mono {p p' o o' x y : IdSet} (hp : v ∈ p → v ∈ p') (ho : v ∈ o → v ∈ o')
    (h : v ∈ x → v ∈ y) (c : Option Expr) (hc : v ∈ conditionIn p o c x) :
    v ∈ conditionIn p' o' c y := by
  refine conditionIn_map (g := fun e => e) (.refl v) hp ho h c ?_
  rwa [Option.map_id_fun']

section Exprs

variable (g : Expr → Expr)

/-- Mapping the expressions of cases maps their labels. -/
theorem labels_mapCases (cs : List (SwitchCase Expr Stmt)) :
    labels (mapCases g cs) = (labels cs).map g := by
  rw [labels, labels, mapCases_eq, List.flatMap_map, List.map_flatMap]

theorem switchEntry_mapCases (o x : IdSet) (cs : List (SwitchCase Expr Stmt)) :
    switchEntry o (mapCases g cs) x = switchEntry o cs x := by
  have hdefault : (mapCases g cs).any SwitchCase.isDefault = cs.any SwitchCase.isDefault := by
    rw [mapCases_eq, List.any_map]
    congr 1
    ext c
    exact List.isEmpty_map
  rw [switchEntry, switchEntry, hdefault]

theorem filterMap_declaredVar?_mapList (rs : List Stmt) :
    (mapList g rs).filterMap declaredVar? = rs.filterMap declaredVar? := by
  have hvar : ∀ s : Stmt, (s.mapExprs g).declaredVar? = s.declaredVar? := by
    rintro ⟨id, kind⟩
    cases kind with
    | branch c t f => cases f <;> rfl
    | guarded resources body catches finalizer => cases finalizer <;> rfl
    | _ => rfl
  rw [mapList_eq, List.filterMap_map]
  exact List.filterMap_congr fun s _ => hvar s

theorem resourceVars_mapList (rs : List Stmt) : resourceVars (mapList g rs) = resourceVars rs := by
  rw [resourceVars, resourceVars, filterMap_declaredVar?_mapList]

end Exprs

theorem switchEntry_mono {o o' x y : IdSet} (ho : v ∈ o → v ∈ o') (h : v ∈ x → v ∈ y)
    (cases : List (SwitchCase Expr Stmt)) :
    v ∈ switchEntry o cases x → v ∈ switchEntry o' cases y := by
  unfold switchEntry
  split
  · exact h
  · exact mem_union_imp h ho

variable {g : Expr → Expr}

mutual

/-- What is live before a statement grows with what is live after it and at its targets, and with
what its expressions need. -/
theorem liveIn_mapExprs (hg : ∀ e, (g e).LeAt v e) :
    ∀ (s : Stmt) {t u : Targets} {o o' : IdSet}, t.LeAt v u → (v ∈ o → v ∈ o') →
      v ∈ (s.mapExprs g).liveIn all rounds t o → v ∈ s.liveIn all rounds u o'
  | node _ kind, _, _, _, _, ht, ho => mem_union_imp (kindIn_mapKind hg kind ht ho) ht.protect

/-- One case for each form of statement. -/
theorem kindIn_mapKind (hg : ∀ e, (g e).LeAt v e) :
    ∀ (k : StmtKind Expr Stmt) {t u : Targets} {o o' : IdSet}, t.LeAt v u → (v ∈ o → v ∈ o') →
      v ∈ kindIn all rounds t o (mapKind g k) → v ∈ kindIn all rounds u o' k
  | .decl w none, _, _, _, _, _, ho => mem_erase_imp ho w
  | .decl w (some e), _, _, _, _, ht, ho => hg e ht.protect (mem_erase_imp ho w)
  | .expr e, _, _, _, _, ht, ho => hg e ht.protect ho
  | .block body, _, _, _, _, ht, ho => listIn_mapList hg body ht ho
  | .branch c a none, _, _, _, _, ht, ho =>
    hg c ht.protect (mem_union_imp (liveIn_mapExprs hg a ht ho) ho)
  | .branch c a (some b), _, _, _, _, ht, ho =>
    hg c ht.protect (mem_union_imp (liveIn_mapExprs hg a ht ho) (liveIn_mapExprs hg b ht ho))
  | .whileLoop c body, _, _, _, _, ht, ho =>
    walkedHead_mono (fun h => hg c ht.protect
      (mem_union_imp ho (liveIn_mapExprs hg body (ht.breakable ho h) h))) (hg c ht.protect ho) _
  | .doLoop body c, _, _, _, _, ht, ho =>
    have h := walkedHead_mono (fun h => hg c ht.protect
      (mem_union_imp ho (liveIn_mapExprs hg body (ht.breakable ho h) h)))
      (hg c ht.protect ho) rounds
    liveIn_mapExprs hg body (ht.breakable ho h) h
  | .forLoop init c update body, _, _, _, _, ht, ho =>
    listIn_mapList hg init ht (walkedHead_mono (fun h =>
      have hu := Expr.listIn_map ht.protect (fun e _ => hg e) h
      conditionIn_map hg ht.protect ho (liveIn_mapExprs hg body (ht.breakable ho hu) hu) c)
      (conditionIn_map hg ht.protect ho (fun h => h) c) _)
  | .forEach w iterable body, _, _, _, _, ht, ho =>
    hg iterable ht.protect (walkedHead_mono (fun h =>
      mem_union_imp ho (mem_erase_imp (liveIn_mapExprs hg body (ht.breakable ho h) h) w)) ho _)
  | .switch selector cases, t, u, o, o', ht, ho => by
    rw [mapKind, kindIn, kindIn, labels_mapCases, switchEntry_mapCases]
    exact hg selector ht.protect (Expr.listIn_map ht.protect (fun e _ => hg e)
      (switchEntry_mono ho (casesIn_mapCases hg cases (ht.breakable ho ht.cont) ho).2 cases))
  | .guarded resources body catches none, t, u, o, o', ht, ho => by
    have hh : v ∈ catchesIn all rounds t o (mapCatches g catches) →
        v ∈ catchesIn all rounds u o' catches := catchesIn_mapCatches hg catches ht ho
    rw [mapKind, kindIn, kindIn, resourceVars_mapList]
    exact listIn_mapList hg resources (ht.through hh)
      (listIn_mapList hg body (ht.through (mem_union_imp (fun h => h) hh))
        (mem_union_imp ho fun h => h))
  | .guarded resources body catches (some finalizer), t, u, o, o', ht, ho => by
    have hf : v ∈ listIn all rounds t (o ∪ t.anyExit) (mapList g finalizer) →
        v ∈ listIn all rounds u (o' ∪ u.anyExit) finalizer :=
      listIn_mapList hg finalizer ht (mem_union_imp ho ht.anyExit)
    have hh := mem_union_imp hf (catchesIn_mapCatches hg catches (ht.through hf) hf)
    rw [mapKind, kindIn, kindIn, resourceVars_mapList]
    exact listIn_mapList hg resources (ht.through hh)
      (listIn_mapList hg body (ht.through (mem_union_imp (fun h => h) hh))
        (mem_union_imp hf fun h => h))
  | .throw e, _, _, _, _, ht, _ => hg e ht.protect ht.protect
  | .assert c message, _, _, _, _, ht, ho => by
    have hm := Expr.listIn_map ht.protect (fun e (_ : e ∈ message.toList) => hg e) ht.protect
    rw [← Option.toList_map] at hm
    exact mem_union_imp (hg c ht.protect (mem_union_imp hm ho)) ho
  | .ret none, _, _, _, _, ht, _ => ht.ret
  | .ret (some e), _, _, _, _, ht, _ => hg e ht.protect ht.ret
  | .breakOut, _, _, _, _, ht, _ => ht.brk
  | .continueLoop, _, _, _, _, ht, _ => ht.cont
  | .empty, _, _, _, _, _, ho => ho
  | .err, _, _, _, _, _, _ => fun h => h

theorem listIn_mapList (hg : ∀ e, (g e).LeAt v e) :
    ∀ (ss : List Stmt) {t u : Targets} {o o' : IdSet}, t.LeAt v u → (v ∈ o → v ∈ o') →
      v ∈ listIn all rounds t o (mapList g ss) → v ∈ listIn all rounds u o' ss
  | [], _, _, _, _, _, ho => ho
  | s :: ss, _, _, _, _, ht, ho => liveIn_mapExprs hg s ht (listIn_mapList hg ss ht ho)

theorem casesIn_mapCases (hg : ∀ e, (g e).LeAt v e) :
    ∀ (cs : List (SwitchCase Expr Stmt)) {t u : Targets} {o o' : IdSet}, t.LeAt v u →
      (v ∈ o → v ∈ o') →
      (v ∈ (casesIn all rounds t o (mapCases g cs)).1 → v ∈ (casesIn all rounds u o' cs).1) ∧
        (v ∈ (casesIn all rounds t o (mapCases g cs)).2 → v ∈ (casesIn all rounds u o' cs).2)
  | [], _, _, _, _, _, ho => ⟨ho, fun h => h⟩
  | ⟨_, _, body⟩ :: cs, _, _, _, _, ht, ho =>
    have hc := casesIn_mapCases hg cs ht ho
    have hb := listIn_mapList hg body ht hc.1
    ⟨hb, mem_union_imp hc.2 hb⟩

theorem catchesIn_mapCatches (hg : ∀ e, (g e).LeAt v e) :
    ∀ (cs : List (CatchClause Stmt)) {t u : Targets} {o o' : IdSet}, t.LeAt v u →
      (v ∈ o → v ∈ o') →
      v ∈ catchesIn all rounds t o (mapCatches g cs) → v ∈ catchesIn all rounds u o' cs
  | [], _, _, _, _, _, _ => fun h => h
  | ⟨_, param, body⟩ :: cs, _, _, _, _, ht, ho =>
    mem_union_imp (mem_erase_imp (listIn_mapList hg body ht ho) param)
      (catchesIn_mapCatches hg cs ht ho)

end

/-- What is live before a statement grows with what is live after it and at its targets. -/
theorem liveIn_mono (s : Stmt) {t u : Targets} {o o' : IdSet} (ht : t.LeAt v u)
    (ho : v ∈ o → v ∈ o') (h : v ∈ s.liveIn all rounds t o) : v ∈ s.liveIn all rounds u o' := by
  refine liveIn_mapExprs (g := fun e => e) (.refl v) s ht ho ?_
  rwa [mapExprs_id]

/-! ## Loop heads -/

/-- After its first walk, no walk over a loop changes whether `v` is live at its head. -/
theorem mem_walkedHead {f : IdSet → IdSet} (hf : ∀ {x y}, (v ∈ x → v ∈ y) → v ∈ f x → v ∈ f y)
    (x : IdSet) : ∀ n, v ∈ walkedHead (n + 1) f x ↔ v ∈ f x
  | 0 => Iff.rfl
  | n + 1 => by
    have ih := mem_walkedHead hf x n
    change v ∈ f (walkedHead (n + 1) f x) ↔ v ∈ f x
    by_cases hx : v ∈ f x
    · -- The head holds `v`, and by monotonicity so does one more walk, whatever `x` is.
      refine ⟨fun _ => hx, fun _ => hf (fun _ => ih.2 hx) hx⟩
    · refine ⟨fun h => hf (fun hv => absurd (ih.1 hv) hx) h, fun h => absurd h hx⟩

/-- The head that the walks over a loop reach is kept by a further walk. -/
theorem mem_walk_walkedHead {f : IdSet → IdSet}
    (hf : ∀ {x y}, (v ∈ x → v ∈ y) → v ∈ f x → v ∈ f y) (x : IdSet) (n : Nat) :
    v ∈ f (walkedHead (n + 1) f x) ↔ v ∈ walkedHead (n + 1) f x :=
  (mem_walkedHead hf x (n + 1)).trans (mem_walkedHead hf x n).symm

end Stmt

end Midend
