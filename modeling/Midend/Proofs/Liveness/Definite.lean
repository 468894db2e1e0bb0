import Midend.Proofs.Body.Fault
import Midend.Proofs.Liveness.Recorded
import Midend.Proofs.Liveness.Unwritten

/-!
# Definite overwrites

What a statement is said to overwrite is written on every path that completes it
and, in a switch, on every path that leaves it by a `break` (`Stmt.run_overwrites`),
as long as no `break` gets ahead of the writes this counts on (`Stmt.BreaksLate`).
Statements in order overwrite something up to the first that may break, and a
statement that may not break is indeed left by no `break` (`Stmt.run_breaksAfter`).

Three kinds of statements are taken to go on where a `break` may lead past their
other parts: the initialiser of a loop, the resources of a `try` statement and its
finalizer. A `break` in a finalizer also ends an exception or a return on its way
out, and what the block would still have written stays as it was
(`LivenessInfo.not_write_mem_overridden`).
-/

namespace Midend

open Run IdSet

variable {v : VarId}

/-! ## Expressions -/

/-- What the expressions assign to or step can be assigned to. -/
def ProperTargets (es : List Expr) : Prop := ∀ s ∈ es, ∀ t, s.target? = some t → t.isLvalue = true

@[simp] theorem properTargets_append {es es' : List Expr} :
    ProperTargets (es ++ es') ↔ ProperTargets es ∧ ProperTargets es' := List.forall_mem_append

namespace Expr

/-- An expression that only names a local overwrites nothing. -/
theorem not_mem_kills_of_localTarget? {w : VarId} :
    ∀ {e : Expr}, e.localTarget? = some w → v ∉ e.kills
  | node _ kind, h => by
    cases kind with
    | paren inner => exact not_mem_kills_of_localTarget? (e := inner) h
    | var => exact not_mem_empty v
    | _ => cases h

/-- An assignment kills what its parts kill and the local it writes. -/
theorem mem_kills_assign {id : ExprId} {l r : Expr} {op : Option BinOp}
    (h : v ∈ (node id (.assign l op r)).kills) :
    v ∈ l.kills ∨ v ∈ r.kills ∨ l.localTarget? = some v := by
  cases op with
  | some op => exact (mem_union.1 h).imp_right .inl
  | none =>
    rw [kills, mem_union, mem_union, or_assoc] at h
    refine h.imp_right (.imp_right fun h => ?_)
    cases ht : l.localTarget? with
    | none => simp [ht] at h
    | some w => simpa [ht, eq_comm] using h

mutual

/-- Every evaluation that has a result writes the variables that the expression overwrites. -/
theorem path_kills :
    ∀ {e : Expr}, ProperTargets e.subexprs → v ∈ e.kills → Unwritten v e.path fun _ => False
  | node id (.assign l op r), h, hv => by
    have hl : l.isLvalue = true := h _ List.mem_cons_self l rfl
    simp only [subexprs, subexprsOfKind] at h
    obtain ⟨hls, hrs⟩ := properTargets_append.1 fun s hs => h s (List.mem_cons_of_mem _ hs)
    rw [path]
    refine .hazardous ?_
    have hv := mem_kills_assign hv
    cases ht : l.localTarget? with
    | none =>
      rcases hv with hv | hv | hv
      · exact .bind_left (placePath_kills hl hls hv)
      · exact .bind_right fun _ => path_kills hrs hv
      · rw [ht] at hv
        cases hv
    | some w =>
      have hassign : Unwritten v (do r.path; Emit (.write w)) fun _ => False := by
        rcases hv with hv | hv | hv
        · exact absurd hv (not_mem_kills_of_localTarget? ht)
        · exact .bind_left (path_kills hrs hv)
        · obtain rfl : w = v := Option.some.inj (ht.symm.trans hv)
          exact .bind_right fun _ => .write
      cases op with
      | none => exact hassign
      | some op => exact .bind_right fun _ => hassign
  | node id (.unary op e), h, hv => by
    change v ∈ e.kills at hv
    have he : ProperTargets e.subexprs := fun s hs => h s (List.mem_cons_of_mem _ hs)
    cases op with
    | step st =>
      have hl : e.isLvalue = true := h _ List.mem_cons_self e rfl
      rw [path]
      refine .hazardous ?_
      cases ht : e.localTarget? with
      | none => exact placePath_kills hl he hv
      | some w => exact absurd hv (not_mem_kills_of_localTarget? ht)
    | _ => exact .hazardous (path_kills he hv)
  | node _ (.binary l op r), h, hv => by
    obtain ⟨hl, hr⟩ := properTargets_append.1 fun s hs => h s (List.mem_cons_of_mem _ hs)
    cases op with
    | logic op => exact .hazardous (.bind_left (path_kills hl hv))
    | _ =>
      refine .hazardous ?_
      rcases mem_union.1 hv with hv | hv
      · exact .bind_left (path_kills hl hv)
      · exact .bind_right fun _ => path_kills hr hv
  | node _ (.conditional c t f), h, hv => by
    obtain ⟨hc, htf⟩ := properTargets_append.1 fun s hs => h s (List.mem_cons_of_mem _ hs)
    obtain ⟨ht, hf⟩ := properTargets_append.1 htf
    rw [path]
    refine .hazardous ?_
    rcases mem_union.1 hv with hv | hv
    · obtain ⟨hvt, hvf⟩ := mem_inter.1 hv
      exact .bind_right fun _ => .either (path_kills ht hvt) (path_kills hf hvf)
    · exact .bind_left (path_kills hc hv)
  | node _ (.lit _), _, hv | node _ (.var _), _, hv | node _ .err, _, hv
  | node _ (.field none ..), _, hv => absurd hv (not_mem_empty v)
  | node _ (.field (some e) ..), h, hv | node _ (.paren e), h, hv | node _ (.cast _ e), h, hv
  | node _ (.instanceOf e _), h, hv =>
    .hazardous (path_kills (fun s hs => h s (List.mem_cons_of_mem _ hs)) hv)
  | node _ (.index l r), h, hv =>
    .hazardous (operandsPath_kills (fun s hs => h s (List.mem_cons_of_mem _ hs)) hv)
  | node _ (.call none _ args), h, hv | node _ (.create _ args), h, hv =>
    .hazardous (listPath_kills (fun s hs => h s (List.mem_cons_of_mem _ hs)) hv)
  | node _ (.call (some e) _ args), h, hv =>
    .hazardous (operandsPath_kills (fun s hs => h s (List.mem_cons_of_mem _ hs)) hv)

/-- A path through a place writes whatever the place kills. -/
theorem placePath_kills :
    ∀ {e : Expr}, e.isLvalue = true → ProperTargets e.subexprs → v ∈ e.kills →
      Unwritten v e.placePath fun _ => False
  | node _ kind, hl, h, hv => by
    have h' : ProperTargets (subexprsOfKind kind) := fun s hs => h s (List.mem_cons_of_mem _ hs)
    cases kind with
    | paren inner => exact placePath_kills (e := inner) hl h' hv
    | var => exact absurd hv (not_mem_empty v)
    | field | index => exact operandsPath_kills h' hv
    | _ => cases hl

theorem operandsPath_kills :
    ∀ {k : ExprKind Expr}, ProperTargets (subexprsOfKind k) → v ∈ operandKills k →
      Unwritten v (operandsPath k) fun _ => False
  | .lit _, _, hv | .var _, _, hv | .err, _, hv | .field none .., _, hv =>
    absurd hv (not_mem_empty v)
  | .field (some e) .., h, hv | .unary _ e, h, hv | .paren e, h, hv | .cast _ e, h, hv
  | .instanceOf e _, h, hv => path_kills h hv
  | .assign l _ r, h, hv | .binary l _ r, h, hv | .index l r, h, hv => by
    obtain ⟨hl, hr⟩ := properTargets_append.1 h
    rcases mem_union.1 hv with hv | hv
    · exact .bind_left (path_kills hl hv)
    · exact .bind_right fun _ => path_kills hr hv
  | .conditional c t f, h, hv => by
    simp only [subexprsOfKind, properTargets_append] at h
    simp only [operandKills, mem_union] at hv
    rcases hv with (hv | hv) | hv
    · exact .bind_left (path_kills h.1 hv)
    · exact .bind_right fun _ => .bind_left (path_kills h.2.1 hv)
    · exact .bind_right fun _ => .bind_right fun _ => path_kills h.2.2 hv
  | .call none _ args, h, hv | .create _ args, h, hv => listPath_kills h hv
  | .call (some e) _ args, h, hv => by
    obtain ⟨he, hargs⟩ := properTargets_append.1 h
    rcases mem_union.1 hv with hv | hv
    · exact .bind_left (path_kills he hv)
    · exact .bind_right fun _ => listPath_kills hargs hv

theorem listPath_kills :
    ∀ {es : List Expr}, ProperTargets (subexprsOfList es) → v ∈ listKills es →
      Unwritten v (listPath es) fun _ => False
  | [], _, hv => absurd hv (not_mem_empty v)
  | e :: es, h, hv => by
    obtain ⟨he, hes⟩ := properTargets_append.1 h
    rcases mem_union.1 hv with hv | hv
    · exact .bind_left (path_kills he hv)
    · exact .bind_right fun _ => listPath_kills hes hv

end

theorem mem_listKills_toList {e : Option Expr} (h : v ∈ killsOf? e) : v ∈ listKills e.toList := by
  cases e with
  | none => exact h
  | some e => exact mem_union.2 (.inl h)

end Expr

/-! ## Statements -/

/-- Every path that completes `p` writes `v`; in a switch, so does every path that leaves `p` by a
`break`, which completes the switch. -/
def Overwrites (v : VarId) (inSwitch : Bool) (p : Path Exit) : Prop :=
  Unwritten v p fun e => e ≠ .normal ∧ (inSwitch = true → e ≠ .brk)

/-- Every path that leaves `p` by a `break` writes `v`. -/
def BreaksAfter (v : VarId) (p : Path Exit) : Prop := Unwritten v p (· ≠ .brk)

variable {inSwitch : Bool} {p q : Path Exit}

theorem BreaksAfter.andThen (hp : BreaksAfter v p) (hq : BreaksAfter v q) :
    BreaksAfter v (p.andThen q) :=
  Unwritten.andThen hp (fun _ => hq) fun _ _ h => h

theorem BreaksAfter.ensuring (hp : BreaksAfter v p) (hq : BreaksAfter v q) :
    BreaksAfter v (p.ensuring q) :=
  Unwritten.ensuring hp hq (fun _ _ h => h) fun _ _ h => h

/-- What is left of `BreaksAfter` where it is only known in a switch. -/
theorem unwritten_of_inSwitch (h : inSwitch = true → BreaksAfter v p) :
    Unwritten v p fun e => inSwitch = true → e ≠ .brk := by
  cases inSwitch with
  | false => exact (Unwritten.any p).mono nofun
  | true => exact (h rfl).mono fun _ h _ => h

namespace Overwrites

/-- What the first part overwrites on every path is overwritten. -/
theorem andThen_left (hp : Overwrites v inSwitch p) : Overwrites v inSwitch (p.andThen q) :=
  Unwritten.andThen hp (fun h => absurd rfl h.1) fun _ _ h => h

theorem andThen_right (hp : inSwitch = true → BreaksAfter v p) (hq : Overwrites v inSwitch q) :
    Overwrites v inSwitch (p.andThen q) :=
  Unwritten.andThen (unwritten_of_inSwitch hp) (fun _ => hq) fun _ hne h => ⟨hne, h⟩

/-- What a finalizer overwrites is overwritten on every way out. -/
theorem ensuring_right (hq : Overwrites v inSwitch q) : Overwrites v inSwitch (p.ensuring q) :=
  Unwritten.ensuring (.any p) hq (fun _ _ h => h) fun h => absurd rfl h.1

/-- A finalizer that breaks may give a result to a path that throws, so in a switch it must not do
so before `v` is written. -/
theorem ensuring_left (hp : Overwrites v inSwitch p) (hq : inSwitch = true → BreaksAfter v q) :
    Overwrites v inSwitch (p.ensuring q) :=
  Unwritten.ensuring hp (unwritten_of_inSwitch hq) (fun _ hne h => ⟨hne, h⟩) fun _ _ h => h

end Overwrites

namespace Stmt

variable {all : IdSet}

/-! ### Overwrites of lists -/

/-- The meet with another path keeps what both kill. -/
theorem mem_meet {s : IdSet} {other : Option IdSet} :
    v ∈ meet s other ↔ v ∈ s ∧ ∀ k, other = some k → v ∈ k := by
  cases other <;> simp [meet]

theorem pathKills_snd (ss : List Stmt) : (pathKills ss).2 = listMayBreak ss := by
  induction ss with
  | nil => rfl
  | cons s ss ih =>
    rw [pathKills, listMayBreak]
    cases s.mayBreak with
    | true => rfl
    | false => exact ih

/-- Statements kill what the first kills, and what the rest does unless the first may break. -/
theorem mem_pathKills_cons {s : Stmt} {ss : List Stmt} (h : v ∈ (pathKills (s :: ss)).1) :
    v ∈ s.kills ∨ s.mayBreak = false ∧ v ∈ (pathKills ss).1 := by
  rw [pathKills] at h
  cases hs : s.mayBreak with
  | true => exact .inl (by simpa [hs] using h)
  | false =>
    rw [hs] at h
    exact (mem_union.1 h).imp_right fun h => ⟨rfl, h⟩

/-- A case kills what its own path and the cases after it kill. -/
theorem mem_caseKills_cons {span : Span} {labels : List Expr} {body : List Stmt}
    {cs : List (SwitchCase Expr Stmt)} (h : v ∈ (caseKills (⟨span, labels, body⟩ :: cs)).1) :
    v ∈ (pathKills body).1 ∨ listMayBreak body = false ∧ v ∈ (caseKills cs).1 := by
  simp only [caseKills, pathKills_snd] at h
  cases hb : listMayBreak body with
  | true => exact .inl (by simpa [hb] using h)
  | false => simpa [hb] using h

/-! ### Breaks that come too early -/

mutual

/-- No `break` gets ahead of the writes that the overwrites of a statement count on. In a switch, a
`break` out of the initialiser of a loop comes after `v` is written, and so does one out of the
resources or the finalizer of a `try` statement, if `v` is overwritten by its other parts and not by
the finalizer itself. Nothing is asked of the bodies of loops, which overwrite nothing. -/
def BreaksLate (all : IdSet) (v : VarId) (inSwitch : Bool) : Stmt → Prop
  | node _ kind => kindBreaksLate all v inSwitch kind

/-- The condition on the statements below a layer. -/
def kindBreaksLate (all : IdSet) (v : VarId) (inSwitch : Bool) : StmtKind Expr Stmt → Prop
  | .block body => listBreaksLate all v inSwitch body
  | .branch _ a none => a.BreaksLate all v inSwitch
  | .branch _ a (some b) => a.BreaksLate all v inSwitch ∧ b.BreaksLate all v inSwitch
  | .forLoop init .. =>
    listBreaksLate all v inSwitch init ∧
      (inSwitch = true → BreaksAfter v (listRun (paths all) init))
  | .switch _ cases => casesBreakLate all v cases
  | .guarded resources body catches none =>
    listBreaksLate all v inSwitch resources ∧ listBreaksLate all v inSwitch body ∧
      catchesBreakLate all v inSwitch catches ∧
      (v ∈ kindKills (.guarded resources body catches none) →
        inSwitch = true → BreaksAfter v (listRun (paths all) resources))
  | .guarded resources body catches (some finalizer) =>
    listBreaksLate all v inSwitch resources ∧ listBreaksLate all v inSwitch body ∧
      catchesBreakLate all v inSwitch catches ∧ listBreaksLate all v inSwitch finalizer ∧
      (v ∈ kindKills (.guarded resources body catches none) → v ∉ (pathKills finalizer).1 →
        (inSwitch = true → BreaksAfter v (listRun (paths all) resources)) ∧
          (inSwitch = true → BreaksAfter v (listRun (paths all) finalizer)))
  | .decl .. | .expr _ | .whileLoop .. | .doLoop .. | .forEach .. | .throw _ | .assert .. | .ret _
  | .breakOut | .continueLoop | .empty | .err => True

/-- The condition on each statement of a list. -/
def listBreaksLate (all : IdSet) (v : VarId) (inSwitch : Bool) : List Stmt → Prop
  | [] => True
  | s :: ss => s.BreaksLate all v inSwitch ∧ listBreaksLate all v inSwitch ss

/-- The condition on each group of a switch, inside of which a `break` ends the switch. -/
def casesBreakLate (all : IdSet) (v : VarId) : List (SwitchCase Expr Stmt) → Prop
  | [] => True
  | ⟨_, _, body⟩ :: cs => listBreaksLate all v true body ∧ casesBreakLate all v cs

/-- The condition on each handler. -/
def catchesBreakLate (all : IdSet) (v : VarId) (inSwitch : Bool) : List (CatchClause Stmt) → Prop
  | [] => True
  | ⟨_, _, body⟩ :: cs => listBreaksLate all v inSwitch body ∧ catchesBreakLate all v inSwitch cs

end

/-! ### Statements without a break -/

section Loops

variable {rest : Path (Option Exit)} {test : Path Bool}

/-- A `break` in its body ends a loop, so none leaves it. -/
theorem restOfBody_unwritten : Unwritten v (restOfBody p) fun r => ∀ e ∈ r, e ≠ .brk :=
  .bind_right fun e => .pure (by cases e <;> simp [Exit.ofBody])

theorem restOfDo_unwritten (c : Expr) :
    Unwritten v (restOfDo (paths all) c p) fun r => ∀ e ∈ r, e ≠ .brk := by
  have ht : Unwritten v (do if ← (paths all).test c then return none else return some .normal)
      fun r : Option Exit => ∀ e ∈ r, e ≠ .brk := .ite (.pure (by simp)) (.pure (by simp))
  refine .bind_right fun e => ?_
  cases e with
  | normal => exact ht
  | brk => exact .pure (by simp)
  | cont => exact ht
  | ret => exact .pure (by simp)

theorem restOfFor_unwritten (update : List Expr) :
    Unwritten v (restOfFor (paths all) update p) fun r => ∀ e ∈ r, e ≠ .brk := by
  have hu : Unwritten v (do (paths all).evalList update; return none)
      fun r : Option Exit => ∀ e ∈ r, e ≠ .brk := .bind_right fun _ => .pure (by simp)
  refine .bind_right fun e => ?_
  cases e with
  | normal => exact hu
  | brk => exact .pure (by simp)
  | cont => exact hu
  | ret => exact .pure (by simp)

theorem iteration_unwritten (hr : Unwritten v rest fun r => ∀ e ∈ r, e ≠ .brk) :
    Unwritten v (iteration test rest) fun r => ∀ e ∈ r, e ≠ .brk :=
  .ite hr (.pure (by simp))

end Loops

/-- Resources are closed after a block and change nothing about how it ends. -/
theorem closing_unwritten {resources : List Stmt} {Q : Exit → Prop} (hp : Unwritten v p Q) :
    Unwritten v (closing (paths all) resources p) Q := by
  have hclose : Unwritten v
      (do (paths all).closeAll (resources.filterMap declaredVar?); return Exit.normal)
      (· = .normal) := .bind_right fun _ => .pure rfl
  exact hp.ensuring hclose (fun _ hne h => absurd h hne) fun _ _ h => h

/-- A protected block with its handlers. -/
theorem protected_breaksAfter {resources : List Stmt} {block handler : Path Exit}
    (hp : BreaksAfter v p) (hb : BreaksAfter v block) (hh : BreaksAfter v handler) :
    BreaksAfter v ((p.andThen (closing (paths all) resources block)).handledBy handler) :=
  .handledBy (hp.andThen (closing_unwritten hb)) hh

mutual

/-- A statement without a `break` that leaves it is left by none before `v` is written. -/
theorem run_breaksAfter :
    ∀ {s : Stmt}, s.mayBreak = false → s.BreaksLate all v true → BreaksAfter v (s.run (paths all))
  | node _ (.block _), hm, hl => .bind_right fun _ => listRun_breaksAfter hm hl
  | node _ (.branch _ _ none), hm, hl =>
    .bind_right fun _ => .ite (run_breaksAfter hm hl) (.pure (by decide))
  | node _ (.branch _ _ (some _)), hm, hl => by
    obtain ⟨ha, hb⟩ := Bool.or_eq_false_iff.1 hm
    exact .bind_right fun _ => .ite (run_breaksAfter ha hl.1) (run_breaksAfter hb hl.2)
  | node _ (.whileLoop ..), _, _ =>
    .bind_right fun _ => .iterate (iteration_unwritten restOfBody_unwritten)
  | node _ (.doLoop ..), _, _ => .bind_right fun _ => .iterate (restOfDo_unwritten _)
  | node _ (.forLoop ..), _, hl =>
    .bind_right fun _ => BreaksAfter.andThen (hl.2 rfl)
      (.iterate (iteration_unwritten (restOfFor_unwritten _)))
  | node _ (.forEach ..), _, _ =>
    .bind_right fun _ => .bind_right fun _ => .iterate (iteration_unwritten restOfBody_unwritten)
  | node _ (.switch ..), _, _ =>
    .bind_right fun _ => .bind_right fun _ => .bind_right fun _ => .bind_right fun e =>
      .pure (by cases e <;> decide)
  | node _ (.guarded _ _ _ none), hm, hl => by
    simp only [mayBreak, Bool.or_eq_false_iff] at hm
    exact .bind_right fun _ => protected_breaksAfter (listRun_breaksAfter hm.1.1 hl.1)
      (listRun_breaksAfter hm.1.2 hl.2.1) (catchesRun_breaksAfter hm.2 hl.2.2.1)
  | node _ (.guarded _ _ _ (some _)), hm, hl => by
    simp only [mayBreak, Bool.or_eq_false_iff] at hm
    refine .bind_right fun _ => BreaksAfter.ensuring (protected_breaksAfter ?_ ?_ ?_) ?_
    · exact listRun_breaksAfter hm.1.1.1 hl.1
    · exact listRun_breaksAfter hm.1.1.2 hl.2.1
    · exact catchesRun_breaksAfter hm.1.2 hl.2.2.1
    · exact listRun_breaksAfter hm.2 hl.2.2.2.1
  | node _ (.decl ..), _, _ | node _ (.expr _), _, _ | node _ (.ret _), _, _ =>
    .bind_right fun _ => .bind_right fun _ => .pure (by decide)
  | node _ (.throw _), _, _ => .bind_right fun _ => .bind_right fun _ => .throw
  | node _ (.assert ..), _, _ =>
    .bind_right fun _ => .either (.pure (by decide))
      (.ite (.pure (by decide)) (.bind_right fun _ => .throw))
  | node _ .breakOut, hm, _ => nomatch hm
  | node _ .continueLoop, _, _ | node _ .empty, _, _ => .bind_right fun _ => .pure (by decide)
  | node _ .err, _, _ => .bind_right fun _ => .bind_right fun _ => .pure (by decide)

theorem listRun_breaksAfter :
    ∀ {ss : List Stmt}, listMayBreak ss = false → listBreaksLate all v true ss →
      BreaksAfter v (listRun (paths all) ss)
  | [], _, _ => .pure (by decide)
  | _ :: _, hm, hl => by
    obtain ⟨hs, hss⟩ := Bool.or_eq_false_iff.1 hm
    exact .andThen (run_breaksAfter hs hl.1) (listRun_breaksAfter hss hl.2)

theorem catchesRun_breaksAfter :
    ∀ {cs : List (CatchClause Stmt)}, catchesMayBreak cs = false → catchesBreakLate all v true cs →
      BreaksAfter v (catchesRun (paths all) cs)
  | [], _, _ => .never
  | ⟨_, _, _⟩ :: _, hm, hl => by
    obtain ⟨hb, hcs⟩ := Bool.or_eq_false_iff.1 hm
    refine .either (.bind_right fun _ => listRun_breaksAfter hb hl.1) ?_
    exact catchesRun_breaksAfter hcs hl.2

end

/-! ### Statements that overwrite -/

/-- A condition that is tested has written what it kills. -/
theorem test_kills {c : Expr} (h : ProperTargets c.subexprs) (hv : v ∈ c.kills) :
    Unwritten v ((paths all).test c) fun _ => False := .bind_left (Expr.path_kills h hv)

/-- A declaration writes its variable and what its initialiser kills. -/
theorem declare_kills {w : VarId} {init : Option Expr}
    (h : ∀ x ∈ init.toList, ProperTargets x.subexprs) (hv : v ∈ (Expr.killsOf? init).insert w) :
    Unwritten v ((paths all).declare w init) fun _ => False := by
  rcases mem_insert.1 hv with hv | rfl
  · refine .bind_left (Expr.listPath_kills ?_ (Expr.mem_listKills_toList hv))
    intro s hs
    rw [Expr.subexprsOfList_eq] at hs
    obtain ⟨x, hx, hs⟩ := List.mem_flatMap.1 hs
    exact h x hx s hs
  · exact .bind_right fun _ => .bind_left .write

/-- A loop overwrites what its condition does, which is evaluated first. -/
theorem loop_overwrites {test : Path Bool} {rest : Path (Option Exit)}
    (h : Unwritten v test fun _ => False) : Overwrites v inSwitch (Iterate (iteration test rest)) :=
  .iterate (.of_never (.bind_left h))

/-- A protected body overwrites what every part of it does. -/
theorem protected_overwrites {resources body : List Stmt} {catches : List (CatchClause Stmt)}
    (hr : v ∈ (pathKills resources).1 → Overwrites v inSwitch (listRun (paths all) resources))
    (hb : v ∈ (pathKills body).1 → Overwrites v inSwitch (listRun (paths all) body))
    (hc : (∀ k, catchKills catches = some k → v ∈ k) →
      Overwrites v inSwitch (catchesRun (paths all) catches))
    (hl : inSwitch = true → BreaksAfter v (listRun (paths all) resources))
    (hv : v ∈ kindKills (.guarded resources body catches none)) :
    Overwrites v inSwitch (((listRun (paths all) resources).andThen
      (closing (paths all) resources (listRun (paths all) body))).handledBy
        (catchesRun (paths all) catches)) := by
  obtain ⟨hv, hcatches⟩ := mem_meet.1 hv
  refine Unwritten.handledBy ?_ (hc hcatches)
  rcases mem_union.1 hv with hv | hv
  · exact (hr hv).andThen_left
  · exact Overwrites.andThen_right hl (closing_unwritten (hb hv))

/-- A group that is entered, and the groups that it falls through to. -/
theorem group_overwrites {body : List Stmt} {cs : List (SwitchCase Expr Stmt)} {group : Span}
    {labels : List Expr}
    (hb : v ∈ (pathKills body).1 → Overwrites v true (listRun (paths all) body))
    (hcs : v ∈ (caseKills cs).1 → Overwrites v true (fallRun (paths all) cs))
    (hl : listBreaksLate all v true body) (hv : v ∈ (caseKills (⟨group, labels, body⟩ :: cs)).1) :
    Overwrites v true ((listRun (paths all) body).andThen (fallRun (paths all) cs)) := by
  rcases mem_caseKills_cons hv with hv | ⟨hm, hv⟩
  · exact (hb hv).andThen_left
  · exact .andThen_right (fun _ => listRun_breaksAfter hm hl) (hcs hv)

/-- What the expressions of the statements assign to or step can be assigned to. -/
def TargetsIn (ss : List Stmt) : Prop :=
  ∀ u ∈ ss, ∀ x ∈ u.kind.exprChildren, ProperTargets x.subexprs

@[simp] theorem targetsIn_append {ss ss' : List Stmt} :
    TargetsIn (ss ++ ss') ↔ TargetsIn ss ∧ TargetsIn ss' := List.forall_mem_append

mutual

/-- Every path that completes a statement, or in a switch leaves it by a `break`, writes what the
statement overwrites. -/
theorem run_overwrites {inSwitch : Bool} :
    ∀ {s : Stmt}, TargetsIn s.substmts → s.BreaksLate all v inSwitch → v ∈ s.kills →
      Overwrites v inSwitch (s.run (paths all))
  | node _ _, h, hl, hv =>
    .bind_right fun _ => kindRun_overwrites (h _ List.mem_cons_self)
      (fun u hu => h u (List.mem_cons_of_mem _ hu)) hl hv

/-- One case for each form of statement. -/
theorem kindRun_overwrites {inSwitch : Bool} :
    ∀ {k : StmtKind Expr Stmt}, (∀ x ∈ k.exprChildren, ProperTargets x.subexprs) →
      TargetsIn (substmtsOfKind k) → kindBreaksLate all v inSwitch k → v ∈ kindKills k →
      Overwrites v inSwitch (kindRun (paths all) k)
  | .decl .., h, _, _, hv => .bind_left (declare_kills h hv)
  | .expr e, h, _, _, hv => .bind_left (Expr.path_kills (h e List.mem_cons_self) hv)
  | .throw _, _, _, _, _ => .bind_right fun _ => .throw
  | .block _, _, hs, hl, hv => listRun_overwrites hs hl hv
  | .branch c _ none, h, _, _, hv => .bind_left (test_kills (h c List.mem_cons_self) hv)
  | .branch c _ (some _), h, hs, hl, hv => by
    obtain ⟨ha, hb⟩ := targetsIn_append.1 hs
    rcases mem_union.1 hv with hv | hv
    · obtain ⟨hva, hvb⟩ := mem_inter.1 hv
      exact .ite (run_overwrites ha hl.1 hva) (run_overwrites hb hl.2 hvb)
    · exact .bind_left (test_kills (h c List.mem_cons_self) hv)
  | .whileLoop c _, h, _, _, hv => loop_overwrites (test_kills (h c List.mem_cons_self) hv)
  | .forLoop _ c _ _, h, hs, hl, hv => by
    rcases mem_union.1 hv with hv | hv
    · exact (listRun_overwrites (targetsIn_append.1 hs).1 hl.1 hv).andThen_left
    · refine .andThen_right hl.2 ?_
      cases c with
      | none => exact absurd hv (not_mem_empty v)
      | some c => exact loop_overwrites (test_kills (h c List.mem_cons_self) hv)
  | .forEach _ iterable _, h, _, _, hv =>
    .bind_left (Expr.path_kills (h iterable List.mem_cons_self) hv)
  | .switch selector cases, h, hs, hl, hv => by
    rcases mem_union.1 hv with hv | hv
    · refine .bind_right fun _ => .bind_right fun _ => ?_
      cases hd : cases.any SwitchCase.isDefault with
      | false => exact absurd hv (by simp [hd])
      | true =>
        have hcases : Overwrites v true (casesRun (paths all) false cases) :=
          casesRun_overwrites hs hl fun k hk => by simpa [hd, hk] using hv
        refine hcases.bind fun e he => .pure ?_
        cases e <;> simp_all [Exit.ofSwitch]
    · exact .bind_left (Expr.path_kills (h selector List.mem_cons_self) hv)
  | .guarded _ _ _ none, _, hs, hl, hv => by
    simp only [substmtsOfKind, targetsIn_append] at hs
    exact protected_overwrites (listRun_overwrites hs.1.1 hl.1)
      (listRun_overwrites hs.1.2 hl.2.1) (catchesRun_overwrites hs.2 hl.2.2.1) (hl.2.2.2 hv) hv
  | .guarded resources body catches (some finalizer), _, hs, hl, hv => by
    simp only [substmtsOfKind, targetsIn_append] at hs
    by_cases hf : v ∈ (pathKills finalizer).1
    · exact .ensuring_right (listRun_overwrites hs.2 hl.2.2.2.1 hf)
    · have hv := (mem_union.1 hv).resolve_right hf
      obtain ⟨hr, hfinal⟩ := hl.2.2.2.2 hv hf
      refine .ensuring_left (protected_overwrites ?_ ?_ ?_ hr hv) hfinal
      · exact listRun_overwrites hs.1.1.1 hl.1
      · exact listRun_overwrites hs.1.1.2 hl.2.1
      · exact catchesRun_overwrites hs.1.2 hl.2.2.1
  | .ret _, _, _, _, _ => .bind_right fun _ => .pure ⟨by decide, fun _ => by decide⟩
  | .doLoop .., _, _, _, hv | .assert .., _, _, _, hv | .breakOut, _, _, _, hv
  | .continueLoop, _, _, _, hv | .empty, _, _, _, hv | .err, _, _, _, hv =>
    absurd hv (not_mem_empty v)

theorem listRun_overwrites {inSwitch : Bool} :
    ∀ {ss : List Stmt}, TargetsIn (substmtsOfList ss) → listBreaksLate all v inSwitch ss →
      v ∈ (pathKills ss).1 → Overwrites v inSwitch (listRun (paths all) ss)
  | [], _, _, hv => absurd hv (not_mem_empty v)
  | _ :: _, h, hl, hv => by
    obtain ⟨hs, hss⟩ := targetsIn_append.1 h
    rcases mem_pathKills_cons hv with hv | ⟨hm, hv⟩
    · exact (run_overwrites hs hl.1 hv).andThen_left
    · refine .andThen_right (fun h => ?_) (listRun_overwrites hss hl.2 hv)
      subst h
      exact run_breaksAfter hm hl.1

theorem fallRun_overwrites :
    ∀ {cs : List (SwitchCase Expr Stmt)}, TargetsIn (substmtsOfCases cs) →
      casesBreakLate all v cs → v ∈ (caseKills cs).1 → Overwrites v true (fallRun (paths all) cs)
  | [], _, _, hv => absurd hv (not_mem_empty v)
  | ⟨_, _, _⟩ :: _, h, hl, hv => by
    obtain ⟨hb, hcs⟩ := targetsIn_append.1 h
    exact group_overwrites (listRun_overwrites hb hl.1) (fallRun_overwrites hcs hl.2) hl.1 hv

theorem casesRun_overwrites :
    ∀ {cs : List (SwitchCase Expr Stmt)}, TargetsIn (substmtsOfCases cs) →
      casesBreakLate all v cs → (∀ k, (caseKills cs).2 = some k → v ∈ k) →
      Overwrites v true (casesRun (paths all) false cs)
  | [], _, _, _ => .never
  | ⟨group, labels, body⟩ :: cs, h, hl, hv => by
    obtain ⟨(hfirst : v ∈ (caseKills (⟨group, labels, body⟩ :: cs)).1), hrest⟩ :=
      mem_meet.1 (hv _ rfl)
    obtain ⟨hb, hcs⟩ := targetsIn_append.1 h
    refine .either ?_ (casesRun_overwrites hcs hl.2 hrest)
    exact group_overwrites (listRun_overwrites hb hl.1) (fallRun_overwrites hcs hl.2) hl.1 hfirst

theorem catchesRun_overwrites {inSwitch : Bool} :
    ∀ {cs : List (CatchClause Stmt)}, TargetsIn (substmtsOfCatches cs) →
      catchesBreakLate all v inSwitch cs → (∀ k, catchKills cs = some k → v ∈ k) →
      Overwrites v inSwitch (catchesRun (paths all) cs)
  | [], _, _, _ => .never
  | ⟨_, param, _⟩ :: _, h, hl, hv => by
    obtain ⟨hfirst, hrest⟩ := mem_meet.1 (hv _ rfl)
    obtain ⟨hb, hcs⟩ := targetsIn_append.1 h
    refine .either ?_ (catchesRun_overwrites hcs hl.2 hrest)
    rcases mem_insert.1 hfirst with hfirst | rfl
    · exact .bind_right fun _ => listRun_overwrites hb hl.1 hfirst
    · exact .bind_left .write

end

end Stmt

/-! ## Bodies -/

namespace LivenessInfo

/-- The kills of other statements do not reach the slot. -/
theorem getD_foldl_kills_of_not_mem {id : StmtId} :
    ∀ {ss : List Stmt} {kills : Array IdSet}, id ∉ ss.map Stmt.id →
      (ss.foldl (fun kills s => kills.setIfInBounds s.id s.kills) kills).getD id ∅ =
        kills.getD id ∅
  | [], _, _ => rfl
  | s :: ss, kills, h => by
    rw [List.map_cons, List.mem_cons, not_or] at h
    rw [List.foldl_cons, getD_foldl_kills_of_not_mem h.2]
    simp [Array.getD_eq_getD_getElem?, Array.getElem?_setIfInBounds_ne (Ne.symm h.1)]

/-- Each statement's slot holds its own kills. -/
theorem getD_foldl_kills {s : Stmt} :
    ∀ {ss : List Stmt} {kills : Array IdSet}, (ss.map Stmt.id).Nodup → s ∈ ss →
      s.id < kills.size →
      (ss.foldl (fun kills s => kills.setIfInBounds s.id s.kills) kills).getD s.id ∅ = s.kills
  | u :: ss, kills, hn, hs, hid => by
    rw [List.map_cons, List.nodup_cons] at hn
    rw [List.foldl_cons]
    rcases List.mem_cons.1 hs with rfl | hs
    · rw [getD_foldl_kills_of_not_mem hn.1]
      simp [Array.getD_eq_getD_getElem?, hid]
    · exact getD_foldl_kills hn.2 hs (by simpa using hid)

/-- In an accepted body, the overwrites found for a statement are its own. -/
theorem killsOf_compute {b : Body} (hb : b.Accepted) {s : Stmt}
    (hs : s ∈ b.root.flatMap Stmt.substmts) : (compute b).killsOf s.id = s.kills := by
  rw [killsOf, compute, computeWith, kills_foldl_put]
  exact getD_foldl_kills hb.nodup_stmtIds hs (by simpa using hb.stmt_lt hs)

/-- A variable that a statement of a body overwrites has been declared or assigned on every path
that completes the statement, if no `break` gets ahead of the writes that this counts on. -/
theorem write_mem_of_mem_kills {b : Body} (hb : b.Accepted) {s : Stmt}
    (hs : s ∈ b.root.flatMap Stmt.substmts) (hv : v ∈ (compute b).killsOf s.id)
    (hl : s.BreaksLate b.allVars v false) {path : List Access}
    (hp : s.run (paths b.allVars) () path (.done .normal) ()) : .write v ∈ path := by
  rw [killsOf_compute hb hs] at hv
  have htargets : Stmt.TargetsIn s.substmts := by
    intro u hu x hx
    exact Expr.badTarget?_eq_none.1 (hb.badTarget? (Body.mem_substmts_trans hs hu) hx)
  by_contra hw
  exact (Stmt.run_overwrites htargets hl hv hp hw).1 rfl

/-- A switch over an assignment whose finalizer breaks, after an assignment of its own if
`writes`. -/
def overridden (writes : Bool) : Body where
  name := "overridden"
  vars := #[⟨"s", .prim .int, .param, .dummy⟩, ⟨"x", .prim .int, .param, .dummy⟩]
  exprs := #[⟨.dummy, .var 0⟩, ⟨.dummy, .var 1⟩, ⟨.dummy, .call none ⟨"Source", "next", 0⟩ []⟩,
    ⟨.dummy, .assign 1 none 2⟩, ⟨.dummy, .var 1⟩, ⟨.dummy, .lit (.int 2)⟩,
    ⟨.dummy, .assign 4 none 5⟩]
  stmts := #[⟨.dummy, .expr 3⟩, ⟨.dummy, .expr 6⟩, ⟨.dummy, .breakOut⟩,
    ⟨.dummy, .guarded [] [0] [] (some (if writes then [1, 2] else [2]))⟩,
    ⟨.dummy, .switch 0 [⟨.dummy, [], [3]⟩]⟩]
  params := [0, 1]
  block := [4]

theorem overridden_accepted : ∀ writes, (overridden writes).Accepted
  | false => ⟨(overridden false).has_of_reaches (by decide) (by decide) (by decide), by decide⟩
  | true => ⟨(overridden true).has_of_reaches (by decide) (by decide) (by decide), by decide⟩

section

open Stmt

variable {all : IdSet}

/-- The call throws, so the assignment does not take place. -/
theorem overridden_thrown (writes : Bool) :
    ((overridden writes).stmtTree 0).run (paths all) () [] .thrown () := by
  have hcall : ((overridden writes).exprTree 2).path () [] .thrown () :=
    bind_of_silent .pass (bind_of_silent .intro (.thrown .thrown))
  exact bind_of_silent .pass (.thrown (bind_of_silent .pass (.thrown (.thrown hcall))))

/-- The finalizer overrides the exception by a `break`, which ends the switch. -/
theorem overridden_run {finalizer : List Stmt} {tr : List Access} (writes : Bool)
    (hf : listRun (paths all) finalizer () tr (.done .brk) ()) :
    (node 4 (.switch ((overridden writes).exprTree 0) [⟨.dummy, [], [node 3
      (.guarded [] [(overridden writes).stmtTree 0] [] (some finalizer))]⟩])).run (paths all)
      () (.read 0 :: tr) (.done .normal) () := by
  have hselector : ((overridden writes).exprTree 0).path () [.read 0] (.done ()) () :=
    bind_of_silent .pass (bind_silent .intro (bind_of_silent .pass .intro))
  have hblock : closing (paths all) [] (listRun (paths all) [(overridden writes).stmtTree 0])
      () [] .thrown () :=
    bind_of_silent (.thrown (.thrown (overridden_thrown writes)))
      (bind_of_silent (bind_of_silent .intro .intro) .intro)
  have htry : (node 3 (.guarded [] [(overridden writes).stmtTree 0] [] (some finalizer))).run
      (paths all) () tr (.done .brk) () := by
    refine bind_of_silent .pass (bind_of_silent (.thrown ?_) (bind_silent hf .intro))
    exact bind_of_silent (.thrown (bind_of_silent .intro hblock)) (.left .intro)
  refine bind_of_silent .pass (.next hselector (bind_of_silent .intro ?_))
  exact bind_silent (.left (bind_silent (bind_silent htry .intro) .intro)) .intro

/-- A path on which the finalizer's `break` follows the write. -/
theorem overridden_final : listRun (paths all)
    [(overridden true).stmtTree 1, (overridden true).stmtTree 2] () [.write 1] (.done .brk) () := by
  have hvalue : ((overridden true).exprTree 5).path () [] (.done ()) () :=
    bind_of_silent .pass (bind_of_silent .intro (bind_of_silent .pass .intro))
  have hassign : ((overridden true).exprTree 6).path () [.write 1] (.done ()) () :=
    bind_of_silent .pass (bind_silent (bind_of_silent hvalue .intro) (bind_of_silent .pass .intro))
  exact bind_silent (bind_of_silent .pass (bind_silent hassign .intro))
    (bind_of_silent (bind_of_silent .pass .intro) .intro)

end

/-- A finalizer that breaks after it has written the variable itself does no harm. -/
theorem write_mem_of_mem_kills_overridden :
    1 ∈ (compute (overridden true)).killsOf 4 ∧
      ((overridden true).stmtTree 4).BreaksLate (overridden true).allVars 1 false ∧
      .write 1 ∈ [Access.read 0, .write 1] := by
  have hv : 1 ∈ (compute (overridden true)).killsOf 4 := by decide
  have hl : ((overridden true).stmtTree 4).BreaksLate (overridden true).allVars 1 false :=
    ⟨⟨⟨trivial, ⟨trivial, trivial⟩, trivial, ⟨trivial, trivial, trivial⟩,
      fun _ hf => absurd (by decide) hf⟩, trivial⟩, trivial⟩
  exact ⟨hv, hl, write_mem_of_mem_kills (overridden_accepted true) (.head _) hv hl
    (overridden_run true overridden_final)⟩

/-- The overwrites of a switch count an assignment that a call may prevent by an exception: the
finalizer breaks, and the switch is complete without it. -/
theorem not_write_mem_overridden :
    (overridden false).Accepted ∧ 1 ∈ (compute (overridden false)).killsOf 4 ∧
      ((overridden false).stmtTree 4).run (paths (overridden false).allVars) ()
        [.read 0] (.done .normal) () ∧ .write 1 ∉ [Access.read 0] := by
  have hfinal : Stmt.listRun (paths (overridden false).allVars) [(overridden false).stmtTree 2]
      () [] (.done .brk) () :=
    bind_of_silent (bind_of_silent .pass .intro) .intro
  exact ⟨overridden_accepted false, by decide, overridden_run false hfinal, by decide⟩

end LivenessInfo

end Midend
