import Midend.Proofs.Eval.Soundness

/-!
# The ends of loops

The condition of a `do` loop and the update of a `for` loop are evaluated in the
join of the contexts at the end of the body and at every `continue`. The
evaluator comes to them once (`Stmt.context_unique`). A run comes to them with
locals that agree with this context, however many statements a `continue` leaves
on its way, except for the locals that a finalizer writes on that way
(`Body.ends_sound`). Where the ends of a loop mention such a local, the value that
is recorded for them may be wrong (`Body.ends_unsound_detour`).
-/

namespace Midend

open Run Exec

variable {H : Type} {b : Body} {host : Host H} {V : VarId → Prop} {D : Expr → Prop}
  {P : Expr → Locals → Prop} {st st' : EvalState} {ss : List Stmt} {L t : Stmt} {e : Expr}

namespace Stmt

/-- What is evaluated at the end of an iteration is an expression of the loop. -/
theorem mem_exprChildren_of_ends {k : StmtKind Expr Stmt} (h : e ∈ ends k) :
    e ∈ k.exprChildren := by
  cases k with
  | doLoop body c => exact h
  | forLoop init c update body => exact List.mem_append.2 (.inr h)
  | _ => cases h

/-- Labels are expressions of their switch. -/
theorem mem_exprChildren_of_labels {selector : Expr} {cases : List (SwitchCase Expr Stmt)}
    (h : e ∈ labels cases) : e ∈ (StmtKind.switch selector cases).exprChildren :=
  List.mem_cons_of_mem selector h

/-- Only loops have expressions at the end of an iteration. -/
theorem ne_switch_of_ends {k : StmtKind Expr Stmt} (h : e ∈ ends k) (selector : Expr)
    (cases : List (SwitchCase Expr Stmt)) : k ≠ .switch selector cases := by
  rintro rfl
  cases h

/-- The expression is one of another statement than `L`. -/
def Elsewhere (ss : List Stmt) (L : Stmt) (e : Expr) : Prop :=
  ∃ t ∈ substmtsOfList ss, t ≠ L ∧ e ∈ t.kind.exprChildren.flatMap Expr.subexprs

/-- What is below an expression of another statement is elsewhere. -/
theorem Elsewhere.of_child (ht : t ∈ substmtsOfList ss) (hne : t ≠ L)
    (he : e ∈ t.kind.exprChildren) {u : Expr} (hu : u ∈ e.subexprs) : Elsewhere ss L u :=
  ⟨t, ht, hne, List.mem_flatMap.2 ⟨e, he, hu⟩⟩

/-- What is claimed of the locals where a run comes to an expression: nothing elsewhere, and in `L`
that they agree with a context in which the evaluation from `st` comes to it. -/
def ClaimedIn (b : Body) (ss : List Stmt) (st : EvalState) (V : VarId → Prop) (L : Stmt) (e : Expr)
    (x : Locals) : Prop :=
  Elsewhere ss L e ∨ ∃ c, (L, e, c) ∈ listContexts b ss st ∧ Reached V L.kind e c x

/-- Of the expressions of other statements nothing is claimed. -/
theorem ClaimedIn.of_child (ht : t ∈ substmtsOfList ss) (hne : t ≠ L)
    (he : e ∈ t.kind.exprChildren) (x : Locals) : ClaimedIn b ss st V L e x :=
  .inl (.of_child ht hne he e.mem_subexprs_self)

/-- The context in which an evaluation from `st` comes to the ends of a loop. -/
def EndContext (b : Body) (ss : List Stmt) (st : EvalState) (L : Stmt) (c : Context) : Prop :=
  ∃ e ∈ (ends L.kind).head?, (L, e, c) ∈ listContexts b ss st

/-- What is claimed fits the layers of all other statements. -/
theorem fits_of_ends (he : e ∈ ends L.kind) (ht : t ∈ substmtsOfList ss) (herr : t.kind ≠ .err) :
    Fits (ClaimedIn b ss st V L) t.kind := by
  refine ⟨herr, fun selector cases hk u hu => ?_⟩
  have hne : t ≠ L := by
    rintro rfl
    exact ne_switch_of_ends he selector cases hk
  have hchild : u ∈ t.kind.exprChildren := hk ▸ mem_exprChildren_of_labels hu
  exact .of_child ht hne hchild

/-- The claim is that of the contexts in which the condition or the updates are evaluated. -/
theorem welcomes_of_ends (he : e ∈ ends L.kind) (hreads : ∀ e ∈ ends L.kind, e.ReadsOnly V)
    (hknown : ∀ c, EndContext b ss st L c →
      ∀ w ∈ endDetours L.kind, ∀ v ∈ w, V v → c.get v = .unknown) :
    Welcomes b (Elsewhere ss L) (ClaimedIn b ss st V L) V (listContexts b ss st) := by
  constructor
  · intro t u c hm x hx
    obtain ⟨ht, hu⟩ := mem_listContexts hm
    by_cases hne : t = L
    · subst hne
      exact .inr ⟨c, hm, hx⟩
    · exact .of_child ht hne hu x
  · intro t u c hm hhead
    obtain ⟨ht, -⟩ := mem_listContexts hm
    by_cases hne : t = L
    · subst hne
      exact .inl ⟨hreads, hknown c ⟨u, hhead, hm⟩⟩
    · refine .inr fun v hv => ?_
      have hchild := mem_exprChildren_of_ends hv
      exact ⟨fun s hs => .of_child ht hne hchild hs, .of_child ht hne hchild⟩
  · intro t _ c hm selector cases hk u hu
    have hne : t ≠ L := by
      rintro rfl
      exact ne_switch_of_ends he selector cases hk
    have hchild : u ∈ t.kind.exprChildren := hk ▸ mem_exprChildren_of_labels hu
    exact .inr fun s hs => .of_child (mem_listContexts hm).1 hne hchild hs

/-! ## The context of an expression -/

/-- The expressions that the statements hold themselves. -/
def exprsOf (ss : List Stmt) : List Expr := ss.flatMap (·.kind.exprChildren)

/-- The expressions that the evaluator comes to. -/
def visited (cs : List (Stmt × Expr × Context)) : List Expr := cs.map (·.2.1)

theorem exprsOf_append (ss ts : List Stmt) : exprsOf (ss ++ ts) = exprsOf ss ++ exprsOf ts :=
  List.flatMap_append

theorem visited_append (cs ds : List (Stmt × Expr × Context)) :
    visited (cs ++ ds) = visited cs ++ visited ds := List.map_append

/-- Every expression of a statement is visited once. -/
theorem visited_exprContexts (whole : Stmt) :
    ∀ (es : List Expr) (st : EvalState), visited (exprContexts b whole es st) = es
  | [], _ => rfl
  | e :: es, st => congrArg (e :: ·) (visited_exprContexts whole es ((e.eval b 0).after st))

mutual

/-- The evaluator comes to every expression at most once. -/
theorem visited_contexts :
    ∀ (s : Stmt) (st : EvalState), (visited (s.contexts b st)).Subperm (exprsOf s.substmts)
  | node id kind, st => visited_kindContexts (node id kind) kind st

/-- No expression of a layer or below it is visited twice. -/
theorem visited_kindContexts (whole : Stmt) :
    ∀ (k : StmtKind Expr Stmt) (st : EvalState),
      (visited (kindContexts b whole k st)).Subperm (k.exprChildren ++ exprsOf (substmtsOfKind k))
  | .decl .., _ | .ret _, _ | .assert .., _ => by
    rw [kindContexts, visited_exprContexts]
    exact (List.sublist_append_left _ _).subperm
  | .expr _, _ | .throw _, _ => .refl _
  | .block body, st => visited_listContexts body st
  | .branch x onTrue onFalse, st => by
    have hF := fun st => visited_optionContexts onFalse st
    have hsub : exprsOf (substmtsOfKind (.branch x onTrue onFalse)) =
        exprsOf onTrue.substmts ++ exprsOf (onFalse.elim [] substmts) := by
      cases onFalse <;> simp [substmtsOfKind, exprsOf]
    rw [hsub, kindContexts]
    refine (List.subperm_cons x).2 ?_
    split
    · exact (visited_contexts onTrue _).trans (List.sublist_append_left _ _).subperm
    · exact (hF _).trans (List.sublist_append_right _ _).subperm
    · rw [← visited, visited_append]
      exact (visited_contexts onTrue _).append (hF _)
    · exact List.nil_subperm
  | .whileLoop c body, _ | .forEach _ c body, _ =>
    (List.subperm_cons c).2 (visited_contexts body _)
  | .doLoop body c, _ => by
    rw [kindContexts, visited_append, visited_exprContexts]
    exact ((visited_contexts body _).append (.refl [c])).trans List.perm_append_comm.subperm
  | .forLoop init c update body, st => by
    simp only [kindContexts, visited_append, visited_exprContexts, substmtsOfKind, exprsOf_append]
    let inits := exprsOf (substmtsOfList init)
    have hperm : (inits ++ c.toList ++ exprsOf body.substmts ++ update).Perm
        (c.toList ++ update ++ (inits ++ exprsOf body.substmts)) := by
      refine ((List.perm_append_comm.append_right _).append_right _).trans ?_
      rw [List.append_assoc, List.append_assoc, List.append_assoc c.toList,
        ← List.append_assoc inits]
      exact List.perm_append_comm.append_left _
    refine List.Subperm.trans ?_ hperm.subperm
    exact (((visited_listContexts init _).append (.refl _)).append (visited_contexts body _)).append
      (.refl _)
  | .switch selector cases, _ => by
    refine (List.subperm_cons selector).2 ?_
    exact (visited_caseContexts _ cases _).trans (List.sublist_append_right _ _).subperm
  | .guarded resources body catches none, _ => by
    simp only [kindContexts, visited_append, substmtsOfKind, exprsOf_append]
    exact ((visited_listContexts resources _).append (visited_listContexts body _)).append
      (visited_catchContexts _ catches _)
  | .guarded resources body catches (some finalizer), _ => by
    simp only [kindContexts, visited_append, substmtsOfKind, exprsOf_append]
    exact (((visited_listContexts resources _).append (visited_listContexts body _)).append
      (visited_catchContexts _ catches _)).append (visited_listContexts finalizer _)
  | .breakOut, _ | .continueLoop, _ | .empty, _ | .err, _ => List.nil_subperm

theorem visited_optionContexts :
    ∀ (s : Option Stmt) (st : EvalState),
      (visited (optionContexts b s st)).Subperm (exprsOf (s.elim [] substmts))
  | none, _ => List.nil_subperm
  | some s, st => visited_contexts s st

/-- No expression of statements is visited twice. -/
theorem visited_listContexts :
    ∀ (ss : List Stmt) (st : EvalState),
      (visited (listContexts b ss st)).Subperm (exprsOf (substmtsOfList ss))
  | [], _ => List.nil_subperm
  | s :: ss, st => by
    rw [listContexts, substmtsOfList, visited_append, exprsOf_append]
    exact (visited_contexts s st).append (visited_listContexts ss _)

theorem visited_caseContexts (entry : Context) :
    ∀ (cs : List (SwitchCase Expr Stmt)) (st : EvalState),
      (visited (caseContexts b entry cs st)).Subperm (exprsOf (substmtsOfCases cs))
  | [], _ => List.nil_subperm
  | ⟨_, _, body⟩ :: cs, st => by
    rw [caseContexts, substmtsOfCases, visited_append, exprsOf_append]
    exact (visited_listContexts body _).append (visited_caseContexts entry cs _)

theorem visited_catchContexts (entry : Context) :
    ∀ (cs : List (CatchClause Stmt)) (st : EvalState),
      (visited (catchContexts b entry cs st)).Subperm (exprsOf (substmtsOfCatches cs))
  | [], _ => List.nil_subperm
  | ⟨_, _, body⟩ :: cs, st => by
    rw [catchContexts, substmtsOfCatches, visited_append, exprsOf_append]
    exact (visited_listContexts body _).append (visited_catchContexts entry cs _)

end

/-- So an expression of a body is evaluated in one context. -/
theorem context_unique {t : Stmt} {e : Expr} {c c' : Context} {st : EvalState} (hb : b.Accepted)
    (h : (t, e, c) ∈ listContexts b b.root st) (h' : (t, e, c') ∈ listContexts b b.root st) :
    c' = c := by
  have hall : (b.root.flatMap allExprs).Nodup := hb.nodup_exprIds.of_map _
  have hsub : (exprsOf (substmtsOfList b.root)).Sublist (b.root.flatMap allExprs) := by
    rw [substmtsOfList_eq, exprsOf, List.flatMap_assoc]
    refine .flatMap_right _ fun s _ => .flatMap_right _ fun t _ => ?_
    exact Expr.sublist_subexprs t.kind.exprChildren
  have hnodup : (visited (listContexts b b.root st)).Nodup := by
    obtain ⟨l, hl, hs⟩ := visited_listContexts (b := b) b.root st
    exact hl.nodup_iff.1 ((hs.trans hsub).nodup hall)
  exact congrArg (·.2.2) (List.inj_on_of_nodup_map hnodup h' h rfl)

end Stmt

namespace Body

/-- A run comes to the ends of a loop with locals that agree with the context in which the evaluator
evaluates them, and they have their recorded values, if the evaluator knows nothing there of the
locals that a finalizer may write on the way of a `continue`. What the ends do not mention may be
left out. -/
theorem ends_sound {m m' : Machine H} {tr : List Event} {r : Ending Exit} (hb : b.Accepted)
    (herr : ∀ s ∈ b.root.flatMap Stmt.substmts, s.kind ≠ .err)
    (hL : L ∈ b.root.flatMap Stmt.substmts)
    (hreads : ∀ e ∈ Stmt.ends L.kind, e.ReadsOnly V)
    (hknown : ∀ c, Stmt.EndContext b b.root st L c →
      ∀ w ∈ Stmt.endDetours L.kind, ∀ v ∈ w, V v → c.get v = .unknown)
    (heval : Stmt.evalList b b.root st = (.ok (), st')) (hm : st.context.Agrees m.locals)
    (hrun : Stmt.listRun (machine b host) b.root m tr r m') (he : e ∈ Stmt.ends L.kind) :
    (∀ x, .enter e x ∈ tr → (∃ c, (L, e, c) ∈ Stmt.listContexts b b.root st) ∧
      ∀ c, (L, e, c) ∈ Stmt.listContexts b b.root st → c.AgreesOn V x) ∧
    ∀ d l, .value e d ∈ tr → st'.recorded.get? e.id = some (.known l) → d = .const l := by
  have hhere : ¬ Stmt.Elsewhere b.root L e := by
    rintro ⟨t, ht, hne, hu⟩
    rw [Stmt.substmtsOfList_eq] at ht
    refine hne (hb.eq_of_mem_subexprs ht hL hu (List.mem_flatMap.2 ⟨e, ?_, e.mem_subexprs_self⟩))
    exact Stmt.mem_exprChildren_of_ends he
  rw [← Stmt.substmtsOfList_eq] at herr
  have hfollows : Follows st' (Stmt.Elsewhere b.root L) (Stmt.ClaimedIn b b.root st V L) st.context
      (Stmt.listRun (machine b host) b.root) _ st' :=
    Stmt.list_foretold (fun t ht => Stmt.fits_of_ends he ht (herr t ht))
      (Stmt.welcomes_of_ends he hreads hknown) heval (.refl _)
  obtain ⟨hev, -⟩ := hfollows hrun hm
  refine ⟨fun x hx => ?_, fun d l hd hl => (hev _ hd).eq_const hhere hl⟩
  obtain ⟨c, hc, hx⟩ := (hev _ hx : Stmt.ClaimedIn b b.root st V L e x).resolve_left hhere
  refine ⟨⟨c, hc⟩, fun c' hc' => ?_⟩
  rw [Stmt.context_unique hb hc hc']
  exact hx.mono fun v hv _ => hv

/-- A `do` loop whose body assigns 1 to `x` and continues by way of a finalizer, which assigns 2 to
`x` if `clash` and to `y` if not. -/
def detour (clash : Bool) : Body where
  name := "detour"
  vars := #[⟨"x", .prim .int, .param, .dummy⟩, ⟨"y", .prim .int, .param, .dummy⟩]
  exprs := #[⟨.dummy, .var 0⟩, ⟨.dummy, .lit (.int 1)⟩, ⟨.dummy, .assign 0 none 1⟩,
    ⟨.dummy, .var (if clash then 0 else 1)⟩, ⟨.dummy, .lit (.int 2)⟩, ⟨.dummy, .assign 3 none 4⟩,
    ⟨.dummy, .var 0⟩, ⟨.dummy, .lit (.int 1)⟩, ⟨.dummy, .assign 6 none 7⟩,
    ⟨.dummy, .var 0⟩, ⟨.dummy, .lit (.int 1)⟩, ⟨.dummy, .binary 9 (.equality false) 10⟩]
  stmts := #[⟨.dummy, .expr 2⟩, ⟨.dummy, .continueLoop⟩, ⟨.dummy, .expr 5⟩,
    ⟨.dummy, .guarded [] [0, 1] [] (some [2])⟩, ⟨.dummy, .expr 8⟩, ⟨.dummy, .block [3, 4]⟩,
    ⟨.dummy, .doLoop 5 11⟩]
  params := [0, 1]
  block := [6]

/-- A run of a condition that compares a local with a constant, up to its value. -/
theorem equality_run {m : Machine H} {i j k : ExprId} {v : VarId} {n : Int32} {l : Literal}
    {t : Bool} (hv : m.locals v = .const l)
    (ht : Literal.binary (.equality false) l (.int n) = .ok (.bool t)) :
    ∃ tr, .value (.node i (.binary (.node j (.var v)) (.equality false) (.node k (.lit (.int n)))))
        (.const (.bool t)) ∈ tr ∧
      (Expr.node i (.binary (.node j (.var v)) (.equality false)
        (.node k (.lit (.int n))))).exec b host m tr .cut m := by
  have hvar : (Expr.node j (.var v)).exec b host m _ (.done (.const l)) m :=
    Expr.exec_of_kindExec b host (readLocal_iff.2 ⟨rfl, by rw [hv], rfl⟩)
  have hlit : (Expr.node k (.lit (.int n))).exec b host m _ (.done (.const (.int n))) m :=
    Expr.exec_of_kindExec b host .intro
  have happly : apply host (.binary (.equality false)) [.const l, .const (.int n)] m []
      (.done (.const (.bool t))) m := by
    rw [apply, Operation.onConstants, ht]
    exact .intro
  exact ⟨_, List.mem_concat_self,
    Expr.exec_cut_of_kindExec b host (.next hvar (.next hlit happly))⟩

/-- A run of a block and its finalizer. -/
theorem finalized_run {M : Meaning (Machine H) Event} {body finalizer : List Stmt}
    {m m₁ m₂ : Machine H} {tr tr₁ : List Event} {e : Exit}
    (hb : Stmt.listRun M body m tr (.done e) m₁)
    (hf : Stmt.listRun M finalizer m₁ tr₁ (.done .normal) m₂) :
    Stmt.kindRun M (.guarded [] body [] (some finalizer)) m (tr ++ tr₁) (.done e) m₂ := by
  have hclose : Stmt.closing M [] (Stmt.listRun M body) m tr (.done e) m₁ :=
    bind_silent (.done hb) (bind_of_silent (bind_of_silent .intro .intro) .intro)
  have hhandled : (((Stmt.listRun M []).andThen (Stmt.closing M [] (Stmt.listRun M body))).handledBy
      (Stmt.catchesRun M [])) m tr (.done e) m₁ :=
    bind_silent (.done (bind_of_silent .intro hclose)) .intro
  exact .next (.done hhandled) (bind_silent hf .intro)

/-- A run of the loop up to its condition, which holds unless the finalizer assigns to `x`. -/
theorem detour_run (clash : Bool) (m : Machine H) :
    ∃ tr x m', .enter ((detour clash).exprTree 11) x ∈ tr ∧
      .value ((detour clash).exprTree 11) (.const (.bool !clash)) ∈ tr ∧
      Stmt.listRun (machine (detour clash) host) (detour clash).root m tr .cut m' := by
  let M := machine (detour clash) host
  let m₁ := m.set 0 (.const (.int 1))
  let m₂ := m₁.set (if clash then 0 else 1) (.const (.int 2))
  obtain ⟨tr₀, h₀⟩ : ∃ tr, ((detour clash).stmtTree 0).run M m tr (.done .normal) m₁ := by
    cases clash <;> exact Stmt.assign_lit_run rfl rfl
  obtain ⟨tr₂, h₂⟩ : ∃ tr, ((detour clash).stmtTree 2).run M m₁ tr (.done .normal) m₂ := by
    cases clash <;> exact Stmt.assign_lit_run rfl rfl
  have hcont : ((detour clash).stmtTree 1).run M m₁ [] (.done .cont) m₁ := by
    cases clash <;> exact bind_of_silent .pass .intro
  have hguard : ((detour clash).stmtTree 3).run M m (tr₀ ++ tr₂) (.done .cont) m₂ := by
    have hbody : Stmt.listRun M [(detour clash).stmtTree 0, (detour clash).stmtTree 1] m tr₀
        (.done .cont) m₁ := bind_silent h₀ (bind_of_silent hcont .intro)
    have hfinal : Stmt.listRun M [(detour clash).stmtTree 2] m₁ tr₂ (.done .normal) m₂ :=
      bind_silent h₂ .intro
    cases clash <;> exact bind_of_silent .pass (finalized_run hbody hfinal)
  have hblock : ((detour clash).stmtTree 5).run M m (tr₀ ++ tr₂) (.done .cont) m₂ := by
    cases clash <;> exact bind_of_silent .pass (bind_silent hguard .intro)
  have hx : m₂.locals 0 = .const (.int (if clash then 2 else 1)) := by
    cases clash <;> rfl
  obtain ⟨tr₃, h₃, hcond⟩ : ∃ tr, .value ((detour clash).exprTree 11) (.const (.bool !clash)) ∈ tr ∧
      ((detour clash).exprTree 11).exec (detour clash) host m₂ tr .cut m₂ := by
    cases clash <;> exact equality_run hx rfl
  have htest : M.test ((detour clash).exprTree 11) m₂
      ([.enter ((detour clash).exprTree 11) m₂.locals] ++ tr₃) .cut m₂ :=
    .cut (.next .intro hcond)
  have hloop : ((detour clash).stmtTree 6).run M m
      ((tr₀ ++ tr₂) ++ ([.enter ((detour clash).exprTree 11) m₂.locals] ++ tr₃)) .cut m₂ := by
    cases clash <;> exact bind_of_silent .pass (.cut (.next hblock (.cut htest)))
  refine ⟨_, m₂.locals, m₂, ?_, ?_, .cut hloop⟩
  · simp
  · simp [h₃]

/-- The evaluation of the loop. -/
def detourEval (clash : Bool) : Except EvalError Unit × EvalState :=
  Stmt.evalList (detour clash) (detour clash).root { observed := some ∅ }

/-- After the detour the condition is evaluated where its recorded value is wrong. -/
theorem ends_sound_detour :
    ∃ tr x m', Stmt.listRun (machine (detour false) .absent) (detour false).root
        ⟨fun _ => .const .null, ()⟩ tr .cut m' ∧
      .enter ((detour false).exprTree 11) x ∈ tr ∧
      (∀ c, ((detour false).stmtTree 6, (detour false).exprTree 11, c) ∈
        Stmt.listContexts (detour false) (detour false).root { observed := some ∅ } →
        c.Agrees x) ∧
      ∀ d, .value ((detour false).exprTree 11) d ∈ tr → d = .const (.bool true) := by
  obtain ⟨tr, x, m', hx, -, hrun⟩ := detour_run false ⟨fun _ => .const .null, ()⟩
  have hunknown : ∀ q ∈ Stmt.listContexts (detour false) (detour false).root { observed := some ∅ },
      q.2.2.get 1 = .unknown := by decide
  have hdetours : ∀ w ∈ Stmt.endDetours ((detour false).stmtTree 6).kind,
      ∀ v ∈ w.toList, v = 1 := by decide
  have hknown : ∀ c, Stmt.EndContext (detour false) (detour false).root { observed := some ∅ }
      ((detour false).stmtTree 6) c → ∀ w ∈ Stmt.endDetours ((detour false).stmtTree 6).kind,
      ∀ v ∈ w, True → c.get v = .unknown := by
    rintro c ⟨e, -, hc⟩ w hw v hv -
    rw [hdetours w hw v (IdSet.mem_toList.2 hv)]
    exact hunknown _ hc
  obtain ⟨henter, hvalue⟩ := ends_sound
    ⟨has_of_reaches _ (by decide) (by decide) (by decide), by decide⟩ (by decide)
    List.mem_cons_self (fun e _ => e.readsOnly_true) hknown
    (Prod.ext rfl rfl : detourEval false = (.ok (), (detourEval false).2))
    (fun _ _ _ h => nomatch h) hrun List.mem_cons_self
  exact ⟨tr, x, m', hrun, hx, (henter x hx).2, fun d hd => hvalue d _ hd rfl⟩

/-- The evaluator records that the condition holds, which it does not after the finalizer. -/
theorem ends_unsound_detour :
    (detour true).Accepted ∧ (detourEval true).1 = .ok () ∧
      (detourEval true).2.recorded.get? 11 = some (.known (.bool true)) ∧
      ∃ tr m', Stmt.listRun (machine (detour true) .absent) (detour true).root
          ⟨fun _ => .const .null, ()⟩ tr .cut m' ∧
        .value ((detour true).exprTree 11) (.const (.bool false)) ∈ tr := by
  obtain ⟨tr, x, m', -, hd, hrun⟩ := detour_run true ⟨fun _ => .const .null, ()⟩
  exact ⟨⟨has_of_reaches _ (by decide) (by decide) (by decide), by decide⟩, rfl, rfl, tr, m', hrun,
    hd⟩

end Body

end Midend
