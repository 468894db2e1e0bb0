import Midend.Proofs.Body.Shape
import Midend.Proofs.Eval.Loops

/-!
# Soundness of evaluation

The evaluation of a statement foretells its runs (`Stmt.eval_foretold`): from
locals that agree with the evaluator's context they show only values that the
evaluator has recorded, and they end where it ends. The groups of a switch, the
handlers and the finalizer of a guarded block are entered from anywhere in their
statement, and are evaluated in a context that forgets all that it writes.

Without `continue`, and with labels that are literals, nothing is left to doubt
(`Body.eval_sound`).
-/

namespace Midend

open Run Exec

variable {H : Type} {b : Body} {host : Host H} {D : Expr → Prop} {P : Expr → Locals → Prop}
  {V : VarId → Prop} {last : EvalState} {whole : Stmt}

namespace Stmt

/-! ## Ways that meet where their statement was entered -/

theorem evalCases_later {entry : Context} {st' : EvalState} :
    ∀ {cs : List (SwitchCase Expr Stmt)} {st : EvalState},
      evalCases b entry cs st = (.ok (), st') → st.Later st'
  | [], _, h => by
    obtain ⟨-, rfl⟩ := Eval.pure_eq_ok.1 h
    exact .refl _
  | ⟨_, labels, body⟩ :: cs, _, h => by
    obtain ⟨_, st₁, h₁, h⟩ := Eval.bind_eq_ok.1 h
    obtain ⟨_, _, ⟨⟩, h⟩ := Eval.bind_eq_ok.1 h
    obtain ⟨_, st₂, h₂, h₃⟩ := Eval.bind_eq_ok.1 h
    refine (Expr.evalList_later h₁).trans ((st₁.later_context entry).trans ?_)
    exact (evalList_later h₂).trans (evalCases_later h₃)

theorem evalCatches_later {entry : Context} {st' : EvalState} :
    ∀ {cs : List (CatchClause Stmt)} {st : EvalState},
      evalCatches b entry cs st = (.ok (), st') → st.Later st'
  | [], _, h => by
    obtain ⟨-, rfl⟩ := Eval.pure_eq_ok.1 h
    exact .refl _
  | ⟨_, _, body⟩ :: cs, st, h => by
    obtain ⟨_, _, ⟨⟩, h⟩ := Eval.bind_eq_ok.1 h
    obtain ⟨_, st₂, h₂, h₃⟩ := Eval.bind_eq_ok.1 h
    exact (st.later_context entry).trans ((evalList_later h₂).trans (evalCatches_later h₃))

/-- Where expressions are evaluated depends on the context alone. -/
theorem exprContexts_alike :
    ∀ (es : List Expr) {st st' : EvalState}, st.context = st'.context →
      exprContexts b whole es st = exprContexts b whole es st'
  | [], _, _, _ => rfl
  | e :: es, _, _, h => by
    rw [exprContexts, exprContexts, h, exprContexts_alike es ((Expr.eval_alike 0 e).after h)]

/-- Where the evaluation of an expression among others starts. -/
theorem exists_eval_of_mem (whole : Stmt) {w : IdSet} {d : Context} {e : Expr} {st' : EvalState} :
    ∀ {es : List Expr} {st : EvalState}, (∀ x ∈ es, ∀ v ∈ x.written, v ∈ w) →
      st.context.LeOff w d → Expr.evalList b 0 es st = (.ok (), st') → e ∈ es →
      ∃ st₁ a st₂, (whole, e, st₁.context) ∈ exprContexts b whole es st ∧
        st₁.context.LeOff w d ∧ e.eval b 0 st₁ = (.ok a, st₂) ∧ st₂.Later st'
  | [], _, _, _, _, he => nomatch he
  | x :: xs, st, hw, hd, h, he => by
    obtain ⟨a, st₁, h₁, h₂⟩ := Eval.bind_eq_ok.1 h
    rw [List.forall_mem_cons] at hw
    rcases List.mem_cons.1 he with rfl | he
    · exact ⟨st, a, st₁, List.mem_cons_self, hd, h₁, Expr.evalList_later h₂⟩
    · have hd₁ := (Expr.eval_within (Expr.assignsIn_of_written hw.1) h₁ hd).2
      obtain ⟨s, a, s', hm, hs⟩ := exists_eval_of_mem whole hw.2 hd₁ h₂ he
      refine ⟨s, a, s', List.mem_cons_of_mem _ ?_, hs⟩
      rw [Eval.after_eq h₁]
      exact hm

/-- Every label is evaluated, from one of its contexts. -/
theorem exists_eval_of_label (whole : Stmt) {w : IdSet} {entry : Context} {e : Expr}
    {st' : EvalState} :
    ∀ {cs : List (SwitchCase Expr Stmt)} {st : EvalState},
      (∀ x ∈ labels cs, ∀ v ∈ x.written, v ∈ w) →
      (∀ t ∈ substmtsOfCases cs, AssignsIn w t.kind) → st.context.LeOff w entry →
      evalCases b entry cs st = (.ok (), st') → e ∈ labels cs →
      ∃ st₁ a st₂, (whole, e, st₁.context) ∈ groupContexts b whole entry cs st.context ∧
        st₁.context.LeOff w entry ∧ e.eval b 0 st₁ = (.ok a, st₂) ∧ st₂.Later st'
  | [], _, _, _, _, _, he => nomatch he
  | ⟨_, ls, body⟩ :: cs, st, hw, hn, hst, h, he => by
    obtain ⟨_, st₁, h₁, h⟩ := Eval.bind_eq_ok.1 h
    obtain ⟨_, _, ⟨⟩, h⟩ := Eval.bind_eq_ok.1 h
    obtain ⟨_, st₂, h₂, h₃⟩ := Eval.bind_eq_ok.1 h
    simp only [substmtsOfCases, List.mem_append] at hn
    rw [labels, List.flatMap_cons, List.forall_mem_append] at hw
    rcases List.mem_append.1 he with he | he
    · obtain ⟨s, a, s', hm, hd, hs, hl⟩ := exists_eval_of_mem whole hw.1 hst h₁ he
      have hsame : exprContexts b whole ls st = exprContexts b whole ls { context := st.context } :=
        exprContexts_alike ls rfl
      refine ⟨s, a, s', List.mem_append_left _ (hsame ▸ hm), hd, hs, ?_⟩
      exact hl.trans ((st₁.later_context entry).trans ((evalList_later h₂).trans
        (evalCases_later h₃)))
    · have hle := (evalList_within (fun t ht => hn t (.inl ht)) h₂ (.refl _ entry)).2
      -- The labels of the next group are evaluated where this group's statements end.
      have hend : ((evalList b body).after { context := entry }).context = st₂.context := by
        rw [← Eval.after_eq h₂]
        exact (evalList_alike body).after rfl
      obtain ⟨s, a, s', hm, hs⟩ :=
        exists_eval_of_label whole hw.2 (fun t ht => hn t (.inr ht)) hle h₃ he
      refine ⟨s, a, s', List.mem_append_right _ ?_, hs⟩
      rw [hend]
      exact hm

section

variable {w : IdSet} {x : Locals} {entry : Context} {ds ds' : List IdSet}
  {cs : List (Option Context)} {p q : Exec H Exit}

/-- The run has written only locals of `w`, and a `continue` is under way to where it resumes. -/
def Stays (w : IdSet) (x : Locals) (ds : List IdSet) (cs : List (Option Context)) (e : Exit)
    (m : Machine H) : Prop :=
  m.Frames w x ∧ (e = .cont → Resumes ds cs m.locals)

theorem Stays.mono {e : Exit} {m : Machine H} (h : Stays w x ds cs e m) (hd : ds ⊆ ds') :
    Stays w x ds' cs e m := ⟨h.1, fun he => (h.2 he).mono hd⟩

/-- A part that starts where its statement was entered. -/
theorem Follows.stays {st : EvalState} (hp : Follows last D P entry p ds st)
    (hentry : ∀ m : Machine H, m.Frames w x → entry.Agrees m.locals)
    (hk : Keeps (Machine.Frames w x) (fun _ => True) p) (hl : ContinuesLater st.continues cs) :
    Triple (last.Admits D P) (Machine.Frames w x) p (Stays w x ds cs) (Machine.Frames w x) := by
  refine (hk.and_triple (hp.strengthen hentry)).weaken fun e m hm => ⟨hm.1, fun he => ?_⟩
  exact (hm.2.cont he).later hl

/-- One after the other, where the second is evaluated from the entry as well. -/
theorem stays_andThen
    (hp : Triple (last.Admits D P) (Machine.Frames w x) p (Stays w x ds cs) (Machine.Frames w x))
    (hq : Triple (last.Admits D P) (Machine.Frames w x) q (Stays w x ds' cs)
      (Machine.Frames w x)) :
    Triple (last.Admits D P) (Machine.Frames w x) (p.andThen q) (Stays w x (ds ++ ds') cs)
      (Machine.Frames w x) := by
  refine andThen_triple hp (hq.mono (fun _ hm => hm.1) (fun e m hm => ?_) fun _ hm => hm) ?_
  · exact hm.mono (List.subset_append_right ds ds')
  · exact fun e m _ hm => hm.mono (List.subset_append_left ds ds')

/-- Closing the resources changes the heap at most. -/
theorem closing_triple {E : Event → Prop} {pre exc : Machine H → Prop}
    {post : Exit → Machine H → Prop} {resources : List Stmt} (hp : Triple E pre p post exc)
    (hpost : ∀ e m h, post e m → post e { m with heap := h })
    (hexc : ∀ m h, exc m → exc { m with heap := h }) (hpe : ∀ e m, post e m → exc m) :
    Triple E pre (closing (machine b host) resources p) post exc := by
  let close : Exec H Exit := do
    (machine b host).closeAll (resources.filterMap declaredVar?)
    return .normal
  have hclose : ∀ Q : Machine H → Prop, (∀ m h, Q m → Q { m with heap := h }) →
      (∀ m, Q m → exc m) → Triple E Q close (fun e m => e = .normal ∧ Q m) exc := by
    intro Q hQ hQe
    have hk : Keeps Q E ((machine b host).closeAll (resources.filterMap declaredVar?)) :=
      Meaning.closeAll_keeps fun v _ => close_keeps fun d m r t _ hm => hQ m t hm
    exact Triple.bind (Triple.mono hk (fun _ h => h) (fun _ _ h => h) hQe) fun _ =>
      .pure fun _ hm => ⟨rfl, hm⟩
  refine ensuring_triple hp (fun e => ?_) ?_
  · exact andThen_triple (hclose (post e) (hpost e) (hpe e)) (.pure fun _ hm => hm.2)
      fun e m he hm => absurd hm.1 he
  · exact andThen_triple (hclose exc hexc fun _ h => h) (.throw fun _ hm => hm.2)
      fun e m he hm => absurd hm.1 he

/-- A finalizer runs from the entry of its statement on every way out. -/
theorem stays_ensuring {st : EvalState} {u : IdSet} {finalizer : Exec H Exit}
    (hp : Triple (last.Admits D P) (Machine.Frames w x) p (Stays w x ds cs) (Machine.Frames w x))
    (hentry : ∀ m : Machine H, m.Frames w x → entry.Agrees m.locals)
    (hf : Follows last D P entry finalizer ds' st) (hl : ContinuesLater cs st.continues)
    (hw : Keeps (Machine.Frames w x) (fun _ => True) finalizer)
    (hu : ∀ y, Keeps (Machine.Frames u y) (fun _ => True) finalizer) :
    Triple (last.Admits D P) (Machine.Frames w x) (p.ensuring finalizer)
      (Stays w x (ds.map (· ∪ u) ++ ds') st.continues) (Machine.Frames w x) := by
  have hsub := List.subset_append_right (ds.map (· ∪ u)) ds'
  have hfin := Follows.stays hf hentry hw (.refl _)
  refine ensuring_triple hp (fun e => .of_forall fun m₀ hm₀ => ?_) ?_
  · -- What is left of a `continue` that the finalizer holds up is counted as a detour.
    have hstart : ∀ m, m = m₀ → m.Frames w x ∧ m.Frames u m₀.locals := by
      rintro _ rfl
      exact ⟨hm₀.1, Machine.frames_of_eq _ rfl⟩
    have hboth := (hfin.and (hu m₀.locals)).strengthen hstart
    refine andThen_triple (hboth.mono (fun _ h => h) (fun _ _ h => h) fun _ h => h.1) ?_ ?_
    · refine .pure fun m hm => ⟨hm.1.1, fun he => ?_⟩
      have hd := ((hm₀.2 he).later hl).detour (u := u) (y := m.locals) fun v hv => hm.2 v hv
      exact hd.mono (List.subset_append_left _ ds')
    · exact fun e' m he hm => hm.1.mono hsub
  · refine andThen_triple hfin (.throw fun m hm => hm.1) fun e m he hm => hm.mono hsub

end

/-! ## Switches and guarded blocks -/

/-- From the entry of their statement, the evaluation of some parts foretells the runs of `p`. -/
def ForetellsFrom (b : Body) (last : EvalState) (D : Expr → Prop) (P : Expr → Locals → Prop)
    (V : VarId → Prop) (w : IdSet) (x : Context → Eval Unit)
    (cs : Context → EvalState → List (Stmt × Expr × Context)) (p : Exec H Exit)
    (ds : List IdSet) : Prop :=
  ∀ ⦃entry y st st'⦄, (∀ m : Machine H, m.Frames w y → entry.Agrees m.locals) →
    Welcomes b D P V (cs entry st) → x entry st = (.ok (), st') → st'.KeptBy last →
    Triple (last.Admits D P) (Machine.Frames w y) p (Stays w y ds st'.continues)
      (Machine.Frames w y)

/-- The labels of a switch are evaluated where it was entered. The evaluator may know of what it
writes, but no label that fits mentions a local of which it does. -/
theorem labels_keep {selector : Expr} {cases : List (SwitchCase Expr Stmt)}
    {st st₁ st' : EvalState} {x : Locals} (hl : LayerOf whole (.switch selector cases))
    (hf : Fits P (.switch selector cases))
    (hfit : ∀ e ∈ labels cases, LabelFits b D whole st.context e)
    (hsel : selector.run b st = (.ok (), st₁))
    (hentry : ∀ m : Machine H, m.Frames whole.written x →
      (st₁.context.forget whole.written).Agrees m.locals)
    (h : evalCases b (st₁.context.forget whole.written) cases
      { st₁ with context := st₁.context.forget whole.written } = (.ok (), st'))
    (hk : st'.KeptBy last) :
    Keeps (Machine.Frames whole.written x) (last.Admits D P)
      ((machine b host).evalList (labels cases)) := by
  refine Meaning.evalList_keeps fun e he => ?_
  have hkeep := (hl.keepsAt b host hf x).2 e he
  have hP := hf.labels selector cases rfl e he
  have hw : ∀ y ∈ labels cases, ∀ v ∈ y.written, v ∈ whole.written :=
    fun y hy => hl.assigns.2 y (List.mem_cons_of_mem _ hy)
  obtain ⟨U, hU, hunknown⟩ | hD := hfit e he
  · obtain ⟨st₂, a, st₃, hmem, hle, heval, hlater⟩ :=
      exists_eval_of_label whole hw hl.nested (Context.LeOff.refl _ (st₁.context.forget _)) h he
    have hcontext : ((selector.run b).after { context := st.context }).context = st₁.context := by
      rw [← Eval.after_eq hsel]
      exact (Expr.run_alike selector).after rfl
    have hmem : (whole, e, st₂.context) ∈ labelContexts b whole st.context := by
      simpa only [labelContexts, hl.kind, hcontext] using hmem
    refine hkeep.of_triple
      ((Expr.eval_triple hU heval (hlater.kept.trans hk) fun y _ => hP y).strengthen ?_)
    intro m hm v hv l hknown
    by_cases hwritten : v ∈ whole.written
    · rw [hunknown _ hmem v hwritten hv] at hknown
      cases hknown
    · exact hentry m hm v trivial l (hle v hwritten l hknown)
  · exact hkeep.of_triple (Expr.eval_doubtful hD fun m _ => hP m.locals)

/-- A `switch` is foretold from the context after its selector, whichever case is entered. -/
theorem switch_foretold {selector : Expr} {cases : List (SwitchCase Expr Stmt)}
    (hl : LayerOf whole (.switch selector cases)) (hf : Fits P (.switch selector cases))
    (hcs : ∀ skips, ForetellsFrom b last D P V whole.written (evalCases b · cases)
      (caseContexts b · cases) (casesRun (machine b host) skips cases) (detoursOfCases cases)) :
    Foretells b last D P V (evalKind b whole (.switch selector cases))
      (kindContexts b whole (.switch selector cases))
      (kindRun (machine b host) (.switch selector cases)) (detoursOfCases cases) := by
  intro st st' hc h hk
  have hle := hl.leOff h
  obtain ⟨_, st₁, hrun, h⟩ := Eval.bind_eq_ok.1 h
  obtain ⟨_, _, ⟨⟩, h⟩ := Eval.bind_eq_ok.1 h
  obtain ⟨_, _, ⟨⟩, h⟩ := Eval.bind_eq_ok.1 h
  obtain ⟨_, st₂, hcases, ⟨⟩⟩ := Eval.bind_eq_ok.1 h
  obtain ⟨a, hsel⟩ := Expr.run_eq_ok.1 hrun
  have hw := hl.assigns.2 selector List.mem_cons_self
  have hle₁ := (Expr.run_within hw hrun (.refl _ st.context)).2
  have hcc := hc.tail
  rw [Eval.after_eq hrun] at hcc
  have hk₂ : st₂.KeptBy last := hk
  have hk₁ : st₁.KeptBy last := (evalCases_later hcases).kept.trans hk₂
  refine follows_of_frames rfl hle fun x hx => ?_
  have hentry := fun (m : Machine H) hm => agrees_forget (m := m) hx hle₁ hm
  refine Triple.bind (Q := fun _ => Machine.Frames whole.written x) ?_ fun _ => ?_
  · refine (Triple.and (Expr.eval_triple selector.readsOnly_true hsel hk₁ hc.head)
      (hl.keepsAt b host hf x).1).mono ?_ (fun _ _ hm => hm.2) fun _ _ => trivial
    rintro m rfl
    exact ⟨hx, m.frames_of_eq rfl⟩
  · have hfit := hc.labels whole selector st.context List.mem_cons_self selector cases hl.kind
    refine Triple.bind (Triple.mono (labels_keep hl hf hfit hrun hentry hcases hk₂) (fun _ h => h)
      (fun _ _ h => h) fun _ _ => trivial) fun _ => ?_
    refine Triple.bind ((hcs _ hentry hcc hcases hk₂).mono (fun _ h => h) (fun _ _ h => h)
      fun _ _ => trivial) fun e => .pure fun m hm => ⟨hm.1, fun he => hm.2 ?_⟩
    cases e with
    | cont => rfl
    | normal => cases he
    | brk => cases he
    | ret => cases he

/-- What is guarded, with its handlers. -/
theorem handled_stays {resources body : List Stmt} {catches : List (CatchClause Stmt)}
    {w : IdSet} {x : Locals} {st st₁ st₂ st₃ : EvalState}
    (hentry : ∀ m : Machine H, m.Frames w x → st.context.Agrees m.locals)
    (hr : Follows last D P st.context (listRun (machine b host) resources)
      (detoursOfList resources) st₁)
    (hb : Follows last D P st₁.context (listRun (machine b host) body) (detoursOfList body) st₂)
    (hc : Triple (last.Admits D P) (Machine.Frames w x) (catchesRun (machine b host) catches)
      (Stays w x (detoursOfCatches catches) st₃.continues) (Machine.Frames w x))
    (hl₁ : st₁.Later st₂) (hl₂ : st₂.Later st₃)
    (hkr : Keeps (Machine.Frames w x) (fun _ => True) (listRun (machine b host) resources))
    (hkb : Keeps (Machine.Frames w x) (fun _ => True)
      (closing (machine b host) resources (listRun (machine b host) body))) :
    Triple (last.Admits D P) (Machine.Frames w x)
      (((listRun (machine b host) resources).andThen
        (closing (machine b host) resources (listRun (machine b host) body))).handledBy
          (catchesRun (machine b host) catches))
      (Stays w x (detoursOfList resources ++ detoursOfList body ++ detoursOfCatches catches)
        st₃.continues)
      (Machine.Frames w x) := by
  let ds := detoursOfList resources
  let ds' := detoursOfList body
  have hblock : Triple (last.Admits D P) (fun m => st₁.context.Agrees m.locals)
      (closing (machine b host) resources (listRun (machine b host) body))
      (fun e m => e = .cont → Resumes (ds ++ ds') st₃.continues m.locals) fun _ => True := by
    refine closing_triple (hb.weaken fun e m hm he => ?_) ?_ ?_ ?_
    · exact ((hm.cont he).later hl₂.continues).mono (List.subset_append_right ds ds')
    · exact fun _ _ _ hm => hm
    · exact fun _ _ h => h
    · exact fun _ _ _ => trivial
  have hprot := (andThen_keeps hkr hkb).and_triple
    (andThen_triple (hr.strengthen hentry) (hblock.strengthen fun m hm => hm.normal rfl)
      fun e m _ hm he => ((hm.cont he).later (hl₁.trans hl₂).continues).mono
        (List.subset_append_left ds ds'))
  refine handledBy_triple (hprot.weaken fun e m hm => ?_) (hc.weaken fun e m hm => ?_) fun _ h => h
  · exact Stays.mono hm (List.subset_append_left _ _)
  · exact hm.mono (List.subset_append_right _ _)

section

variable {resources body finalizer : List Stmt} {catches : List (CatchClause Stmt)}
  (hr : Foretells b last D P V (evalList b resources) (listContexts b resources)
    (listRun (machine b host) resources) (detoursOfList resources))
  (hb : Foretells b last D P V (evalList b body) (listContexts b body)
    (listRun (machine b host) body) (detoursOfList body))
  (hcs : ForetellsFrom b last D P V whole.written (evalCatches b · catches)
    (catchContexts b · catches) (catchesRun (machine b host) catches) (detoursOfCatches catches))
include hr hb hcs

/-- Without a finalizer, handlers start from the entry context less what the body writes. -/
theorem guarded_foretold (hl : LayerOf whole (.guarded resources body catches none))
    (hf : Fits P (.guarded resources body catches none))
    (hs : ∀ t ∈ substmtsOfKind (.guarded resources body catches none), Fits P t.kind) :
    Foretells b last D P V (evalKind b whole (.guarded resources body catches none))
      (kindContexts b whole (.guarded resources body catches none))
      (kindRun (machine b host) (.guarded resources body catches none))
      (detoursOfKind (.guarded resources body catches none)) := by
  intro st st' hc h hk
  have hle := hl.leOff h
  obtain ⟨_, _, ⟨⟩, h⟩ := Eval.bind_eq_ok.1 h
  obtain ⟨_, _, ⟨⟩, h⟩ := Eval.bind_eq_ok.1 h
  obtain ⟨_, st₁, h₁, h⟩ := Eval.bind_eq_ok.1 h
  obtain ⟨_, st₂, h₂, h⟩ := Eval.bind_eq_ok.1 h
  obtain ⟨_, st₃, h₃, ⟨⟩⟩ := Eval.bind_eq_ok.1 h
  have e₁ : (evalList b resources).after ((Eval.forget whole.written).after st) = st₁ :=
    Eval.after_eq h₁
  simp only [kindContexts, e₁, Eval.after_eq h₂] at hc
  have hk₃ : st₃.KeptBy last := hk
  have hl₂ := evalCatches_later h₃
  have hl₁ := evalList_later h₂
  have hk₂ := hl₂.kept.trans hk₃
  refine follows_of_frames rfl hle fun x hx => ?_
  have hentry : ∀ m : Machine H, m.Frames whole.written x →
      (st.context.forget whole.written).Agrees m.locals :=
    fun m hm => agrees_forget hx (.refl _ _) hm
  have hnested := hl.nested_keepsAt b host hs x
  simp only [substmtsOfKind, List.mem_append] at hnested
  refine (handled_stays hentry (hr hc.left.left h₁ (hl₁.kept.trans hk₂)) (hb hc.left.right h₂ hk₂)
    (hcs hentry hc.right h₃ hk₃) hl₁ hl₂ ?_ ?_).mono Machine.frames_of_eq (fun _ _ hm => hm)
    fun _ _ => trivial
  · exact listRun_keeps fun t ht => hnested t (.inl (.inl ht))
  · refine closing_keeps (hl.keepsAt b host hf x).1 ?_
    exact listRun_keeps fun t ht => hnested t (.inl (.inr ht))

/-- A finalizer is run on every exit, also for the contexts a detour hands on. -/
theorem guarded_some_foretold
    (hf' : Foretells b last D P V (evalList b finalizer) (listContexts b finalizer)
      (listRun (machine b host) finalizer) (detoursOfList finalizer))
    (hl : LayerOf whole (.guarded resources body catches (some finalizer)))
    (hf : Fits P (.guarded resources body catches (some finalizer)))
    (hs : ∀ t ∈ substmtsOfKind (.guarded resources body catches (some finalizer)),
      Fits P t.kind) :
    Foretells b last D P V (evalKind b whole (.guarded resources body catches (some finalizer)))
      (kindContexts b whole (.guarded resources body catches (some finalizer)))
      (kindRun (machine b host) (.guarded resources body catches (some finalizer)))
      (detoursOfKind (.guarded resources body catches (some finalizer))) := by
  intro st st' hc h hk
  have hle := hl.leOff h
  obtain ⟨_, _, ⟨⟩, h⟩ := Eval.bind_eq_ok.1 h
  obtain ⟨_, _, ⟨⟩, h⟩ := Eval.bind_eq_ok.1 h
  obtain ⟨_, st₁, h₁, h⟩ := Eval.bind_eq_ok.1 h
  obtain ⟨_, st₂, h₂, h⟩ := Eval.bind_eq_ok.1 h
  obtain ⟨_, st₃, h₃, h⟩ := Eval.bind_eq_ok.1 h
  obtain ⟨_, _, ⟨⟩, h⟩ := Eval.bind_eq_ok.1 h
  obtain ⟨_, st₄, h₄, ⟨⟩⟩ := Eval.bind_eq_ok.1 h
  have e₁ : (evalList b resources).after ((Eval.forget whole.written).after st) = st₁ :=
    Eval.after_eq h₁
  have e₃ : (evalCatches b ((Eval.forget whole.written).after st).context catches).after st₂ =
      st₃ := Eval.after_eq h₃
  simp only [kindContexts, e₁, Eval.after_eq h₂, e₃] at hc
  have hk₄ : st₄.KeptBy last := hk
  have hl₃ : st₃.Later st₄ := (st₃.later_context _).trans (evalList_later h₄)
  have hl₂ := evalCatches_later h₃
  have hl₁ := evalList_later h₂
  have hk₃ := hl₃.kept.trans hk₄
  have hk₂ := hl₂.kept.trans hk₃
  refine follows_of_frames rfl hle fun x hx => ?_
  have hentry : ∀ m : Machine H, m.Frames whole.written x →
      (st.context.forget whole.written).Agrees m.locals :=
    fun m hm => agrees_forget hx (.refl _ _) hm
  have hnested := hl.nested_keepsAt b host hs x
  simp only [substmtsOfKind, List.mem_append] at hnested hs
  have hhandled := handled_stays hentry (hr hc.left.left.left h₁ (hl₁.kept.trans hk₂))
    (hb hc.left.left.right h₂ hk₂) (hcs hentry hc.left.right h₃ hk₃) hl₁ hl₂
    (listRun_keeps fun t ht => hnested t (.inl (.inl (.inl ht))))
    (closing_keeps (hl.keepsAt b host hf x).1
      (listRun_keeps fun t ht => hnested t (.inl (.inl (.inr ht)))))
  refine (stays_ensuring hhandled hentry (hf' hc.right h₄ hk₄) hl₃.continues ?_ fun y => ?_).mono
    Machine.frames_of_eq (fun _ _ hm => hm) fun _ _ => trivial
  · exact listRun_keeps fun t ht => hnested t (.inr ht)
  · refine listRun_keeps fun t ht => (keepsOwn_frames ?_ (hs t (.inr ht)).not_err).keepsAt
    exact assignsIn_writtenByAll (fun _ hv => hv) t ht

end

mutual

/-- A run of a statement does what its evaluation foretells. -/
theorem eval_foretold :
    ∀ {s : Stmt}, (∀ t ∈ s.substmts, Fits P t.kind) →
      Foretells b last D P V (s.eval b) (s.contexts b) (s.run (machine b host)) s.detours
  | node id kind, hf => by
    have hkind := hf (node id kind) List.mem_cons_self
    have hsub := fun t ht => hf t (List.mem_cons_of_mem _ ht)
    intro st st' hc h hk
    refine (Triple.hazard fun _ _ => trivial).bind fun _ => ?_
    exact kind_foretold (layerOf id kind) hkind hsub hc (Eval.locate_eq_ok.1 h) hk

/-- One case for each form of statement. -/
theorem kind_foretold {whole : Stmt} :
    ∀ {k : StmtKind Expr Stmt}, LayerOf whole k → Fits P k →
      (∀ t ∈ substmtsOfKind k, Fits P t.kind) →
      Foretells b last D P V (evalKind b whole k) (kindContexts b whole k)
        (kindRun (machine b host) k) (detoursOfKind k)
  | .decl .., _, _, _ => decl_foretold
  | .expr _, _, _, _ => expr_foretold
  | .throw _, _, _, _ => throw_foretold
  | .ret _, _, _, _ => ret_foretold
  | .block _, _, _, hs => list_foretold hs
  | .branch c onTrue onFalse, _, _, hs => by
    refine branch_foretold (eval_foretold fun t ht => hs t ?_)
      (option_foretold fun s hs' t ht => hs t ?_)
    · cases onFalse <;> simp [substmtsOfKind, ht]
    · cases hs'
      simp [substmtsOfKind, ht]
  | .assert .., _, _, _ => assert_foretold
  | .whileLoop _ _, hl, hf, hs => whileLoop_foretold hl hf hs (eval_foretold hs)
  | .doLoop _ _, hl, hf, hs => doLoop_foretold hl hf hs (eval_foretold hs)
  | .forEach .., hl, hf, hs => forEach_foretold hl hf hs (eval_foretold hs)
  | .forLoop .., hl, hf, hs =>
    forLoop_foretold hl hf hs (list_foretold fun t ht => hs t (List.mem_append.2 (.inl ht)))
      (eval_foretold fun t ht => hs t (List.mem_append.2 (.inr ht)))
  | .switch _ _, hl, hf, hs =>
    switch_foretold hl hf fun skips _ _ _ _ he hc h hk =>
      (cases_foretold hl.nested hs he hc h hk).1 skips
  | .guarded resources body catches none, hl, hf, hs => by
    have hn := hl.nested
    have ht := hs
    simp only [substmtsOfKind, List.mem_append] at hn ht
    refine guarded_foretold (list_foretold fun t h => ht t (.inl (.inl h)))
      (list_foretold fun t h => ht t (.inl (.inr h))) ?_ hl hf hs
    exact catches_foretold (fun c hc => hl.assigns.1 c.param (List.mem_map_of_mem hc))
      (fun t h => hn t (.inr h)) fun t h => ht t (.inr h)
  | .guarded resources body catches (some finalizer), hl, hf, hs => by
    have hn := hl.nested
    have ht := hs
    simp only [substmtsOfKind, List.mem_append] at hn ht
    refine guarded_some_foretold (list_foretold fun t h => ht t (.inl (.inl (.inl h))))
      (list_foretold fun t h => ht t (.inl (.inl (.inr h)))) ?_
      (list_foretold fun t h => ht t (.inr h)) hl hf hs
    exact catches_foretold (fun c hc => hl.assigns.1 c.param (List.mem_map_of_mem hc))
      (fun t h => hn t (.inl (.inr h))) fun t h => ht t (.inl (.inr h))
  | .continueLoop, _, _, _ => continueLoop_foretold
  | .breakOut, _, _, _ => fun _ _ _ _ _ => .pure fun _ _ => .of_ne nofun nofun
  | .empty, _, _, _ => fun st st' _ h _ => by
    obtain ⟨-, rfl⟩ := Eval.pure_eq_ok.1 h
    exact .pure fun _ hm => .of_agrees hm
  | .err, _, hf, _ => absurd rfl hf.not_err

theorem option_foretold :
    ∀ {s : Option Stmt}, (∀ x ∈ s, ∀ t ∈ x.substmts, Fits P t.kind) →
      Foretells b last D P V (evalOption b s) (optionContexts b s) (elseRun (machine b host) s)
        (s.elim [] detours)
  | none, _ => fun st st' _ h _ => by
    obtain ⟨-, rfl⟩ := Eval.pure_eq_ok.1 h
    exact .pure fun _ hm => .of_agrees hm
  | some s, hf => eval_foretold (hf s rfl)

theorem list_foretold :
    ∀ {ss : List Stmt}, (∀ t ∈ substmtsOfList ss, Fits P t.kind) →
      Foretells b last D P V (evalList b ss) (listContexts b ss) (listRun (machine b host) ss)
        (detoursOfList ss)
  | [], _ => fun st st' _ h _ => by
    obtain ⟨-, rfl⟩ := Eval.pure_eq_ok.1 h
    exact .pure fun _ hm => .of_agrees hm
  | s :: ss, hf => fun st st' hc h hk => by
    obtain ⟨_, st₁, h₁, h₂⟩ := Eval.bind_eq_ok.1 h
    have hl := evalList_later h₂
    have hc₂ : Welcomes b D P V (listContexts b ss st₁) := by
      rw [← Eval.after_eq h₁]
      exact hc.right
    have hs := eval_foretold (fun t ht => hf t (List.mem_append.2 (.inl ht))) hc.left h₁
      (hl.kept.trans hk)
    have hss := list_foretold (fun t ht => hf t (List.mem_append.2 (.inr ht))) hc₂ h₂ hk
    exact Follows.andThen hs hss hl.continues

/-- Every group is entered, and falls through into the next, where the switch was entered. -/
theorem cases_foretold {w : IdSet} {entry : Context} {x : Locals} {st' : EvalState} :
    ∀ {cs : List (SwitchCase Expr Stmt)} {st : EvalState},
      (∀ t ∈ substmtsOfCases cs, AssignsIn w t.kind) →
      (∀ t ∈ substmtsOfCases cs, Fits P t.kind) →
      (∀ m : Machine H, m.Frames w x → entry.Agrees m.locals) →
      Welcomes b D P V (caseContexts b entry cs st) → evalCases b entry cs st = (.ok (), st') →
      st'.KeptBy last →
      (∀ skips, Triple (last.Admits D P) (Machine.Frames w x)
        (casesRun (machine b host) skips cs) (Stays w x (detoursOfCases cs) st'.continues)
        (Machine.Frames w x)) ∧
      Triple (last.Admits D P) (Machine.Frames w x) (fallRun (machine b host) cs)
        (Stays w x (detoursOfCases cs) st'.continues) (Machine.Frames w x)
  | [], _, _, _, _, _, _, _ =>
    ⟨fun _ => .ite (.pure fun _ hm => ⟨hm, nofun⟩) .never, .pure fun _ hm => ⟨hm, nofun⟩⟩
  | ⟨_, labels, body⟩ :: cs, _, hw, hf, he, hc, h, hk => by
    simp only [substmtsOfCases, List.mem_append] at hw hf
    obtain ⟨_, st₁, h₁, h⟩ := Eval.bind_eq_ok.1 h
    obtain ⟨_, _, ⟨⟩, h⟩ := Eval.bind_eq_ok.1 h
    obtain ⟨_, st₂, h₂, h₃⟩ := Eval.bind_eq_ok.1 h
    simp only [caseContexts, Eval.after_eq h₁] at hc
    have e₂ : (evalList b body).after { st₁ with context := entry } = st₂ := Eval.after_eq h₂
    rw [e₂] at hc
    have hl := evalCases_later h₃
    have hbody := list_foretold (fun t ht => hf t (.inl ht)) hc.left h₂ (hl.kept.trans hk)
    have hstay := Follows.stays hbody he (listRun_keeps fun t ht =>
      (keepsOwn_frames (hw t (.inl ht)) (hf t (.inl ht)).not_err).keepsAt) hl.continues
    obtain ⟨hcases, hfall⟩ := cases_foretold (fun t ht => hw t (.inr ht))
      (fun t ht => hf t (.inr ht)) he hc.right h₃ hk
    refine ⟨fun skips => .either (stays_andThen hstay hfall) ?_, stays_andThen hstay hfall⟩
    exact (hcases skips).weaken fun _ _ hm => hm.mono (List.subset_append_right _ _)

theorem catches_foretold {w : IdSet} :
    ∀ {cs : List (CatchClause Stmt)}, (∀ c ∈ cs, c.param ∈ w) →
      (∀ t ∈ substmtsOfCatches cs, AssignsIn w t.kind) →
      (∀ t ∈ substmtsOfCatches cs, Fits P t.kind) →
      ForetellsFrom b last D P V w (evalCatches b · cs) (catchContexts b · cs)
        (catchesRun (machine b host) cs) (detoursOfCatches cs)
  | [], _, _, _ => fun _ _ _ _ _ _ _ _ => .never
  | ⟨_, param, body⟩ :: cs, hp, hw, hf => fun entry x st st' he hc h hk => by
    simp only [substmtsOfCatches, List.mem_append] at hw hf
    obtain ⟨_, _, ⟨⟩, h⟩ := Eval.bind_eq_ok.1 h
    obtain ⟨_, st₂, h₂, h₃⟩ := Eval.bind_eq_ok.1 h
    have e₂ : (evalList b body).after { st with context := entry } = st₂ := Eval.after_eq h₂
    simp only [catchContexts, e₂] at hc
    have hl := evalCatches_later h₃
    have hbody := list_foretold (fun t ht => hf t (.inl ht)) hc.left h₂ (hl.kept.trans hk)
    have hstay := Follows.stays hbody he (listRun_keeps fun t ht =>
      (keepsOwn_frames (hw t (.inl ht)) (hf t (.inl ht)).not_err).keepsAt) hl.continues
    have hrest := catches_foretold (fun c hc => hp c (List.mem_cons_of_mem _ hc))
      (fun t ht => hw t (.inr ht)) (fun t ht => hf t (.inr ht)) he hc.right h₃ hk
    have hhandle : Keeps (Machine.Frames w x) (last.Admits D P) (scramble param : Exec H Unit) :=
      scramble_keeps fun m d hm => hm.set (hp _ List.mem_cons_self) d
    refine .either (Triple.bind hhandle fun _ => hstay.weaken fun _ _ hm => ?_)
      (Triple.weaken hrest fun _ _ hm => ?_)
    · exact hm.mono (List.subset_append_left _ _)
    · exact hm.mono (List.subset_append_right _ _)

end

/-! ## Bodies -/

/-- A layer over statements without `continue` hands on no detour. -/
theorem endDetours_eq_nil {k : StmtKind Expr Stmt}
    (h : ∀ t ∈ substmtsOfKind k, t.kind ≠ .continueLoop) : endDetours k = [] := by
  cases k with
  | doLoop body c => exact detours_eq_nil h
  | forLoop init c update body =>
    exact detours_eq_nil fun t ht => h t (List.mem_append.2 (.inr ht))
  | _ => rfl

/-- Without `continue` and with literal labels nothing stands in the way of what is foretold. -/
theorem welcomes_of_no_continue {ss : List Stmt} {st : EvalState}
    (h : ∀ t ∈ substmtsOfList ss, t.kind ≠ .continueLoop)
    (hlab : ∀ t ∈ substmtsOfList ss, ∀ selector cases, t.kind = .switch selector cases →
      ∀ e ∈ labels cases, ∃ l, e.kind = .lit l) :
    Welcomes b (fun _ => False) (fun _ _ => True) (fun _ => True) (listContexts b ss st) := by
  refine ⟨fun _ _ _ _ _ _ => trivial, fun t e c hm _ => ?_,
    fun t x c hm selector cases hk e he => ?_⟩
  · have hnil : endDetours t.kind = [] := by
      refine endDetours_eq_nil fun u hu => h u (substmtsOfList_trans (mem_listContexts hm).1 ?_)
      obtain ⟨id, kind⟩ := t
      exact List.mem_cons_of_mem _ hu
    refine .inl ⟨fun e _ => e.readsOnly_true, fun w hw => ?_⟩
    rw [hnil] at hw
    cases hw
  · obtain ⟨l, hl⟩ := hlab t (mem_listContexts hm).1 selector cases hk e he
    obtain ⟨id, kind⟩ := e
    obtain rfl : kind = .lit l := hl
    refine .inl ⟨fun _ => False, fun s hs => ?_, fun _ _ _ _ hv => hv.elim⟩
    rw [List.mem_singleton.1 hs]
    trivial

end Stmt

namespace Body

/-- In a body without `continue` and erroneous statements whose labels are literals, an expression
has its recorded value whenever a run evaluates it, and the locals agree with the evaluator's
context in the end. -/
theorem eval_sound {st st' : EvalState} {m m' : Machine H} {tr : List Event} {r : Ending Exit}
    (herr : ∀ s ∈ b.root.flatMap Stmt.substmts, s.kind ≠ .err)
    (hcont : ∀ s ∈ b.root.flatMap Stmt.substmts, s.kind ≠ .continueLoop)
    (hlab : ∀ s ∈ b.root.flatMap Stmt.substmts, ∀ selector cases, s.kind = .switch selector cases →
      ∀ e ∈ Stmt.labels cases, ∃ l, e.kind = .lit l)
    (heval : Stmt.evalList b b.root st = (.ok (), st')) (hm : st.context.Agrees m.locals)
    (hrun : Stmt.listRun (machine b host) b.root m tr r m') :
    (∀ e d l, .value e d ∈ tr → st'.recorded.get? e.id = some (.known l) → d = .const l) ∧
      (r = .done .normal → st'.context.Agrees m'.locals) := by
  simp only [← Stmt.substmtsOfList_eq] at herr hcont hlab
  have hfollows : Follows st' (fun _ => False) (fun _ _ => True) st.context
      (Stmt.listRun (machine b host) b.root) _ st' :=
    Stmt.list_foretold (fun t ht => ⟨herr t ht, fun _ _ _ _ _ _ => trivial⟩)
      (Stmt.welcomes_of_no_continue hcont hlab) heval (.refl _)
  obtain ⟨hev, hend⟩ := hfollows hrun hm
  refine ⟨fun e d l he hl => ?_, ?_⟩
  · exact (hev _ he).eq_const (fun h => h) hl
  · rintro rfl
    exact hend.normal rfl

/-- The body
`if (c) x = 5; else x = x + 3; while (c) c = false; switch (x) { case 5: y = x + 1; }`. -/
def settled : Body where
  name := "settled"
  vars := #[⟨"x", .prim .int, .param, .dummy⟩, ⟨"c", .prim .boolean, .param, .dummy⟩,
    ⟨"y", .prim .int, .param, .dummy⟩]
  exprs := #[⟨.dummy, .var 1⟩,
    ⟨.dummy, .var 0⟩, ⟨.dummy, .lit (.int 5)⟩, ⟨.dummy, .assign 1 none 2⟩,
    ⟨.dummy, .var 0⟩, ⟨.dummy, .var 0⟩, ⟨.dummy, .lit (.int 3)⟩,
    ⟨.dummy, .binary 5 (.arith .add) 6⟩, ⟨.dummy, .assign 4 none 7⟩,
    ⟨.dummy, .var 1⟩, ⟨.dummy, .var 1⟩, ⟨.dummy, .lit (.bool false)⟩, ⟨.dummy, .assign 10 none 11⟩,
    ⟨.dummy, .var 0⟩, ⟨.dummy, .lit (.int 5)⟩,
    ⟨.dummy, .var 2⟩, ⟨.dummy, .var 0⟩, ⟨.dummy, .lit (.int 1)⟩,
    ⟨.dummy, .binary 16 (.arith .add) 17⟩, ⟨.dummy, .assign 15 none 18⟩]
  stmts := #[⟨.dummy, .expr 3⟩, ⟨.dummy, .expr 8⟩, ⟨.dummy, .branch 0 0 (some 1)⟩,
    ⟨.dummy, .expr 12⟩, ⟨.dummy, .whileLoop 9 3⟩,
    ⟨.dummy, .expr 19⟩, ⟨.dummy, .switch 13 [⟨.dummy, [14], [5]⟩]⟩]
  params := [0, 1, 2]
  block := [2, 4, 6]

/-- The evaluation of the body where `x` is 2. Both branches leave 5 in it. -/
def settledEval : Except EvalError Unit × EvalState :=
  Stmt.evalList settled settled.root
    { context := .ofList [(0, .known (.int 2))], observed := some ∅ }

/-- A machine where `x` is 2 and `c` holds. -/
def settledStart : Machine Unit :=
  (Machine.set ⟨fun _ => .const .null, ()⟩ 1 (.const (.bool true))).set 0 (.const (.int 2))

/-- A run that takes the first branch, goes around the loop once and enters the group. -/
theorem settled_run :
    ∃ tr m', .value (settled.exprTree 18) (.const (.int 6)) ∈ tr ∧
      Stmt.listRun (machine settled .absent) settled.root settledStart tr (.done .normal) m' := by
  let M := machine settled .absent
  let m₁ := settledStart.set 0 (.const (.int 5))
  let m₂ := m₁.set 1 (.const (.bool false))
  let m₃ := m₂.set 2 (.const (.int 6))
  obtain ⟨tr₁, hbranch⟩ : ∃ tr, (settled.stmtTree 2).run M settledStart tr (.done .normal) m₁ := by
    obtain ⟨trc, hc⟩ : ∃ tr, M.test (settled.exprTree 0) settledStart tr (.done true)
        settledStart := by
      exact Expr.test_run rfl
    obtain ⟨tr, h⟩ : ∃ tr, (settled.stmtTree 0).run M settledStart tr (.done .normal) m₁ :=
      Stmt.assign_lit_run rfl rfl
    exact ⟨_, bind_of_silent .pass (.next hc h)⟩
  obtain ⟨tr₂, hloop⟩ : ∃ tr, (settled.stmtTree 4).run M m₁ tr (.done .normal) m₂ := by
    obtain ⟨trc, hc⟩ : ∃ tr, M.test (settled.exprTree 9) m₁ tr (.done true) m₁ := by
      exact Expr.test_run rfl
    obtain ⟨tr, h⟩ : ∃ tr, (settled.stmtTree 3).run M m₁ tr (.done .normal) m₂ :=
      Stmt.assign_lit_run rfl rfl
    obtain ⟨trd, hd⟩ : ∃ tr, M.test (settled.exprTree 9) m₂ tr (.done false) m₂ := by
      exact Expr.test_run rfl
    exact ⟨_, bind_of_silent .pass
      (.again (.next hc (bind_silent h .intro)) (.done (.next hd .intro)))⟩
  obtain ⟨tr₃, hmem, hswitch⟩ : ∃ tr, .value (settled.exprTree 18) (.const (.int 6)) ∈ tr ∧
      (settled.stmtTree 6).run M m₂ tr (.done .normal) m₃ := by
    obtain ⟨tr, -, hselector⟩ : ∃ tr, .value (settled.exprTree 13) (.const (.int 5)) ∈ tr ∧
        M.eval (settled.exprTree 13) m₂ tr (.done ()) m₂ := by
      exact Expr.eval_run (readLocal_iff.2 ⟨rfl, rfl, rfl⟩)
    obtain ⟨tr', -, hlabel⟩ : ∃ tr, .value (settled.exprTree 14) (.const (.int 5)) ∈ tr ∧
        M.eval (settled.exprTree 14) m₂ tr (.done ()) m₂ := by
      exact Expr.eval_run .intro
    obtain ⟨tr'', hmem, hgroup⟩ : ∃ tr, .value (settled.exprTree 18) (.const (.int 6)) ∈ tr ∧
        (settled.stmtTree 5).run M m₂ tr (.done .normal) m₃ := by
      have hx : (settled.exprTree 16).exec settled .absent m₂ _ (.done (.const (.int 5))) m₂ :=
        Expr.exec_of_kindExec settled .absent (readLocal_iff.2 ⟨rfl, rfl, rfl⟩)
      have hone : (settled.exprTree 17).exec settled .absent m₂ _ (.done (.const (.int 1))) m₂ :=
        Expr.exec_of_kindExec settled .absent .intro
      have hsum : (settled.exprTree 18).exec settled .absent m₂ _ (.done (.const (.int 6))) m₂ :=
        Expr.exec_of_kindExec settled .absent (.next hx (.next hone .intro))
      obtain ⟨tr, hshown, h⟩ := Stmt.assign_run (s := 5) (i := 19) (j := 15) (v := 2) hsum rfl rfl
      exact ⟨tr, hshown List.mem_concat_self, h⟩
    have hlabels : M.evalList [settled.exprTree 14] m₂ _ (.done ()) m₂ := bind_silent hlabel .intro
    have hcases : Stmt.casesRun M true [⟨.dummy, [settled.exprTree 14], [settled.stmtTree 5]⟩] m₂ _
        (.done .normal) m₃ := .left (bind_silent (bind_silent hgroup .intro) .intro)
    exact ⟨_, by simp [hmem],
      bind_of_silent .pass (.next hselector (.next hlabels (bind_silent hcases .intro)))⟩
  exact ⟨_, _, by simp [hmem], .next hbranch (.next hloop (bind_silent hswitch .intro))⟩

theorem eval_sound_settled :
    ∃ tr m', .value (settled.exprTree 18) (.const (.int 6)) ∈ tr ∧
      Stmt.listRun (machine settled .absent) settled.root settledStart tr (.done .normal) m' ∧
      (∀ d, .value (settled.exprTree 18) d ∈ tr → d = .const (.int 6)) ∧
      settledEval.2.context.Agrees m'.locals := by
  obtain ⟨tr, m', hmem, hrun⟩ := settled_run
  have hempty : (∅ : Context).Agrees (Machine.set ⟨fun _ => .const .null, ()⟩ 1
      (.const (.bool true)) : Machine Unit).locals := fun _ _ _ h => nomatch h
  have hstart : ((∅ : Context).bind 0 (.known (.int 2))).Agrees settledStart.locals :=
    hempty.bind (Value.holds_known _)
  have hstmts : settled.root.flatMap Stmt.substmts = [2, 0, 1, 4, 3, 6, 5].map settled.stmtTree :=
    rfl
  have herr : ∀ s ∈ settled.root.flatMap Stmt.substmts, s.kind ≠ .err := by
    rw [hstmts]
    simp only [List.map_cons, List.map_nil, List.forall_mem_cons]
    exact ⟨nofun, nofun, nofun, nofun, nofun, nofun, nofun, nofun⟩
  have hcont : ∀ s ∈ settled.root.flatMap Stmt.substmts, s.kind ≠ .continueLoop := by
    rw [hstmts]
    simp only [List.map_cons, List.map_nil, List.forall_mem_cons]
    exact ⟨nofun, nofun, nofun, nofun, nofun, nofun, nofun, nofun⟩
  have hlab : ∀ s ∈ settled.root.flatMap Stmt.substmts, ∀ selector cases,
      s.kind = .switch selector cases → ∀ e ∈ Stmt.labels cases, ∃ l, e.kind = .lit l := by
    rw [hstmts]
    simp only [List.map_cons, List.map_nil, List.forall_mem_cons]
    refine ⟨nofun, nofun, nofun, nofun, nofun, fun selector cases h e he => ?_, nofun, nofun⟩
    obtain ⟨rfl, rfl⟩ : settled.exprTree 13 = selector ∧
        [⟨.dummy, [settled.exprTree 14], [settled.stmtTree 5]⟩] = cases := StmtKind.switch.inj h
    exact ⟨.int 5, congrArg Expr.kind (List.mem_singleton.1 he)⟩
  obtain ⟨hvalues, hend⟩ := eval_sound herr hcont hlab
    (Prod.ext rfl rfl : settledEval = (.ok (), settledEval.2)) hstart hrun
  exact ⟨tr, m', hmem, hrun, fun d hd => hvalues _ d _ hd rfl, hend rfl⟩

end Body

end Midend
