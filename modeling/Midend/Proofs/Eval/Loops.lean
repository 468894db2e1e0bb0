import Midend.Proofs.Eval.Follows

/-!
# Loops, branches and simple statements

An evaluation `Foretells` runs if it does so wherever it starts. A loop is entered
in a context that forgets what it writes, and each iteration starts where nothing
else has changed. Its ends are reached by the end of its body or by a `continue`
(`Stmt.ends_triple`).
-/

namespace Midend

open Run Exec

variable {H : Type} {b : Body} {host : Host H} {D : Expr → Prop} {P : Expr → Locals → Prop}
  {V : VarId → Prop} {last : EvalState}

namespace Stmt

/-! ## Layers -/

/-- Evaluating a statement leaves a later state. -/
theorem eval_later {s : Stmt} {st st' : EvalState} (h : s.eval b st = (.ok (), st')) :
    st.Later st' :=
  (eval_within (assignsIn_of_written fun _ hv => hv) h (.refl s.written st.context)).1

theorem evalList_later {ss : List Stmt} {st st' : EvalState}
    (h : evalList b ss st = (.ok (), st')) : st.Later st' :=
  (evalList_within (assignsIn_writtenByAll fun _ hv => hv) h
    (.refl (writtenByAll ss) st.context)).1

/-- What a layer of a statement writes, and what is nested in it. -/
structure LayerOf (whole : Stmt) (k : StmtKind Expr Stmt) : Prop where
  kind : whole.kind = k
  assigns : AssignsIn whole.written k
  nested : ∀ t ∈ substmtsOfKind k, AssignsIn whole.written t.kind

/-- A node is a layer of itself. -/
theorem layerOf (id : StmtId) (k : StmtKind Expr Stmt) : LayerOf (node id k) k := by
  have h := assignsIn_of_written (s := node id k) fun _ hv => hv
  exact ⟨rfl, h _ List.mem_cons_self, fun t ht => h t (List.mem_cons_of_mem _ ht)⟩

section

variable {whole : Stmt} {k : StmtKind Expr Stmt} {st st' : EvalState}

variable (b host) in
/-- A run of one layer writes the statement's own variables at most. -/
theorem LayerOf.keepsAt (hl : LayerOf whole k) (hf : Fits P k) (x : Locals) :
    (machine b host).KeepsAt (Machine.Frames whole.written x) (fun _ => True) k :=
  (keepsOwn_frames hl.assigns hf.not_err).keepsAt

variable (b host) in
theorem LayerOf.nested_keepsAt (hl : LayerOf whole k)
    (hf : ∀ t ∈ substmtsOfKind k, Fits P t.kind) (x : Locals) :
    ∀ t ∈ substmtsOfKind k,
      (machine b host).KeepsAt (Machine.Frames whole.written x) (fun _ => True) t.kind :=
  fun t ht => (keepsOwn_frames (hl.nested t ht) (hf t ht).not_err).keepsAt

/-- Off the statement's own variables the context only loses knowledge. -/
theorem LayerOf.leOff (hl : LayerOf whole k) (h : evalKind b whole k st = (.ok (), st')) :
    st'.context.LeOff whole.written st.context :=
  (evalKind_within (fun _ hv => hv) hl.assigns hl.nested h (.refl _ st.context)).2

end

/-- From wherever the evaluation `x` starts, it foretells the runs of `p`. -/
def Foretells (b : Body) (last : EvalState) (D : Expr → Prop) (P : Expr → Locals → Prop)
    (V : VarId → Prop) (x : Eval Unit) (cs : EvalState → List (Stmt × Expr × Context))
    (p : Exec H Exit) (ds : List IdSet) : Prop :=
  ∀ ⦃st st'⦄, Welcomes b D P V (cs st) → x st = (.ok (), st') → st'.KeptBy last →
    Follows last D P st.context p ds st'

variable {whole : Stmt}

/-! ## Simple statements -/

/-- A declaration binds its variable to the value its initialiser comes to. -/
theorem decl_foretold {v : VarId} :
    ∀ {init : Option Expr}, Foretells b last D P V (evalKind b whole (.decl v init))
      (kindContexts b whole (.decl v init)) (kindRun (machine b host) (.decl v init)) []
  | none, st, st', _, h, _ => by
    obtain ⟨a, st₁, h₁, ⟨⟩⟩ := Eval.bind_eq_ok.1 h
    rw [Eval.assignLocal_unknown] at h₁
    cases h₁
    refine Triple.bind (Q := fun _ m => (st.context.bind v .unknown).Agrees m.locals) ?_
      fun _ => .pure fun _ hm => .of_agrees hm
    refine .step (fun m _ m' hr hm => ?_) fun m m' hr _ => trivial
    obtain ⟨-, d, rfl⟩ := hr
    exact hm.bind (Value.holds_unknown d)
  | some e, st, st', hc, h, hk => by
    obtain ⟨a, st₁, h₁, h⟩ := Eval.bind_eq_ok.1 h
    obtain ⟨_, st₂, h₂, h₃⟩ := Eval.bind_eq_ok.1 h
    obtain ⟨-, rfl⟩ := Eval.pure_eq_ok.1 h₃
    have hk₁ : st₁.KeptBy last := by
      cases h₂
      exact hk
    refine Triple.bind (Q := fun _ m => st₂.context.Agrees m.locals) ?_
      fun _ => .pure fun _ hm => .of_agrees hm
    refine (Expr.enter_triple e.readsOnly_true h₁ hk₁ hc.head).bind fun d => ?_
    refine .of_forall fun m hm => ?_
    have hassign : Simulates (fun _ => True) D P (Eval.assignLocal b v a)
        (assignLocal b host v d) (Matches _) st₁ := .assignLocal hm.2
    refine ((hassign.triple h₂ hk).bind fun _ => .pure fun _ hm => hm.1).strengthen ?_
    rintro _ rfl
    exact hm.1

/-- An expression statement is foretold when its expression is. -/
theorem expr_foretold {e : Expr} :
    Foretells b last D P V (evalKind b whole (.expr e)) (kindContexts b whole (.expr e))
      (kindRun (machine b host) (.expr e)) [] := by
  intro st st' hc h hk
  obtain ⟨a, h⟩ := Expr.run_eq_ok.1 h
  refine (Expr.eval_triple e.readsOnly_true h hk hc.head).bind fun _ => .pure fun _ hm => ?_
  exact .of_agrees hm

theorem throw_foretold {e : Expr} :
    Foretells b last D P V (evalKind b whole (.throw e)) (kindContexts b whole (.throw e))
      (kindRun (machine b host) (.throw e)) [] := by
  intro st st' hc h hk
  obtain ⟨a, h⟩ := Expr.run_eq_ok.1 h
  exact (Expr.eval_triple e.readsOnly_true h hk hc.head).bind fun _ => .throw fun _ _ => trivial

theorem ret_foretold {e : Option Expr} :
    Foretells b last D P V (evalKind b whole (.ret e)) (kindContexts b whole (.ret e))
      (kindRun (machine b host) (.ret e)) [] := by
  intro st st' hc h hk
  rw [evalKind, Expr.runOption_eq] at h
  refine (evalList_triple whole (fun x _ => x.readsOnly_true) ?_ h hk).bind fun _ => .pure ?_
  · exact fun t x c hm y hy => hc.reached t x c hm y (.of_agrees hy)
  · exact fun _ _ => .of_ne nofun nofun

/-- A `continue` leaves its context to the next iteration of the loop around it. -/
theorem continueLoop_foretold :
    Foretells b last D P V (evalKind b whole .continueLoop) (kindContexts b whole .continueLoop)
      (kindRun (machine b host) .continueLoop) [∅] := by
  intro st st' _ h _
  refine .pure fun m hm => ⟨nofun, fun _ => ⟨∅, List.mem_singleton.2 rfl, fun k hk => ?_⟩⟩
  obtain rfl : st.continueLoop = st' := congrArg Prod.snd h
  unfold EvalState.continueLoop at hk
  split at hk
  · next hs =>
    rw [hs] at hk
    cases hk
  · cases hk
    exact ⟨_, rfl, hm.mono fun _ _ => trivial⟩
  · cases hk
    exact ⟨_, rfl, (hm.join_right _).mono fun _ _ => trivial⟩

/-- An assertion may be skipped, so its parts are joined with the context before it. -/
theorem assert_foretold {c : Expr} {message : Option Expr} :
    Foretells b last D P V (evalKind b whole (.assert c message))
      (kindContexts b whole (.assert c message))
      (kindRun (machine b host) (.assert c message)) [] := by
  intro st st' hc h hk
  obtain ⟨_, st₃, h₃, hst'⟩ := Eval.maybe_eq_ok.1 h
  obtain ⟨_, st₁, hrun, h₃⟩ := Eval.bind_eq_ok.1 h₃
  obtain ⟨_, _, ⟨⟩, h₃⟩ := Eval.bind_eq_ok.1 h₃
  obtain ⟨_, st₂, hmess, ⟨⟩⟩ := Eval.bind_eq_ok.1 h₃
  subst hst'
  obtain ⟨a, hcond⟩ := Expr.run_eq_ok.1 hrun
  rw [Expr.runOption_eq] at hmess
  have hk₂ : st₂.KeptBy last := hk
  have hk₁ : st₁.KeptBy last := (Expr.evalList_later hmess).kept.trans hk₂
  refine .either (.pure fun m hm => .of_agrees (hm.join_right _)) ?_
  refine (Expr.test_triple c.readsOnly_true hcond hk₁ hc.head).bind fun t => .ite ?_ ?_
  · exact .pure fun m hm => .of_agrees (hm.1.join_left _)
  · refine Triple.bind (Q := fun _ _ => True) ?_ fun _ => .throw fun _ _ => trivial
    have hP : ∀ t x d, (t, x, d) ∈ exprContexts b whole message.toList st₁ →
        ∀ y, d.Agrees y → P x y := by
      intro t x d hm y hy
      rw [← Eval.after_eq hcond] at hm
      exact hc.tail.reached t x d hm y (.of_agrees hy)
    refine (evalList_triple whole (fun x _ => x.readsOnly_true) hP hmess hk₂).mono ?_ ?_ ?_
    · exact fun _ hm => hm.1
    · exact fun _ _ _ => trivial
    · exact fun _ _ => trivial

/-! ## Branches -/

/-- The runs of the alternative of a branch. -/
def elseRun (M : Meaning (Machine H) Event) (s : Option Stmt) : Exec H Exit :=
  s.elim (return .normal) (run M)

/-- An `if` without `else` runs as one with an empty `else`. -/
theorem kindRun_branch (M : Meaning (Machine H) Event) (c : Expr) (onTrue : Stmt)
    (onFalse : Option Stmt) :
    kindRun M (.branch c onTrue onFalse) =
      (M.test c >>= fun t => if t then onTrue.run M else elseRun M onFalse) := by
  cases onFalse <;> rfl

theorem detours_branch (c : Expr) (onTrue : Stmt) (onFalse : Option Stmt) :
    detoursOfKind (.branch c onTrue onFalse) = onTrue.detours ++ onFalse.elim [] detours := by
  cases onFalse with
  | none => rw [detoursOfKind, Option.elim, List.append_nil]
  | some s => rfl

theorem evalOption_later {s : Option Stmt} {st st' : EvalState}
    (h : evalOption b s st = (.ok (), st')) : st.Later st' := by
  cases s with
  | none =>
    obtain ⟨-, rfl⟩ := Eval.pure_eq_ok.1 h
    exact .refl _
  | some s => exact eval_later h

/-- A branch whose condition is known is foretold by the arm it takes, any other one by the join of
both. -/
theorem branch_foretold {c : Expr} {onTrue : Stmt} {onFalse : Option Stmt}
    (ht : Foretells b last D P V (onTrue.eval b) (onTrue.contexts b) (onTrue.run (machine b host))
      onTrue.detours)
    (hf : Foretells b last D P V (evalOption b onFalse) (optionContexts b onFalse)
      (elseRun (machine b host) onFalse) (onFalse.elim [] detours)) :
    Foretells b last D P V (evalKind b whole (.branch c onTrue onFalse))
      (kindContexts b whole (.branch c onTrue onFalse))
      (kindRun (machine b host) (.branch c onTrue onFalse))
      (detoursOfKind (.branch c onTrue onFalse)) := by
  intro st st' hc h hk
  rw [kindRun_branch, detours_branch]
  have hleft := List.subset_append_left onTrue.detours (onFalse.elim [] detours)
  have hright := List.subset_append_right onTrue.detours (onFalse.elim [] detours)
  obtain ⟨a, st₁, h₁, h₂⟩ := Eval.bind_eq_ok.1 h
  have hcs := hc.tail
  simp only [h₁] at hcs
  -- Where the condition is known only one of the ways is evaluated.
  split at h₂
  · have hk₁ := (eval_later h₂).kept.trans hk
    refine (Expr.test_triple c.readsOnly_true h₁ hk₁ hc.head).bind fun t => ?_
    cases t with
    | true =>
      refine Triple.strengthen ?_ fun _ hm => hm.1
      exact Follows.mono (ht hcs h₂ hk) hleft (fun _ h => h) (.refl _)
    | false => exact .of_false fun _ hm => absurd (hm.2 _ rfl) (by decide)
  · have hk₁ := (evalOption_later h₂).kept.trans hk
    refine (Expr.test_triple c.readsOnly_true h₁ hk₁ hc.head).bind fun t => ?_
    cases t with
    | true => exact .of_false fun _ hm => absurd (hm.2 _ rfl) (by decide)
    | false =>
      refine Triple.strengthen ?_ fun _ hm => hm.1
      exact Follows.mono (hf hcs h₂ hk) hright (fun _ h => h) (.refl _)
  · obtain ⟨⟨⟩, _, hboth, h₃⟩ := Eval.bind_eq_ok.1 h₂
    obtain ⟨-, rfl⟩ := Eval.pure_eq_ok.1 h₃
    obtain ⟨st₂, st₃, hT, hF, rfl⟩ := Eval.either_eq_ok.1 hboth
    have hl₃ : st₂.Later st₃ := (st₂.later_context _).trans (evalOption_later hF)
    have hk₃ : st₃.KeptBy last := hk
    have hk₂ : st₂.KeptBy last := hl₃.kept.trans hk₃
    have hcF : Welcomes b D P V (optionContexts b onFalse { st₂ with context := st₁.context }) := by
      rw [← Eval.after_eq hT]
      exact hcs.right
    refine (Expr.test_triple c.readsOnly_true h₁ ((eval_later hT).kept.trans hk₂) hc.head).bind
      fun t => ?_
    cases t with
    | true =>
      refine Triple.strengthen (Follows.mono (ht hcs.left hT hk₂) hleft ?_ ?_) fun _ hm => hm.1
      · exact fun _ h => h.join_right _
      · exact hl₃.continues
    | false =>
      refine Triple.strengthen (Follows.mono (hf hcF hF hk₃) hright ?_ ?_) fun _ hm => hm.1
      · exact fun _ h => h.join_left _
      · exact .refl _
  · exact absurd h₂ Eval.not_fail_eq_ok

/-! ## Loops -/

/-- A statement that forgets what it writes in the end needs to be followed only as far as it
writes nothing else. -/
theorem follows_of_frames {st st' : EvalState} {p : Exec H Exit} {c : Context} {ds : List IdSet}
    (hctx : st'.context = c.forget whole.written)
    (hle : st'.context.LeOff whole.written st.context)
    (h : ∀ x, st.context.Agrees x → Triple (last.Admits D P) (fun m => m.locals = x) p
      (fun e m => m.Frames whole.written x ∧ (e = .cont → Resumes ds st'.continues m.locals))
      fun _ => True) :
    Follows last D P st.context p ds st' := by
  refine .of_forall fun m₀ hm₀ => ?_
  refine (h m₀.locals hm₀).mono ?_ (fun e m he => ⟨fun _ => ?_, he.2⟩) fun _ _ => trivial
  · rintro _ rfl
    rfl
  · rw [hctx] at hle ⊢
    exact hm₀.forget_of_frame hle he.1

/-- Once the written variables are forgotten, the context describes every iteration. -/
theorem agrees_forget {c d : Context} {x : Locals} (hx : d.Agrees x)
    (hc : c.LeOff whole.written d) {m : Machine H} (hm : m.Frames whole.written x) :
    (c.forget whole.written).Agrees m.locals :=
  hx.forget_of_frame (hc.forget _) hm

/-- No `continue` gets out of a loop. -/
theorem iterate_triple {x : Locals} {step : Exec H (Option Exit)} {ds : List IdSet}
    {cs : List (Option Context)}
    (hk : Keeps (Machine.Frames whole.written x) (fun _ => True) step)
    (h : Triple (last.Admits D P) (Machine.Frames whole.written x) step
      (fun r _ => r ≠ some .cont) fun _ => True) :
    Triple (last.Admits D P) (Machine.Frames whole.written x) (Iterate step)
      (fun e m => m.Frames whole.written x ∧ (e = .cont → Resumes ds cs m.locals))
      fun _ => True := by
  refine (loop_triple hk h).mono (fun _ hm => hm) (fun e m hm => ?_) fun _ _ => trivial
  exact ⟨hm.1, fun he => absurd he hm.2⟩

/-- A `while` loop is evaluated in a context that describes the start of every iteration. -/
theorem whileLoop_foretold {c : Expr} {body : Stmt} (hl : LayerOf whole (.whileLoop c body))
    (hf : Fits P (.whileLoop c body)) (hs : ∀ t ∈ body.substmts, Fits P t.kind)
    (hb : Foretells b last D P V (body.eval b) (body.contexts b) (body.run (machine b host))
      body.detours) :
    Foretells b last D P V (evalKind b whole (.whileLoop c body))
      (kindContexts b whole (.whileLoop c body))
      (kindRun (machine b host) (.whileLoop c body)) [] := by
  intro st st' hc h hk
  have hle := hl.leOff h
  obtain ⟨_, _, ⟨⟩, h⟩ := Eval.bind_eq_ok.1 h
  obtain ⟨_, st₁, hrun, h⟩ := Eval.bind_eq_ok.1 h
  obtain ⟨_, st₂, hiter, ⟨⟩⟩ := Eval.bind_eq_ok.1 h
  obtain ⟨a, hcond⟩ := Expr.run_eq_ok.1 hrun
  obtain ⟨t, hbody, rfl⟩ := Eval.iteration_eq_ok.1 hiter
  have hcb : Welcomes b D P V (body.contexts b st₁.enterLoop) := by
    rw [← Eval.after_eq hrun]
    exact hc.tail
  have hkt : t.KeptBy last := hk
  have hk₁ : st₁.KeptBy last := (eval_later hbody).kept.trans hkt
  refine follows_of_frames rfl hle fun x hx => ?_
  refine Triple.strengthen (iterate_triple ?_ ?_) Machine.frames_of_eq
  · exact iteration_keeps (hl.keepsAt b host hf x)
      (restOfBody_keeps (run_keeps (hl.nested_keepsAt b host hs x)))
  · refine iteration_triple
      ((Expr.test_triple c.readsOnly_true hcond hk₁ hc.head).strengthen fun m hm => ?_) ?_
    · exact agrees_forget hx (.refl _ _) hm
    · exact restOfBody_triple ((hb hcb hbody hkt).strengthen fun m hm => hm.1)

/-- A `for` over elements forgets its variable with whatever the body writes. -/
theorem forEach_foretold {v : VarId} {iterable : Expr} {body : Stmt}
    (hl : LayerOf whole (.forEach v iterable body)) (hf : Fits P (.forEach v iterable body))
    (hs : ∀ t ∈ body.substmts, Fits P t.kind)
    (hb : Foretells b last D P V (body.eval b) (body.contexts b) (body.run (machine b host))
      body.detours) :
    Foretells b last D P V (evalKind b whole (.forEach v iterable body))
      (kindContexts b whole (.forEach v iterable body))
      (kindRun (machine b host) (.forEach v iterable body)) [] := by
  intro st st' hc h hk
  have hle := hl.leOff h
  obtain ⟨_, st₁, hrun, h⟩ := Eval.bind_eq_ok.1 h
  obtain ⟨_, _, ⟨⟩, h⟩ := Eval.bind_eq_ok.1 h
  obtain ⟨_, st₂, hiter, ⟨⟩⟩ := Eval.bind_eq_ok.1 h
  obtain ⟨a, hcond⟩ := Expr.run_eq_ok.1 hrun
  obtain ⟨t, hbody, rfl⟩ := Eval.iteration_eq_ok.1 hiter
  have hw := hl.assigns.2 iterable List.mem_cons_self
  have hle₁ := (Expr.run_within hw hrun (.refl _ st.context)).2
  have hcb := hc.tail
  rw [Eval.after_eq hrun] at hcb
  have hkt : t.KeptBy last := hk
  have hk₁ : st₁.KeptBy last := (eval_later hbody).kept.trans hkt
  refine follows_of_frames rfl hle fun x hx => ?_
  obtain ⟨heval, hnext⟩ := hl.keepsAt b host hf x
  refine Triple.bind (Q := fun _ => Machine.Frames whole.written x) ?_ fun _ => iterate_triple ?_ ?_
  · refine (Triple.and (Expr.eval_triple iterable.readsOnly_true hcond hk₁ hc.head) heval).mono
      ?_ (fun _ _ hm => hm.2) fun _ _ => trivial
    rintro m rfl
    exact ⟨hx, m.frames_of_eq rfl⟩
  · exact iteration_keeps hnext (restOfBody_keeps (run_keeps (hl.nested_keepsAt b host hs x)))
  · have hv : v ∈ whole.written := hl.assigns.1 v List.mem_cons_self
    have hn : Keeps (Machine.Frames whole.written x) (last.Admits D P)
        ((machine b host).next v iterable) :=
      next_keeps (fun _ _ _ _ hm => hm) fun m d hm => hm.set hv d
    refine iteration_triple (Triple.mono hn (fun _ hm => hm) (fun _ _ hm => hm) ?_) ?_
    · exact fun _ _ => trivial
    · refine restOfBody_triple (Triple.strengthen (hb hcb hbody hkt) fun m hm => ?_)
      exact agrees_forget hx hle₁ hm

/-- What comes after the body of a loop, by its end or a `continue`. -/
theorem ends_triple {α : Type} {k : StmtKind Expr Stmt} {p : Exec H α} {st : EvalState} {e : Exit}
    (he : e.ofBody = none) {head : Option Context} {outer : List (Option Context)}
    (hs : st.continues = head :: outer)
    (hf : EndsFit D P V k (Eval.endOf st.context st.continues))
    (hV : (∀ x ∈ ends k, x.ReadsOnly V) →
      Triple (last.Admits D P) (fun m => (Eval.endOf st.context st.continues).AgreesOn V m.locals)
        p (fun _ _ => True) fun _ => True)
    (hD : (∀ x ∈ ends k, (∀ s ∈ x.subexprs, D s) ∧ ∀ y, P x y) →
      Triple (last.Admits D P) (fun _ => True) p (fun _ _ => True) fun _ => True) :
    Triple (last.Admits D P) (fun m => Arrives (endDetours k) st e m.locals) p (fun _ _ => True)
      fun _ => True := by
  rcases hf with ⟨hr, hu⟩ | hd
  · refine (hV hr).strengthen fun m hm => ?_
    rcases hm.endOf he hs with hag | ⟨w, hw, hag⟩
    · exact hag.mono fun _ _ => trivial
    · exact hag.of_unknown (hu w hw)
  · exact (hD hd).strengthen fun _ _ => trivial

/-- The condition of a `do` loop is evaluated where the body and every `continue` end. -/
theorem doLoop_foretold {c : Expr} {body : Stmt} (hl : LayerOf whole (.doLoop body c))
    (hf : Fits P (.doLoop body c)) (hs : ∀ t ∈ body.substmts, Fits P t.kind)
    (hb : Foretells b last D P V (body.eval b) (body.contexts b) (body.run (machine b host))
      body.detours) :
    Foretells b last D P V (evalKind b whole (.doLoop body c))
      (kindContexts b whole (.doLoop body c)) (kindRun (machine b host) (.doLoop body c)) [] := by
  intro st st' hc h hk
  have hle := hl.leOff h
  obtain ⟨_, _, ⟨⟩, h⟩ := Eval.bind_eq_ok.1 h
  obtain ⟨_, st₁, hiter, h⟩ := Eval.bind_eq_ok.1 h
  obtain ⟨_, st₂, hrun, ⟨⟩⟩ := Eval.bind_eq_ok.1 h
  obtain ⟨a, hcond⟩ := Expr.run_eq_ok.1 hrun
  have hk₂ : st₂.KeptBy last := hk
  have hk₁ : st₁.KeptBy last := (Expr.eval_later hcond).kept.trans hk₂
  have hcc : (whole, c, st₁.context) ∈ kindContexts b whole (.doLoop body c) st := by
    rw [← Eval.after_eq hiter]
    exact List.mem_append.2 (.inr List.mem_cons_self)
  have hP := hc.reached whole c st₁.context hcc
  have hfit := hc.ends whole c st₁.context hcc (by rw [hl.kind]; rfl)
  rw [hl.kind] at hP hfit
  obtain ⟨t, hbody, rfl⟩ := Eval.iteration_eq_ok.1 hiter
  obtain ⟨head, houter, -⟩ := (eval_later hbody).continues
  refine follows_of_frames rfl hle fun x hx => ?_
  refine Triple.strengthen (iterate_triple ?_ ?_) Machine.frames_of_eq
  · exact restOfDo_keeps (hl.keepsAt b host hf x) (run_keeps (hl.nested_keepsAt b host hs x))
  · have hbt := (hb hc.left hbody hk₁).strengthen fun m hm => agrees_forget hx (.refl _ _) hm
    have hmem : c ∈ ends (.doLoop body c) := List.mem_singleton.2 rfl
    refine restOfDo_triple hbt fun e he => ends_triple he houter hfit (fun hr => ?_) fun hd => ?_
    · refine (Expr.test_triple (hr c hmem) hcond hk₂ fun y hy => ?_).weaken fun _ _ _ => trivial
      exact hP y (.of_ends hmem hy)
    · exact Expr.test_doubtful (hd c hmem).1 fun m _ => (hd c hmem).2 m.locals

/-- A missing condition holds and reads nothing. -/
theorem testOption_triple {st st' : EvalState} :
    ∀ {c : Option Expr}, Welcomes b D P V (exprContexts b whole c.toList st) →
      Expr.evalList b 0 c.toList st = (.ok (), st') → st'.KeptBy last →
      Triple (last.Admits D P) (fun m => st.context.Agrees m.locals)
        ((machine b host).testOption c) (fun _ m => st'.context.Agrees m.locals) fun _ => True
  | none, _, h, _ => by
    obtain ⟨-, rfl⟩ := Eval.pure_eq_ok.1 h
    exact .pure fun _ hm => hm
  | some c, hc, h, hk => by
    obtain ⟨a, h⟩ := Expr.run_eq_ok.1 h
    exact (Expr.test_triple c.readsOnly_true h hk hc.head).weaken fun _ _ hm => hm.1

theorem iteration_later {s : Stmt} {st st' : EvalState}
    (h : Eval.iteration (s.eval b) st = (.ok (), st')) : st.Later st' :=
  ((eval_within (assignsIn_of_written fun _ hv => hv)).iteration h (.refl s.written st.context)).1

/-- A `for` loop evaluates its initialiser once and the rest as a `while` loop does. -/
theorem forLoop_foretold {init : List Stmt} {c : Option Expr} {update : List Expr} {body : Stmt}
    (hl : LayerOf whole (.forLoop init c update body)) (hf : Fits P (.forLoop init c update body))
    (hs : ∀ t ∈ substmtsOfKind (.forLoop init c update body), Fits P t.kind)
    (hi : Foretells b last D P V (evalList b init) (listContexts b init)
      (listRun (machine b host) init) (detoursOfList init))
    (hb : Foretells b last D P V (body.eval b) (body.contexts b) (body.run (machine b host))
      body.detours) :
    Foretells b last D P V (evalKind b whole (.forLoop init c update body))
      (kindContexts b whole (.forLoop init c update body))
      (kindRun (machine b host) (.forLoop init c update body)) (detoursOfList init) := by
  intro st st' hc h hk
  have hle := hl.leOff h
  obtain ⟨_, st₀, hinit, h⟩ := Eval.bind_eq_ok.1 h
  obtain ⟨_, _, ⟨⟩, h⟩ := Eval.bind_eq_ok.1 h
  obtain ⟨_, st₁, hcond, h⟩ := Eval.bind_eq_ok.1 h
  obtain ⟨_, st₂, hiter, h⟩ := Eval.bind_eq_ok.1 h
  obtain ⟨_, st₃, hupdate, ⟨⟩⟩ := Eval.bind_eq_ok.1 h
  have h₀ : (Eval.forget whole.written).after ((evalList b init).after st) =
      { st₀ with context := st₀.context.forget whole.written } := by
    rw [Eval.after_eq hinit]
    rfl
  simp only [kindContexts, h₀, Eval.after_eq hcond, Eval.after_eq hiter] at hc
  rw [Expr.runOption_eq] at hcond
  have hk₃ : st₃.KeptBy last := hk
  have hl₂ := Expr.evalList_later hupdate
  have hl₁ := (iteration_later hiter).trans hl₂
  have hl₀ : st₀.Later st₃ := (st₀.later_context _).trans ((Expr.evalList_later hcond).trans hl₁)
  have hn : ∀ t ∈ substmtsOfList init, AssignsIn whole.written t.kind :=
    fun t ht => hl.nested t (List.mem_append.2 (.inl ht))
  have hle₀ := (evalList_within hn hinit (.refl _ st.context)).2
  obtain ⟨t, hbody, rfl⟩ := Eval.iteration_eq_ok.1 hiter
  obtain ⟨head, houter, -⟩ := (eval_later hbody).continues
  refine follows_of_frames rfl hle fun x hx => ?_
  obtain ⟨htest, heval⟩ := hl.keepsAt b host hf x
  have hnested := hl.nested_keepsAt b host hs x
  refine andThen_triple ?_ (Triple.strengthen (iterate_triple ?_ ?_) fun _ hm => hm.1)
    fun _ _ _ hm => hm
  · have hrun := hi hc.left.left.left hinit (hl₀.kept.trans hk₃)
    have hkeep : Keeps (Machine.Frames whole.written x) (fun _ => True)
        (listRun (machine b host) init) :=
      listRun_keeps fun t ht => hnested t (List.mem_append.2 (.inl ht))
    refine (Triple.and hrun hkeep).mono ?_ (fun e m hm => ⟨hm.2, fun he => ?_⟩) fun _ _ => trivial
    · rintro m rfl
      exact ⟨hx, m.frames_of_eq rfl⟩
    · exact (hm.1.cont he).later hl₀.continues
  · refine iteration_keeps (Meaning.testOption_keeps htest) (restOfFor_keeps heval (run_keeps ?_))
    exact fun t ht => hnested t (List.mem_append.2 (.inr ht))
  · have hbt := hb hc.left.right hbody (hl₂.kept.trans hk₃)
    refine iteration_triple ((testOption_triple hc.left.left.right hcond ?_).strengthen ?_)
      (restOfFor_triple hbt fun e he => ?_)
    · exact hl₁.kept.trans hk₃
    · exact fun m hm => agrees_forget hx hle₀ hm
    · have hfit := hc.right.endsFit (by rw [hl.kind]; rfl)
      rw [hl.kind] at hfit
      refine ends_triple he houter hfit (fun hr => ?_) fun hd => evalList_doubtful hd
      refine Triple.weaken (evalList_triple whole hr (fun t x d hm y hy => ?_) hupdate hk₃)
        fun _ _ _ => trivial
      have hP := hc.right.reached t x d hm y
      obtain ⟨rfl, hx⟩ := mem_exprContexts hm
      rw [hl.kind] at hP
      exact hP (.of_ends hx hy)

end Stmt

end Midend
