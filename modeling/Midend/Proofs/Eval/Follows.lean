import Midend.Proofs.Eval.Arrival
import Midend.Proofs.Eval.Values

/-!
# Runs that follow an evaluation

A run of a statement follows its evaluation (`Follows`) if from locals that agree
with the evaluator's context it shows only values that the evaluator has recorded
and ends where the evaluator does: normally in its context, and by a `continue`
in the one that was saved for it, except for the locals of a detour (`Arrives`).
-/

namespace Midend

open Run Exec

variable {H : Type} {b : Body} {host : Host H} {V : VarId → Prop} {D : Expr → Prop}
  {P : Expr → Locals → Prop} {st st' last : EvalState}

/-! ## Expressions -/

section

variable {α β : Type} {E : Event → Prop} {p : Exec H α}

/-- A simulation as a triple, where `last` keeps what is recorded at the end. -/
theorem Simulates.triple {x : Eval β} {post : β → α → EvalState → Locals → Prop}
    (h : Simulates V D P x p post st) {a : β} (hx : x st = (.ok a, st')) (hk : st'.KeptBy last) :
    Triple (last.Admits D P) (fun m => st.context.AgreesOn V m.locals) p
      (fun y m => post a y st' m.locals) fun _ => True := by
  intro m tr r m' hr hm
  obtain ⟨hev, hpost⟩ := (h hx).2 hm hr
  refine ⟨fun ev he => hk.admits (hev ev he), ?_⟩
  cases r with
  | done y => exact hpost y rfl
  | thrown => trivial
  | cut => trivial

/-- A run that has a result and no effect leaves the locals alone. -/
theorem Exec.Gives.triple {R : α → Prop} {Q : Locals → Prop} (h : p.Gives R) :
    Triple E (fun m => Q m.locals) p (fun a m => Q m.locals ∧ R a) fun m => Q m.locals := by
  intro m tr r m' hr hm
  obtain ⟨rfl, hl, ha⟩ := h hr
  have hm' : Q m'.locals := hl ▸ hm
  refine ⟨by simp, ?_⟩
  cases r with
  | done a => exact ⟨hm', ha a rfl⟩
  | thrown => exact hm'
  | cut => trivial

end

namespace Expr

variable {e : Expr} {a : Value}

/-- All the locals of the expression are in `V`. -/
def ReadsOnly (V : VarId → Prop) (e : Expr) : Prop := ∀ s ∈ e.subexprs, ReadsIn V s.kind

theorem readsOnly_true (e : Expr) : e.ReadsOnly fun _ => True := by
  intro s _
  unfold ReadsIn
  split <;> trivial

/-- An evaluated expression is entered in a state that the context describes. -/
theorem enter_triple (hV : e.ReadsOnly V) (hx : e.eval b 0 st = (.ok a, st'))
    (hk : st'.KeptBy last) (hP : ∀ x, st.context.AgreesOn V x → P e x) :
    Triple (last.Admits D P) (fun m => st.context.AgreesOn V m.locals) (e.enter b host)
      (fun d m => Matches V a d st' m.locals) fun _ => True :=
  (Triple.report fun m hm => hP m.locals hm).bind fun _ => (eval_simulates hV st).triple hx hk

/-- Nothing is claimed of the values of an expression of `D`. -/
theorem enter_doubtful {pre : Machine H → Prop} (hD : ∀ s ∈ e.subexprs, D s)
    (hP : ∀ m, pre m → P e m.locals) :
    Triple (last.Admits D P) pre (e.enter b host) (fun _ _ => True) fun _ => True := by
  have hr : Triple (last.Admits D P) pre (Report fun m : Machine H => .enter e m.locals)
      (fun _ => pre) fun _ => True := .report hP
  refine hr.bind fun _ => .of_forall fun m _ => ?_
  have hf : Keeps (Machine.Frames (IdSet.ofList e.written) m.locals) (last.Admits D P)
      (e.exec b host) :=
    exec_frame (fun v hv => IdSet.mem_ofList.2 hv) fun s hs d => .inl (hD s hs)
  refine Triple.mono hf ?_ (fun _ _ _ => trivial) fun _ _ => trivial
  rintro _ rfl _ _
  rfl

/-- Nothing is claimed of an expression that is evaluated elsewhere. -/
theorem eval_doubtful {pre : Machine H → Prop} (hD : ∀ s ∈ e.subexprs, D s)
    (hP : ∀ m, pre m → P e m.locals) :
    Triple (last.Admits D P) pre ((machine b host).eval e) (fun _ _ => True) fun _ => True :=
  (enter_doubtful hD hP).bind fun _ => .pure fun _ _ => trivial

/-- Nothing is claimed of a condition that is evaluated elsewhere. -/
theorem test_doubtful {pre : Machine H → Prop} (hD : ∀ s ∈ e.subexprs, D s)
    (hP : ∀ m, pre m → P e m.locals) :
    Triple (last.Admits D P) pre ((machine b host).test e) (fun _ _ => True) fun _ => True :=
  (enter_doubtful hD hP).bind fun _ =>
    (truth_silent.triple (Q := fun _ => True)).mono (fun _ h => h) (fun _ _ _ => trivial)
      fun _ h => h

/-- A run of an evaluated expression is in line with what was recorded. -/
theorem eval_triple (hV : e.ReadsOnly V) (hx : e.eval b 0 st = (.ok a, st'))
    (hk : st'.KeptBy last) (hP : ∀ x, st.context.AgreesOn V x → P e x) :
    Triple (last.Admits D P) (fun m => st.context.AgreesOn V m.locals) ((machine b host).eval e)
      (fun _ m => st'.context.AgreesOn V m.locals) fun _ => True :=
  (enter_triple hV hx hk hP).bind fun _ => .pure fun _ hm => hm.1

/-- A run of an evaluated condition is in line with what was recorded. -/
theorem test_triple (hV : e.ReadsOnly V) (hx : e.eval b 0 st = (.ok a, st'))
    (hk : st'.KeptBy last) (hP : ∀ x, st.context.AgreesOn V x → P e x) :
    Triple (last.Admits D P) (fun m => st.context.AgreesOn V m.locals) ((machine b host).test e)
      (fun t m => st'.context.AgreesOn V m.locals ∧ ∀ l, a = .known l → l = .bool t)
      fun _ => True := by
  refine (enter_triple hV hx hk hP).bind fun d => .of_forall fun m hm => ?_
  refine (truth_gives hm.2).triple.mono ?_ (fun _ _ h => h) fun _ _ => trivial
  rintro _ rfl
  exact hm.1

end Expr

/-! ## Ends of statements -/

/-- The locals agree with the context of a `continue` except for those of a detour. -/
def Resumes (ds : List IdSet) (cs : List (Option Context)) (x : Locals) : Prop :=
  ∃ w ∈ ds, ∀ k ∈ cs.head?, ∃ c, k = some c ∧ c.AgreesOn (· ∉ w) x

namespace Resumes

variable {ds ds' : List IdSet} {cs cs' : List (Option Context)} {x y : Locals}

theorem mono (h : Resumes ds cs x) (hd : ds ⊆ ds') : Resumes ds' cs x := by
  obtain ⟨w, hw, hk⟩ := h
  exact ⟨w, hd hw, hk⟩

/-- A later stack knows no more at its `continue` statements. -/
theorem later (h : Resumes ds cs x) (hc : ContinuesLater cs cs') : Resumes ds cs' x := by
  obtain ⟨w, hw, hk⟩ := h
  refine ⟨w, hw, ?_⟩
  cases cs with
  | nil =>
    obtain rfl : cs' = [] := hc
    exact hk
  | cons k outer =>
    obtain ⟨k', rfl, hk'⟩ := hc
    obtain ⟨c, rfl, hx⟩ := hk k rfl
    obtain ⟨d, rfl, hd⟩ := hk' c rfl
    rintro _ ⟨⟩
    exact ⟨d, rfl, fun v hv l hl => hx v hv l (hd v (IdSet.not_mem_empty v) l hl)⟩

/-- A finalizer adds to the detour. -/
theorem detour (h : Resumes ds cs x) {u : IdSet} (hx : ∀ v, v ∉ u → y v = x v) :
    Resumes (ds.map (· ∪ u)) cs y := by
  obtain ⟨w, hw, hk⟩ := h
  refine ⟨w ∪ u, List.mem_map_of_mem hw, fun k hk' => ?_⟩
  obtain ⟨c, rfl, hc⟩ := hk k hk'
  refine ⟨c, rfl, fun v hv => ?_⟩
  obtain ⟨hvw, hvu⟩ : v ∉ w ∧ v ∉ u := not_or.1 fun h => hv (IdSet.mem_union.2 h)
  rw [hx v hvu]
  exact hc v hvw

end Resumes

/-- What is known of the locals where a statement ends that was evaluated up to `st`. -/
structure Arrives (ds : List IdSet) (st : EvalState) (e : Exit) (x : Locals) : Prop where
  normal : e = .normal → st.context.Agrees x
  cont : e = .cont → Resumes ds st.continues x

/-- Of other exits nothing is claimed. -/
theorem Arrives.of_ne {ds : List IdSet} {e : Exit} {x : Locals} (hn : e ≠ .normal)
    (hc : e ≠ .cont) : Arrives ds st e x := ⟨fun h => absurd h hn, fun h => absurd h hc⟩

/-- At the end of a statement the context describes the locals. -/
theorem Arrives.of_agrees {ds : List IdSet} {x : Locals} (h : st.context.Agrees x) :
    Arrives ds st .normal x := ⟨fun _ => h, nofun⟩

/-- The end of an iteration, by the end of the body or a `continue`. -/
theorem Arrives.endOf {ds : List IdSet} {e : Exit} {x : Locals} (h : Arrives ds st e x)
    (he : e.ofBody = none) {k : Option Context} {outer : List (Option Context)}
    (hs : st.continues = k :: outer) :
    (Eval.endOf st.context st.continues).Agrees x ∨
      ∃ w ∈ ds, (Eval.endOf st.context st.continues).AgreesOn (· ∉ w) x := by
  rw [hs]
  cases e with
  | normal =>
    refine .inl ?_
    cases k with
    | none => exact h.normal rfl
    | some c => exact (h.normal rfl).join_left c
  | cont =>
    obtain ⟨w, hw, hk⟩ := h.cont rfl
    obtain ⟨c, rfl, hc⟩ := hk k (by rw [hs]; rfl)
    exact .inr ⟨w, hw, hc.join_right _⟩
  | brk => cases he
  | ret => cases he

/-- The runs of `p` from locals that agree with `c` do what is foretold, where `p` was evaluated up
to `st` and `last` keeps what was recorded. -/
abbrev Follows (last : EvalState) (D : Expr → Prop) (P : Expr → Locals → Prop) (c : Context)
    (p : Exec H Exit) (ds : List IdSet) (st : EvalState) : Prop :=
  Triple (last.Admits D P) (fun m => c.Agrees m.locals) p (fun e m => Arrives ds st e m.locals)
    fun _ => True

namespace Follows

variable {c : Context} {p q : Exec H Exit} {ds ds' : List IdSet} {st₁ : EvalState}

theorem mono (h : Follows last D P c p ds st) (hd : ds ⊆ ds')
    (hc : ∀ x, st.context.Agrees x → st'.context.Agrees x)
    (hl : ContinuesLater st.continues st'.continues) : Follows last D P c p ds' st' := by
  refine Triple.weaken h fun e m ha => ⟨fun he => hc _ (ha.normal he), fun he => ?_⟩
  exact ((ha.cont he).mono hd).later hl

/-- Runs one after the other follow evaluations one after the other. -/
theorem andThen (hp : Follows last D P c p ds st₁) (hq : Follows last D P st₁.context q ds' st)
    (hl : ContinuesLater st₁.continues st.continues) :
    Follows last D P c (p.andThen q) (ds ++ ds') st := by
  refine andThen_triple hp ?_ fun e m he ha => ⟨fun hn => absurd hn he, fun hc => ?_⟩
  · refine Triple.mono hq (fun m ha => ha.normal rfl) (fun e m ha => ?_) fun _ h => h
    exact ⟨ha.normal, fun hc => (ha.cont hc).mono (List.subset_append_right ds ds')⟩
  · exact ((ha.cont hc).mono (List.subset_append_left ds ds')).later hl

end Follows

/-! ## Parts of statements -/

/-- An expression leaves the stack as it was. -/
theorem Expr.eval_later {depth : Nat} {e : Expr} {a : Value}
    (h : e.eval b depth st = (.ok a, st')) : st.Later st' := by
  have hw := assignsIn_of_written (e := e) fun v hv => (IdSet.mem_ofList.2 hv : v ∈ IdSet.ofList _)
  exact (eval_within hw h (.refl _ st.context)).1

/-- An expression evaluated for its effects has a value that is not used. -/
theorem Expr.run_eq_ok {e : Expr} :
    e.run b st = (.ok (), st') ↔ ∃ a, e.eval b 0 st = (.ok a, st') := by
  rw [run, Eval.bind_eq_ok]
  constructor
  · rintro ⟨a, st₁, h, h'⟩
    obtain ⟨-, rfl⟩ := Eval.pure_eq_ok.1 h'
    exact ⟨a, h⟩
  · rintro ⟨a, h⟩
    exact ⟨a, st', h, rfl⟩

/-- An expression that may be absent is a list of at most one. -/
theorem Expr.runOption_eq (e : Option Expr) : runOption b e = evalList b 0 e.toList := by
  cases e <;> rfl

theorem Expr.evalList_later :
    ∀ {es : List Expr} {st : EvalState}, evalList b 0 es st = (.ok (), st') → st.Later st'
  | [], _, h => by
    obtain ⟨-, rfl⟩ := Eval.pure_eq_ok.1 h
    exact .refl _
  | e :: es, _, h => by
    obtain ⟨a, st₁, h₁, h₂⟩ := Eval.bind_eq_ok.1 h
    exact (eval_later h₁).trans (evalList_later h₂)

namespace Stmt

/-- The locals that agree with the context where a run comes to an expression of a statement: all
of them, but only those of `V` at the end of a loop. -/
def Reached (V : VarId → Prop) (k : StmtKind Expr Stmt) (e : Expr) (c : Context) (x : Locals) :
    Prop :=
  c.AgreesOn (fun v => e ∈ ends k → V v) x

/-- The ends of a loop, which are evaluated from `c`, mention only locals of `V`, of which nothing
is known in `c` that a detour may change, or else nothing is claimed of their values. -/
def EndsFit (D : Expr → Prop) (P : Expr → Locals → Prop) (V : VarId → Prop)
    (k : StmtKind Expr Stmt) (c : Context) : Prop :=
  ((∀ e ∈ ends k, e.ReadsOnly V) ∧ ∀ w ∈ endDetours k, ∀ v ∈ w, V v → c.get v = .unknown) ∨
    ∀ e ∈ ends k, (∀ s ∈ e.subexprs, D s) ∧ ∀ x, P e x

/-- Nothing is known, where a label is evaluated, of the locals that it mentions and its switch may
write, or else nothing is claimed of its value. The selector is evaluated from `c`. -/
def LabelFits (b : Body) (D : Expr → Prop) (s : Stmt) (c : Context) (e : Expr) : Prop :=
  (∃ U, e.ReadsOnly U ∧
    ∀ d, (s, e, d) ∈ labelContexts b s c → ∀ v ∈ s.written, U v → d.get v = .unknown) ∨
  ∀ u ∈ e.subexprs, D u

/-- The predicate holds where a run comes to the expressions with these contexts. -/
structure Welcomes (b : Body) (D : Expr → Prop) (P : Expr → Locals → Prop) (V : VarId → Prop)
    (cs : List (Stmt × Expr × Context)) : Prop where
  reached : ∀ t e c, (t, e, c) ∈ cs → ∀ x, Reached V t.kind e c x → P e x
  ends : ∀ t e c, (t, e, c) ∈ cs → (ends t.kind).head? = some e → EndsFit D P V t.kind c
  labels : ∀ t e c, (t, e, c) ∈ cs → ∀ selector cases, t.kind = .switch selector cases →
    ∀ l ∈ Stmt.labels cases, LabelFits b D t c l

/-- The statement is not erroneous, and nothing is claimed of the locals at its labels. -/
structure Fits (P : Expr → Locals → Prop) (k : StmtKind Expr Stmt) : Prop where
  not_err : k ≠ .err
  labels : ∀ selector cases, k = .switch selector cases → ∀ e ∈ Stmt.labels cases, ∀ x, P e x

/-- What is known of all locals is known of some. -/
theorem Reached.of_agrees {k : StmtKind Expr Stmt} {e : Expr} {c : Context} {x : Locals}
    (h : c.Agrees x) : Reached V k e c x := h.mono fun _ _ => trivial

/-- At the end of an iteration only some locals need to be known. -/
theorem Reached.of_ends {k : StmtKind Expr Stmt} {e : Expr} {c : Context} {x : Locals}
    (he : e ∈ ends k) (h : c.AgreesOn V x) : Reached V k e c x := h.mono fun _ hv => hv he

namespace Welcomes

variable {cs ds : List (Stmt × Expr × Context)} {t : Stmt} {e : Expr} {c : Context}

theorem mono (h : Welcomes b D P V ds) (hcs : cs ⊆ ds) : Welcomes b D P V cs :=
  ⟨fun t e c hm => h.reached t e c (hcs hm), fun t e c hm => h.ends t e c (hcs hm),
    fun t e c hm => h.labels t e c (hcs hm)⟩

theorem left (h : Welcomes b D P V (cs ++ ds)) : Welcomes b D P V cs :=
  h.mono (List.subset_append_left cs ds)

theorem right (h : Welcomes b D P V (cs ++ ds)) : Welcomes b D P V ds :=
  h.mono (List.subset_append_right cs ds)

theorem tail {q : Stmt × Expr × Context} (h : Welcomes b D P V (q :: cs)) : Welcomes b D P V cs :=
  h.mono (List.subset_cons_self q cs)

theorem head (h : Welcomes b D P V ((t, e, c) :: cs)) (x : Locals) (hx : c.Agrees x) : P e x :=
  h.reached t e c List.mem_cons_self x (.of_agrees hx)

/-- What is claimed at the end of an iteration fits the context there. -/
theorem endsFit {whole : Stmt} {st : EvalState} :
    ∀ {es : List Expr}, Stmt.ends whole.kind = es → Welcomes b D P V (exprContexts b whole es st) →
      EndsFit D P V whole.kind st.context
  | [], hes, _ => .inr (by simp [hes])
  | e :: _, hes, h => h.ends whole e st.context List.mem_cons_self (by rw [hes]; rfl)

end Welcomes

/-- Expressions in order. -/
theorem evalList_triple (whole : Stmt) :
    ∀ {es : List Expr} {st : EvalState}, (∀ e ∈ es, e.ReadsOnly V) →
      (∀ t e c, (t, e, c) ∈ exprContexts b whole es st → ∀ x, c.AgreesOn V x → P e x) →
      Expr.evalList b 0 es st = (.ok (), st') → st'.KeptBy last →
      Triple (last.Admits D P) (fun m => st.context.AgreesOn V m.locals)
        ((machine b host).evalList es) (fun _ m => st'.context.AgreesOn V m.locals) fun _ => True
  | [], _, _, _, h, _ => by
    obtain ⟨-, rfl⟩ := Eval.pure_eq_ok.1 h
    exact .pure fun _ hm => hm
  | e :: es, st, hV, hP, h, hk => by
    obtain ⟨a, st₁, h₁, h₂⟩ := Eval.bind_eq_ok.1 h
    have hk₁ : st₁.KeptBy last := (Expr.evalList_later h₂).kept.trans hk
    refine (Expr.eval_triple (hV e (by simp)) h₁ hk₁ ?_).bind fun _ => ?_
    · exact hP whole e st.context List.mem_cons_self
    · refine evalList_triple whole (fun x hx => hV x (by simp [hx])) (fun t x c hm => ?_) h₂ hk
      refine hP t x c (List.mem_cons_of_mem _ ?_)
      rw [Eval.after_eq h₁]
      exact hm

theorem evalList_doubtful {pre : Machine H → Prop} :
    ∀ {es : List Expr}, (∀ e ∈ es, (∀ s ∈ e.subexprs, D s) ∧ ∀ x, P e x) →
      Triple (last.Admits D P) pre ((machine b host).evalList es) (fun _ _ => True) fun _ => True
  | [], _ => .pure fun _ _ => trivial
  | e :: es, h => by
    obtain ⟨hD, hP⟩ := h e List.mem_cons_self
    refine (Expr.eval_doubtful hD fun m _ => hP m.locals).bind fun _ => ?_
    exact evalList_doubtful fun x hx => h x (List.mem_cons_of_mem e hx)

end Stmt

end Midend
