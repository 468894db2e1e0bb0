import Midend.Proofs.Run.Triple

/-!
# Invariants of runs

`Keeps J E p` says that a run of `p` that starts where `J` holds leads to where
`J` holds, by a result or an exception, and shows only events that satisfy `E`. A
statement keeps an invariant that its own parts and those of the statements
nested in it keep (`Stmt.run_keeps`).
-/

namespace Midend

namespace Run

variable {σ ε α β : Type} {J : σ → Prop} {E : ε → Prop}

/-- From where `J` holds, the run leads to where `J` holds and shows only what satisfies `E`. -/
def Keeps (J : σ → Prop) (E : ε → Prop) (p : Run σ ε α) : Prop := Triple E J p (fun _ => J) J

namespace Keeps

variable {p q : Run σ ε α}

theorem pure {a : α} : Keeps J E (Pure.pure a : Run σ ε α) := Triple.pure fun _ hs => hs

/-- Only the results that `p` may have count. -/
theorem bind_of {f : α → Run σ ε β} (hp : Keeps J E p)
    (hf : ∀ {a s tr t}, J s → p s tr (.done a) t → Keeps J E (f a)) : Keeps J E (p >>= f) := by
  have hp' : Triple E J p (fun a t => J t ∧ ∃ s tr t, J s ∧ p s tr (.done a) t) J := by
    intro s tr r t hr hs
    obtain ⟨hev, hm⟩ := hp hr hs
    refine ⟨hev, ?_⟩
    cases r with
    | done a => exact ⟨hm, s, tr, t, hs, hr⟩
    | thrown => exact hm
    | cut => trivial
  refine hp'.bind fun a => .of_forall fun s hs => ?_
  obtain ⟨hj, s₀, tr, t, hj₀, hr⟩ := hs
  refine Triple.strengthen (hf hj₀ hr) ?_
  rintro _ rfl
  exact hj

theorem bind {f : α → Run σ ε β} (hp : Keeps J E p) (hf : ∀ a, Keeps J E (f a)) :
    Keeps J E (p >>= f) := Triple.bind hp hf

theorem throw : Keeps J E (Throw : Run σ ε α) := Triple.throw fun _ hs => hs

theorem never : Keeps J E (Run.never : Run σ ε α) := Triple.never

theorem hazard : Keeps J E (Hazard : Run σ ε Unit) := Triple.hazard fun _ hs => hs

theorem hazardous (hp : Keeps J E p) : Keeps J E (Run.hazardous p) :=
  Triple.hazardous hp (fun _ hs => hs) fun _ _ hs => hs

theorem emit {e : ε} (h : E e) : Keeps J E (Emit e : Run σ ε Unit) := Triple.emit h

theorem report {f : σ → ε} (h : ∀ s, J s → E (f s)) : Keeps J E (Report f) := Triple.report h

/-- A step of the host keeps what its relation keeps. -/
theorem step {R : σ → Option α → σ → Prop} (h : ∀ s r t, R s r t → J s → J t) :
    Keeps J E (Step R) := Triple.step (fun _ _ _ hr => h _ _ _ hr) fun _ _ hr => h _ _ _ hr

theorem either (hp : Keeps J E p) (hq : Keeps J E q) : Keeps J E (Either p q) :=
  Triple.either hp hq

theorem ite {c : Prop} [Decidable c] (hp : Keeps J E p) (hq : Keeps J E q) :
    Keeps J E (if c then p else q) := Triple.ite hp hq

/-- An iteration keeps what one round keeps. -/
theorem iterate {step : Run σ ε (Option α)} (h : Keeps J E step) : Keeps J E (Iterate step) := by
  refine Triple.iterate (Triple.weaken h fun r s hs => ?_)
  cases r with
  | none => exact hs
  | some a => exact hs

/-- What is known of the runs from where `J` holds, and that they keep `J`. -/
theorem and_triple {E' : ε → Prop} {post : α → σ → Prop} {exc : σ → Prop} (hp : Keeps J E' p)
    (h : Triple E J p post exc) : Triple E J p (fun a s => J s ∧ post a s) J :=
  (h.and hp).mono (fun _ hs => ⟨hs, hs⟩) (fun _ _ hs => ⟨hs.2, hs.1⟩) fun _ hs => hs.2

/-- What holds from the invariant on can be put with it. -/
theorem of_triple {E' : ε → Prop} {post : α → σ → Prop} {exc : σ → Prop} (hp : Keeps J E' p)
    (h : Triple E J p post exc) : Keeps J E p := (hp.and_triple h).weaken fun _ _ hs => hs.1

end Keeps

/-- A loop whose iterations keep `J` and that no `continue` leaves. -/
theorem loop_triple {step : Run σ ε (Option Exit)} (hk : Keeps J (fun _ => True) step)
    (h : Triple E J step (fun r _ => r ≠ some .cont) fun _ => True) :
    Triple E J (Iterate step) (fun e s => J s ∧ e ≠ .cont) J := by
  refine .iterate ((hk.and_triple h).weaken fun r s hs => ?_)
  cases r with
  | none => exact hs.1
  | some e => exact ⟨hs.1, fun he => hs.2 (congrArg some he)⟩

variable {p q : Run σ ε Exit}

/-- Statements one after the other keep what each keeps. -/
theorem andThen_keeps (hp : Keeps J E p) (hq : Keeps J E q) : Keeps J E (p.andThen q) :=
  andThen_triple hp hq fun _ _ _ hs => hs

/-- A finalizer keeps what the protected part keeps. -/
theorem ensuring_keeps (hp : Keeps J E p) (hq : Keeps J E q) : Keeps J E (p.ensuring q) :=
  ensuring_triple hp (fun _ => andThen_keeps hq .pure) (andThen_keeps hq .throw)

/-- Handlers keep what the protected part keeps. -/
theorem handledBy_keeps (hp : Keeps J E p) (hq : Keeps J E q) : Keeps J E (p.handledBy q) :=
  handledBy_triple hp hq fun _ hs => hs

end Run

open Run

variable {σ ε : Type} {M : Meaning σ ε} {J : σ → Prop} {E : ε → Prop}

namespace Meaning

theorem evalList_keeps : ∀ {es : List Expr}, (∀ e ∈ es, Keeps J E (M.eval e)) →
    Keeps J E (M.evalList es)
  | [], _ => .pure
  | e :: es, h => (h e (by simp)).bind fun _ => evalList_keeps fun x hx => h x (by simp [hx])

theorem testOption_keeps : ∀ {c : Option Expr}, (∀ e ∈ c, Keeps J E (M.test e)) →
    Keeps J E (M.testOption c)
  | none, _ => .pure
  | some c, h => h c rfl

theorem closeAll_keeps : ∀ {vs : List VarId}, (∀ v ∈ vs, Keeps J E (M.close v)) →
    Keeps J E (M.closeAll vs)
  | [], _ => .pure
  | v :: vs, h => (h v (by simp)).bind fun _ => closeAll_keeps fun x hx => h x (by simp [hx])

/-- The parts of a statement itself keep an invariant. -/
def KeepsAt (M : Meaning σ ε) (J : σ → Prop) (E : ε → Prop) : StmtKind Expr Stmt → Prop
  | .decl v init => Keeps J E (M.declare v init)
  | .expr e | .throw e => Keeps J E (M.eval e)
  | .branch c .. | .whileLoop c _ | .doLoop _ c => Keeps J E (M.test c)
  | .forLoop _ c update _ =>
    (∀ e ∈ c, Keeps J E (M.test e)) ∧ ∀ e ∈ update, Keeps J E (M.eval e)
  | .forEach v iterable _ => Keeps J E (M.eval iterable) ∧ Keeps J E (M.next v iterable)
  | .switch selector cases =>
    Keeps J E (M.eval selector) ∧ ∀ e ∈ Stmt.labels cases, Keeps J E (M.eval e)
  | .guarded resources _ catches _ =>
    (∀ v ∈ resources.filterMap Stmt.declaredVar?, Keeps J E (M.close v)) ∧
      ∀ c ∈ catches, Keeps J E (M.handle c.param)
  | .assert c message => Keeps J E (M.test c) ∧ ∀ e ∈ message, Keeps J E (M.eval e)
  | .ret e => ∀ x ∈ e, Keeps J E (M.eval x)
  | .err => Keeps J E M.err
  | .block _ | .breakOut | .continueLoop | .empty => True

end Meaning

namespace Stmt

variable {p : Run σ ε Exit}

theorem restOfBody_keeps (hp : Keeps J E p) : Keeps J E (restOfBody p) := hp.bind fun _ => .pure

theorem restOfDo_keeps {c : Expr} (hc : Keeps J E (M.test c)) (hp : Keeps J E p) :
    Keeps J E (restOfDo M c p) := by
  refine hp.bind fun e => ?_
  cases e.ofBody with
  | some e => exact .pure
  | none => exact hc.bind fun _ => .ite .pure .pure

theorem restOfFor_keeps {update : List Expr} (hu : ∀ e ∈ update, Keeps J E (M.eval e))
    (hp : Keeps J E p) : Keeps J E (restOfFor M update p) := by
  refine hp.bind fun e => ?_
  cases e.ofBody with
  | some e => exact .pure
  | none => exact (M.evalList_keeps hu).bind fun _ => .pure

/-- One iteration keeps what its test and its rest keep. -/
theorem iteration_keeps {test : Run σ ε Bool} {rest : Run σ ε (Option Exit)}
    (ht : Keeps J E test) (hr : Keeps J E rest) : Keeps J E (iteration test rest) :=
  ht.bind fun _ => .ite hr .pure

/-- Closing the resources keeps what each close keeps. -/
theorem closing_keeps {resources : List Stmt}
    (hc : ∀ v ∈ resources.filterMap declaredVar?, Keeps J E (M.close v)) (hp : Keeps J E p) :
    Keeps J E (closing M resources p) :=
  ensuring_keeps hp ((M.closeAll_keeps hc).bind fun _ => .pure)

/-- An assertion keeps what its parts keep. -/
theorem assertion_keeps {c : Expr} {message : Option Expr} (hc : Keeps J E (M.test c))
    (hm : ∀ e ∈ message, Keeps J E (M.eval e)) : Keeps J E (assertion M c message) := by
  refine .either .pure (hc.bind fun _ => .ite .pure ?_)
  exact (M.evalList_keeps fun e he => hm e (by simpa using he)).bind fun _ => .throw

mutual

/-- A statement keeps what its parts keep. -/
theorem run_keeps : ∀ {s : Stmt}, (∀ t ∈ s.substmts, M.KeepsAt J E t.kind) → Keeps J E (s.run M)
  | node id kind, h => by
    have hk : M.KeepsAt J E kind := h (node id kind) (by simp [substmts])
    refine Keeps.hazard.bind fun _ => kindRun_keeps hk fun t ht => ?_
    exact h t (by simp [substmts, ht])

/-- One case for each form of statement. -/
theorem kindRun_keeps :
    ∀ {k : StmtKind Expr Stmt}, M.KeepsAt J E k →
      (∀ t ∈ substmtsOfKind k, M.KeepsAt J E t.kind) → Keeps J E (kindRun M k)
  | .decl .., h, _ => Keeps.bind h fun _ => .pure
  | .expr _, h, _ => Keeps.bind h fun _ => .pure
  | .throw _, h, _ => Keeps.bind h fun _ => .throw
  | .block body, _, hs => listRun_keeps hs
  | .branch c a none, h, hs => Keeps.bind h fun _ => .ite (run_keeps hs) .pure
  | .branch c a (some b), h, hs => by
    simp only [substmtsOfKind, List.mem_append] at hs
    refine Keeps.bind h fun _ => .ite ?_ ?_
    · exact run_keeps fun t ht => hs t (.inl ht)
    · exact run_keeps fun t ht => hs t (.inr ht)
  | .whileLoop c body, h, hs =>
    .iterate (iteration_keeps h (restOfBody_keeps (run_keeps hs)))
  | .doLoop body c, h, hs => .iterate (restOfDo_keeps h (run_keeps hs))
  | .forLoop init c update body, h, hs => by
    simp only [substmtsOfKind, List.mem_append] at hs
    refine andThen_keeps (listRun_keeps fun t ht => hs t (.inl ht)) (.iterate ?_)
    refine iteration_keeps (M.testOption_keeps h.1) (restOfFor_keeps h.2 ?_)
    exact run_keeps fun t ht => hs t (.inr ht)
  | .forEach v iterable body, h, hs =>
    Keeps.bind h.1 fun _ => .iterate (iteration_keeps h.2 (restOfBody_keeps (run_keeps hs)))
  | .switch selector cases, h, hs =>
    Keeps.bind h.1 fun _ => (M.evalList_keeps h.2).bind fun _ =>
      (casesRun_keeps _ hs).bind fun _ => .pure
  | .guarded resources body catches none, h, hs => by
    simp only [substmtsOfKind, List.mem_append] at hs
    refine handledBy_keeps (andThen_keeps ?_ (closing_keeps h.1 ?_)) (catchesRun_keeps h.2 ?_)
    · exact listRun_keeps fun t ht => hs t (.inl (.inl ht))
    · exact listRun_keeps fun t ht => hs t (.inl (.inr ht))
    · exact fun t ht => hs t (.inr ht)
  | .guarded resources body catches (some finalizer), h, hs => by
    simp only [substmtsOfKind, List.mem_append] at hs
    refine ensuring_keeps (handledBy_keeps (andThen_keeps ?_ (closing_keeps h.1 ?_))
      (catchesRun_keeps h.2 ?_)) ?_
    · exact listRun_keeps fun t ht => hs t (.inl (.inl (.inl ht)))
    · exact listRun_keeps fun t ht => hs t (.inl (.inl (.inr ht)))
    · exact fun t ht => hs t (.inl (.inr ht))
    · exact listRun_keeps fun t ht => hs t (.inr ht)
  | .assert c message, h, _ => assertion_keeps h.1 h.2
  | .ret e, h, _ => (M.evalList_keeps fun x hx => h x (by simpa using hx)).bind fun _ => .pure
  | .breakOut, _, _ | .continueLoop, _, _ | .empty, _, _ => .pure
  | .err, h, _ => h

theorem listRun_keeps :
    ∀ {ss : List Stmt}, (∀ t ∈ substmtsOfList ss, M.KeepsAt J E t.kind) →
      Keeps J E (listRun M ss)
  | [], _ => .pure
  | s :: ss, h => by
    simp only [substmtsOfList, List.mem_append] at h
    refine andThen_keeps (run_keeps fun t ht => h t (.inl ht)) ?_
    exact listRun_keeps fun t ht => h t (.inr ht)

theorem fallRun_keeps :
    ∀ {cs : List (SwitchCase Expr Stmt)}, (∀ t ∈ substmtsOfCases cs, M.KeepsAt J E t.kind) →
      Keeps J E (fallRun M cs)
  | [], _ => .pure
  | ⟨_, _, body⟩ :: cs, h => by
    simp only [substmtsOfCases, List.mem_append] at h
    refine andThen_keeps (listRun_keeps fun t ht => h t (.inl ht)) ?_
    exact fallRun_keeps fun t ht => h t (.inr ht)

theorem casesRun_keeps (skips : Bool) :
    ∀ {cs : List (SwitchCase Expr Stmt)}, (∀ t ∈ substmtsOfCases cs, M.KeepsAt J E t.kind) →
      Keeps J E (casesRun M skips cs)
  | [], _ => .ite .pure .never
  | ⟨_, _, body⟩ :: cs, h => by
    simp only [substmtsOfCases, List.mem_append] at h
    refine .either (andThen_keeps (listRun_keeps fun t ht => h t (.inl ht)) ?_) ?_
    · exact fallRun_keeps fun t ht => h t (.inr ht)
    · exact casesRun_keeps skips fun t ht => h t (.inr ht)

theorem catchesRun_keeps :
    ∀ {cs : List (CatchClause Stmt)}, (∀ c ∈ cs, Keeps J E (M.handle c.param)) →
      (∀ t ∈ substmtsOfCatches cs, M.KeepsAt J E t.kind) → Keeps J E (catchesRun M cs)
  | [], _, _ => .never
  | ⟨_, _, body⟩ :: cs, hc, h => by
    simp only [substmtsOfCatches, List.mem_append] at h
    simp only [List.mem_cons, forall_eq_or_imp] at hc
    refine .either (hc.1.bind fun _ => listRun_keeps fun t ht => h t (.inl ht)) ?_
    exact catchesRun_keeps hc.2 fun t ht => h t (.inr ht)

end

end Stmt

end Midend
