import Midend.Proofs.Eval.Frame
import Midend.Proofs.Machine.Keeps

/-!
# Evaluation and runs

`Simulates x p post st` relates an evaluation `x` that starts in `st` to the runs
of `p` that start where the locals agree with the context of `st`: what such a run
shows fits the values that are recorded in the end, and where it has a result
`post` relates the two. There is one rule for each way to compose evaluations and
runs side by side. An expression evaluates to the value that its runs give
(`Expr.eval_simulates`).
-/

namespace Midend

open Run

/-! ## Agreement -/

/-- What is known of a value is true of the concrete one. -/
def Value.Holds (x : Value) (d : Concrete) : Prop := ∀ l, x = .known l → d = .const l

theorem Value.holds_unknown (d : Concrete) : Value.unknown.Holds d := fun _ h => nomatch h

theorem Value.holds_known (l : Literal) : (Value.known l).Holds (.const l) := by
  rintro _ ⟨⟩
  rfl

theorem Value.exists_holds : ∀ x : Value, ∃ d, x.Holds d
  | .unknown => ⟨default, holds_unknown _⟩
  | .known l => ⟨.const l, holds_known l⟩

/-- What holds of the stronger value holds of the weaker one. -/
theorem Value.Weakens.holds {x y : Value} {d : Concrete} (h : x.Weakens y) (hd : x.Holds d) :
    y.Holds d := fun l hl => hd l (h l hl)

/-- What the context knows of the locals in `V` is true. -/
def Context.AgreesOn (V : VarId → Prop) (c : Context) (x : Locals) : Prop :=
  ∀ v, V v → (c.get v).Holds (x v)

/-- What the context knows of the locals is true. -/
abbrev Context.Agrees (c : Context) (x : Locals) : Prop := c.AgreesOn (fun _ => True) x

namespace Context

variable {c d : Context} {w : IdSet} {V V' : VarId → Prop} {x y : Locals}

theorem AgreesOn.mono (h : c.AgreesOn V x) (hV : ∀ v, V' v → V v) : c.AgreesOn V' x :=
  fun v hv => h v (hV v hv)

/-- Variables of which nothing is known can be added. -/
theorem AgreesOn.of_unknown (h : c.AgreesOn (· ∉ w) x)
    (hw : ∀ v ∈ w, V v → c.get v = .unknown) : c.AgreesOn V x := by
  intro v hv
  by_cases hvw : v ∈ w
  · rw [hw v hvw hv]
    exact Value.holds_unknown _
  · exact h v hvw

/-- A join describes what its left part describes. -/
theorem AgreesOn.join_left (h : c.AgreesOn V x) (d : Context) : (c.join d).AgreesOn V x :=
  fun v hv l hl => h v hv l (get_of_join hl).1

/-- A join describes what its right part describes. -/
theorem AgreesOn.join_right (h : d.AgreesOn V x) (c : Context) : (c.join d).AgreesOn V x :=
  fun v hv l hl => h v hv l (get_of_join hl).2

theorem AgreesOn.bind (h : c.AgreesOn V x) {v : VarId} {a : Value} {d : Concrete}
    (ha : a.Holds d) : (c.bind v a).AgreesOn V fun u => if u = v then d else x u := by
  intro u hu
  rw [get_bind]
  simp only
  split
  · exact ha
  · exact h u hu

/-- Where only the locals of `w` have changed, a context that forgets them still agrees. -/
theorem Agrees.forget_of_frame (h : d.Agrees x) (hc : (c.forget w).LeOff w d)
    (hx : ∀ v, v ∉ w → y v = x v) : (c.forget w).Agrees y := by
  intro v _ l hl
  by_cases hv : v ∈ w
  · rw [get_forget, if_pos hv] at hl
    cases hl
  · rw [hx v hv]
    exact h v trivial l (hc v hv l hl)

end Context

/-! ## Simulation -/

section

variable {H α β γ δ : Type} (V : VarId → Prop) (D : Expr → Prop) (P : Expr → Locals → Prop)

/-- The event fits what is recorded: `P` holds of the locals where an expression is entered, and a
recorded value is the one that is computed, except perhaps for the expressions of `D`. -/
def EvalState.Admits (st : EvalState) : Event → Prop
  | .enter e x => P e x
  | .value e d => D e ∨ ∀ values, st.observed = some values →
      ∃ x, values.get? e.id = some x ∧ x.Holds d

variable {V D P}

/-- An event that the records admit is admitted by the records they are kept in. -/
theorem EvalState.KeptBy.admits {st st' : EvalState} (h : st.KeptBy st') :
    ∀ {ev : Event}, st.Admits D P ev → st'.Admits D P ev
  | .enter .., hev => hev
  | .value e d, hev => by
    refine hev.imp_right fun hev values hv => ?_
    obtain ⟨old, ho, hold⟩ := h values hv
    obtain ⟨x, hx, hd⟩ := hev old ho
    obtain ⟨y, hy, hxy⟩ := hold e.id x hx
    exact ⟨y, hy, hxy.holds hd⟩

/-- Where nothing is doubted, a recorded constant is the value. -/
theorem EvalState.Admits.eq_const {st : EvalState} {e : Expr} {d : Concrete} {l : Literal}
    (h : st.Admits D P (.value e d)) (hD : ¬ D e)
    (hl : st.recorded.get? e.id = some (.known l)) : d = .const l := by
  have hv := h.resolve_left hD
  unfold recorded at hl
  cases ho : st.observed with
  | none =>
    rw [ho] at hl
    exact nomatch hl
  | some values =>
    rw [ho] at hl
    obtain ⟨x, hx, hd⟩ := hv values ho
    have hl' : values.get? e.id = some (.known l) := hl
    rw [hx] at hl'
    exact hd l (Option.some.inj hl')

variable (V D P) in
/-- The evaluation `x` from `st` foretells the runs of `p` from states that agree with `st`. -/
def Simulates (x : Eval α) (p : Exec H β) (post : α → β → EvalState → Locals → Prop)
    (st : EvalState) : Prop :=
  ∀ ⦃a st'⦄, x st = (.ok a, st') → st.Later st' ∧
    ∀ ⦃m tr r m'⦄, st.context.AgreesOn V m.locals → p m tr r m' →
      (∀ ev ∈ tr, st'.Admits D P ev) ∧ ∀ y, r = .done y → post a y st' m'.locals

/-- A run shows nothing, leaves the locals as they are and has only results that satisfy `R`. -/
def Exec.Gives (R : α → Prop) (p : Exec H α) : Prop :=
  ∀ ⦃m tr r m'⦄, p m tr r m' → tr = [] ∧ m'.locals = m.locals ∧ ∀ a, r = .done a → R a

/-- A run silently leaves the locals as they are. -/
abbrev Exec.Silent (p : Exec H α) : Prop := p.Gives fun _ => True

/-- The context agrees with the locals, and the value with the result. -/
def Matches (V : VarId → Prop) (a : Value) (d : Concrete) (st : EvalState) (x : Locals) : Prop :=
  st.context.AgreesOn V x ∧ a.Holds d

/-- The context agrees with the locals. -/
def InStep (V : VarId → Prop) (_ : α) (_ : β) (st : EvalState) (x : Locals) : Prop :=
  st.context.AgreesOn V x

namespace Exec.Gives

variable {p : Exec H α} {R R' : α → Prop}

theorem mono (h : p.Gives R) (hR : ∀ a, R a → R' a) : p.Gives R' := by
  intro m tr r m' hr
  obtain ⟨htr, hm, ha⟩ := h hr
  exact ⟨htr, hm, fun a hd => hR a (ha a hd)⟩

theorem pure {a : α} (h : R a) : Gives R (Pure.pure a : Exec H α) := by
  rintro m tr r m' ⟨⟩
  refine ⟨rfl, rfl, ?_⟩
  rintro _ ⟨⟩
  exact h

theorem throw : Gives R (Throw : Exec H α) := by
  rintro m tr r m' ⟨⟩
  exact ⟨rfl, rfl, fun a ha => nomatch ha⟩

theorem hazard : Silent (Hazard : Exec H Unit) := by
  rintro m tr r m' (_ | _ | _) <;> exact ⟨rfl, rfl, fun _ _ => trivial⟩

theorem bind {Q : β → Prop} {f : α → Exec H β} (hp : p.Gives R) (hf : ∀ a, R a → (f a).Gives Q) :
    (p >>= f).Gives Q := by
  rintro m tr r m' (⟨h₁, h₂⟩ | h | h)
  · obtain ⟨rfl, hm, ha⟩ := hp h₁
    obtain ⟨rfl, hm', hb⟩ := hf _ (ha _ rfl) h₂
    exact ⟨rfl, hm'.trans hm, hb⟩
  · obtain ⟨htr, hm, -⟩ := hp h
    exact ⟨htr, hm, fun a ha => nomatch ha⟩
  · obtain ⟨htr, hm, -⟩ := hp h
    exact ⟨htr, hm, fun a ha => nomatch ha⟩

theorem asks {Q : H → Option α → Prop} : (Exec.asks Q).Silent := by
  rintro m tr r m' (h | h) <;> exact ⟨rfl, congrArg _ h.2, fun _ _ => trivial⟩

theorem acts {Q : H → Option α → H → Prop} : (Exec.acts Q).Silent := by
  rintro m tr r m' (⟨h, -, rfl⟩ | ⟨h, -, rfl⟩) <;> exact ⟨rfl, rfl, fun _ _ => trivial⟩

/-- Every result fits the unknown value. -/
theorem unknown {p : Exec H Concrete} (h : p.Silent) : p.Gives Value.unknown.Holds :=
  h.mono fun d _ => Value.holds_unknown d

end Exec.Gives

namespace Simulates

variable {x : Eval α} {p : Exec H β} {st : EvalState}
  {post post' : α → β → EvalState → Locals → Prop}

/-- A simulated evaluation leaves a later state. -/
theorem later (h : Simulates V D P x p post st) {a : α} {st' : EvalState}
    (hx : x st = (.ok a, st')) :
    st.Later st' := (h hx).1

theorem mono (h : Simulates V D P x p post st)
    (hp : ∀ {a y st' z}, x st = (.ok a, st') → post a y st' z → post' a y st' z) :
    Simulates V D P x p post' st := by
  intro a st' hx
  obtain ⟨hl, hr⟩ := h hx
  refine ⟨hl, fun m tr r m' hm hrun => ?_⟩
  obtain ⟨hev, hpost⟩ := hr hm hrun
  exact ⟨hev, fun y hy => hp hx (hpost y hy)⟩

theorem fail {f : Fault} : Simulates V D P (Eval.fail f) p post st :=
  fun _ _ h => absurd h Eval.not_fail_eq_ok

theorem locate {span : Span} (h : Simulates V D P x p post st) :
    Simulates V D P (Eval.locate span x) p post st :=
  fun _ _ hx => h (Eval.locate_eq_ok.1 hx)

/-- One after the other on both sides, where results that are related by `R` lead on. -/
theorem bind {f : α → Eval γ} {g : β → Exec H δ} {R : α → β → Prop}
    {post : γ → δ → EvalState → Locals → Prop}
    (hx : Simulates V D P x p (fun a y st x => st.context.AgreesOn V x ∧ R a y) st)
    (hR : ∀ a, ∃ y, R a y)
    (hf : ∀ {a y st₁}, x st = (.ok a, st₁) → R a y → Simulates V D P (f a) (g y) post st₁) :
    Simulates V D P (x >>= f) (p >>= g) post st := by
  intro c st' h
  obtain ⟨a, st₁, h₁, h₂⟩ := Eval.bind_eq_ok.1 h
  obtain ⟨hl, hrun⟩ := hx h₁
  obtain ⟨y₀, hy₀⟩ := hR a
  have hl' : st₁.Later st' := (hf h₁ hy₀).later h₂
  refine ⟨hl.trans hl', ?_⟩
  rintro m tr r m' hm (⟨hp, hg⟩ | hp | hp)
  · obtain ⟨hev, hpost⟩ := hrun hm hp
    obtain ⟨hm₁, hy⟩ := hpost _ rfl
    obtain ⟨hev', hpost'⟩ := (hf h₁ hy h₂).2 hm₁ hg
    refine ⟨fun ev hmem => ?_, hpost'⟩
    rcases List.mem_append.1 hmem with hmem | hmem
    · exact hl'.kept.admits (hev ev hmem)
    · exact hev' ev hmem
  · exact ⟨fun ev hmem => hl'.kept.admits ((hrun hm hp).1 ev hmem), fun y hy => nomatch hy⟩
  · exact ⟨fun ev hmem => hl'.kept.admits ((hrun hm hp).1 ev hmem), fun y hy => nomatch hy⟩

/-- A value first. -/
theorem value_bind {x : Eval Value} {p : Exec H Concrete} {f : Value → Eval γ}
    {g : Concrete → Exec H δ} {post : γ → δ → EvalState → Locals → Prop}
    (hx : Simulates V D P x p (Matches V) st)
    (hf : ∀ {a d st₁}, x st = (.ok a, st₁) → a.Holds d → Simulates V D P (f a) (g d) post st₁) :
    Simulates V D P (x >>= f) (p >>= g) post st :=
  bind hx Value.exists_holds hf

/-- A part without a result that matters first. -/
theorem inStep_bind [Nonempty β] {f : α → Eval γ} {g : β → Exec H δ}
    {post : γ → δ → EvalState → Locals → Prop} (hx : Simulates V D P x p (InStep V) st)
    (hf : ∀ {a y st₁}, x st = (.ok a, st₁) → Simulates V D P (f a) (g y) post st₁) :
    Simulates V D P (x >>= f) (p >>= g) post st := by
  obtain ⟨y⟩ := ‹Nonempty β›
  have hx' : Simulates V D P x p (fun a y st x => st.context.AgreesOn V x ∧ True) st :=
    hx.mono fun _ h => ⟨h, trivial⟩
  exact bind hx' (fun _ => ⟨y, trivial⟩) fun h _ => hf h

/-- A step of the evaluation alone. -/
theorem eval_bind {f : α → Eval γ} {q : Exec H δ} {post : γ → δ → EvalState → Locals → Prop}
    (hl : ∀ {a st₁}, x st = (.ok a, st₁) → st.Later st₁ ∧
      ∀ y, st.context.AgreesOn V y → st₁.context.AgreesOn V y)
    (hf : ∀ {a st₁}, x st = (.ok a, st₁) → Simulates V D P (f a) q post st₁) :
    Simulates V D P (x >>= f) q post st := by
  intro c st' h
  obtain ⟨a, st₁, h₁, h₂⟩ := Eval.bind_eq_ok.1 h
  obtain ⟨hlater, hagree⟩ := hl h₁
  obtain ⟨hl', hrun⟩ := hf h₁ h₂
  exact ⟨hlater.trans hl', fun m tr r m' hm hr => hrun (hagree _ hm) hr⟩

/-- A silent step of the run alone. -/
theorem run_bind {R : β → Prop} {y : Eval γ} {g : β → Exec H δ}
    {post : γ → δ → EvalState → Locals → Prop} (hp : p.Gives R)
    (hl : ∀ {c st'}, y st = (.ok c, st') → st.Later st')
    (hg : ∀ a, R a → Simulates V D P y (g a) post st) : Simulates V D P y (p >>= g) post st := by
  intro c st' h
  refine ⟨hl h, ?_⟩
  rintro m tr r m' hm (⟨h₁, h₂⟩ | h₁ | h₁)
  · obtain ⟨rfl, hx, ha⟩ := hp h₁
    exact (hg _ (ha _ rfl) h).2 (hx ▸ hm) h₂
  · obtain ⟨rfl, -⟩ := hp h₁
    exact ⟨by simp, fun y hy => nomatch hy⟩
  · obtain ⟨rfl, -⟩ := hp h₁
    exact ⟨by simp, fun y hy => nomatch hy⟩

/-- The same where every result leads on. -/
theorem silent_bind [Nonempty β] {y : Eval γ} {g : β → Exec H δ}
    {post : γ → δ → EvalState → Locals → Prop} (hp : p.Silent)
    (hg : ∀ a, Simulates V D P y (g a) post st) : Simulates V D P y (p >>= g) post st := by
  obtain ⟨a₀⟩ := ‹Nonempty β›
  exact run_bind hp (hg a₀).later fun a _ => hg a

theorem pure {a : α} {y : β} (h : ∀ x, st.context.AgreesOn V x → post a y st x) :
    Simulates V D P (Pure.pure a) (Pure.pure y : Exec H β) post st := by
  intro a' st' hx
  obtain ⟨rfl, rfl⟩ := Eval.pure_eq_ok.1 hx
  refine ⟨.refl _, ?_⟩
  rintro m tr r m' hm ⟨⟩
  refine ⟨by simp, ?_⟩
  rintro y' ⟨⟩
  exact h m.locals hm

/-- A silent end of the run alone. -/
theorem bind_gives {R : β → δ → Prop} {g : β → Exec H δ}
    {post' : α → δ → EvalState → Locals → Prop} (h : Simulates V D P x p post st)
    (hg : ∀ y, (g y).Gives (R y))
    (hpost : ∀ {a y z st x}, post a y st x → R y z → post' a z st x) :
    Simulates V D P x (p >>= g) post' st := by
  intro a st' hx
  obtain ⟨hl, hrun⟩ := h hx
  refine ⟨hl, ?_⟩
  rintro m tr r m' hm (⟨h₁, h₂⟩ | h₁ | h₁)
  · obtain ⟨hev, hp⟩ := hrun hm h₁
    obtain ⟨rfl, heq, hz⟩ := hg _ h₂
    refine ⟨by simpa using hev, fun z hd => ?_⟩
    rw [heq]
    exact hpost (hp _ rfl) (hz z hd)
  · exact ⟨(hrun hm h₁).1, fun y hy => nomatch hy⟩
  · exact ⟨(hrun hm h₁).1, fun y hy => nomatch hy⟩

theorem map {f : β → δ} {post' : α → δ → EvalState → Locals → Prop}
    (h : Simulates V D P x p post st)
    (hpost : ∀ {a y st x}, post a y st x → post' a (f y) st x) :
    Simulates V D P x (p >>= fun y => Pure.pure (f y)) post' st := by
  refine h.bind_gives (R := fun y z => z = f y) (fun _ => .pure rfl) ?_
  rintro a y _ st x hp rfl
  exact hpost hp

theorem hazardous (h : Simulates V D P x p post st) :
    Simulates V D P x (Run.hazardous p) post st := by
  refine silent_bind .hazard fun _ => h.bind_gives (R := fun y z => z = y) ?_ ?_
  · exact fun y => Exec.Gives.hazard.bind fun _ _ => .pure rfl
  · rintro a y _ st x hp rfl
    exact hp

/-- The value of a local on both sides. -/
theorem readLocal_bind {v : VarId} {f : Context → Eval γ} {g : Concrete → Exec H δ}
    {post : γ → δ → EvalState → Locals → Prop}
    (hv : V v)
    (h : ∀ {d}, (st.context.get v).Holds d → Simulates V D P (f st.context) (g d) post st) :
    Simulates V D P (Eval.context >>= f) (Exec.readLocal v >>= g) post st := by
  intro c st' hx
  obtain ⟨_, _, ⟨⟩, hf⟩ := Eval.bind_eq_ok.1 hx
  obtain ⟨d, hd⟩ := (st.context.get v).exists_holds
  refine ⟨(h hd).later hf, ?_⟩
  rintro m tr r m' hm (⟨h₁, h₂⟩ | h₁ | h₁)
  · obtain ⟨rfl, ⟨⟩, rfl⟩ := Exec.readLocal_iff.1 h₁
    exact (h (hm v hv) hf).2 hm h₂
  · exact nomatch (Exec.readLocal_iff.1 h₁).2.1
  · exact nomatch (Exec.readLocal_iff.1 h₁).2.1

/-- A local takes a value on both sides. -/
theorem writeLocal {v : VarId} {a : Value} {d : Concrete} (h : a.Holds d) :
    Simulates V D P (modify fun s => { s with context := s.context.bind v a })
      (Exec.writeLocal v d : Exec H Unit) (InStep V) st := by
  rintro _ st' ⟨⟩
  refine ⟨st.later_context _, fun m tr r m' hm hr => ?_⟩
  obtain ⟨rfl, -, rfl⟩ := Exec.writeLocal_iff.1 hr
  exact ⟨by simp, fun _ _ => hm.bind h⟩

/-- A value that is right for what a silent run gives. -/
theorem gives {a : Value} {q : Exec H Concrete} (hq : q.Gives a.Holds) :
    Simulates V D P (Pure.pure a) q (Matches V) st := by
  intro a' st' hx
  obtain ⟨rfl, rfl⟩ := Eval.pure_eq_ok.1 hx
  refine ⟨.refl _, fun m tr r m' hm hr => ?_⟩
  obtain ⟨rfl, hl, ha⟩ := hq hr
  exact ⟨by simp, fun d hd => ⟨hl ▸ hm, ha d hd⟩⟩

/-- Where a part may be skipped the run takes it. -/
theorem maybe (h : Simulates V D P x p (InStep V) st) :
    Simulates V D P (Eval.maybe x) p (InStep V) st := by
  rintro ⟨⟩ st' hx
  obtain ⟨a, st₁, h₁, rfl⟩ := Eval.maybe_eq_ok.1 hx
  obtain ⟨hl, hrun⟩ := h h₁
  refine ⟨hl.trans (st₁.later_context _), fun m tr r m' hm hr => ?_⟩
  obtain ⟨hev, hpost⟩ := hrun hm hr
  refine ⟨fun ev hmem => (st₁.later_context _).kept.admits (hev ev hmem), fun y hy => ?_⟩
  exact Context.AgreesOn.join_left (hpost y hy) _

/-- Where a part may be skipped the run skips it. -/
theorem maybe_skip (hl : ∀ {a st'}, x st = (.ok a, st') → st.Later st') {st' : EvalState}
    (hx : Eval.maybe x st = (.ok (), st')) :
    st.Later st' ∧ ∀ y, st.context.AgreesOn V y → st'.context.AgreesOn V y := by
  obtain ⟨a, st₁, h₁, rfl⟩ := Eval.maybe_eq_ok.1 hx
  exact ⟨(hl h₁).trans (st₁.later_context _), fun y hy => hy.join_right _⟩

section

variable {y : Eval α} {post' : α × α → β → EvalState → Locals → Prop}

/-- Of two ways the run goes the first. -/
theorem either_left (hx : Simulates V D P x p post st)
    (hy : ∀ {st c st'}, y st = (.ok c, st') → st.Later st')
    (hpost : ∀ {a c d st₁ st₂ x}, post a d st₁ x → st₁.Later st₂ →
      post' (a, c) d { st₂ with context := st₂.context.join st₁.context } x) :
    Simulates V D P (Eval.either x y) p post' st := by
  rintro ⟨a, c⟩ st' h
  obtain ⟨st₁, st₂, h₁, h₂, rfl⟩ := Eval.either_eq_ok.1 h
  obtain ⟨hl, hrun⟩ := hx h₁
  have hl₂ : st₁.Later st₂ := (st₁.later_context _).trans (hy h₂)
  have hl' := hl₂.trans (st₂.later_context (st₂.context.join st₁.context))
  refine ⟨hl.trans hl', fun m tr r m' hm hr => ?_⟩
  obtain ⟨hev, hp⟩ := hrun hm hr
  exact ⟨fun ev hmem => hl'.kept.admits (hev ev hmem), fun d hd => hpost (hp d hd) hl₂⟩

/-- Of two ways the run goes the second. -/
theorem either_right (hx : ∀ {a st'}, x st = (.ok a, st') → st.Later st')
    (hy : ∀ st, Simulates V D P y p post st)
    (hpost : ∀ {a c d e st₂ x}, post c d st₂ x →
      post' (a, c) d { st₂ with context := st₂.context.join e } x) :
    Simulates V D P (Eval.either x y) p post' st := by
  rintro ⟨a, c⟩ st' h
  obtain ⟨st₁, st₂, h₁, h₂, rfl⟩ := Eval.either_eq_ok.1 h
  obtain ⟨hl, hrun⟩ := hy _ h₂
  have hl₁ := (hx h₁).trans (st₁.later_context st.context)
  have hl₂ := st₂.later_context (st₂.context.join st₁.context)
  refine ⟨hl₁.trans (hl.trans hl₂), fun m tr r m' hm hr => ?_⟩
  obtain ⟨hev, hp⟩ := hrun hm hr
  exact ⟨fun ev hmem => hl₂.kept.admits (hev ev hmem), fun d hd => hpost (hp d hd)⟩

end

end Simulates

end

end Midend
