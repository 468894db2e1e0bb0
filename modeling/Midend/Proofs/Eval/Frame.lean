import Midend.Proofs.Eval.Closed

/-!
# What evaluation forgets

An evaluation only ever loses knowledge. Recorded values and the contexts of
`continue` statements are joined with later ones (`EvalState.Later`), and outside
the locals that it assigns an evaluation ends in a context that knows no more than
the one it started in (`Eval.Within`). Both hold of every expression and statement
(`Expr.eval_within`, `Stmt.eval_within`).
-/

namespace Midend

/-! ## Less known -/

namespace Context

variable {w : IdSet} {c d e : Context}

/-- Outside `w`, the context knows only what `d` knows. -/
def LeOff (w : IdSet) (c d : Context) : Prop :=
  ∀ v, v ∉ w → ∀ l, c.get v = .known l → d.get v = .known l

theorem LeOff.refl (w : IdSet) (c : Context) : c.LeOff w c := fun _ _ _ h => h

theorem LeOff.trans (h : c.LeOff w d) (h' : d.LeOff w e) : c.LeOff w e :=
  fun v hv l hl => h' v hv l (h v hv l hl)

/-- What a join knows, both of its sides know. -/
theorem get_of_join {v : VarId} {l : Literal} (h : (c.join d).get v = .known l) :
    c.get v = .known l ∧ d.get v = .known l := by
  rw [get_join, Value.join] at h
  split at h
  · next hi =>
    obtain ⟨heq, -⟩ := Value.identical_iff.1 hi
    exact ⟨h, heq ▸ h⟩
  · cases h

/-- A context joined with itself stays as it is. -/
theorem join_self (c : Context) : c.join c = c := by
  ext v
  rw [get_join, Value.join_self]

/-- A join knows no more than its first side. -/
theorem LeOff.join_left (h : c.LeOff w d) (e : Context) : (c.join e).LeOff w d :=
  fun v hv l hl => h v hv l (get_of_join hl).1

theorem LeOff.forget (h : c.LeOff w d) (vs : IdSet) : (c.forget vs).LeOff w d := by
  intro v hv l hl
  rw [get_forget] at hl
  split at hl
  · cases hl
  · exact h v hv l hl

theorem LeOff.bind (h : c.LeOff w d) {v : VarId} (hv : v ∈ w) (x : Value) :
    (c.bind v x).LeOff w d := by
  intro u hu l hl
  have hne : u ≠ v := fun heq => hu (heq ▸ hv)
  rw [get_bind, if_neg hne] at hl
  exact h u hu l hl

/-- The changes that a tree makes let no more be known off what it writes. -/
theorem LeOff.change (h : c.LeOff w d) {f : Context → Context}
    (hf : Change (· ∈ w) (·.LeOff w d) f) : (f c).LeOff w d := by
  cases hf with
  | goBack he => exact he
  | meet _ => exact h.join_left _
  | forget _ => exact h.forget _
  | bind hv x => exact h.bind hv x

end Context

/-- The second value is the first one or unknown. -/
def Value.Weakens (x y : Value) : Prop := ∀ l, y = .known l → x = .known l

/-- A join says no more than its first side. -/
theorem Value.weakens_join_left (x y : Value) : x.Weakens (x.join y) := by
  intro l h
  rw [join] at h
  split at h
  · exact h
  · cases h

/-- A join says no more than its second side. -/
theorem Value.weakens_join_right (x y : Value) : y.Weakens (x.join y) := by
  intro l h
  rw [join] at h
  split at h
  · next hi => exact (identical_iff.1 hi).1 ▸ h
  · cases h

/-! ## Later states -/

/-- What becomes of the contexts of `continue` statements: those of the innermost loop lose
knowledge, and those of the loops around it stay. -/
def ContinuesLater : List (Option Context) → List (Option Context) → Prop
  | [], cs => cs = []
  | x :: outer, cs => ∃ y, cs = y :: outer ∧ ∀ c, x = some c → ∃ d, y = some d ∧ d.LeOff ∅ c

theorem ContinuesLater.refl : ∀ cs, ContinuesLater cs cs
  | [] => rfl
  | x :: _ => ⟨x, rfl, fun c h => ⟨c, h, .refl ∅ c⟩⟩

theorem ContinuesLater.trans : ∀ {cs ds es : List (Option Context)},
    ContinuesLater cs ds → ContinuesLater ds es → ContinuesLater cs es
  | [], _, _, h, h' => by
    cases h
    exact h'
  | x :: outer, _, _, h, h' => by
    obtain ⟨y, rfl, hy⟩ := h
    obtain ⟨z, rfl, hz⟩ := h'
    refine ⟨z, rfl, fun c hc => ?_⟩
    obtain ⟨d, hd, hle⟩ := hy c hc
    obtain ⟨e, he, hle'⟩ := hz d hd
    exact ⟨e, he, hle'.trans hle⟩

namespace EvalState

/-- What the first state has recorded is still recorded in the second, or is unknown there. -/
def KeptBy (s t : EvalState) : Prop :=
  ∀ values, t.observed = some values → ∃ old, s.observed = some old ∧
    ∀ e x, old.get? e = some x → ∃ y, values.get? e = some y ∧ x.Weakens y

/-- The second state may be one that an evaluation reaches from the first. -/
structure Later (s t : EvalState) : Prop where
  kept : s.KeptBy t
  continues : ContinuesLater s.continues t.continues

variable {s t u : EvalState}

theorem KeptBy.refl (s : EvalState) : s.KeptBy s :=
  fun values h => ⟨values, h, fun _ x hx => ⟨x, hx, fun _ hl => hl⟩⟩

theorem KeptBy.trans (h : s.KeptBy t) (h' : t.KeptBy u) : s.KeptBy u := by
  intro values hv
  obtain ⟨mid, hm, hmid⟩ := h' values hv
  obtain ⟨old, ho, hold⟩ := h mid hm
  refine ⟨old, ho, fun e x hx => ?_⟩
  obtain ⟨y, hy, hxy⟩ := hold e x hx
  obtain ⟨z, hz, hyz⟩ := hmid e y hy
  exact ⟨z, hz, fun l hl => hxy l (hyz l hl)⟩

theorem Later.refl (s : EvalState) : s.Later s := ⟨.refl s, .refl _⟩

theorem Later.trans (h : s.Later t) (h' : t.Later u) : s.Later u :=
  ⟨h.kept.trans h'.kept, h.continues.trans h'.continues⟩

/-- The context plays no part. -/
theorem later_context (s : EvalState) (c : Context) : s.Later { s with context := c } :=
  ⟨.refl s, .refl _⟩

theorem later_report (s : EvalState) (d : Diagnostic) : s.Later (s.report d) :=
  ⟨.refl s, .refl _⟩

/-- Recording one more value lets every record know no more than before. -/
theorem later_observe (s : EvalState) (e : ExprId) (x : Value) : s.Later (s.observe e x) := by
  unfold observe
  cases hs : s.observed with
  | none => exact .refl s
  | some old =>
    refine ⟨fun values hv => ⟨old, hs, fun e' y hy => ?_⟩, .refl _⟩
    obtain rfl : _ = values := Option.some.inj hv
    rw [IdMap.get?_insert]
    split
    · next heq =>
      subst heq
      rw [hy]
      exact ⟨_, rfl, Value.weakens_join_left y x⟩
    · exact ⟨y, hy, fun _ hl => hl⟩

/-- Recording changes no context. -/
@[simp] theorem context_observe (s : EvalState) (e : ExprId) (x : Value) :
    (s.observe e x).context = s.context := by
  unfold observe
  split <;> rfl

/-- Recording changes no stack. -/
@[simp] theorem continues_observe (s : EvalState) (e : ExprId) (x : Value) :
    (s.observe e x).continues = s.continues := by
  unfold observe
  split <;> rfl

/-- A `continue` changes no context. -/
@[simp] theorem context_continueLoop (s : EvalState) : s.continueLoop.context = s.context := by
  unfold continueLoop
  split <;> rfl

/-- A `continue` lets the innermost loop know no more than before. -/
theorem later_continueLoop (s : EvalState) : s.Later s.continueLoop := by
  unfold continueLoop
  split
  · exact .refl s
  · next outer h =>
    refine ⟨.refl s, ?_⟩
    rw [h]
    exact ⟨_, rfl, fun c hc => nomatch hc⟩
  · next d outer h =>
    refine ⟨.refl s, ?_⟩
    rw [h]
    refine ⟨_, rfl, fun c hc => ?_⟩
    cases hc
    exact ⟨_, rfl, (Context.LeOff.refl ∅ d).join_left _⟩

end EvalState

/-! ## Evaluations -/

namespace Eval

variable {α β : Type} {w : IdSet} {c : Context}

/-- The evaluation reaches a later state and, outside `w`, stays below `c` if it starts there. -/
def Within (w : IdSet) (c : Context) (x : Eval α) : Prop :=
  ∀ ⦃st a st'⦄, x st = (.ok a, st') → st.context.LeOff w c →
    st.Later st' ∧ st'.context.LeOff w c

namespace Within

variable {x y : Eval α}

theorem pure {a : α} : Within w c (Pure.pure a : Eval α) := by
  intro st a' st' h hc
  obtain ⟨-, rfl⟩ := pure_eq_ok.1 h
  exact ⟨.refl _, hc⟩

theorem bind {f : α → Eval β} (hx : Within w c x) (hf : ∀ a, Within w c (f a)) :
    Within w c (x >>= f) := by
  intro st a st' h hc
  obtain ⟨a, st₁, h₁, h₂⟩ := bind_eq_ok.1 h
  obtain ⟨hl, hc⟩ := hx h₁ hc
  obtain ⟨hl', hc⟩ := hf a h₂ hc
  exact ⟨hl.trans hl', hc⟩

theorem fail {f : Fault} : Within w c (Eval.fail f : Eval α) :=
  fun _ _ _ h => absurd h not_fail_eq_ok

theorem locate {span : Span} (hx : Within w c x) : Within w c (Eval.locate span x) :=
  fun _ _ _ h => hx (locate_eq_ok.1 h)

theorem context_bind {f : Context → Eval α} (hf : ∀ d, d.LeOff w c → Within w c (f d)) :
    Within w c (Eval.context >>= f) := by
  intro st a st' h hc
  obtain ⟨d, st₁, ⟨⟩, h₂⟩ := bind_eq_ok.1 h
  exact hf _ hc h₂ hc

/-- A change that the tree may make is within what it writes. -/
theorem change {f : Context → Context} (hf : Context.Change (· ∈ w) (·.LeOff w c) f) :
    Within w c (modify fun s => { s with context := f s.context } : Eval Unit) := by
  rintro st a st' ⟨⟩ hc
  exact ⟨st.later_context _, hc.change hf⟩

theorem ofModify {f : EvalState → EvalState} (hl : ∀ st : EvalState, st.Later (f st))
    (hc : ∀ st, (f st).context = st.context) : Within w c (modify f : Eval Unit) := by
  rintro st a st' ⟨⟩ h
  refine ⟨hl st, ?_⟩
  rw [hc]
  exact h

theorem observe (e : ExprId) (v : Value) : Within w c (Eval.observe e v) :=
  .ofModify (fun st => st.later_observe e v) fun st => st.context_observe e v

theorem warn (d : Diagnostic) : Within w c (Eval.warn d) :=
  .ofModify (fun st => st.later_report d) fun _ => rfl

theorem continueLoop : Within w c (modify EvalState.continueLoop : Eval Unit) :=
  .ofModify EvalState.later_continueLoop EvalState.context_continueLoop

/-- An iteration is within what its body writes. -/
theorem iteration {x : Eval Unit} (hx : Within w c x) : Within w c (Eval.iteration x) := by
  rintro st ⟨⟩ st' h hc
  obtain ⟨t, ht, rfl⟩ := iteration_eq_ok.1 h
  obtain ⟨hl, hc⟩ := hx ht hc
  obtain ⟨y, hy, -⟩ := hl.continues
  refine ⟨⟨hl.kept, ?_⟩, ?_⟩
  · change ContinuesLater st.continues t.continues.tail
    rw [hy]
    exact .refl _
  · change (endOf t.context t.continues).LeOff w c
    unfold endOf
    split
    · exact hc.join_left _
    · exact hc

variable (w c) in
/-- An evaluation is within the locals that its tree writes. -/
theorem treeClosed : TreeClosed w (·.LeOff w c) (Within w c) where
  pure _ := .pure
  fail _ := .fail
  bind := .bind
  context_bind := .context_bind
  change := .change
  warn _ := .warn _
  locate _ := .locate
  observe := .observe
  iteration := .iteration
  continueLoop := .continueLoop

end Within

end Eval

/-! ## Expressions and statements -/

variable {b : Body} {w : IdSet} {c : Context}

namespace Expr

/-- An expression changes only the locals that it writes. -/
theorem eval_within {depth : Nat} {e : Expr} (h : ∀ s ∈ e.subexprs, AssignsIn w s.kind) :
    (e.eval b depth).Within w c :=
  eval_closed (Eval.Within.treeClosed w c) depth h

theorem run_within {e : Expr} (hw : ∀ v ∈ e.written, v ∈ w) : (e.run b).Within w c :=
  run_closed (Eval.Within.treeClosed w c) hw

end Expr

namespace Stmt

/-- A statement changes only the locals that it writes. -/
theorem eval_within {s : Stmt} (h : ∀ t ∈ s.substmts, AssignsIn w t.kind) :
    (s.eval b).Within w c :=
  eval_closed (Eval.Within.treeClosed w c) h

/-- A layer changes only the locals that it writes. -/
theorem evalKind_within {whole : Stmt} {k : StmtKind Expr Stmt}
    (hwhole : ∀ v ∈ whole.written, v ∈ w) (hk : AssignsIn w k)
    (h : ∀ t ∈ substmtsOfKind k, AssignsIn w t.kind) :
    (evalKind b whole k).Within w c :=
  evalKind_closed (Eval.Within.treeClosed w c) hwhole hk h

theorem evalList_within {ss : List Stmt} (h : ∀ t ∈ substmtsOfList ss, AssignsIn w t.kind) :
    (evalList b ss).Within w c :=
  evalList_closed (Eval.Within.treeClosed w c) h

end Stmt

end Midend
