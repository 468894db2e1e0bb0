import Mathlib.Data.List.Forall2
import Midend.Proofs.Eval.Loops

/-!
# Knowing more

A context refines another if it has all its bindings. Evaluation is monotone: if
it succeeds from two contexts of which the first refines the second, the first
evaluation ends in a context that refines the other's, and every value that it
records is the one recorded by the other or is unknown there
(`Stmt.evalList_refines`).

The two evaluations take different ways. Where the first knows a condition, the
second may run both arms and join them, so it runs more than the first
(`Eval.Mono.either_left`, `Eval.Mono.maybe_skip`). What it runs in addition only
loses knowledge (`EvalState.Later`).
-/

namespace Midend

/-! ## Refinement -/

namespace Value

/-- An operation that does not know the result of an unknown value keeps the order. -/
theorem Weakens.map {x y : Value} (h : x.Weakens y) {f : Value → Value}
    (hf : f .unknown = .unknown) : (f x).Weakens (f y) := by
  cases y with
  | unknown =>
    rw [hf]
    exact fun _ hl => nomatch hl
  | known l =>
    rw [h l rfl]
    exact fun _ hl => hl

/-- The unknown value says less than any other. -/
theorem weakens_unknown (x : Value) : x.Weakens .unknown := fun _ h => nomatch h

/-- The join of values keeps the order of knowledge. -/
theorem Weakens.join {x y x' y' : Value} (h : x.Weakens x') (h' : y.Weakens y') :
    (x.join y).Weakens (x'.join y') := by
  intro l hl
  have hx : x = .known l := h l (weakens_join_left x' y' l hl)
  have hy : y = .known l := h' l (weakens_join_right x' y' l hl)
  rw [hx, hy, join_self]

theorem Weakens.trans {x y z : Value} (h : x.Weakens y) (h' : y.Weakens z) : x.Weakens z :=
  fun l hl => h l (h' l hl)

/-- A binary operator that knows less of its operands knows no more of its result. -/
theorem binary_weakens {op : BinOp} {x y x' y' r r' : Value} (hx : x.Weakens x')
    (hy : y.Weakens y') (h : binary op x y = .ok r) (h' : binary op x' y' = .ok r') :
    r.Weakens r' := by
  cases x' with
  | unknown =>
    obtain rfl : Value.unknown = r' := Except.ok.inj h'
    exact weakens_unknown r
  | known a =>
    cases y' with
    | unknown =>
      obtain rfl : Value.unknown = r' := Except.ok.inj h'
      exact weakens_unknown r
    | known c =>
      rw [hx a rfl, hy c rfl, h'] at h
      obtain rfl : r' = r := Except.ok.inj h
      exact fun _ hl => hl

/-- A unary operator that knows less of its operand knows no more of its result. -/
theorem unary_weakens {op : UnOp} {x x' r r' : Value} (hx : x.Weakens x')
    (h : unary op x = .ok r) (h' : unary op x' = .ok r') : r.Weakens r' := by
  cases x' with
  | unknown =>
    rw [unary] at h'
    split at h'
    · cases h'
    · obtain rfl : Value.unknown = r' := Except.ok.inj h'
      exact weakens_unknown r
  | known a =>
    rw [hx a rfl, h'] at h
    obtain rfl : r' = r := Except.ok.inj h
    exact fun _ hl => hl

end Value

namespace Context

variable {c d c' d' : Context}

/-- Every binding of `d` is a binding of `c`. -/
def Refines (c d : Context) : Prop := ∀ v l, d.get v = .known l → c.get v = .known l

theorem Refines.trans {e : Context} (h : c.Refines d) (h' : d.Refines e) : c.Refines e :=
  fun v l hl => h v l (h' v l hl)

theorem LeOff.refines (h : d.LeOff ∅ c) : c.Refines d :=
  fun v l hl => h v (IdSet.not_mem_empty v) l hl

/-- A join says no more than its right part. -/
theorem Refines.join_left (h : c.Refines d) (e : Context) : c.Refines (d.join e) :=
  fun v l hl => h v l (get_of_join hl).1

/-- A join says no more than its left part. -/
theorem Refines.join_right (h : c.Refines d) (e : Context) : c.Refines (e.join d) :=
  fun v l hl => h v l (get_of_join hl).2

/-- Joins of refining contexts refine. -/
theorem Refines.join (h : c.Refines d) (h' : c'.Refines d') : (c.join c').Refines (d.join d') := by
  intro v l hl
  obtain ⟨hd, hd'⟩ := get_of_join hl
  rw [get_join, h v l hd, h' v l hd', Value.join_self]

theorem Refines.forget (h : c.Refines d) (vs : IdSet) : (c.forget vs).Refines (d.forget vs) := by
  intro v l hl
  rw [get_forget] at hl ⊢
  split at hl
  · cases hl
  · next hv =>
    rw [if_neg hv]
    exact h v l hl

theorem Refines.bind (h : c.Refines d) {x y : Value} (hx : x.Weakens y) (v : VarId) :
    (c.bind v x).Refines (d.bind v y) := by
  intro w l hl
  rw [get_bind] at hl ⊢
  split at hl
  · next hw =>
    rw [if_pos hw]
    exact hx l hl
  · next hw =>
    rw [if_neg hw]
    exact h w l hl

end Context

/-- What the first evaluation knows at the `continue` statements of a loop refines what the second
does, which has met as many of them or more. -/
def ContinuesRefine (x y : Option Context) : Prop := ∀ c, x = some c → ∃ d, y = some d ∧ c.Refines d

/-- The join of a body's end with its `continue`s keeps the order of contexts. -/
theorem Context.Refines.endOf {c d : Context} (h : c.Refines d) :
    ∀ {cs ds : List (Option Context)}, List.Forall₂ ContinuesRefine cs ds →
      (Eval.endOf c cs).Refines (Eval.endOf d ds)
  | _, _, .nil => h
  | none :: _, none :: _, .cons _ _ => h
  | none :: _, some e :: _, .cons _ _ => h.join_left e
  | some e :: _, _, .cons he _ => by
    obtain ⟨e', rfl, hee⟩ := he e rfl
    exact h.join hee

namespace EvalState

/-- The first state knows more than the second in every respect. -/
structure Refines (s t : EvalState) : Prop where
  context : s.context.Refines t.context
  continues : List.Forall₂ ContinuesRefine s.continues t.continues
  recorded : ∀ m n, s.observed = some m → t.observed = some n →
    ∀ e x, m.get? e = some x → ∃ y, n.get? e = some y ∧ x.Weakens y

variable {s t u : EvalState}

theorem Refines.withContext (h : s.Refines t) {c d : Context} (hc : c.Refines d) :
    Refines { s with context := c } { t with context := d } :=
  ⟨hc, h.continues, h.recorded⟩

/-- More `continue`s can only make the weaker stack weaker. -/
theorem ContinuesLater.refine :
    ∀ {cs ds es : List (Option Context)}, List.Forall₂ ContinuesRefine cs ds →
      ContinuesLater ds es → List.Forall₂ ContinuesRefine cs es
  | _, _, _, .nil, h => by
    cases h
    exact .nil
  | _, _, _, .cons hx hcs, h => by
    obtain ⟨z, rfl, hz⟩ := h
    refine .cons (fun c hc => ?_) hcs
    obtain ⟨d, hd, hcd⟩ := hx c hc
    obtain ⟨e, he, hde⟩ := hz d hd
    exact ⟨e, he, hcd.trans hde.refines⟩

/-- What the second evaluation does in addition takes its state further down. -/
theorem Refines.later (h : s.Refines t) (hl : t.Later u) (hc : s.context.Refines u.context) :
    s.Refines u := by
  refine ⟨hc, ContinuesLater.refine h.continues hl.continues, fun m n hm hn e x hx => ?_⟩
  obtain ⟨old, ho, hold⟩ := hl.kept n hn
  obtain ⟨y, hy, hxy⟩ := h.recorded m old hm ho e x hx
  obtain ⟨z, hz, hyz⟩ := hold e y hy
  exact ⟨z, hz, hxy.trans hyz⟩

theorem Refines.observe (h : s.Refines t) (e : ExprId) {x y : Value} (hxy : x.Weakens y) :
    (s.observe e x).Refines (t.observe e y) := by
  refine ⟨by simpa using h.context, by simpa using h.continues, fun m n hm hn e' z hz => ?_⟩
  cases hs : s.observed with
  | none => simp [EvalState.observe, hs] at hm
  | some old =>
    cases ht : t.observed with
    | none => simp [EvalState.observe, ht] at hn
    | some old' =>
      simp only [EvalState.observe, hs, Option.some.injEq] at hm
      simp only [EvalState.observe, ht, Option.some.injEq] at hn
      subst hm hn
      have hold := h.recorded old old' hs ht e'
      rw [IdMap.get?_insert] at hz ⊢
      by_cases he : e' = e
      · subst he
        rw [if_pos rfl] at hz ⊢
        obtain rfl := Option.some.inj hz
        refine ⟨_, rfl, ?_⟩
        cases hm : old.get? e' with
        | none =>
          cases hn : old'.get? e' with
          | none => exact hxy
          | some y' => exact hxy.trans (Value.weakens_join_right y' y)
        | some x' =>
          obtain ⟨y', hy', hx'⟩ := hold x' hm
          rw [hy']
          exact hx'.join hxy
      · rw [if_neg he] at hz ⊢
        exact hold z hz

theorem Refines.continueLoop (h : s.Refines t) : s.continueLoop.Refines t.continueLoop := by
  have hcs := h.continues
  unfold EvalState.continueLoop
  cases hs : s.continues with
  | nil =>
    rw [hs] at hcs
    rw [List.forall₂_nil_left_iff.1 hcs]
    exact h
  | cons x outer =>
    rw [hs] at hcs
    obtain ⟨y, outer', hxy, hout, ht⟩ := List.forall₂_cons_left_iff.1 hcs
    rw [ht]
    refine ⟨?_, ?_, ?_⟩
    · cases x <;> cases y <;> exact h.context
    · cases x with
      | none =>
        cases y with
        | none => exact .cons (fun c hc => ⟨_, rfl, Option.some.inj hc ▸ h.context⟩) hout
        | some d =>
          refine .cons (fun c hc => ⟨_, rfl, ?_⟩) hout
          exact Option.some.inj hc ▸ h.context.join_right d
      | some c =>
        obtain ⟨d, rfl, hcd⟩ := hxy c rfl
        exact .cons (fun e he => ⟨_, rfl, Option.some.inj he ▸ hcd.join h.context⟩) hout
    · cases x <;> cases y <;> exact h.recorded

end EvalState

/-! ## Two evaluations -/

namespace Eval

variable {α β γ δ : Type} {R : α → β → Prop} {Q : γ → δ → Prop}

/-- If both evaluations succeed and the first starts in a state that knows more, it ends in one that
knows more, and `R` relates the results. -/
def Mono (R : α → β → Prop) (x : Eval α) (y : Eval β) : Prop :=
  ∀ ⦃s t a c s' t'⦄, s.Refines t → x s = (.ok a, s') → y t = (.ok c, t') → s'.Refines t' ∧ R a c

/-- The evaluation reaches a later state. -/
def Grows (x : Eval α) : Prop := ∀ ⦃s a s'⦄, x s = (.ok a, s') → s.Later s'

namespace Mono

theorem pure {a : α} {c : β} (h : R a c) :
    Mono R (Pure.pure a : Eval α) (Pure.pure c : Eval β) := by
  intro s t a' c' s' t' hst hx hy
  obtain ⟨rfl, rfl⟩ := pure_eq_ok.1 hx
  obtain ⟨rfl, rfl⟩ := pure_eq_ok.1 hy
  exact ⟨hst, h⟩

theorem bind {x : Eval α} {y : Eval β} {f : α → Eval γ} {g : β → Eval δ} (hx : Mono R x y)
    (hf : ∀ a c, R a c → Mono Q (f a) (g c)) : Mono Q (x >>= f) (y >>= g) := by
  intro s t a c s' t' hst h h'
  obtain ⟨a₁, s₁, h₁, h₂⟩ := bind_eq_ok.1 h
  obtain ⟨c₁, t₁, h₁', h₂'⟩ := bind_eq_ok.1 h'
  obtain ⟨hst₁, hr⟩ := hx hst h₁ h₁'
  exact hf a₁ c₁ hr hst₁ h₂ h₂'

/-- Only the second evaluation goes on. -/
theorem bind_right {x : Eval α} {y : Eval β} {g : β → Eval δ} {Q : α → δ → Prop} (hx : Mono R x y)
    (hg : ∀ a c, R a c → Mono Q (Pure.pure a) (g c)) : Mono Q x (y >>= g) := by
  intro s t a c s' t' hst h h'
  obtain ⟨c₁, t₁, h₁', h₂'⟩ := bind_eq_ok.1 h'
  obtain ⟨hst₁, hr⟩ := hx hst h h₁'
  exact hg a c₁ hr hst₁ rfl h₂'

/-- A faulty evaluation on the left is excluded, so nothing is to be shown. -/
theorem fail_left {f : Fault} {y : Eval β} : Mono R (Eval.fail f : Eval α) y :=
  fun _ _ _ _ _ _ _ h _ => absurd h not_fail_eq_ok

theorem fail_right {f : Fault} {x : Eval α} : Mono R x (Eval.fail f : Eval β) :=
  fun _ _ _ _ _ _ _ _ h => absurd h not_fail_eq_ok

theorem ofExcept {r : Except Fault α} {q : Except Fault β}
    (h : ∀ a c, r = .ok a → q = .ok c → R a c) : Mono R (Eval.ofExcept r) (Eval.ofExcept q) := by
  cases r with
  | error f => exact .fail_left
  | ok a =>
    cases q with
    | error f => exact .fail_right
    | ok c => exact .pure (h a c rfl rfl)

theorem locate {span span' : Span} {x : Eval α} {y : Eval β} (h : Mono R x y) :
    Mono R (Eval.locate span x) (Eval.locate span' y) :=
  fun _ _ _ _ _ _ hst hx hy => h hst (locate_eq_ok.1 hx) (locate_eq_ok.1 hy)

/-- A step that only changes the state. -/
theorem ofModify {f g : EvalState → EvalState} (h : ∀ s t, s.Refines t → (f s).Refines (g t)) :
    Mono (fun _ _ => True) (modify f : Eval Unit) (modify g : Eval Unit) := by
  rintro s t a c s' t' hst ⟨⟩ ⟨⟩
  exact ⟨h s t hst, trivial⟩

theorem context_bind {f : Context → Eval α} {g : Context → Eval β}
    (h : ∀ c d, c.Refines d → Mono R (f c) (g d)) :
    Mono R (Eval.context >>= f) (Eval.context >>= g) := by
  intro s t a c s' t' hst hx hy
  obtain ⟨_, _, ⟨⟩, hx⟩ := bind_eq_ok.1 hx
  obtain ⟨_, _, ⟨⟩, hy⟩ := bind_eq_ok.1 hy
  exact h _ _ hst.context hst hx hy

theorem setContext {c d : Context} (h : c.Refines d) :
    Mono (fun _ _ => True) (Eval.setContext c) (Eval.setContext d) :=
  .ofModify fun _ _ hst => hst.withContext h

theorem forget (vs : IdSet) : Mono (fun _ _ => True) (Eval.forget vs) (Eval.forget vs) :=
  .ofModify fun _ _ hst => hst.withContext (hst.context.forget vs)

theorem observe (e : ExprId) {x y : Value} (h : x.Weakens y) :
    Mono (fun _ _ => True) (Eval.observe e x) (Eval.observe e y) :=
  .ofModify fun _ _ hst => hst.observe e h

theorem continueLoop : Mono (fun _ _ => True) (modify EvalState.continueLoop : Eval Unit)
    (modify EvalState.continueLoop : Eval Unit) :=
  .ofModify fun _ _ hst => hst.continueLoop

section

variable {x : Eval α} {y : Eval β}

/-! Both evaluations may skip the step, or only the second does not know whether it is skipped. -/

/-- Two evaluations that are joined with the state before them. -/
theorem maybe (h : Mono R x y) : Mono (fun _ _ => True) (Eval.maybe x) (Eval.maybe y) := by
  intro s t a c s' t' hst hx hy
  obtain ⟨_, s₁, hx₁, rfl⟩ := maybe_eq_ok.1 hx
  obtain ⟨_, t₁, hy₁, rfl⟩ := maybe_eq_ok.1 hy
  obtain ⟨hst₁, -⟩ := h hst hx₁ hy₁
  exact ⟨hst₁.withContext (hst₁.context.join hst.context), trivial⟩

/-- The left side runs what the right side may skip. -/
theorem maybe_run (h : Mono R x y) : Mono (fun _ _ => True) x (Eval.maybe y) := by
  intro s t a c s' t' hst hx hy
  obtain ⟨_, t₁, hy₁, rfl⟩ := maybe_eq_ok.1 hy
  obtain ⟨hst₁, -⟩ := h hst hx hy₁
  exact ⟨hst₁.withContext (hst₁.context.join_left t.context), trivial⟩

/-- The left side skips what the right side may run. -/
theorem maybe_skip (hy : Grows y) {a : α} :
    Mono (fun _ _ => True) (Pure.pure a : Eval α) (Eval.maybe y) := by
  intro s t a c s' t' hst hx h
  obtain ⟨-, rfl⟩ := pure_eq_ok.1 hx
  obtain ⟨_, t₁, h₁, rfl⟩ := maybe_eq_ok.1 h
  refine ⟨hst.later ((hy h₁).trans (t₁.later_context _)) ?_, trivial⟩
  exact hst.context.join_right t₁.context

end

section

variable {x x' : Eval α} {y y' : Eval β}

/-! Both evaluations run both arms, or only the second does not know which one it is. -/

theorem either (h : Mono R x y) (h' : Mono R x' y') :
    Mono (fun a c => R a.1 c.1 ∧ R a.2 c.2) (Eval.either x x') (Eval.either y y') := by
  rintro s t ⟨a, a'⟩ ⟨c, c'⟩ s' t' hst hx hy
  obtain ⟨s₁, s₂, hx₁, hx₂, rfl⟩ := either_eq_ok.1 hx
  obtain ⟨t₁, t₂, hy₁, hy₂, rfl⟩ := either_eq_ok.1 hy
  obtain ⟨hst₁, hr⟩ := h hst hx₁ hy₁
  obtain ⟨hst₂, hr'⟩ := h' (hst₁.withContext hst.context) hx₂ hy₂
  exact ⟨hst₂.withContext (hst₂.context.join hst₁.context), hr, hr'⟩

/-- The left side has chosen the first arm. -/
theorem either_left (h : Mono R x y) (hy' : Grows y') :
    Mono (fun a c => R a c.1) x (Eval.either y y') := by
  rintro s t a ⟨c, c'⟩ s' t' hst hx hy
  obtain ⟨t₁, t₂, hy₁, hy₂, rfl⟩ := either_eq_ok.1 hy
  obtain ⟨hst₁, hr⟩ := h hst hx hy₁
  have hl : t₁.Later { t₂ with context := t₂.context.join t₁.context } :=
    (t₁.later_context t.context).trans ((hy' hy₂).trans (t₂.later_context _))
  exact ⟨hst₁.later hl (hst₁.context.join_right t₂.context), hr⟩

/-- The left side has chosen the second arm. -/
theorem either_right (hy : Grows y) (h : Mono R x y') :
    Mono (fun a c => R a c.2) x (Eval.either y y') := by
  rintro s t a ⟨c, c'⟩ s' t' hst hx hy'
  obtain ⟨t₁, t₂, hy₁, hy₂, rfl⟩ := either_eq_ok.1 hy'
  have hstart : s.Refines { t₁ with context := t.context } :=
    hst.later ((hy hy₁).trans (t₁.later_context t.context)) hst.context
  obtain ⟨hst₂, hr⟩ := h hstart hx hy₂
  exact ⟨hst₂.withContext (hst₂.context.join_left t₁.context), hr⟩

end

/-- One iteration is monotone when the loop's body is. -/
theorem iteration {x y : Eval Unit} (h : Mono (fun _ _ => True) x y) :
    Mono (fun _ _ => True) (Eval.iteration x) (Eval.iteration y) := by
  rintro s t ⟨⟩ ⟨⟩ s' t' hst hx hy
  obtain ⟨s₁, hx₁, rfl⟩ := iteration_eq_ok.1 hx
  obtain ⟨t₁, hy₁, rfl⟩ := iteration_eq_ok.1 hy
  have hstart : EvalState.Refines { s with continues := none :: s.continues }
      { t with continues := none :: t.continues } :=
    ⟨hst.context, .cons (fun _ hc => nomatch hc) hst.continues, hst.recorded⟩
  obtain ⟨hst₁, -⟩ := h hstart hx₁ hy₁
  refine ⟨⟨hst₁.context.endOf hst₁.continues, ?_, hst₁.recorded⟩, trivial⟩
  simpa using List.forall₂_drop 1 hst₁.continues

/-- Storing weaker knowledge in a local stays weaker after the conversion to its type. -/
theorem assignLocal (b : Body) (v : VarId) {x y : Value} (h : x.Weakens y) :
    Mono Value.Weakens (Eval.assignLocal b v x) (Eval.assignLocal b v y) := by
  unfold Eval.assignLocal
  cases primOf (b.varTy v) with
  | none =>
    exact (ofModify fun _ _ hst => hst.withContext (hst.context.bind h v)).bind
      fun _ _ _ => .pure h
  | some p =>
    have hp : (x.convert p).Weakens (y.convert p) := h.map (f := (·.convert p)) rfl
    exact (ofModify fun _ _ hst => hst.withContext (hst.context.bind hp v)).bind
      fun _ _ _ => .pure hp

/-- Two checks that need not agree, with one goal for each way they can come out. -/
theorem ite_both {p q : Prop} [Decidable p] [Decidable q] {x x' : Eval α} {y y' : Eval β}
    (h₁ : p → q → Mono R x y) (h₂ : p → ¬q → Mono R x y') (h₃ : ¬p → q → Mono R x' y)
    (h₄ : ¬p → ¬q → Mono R x' y') : Mono R (if p then x else x') (if q then y else y') := by
  by_cases hp : p <;> by_cases hq : q
  · simpa [hp, hq] using h₁ hp hq
  · simpa [hp, hq] using h₂ hp hq
  · simpa [hp, hq] using h₃ hp hq
  · simpa [hp, hq] using h₄ hp hq

/-- A step of a local is monotone. -/
theorem step (b : Body) (st : Step) (v : VarId) :
    Mono Value.Weakens (Eval.step b st v) (Eval.step b st v) := by
  refine .context_bind fun c d hcd => ?_
  have hold : (c.get v).Weakens (d.get v) := hcd v
  refine .ite_both (fun _ _ => .fail_left) (fun _ _ => .fail_left) (fun _ _ => .fail_right) ?_
  intro _ _
  refine (ofExcept fun x y hx hy => Value.binary_weakens hold (fun _ hl => hl) hx hy).bind
    fun x y hxy => (assignLocal b v hxy).bind fun x' y' hxy' => .pure ?_
  split
  · exact hold
  · exact hxy'

/-- A warning of the left side changes nothing the order sees. -/
theorem warn_left {d : Diagnostic} {x : Eval α} {y : Eval β} (h : Mono R x y) :
    Mono R (Eval.warn d >>= fun _ => x) y := by
  intro s t a c s' t' hst hx hy
  obtain ⟨_, _, ⟨⟩, hx⟩ := bind_eq_ok.1 hx
  have hst' : (s.report d).Refines t := ⟨hst.context, hst.continues, hst.recorded⟩
  exact h hst' hx hy

theorem warn_right {d : Diagnostic} {x : Eval α} {y : Eval β} (h : Mono R x y) :
    Mono R x (Eval.warn d >>= fun _ => y) := by
  intro s t a c s' t' hst hx hy
  obtain ⟨_, _, ⟨⟩, hy⟩ := bind_eq_ok.1 hy
  have hst' : s.Refines (t.report d) := ⟨hst.context, hst.continues, hst.recorded⟩
  exact h hst' hx hy

/-- An operator with its fault located is monotone. -/
theorem binary {op : BinOp} {span : Span} {x y x' y' : Value} (hx : x.Weakens x')
    (hy : y.Weakens y') :
    Mono Value.Weakens (Eval.binary op span x y) (Eval.binary op span x' y') := by
  have h : Mono Value.Weakens (Eval.ofExcept (Value.binary op x y))
      (Eval.ofExcept (Value.binary op x' y')) :=
    .ofExcept fun r r' hr hr' => Value.binary_weakens hx hy hr hr'
  unfold Eval.binary
  cases op with
  | equality negated =>
    exact .ite_both (fun _ _ => .warn_left (.warn_right h)) (fun _ _ => .warn_left h)
      (fun _ _ => .warn_right h) fun _ _ => h
  | _ => exact h

end Mono

end Eval

/-! ## Expressions -/

namespace Expr

variable {b : Body}

open Eval

/-- Evaluating an expression only adds to the state. -/
theorem eval_grows (e : Expr) (depth : Nat) : Grows (e.eval b depth) := fun _ _ _ h => eval_later h

mutual

theorem eval_mono (depth : Nat) : ∀ e : Expr, Mono Value.Weakens (e.eval b depth) (e.eval b depth)
  | node id kind => by
    rw [eval]
    refine .locate (.ite_both (fun _ _ => .fail_left) (fun _ _ => .fail_left)
      (fun _ _ => .fail_right) fun _ _ => ?_)
    refine (evalKind_mono (depth + 1) id kind).bind fun x y hxy => ?_
    exact (Mono.observe id hxy).bind fun _ _ _ => .pure hxy

/-- One case for each form of expression; a known condition on one side meets a join on the other.
-/
theorem evalKind_mono (depth : Nat) (id : ExprId) :
    ∀ k : ExprKind Expr, Mono Value.Weakens (evalKind b depth id k) (evalKind b depth id k)
  | .lit _ => .pure fun _ hl => hl
  | .var v => .context_bind fun _ _ hcd => .pure (hcd v)
  | .paren inner => eval_mono depth inner
  | .assign target op value => by
    have hv := eval_mono depth value
    cases hl : target.localTarget? with
    | none =>
      simp only [evalKind, hl]
      exact (evalPlace_mono depth target).bind fun _ _ _ => hv.bind fun _ _ _ =>
        .pure fun _ hl => hl
    | some v =>
      cases op with
      | none =>
        simp only [evalKind, hl]
        exact hv.bind fun _ _ hxy => .assignLocal b v hxy
      | some op =>
        simp only [evalKind, hl]
        refine .context_bind fun c d hcd => hv.bind fun x y hxy => ?_
        exact (Mono.ofExcept fun _ _ => Value.binary_weakens (hcd v) hxy).bind
          fun _ _ hr => .assignLocal b v hr
  | .binary l (.logic op) r => by
    have hr := eval_mono depth r
    refine (eval_mono depth l).bind fun x y hxy => ?_
    cases y with
    | known a =>
      rw [hxy a rfl]
      refine .ite_both (fun _ _ => .pure fun _ hl => hl) (fun h h' => absurd h h')
        (fun h h' => absurd h' h) fun _ _ => hr.bind fun _ _ hrs => ?_
      exact .ofExcept fun _ _ => Value.binary_weakens (fun _ hl => hl) hrs
    | unknown =>
      cases x with
      | unknown => exact hr.maybe.bind fun _ _ _ => .pure fun _ hl => hl
      | known a =>
        change Mono _ (if a = Literal.bool op.deciding then _ else _) (Eval.maybe _ >>= fun _ => _)
        split
        · exact (Mono.maybe_skip (eval_grows r depth)).bind_right fun _ _ _ =>
            .pure (Value.weakens_unknown _)
        · refine hr.maybe_run.bind fun _ _ _ => ?_
          exact Mono.ofExcept (q := .ok Value.unknown) fun _ _ _ hq =>
            Except.ok.inj hq ▸ Value.weakens_unknown _
  | .binary l (.arith _) r | .binary l (.shift _) r | .binary l (.bits _) r
  | .binary l (.order _) r | .binary l (.equality _) r =>
    (eval_mono depth l).bind fun _ _ hl => (eval_mono depth r).bind fun _ _ hr => .binary hl hr
  | .unary (.step st) operand => by
    cases hl : operand.localTarget? with
    | none =>
      simp only [evalKind, hl]
      exact (evalPlace_mono depth operand).bind fun _ _ _ => .pure fun _ hl => hl
    | some v =>
      simp only [evalKind, hl]
      exact .step b st v
  | .unary .not e | .unary .neg e | .unary .plus e | .unary .bitNot e =>
    (eval_mono depth e).bind fun _ _ hx => .ofExcept fun _ _ => Value.unary_weakens hx
  | .conditional c t f => by
    have ht := eval_mono depth t
    have hf := eval_mono depth f
    have hp : ∀ {x y : Value}, x.Weakens y → Value.Weakens
        (x.asConditional ((node id (.conditional c t f)).staticTy b.varTy))
        (y.asConditional ((node id (.conditional c t f)).staticTy b.varTy)) :=
      fun h => h.map (Value.asConditional_unknown _)
    refine (eval_mono depth c).bind fun x y hxy => ?_
    cases y with
    | known l =>
      rw [hxy l rfl]
      cases l with
      | bool v =>
        cases v with
        | true => exact ht.bind fun _ _ h => .pure (hp h)
        | false => exact hf.bind fun _ _ h => .pure (hp h)
      | _ => exact .fail_left
    | unknown =>
      cases x with
      | unknown => exact (ht.either hf).bind fun _ _ h => .pure (hp (h.1.join h.2))
      | known l =>
        cases l with
        | bool v =>
          cases v with
          | true =>
            refine (ht.either_left (eval_grows f depth)).bind fun _ r h => .pure (hp ?_)
            exact h.trans (Value.weakens_join_left r.1 r.2)
          | false =>
            refine (Mono.either_right (eval_grows t depth) hf).bind fun _ r h => .pure (hp ?_)
            exact h.trans (Value.weakens_join_right r.1 r.2)
        | _ => exact .fail_left
  | .field none .. | .err => .pure fun _ hl => hl
  | .field (some e) .. | .cast _ e | .instanceOf e _ =>
    (eval_mono depth e).bind fun _ _ _ => .pure fun _ hl => hl
  | .index a i =>
    (eval_mono depth a).bind fun _ _ _ => (eval_mono depth i).bind fun _ _ _ => .pure fun _ hl => hl
  | .call none _ args | .create _ args =>
    (evalList_mono depth args).bind fun _ _ _ => .pure fun _ hl => hl
  | .call (some e) _ args =>
    (eval_mono depth e).bind fun _ _ _ => (evalList_mono depth args).bind fun _ _ _ =>
      .pure fun _ hl => hl

/-- The parts of an assignment target are evaluated monotonically. -/
theorem evalPlace_mono (depth : Nat) :
    ∀ e : Expr, Mono (fun _ _ => True) (e.evalPlace b depth) (e.evalPlace b depth)
  | node _ kind => by
    cases kind with
    | paren inner =>
      rw [evalPlace]
      exact evalPlace_mono depth inner
    | field receiver name isStatic =>
      cases receiver with
      | none => exact .pure trivial
      | some e => exact (eval_mono depth e).bind fun _ _ _ => .pure trivial
    | index a i =>
      exact (eval_mono depth a).bind fun _ _ _ => (eval_mono depth i).bind fun _ _ _ =>
        .pure trivial
    | _ => exact .fail_left

theorem evalList_mono (depth : Nat) :
    ∀ es : List Expr, Mono (fun _ _ => True) (evalList b depth es) (evalList b depth es)
  | [] => .pure trivial
  | e :: es => (eval_mono depth e).bind fun _ _ _ => evalList_mono depth es

end

theorem run_mono (e : Expr) : Mono (fun _ _ => True) (e.run b) (e.run b) :=
  (eval_mono 0 e).bind fun _ _ _ => .pure trivial

theorem runOption_mono :
    ∀ e : Option Expr, Mono (fun _ _ => True) (runOption b e) (runOption b e)
  | none => .pure trivial
  | some e => e.run_mono

end Expr

/-! ## Statements -/

namespace Stmt

variable {b : Body}

open Eval

mutual

theorem eval_mono : ∀ s : Stmt, Mono (fun _ _ => True) (s.eval b) (s.eval b)
  | node id kind => .locate (evalKind_mono (node id kind) kind)

/-- One case for each form of statement. -/
theorem evalKind_mono (whole : Stmt) :
    ∀ k : StmtKind Expr Stmt,
      Mono (fun _ _ => True) (evalKind b whole k) (evalKind b whole k)
  | .decl v none => (Mono.assignLocal b v fun _ hl => hl).bind fun _ _ _ => .pure trivial
  | .decl v (some e) =>
    (e.eval_mono 0).bind fun _ _ h => (Mono.assignLocal b v h).bind fun _ _ _ => .pure trivial
  | .expr e | .throw e => e.run_mono
  | .ret e => Expr.runOption_mono e
  | .block body => evalList_mono body
  | .branch c t f => by
    have ht := eval_mono t
    have hf := evalOption_mono f
    have hgt : Grows (t.eval b) := fun _ _ _ h => eval_later h
    have hgf : Grows (evalOption b f) := fun _ _ _ h => evalOption_later h
    refine (c.eval_mono 0).bind fun x y hxy => ?_
    cases y with
    | known l =>
      rw [hxy l rfl]
      cases l with
      | bool v =>
        cases v with
        | true => exact ht
        | false => exact hf
      | _ => exact .fail_left
    | unknown =>
      cases x with
      | unknown => exact (ht.either hf).bind fun _ _ _ => .pure trivial
      | known l =>
        cases l with
        | bool v =>
          cases v with
          | true => exact (ht.either_left hgf).bind_right fun _ _ _ => .pure trivial
          | false => exact (Mono.either_right hgt hf).bind_right fun _ _ _ => .pure trivial
        | _ => exact .fail_left
  | .assert c message => by
    refine .maybe (R := fun _ _ => True) ((c.run_mono).bind fun _ _ _ => ?_)
    refine .context_bind fun _ _ hcd => ?_
    exact (Expr.runOption_mono message).bind fun _ _ _ => .setContext hcd
  | .whileLoop c body =>
    (Mono.forget _).bind fun _ _ _ => (c.run_mono).bind fun _ _ _ =>
      (eval_mono body).iteration.bind fun _ _ _ => .forget _
  | .doLoop body c =>
    (Mono.forget _).bind fun _ _ _ => (eval_mono body).iteration.bind fun _ _ _ =>
      (c.run_mono).bind fun _ _ _ => .forget _
  | .forLoop init c update body =>
    (evalList_mono init).bind fun _ _ _ => (Mono.forget _).bind fun _ _ _ =>
      (Expr.runOption_mono c).bind fun _ _ _ => (eval_mono body).iteration.bind fun _ _ _ =>
        (Expr.evalList_mono 0 update).bind fun _ _ _ => .forget _
  | .forEach _ e body =>
    (e.run_mono).bind fun _ _ _ => (Mono.forget _).bind fun _ _ _ =>
      (eval_mono body).iteration.bind fun _ _ _ => .forget _
  | .switch e cases =>
    (e.run_mono).bind fun _ _ _ => (Mono.forget _).bind fun _ _ _ =>
      .context_bind fun _ _ hcd => (evalCases_mono hcd cases).bind fun _ _ _ => .setContext hcd
  | .guarded resources body catches none => by
    refine (Mono.forget _).bind fun _ _ _ => .context_bind fun _ _ hcd => ?_
    refine (evalList_mono resources).bind fun _ _ _ => (evalList_mono body).bind fun _ _ _ => ?_
    exact (evalCatches_mono hcd catches).bind fun _ _ _ => .setContext hcd
  | .guarded resources body catches (some finalizer) => by
    refine (Mono.forget _).bind fun _ _ _ => .context_bind fun _ _ hcd => ?_
    refine (evalList_mono resources).bind fun _ _ _ => (evalList_mono body).bind fun _ _ _ => ?_
    refine (evalCatches_mono hcd catches).bind fun _ _ _ => ?_
    refine (Mono.setContext hcd).bind fun _ _ _ => ?_
    exact (evalList_mono finalizer).bind fun _ _ _ => .setContext hcd
  | .continueLoop => .continueLoop
  | .breakOut | .empty | .err => .pure trivial

theorem evalOption_mono :
    ∀ s : Option Stmt, Mono (fun _ _ => True) (evalOption b s) (evalOption b s)
  | none => .pure trivial
  | some s => eval_mono s

theorem evalList_mono :
    ∀ ss : List Stmt, Mono (fun _ _ => True) (evalList b ss) (evalList b ss)
  | [] => .pure trivial
  | s :: ss => (eval_mono s).bind fun _ _ _ => evalList_mono ss

theorem evalCases_mono {c d : Context} (hcd : c.Refines d) :
    ∀ cs : List (SwitchCase Expr Stmt),
      Mono (fun _ _ => True) (evalCases b c cs) (evalCases b d cs)
  | [] => .pure trivial
  | ⟨_, labels, body⟩ :: cs =>
    (Expr.evalList_mono 0 labels).bind fun _ _ _ => (Mono.setContext hcd).bind fun _ _ _ =>
      (evalList_mono body).bind fun _ _ _ => evalCases_mono hcd cs

theorem evalCatches_mono {c d : Context} (hcd : c.Refines d) :
    ∀ cs : List (CatchClause Stmt),
      Mono (fun _ _ => True) (evalCatches b c cs) (evalCatches b d cs)
  | [] => .pure trivial
  | ⟨_, _, body⟩ :: cs =>
    (Mono.setContext hcd).bind fun _ _ _ => (evalList_mono body).bind fun _ _ _ =>
      evalCatches_mono hcd cs

end

/-- Evaluated from a context that knows more, statements end in a context that knows more; and a
known value that the evaluation from the other context records for an expression is recorded by this
one too, if it evaluates the expression at all. -/
theorem evalList_refines {ss : List Stmt} {c d : Context} (hcd : c.Refines d) {s t : EvalState}
    (hs : evalList b ss (EvalState.startRecording { context := c }) = (.ok (), s))
    (ht : evalList b ss (EvalState.startRecording { context := d }) = (.ok (), t)) :
    s.context.Refines t.context ∧
      ∀ e x l, s.recorded.get? e = some x → t.recorded.get? e = some (.known l) → x = .known l := by
  have hstart : EvalState.Refines (EvalState.startRecording { context := c })
      (EvalState.startRecording { context := d }) := by
    refine ⟨hcd, .nil, fun m n hm _ e x hx => ?_⟩
    obtain rfl : ∅ = m := Option.some.inj hm
    cases hx
  obtain ⟨hst, -⟩ := evalList_mono ss hstart hs ht
  refine ⟨hst.context, fun e x l hx hl => ?_⟩
  unfold EvalState.recorded at hx hl
  cases hm : s.observed with
  | none => simp [hm] at hx
  | some m =>
    cases hn : t.observed with
    | none => simp [hn] at hl
    | some n =>
      rw [hm, Option.getD_some] at hx
      rw [hn, Option.getD_some] at hl
      obtain ⟨y, hy, hxy⟩ := hst.recorded m n hm hn e x hx
      exact hxy l (Option.some.inj (hy.symm.trans hl))

/-- An assignment of one constant whichever way a condition goes, and another under the same
condition. -/
def eitherWay : Body where
  name := "eitherWay"
  vars := #[⟨"p", .prim .boolean, .param, .dummy⟩, ⟨"x", .prim .int, .localVar, .dummy⟩]
  exprs := #[⟨.dummy, .var 1⟩, ⟨.dummy, .var 0⟩, ⟨.dummy, .lit (.int 3)⟩, ⟨.dummy, .lit (.int 3)⟩,
    ⟨.dummy, .conditional 1 2 3⟩, ⟨.dummy, .assign 0 none 4⟩, ⟨.dummy, .var 0⟩, ⟨.dummy, .var 1⟩,
    ⟨.dummy, .lit (.int 4)⟩, ⟨.dummy, .assign 7 none 8⟩]
  stmts := #[⟨.dummy, .expr 5⟩, ⟨.dummy, .expr 9⟩, ⟨.dummy, .branch 6 1 none⟩]
  params := [0]
  block := [0, 2]

/-- The evaluation of the assignments from a context. -/
def eitherWayEval (c : Context) : Except EvalError Unit × EvalState :=
  evalList eitherWay eitherWay.root (EvalState.startRecording { context := c })

/-- The context in which the condition holds. -/
def conditionHolds : Context := .ofList [(0, .known (.bool true))]

theorem evalList_refines_eitherWay :
    (eitherWayEval conditionHolds).1 = .ok () ∧ (eitherWayEval ∅).1 = .ok () ∧
      (eitherWayEval conditionHolds).2.context.Refines (eitherWayEval ∅).2.context ∧
      ∀ x, (eitherWayEval conditionHolds).2.recorded.get? 4 = some x → x = .known (.int 3) := by
  obtain ⟨hcontext, hrecorded⟩ := evalList_refines (c := conditionHolds) (d := ∅)
    (fun _ _ h => nomatch h)
    (Prod.ext rfl rfl : eitherWayEval conditionHolds = (.ok (), (eitherWayEval conditionHolds).2))
    (Prod.ext rfl rfl : eitherWayEval ∅ = (.ok (), (eitherWayEval ∅).2))
  exact ⟨rfl, rfl, hcontext, fun x hx => hrecorded 4 x _ hx rfl⟩

end Stmt

end Midend
