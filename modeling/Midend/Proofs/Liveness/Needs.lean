import Midend.Proofs.Liveness.Path

/-!
# What paths need

`Needs v p thrown need live` says that `live` holds whenever some path through `p`
needs the value that `v` has at its start: the path reads it, or leaves it alone
and ends where it is needed, given by `need` for each result and by `thrown` for
an exception. It is a backward transfer function with one rule for each way to
compose paths, so the live sets of a tree follow the same recursion as its paths.
-/

namespace Midend

open Run

variable {v w : VarId} {α β : Type}

theorem not_readsFirst_nil : ¬ ReadsFirst v [] := by
  rintro ⟨before, after, h, -⟩
  simp at h

/-- A first read is in the first part, or in the second behind no write. -/
theorem readsFirst_append {tr tr' : List Access} (h : ReadsFirst v (tr ++ tr')) :
    ReadsFirst v tr ∨ (.write v ∉ tr ∧ ReadsFirst v tr') := by
  obtain ⟨before, after, heq, hb⟩ := h
  rcases List.append_eq_append_iff.1 heq with ⟨mid, rfl, h'⟩ | ⟨mid, rfl, h'⟩
  · rw [List.mem_append, not_or] at hb
    exact .inr ⟨hb.1, mid, after, h', hb.2⟩
  · cases mid with
    | nil => exact .inr ⟨by simpa using hb, [], after, by simpa using h'.symm, by simp⟩
    | cons a mid =>
      obtain ⟨rfl, -⟩ := List.cons.inj h'
      exact .inl ⟨before, mid, rfl, hb⟩

/-- If a path through `p` needs the value that `v` has at its start, `live` holds. -/
def Needs (v : VarId) (p : Path α) (thrown : Prop) (need : α → Prop) (live : Prop) : Prop :=
  ∀ ⦃s t : Unit⦄ ⦃tr : List Access⦄ ⦃r : Ending α⦄, p s tr r t →
    (ReadsFirst v tr → live) ∧
      (.write v ∉ tr →
        match r with
        | .done a => need a → live
        | .thrown => thrown → live
        | .cut => True)

namespace Needs

variable {p q : Path α} {thrown live live' : Prop} {need need' : α → Prop}

/-- Where the variable is live already nothing is to be shown. -/
theorem of_live (p : Path α) (thrown : Prop) (need : α → Prop) (h : live) :
    Needs v p thrown need live := by
  intro s t tr r _
  refine ⟨fun _ => h, fun _ => ?_⟩
  cases r with
  | done a => exact fun _ => h
  | thrown => exact fun _ => h
  | cut => trivial

theorem mono (h : Needs v p thrown need live) (hl : live → live') :
    Needs v p thrown need live' := by
  intro s t tr r hr
  obtain ⟨h₁, h₂⟩ := h hr
  refine ⟨fun hv => hl (h₁ hv), fun hw => ?_⟩
  cases r with
  | done a => exact fun ha => hl (h₂ hw ha)
  | thrown => exact fun ht => hl (h₂ hw ht)
  | cut => trivial

/-- What is needed at the end can be weakened. -/
theorem weaken {thrown' : Prop} (h : Needs v p thrown' need' live) (ht : thrown → thrown')
    (hn : ∀ a, need a → need' a) : Needs v p thrown need live := by
  intro s t tr r hr
  obtain ⟨h₁, h₂⟩ := h hr
  refine ⟨h₁, fun hw => ?_⟩
  cases r with
  | done a => exact fun ha => h₂ hw (hn a ha)
  | thrown => exact fun hx => h₂ hw (ht hx)
  | cut => trivial

theorem pure {a : α} (h : need a → live) : Needs v (Pure.pure a : Path α) thrown need live := by
  rintro s t tr r ⟨⟩
  exact ⟨fun hv => absurd hv not_readsFirst_nil, fun _ => h⟩

theorem bind {f : α → Path β} {need : β → Prop} {mid : α → Prop}
    (hp : Needs v p thrown mid live) (hf : ∀ a, Needs v (f a) thrown need (mid a)) :
    Needs v (p >>= f) thrown need live := by
  rintro s t tr r (⟨h₁, h₂⟩ | h | h)
  · obtain ⟨hp₁, hp₂⟩ := hp h₁
    obtain ⟨hf₁, hf₂⟩ := hf _ h₂
    constructor
    · intro hv
      rcases readsFirst_append hv with hv | ⟨hw, hv⟩
      · exact hp₁ hv
      · exact hp₂ hw (hf₁ hv)
    · intro hw
      rw [List.mem_append, not_or] at hw
      cases r with
      | done b => exact fun hb => hp₂ hw.1 (hf₂ hw.2 hb)
      | thrown => exact fun ht => hp₂ hw.1 (hf₂ hw.2 ht)
      | cut => trivial
  · exact hp h
  · exact hp h

theorem throw (h : thrown → live) : Needs v (Throw : Path α) thrown need live := by
  rintro s t tr r ⟨⟩
  exact ⟨fun hv => absurd hv not_readsFirst_nil, fun _ => h⟩

theorem never : Needs v (Run.never : Path α) thrown need live := fun _ _ _ _ h => h.elim

theorem hazard {need : Unit → Prop} (ht : thrown → live) (hn : need () → live) :
    Needs v Hazard thrown need live := by
  rintro s t tr r (_ | _ | _) <;> refine ⟨fun hv => absurd hv not_readsFirst_nil, fun _ => ?_⟩
  · exact hn
  · exact ht
  · trivial

theorem hazard_bind {f : Unit → Path α} (ht : thrown → live)
    (hf : Needs v (f ()) thrown need live) : Needs v (Hazard >>= f) thrown need live :=
  bind (hazard ht fun h => h) fun _ => hf

theorem hazardous (ht : ¬ thrown) (hp : Needs v p thrown need live) :
    Needs v (Run.hazardous p) thrown need live := by
  refine hazard_bind (fun h => absurd h ht) (hp.bind fun a => ?_)
  exact hazard_bind (fun h => absurd h ht) (.pure fun h => h)

theorem read {need : Unit → Prop} (hw : w = v → live) (hn : need () → live) :
    Needs v (Emit (.read w)) thrown need live := by
  rintro s t tr r ⟨⟩
  refine ⟨fun hv => ?_, fun _ => hn⟩
  obtain ⟨before, after, h, -⟩ := hv
  cases before with
  | nil =>
    obtain ⟨h, -⟩ := List.cons.inj h
    exact hw (Access.read.inj h)
  | cons a before =>
    obtain ⟨-, h⟩ := List.cons.inj h
    simp at h

theorem write {need : Unit → Prop} (hn : v ≠ w → need () → live) :
    Needs v (Emit (.write w)) thrown need live := by
  rintro s t tr r ⟨⟩
  refine ⟨fun hv => ?_, fun hw => hn fun h => hw (by simp [h])⟩
  obtain ⟨before, after, h, -⟩ := hv
  cases before with
  | nil => simp at h
  | cons a before =>
    obtain ⟨-, h⟩ := List.cons.inj h
    simp at h

theorem either (hp : Needs v p thrown need live) (hq : Needs v q thrown need live) :
    Needs v (Either p q) thrown need live := by
  rintro s t tr r (h | h)
  · exact hp h
  · exact hq h

/-- A caught throw needs what its handler needs. -/
theorem attempt {need : Option α → Prop}
    (hp : Needs v p (need none) (fun a => need (some a)) live) :
    Needs v (Attempt p) thrown need live := by
  rintro s t tr r (h | h | h) <;> exact hp h

/-- A loop needs what one iteration needs, if an iteration that is followed by another counts as
ending where the loop starts. -/
theorem iterate {step : Path (Option α)}
    (h : Needs v step thrown (fun a => a.elim live need) live) :
    Needs v (Iterate step) thrown need live := by
  intro s t tr r hr
  induction hr with
  | again h₁ _ ih =>
    obtain ⟨hs₁, hs₂⟩ := h h₁
    constructor
    · intro hv
      rcases readsFirst_append hv with hv | ⟨hw, hv⟩
      · exact hs₁ hv
      · exact hs₂ hw (ih.1 hv)
    · intro hw
      rw [List.mem_append, not_or] at hw
      exact ih.2 hw.2
  | done h₁ => exact h h₁
  | thrown h₁ => exact h h₁
  | cut h₁ => exact h h₁

/-- What stops early and what goes on. -/
theorem resume {p : Path (Option α)} {q : Path α} {next : Prop}
    (hp : Needs v p thrown (fun a => a.elim next need) live)
    (hq : Needs v q thrown need next) : Needs v (p.resume q) thrown need live := by
  refine hp.bind fun a => ?_
  cases a with
  | some a => exact Needs.pure fun h => h
  | none => exact hq

end Needs

end Midend
