import Midend.Proofs.Liveness.Path

/-!
# Paths that leave a variable alone

`Unwritten v p Q` says that a path through `p` that ends with a result and has
neither declared nor assigned `v` ends where `Q` holds. If `Q` never holds, every
path that ends with a result writes `v`. There is one rule for each way to compose
paths; nothing is said of paths that throw or are followed no further, so a
finalizer that gives such a path a result after all must be looked at itself
(`Unwritten.ensuring`).
-/

namespace Midend

open Run

variable {v : VarId} {α β : Type}

/-- A path through `p` that ends with a result and has not written `v` ends where `Q` holds. -/
def Unwritten (v : VarId) (p : Path α) (Q : α → Prop) : Prop :=
  ∀ ⦃s t : Unit⦄ ⦃tr : List Access⦄ ⦃a : α⦄, p s tr (.done a) t → .write v ∉ tr → Q a

namespace Unwritten

variable {p q : Path α} {Q Q' : α → Prop}

theorem mono (h : Unwritten v p Q') (hq : ∀ a, Q' a → Q a) : Unwritten v p Q :=
  fun _ _ _ _ hr hw => hq _ (h hr hw)

/-- Where `v` is always written there is nothing to show. -/
theorem of_never (h : Unwritten v p fun _ => False) : Unwritten v p Q := h.mono fun _ => False.elim

theorem any (p : Path α) : Unwritten v p fun _ => True := fun _ _ _ _ _ _ => trivial

theorem pure {a : α} (h : Q a) : Unwritten v (Pure.pure a : Path α) Q := by
  rintro s t tr a ⟨⟩ -
  exact h

theorem bind {f : α → Path β} {Q : β → Prop} {mid : α → Prop} (hp : Unwritten v p mid)
    (hf : ∀ a, mid a → Unwritten v (f a) Q) : Unwritten v (p >>= f) Q := by
  rintro s t tr b ⟨h₁, h₂⟩ hw
  rw [List.mem_append, not_or] at hw
  exact hf _ (hp h₁ hw.1) h₂ hw.2

/-- What is written first is written by the whole. -/
theorem bind_left {f : α → Path β} {Q : β → Prop} (hp : Unwritten v p fun _ => False) :
    Unwritten v (p >>= f) Q := hp.bind fun _ => False.elim

/-- What is written next is written by the whole. -/
theorem bind_right {f : α → Path β} {Q : β → Prop} (hf : ∀ a, Unwritten v (f a) Q) :
    Unwritten v (p >>= f) Q := (any p).bind fun a _ => hf a

theorem throw : Unwritten v (Throw : Path α) Q := by
  rintro s t tr a ⟨⟩

theorem never : Unwritten v (Run.never : Path α) Q := fun _ _ _ _ h => h.elim

theorem hazardous (hp : Unwritten v p Q) : Unwritten v (Run.hazardous p) Q :=
  bind_right fun _ => hp.bind fun _ ha => bind_right fun _ => .pure ha

theorem write {Q : Unit → Prop} : Unwritten v (Emit (.write v)) Q := by
  rintro s t tr a ⟨⟩ hw
  simp at hw

theorem either (hp : Unwritten v p Q) (hq : Unwritten v q Q) : Unwritten v (Either p q) Q := by
  rintro s t tr a (h | h) hw
  · exact hp h hw
  · exact hq h hw

theorem ite {test : Path Bool} (hp : Unwritten v p Q) (hq : Unwritten v q Q) :
    Unwritten v (do if ← test then p else q) Q := by
  refine bind_right fun b => ?_
  cases b with
  | false => exact hq
  | true => exact hp

/-- A caught throw leaves the variable as the attempt does. -/
theorem attempt (hp : Unwritten v p Q) : Unwritten v (Attempt p) fun r => ∀ a ∈ r, Q a := by
  rintro s t tr r (h | h) hw
  · rintro _ ⟨⟩
    exact hp h hw
  · nofun

/-- The result of a loop is that of its last iteration. -/
theorem iterate {step : Path (Option α)} (h : Unwritten v step fun r => ∀ a ∈ r, Q a) :
    Unwritten v (Iterate step) Q := by
  intro s t tr a hr hw
  generalize hend : Ending.done a = r at hr
  induction hr with
  | again _ _ ih =>
    rw [List.mem_append, not_or] at hw
    exact ih hw.2 hend
  | done h₁ =>
    cases hend
    exact h h₁ hw _ rfl
  | thrown | cut => cases hend

section Exits

variable {p q : Path Exit} {Q mid : Exit → Prop}

/-- What follows is run only after a normal end. -/
theorem andThen (hp : Unwritten v p mid) (hq : mid .normal → Unwritten v q Q)
    (hn : ∀ e, e ≠ .normal → mid e → Q e) : Unwritten v (p.andThen q) Q := by
  refine hp.bind fun e he => ?_
  cases e with
  | normal => exact hq he
  | brk => exact .pure (hn _ (by decide) he)
  | cont => exact .pure (hn _ (by decide) he)
  | ret => exact .pure (hn _ (by decide) he)

/-- A finalizer runs on every way out, and where it completes that way is taken after all. -/
theorem ensuring {final : Exit → Prop} (hp : Unwritten v p mid) (hq : Unwritten v q final)
    (hn : ∀ e, e ≠ .normal → final e → Q e) (hm : final .normal → ∀ e, mid e → Q e) :
    Unwritten v (p.ensuring q) Q := by
  refine hp.attempt.bind fun way hway => hq.andThen (fun hf => ?_) hn
  cases way with
  | some e => exact .pure (hm hf e (hway e rfl))
  | none => exact .throw

/-- The handler is run after a throw. -/
theorem handledBy (hp : Unwritten v p Q) (hq : Unwritten v q Q) :
    Unwritten v (p.handledBy q) Q := by
  refine hp.attempt.bind fun way hway => ?_
  cases way with
  | some e => exact .pure (hway e rfl)
  | none => exact .either .throw hq

end Exits

end Unwritten

end Midend
