import Midend.Tree.Stmt

/-!
# Runs

A part of a program may run in several ways. `Run σ ε α` holds, for each state it
may start in, the events up to some point, how the run ends there and the state
it has reached. A run ends with a result or an exception, or is followed no
further (`Ending.cut`), so that a run that never ends is met in all its finite
parts.

Runs are composed as a monad: `p >>= f` goes on from the result of `p`, and an
exception passes `f` by. `Attempt` turns an exception into a result, `Either`
leaves a choice open, `Hazard` may throw, and `Iterate` goes around until it is
told to stop.
-/

namespace Midend

/-- How a part of a run ends. -/
inductive Ending (α : Type) where
  | done (a : α)
  | thrown
  /-- The run is followed no further. -/
  | cut

/-- The ways to run from each state, up to any point. -/
def Run (σ ε α : Type) : Type := σ → List ε → Ending α → σ → Prop

namespace Run

variable {σ ε α β : Type}

/-! ## Composition -/

/-- Ends at once. -/
inductive Pure (a : α) : Run σ ε α
  | intro {s : σ} : Pure a s [] (.done a) s

/-- Goes on from the result of `p`. -/
inductive Bind (p : Run σ ε α) (f : α → Run σ ε β) : Run σ ε β
  | next {s s₁ s₂ : σ} {tr tr₁ : List ε} {a : α} {r : Ending β} :
      p s tr (.done a) s₁ → f a s₁ tr₁ r s₂ → Bind p f s (tr ++ tr₁) r s₂
  | thrown {s s₁ : σ} {tr : List ε} : p s tr .thrown s₁ → Bind p f s tr .thrown s₁
  | cut {s s₁ : σ} {tr : List ε} : p s tr .cut s₁ → Bind p f s tr .cut s₁

instance : Monad (Run σ ε) where
  pure := Pure
  bind := Bind

/-- A silent part is followed by what comes next. -/
theorem bind_of_silent {p : Run σ ε α} {f : α → Run σ ε β} {s s₁ s₂ : σ} {tr : List ε} {a : α}
    {r : Ending β} (h : p s [] (.done a) s₁) (h' : f a s₁ tr r s₂) :
    (p >>= f : Run σ ε β) s tr r s₂ := .next h h'

/-- A step followed by a silent one has the events of the first. -/
theorem bind_silent {p : Run σ ε α} {f : α → Run σ ε β} {s s₁ s₂ : σ} {tr : List ε} {a : α}
    {r : Ending β} (h : p s tr (.done a) s₁) (h' : f a s₁ [] r s₂) :
    (p >>= f : Run σ ε β) s tr r s₂ := by
  rw [← List.append_nil tr]
  exact .next h h'

/-! ## Steps -/

/-- Throws an exception. -/
inductive Throw : Run σ ε α
  | intro {s : σ} : Throw s [] .thrown s

/-- A point where the run may go on, throw or be left. -/
inductive Hazard : Run σ ε Unit
  | pass {s : σ} : Hazard s [] (.done ()) s
  | thrown {s : σ} : Hazard s [] .thrown s
  | cut {s : σ} : Hazard s [] .cut s

/-- Runs `p` with a point before and after it where the run may throw or be left. -/
def hazardous (p : Run σ ε α) : Run σ ε α := do
  Hazard
  let a ← p
  Hazard
  return a

/-- Shows an event. -/
inductive Emit (e : ε) : Run σ ε Unit
  | intro {s : σ} : Emit e s [e] (.done ()) s

/-- Shows something of the state. -/
inductive Report (f : σ → ε) : Run σ ε Unit
  | intro {s : σ} : Report f s [f s] (.done ()) s

/-- One silent step, given by the results and states it may lead to; it throws where there is no
result. -/
inductive Step (R : σ → Option α → σ → Prop) : Run σ ε α
  | done {s t : σ} {a : α} : R s (some a) t → Step R s [] (.done a) t
  | thrown {s t : σ} : R s none t → Step R s [] .thrown t

/-! ## Control -/

/-- Has no run. -/
def never : Run σ ε α := fun _ _ _ _ => False

/-- Runs one or the other. -/
inductive Either (p q : Run σ ε α) : Run σ ε α
  | left {s t : σ} {tr : List ε} {r : Ending α} : p s tr r t → Either p q s tr r t
  | right {s t : σ} {tr : List ε} {r : Ending α} : q s tr r t → Either p q s tr r t

/-- Runs `p`; an exception becomes the result `none`. -/
inductive Attempt (p : Run σ ε α) : Run σ ε (Option α)
  | done {s t : σ} {tr : List ε} {a : α} : p s tr (.done a) t → Attempt p s tr (.done (some a)) t
  | thrown {s t : σ} {tr : List ε} : p s tr .thrown t → Attempt p s tr (.done none) t
  | cut {s t : σ} {tr : List ε} : p s tr .cut t → Attempt p s tr .cut t

/-- Runs `step` again and again until it has a result. -/
inductive Iterate (step : Run σ ε (Option α)) : Run σ ε α
  | again {s s₁ s₂ : σ} {tr tr₁ : List ε} {r : Ending α} :
      step s tr (.done none) s₁ → Iterate step s₁ tr₁ r s₂ → Iterate step s (tr ++ tr₁) r s₂
  | done {s t : σ} {tr : List ε} {a : α} :
      step s tr (.done (some a)) t → Iterate step s tr (.done a) t
  | thrown {s t : σ} {tr : List ε} : step s tr .thrown t → Iterate step s tr .thrown t
  | cut {s t : σ} {tr : List ε} : step s tr .cut t → Iterate step s tr .cut t

/-- Goes on with `q` where `p` has no result yet. -/
def resume (p : Run σ ε (Option α)) (q : Run σ ε α) : Run σ ε α := do
  match ← p with
  | some a => return a
  | none => q

end Run

end Midend
