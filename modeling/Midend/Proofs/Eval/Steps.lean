import Midend.Eval.Stmt

/-!
# Steps of evaluations

What an evaluation that succeeds has done, for each way to compose evaluations.
`Eval.Upholds` is the logic of an invariant of states, which holds however an
evaluation ends, with what is said of its results and its faults.
-/

namespace Midend

namespace Eval

variable {α β : Type} {st st' : EvalState}

theorem pure_eq_ok {a c : α} :
    (pure a : Eval α) st = (.ok c, st') ↔ a = c ∧ st = st' := by
  constructor
  · rintro ⟨⟩
    exact ⟨rfl, rfl⟩
  · rintro ⟨rfl, rfl⟩
    rfl

section

variable {ε σ : Type} {x : ExceptT ε (StateM σ) α} {f : α → ExceptT ε (StateM σ) β} {s s₁ : σ}

/-- After a result the rest goes on from the state it leaves. -/
theorem bind_of_ok {a : α} (h : x s = (.ok a, s₁)) : (x >>= f) s = f a s₁ := by
  change (x s >>= fun p => ExceptT.bindCont f p.1 p.2) = _
  rw [h]
  rfl

/-- After an error the rest is not run. -/
theorem bind_of_error {e : ε} (h : x s = (.error e, s₁)) : (x >>= f) s = (.error e, s₁) := by
  change (x s >>= fun p => ExceptT.bindCont f p.1 p.2) = _
  rw [h]
  rfl

end

/-- Two steps give a result when the second does from where the first ends. -/
theorem bind_eq_ok {x : Eval α} {f : α → Eval β} {c : β} :
    (x >>= f) st = (.ok c, st') ↔
      ∃ a st₁, x st = (.ok a, st₁) ∧ f a st₁ = (.ok c, st') := by
  constructor
  · intro h
    rcases hx : x st with ⟨e | a, st₁⟩
    · rw [bind_of_error hx] at h
      cases h
    · rw [bind_of_ok hx] at h
      exact ⟨a, st₁, rfl, h⟩
  · rintro ⟨a, st₁, hx, hf⟩
    rw [bind_of_ok hx, hf]

theorem not_fail_eq_ok {f : Fault} {a : α} : (fail f : Eval α) st ≠ (.ok a, st') := by
  rintro ⟨⟩

/-- Placing errors does not change results. -/
theorem locate_eq_ok {span : Span} {x : Eval α} {a : α} :
    locate span x st = (.ok a, st') ↔ x st = (.ok a, st') := by
  unfold locate
  rcases x st with ⟨_ | _, st₁⟩
  · constructor <;> rintro ⟨⟩
  · exact Iff.rfl

/-- Storing the unknown value only makes the local unknown. -/
theorem assignLocal_unknown (b : Body) (v : VarId) :
    assignLocal b v .unknown st =
      (.ok .unknown, { st with context := st.context.bind v .unknown }) := by
  unfold assignLocal
  cases primOf (b.varTy v) <;> rfl

theorem maybe_eq_ok {x : Eval α} :
    maybe x st = (.ok (), st') ↔
      ∃ a st₁, x st = (.ok a, st₁) ∧
        st' = { st₁ with context := st₁.context.join st.context } := by
  rw [maybe, bind_eq_ok]
  constructor
  · rintro ⟨c, st₀, ⟨⟩, h⟩
    obtain ⟨a, st₁, hx, ⟨⟩⟩ := bind_eq_ok.1 h
    exact ⟨a, st₁, hx, rfl⟩
  · rintro ⟨a, st₁, hx, rfl⟩
    exact ⟨_, _, rfl, bind_eq_ok.2 ⟨a, st₁, hx, rfl⟩⟩

/-- Both arms start from one context and their ends are joined. -/
theorem either_eq_ok {x y : Eval α} {a c : α} :
    either x y st = (.ok (a, c), st') ↔
      ∃ st₁ st₂, x st = (.ok a, st₁) ∧ y { st₁ with context := st.context } = (.ok c, st₂) ∧
        st' = { st₂ with context := st₂.context.join st₁.context } := by
  rw [either, bind_eq_ok]
  constructor
  · rintro ⟨_, _, ⟨⟩, h⟩
    obtain ⟨a, st₁, hx, h⟩ := bind_eq_ok.1 h
    obtain ⟨_, _, ⟨⟩, h⟩ := bind_eq_ok.1 h
    obtain ⟨_, _, ⟨⟩, h⟩ := bind_eq_ok.1 h
    obtain ⟨c, st₂, hy, h⟩ := bind_eq_ok.1 h
    obtain ⟨_, _, ⟨⟩, h⟩ := bind_eq_ok.1 h
    obtain ⟨h, rfl⟩ := pure_eq_ok.1 h
    cases h
    exact ⟨st₁, st₂, hx, hy, rfl⟩
  · rintro ⟨st₁, st₂, hx, hy, rfl⟩
    refine ⟨_, _, rfl, bind_eq_ok.2 ⟨a, st₁, hx, bind_eq_ok.2 ⟨_, _, rfl, ?_⟩⟩⟩
    refine bind_eq_ok.2 ⟨_, _, rfl, bind_eq_ok.2 ⟨c, st₂, hy, ?_⟩⟩
    exact bind_eq_ok.2 ⟨_, _, rfl, pure_eq_ok.2 ⟨rfl, rfl⟩⟩

/-- The context in which an iteration ends, from the one at the end of the body and those of its
`continue` statements. -/
def endOf (c : Context) : List (Option Context) → Context
  | some d :: _ => c.join d
  | _ => c

/-- An iteration ends in the join of its end with its `continue`s. -/
theorem iteration_eq_ok {x : Eval Unit} :
    iteration x st = (.ok (), st') ↔
      ∃ t, x { st with continues := none :: st.continues } = (.ok (), t) ∧
        st' = { t with context := endOf t.context t.continues, continues := t.continues.tail } := by
  unfold iteration
  rcases x { st with continues := none :: st.continues } with ⟨e | ⟨⟩, t⟩
  · constructor
    · rintro ⟨⟩
    · rintro ⟨_, ⟨⟩, -⟩
  · constructor
    · rintro ⟨⟩
      exact ⟨t, rfl, rfl⟩
    · rintro ⟨_, ⟨⟩, rfl⟩
      rfl

/-! ## Invariants -/

/-- A result satisfies `R`, or an error `E`. -/
def Outcome {ε : Type} (E : ε → Prop) (R : α → Prop) : Except ε α → Prop
  | .ok a => R a
  | .error e => E e

theorem Outcome.intro {ε : Type} {E : ε → Prop} {R : α → Prop} {r : Except ε α}
    (hok : ∀ a, r = .ok a → R a) (herror : ∀ e, r = .error e → E e) : Outcome E R r := by
  cases r with
  | ok a => exact hok a rfl
  | error e => exact herror e rfl

theorem Outcome.imp {ε : Type} {E : ε → Prop} {R R' : α → Prop} (hR : ∀ a, R a → R' a) :
    ∀ {r : Except ε α}, Outcome E R r → Outcome E R' r
  | .ok a, h => hR a h
  | .error _, h => h

/-- From a state that satisfies `I` an evaluation reaches another, whether it succeeds with a result
that satisfies `R` or fails with a fault that satisfies `E`. -/
def Upholds (I : EvalState → Prop) (E : Fault → Prop) (R : α → Prop) (x : Eval α) : Prop :=
  ∀ s, I s → I (x s).2 ∧ Outcome (fun e => E e.fault) R (x s).1

namespace Upholds

variable {I : EvalState → Prop} {E : Fault → Prop} {R : α → Prop} {Q : β → Prop}

theorem of_ok {x : Eval α} (h : Upholds I E R x) {s s' : EvalState} {a : α} (hs : I s)
    (hx : x s = (.ok a, s')) : I s' ∧ R a := by
  have := h s hs
  rwa [hx] at this

theorem of_error {x : Eval α} (h : Upholds I E R x) {s s' : EvalState} {e : EvalError} (hs : I s)
    (hx : x s = (.error e, s')) : I s' ∧ E e.fault := by
  have := h s hs
  rwa [hx] at this

theorem imp {R' : α → Prop} {x : Eval α} (h : Upholds I E R x) (hR : ∀ a, R a → R' a) :
    Upholds I E R' x := fun s hs => (h s hs).imp id (Outcome.imp hR)

theorem pure {a : α} (h : R a) : Upholds I E R (Pure.pure a : Eval α) := fun _ hs => ⟨hs, h⟩

theorem bind {x : Eval α} {f : α → Eval β} (hx : Upholds I E R x)
    (hf : ∀ a, R a → Upholds I E Q (f a)) : Upholds I E Q (x >>= f) := by
  intro s hs
  rcases h : x s with ⟨e | a, s₁⟩
  · rw [bind_of_error h]
    exact hx.of_error hs h
  · obtain ⟨hs₁, ha⟩ := hx.of_ok hs h
    rw [bind_of_ok h]
    exact hf a ha s₁ hs₁

theorem fail {f : Fault} (h : E f) : Upholds I E R (Eval.fail f : Eval α) := fun _ hs => ⟨hs, h⟩

theorem ofExcept {r : Except Fault α} (h : Outcome E R r) : Upholds I E R (Eval.ofExcept r) := by
  cases r with
  | error f => exact .fail h
  | ok a => exact .pure h

theorem locate {span : Span} {x : Eval α} (h : Upholds I E R x) :
    Upholds I E R (Eval.locate span x) := by
  intro s hs
  unfold Eval.locate
  rcases hx : x s with ⟨e | a, s₁⟩
  · obtain ⟨hs₁, he⟩ := h.of_error hs hx
    exact ⟨hs₁, he⟩
  · exact h.of_ok hs hx

theorem ite {p : Prop} [Decidable p] {x y : Eval α} (hx : p → Upholds I E R x)
    (hy : ¬p → Upholds I E R y) : Upholds I E R (if p then x else y) := by
  split
  · next h => exact hx h
  · next h => exact hy h

theorem ofModify {f : EvalState → EvalState} (h : ∀ s, I s → I (f s)) :
    Upholds I E (fun _ => True) (modify f : Eval Unit) := fun s hs => ⟨h s hs, trivial⟩

/-- A context that is read is that of a state which satisfies `I`. -/
theorem context_bind {f : Context → Eval α} (h : ∀ s, I s → Upholds I E R (f s.context)) :
    Upholds I E R (Eval.context >>= f) := fun s hs => h s hs s hs

end Upholds

end Eval

end Midend
