import Midend.Proofs.Run.Stmt

/-!
# Triples

`Triple E pre p post exc` says what the runs of `p` from states in `pre` do: they
show only events of `E`, a result and the state it comes with satisfy `post`, and
where an exception leaves `p` the state satisfies `exc`. Nothing is said of the
state where a run is followed no further. There is one rule for each way to
compose runs; a loop keeps an invariant (`Triple.iterate`).
-/

namespace Midend

/-- A result satisfies `post`, and `exc` holds after an exception. -/
def Ending.Meets {α : Type} (post : α → Prop) (exc : Prop) : Ending α → Prop
  | done a => post a
  | thrown => exc
  | cut => True

theorem Ending.Meets.mono {α : Type} {post post' : α → Prop} {exc exc' : Prop}
    (hpost : ∀ a, post a → post' a) (hexc : exc → exc') :
    ∀ {r : Ending α}, r.Meets post exc → r.Meets post' exc'
  | done a, h => hpost a h
  | thrown, h => hexc h
  | cut, _ => trivial

namespace Run

variable {σ ε α β : Type} {E : ε → Prop} {pre pre' exc exc' : σ → Prop}

/-- What the runs from states in `pre` do. -/
def Triple (E : ε → Prop) (pre : σ → Prop) (p : Run σ ε α) (post : α → σ → Prop)
    (exc : σ → Prop) : Prop :=
  ∀ ⦃s tr r t⦄, p s tr r t → pre s → (∀ e ∈ tr, E e) ∧ r.Meets (post · t) (exc t)

namespace Triple

variable {p q : Run σ ε α} {post post' : α → σ → Prop}

theorem mono (h : Triple E pre p post exc) (hpre : ∀ s, pre' s → pre s)
    (hpost : ∀ a s, post a s → post' a s) (hexc : ∀ s, exc s → exc' s) :
    Triple E pre' p post' exc' := by
  intro s tr r t hr hs
  obtain ⟨hev, hm⟩ := h hr (hpre s hs)
  exact ⟨hev, hm.mono (hpost · t) (hexc t)⟩

theorem weaken (h : Triple E pre p post exc) (hpost : ∀ a s, post a s → post' a s) :
    Triple E pre p post' exc := h.mono (fun _ hs => hs) hpost fun _ hs => hs

theorem strengthen (h : Triple E pre p post exc) (hpre : ∀ s, pre' s → pre s) :
    Triple E pre' p post exc := h.mono hpre (fun _ _ hs => hs) fun _ hs => hs

/-- From no state there is nothing to show. -/
theorem of_false (h : ∀ s, ¬ pre s) : Triple E pre p post exc := fun s _ _ _ _ hs => (h s hs).elim

/-- A triple for every single state. -/
theorem of_forall (h : ∀ s, pre s → Triple E (· = s) p post exc) : Triple E pre p post exc :=
  fun s _ _ _ hr hs => h s hs hr rfl

/-- What two triples say of the same runs. -/
theorem and {E' : ε → Prop} (h : Triple E pre p post exc) (h' : Triple E' pre' p post' exc') :
    Triple E (fun s => pre s ∧ pre' s) p (fun a s => post a s ∧ post' a s)
      (fun s => exc s ∧ exc' s) := by
  intro s tr r t hr hs
  obtain ⟨hev, hm⟩ := h hr hs.1
  obtain ⟨-, hm'⟩ := h' hr hs.2
  refine ⟨hev, ?_⟩
  cases r with
  | done a => exact ⟨hm, hm'⟩
  | thrown => exact ⟨hm, hm'⟩
  | cut => trivial

/-! ## Steps -/

theorem pure {a : α} (h : ∀ s, pre s → post a s) :
    Triple E pre (Pure.pure a : Run σ ε α) post exc := by
  rintro s tr r t ⟨⟩ hs
  exact ⟨by simp, h s hs⟩

theorem bind {Q : α → σ → Prop} {f : α → Run σ ε β} {post : β → σ → Prop}
    (hp : Triple E pre p Q exc) (hf : ∀ a, Triple E (Q a) (f a) post exc) :
    Triple E pre (p >>= f) post exc := by
  rintro s tr r t (⟨h₁, h₂⟩ | h | h) hs
  · obtain ⟨hev, hm⟩ := hp h₁ hs
    obtain ⟨hev', hm'⟩ := hf _ h₂ hm
    refine ⟨fun e he => ?_, hm'⟩
    rcases List.mem_append.1 he with he | he
    · exact hev e he
    · exact hev' e he
  · exact hp h hs
  · exact ⟨(hp h hs).1, trivial⟩

theorem throw (h : ∀ s, pre s → exc s) : Triple E pre (Throw : Run σ ε α) post exc := by
  rintro s tr r t ⟨⟩ hs
  exact ⟨by simp, h s hs⟩

theorem never : Triple E pre (Run.never : Run σ ε α) post exc := fun _ _ _ _ h => h.elim

theorem hazard (h : ∀ s, pre s → exc s) :
    Triple E pre (Hazard : Run σ ε Unit) (fun _ => pre) exc := by
  rintro s tr r t (_ | _ | _) hs
  · exact ⟨by simp, hs⟩
  · exact ⟨by simp, h s hs⟩
  · exact ⟨by simp, trivial⟩

theorem hazardous (h : Triple E pre p post exc) (hpre : ∀ s, pre s → exc s)
    (hpost : ∀ a s, post a s → exc s) : Triple E pre (Run.hazardous p) post exc :=
  (hazard hpre).bind fun _ => h.bind fun a => (hazard (hpost a)).bind fun _ => .pure fun _ hs => hs

theorem emit {e : ε} (h : E e) : Triple E pre (Emit e : Run σ ε Unit) (fun _ => pre) exc := by
  rintro s tr r t ⟨⟩ hs
  exact ⟨by simpa using h, hs⟩

theorem report {f : σ → ε} (h : ∀ s, pre s → E (f s)) :
    Triple E pre (Report f) (fun _ => pre) exc := by
  rintro s tr r t ⟨⟩ hs
  exact ⟨by simpa using h s hs, hs⟩

/-- A step of the host meets what its relation leads to. -/
theorem step {R : σ → Option α → σ → Prop} (hd : ∀ s a t, R s (some a) t → pre s → post a t)
    (ht : ∀ s t, R s none t → pre s → exc t) : Triple E pre (Step R) post exc := by
  rintro s tr r t (h | h) hs
  · exact ⟨by simp, hd _ _ _ h hs⟩
  · exact ⟨by simp, ht _ _ h hs⟩

/-! ## Control -/

theorem either (hp : Triple E pre p post exc) (hq : Triple E pre q post exc) :
    Triple E pre (Either p q) post exc := by
  rintro s tr r t (h | h) hs
  · exact hp h hs
  · exact hq h hs

theorem ite {c : Prop} [Decidable c] (hp : Triple E pre p post exc)
    (hq : Triple E pre q post exc) : Triple E pre (if c then p else q) post exc := by
  split
  · exact hp
  · exact hq

/-- A caught throw is a result. -/
theorem attempt (hp : Triple E pre p post exc) :
    Triple E pre (Attempt p) (fun r s => r.elim (exc s) (post · s)) exc' := by
  rintro s tr r t (h | h | h) hs
  · exact hp h hs
  · exact hp h hs
  · exact ⟨(hp h hs).1, trivial⟩

/-- A loop whose iterations keep `pre` until there is a result. -/
theorem iterate {step : Run σ ε (Option α)}
    (h : Triple E pre step (fun r s => r.elim (pre s) (post · s)) exc) :
    Triple E pre (Iterate step) post exc := by
  intro s tr r t hr
  induction hr with
  | again h₁ _ ih =>
    intro hs
    obtain ⟨hev, hm⟩ := h h₁ hs
    obtain ⟨hev', hm'⟩ := ih hm
    refine ⟨fun e he => ?_, hm'⟩
    rcases List.mem_append.1 he with he | he
    · exact hev e he
    · exact hev' e he
  | done h₁ => exact h h₁
  | thrown h₁ => exact h h₁
  | cut h₁ => exact h h₁

end Triple

section

variable {p q : Run σ ε Exit} {mid post : Exit → σ → Prop}

/-- What follows a statement starts where it ends normally. -/
theorem andThen_triple (hp : Triple E pre p mid exc) (hq : Triple E (mid .normal) q post exc)
    (he : ∀ e s, e ≠ .normal → mid e s → post e s) : Triple E pre (p.andThen q) post exc := by
  refine hp.bind fun e => ?_
  cases e with
  | normal => exact hq
  | brk => exact .pure fun s => he .brk s nofun
  | cont => exact .pure fun s => he .cont s nofun
  | ret => exact .pure fun s => he .ret s nofun

/-- A finalizer runs after every end, a throw included. -/
theorem ensuring_triple (hp : Triple E pre p mid exc')
    (hd : ∀ e, Triple E (mid e) (q.andThen (return e)) post exc)
    (ht : Triple E exc' (q.andThen Throw) post exc) : Triple E pre (p.ensuring q) post exc := by
  refine hp.attempt.bind fun way => ?_
  cases way with
  | some e => exact hd e
  | none => exact ht

/-- Handlers run after a throw. -/
theorem handledBy_triple (hp : Triple E pre p post exc') (hq : Triple E exc' q post exc)
    (hexc : ∀ s, exc' s → exc s) : Triple E pre (p.handledBy q) post exc := by
  refine hp.attempt.bind fun way => ?_
  cases way with
  | some e => exact .pure fun s hs => hs
  | none => exact .either (.throw hexc) hq

end

end Run

/-! ## Loops -/

namespace Stmt

open Run

variable {σ ε : Type} {M : Meaning σ ε} {E : ε → Prop} {pre exc : σ → Prop} {p : Run σ ε Exit}
  {post : Exit → σ → Prop}

/-- No `continue` leaves the loop it belongs to. -/
theorem restOfBody_triple (h : Triple E pre p post exc) :
    Triple E pre (restOfBody p) (fun r _ => r ≠ some .cont) exc :=
  h.bind fun e => .pure fun _ _ => by cases e <;> nofun

theorem restOfDo_triple {c : Expr} (h : Triple E pre p post exc)
    (hc : ∀ e, e.ofBody = none → Triple E (post e) (M.test c) (fun _ _ => True) exc) :
    Triple E pre (restOfDo M c p) (fun r _ => r ≠ some .cont) exc := by
  refine h.bind fun e => ?_
  cases he : e.ofBody with
  | some e' => exact .pure fun _ _ => by cases e <;> cases he <;> nofun
  | none => exact (hc e he).bind fun _ => .ite (.pure fun _ _ => nofun) (.pure fun _ _ => nofun)

theorem restOfFor_triple {update : List Expr} (h : Triple E pre p post exc)
    (hu : ∀ e, e.ofBody = none → Triple E (post e) (M.evalList update) (fun _ _ => True) exc) :
    Triple E pre (restOfFor M update p) (fun r _ => r ≠ some .cont) exc := by
  refine h.bind fun e => ?_
  cases he : e.ofBody with
  | some e' => exact .pure fun _ _ => by cases e <;> cases he <;> nofun
  | none => exact (hu e he).bind fun _ => .pure fun _ _ => nofun

/-- An iteration runs its rest where the test holds. -/
theorem iteration_triple {test : Run σ ε Bool} {rest : Run σ ε (Option Exit)}
    {mid : Bool → σ → Prop} (ht : Triple E pre test mid exc)
    (hr : Triple E (mid true) rest (fun r _ => r ≠ some .cont) exc) :
    Triple E pre (iteration test rest) (fun r _ => r ≠ some .cont) exc := by
  refine ht.bind fun t => ?_
  cases t with
  | true => exact hr
  | false => exact .pure fun _ _ => nofun

end Stmt

end Midend
