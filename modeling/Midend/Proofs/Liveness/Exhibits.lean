import Midend.Proofs.Liveness.Needs

/-!
# Paths that show a need

`Exhibits v p need live` says that, if `live` holds, some path through `p` shows
it: the path reads `v` before writing it, or leaves `v` alone and ends with a
result for which `need` holds. It is the converse of `Needs` on the results of
`p`, with one rule for each way to compose paths. A path that has read `v` goes
on in any way, so every part must have some path at all, which `Exhibits` says
too. A loop needs what some number of its iterations needs
(`Exhibits.iterate_chain`).
-/

namespace Midend

open Run

variable {v w : VarId} {α β : Type}

theorem ReadsFirst.append {tr : List Access} (h : ReadsFirst v tr) (tr' : List Access) :
    ReadsFirst v (tr ++ tr') := by
  obtain ⟨before, after, rfl, hb⟩ := h
  exact ⟨before, after ++ tr', by simp, hb⟩

/-- What stands in front is harmless when it does not write. -/
theorem ReadsFirst.append_left {tr tr' : List Access} (hw : .write v ∉ tr)
    (h : ReadsFirst v tr') : ReadsFirst v (tr ++ tr') := by
  obtain ⟨before, after, rfl, hb⟩ := h
  refine ⟨tr ++ before, after, by simp, ?_⟩
  simpa using ⟨hw, hb⟩

/-- There is a path through `p`. -/
def Runs (p : Path α) : Prop := ∃ tr r, p () tr r ()

/-- Some path through `p` reads `v` first, or leaves it alone and ends where it is needed. -/
def Shows (v : VarId) (p : Path α) (need : α → Prop) : Prop :=
  ∃ tr r, p () tr r () ∧ (ReadsFirst v tr ∨ .write v ∉ tr ∧ ∃ a, r = .done a ∧ need a)

/-- There is a path through `p`, and one that shows that `v` is needed if `live` holds. -/
structure Exhibits (v : VarId) (p : Path α) (need : α → Prop) (live : Prop) : Prop where
  runs : Runs p
  shows : live → Shows v p need

/-! ## Existence of paths -/

namespace Runs

variable {p q : Path α}

/-- A part that may be left at once. -/
theorem of_cut (h : p () [] .cut ()) : Runs p := ⟨[], .cut, h⟩

theorem bind {f : α → Path β} (hp : Runs p) (hf : ∀ a, Runs (f a)) : Runs (p >>= f) := by
  obtain ⟨tr, r, h⟩ := hp
  cases r with
  | done a =>
    obtain ⟨tr', r, h'⟩ := hf a
    exact ⟨tr ++ tr', r, .next h h'⟩
  | thrown => exact ⟨tr, .thrown, .thrown h⟩
  | cut => exact ⟨tr, .cut, .cut h⟩

theorem left (hp : Runs p) : Runs (Either p q) := by
  obtain ⟨tr, r, h⟩ := hp
  exact ⟨tr, r, .left h⟩

theorem andThen {p q : Path Exit} (hp : Runs p) (hq : Runs q) : Runs (p.andThen q) := by
  refine hp.bind fun e => ?_
  cases e with
  | normal => exact hq
  | brk | cont | ret => exact ⟨_, _, .intro⟩

end Runs

/-! ## Paths that show a need -/

namespace Shows

variable {p q : Path α} {need : α → Prop}

theorem bind {f : α → Path β} {need : β → Prop} {mid : α → Prop} (hp : Shows v p mid)
    (hr : ∀ a, Runs (f a)) (hf : ∀ a, mid a → Shows v (f a) need) : Shows v (p >>= f) need := by
  obtain ⟨tr, r, h, hv | ⟨hw, a, rfl, ha⟩⟩ := hp
  · cases r with
    | done a =>
      obtain ⟨tr', r, h'⟩ := hr a
      exact ⟨tr ++ tr', r, .next h h', .inl (hv.append tr')⟩
    | thrown => exact ⟨tr, .thrown, .thrown h, .inl hv⟩
    | cut => exact ⟨tr, .cut, .cut h, .inl hv⟩
  · obtain ⟨tr', r, h', hs⟩ := hf a ha
    refine ⟨tr ++ tr', r, .next h h', hs.imp (ReadsFirst.append_left hw) ?_⟩
    rintro ⟨hw', b, rfl, hb⟩
    exact ⟨by simpa using ⟨hw, hw'⟩, b, rfl, hb⟩

theorem left (h : Shows v p need) : Shows v (Either p q) need := by
  obtain ⟨tr, r, hr, hs⟩ := h
  exact ⟨tr, r, .left hr, hs⟩

theorem right (h : Shows v q need) : Shows v (Either p q) need := by
  obtain ⟨tr, r, hr, hs⟩ := h
  exact ⟨tr, r, .right hr, hs⟩

/-- An iteration that shows a need, or is followed by iterations that do. -/
theorem iterate {step : Path (Option α)} {again : Prop} (hr : Runs (Iterate step))
    (hs : Shows v step fun a => a.elim again need) (ha : again → Shows v (Iterate step) need) :
    Shows v (Iterate step) need := by
  obtain ⟨tr, r, h, hv | ⟨hw, a, rfl, hn⟩⟩ := hs
  · cases r with
    | done a =>
      cases a with
      | none =>
        obtain ⟨tr', r, h'⟩ := hr
        exact ⟨tr ++ tr', r, .again h h', .inl (hv.append tr')⟩
      | some a => exact ⟨tr, .done a, .done h, .inl hv⟩
    | thrown => exact ⟨tr, .thrown, .thrown h, .inl hv⟩
    | cut => exact ⟨tr, .cut, .cut h, .inl hv⟩
  · cases a with
    | none =>
      obtain ⟨tr', r, h', hs⟩ := ha hn
      refine ⟨tr ++ tr', r, .again h h', hs.imp (ReadsFirst.append_left hw) ?_⟩
      rintro ⟨hw', a, rfl, hb⟩
      exact ⟨by simpa using ⟨hw, hw'⟩, a, rfl, hb⟩
    | some a => exact ⟨tr, .done a, .done h, .inr ⟨hw, a, rfl, hn⟩⟩

end Shows

namespace Exhibits

variable {p q : Path α} {live live' : Prop} {need : α → Prop}

/-- Nothing is to be shown. -/
theorem idle (h : Runs p) (hl : ¬ live) : Exhibits v p need live := ⟨h, fun hv => absurd hv hl⟩

theorem mono (h : Exhibits v p need live) (hl : live' → live) : Exhibits v p need live' :=
  ⟨h.runs, fun hv => h.shows (hl hv)⟩

theorem pure {a : α} (h : live → need a) : Exhibits v (Pure.pure a : Path α) need live :=
  ⟨⟨_, _, .intro⟩, fun hv => ⟨_, _, .intro, .inr ⟨by simp, a, rfl, h hv⟩⟩⟩

theorem bind {f : α → Path β} {need : β → Prop} {mid : α → Prop}
    (hp : Exhibits v p mid live) (hf : ∀ a, Exhibits v (f a) need (mid a)) :
    Exhibits v (p >>= f) need live :=
  ⟨hp.runs.bind fun a => (hf a).runs,
    fun hv => (hp.shows hv).bind (fun a => (hf a).runs) fun a => (hf a).shows⟩

theorem throw (h : ¬ live) : Exhibits v (Throw : Path α) need live := idle ⟨_, _, .intro⟩ h

theorem hazard {need : Unit → Prop} (h : live → need ()) : Exhibits v Hazard need live :=
  ⟨.of_cut .cut, fun hv => ⟨_, _, .pass, .inr ⟨by simp, (), rfl, h hv⟩⟩⟩

theorem hazard_bind {f : Unit → Path α} (hf : Exhibits v (f ()) need live) :
    Exhibits v (Hazard >>= f) need live := bind (hazard fun h => h) fun _ => hf

theorem hazardous (hp : Exhibits v p need live) : Exhibits v (Run.hazardous p) need live :=
  hazard_bind (hp.bind fun _ => hazard_bind (.pure fun h => h))

theorem read {need : Unit → Prop} (h : live → v = w ∨ need ()) :
    Exhibits v (Emit (.read w)) need live := by
  refine ⟨⟨_, _, .intro⟩, fun hv => ⟨_, _, .intro, (h hv).imp ?_ fun hn => ?_⟩⟩
  · rintro rfl
    exact ⟨[], [], rfl, by simp⟩
  · exact ⟨by simp, (), rfl, hn⟩

theorem write {need : Unit → Prop} (h : live → v ≠ w ∧ need ()) :
    Exhibits v (Emit (.write w)) need live := by
  refine ⟨⟨_, _, .intro⟩, fun hv => ⟨_, _, .intro, .inr ⟨?_, (), rfl, (h hv).2⟩⟩⟩
  simpa using (h hv).1

theorem either (hp : Exhibits v p need live) (hq : Exhibits v q need live') :
    Exhibits v (Either p q) need (live ∨ live') :=
  ⟨hp.runs.left, fun hv => hv.elim (fun h => (hp.shows h).left) fun h => (hq.shows h).right⟩

theorem ite {test : Path Bool} {live₁ live₂ : Prop}
    (ht : Exhibits v test (fun b => if b then live₁ else live₂) live)
    (hp : Exhibits v p need live₁) (hq : Exhibits v q need live₂) :
    Exhibits v (do if ← test then p else q) need live := by
  refine ht.bind fun b => ?_
  cases b with
  | false => exact hq
  | true => exact hp

/-- A loop needs what some number of its iterations needs: `live n` is what is needed before at most
`n` further iterations and the one that ends the loop. -/
theorem iterate_chain {step : Path (Option α)} {live : Nat → Prop} (hr : Runs (Iterate step))
    (hzero : Exhibits v step (fun a => a.elim False need) (live 0))
    (hsucc : ∀ n, Exhibits v step (fun a => a.elim (live n) need) (live (n + 1))) :
    Exhibits v (Iterate step) need (∃ n, live n) := by
  refine ⟨hr, fun ⟨n, hn⟩ => ?_⟩
  induction n with
  | zero => exact .iterate hr (hzero.shows hn) False.elim
  | succ n ih => exact .iterate hr ((hsucc n).shows hn) ih

/-- What stops early exhibits, and so does what goes on. -/
theorem resume {p : Path (Option α)} {q : Path α} {next : Prop}
    (hp : Exhibits v p (fun a => a.elim next need) live) (hq : Exhibits v q need next) :
    Exhibits v (p.resume q) need live := by
  refine hp.bind fun a => ?_
  cases a with
  | some a => exact Exhibits.pure fun h => h
  | none => exact hq

/-- What a statement needs next is what follows when it ends normally. -/
theorem andThen {p q : Path Exit} {need mid : Exit → Prop} (hp : Exhibits v p mid live)
    (hq : Exhibits v q need (mid .normal)) (hn : ∀ e, e ≠ .normal → mid e → need e) :
    Exhibits v (p.andThen q) need live := by
  refine hp.bind fun e => ?_
  cases e with
  | normal => exact hq
  | brk => exact .pure (hn _ (by decide))
  | cont => exact .pure (hn _ (by decide))
  | ret => exact .pure (hn _ (by decide))

end Exhibits

end Midend
