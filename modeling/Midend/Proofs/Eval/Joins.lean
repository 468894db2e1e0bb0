import Midend.Proofs.Eval.Frame

/-!
# Joined contexts

Values form a flat order with the unknown value on top, in which two constants are the
same only if their bits are: `Value.join` knows exactly what both values know
(`Value.join_eq_known_iff`). The join of contexts is this join at every variable
(`Context.get_join`), so a context joined over a list knows exactly what all contexts
of the list know (`Context.get_foldl_join_eq_known_iff`), in whatever order and however
often they come.

A context binds variables to constants. `Bindings` is a map from variables to values,
which could bind a variable to the unknown value, with operations that test for it.
Made by the same calls (`Built`) the two stay the same map, and no variable is ever
bound to the unknown value (`Bindings.Built.join_laws`).
-/

namespace Midend

/-! ## Values -/

namespace Value

variable {x y : Value} {l : Literal}

/-- Two abstract values that are known to be the same literals are one value. -/
theorem eq_of_known_iff (h : ∀ l, x = known l ↔ y = known l) : x = y := by
  cases x with
  | known l => exact ((h l).1 rfl).symm
  | unknown =>
    cases y with
    | known l => exact (h l).2 rfl
    | unknown => rfl

/-- The join is the least value above both in the flat order. -/
theorem join_eq_known_iff : x.join y = known l ↔ x = known l ∧ y = known l := by
  constructor
  · exact fun h => ⟨weakens_join_left x y l h, weakens_join_right x y l h⟩
  · rintro ⟨rfl, rfl⟩
    exact join_self _

end Value

/-! ## Contexts -/

namespace Context

variable {c d : Context}

/-- The join does not depend on the order of the two contexts. -/
theorem join_comm (c d : Context) : c.join d = d.join c := by
  ext v
  refine Value.eq_of_known_iff fun l => ?_
  rw [get_join, get_join, Value.join_eq_known_iff, Value.join_eq_known_iff, and_comm]

/-- The join does not depend on how three contexts are grouped. -/
theorem join_assoc (c d e : Context) : (c.join d).join e = c.join (d.join e) := by
  ext v
  refine Value.eq_of_known_iff fun l => ?_
  simp only [get_join, Value.join_eq_known_iff, and_assoc]

/-- What is known after any number of paths meet is what is known on all of them. -/
theorem get_foldl_join_eq_known_iff {v : VarId} {l : Literal} :
    ∀ (cs : List Context) (c : Context),
      (cs.foldl join c).get v = .known l ↔ ∀ d ∈ c :: cs, d.get v = .known l
  | [], c => by simp
  | d :: cs, c => by
    rw [List.foldl_cons, get_foldl_join_eq_known_iff cs, List.forall_mem_cons, get_join,
      Value.join_eq_known_iff, List.forall_mem_cons, List.forall_mem_cons, and_assoc]

/-- Neither the order of the paths nor their repetition counts. -/
theorem foldl_join_eq {cs ds : List Context} (h : ∀ e, e ∈ c :: cs ↔ e ∈ d :: ds) :
    cs.foldl join c = ds.foldl join d := by
  ext v
  refine Value.eq_of_known_iff fun l => ?_
  rw [get_foldl_join_eq_known_iff, get_foldl_join_eq_known_iff]
  exact forall_congr' fun e => by rw [h e]

end Context

namespace EvalState

/-- The state after `continue` statements that are reached in the given contexts. -/
def continueFrom (s : EvalState) (cs : List Context) : EvalState :=
  cs.foldl (fun s c => { s with context := c }.continueLoop) s

/-- What is saved for a loop is the join of the contexts in which it is continued. -/
theorem continues_continueFrom {outer : List (Option Context)} :
    ∀ (cs : List Context) {s : EvalState} {c : Context}, s.continues = some c :: outer →
      (s.continueFrom cs).continues = some (cs.foldl Context.join c) :: outer
  | [], _, _, h => h
  | d :: cs, s, c, h => by
    have hstep : ({ s with context := d }.continueLoop).continues = some (c.join d) :: outer := by
      simp [continueLoop, h]
    exact continues_continueFrom cs hstep

/-- The first `continue` of a loop fills the empty slot; the later ones are joined to it. -/
theorem continues_continueFrom_cons {outer : List (Option Context)} {s : EvalState}
    (h : s.continues = none :: outer) (c : Context) (cs : List Context) :
    (s.continueFrom (c :: cs)).continues = some (cs.foldl Context.join c) :: outer := by
  have hfirst : ({ s with context := c }.continueLoop).continues = some c :: outer := by
    simp [continueLoop, h]
  exact continues_continueFrom cs hfirst

end EvalState

/-! ## Bindings to values -/

/-- A map from variables to values. A variable may be without a binding or, for all that is required
here, bound to the unknown value. -/
structure Bindings where
  values : IdMap Value := ∅

namespace Bindings

/-- The value bound to a local; unknown if there is none. -/
def get (m : Bindings) (v : VarId) : Value := (m.values.get? v).getD .unknown

/-- Binds a local; an unknown value leaves no entry. -/
def bind (m : Bindings) (v : VarId) (x : Value) : Bindings :=
  if x.isKnown then ⟨m.values.insert v x⟩ else ⟨m.values.erase v⟩

/-- Removes the bindings of the given variables one after another. -/
def forget (m : Bindings) (vs : List VarId) : Bindings := ⟨vs.foldl IdMap.erase m.values⟩

/-- Keeps the bindings to which the other map has an identical one. -/
def join (m n : Bindings) : Bindings :=
  ⟨m.values.filter fun v x => (n.values.get? v).any x.identical⟩

/-- What calls make of bindings and of a context that start out empty. -/
inductive Built : Bindings → Context → Prop where
  | new : Built {} ∅
  | bind {m c} (h : Built m c) (v : VarId) (x : Value) : Built (m.bind v x) (c.bind v x)
  | forget {m c} (h : Built m c) (vs : List VarId) : Built (m.forget vs) (c.forget (.ofList vs))
  | join {m n c d} (h : Built m c) (h' : Built n d) : Built (m.join n) (c.join d)

/-- Forgetting variables one by one removes those and keeps the rest. -/
theorem get?_foldl_erase (vs : List VarId) (values : IdMap Value) (v : VarId) :
    (vs.foldl IdMap.erase values).get? v = if v ∈ vs then none else values.get? v := by
  induction vs generalizing values with
  | nil => simp
  | cons u us ih =>
    rw [List.foldl_cons, ih, IdMap.get?_erase]
    by_cases hu : v = u <;> simp [hu]

/-- The bindings are those of the context. -/
def Represents (m : Bindings) (c : Context) : Prop :=
  ∀ v, m.values.get? v = (c.bindings.get? v).map .known

namespace Represents

variable {m n : Bindings} {c d : Context}

/-- A representation answers every lookup as its context does. -/
theorem get (h : m.Represents c) : m.get = c.get := by
  funext v
  rw [Bindings.get, h v, Context.get]
  cases c.bindings.get? v <;> rfl

theorem bind (h : m.Represents c) (v : VarId) (x : Value) :
    (m.bind v x).Represents (c.bind v x) := by
  intro u
  cases x with
  | unknown =>
    change (m.values.erase v).get? u = ((c.bindings.erase v).get? u).map .known
    rw [IdMap.get?_erase, IdMap.get?_erase, h u]
    split <;> rfl
  | known l =>
    change (m.values.insert v (.known l)).get? u = ((c.bindings.insert v l).get? u).map .known
    rw [IdMap.get?_insert, IdMap.get?_insert, h u]
    split <;> rfl

theorem forget (h : m.Represents c) (vs : List VarId) :
    (m.forget vs).Represents (c.forget (.ofList vs)) := by
  intro u
  rw [Bindings.forget, get?_foldl_erase, Context.forget, IdMap.get?_filter, h u]
  by_cases hu : u ∈ vs
  · have hcontains : (IdSet.ofList vs).contains u = true := IdSet.mem_ofList.2 hu
    rw [if_pos hu]
    cases c.bindings.get? u <;> simp [hcontains, Option.filter_some]
  · have hcontains : (IdSet.ofList vs).contains u = false :=
      Bool.eq_false_iff.2 fun hc => hu (IdSet.mem_ofList.1 hc)
    rw [if_neg hu]
    cases c.bindings.get? u <;> simp [hcontains, Option.filter_some]

/-- Joining the maps represents the join of the contexts. -/
theorem join (h : m.Represents c) (h' : n.Represents d) :
    (m.join n).Represents (c.join d) := by
  intro u
  rw [Bindings.join, Context.join, IdMap.get?_filter, IdMap.get?_filter, h u, h' u]
  cases c.bindings.get? u with
  | none => rfl
  | some l =>
    cases d.bindings.get? u with
    | none => rfl
    | some k =>
      by_cases hkl : l = k
      · subst hkl
        simp [Option.filter_some, Value.identical]
      · simp [Option.filter_some, Value.identical, hkl, Ne.symm hkl]

end Represents

variable {m n : Bindings} {c d : Context}

/-- Whatever the operations build represents the context they build. -/
theorem Built.represents (h : Built m c) : m.Represents c := by
  induction h with
  | new => exact fun _ => rfl
  | bind _ v x ih => exact ih.bind v x
  | forget _ vs ih => exact ih.forget vs
  | join _ _ ih ih' => exact ih.join ih'

/-- Whatever calls bindings and a context are made by, no variable is bound to the unknown value and
both give every variable the same value. The join gives a variable the join of its two values. It is
commutative, associative and idempotent, so contexts of several paths, and those of the `continue`
statements of a loop, join to the same whatever their order and repetition. -/
theorem Built.join_laws (hm : Built m c) (hn : Built n d) :
    (∀ v, m.values.get? v ≠ some .unknown) ∧
    m.get = c.get ∧ (m.join n).get = (c.join d).get ∧
    (∀ v, (m.join n).get v = (m.get v).join (n.get v)) ∧
    c.join d = d.join c ∧ (∀ e, (c.join d).join e = c.join (d.join e)) ∧ c.join c = c ∧
    ∀ cs ds : List Context, (∀ e, e ∈ c :: cs ↔ e ∈ d :: ds) →
      cs.foldl Context.join c = ds.foldl Context.join d ∧
      ∀ (s : EvalState) (outer : List (Option Context)), s.continues = none :: outer →
        (s.continueFrom (c :: cs)).continues = (s.continueFrom (d :: ds)).continues := by
  have hjoin : (m.join n).get = (c.join d).get := (hm.join hn).represents.get
  refine ⟨fun v hv => ?_, hm.represents.get, hjoin, fun v => ?_, c.join_comm d, c.join_assoc d,
    c.join_self, fun cs ds h => ⟨Context.foldl_join_eq h, fun s outer hs => ?_⟩⟩
  · rw [hm.represents v] at hv
    obtain ⟨l, -, hl⟩ := Option.map_eq_some_iff.1 hv
    cases hl
  · rw [hjoin, Context.get_join, hm.represents.get, hn.represents.get]
  · rw [EvalState.continues_continueFrom_cons hs, EvalState.continues_continueFrom_cons hs,
      Context.foldl_join_eq h]

/-- Two paths leave the same pattern that is not a number in variable 0 and zeros of different sign
in variable 1, and one of them forgets variable 2 again. -/
theorem Built.join_laws_zeros :
    let nan : Value := .known (.float 0x7fc00001)
    let positive : Value := .known (.double 0)
    let negative : Value := .known (.double 0x8000000000000000)
    let m : Bindings := (Bindings.bind {} 0 nan).bind 1 positive
    let n : Bindings := (((Bindings.bind {} 0 nan).bind 1 negative).bind 2 nan).forget [2]
    let c : Context := ((∅ : Context).bind 0 nan).bind 1 positive
    let d : Context :=
      ((((∅ : Context).bind 0 nan).bind 1 negative).bind 2 nan).forget (.ofList [2])
    Built m c ∧ Built n d ∧
      (m.join n).get 0 = nan ∧ (m.join n).get 1 = .unknown ∧ (m.join n).get 2 = .unknown ∧
      (∀ e, e ∈ [c, d, c, d] ↔ e ∈ [d, c]) ∧
      [d, c, d].foldl Context.join c = [c].foldl Context.join d := by
  intro nan positive negative m n c d
  have hm : Built m c := (Built.new.bind 0 nan).bind 1 positive
  have hn : Built n d := (((Built.new.bind 0 nan).bind 1 negative).bind 2 nan).forget [2]
  have hmem : ∀ e, e ∈ [c, d, c, d] ↔ e ∈ [d, c] := fun e => by
    grind
  obtain ⟨-, -, -, hget, -, -, -, hlists⟩ := Built.join_laws hm hn
  refine ⟨hm, hn, (hget 0).trans (by decide), (hget 1).trans (by decide),
    (hget 2).trans (by decide), hmem, (hlists [d, c, d] [c] hmem).1⟩

end Bindings

end Midend
