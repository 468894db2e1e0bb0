import Mathlib.Data.List.Find
import Mathlib.Data.List.Infix
import Mathlib.Logic.Function.Basic
import Midend.Invariant
import Midend.Proofs.Tree.Bare

/-!
# Groups of equal expressions

Adding an expression to groups puts it at the end of one of them or makes it a
group of its own (`InvariantGroup.add_cases`). Where structural equality is an
equivalence, the groups of a list are its classes, each in the order of the list
(`InvariantGroup.sorts_ofList`).

`Buckets` keeps the positions of the groups by a hash of their representatives and
looks an expression up only among those with its own hash. Equal expressions have
the same fingerprint, so the groups are the same whatever the hash of a fingerprint
is (`Buckets.groups_ofList`).
-/

namespace Midend

/-- Structural equality of these expressions is equality up to identifiers. -/
def Expr.Comparable (es : List Expr) : Prop :=
  ∀ e ∈ es, ∀ e' ∈ es, (e.sameAs e' = true ↔ e.bare = e'.bare)

namespace Expr.Comparable

variable {es es' : List Expr} {e e' e'' : Expr}

theorem mono (h : Comparable es') (hs : es ⊆ es') : Comparable es :=
  fun e he e' he' => h e (hs he) e' (hs he')

theorem symm (h : Comparable es) (he : e ∈ es) (he' : e' ∈ es) (hs : e.sameAs e' = true) :
    e'.sameAs e = true := (h e' he' e he).2 ((h e he e' he').1 hs).symm

theorem trans (h : Comparable es) (he : e ∈ es) (he' : e' ∈ es) (he'' : e'' ∈ es)
    (hs : e.sameAs e' = true) (hs' : e'.sameAs e'' = true) : e.sameAs e'' = true :=
  (h e he e'' he'').2 (((h e he e' he').1 hs).trans ((h e' he' e'' he'').1 hs'))

end Expr.Comparable

namespace InvariantGroup

variable {es : List Expr} {gs : List InvariantGroup} {e : Expr}

/-- The group with another occurrence. -/
def push (e : Expr) (g : InvariantGroup) : InvariantGroup := { g with others := g.others ++ [e] }

@[simp] theorem representative_push (e : Expr) (g : InvariantGroup) :
    (g.push e).representative = g.representative := rfl

@[simp] theorem occurrences_push (e : Expr) (g : InvariantGroup) :
    (g.push e).occurrences = g.occurrences ++ [e] := rfl

/-- An expression goes to the first group that it is equal to, or else to a group of its own. -/
theorem add_cases (e : Expr) (gs : List InvariantGroup) :
    (∃ before g after, gs = before ++ g :: after ∧
      (∀ g' ∈ before, g'.representative.sameAs e = false) ∧ g.representative.sameAs e = true ∧
        add e gs = before ++ g.push e :: after) ∨
    (∀ g ∈ gs, g.representative.sameAs e = false) ∧ add e gs = gs ++ [⟨e, []⟩] := by
  induction gs with
  | nil => exact .inr ⟨nofun, rfl⟩
  | cons g₀ gs ih =>
    by_cases h₀ : g₀.representative.sameAs e = true
    · exact .inl ⟨[], g₀, gs, rfl, nofun, h₀, by rw [add, if_pos h₀]; rfl⟩
    · rw [add, if_neg h₀]
      rw [Bool.not_eq_true] at h₀
      rcases ih with ⟨before, g, after, rfl, hbefore, hg, hadd⟩ | ⟨hall, hadd⟩
      · refine .inl ⟨g₀ :: before, g, after, rfl, ?_, hg, by rw [hadd]; rfl⟩
        exact List.forall_mem_cons.2 ⟨h₀, hbefore⟩
      · exact .inr ⟨List.forall_mem_cons.2 ⟨h₀, hall⟩, by rw [hadd]; rfl⟩

theorem ofList_concat (es : List Expr) (e : Expr) : ofList (es ++ [e]) = add e (ofList es) := by
  rw [ofList, List.foldl_append]
  rfl

/-- Every expression of a list is an occurrence of one group, once. -/
theorem perm_ofList (es : List Expr) : ((ofList es).flatMap occurrences).Perm es := by
  have hadd : ∀ (e : Expr) (gs : List InvariantGroup),
      ((add e gs).flatMap occurrences).Perm (gs.flatMap occurrences ++ [e]) := by
    intro e gs
    rcases add_cases e gs with ⟨before, g, after, rfl, -, -, h⟩ | ⟨-, h⟩
    · rw [h]
      simp only [List.flatMap_append, List.flatMap_cons, occurrences_push, List.append_assoc]
      refine .append_left _ (.append_left _ ?_)
      exact List.perm_append_comm
    · rw [h]
      simp [occurrences]
  induction es using List.reverseRecOn with
  | nil => exact .refl _
  | append_singleton es e ih =>
    rw [ofList_concat]
    exact (hadd e _).trans (ih.append_right _)

/-- The groups are the classes of equal expressions of a list, each in the order of the list. -/
structure Sorts (es : List Expr) (gs : List InvariantGroup) : Prop where
  occurrences : ∀ g ∈ gs, g.occurrences = es.filter g.representative.sameAs
  covers : ∀ e ∈ es, ∃ g ∈ gs, g.representative.sameAs e = true
  apart : (gs.map representative).Pairwise fun e e' => e.sameAs e' = false

/-- The representative of a group is one of the sorted expressions. -/
theorem Sorts.mem (h : Sorts es gs) {g : InvariantGroup} (hg : g ∈ gs) : g.representative ∈ es := by
  have hrep : g.representative ∈ g.occurrences := List.mem_cons_self
  rw [h.occurrences g hg] at hrep
  exact List.mem_of_mem_filter hrep

theorem Sorts.occurrences_concat (h : Sorts es gs) {g : InvariantGroup} (hg : g ∈ gs)
    (hne : g.representative.sameAs e = false) :
    g.occurrences = (es ++ [e]).filter g.representative.sameAs := by
  rw [List.filter_append, List.filter_singleton, hne, ← h.occurrences g hg]
  simp

/-- An expression is equal to the representative of one group only. -/
theorem Sorts.apart_after {before after : List InvariantGroup} {g : InvariantGroup}
    (h : Sorts es (before ++ g :: after)) (hes : Expr.Comparable (es ++ [e]))
    (hg : g.representative.sameAs e = true) : ∀ g' ∈ after, g'.representative.sameAs e = false := by
  intro g' hg'
  have hmem : g.representative ∈ es ++ [e] := List.mem_append_left _ (h.mem (by simp))
  have hmem' : g'.representative ∈ es ++ [e] := List.mem_append_left _ (h.mem (by simp [hg']))
  have hpairs := h.apart
  rw [List.map_append, List.map_cons] at hpairs
  have hne : g.representative.sameAs g'.representative = false :=
    List.rel_of_pairwise_cons (List.pairwise_append.1 hpairs).2.1 (List.mem_map_of_mem hg')
  by_contra hsame
  rw [Bool.not_eq_false] at hsame
  have heq := hes.trans hmem (by simp) hmem' hg (hes.symm hmem' (by simp) hsame)
  exact Bool.false_ne_true (hne.symm.trans heq)

/-- Adding an expression to the group that it is equal to sorts it in. -/
theorem Sorts.push {before after : List InvariantGroup} {g : InvariantGroup}
    (h : Sorts es (before ++ g :: after)) (hes : Expr.Comparable (es ++ [e]))
    (hbefore : ∀ g' ∈ before, g'.representative.sameAs e = false)
    (hg : g.representative.sameAs e = true) :
    Sorts (es ++ [e]) (before ++ g.push e :: after) where
  occurrences := by
    have hafter := h.apart_after hes hg
    simp only [List.forall_mem_append, List.forall_mem_cons]
    refine ⟨fun g' hg' => h.occurrences_concat (by simp [hg']) (hbefore g' hg'), ?_,
      fun g' hg' => h.occurrences_concat (by simp [hg']) (hafter g' hg')⟩
    rw [occurrences_push, representative_push, List.filter_append, List.filter_singleton, hg,
      ← h.occurrences g (by simp)]
    rfl
  covers e' he' := by
    rcases List.mem_append.1 he' with he' | he'
    · obtain ⟨g', hg', hsame⟩ := h.covers e' he'
      rw [List.mem_append, List.mem_cons] at hg'
      rcases hg' with hg' | rfl | hg'
      · exact ⟨g', by simp [hg'], hsame⟩
      · exact ⟨g'.push e, by simp, hsame⟩
      · exact ⟨g', by simp [hg'], hsame⟩
    · rw [List.mem_singleton.1 he']
      exact ⟨g.push e, by simp, hg⟩
  apart := by simpa using h.apart

/-- Making a group of an expression that is equal to no representative sorts it in. -/
theorem Sorts.single (h : Sorts es gs) (hes : Expr.Comparable (es ++ [e]))
    (hall : ∀ g ∈ gs, g.representative.sameAs e = false) :
    Sorts (es ++ [e]) (gs ++ [⟨e, []⟩]) where
  occurrences := by
    have hnone : es.filter e.sameAs = [] := by
      refine List.filter_eq_nil_iff.2 fun e' he' hsame => ?_
      obtain ⟨g, hg, hge⟩ := h.covers e' he'
      have hmem : g.representative ∈ es ++ [e] := List.mem_append_left _ (h.mem hg)
      have hmem' : e' ∈ es ++ [e] := List.mem_append_left _ he'
      have heq := hes.trans hmem hmem' (by simp) hge (hes.symm (by simp) hmem' hsame)
      exact Bool.false_ne_true ((hall g hg).symm.trans heq)
    simp only [List.forall_mem_append, List.forall_mem_singleton]
    refine ⟨fun g hg => h.occurrences_concat hg (hall g hg), ?_⟩
    rw [List.filter_append, hnone, List.filter_singleton, Expr.sameAs_self]
    rfl
  covers e' he' := by
    rcases List.mem_append.1 he' with he' | he'
    · obtain ⟨g, hg, hsame⟩ := h.covers e' he'
      exact ⟨g, List.mem_append_left _ hg, hsame⟩
    · rw [List.mem_singleton.1 he']
      exact ⟨⟨e, []⟩, by simp, Expr.sameAs_self e⟩
  apart := by
    rw [List.map_append, List.pairwise_append]
    refine ⟨h.apart, by simp, fun x hx y hy => ?_⟩
    obtain ⟨g, hg, rfl⟩ := List.mem_map.1 hx
    rw [List.mem_singleton.1 hy]
    exact hall g hg

/-- Adding an expression sorts it into its group or opens a new one. -/
theorem Sorts.add (h : Sorts es gs) (hes : Expr.Comparable (es ++ [e])) :
    Sorts (es ++ [e]) (add e gs) := by
  rcases add_cases e gs with ⟨before, g, after, rfl, hbefore, hg, hadd⟩ | ⟨hall, hadd⟩
  · rw [hadd]
    exact h.push hes hbefore hg
  · rw [hadd]
    exact h.single hes hall

/-- The groups of a list are its classes. -/
theorem sorts_ofList (hes : Expr.Comparable es) : Sorts es (ofList es) := by
  induction es using List.reverseRecOn with
  | nil => exact ⟨nofun, nofun, .nil⟩
  | append_singleton es e ih =>
    rw [ofList_concat]
    exact (ih (hes.mono (List.subset_append_left _ _))).add hes

/-- Two expressions of a list are in one group if and only if they are equal. -/
theorem Sorts.sameAs_iff (h : Sorts es gs) (hes : Expr.Comparable es) {e' : Expr} (he : e ∈ es)
    (he' : e' ∈ es) :
    e.sameAs e' = true ↔ ∃ g ∈ gs, e ∈ g.occurrences ∧ e' ∈ g.occurrences := by
  constructor
  · intro hsame
    obtain ⟨g, hg, hge⟩ := h.covers e he
    have hge' := hes.trans (h.mem hg) he he' hge hsame
    refine ⟨g, hg, ?_, ?_⟩
    · rw [h.occurrences g hg]
      exact List.mem_filter.2 ⟨he, hge⟩
    · rw [h.occurrences g hg]
      exact List.mem_filter.2 ⟨he', hge'⟩
  · rintro ⟨g, hg, hge, hge'⟩
    rw [h.occurrences g hg, List.mem_filter] at hge hge'
    exact hes.trans he (h.mem hg) he' (hes.symm (h.mem hg) he hge.2) hge'.2

end InvariantGroup

/-- Groups, and their positions by a hash of their representatives. -/
structure Buckets (κ : Type) where
  groups : List InvariantGroup := []
  positions : κ → List Nat := fun _ => []

namespace Buckets

variable {κ : Type} [DecidableEq κ] (hash : Expr → κ)

/-- Whether there is a group at a position whose representative satisfies `p`. -/
def holdsAt (gs : List InvariantGroup) (p : Expr → Bool) (i : Nat) : Bool :=
  gs[i]?.any fun g => p g.representative

/-- Adds an expression to the first group with its hash that it is equal to, or else as a group of
its own. -/
def add (e : Expr) (b : Buckets κ) : Buckets κ :=
  match (b.positions (hash e)).find? (holdsAt b.groups (·.sameAs e)) with
  | some i => { b with groups := b.groups.modify i (.push e) }
  | none =>
    { groups := b.groups ++ [⟨e, []⟩],
      positions := Function.update b.positions (hash e)
        (b.positions (hash e) ++ [b.groups.length]) }

/-- Groups equal expressions. -/
def ofList (es : List Expr) : Buckets κ := es.foldl (fun b e => add hash e b) {}

/-- The positions under a hash are those of the groups with this hash, in order. -/
def Indexed (b : Buckets κ) : Prop :=
  ∀ k, b.positions k =
    (List.range b.groups.length).filter (holdsAt b.groups fun x => hash x = k)

variable {hash} {b : Buckets κ} {gs : List InvariantGroup} {p : Expr → Bool} {e : Expr}

/-- At an existing group the test asks its representative. -/
theorem holdsAt_of_lt {i : Nat} (hi : i < gs.length) :
    holdsAt gs p i = p (gs[i]).representative := by
  rw [holdsAt, List.getElem?_eq_getElem hi, Option.any_some]

/-- An occurrence that is pushed does not change any representative. -/
theorem holdsAt_modify {i : Nat} : holdsAt (gs.modify i (.push e)) p = holdsAt gs p := by
  funext j
  rw [holdsAt, holdsAt, List.getElem?_modify]
  cases gs[j]? with
  | none => rfl
  | some g => by_cases hij : i = j <;> simp [hij]

/-- A group at the end is at a new position. -/
theorem filter_holdsAt_concat {g : InvariantGroup} :
    (List.range (gs ++ [g]).length).filter (holdsAt (gs ++ [g]) p) =
      (List.range gs.length).filter (holdsAt gs p) ++
        if p g.representative then [gs.length] else [] := by
  have hold : ∀ i ∈ List.range gs.length, holdsAt (gs ++ [g]) p i = holdsAt gs p i := by
    intro i hi
    rw [holdsAt, List.getElem?_append_left (List.mem_range.1 hi)]
    rfl
  have hnew : holdsAt (gs ++ [g]) p gs.length = p g.representative := by
    rw [holdsAt, List.getElem?_concat_length, Option.any_some]
  rw [List.length_append, List.length_singleton, List.range_succ, List.filter_append,
    List.filter_congr hold, List.filter_singleton, hnew]
  cases p g.representative <;> rfl

/-- The group that an expression is added to is the first at whose position it is equal. -/
theorem add_eq (e : Expr) (gs : List InvariantGroup) :
    InvariantGroup.add e gs =
      match (List.range gs.length).find? (holdsAt gs (·.sameAs e)) with
      | some i => gs.modify i (.push e)
      | none => gs ++ [⟨e, []⟩] := by
  induction gs with
  | nil => rfl
  | cons g gs ih =>
    have hsucc : holdsAt (g :: gs) (·.sameAs e) ∘ Nat.succ = holdsAt gs (·.sameAs e) := rfl
    have hzero : holdsAt (g :: gs) (·.sameAs e) 0 = g.representative.sameAs e := rfl
    rw [List.length_cons, List.range_succ_eq_map, List.find?_cons, hzero, InvariantGroup.add]
    cases h : g.representative.sameAs e with
    | true => rfl
    | false =>
      rw [if_neg Bool.false_ne_true, ih, List.find?_map, hsucc]
      cases (List.range gs.length).find? (holdsAt gs (·.sameAs e)) <;> rfl

/-- Looking only at groups with the same hash misses none that is equal. -/
theorem Indexed.find? (hb : b.Indexed hash)
    (he : ∀ g ∈ b.groups, g.representative.sameAs e = true → hash g.representative = hash e) :
    (b.positions (hash e)).find? (holdsAt b.groups (·.sameAs e)) =
      (List.range b.groups.length).find? (holdsAt b.groups (·.sameAs e)) := by
  rw [hb, List.find?_filter]
  refine List.find?_congr fun i hi => ?_
  have hi := List.mem_range.1 hi
  have hsame := he b.groups[i] (List.getElem_mem hi)
  rw [Bool.eq_iff_iff, decide_eq_true_eq, holdsAt_of_lt hi, holdsAt_of_lt hi]
  exact ⟨And.right, fun h => ⟨decide_eq_true (hsame h), h⟩⟩

/-- Adding an expression makes the groups that it makes without hashes, and keeps the positions. -/
theorem Indexed.add (hb : b.Indexed hash)
    (he : ∀ g ∈ b.groups, g.representative.sameAs e = true → hash g.representative = hash e) :
    (add hash e b).groups = InvariantGroup.add e b.groups ∧ (add hash e b).Indexed hash := by
  rw [Buckets.add, hb.find? he, add_eq]
  cases (List.range b.groups.length).find? (holdsAt b.groups (·.sameAs e)) with
  | some i =>
    refine ⟨rfl, fun k => ?_⟩
    simp only [List.length_modify, holdsAt_modify]
    exact hb k
  | none =>
    refine ⟨rfl, fun k => ?_⟩
    rw [filter_holdsAt_concat, ← hb k]
    by_cases hk : k = hash e
    · simp [hk]
    · simp [hk, Ne.symm hk]

/-- Groups are the same with hashes as without, if equal expressions have the same hash. -/
theorem groups_ofList {es : List Expr}
    (hes : ∀ e ∈ es, ∀ e' ∈ es, e.sameAs e' = true → hash e = hash e') :
    (ofList hash es).groups = InvariantGroup.ofList es := by
  suffices h : (ofList hash es).groups = InvariantGroup.ofList es ∧ (ofList hash es).Indexed hash
    from h.1
  induction es using List.reverseRecOn with
  | nil => exact ⟨rfl, fun _ => rfl⟩
  | append_singleton es e ih =>
    obtain ⟨hgs, hindexed⟩ := ih fun e he e' he' =>
      hes e (List.mem_append_left _ he) e' (List.mem_append_left _ he')
    have hadd : ofList hash (es ++ [e]) = add hash e (ofList hash es) := by
      rw [ofList, List.foldl_append]
      rfl
    rw [hadd, InvariantGroup.ofList_concat, ← hgs]
    refine hindexed.add fun g hg => hes _ (List.mem_append_left _ ?_) e (by simp)
    rw [hgs] at hg
    refine (InvariantGroup.perm_ofList es).subset (List.mem_flatMap.2 ⟨g, hg, ?_⟩)
    exact List.mem_cons_self

end Buckets

end Midend
