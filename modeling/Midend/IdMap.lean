/-!
# Finite maps keyed by identifiers

An `IdMap` lists its entries by increasing key, so a map is determined by its
look-ups (`IdMap.ext`) and its entries come out in the order in which they are
reported. Each operation is described by what `get?` finds afterwards.
-/

namespace Midend

/-! ## Association lists

The first entry of a key is the one that is found. -/

namespace Assoc

/-- What is found in a list is its first entry, if that has the key, or what is found in the
rest. -/
theorem lookup_cons_eq {κ α : Type} [DecidableEq κ] (k l : κ) (v : α) (rest : List (κ × α)) :
    ((l, v) :: rest).lookup k = if k = l then some v else rest.lookup k := by
  rw [List.lookup_cons]
  by_cases h : k = l
  · simp [h]
  · have : (k == l) = false := by simp [h]
    simp [h, this]

/-- In the graph of a function on some keys, its value is found under each of them. -/
theorem lookup_graph {κ α : Type} [DecidableEq κ] (f : κ → α) {k : κ} :
    ∀ {ks : List κ}, k ∈ ks → (ks.map fun l => (l, f l)).lookup k = some (f k)
  | [], h => by simp at h
  | l :: ls, h => by
    rw [List.map_cons, lookup_cons_eq]
    by_cases hk : k = l
    · rw [if_pos hk, hk]
    · rw [if_neg hk]
      exact lookup_graph f ((List.mem_cons.1 h).resolve_left hk)

end Assoc

/-- A finite map from identifiers to values. -/
structure IdMap (α : Type) where
  /-- The entries by increasing key. -/
  toList : List (Nat × α)
  sorted : toList.Pairwise (·.1 < ·.1) := by simp

namespace IdMap

open Assoc (lookup_cons_eq)

variable {α : Type}

/-! ## Operations -/

/-- The map without entries. -/
def empty : IdMap α := ⟨[], by simp⟩

instance : EmptyCollection (IdMap α) := ⟨empty⟩

instance : Inhabited (IdMap α) := ⟨empty⟩

/-- The value stored under `k`. -/
def get? (m : IdMap α) (k : Nat) : Option α := m.toList.lookup k

/-- Puts an entry in its place, over the one with the same key. -/
def place (k : Nat) (v : α) : List (Nat × α) → List (Nat × α)
  | [] => [(k, v)]
  | (l, w) :: rest =>
    if k < l then (k, v) :: (l, w) :: rest
    else if k = l then (k, v) :: rest
    else (l, w) :: place k v rest

/-- Every entry is the new one or was there. -/
theorem mem_place {k : Nat} {v : α} {p : Nat × α} :
    ∀ {es : List (Nat × α)}, p ∈ place k v es → p = (k, v) ∨ p ∈ es
  | [] => by simp [place]
  | (l, w) :: rest => by
    unfold place
    split
    · simp
    · split
      · simp only [List.mem_cons]
        rintro (h | h)
        · exact .inl h
        · exact .inr (.inr h)
      · simp only [List.mem_cons]
        rintro (h | h)
        · exact .inr (.inl h)
        · exact (mem_place h).imp id .inr

/-- The keys stay in order. -/
theorem pairwise_place (k : Nat) (v : α) :
    ∀ {es : List (Nat × α)}, es.Pairwise (·.1 < ·.1) → (place k v es).Pairwise (·.1 < ·.1)
  | [], _ => by simp [place]
  | (l, w) :: rest, h => by
    have ⟨hl, hr⟩ := List.pairwise_cons.1 h
    unfold place
    split
    · rename_i hk
      refine List.pairwise_cons.2 ⟨fun p hp => ?_, h⟩
      rcases List.mem_cons.1 hp with rfl | hp
      · exact hk
      · exact Nat.lt_trans hk (hl p hp)
    · split
      · rename_i hk
        subst hk
        exact List.pairwise_cons.2 ⟨hl, hr⟩
      · refine List.pairwise_cons.2 ⟨fun p hp => ?_, pairwise_place k v hr⟩
        rcases mem_place hp with rfl | hp
        · show l < k
          omega
        · exact hl p hp

/-- Stores `v` under `k`. -/
def insert (m : IdMap α) (k : Nat) (v : α) : IdMap α :=
  ⟨place k v m.toList, pairwise_place k v m.sorted⟩

/-- Keeps the entries that satisfy `p`. -/
def filter (m : IdMap α) (p : Nat → α → Bool) : IdMap α :=
  ⟨m.toList.filter fun e => p e.1 e.2, m.sorted.filter _⟩

/-- Forgets the value stored under `k`. -/
def erase (m : IdMap α) (k : Nat) : IdMap α := m.filter fun l _ => l != k

/-! ## Look-ups -/

theorem lookup_eq_none_of_lt {k : Nat} :
    ∀ {es : List (Nat × α)}, (∀ p ∈ es, k < p.1) → es.lookup k = none
  | [], _ => rfl
  | (l, w) :: rest, h => by
    have hl : k < l := h (l, w) (by simp)
    rw [lookup_cons_eq, if_neg (by omega)]
    exact lookup_eq_none_of_lt fun p hp => h p (List.mem_cons_of_mem _ hp)

/-- The new entry is found under its key, and every other key as before. -/
theorem lookup_place (k : Nat) (v : α) (j : Nat) :
    ∀ es : List (Nat × α), (place k v es).lookup j = if j = k then some v else es.lookup j
  | [] => by rw [place, lookup_cons_eq]
  | (l, w) :: rest => by
    unfold place
    split
    · rw [lookup_cons_eq]
    · split
      · rename_i hk
        subst hk
        rw [lookup_cons_eq, lookup_cons_eq]
        split <;> simp_all
      · rename_i hk
        rw [lookup_cons_eq, lookup_cons_eq, lookup_place k v j rest]
        split
        · rename_i hj
          rw [if_neg (by omega)]
        · rfl

@[simp] theorem get?_empty (j : Nat) : (∅ : IdMap α).get? j = none := rfl

theorem get?_insert (m : IdMap α) (k : Nat) (v : α) (j : Nat) :
    (m.insert k v).get? j = if j = k then some v else m.get? j :=
  lookup_place k v j m.toList

/-- Keys are in order, so the entry that is found is the only one there is to keep. -/
theorem lookup_filter (p : Nat → α → Bool) (j : Nat) :
    ∀ {es : List (Nat × α)}, es.Pairwise (·.1 < ·.1) →
      (es.filter fun e => p e.1 e.2).lookup j = (es.lookup j).filter (p j)
  | [], _ => rfl
  | (l, w) :: rest, hs => by
    have ⟨hl, hr⟩ := List.pairwise_cons.1 hs
    have ih := lookup_filter p j hr
    rw [List.filter_cons, lookup_cons_eq]
    by_cases h : j = l
    · subst h
      have hn : rest.lookup j = none := lookup_eq_none_of_lt hl
      by_cases hp : p j w
      · simp [hp, Option.filter_some]
      · simp [hp, ih, hn, Option.filter_some]
    · by_cases hp : p l w
      · simp [hp, h, lookup_cons_eq, ih]
      · simp [hp, h, ih]

theorem get?_filter (m : IdMap α) (p : Nat → α → Bool) (j : Nat) :
    (m.filter p).get? j = (m.get? j).filter (p j) :=
  lookup_filter p j m.sorted

theorem get?_erase (m : IdMap α) (k j : Nat) :
    (m.erase k).get? j = if j = k then none else m.get? j := by
  rw [erase, get?_filter]
  by_cases h : j = k <;> cases hm : m.get? j <;> simp [h]

/-- In order, entries are determined by what is found under each key. -/
theorem entries_ext :
    ∀ {es fs : List (Nat × α)}, es.Pairwise (·.1 < ·.1) → fs.Pairwise (·.1 < ·.1) →
      (∀ j, es.lookup j = fs.lookup j) → es = fs
  | [], [], _, _, _ => rfl
  | [], (l, w) :: _, _, _, h => by simpa [lookup_cons_eq] using h l
  | (k, v) :: _, [], _, _, h => by simpa [lookup_cons_eq] using h k
  | (k, v) :: es, (l, w) :: fs, he, hf, h => by
    have ⟨hk, he'⟩ := List.pairwise_cons.1 he
    have ⟨hl, hf'⟩ := List.pairwise_cons.1 hf
    have hkl : k = l := by
      rcases Nat.lt_trichotomy k l with hlt | heq | hgt
      · have hn : fs.lookup k = none :=
          lookup_eq_none_of_lt fun p hp => Nat.lt_trans hlt (hl p hp)
        have hne : k ≠ l := by omega
        simpa [lookup_cons_eq, hne, hn] using h k
      · exact heq
      · have hn : es.lookup l = none :=
          lookup_eq_none_of_lt fun p hp => Nat.lt_trans hgt (hk p hp)
        have hne : l ≠ k := by omega
        simpa [lookup_cons_eq, hne, hn] using h l
    subst hkl
    have hvw : v = w := by simpa [lookup_cons_eq] using h k
    subst hvw
    refine congrArg _ (entries_ext he' hf' fun j => ?_)
    by_cases hj : j = k
    · subst hj
      rw [lookup_eq_none_of_lt hk, lookup_eq_none_of_lt hl]
    · simpa [lookup_cons_eq, hj] using h j

/-- Maps with the same value under every key are equal. -/
@[ext] theorem ext {m n : IdMap α} (h : ∀ j, m.get? j = n.get? j) : m = n := by
  cases m with | mk es he => cases n with | mk fs hf =>
  have : es = fs := entries_ext he hf h
  subst this
  rfl

end IdMap

end Midend
