import Mathlib.Data.Finset.Sort
import Midend.IdSet
import Midend.Proofs.Sets.Words

/-!
# Sets of identifiers as finite sets

A sequence of calls works on several sets kept by number (`SetCall`), in any
representation that has the operations (`SetOps`). What each operation of a
representation does to the members, and what each question says of them, is stated once
(`SetRepr.Lawful`). From these laws one call keeps every set with the members of a finite
set and answers as that does (`Lawful.call_represents`), and so do all calls in a row.
Both the sets in words and those in one number are lawful: `SetCall.run_finsets`.
-/

namespace Midend

/-! ## Calls -/

/-- A call on sets kept by number. -/
inductive SetCall where
  | new (i : ℕ)
  | withCapacity (i n : ℕ)
  | ofList (i : ℕ) (members : List ℕ)
  | insert (i member : ℕ)
  | erase (i member : ℕ)
  | clear (i : ℕ)
  | union (i j : ℕ)
  | inter (i j : ℕ)
  | diff (i j : ℕ)

/-- The operations on sets of identifiers. One that says whether the set changed says so first. -/
structure SetOps (σ : Type) where
  new : σ
  withCapacity : ℕ → σ
  ofList : List ℕ → σ
  insert : σ → ℕ → Bool × σ
  erase : σ → ℕ → Bool × σ
  clear : σ → σ
  union : σ → σ → Bool × σ
  inter : σ → σ → σ
  diff : σ → σ → σ

/-- The set that a call changes. -/
def SetCall.target : SetCall → ℕ
  | new i | withCapacity i _ | ofList i _ | insert i _ | erase i _ | clear i | union i _
  | inter i _ | diff i _ => i

namespace SetOps

variable {σ : Type} (A : SetOps σ)

/-- What a call answers, and what it makes of the set that it changes. -/
def result (sets : ℕ → σ) : SetCall → Option Bool × σ
  | .new _ => (none, A.new)
  | .withCapacity _ n => (none, A.withCapacity n)
  | .ofList _ members => (none, A.ofList members)
  | .insert i member => (A.insert (sets i) member).map some id
  | .erase i member => (A.erase (sets i) member).map some id
  | .clear i => (none, A.clear (sets i))
  | .union i j => (A.union (sets i) (sets j)).map some id
  | .inter i j => (none, A.inter (sets i) (sets j))
  | .diff i j => (none, A.diff (sets i) (sets j))

/-- What a call answers, and the sets after it. -/
def call (sets : ℕ → σ) (c : SetCall) : Option Bool × (ℕ → σ) :=
  ((A.result sets c).1, Function.update sets c.target (A.result sets c).2)

/-- The answers to calls in order, and the sets that they leave. -/
def run (sets : ℕ → σ) : List SetCall → List (Option Bool) × (ℕ → σ)
  | [] => ([], sets)
  | c :: cs =>
    let (answer, sets) := A.call sets c
    let (answers, sets) := run sets cs
    (answer :: answers, sets)

end SetOps

/-- A representation of sets of identifiers, with what may be asked of them. -/
structure SetRepr (σ : Type) extends SetOps σ where
  contains : σ → ℕ → Bool
  isSubset : σ → σ → Bool
  isDisjoint : σ → σ → Bool
  beq : σ → σ → Bool
  isEmpty : σ → Bool
  size : σ → ℕ
  toList : σ → List ℕ

/-- The finite sets themselves. -/
def finsets : SetOps (Finset ℕ) where
  new := ∅
  withCapacity _ := ∅
  ofList := List.toFinset
  insert t i := (decide (Insert.insert i t ≠ t), Insert.insert i t)
  erase t i := (decide (t.erase i ≠ t), t.erase i)
  clear _ := ∅
  union t u := (decide (t ∪ u ≠ t), t ∪ u)
  inter t u := t ∩ u
  diff t u := t \ u

/-- Sets in words. -/
def wordSets : SetRepr WordSet where
  new := ∅
  withCapacity := WordSet.withCapacity
  ofList := WordSet.ofList
  insert := WordSet.insert
  erase := WordSet.erase
  clear := WordSet.clear
  union := WordSet.union
  inter := WordSet.inter
  diff := WordSet.diff
  contains := WordSet.contains
  isSubset := WordSet.isSubset
  isDisjoint := WordSet.isDisjoint
  beq s u := s == u
  isEmpty := WordSet.isEmpty
  size := WordSet.size
  toList := WordSet.toList

/-- Sets in one number, as the analyses keep them. -/
def idSets : SetRepr IdSet where
  new := ∅
  withCapacity _ := ∅
  ofList := IdSet.ofList
  insert := IdSet.insertNew
  erase := IdSet.eraseOld
  clear _ := ∅
  union := IdSet.absorb
  inter s u := s ∩ u
  diff s u := s \ u
  contains := IdSet.contains
  isSubset := IdSet.isSubset
  isDisjoint := IdSet.isDisjoint
  beq s u := s == u
  isEmpty := IdSet.isEmpty
  size := IdSet.size
  toList := IdSet.toList

/-! ## Laws -/

namespace SetRepr

variable {σ : Type} [Membership ℕ σ] {A : SetRepr σ}

/-- What the operations do to members, and what the answers say of them. -/
structure Lawful (A : SetRepr σ) : Prop where
  new : ∀ i, i ∉ A.new
  withCapacity : ∀ n i, i ∉ A.withCapacity n
  ofList : ∀ {is i}, i ∈ A.ofList is ↔ i ∈ is
  insert : ∀ {s i j}, i ∈ (A.insert s j).2 ↔ i = j ∨ i ∈ s
  erase : ∀ {s i j}, i ∈ (A.erase s j).2 ↔ i ≠ j ∧ i ∈ s
  clear : ∀ s i, i ∉ A.clear s
  union : ∀ {s u i}, i ∈ (A.union s u).2 ↔ i ∈ s ∨ i ∈ u
  inter : ∀ {s u i}, i ∈ A.inter s u ↔ i ∈ s ∧ i ∈ u
  diff : ∀ {s u i}, i ∈ A.diff s u ↔ i ∈ s ∧ i ∉ u
  inserted : ∀ {s i}, (A.insert s i).1 = true ↔ i ∉ s
  erased : ∀ {s i}, (A.erase s i).1 = true ↔ i ∈ s
  grew : ∀ {s u}, (A.union s u).1 = true ↔ ∃ i ∈ u, i ∉ s
  contains : ∀ {s i}, A.contains s i = true ↔ i ∈ s
  isSubset : ∀ {s u}, A.isSubset s u = true ↔ ∀ i ∈ s, i ∈ u
  isDisjoint : ∀ {s u}, A.isDisjoint s u = true ↔ ∀ i ∈ s, i ∉ u
  beq : ∀ {s u}, A.beq s u = true ↔ ∀ i, i ∈ s ↔ i ∈ u
  isEmpty : ∀ {s}, A.isEmpty s = true ↔ ∀ i, i ∉ s
  size : ∀ s, A.size s = (A.toList s).length
  toList : ∀ {s i}, i ∈ A.toList s ↔ i ∈ s
  pairwise_toList : ∀ s, (A.toList s).Pairwise (· < ·)

end SetRepr

/-- The sets of word vectors obey the laws of sets. -/
theorem wordSets_lawful : wordSets.Lawful where
  new := WordSet.not_mem_empty
  withCapacity := WordSet.not_mem_withCapacity
  ofList := WordSet.mem_ofList
  insert := WordSet.mem_insert
  erase := WordSet.mem_erase
  clear := WordSet.not_mem_clear
  union := WordSet.mem_union
  inter := WordSet.mem_inter
  diff := WordSet.mem_diff
  inserted := WordSet.fst_insert_iff
  erased := WordSet.fst_erase_iff
  grew := WordSet.fst_union_iff
  contains := WordSet.contains_iff
  isSubset := WordSet.isSubset_iff
  isDisjoint := WordSet.isDisjoint_iff
  beq := WordSet.beq_iff
  isEmpty := WordSet.isEmpty_iff
  size := WordSet.size_eq
  toList := WordSet.mem_toList
  pairwise_toList := WordSet.pairwise_toList

/-- A set without elements is the empty one. -/
theorem IdSet.eq_empty_iff {s : IdSet} : s = ∅ ↔ ∀ i, i ∉ s := by
  refine ⟨fun h i => by simp [h], fun h => ?_⟩
  ext i
  simp [h]

/-- The sets of numbers obey the laws of sets. -/
theorem idSets_lawful : idSets.Lawful where
  new := IdSet.not_mem_empty
  withCapacity _ := IdSet.not_mem_empty
  ofList := IdSet.mem_ofList
  insert := IdSet.mem_insert.trans or_comm
  erase := IdSet.mem_erase.trans and_comm
  clear _ := IdSet.not_mem_empty
  union := IdSet.mem_union
  inter := IdSet.mem_inter
  diff := IdSet.mem_diff
  inserted {s i} := by
    show (!s.contains i) = true ↔ i ∉ s
    rw [Bool.not_eq_true', ← Bool.not_eq_true]
    rfl
  erased := Iff.rfl
  grew {s u} := by
    show (!u.isSubset s) = true ↔ _
    rw [Bool.not_eq_true', ← Bool.not_eq_true, IdSet.isSubset_iff]
    simp
  contains := Iff.rfl
  isSubset := IdSet.isSubset_iff
  isDisjoint {s u} := by
    show (s ∩ u).isEmpty = true ↔ _
    rw [IdSet.isEmpty_iff, IdSet.eq_empty_iff]
    simp
  beq := beq_iff_eq.trans ⟨fun h i => by rw [h], IdSet.ext⟩
  isEmpty := IdSet.isEmpty_iff.trans IdSet.eq_empty_iff
  size _ := rfl
  toList := IdSet.mem_toList
  pairwise_toList := IdSet.pairwise_toList

/-! ## Runs -/

namespace SetRepr

variable {σ : Type} [Membership ℕ σ] {A : SetRepr σ} {s u : σ} {t v : Finset ℕ}

/-- The set has the members of the finite set. -/
def Represents (s : σ) (t : Finset ℕ) : Prop := ∀ i, i ∈ s ↔ i ∈ t

namespace Lawful

/-- One call answers as it does on finite sets, and leaves a set with the same members. -/
theorem result_represents (h : A.Lawful) {sets : ℕ → σ} {finite : ℕ → Finset ℕ}
    (hsets : ∀ i, Represents (sets i) (finite i)) (c : SetCall) :
    (A.result sets c).1 = (finsets.result finite c).1 ∧
      Represents (A.result sets c).2 (finsets.result finite c).2 := by
  cases c with
  | new i => exact ⟨rfl, fun i => by simp [SetOps.result, finsets, h.new]⟩
  | withCapacity i n => exact ⟨rfl, fun i => by simp [SetOps.result, finsets, h.withCapacity]⟩
  | ofList i members => exact ⟨rfl, fun i => by simp [SetOps.result, finsets, h.ofList]⟩
  | insert i j =>
    have hold := hsets i
    refine ⟨congrArg some (Bool.eq_iff_iff.2 ?_), fun n => ?_⟩
    · show (A.insert (sets i) j).1 = true ↔ decide (Insert.insert j (finite i) ≠ finite i) = true
      rw [h.inserted, hold j, decide_eq_true_iff, Ne, Finset.insert_eq_self]
    · show n ∈ (A.insert (sets i) j).2 ↔ n ∈ Insert.insert j (finite i)
      rw [h.insert, hold n, Finset.mem_insert]
  | erase i j =>
    have hold := hsets i
    refine ⟨congrArg some (Bool.eq_iff_iff.2 ?_), fun n => ?_⟩
    · show (A.erase (sets i) j).1 = true ↔ decide ((finite i).erase j ≠ finite i) = true
      rw [h.erased, hold j, decide_eq_true_iff, Ne, Finset.erase_eq_self, not_not]
    · show n ∈ (A.erase (sets i) j).2 ↔ n ∈ (finite i).erase j
      rw [h.erase, hold n, Finset.mem_erase]
  | clear i => exact ⟨rfl, fun i => by simp [SetOps.result, finsets, h.clear]⟩
  | union i j =>
    refine ⟨congrArg some (Bool.eq_iff_iff.2 ?_), fun n => ?_⟩
    · show (A.union (sets i) (sets j)).1 = true ↔ decide (finite i ∪ finite j ≠ finite i) = true
      rw [h.grew, decide_eq_true_iff, Ne, Finset.union_eq_left, Finset.not_subset]
      exact exists_congr fun n => and_congr (hsets j n) (not_congr (hsets i n))
    · show n ∈ (A.union (sets i) (sets j)).2 ↔ n ∈ finite i ∪ finite j
      rw [h.union, hsets i n, hsets j n, Finset.mem_union]
  | inter i j =>
    refine ⟨rfl, fun n => ?_⟩
    show n ∈ A.inter (sets i) (sets j) ↔ n ∈ finite i ∩ finite j
    rw [h.inter, hsets i n, hsets j n, Finset.mem_inter]
  | diff i j =>
    refine ⟨rfl, fun n => ?_⟩
    show n ∈ A.diff (sets i) (sets j) ↔ n ∈ finite i \ finite j
    rw [h.diff, hsets i n, hsets j n, Finset.mem_sdiff]

/-- One call answers as the finite sets do and keeps representing them. -/
theorem call_represents (h : A.Lawful) {sets : ℕ → σ} {finite : ℕ → Finset ℕ}
    (hsets : ∀ i, Represents (sets i) (finite i)) (c : SetCall) :
    (A.call sets c).1 = (finsets.call finite c).1 ∧
      ∀ i, Represents ((A.call sets c).2 i) ((finsets.call finite c).2 i) := by
  obtain ⟨hanswer, hset⟩ := h.result_represents hsets c
  refine ⟨hanswer, fun i => ?_⟩
  simp only [SetOps.call]
  rcases eq_or_ne i c.target with rfl | hi
  · rwa [Function.update_self, Function.update_self]
  · rw [Function.update_of_ne hi, Function.update_of_ne hi]
    exact hsets i

/-- All calls answer as on finite sets, and leave sets with the same members. -/
theorem run_represents (h : A.Lawful) (calls : List SetCall) :
    ∀ {sets : ℕ → σ} {finite : ℕ → Finset ℕ}, (∀ i, Represents (sets i) (finite i)) →
      (A.run sets calls).1 = (finsets.run finite calls).1 ∧
        ∀ i, Represents ((A.run sets calls).2 i) ((finsets.run finite calls).2 i) := by
  induction calls with
  | nil => exact fun hsets => ⟨rfl, hsets⟩
  | cons c calls ih =>
    intro sets finite hsets
    obtain ⟨hanswer, hnext⟩ := h.call_represents hsets c
    obtain ⟨hanswers, hend⟩ := ih hnext
    exact ⟨List.cons_eq_cons.2 ⟨hanswer, hanswers⟩, hend⟩

/-- A new set represents the empty one. -/
theorem new_represents (h : A.Lawful) : Represents A.new finsets.new :=
  fun n => iff_of_false (h.new n) (Finset.notMem_empty n)

end Lawful

/-- What is said of a set is said of the finite set that it stands for. -/
structure AnswersAs (A : SetRepr σ) (sets : ℕ → σ) (finite : ℕ → Finset ℕ) : Prop where
  contains : ∀ i n, A.contains (sets i) n = decide (n ∈ finite i)
  isSubset : ∀ i j, A.isSubset (sets i) (sets j) = decide (finite i ⊆ finite j)
  isDisjoint : ∀ i j, A.isDisjoint (sets i) (sets j) = decide (Disjoint (finite i) (finite j))
  beq : ∀ i j, A.beq (sets i) (sets j) = decide (finite i = finite j)
  isEmpty : ∀ i, A.isEmpty (sets i) = decide (finite i = ∅)
  size : ∀ i, A.size (sets i) = (finite i).card
  mem_toList : ∀ i n, n ∈ A.toList (sets i) ↔ n ∈ finite i
  pairwise_toList : ∀ i, (A.toList (sets i)).Pairwise (· < ·)

/-- Lawful sets answer every sequence of calls as finite sets do. -/
theorem Lawful.answersAs (h : A.Lawful) {sets : ℕ → σ} {finite : ℕ → Finset ℕ}
    (hsets : ∀ i, Represents (sets i) (finite i)) : A.AnswersAs sets finite where
  contains i n := by rw [Bool.eq_iff_iff, h.contains, hsets i n, decide_eq_true_iff]
  isSubset i j := by
    rw [Bool.eq_iff_iff, h.isSubset, decide_eq_true_iff]
    exact forall_congr' fun n => imp_congr (hsets i n) (hsets j n)
  isDisjoint i j := by
    rw [Bool.eq_iff_iff, h.isDisjoint, decide_eq_true_iff, Finset.disjoint_left]
    exact forall_congr' fun n => imp_congr (hsets i n) (not_congr (hsets j n))
  beq i j := by
    rw [Bool.eq_iff_iff, h.beq, decide_eq_true_iff, Finset.ext_iff]
    exact forall_congr' fun n => iff_congr (hsets i n) (hsets j n)
  isEmpty i := by
    rw [Bool.eq_iff_iff, h.isEmpty, decide_eq_true_iff, Finset.eq_empty_iff_forall_notMem]
    exact forall_congr' fun n => not_congr (hsets i n)
  size i := by
    have hlist : finite i = (A.toList (sets i)).toFinset :=
      Finset.ext fun n => by rw [List.mem_toFinset, h.toList, hsets i n]
    have hnodup : (A.toList (sets i)).Nodup := (h.pairwise_toList _).imp Nat.ne_of_lt
    rw [h.size, hlist, List.toFinset_card_of_nodup hnodup]
  mem_toList i n := h.toList.trans (hsets i n)
  pairwise_toList i := h.pairwise_toList _

end SetRepr

/-- Calls on sets that are new at first answer as they do on finite sets, and leave sets with the
same members, in words of any lengths as well as in one number. -/
theorem SetCall.run_finsets (calls : List SetCall) :
    let finite := finsets.run (fun _ => finsets.new) calls
    let words := wordSets.run (fun _ => wordSets.new) calls
    let ids := idSets.run (fun _ => idSets.new) calls
    (words.1 = finite.1 ∧ wordSets.AnswersAs words.2 finite.2) ∧
      ids.1 = finite.1 ∧ idSets.AnswersAs ids.2 finite.2 := by
  intro finite words ids
  obtain ⟨hwords, hwordSets⟩ := wordSets_lawful.run_represents calls fun _ =>
    wordSets_lawful.new_represents
  obtain ⟨hids, hidSets⟩ := idSets_lawful.run_represents calls fun _ => idSets_lawful.new_represents
  exact ⟨⟨hwords, wordSets_lawful.answersAs hwordSets⟩, hids, idSets_lawful.answersAs hidSets⟩

/-- A word that holds no member any more, a union of longer sets and a member at its boundary. -/
example : (wordSets.run (fun _ => wordSets.new)
    [.insert 0 64, .erase 0 64, .withCapacity 1 200, .insert 1 63, .union 0 1, .union 0 1,
      .ofList 2 [64, 63], .inter 2 1, .diff 0 2]).1 =
    [some true, some true, none, some true, some true, some false, none, none, none] := by
  decide

end Midend
