/-!
# Sets of identifiers

Variables and tree nodes are numbered from zero, so a set of them is a natural
number whose bit `i` says whether `i` is a member. Every operation is described
by its effect on membership (`mem_union`, `mem_erase`, …), and two sets with the
same members are equal (`IdSet.ext`).
-/

namespace Midend

/-- A finite set of identifiers. -/
structure IdSet where
  /-- Bit `i` is set exactly when `i` is a member. -/
  bits : Nat
deriving DecidableEq, Inhabited

namespace IdSet

/-! ## Operations -/

/-- The set without members. -/
def empty : IdSet := ⟨0⟩

instance : EmptyCollection IdSet := ⟨empty⟩

/-- Whether `i` is a member. -/
def contains (s : IdSet) (i : Nat) : Bool := s.bits.testBit i

instance : Membership Nat IdSet := ⟨fun s i => s.contains i = true⟩

instance (i : Nat) (s : IdSet) : Decidable (i ∈ s) :=
  inferInstanceAs (Decidable (s.contains i = true))

/-- The set with one member. -/
def singleton (i : Nat) : IdSet := ⟨1 <<< i⟩

/-- The identifiers below `n`. -/
def below (n : Nat) : IdSet := ⟨1 <<< n - 1⟩

/-- The members of either set. -/
def union (s t : IdSet) : IdSet := ⟨s.bits ||| t.bits⟩

instance : Union IdSet := ⟨union⟩

/-- The members of both sets. -/
def inter (s t : IdSet) : IdSet := ⟨s.bits &&& t.bits⟩

instance : Inter IdSet := ⟨inter⟩

/-- The members of `s` that are not in `t`. -/
def diff (s t : IdSet) : IdSet := ⟨s.bits ^^^ (s.bits &&& t.bits)⟩

instance : SDiff IdSet := ⟨diff⟩

/-- The set with one more member. -/
def insert (s : IdSet) (i : Nat) : IdSet := s ∪ singleton i

/-- The set without one of its members. -/
def erase (s : IdSet) (i : Nat) : IdSet := s \ singleton i

/-- The set of the members of a list. -/
def ofList (is : List Nat) : IdSet := is.foldl insert ∅

/-- The members among the identifiers from `start` on, given by the lowest `1 <<< k` bits of
`bits`. A half without members is skipped. -/
def membersFrom : (k start bits : Nat) → List Nat
  | 0, start, bits => if bits = 0 then [] else [start]
  | k + 1, start, bits =>
    if bits = 0 then []
    else
      membersFrom k start (bits % 1 <<< (1 <<< k)) ++
        membersFrom k (start + 1 <<< k) (bits >>> (1 <<< k))

/-- The members in increasing order. -/
def toList (s : IdSet) : List Nat := membersFrom (s.bits.log2.log2 + 1) 0 s.bits

/-- The number of members. -/
def size (s : IdSet) : Nat := s.toList.length

/-- Whether there are no members. -/
def isEmpty (s : IdSet) : Bool := s.bits == 0

/-- Whether every member of `s` is one of `t`. -/
def isSubset (s t : IdSet) : Bool := (s \ t).isEmpty

/-- Whether the sets have no member in common. -/
def isDisjoint (s t : IdSet) : Bool := (s ∩ t).isEmpty

/-- The union of a list of sets. -/
def unions (ss : List IdSet) : IdSet := ss.foldl (· ∪ ·) ∅

/-! ## Operations that report a change -/

/-- Inserts `i` and says whether it was absent. -/
def insertNew (s : IdSet) (i : Nat) : Bool × IdSet := (!s.contains i, s.insert i)

/-- Erases `i` and says whether it was present. -/
def eraseOld (s : IdSet) (i : Nat) : Bool × IdSet := (s.contains i, s.erase i)

/-- Adds the members of `t` and says whether one of them was absent. -/
def absorb (s t : IdSet) : Bool × IdSet := (!t.isSubset s, s ∪ t)

/-- The members between braces: `{0, 99}`. -/
def text (s : IdSet) : String :=
  "\x7b" ++ ", ".intercalate (s.toList.map Nat.repr) ++ "\x7d"

/-! ## Membership -/

theorem mem_iff {s : IdSet} {i : Nat} : i ∈ s ↔ s.bits.testBit i = true := Iff.rfl

theorem contains_iff {s : IdSet} {i : Nat} : s.contains i = true ↔ i ∈ s := Iff.rfl

/-- Sets with the same members are equal. -/
@[ext] theorem ext {s t : IdSet} (h : ∀ i, i ∈ s ↔ i ∈ t) : s = t := by
  cases s with | mk a => cases t with | mk b =>
  congr 1
  exact Nat.eq_of_testBit_eq fun i => Bool.eq_iff_iff.2 (h i)

@[simp] theorem not_mem_empty (i : Nat) : i ∉ (∅ : IdSet) := by
  show ¬ (0 : Nat).testBit i = true
  simp

@[simp] theorem mem_singleton {i j : Nat} : i ∈ singleton j ↔ i = j := by
  simp only [mem_iff, singleton, Nat.one_shiftLeft, Nat.testBit_two_pow, decide_eq_true_eq]
  exact eq_comm

@[simp] theorem mem_below {i n : Nat} : i ∈ below n ↔ i < n := by
  simp [mem_iff, below, Nat.one_shiftLeft, Nat.testBit_two_pow_sub_one]

@[simp] theorem mem_union {i : Nat} {s t : IdSet} : i ∈ s ∪ t ↔ i ∈ s ∨ i ∈ t := by
  show (s.bits ||| t.bits).testBit i = true ↔ _
  simp [mem_iff, Nat.testBit_or]

@[simp] theorem mem_inter {i : Nat} {s t : IdSet} : i ∈ s ∩ t ↔ i ∈ s ∧ i ∈ t := by
  show (s.bits &&& t.bits).testBit i = true ↔ _
  simp [mem_iff, Nat.testBit_and]

@[simp] theorem mem_diff {i : Nat} {s t : IdSet} : i ∈ s \ t ↔ i ∈ s ∧ i ∉ t := by
  show (s.bits ^^^ (s.bits &&& t.bits)).testBit i = true ↔ _
  simp only [mem_iff, Nat.testBit_xor, Nat.testBit_and]
  cases s.bits.testBit i <;> cases t.bits.testBit i <;> simp

@[simp] theorem mem_insert {i j : Nat} {s : IdSet} : i ∈ s.insert j ↔ i ∈ s ∨ i = j := by
  simp [insert]

@[simp] theorem mem_erase {i j : Nat} {s : IdSet} : i ∈ s.erase j ↔ i ∈ s ∧ i ≠ j := by
  simp [erase]

/-- Inserting one identifier after the other adds all of them. -/
theorem mem_foldl_insert {i : Nat} {is : List Nat} :
    ∀ {s : IdSet}, i ∈ is.foldl insert s ↔ i ∈ s ∨ i ∈ is := by
  induction is with
  | nil => simp
  | cons j js ih =>
    intro s
    rw [List.foldl_cons, ih, mem_insert, List.mem_cons, or_assoc]

@[simp] theorem mem_ofList {i : Nat} {is : List Nat} : i ∈ ofList is ↔ i ∈ is := by
  rw [ofList, mem_foldl_insert]
  simp

theorem isEmpty_iff {s : IdSet} : s.isEmpty = true ↔ s = ∅ := by
  cases s
  simp [isEmpty, EmptyCollection.emptyCollection, empty]

/-- Nothing is left of a subset when the members of the other set are taken away. -/
theorem isSubset_iff {s t : IdSet} : s.isSubset t = true ↔ ∀ i ∈ s, i ∈ t := by
  rw [isSubset, isEmpty_iff]
  constructor
  · intro h i hi
    refine Decidable.byContradiction fun ht => ?_
    have : i ∈ s \ t := mem_diff.2 ⟨hi, ht⟩
    rw [h] at this
    exact not_mem_empty i this
  · intro h
    ext i
    simpa using h i

/-! ## Listing -/

/-- A range of bits is searched by halves, and every bit that is set is found. -/
theorem mem_membersFrom {i : Nat} :
    ∀ {k start bits : Nat}, bits < 1 <<< (1 <<< k) →
      (i ∈ membersFrom k start bits ↔ start ≤ i ∧ bits.testBit (i - start) = true)
  | 0, start, bits, h => by
    have h2 : bits < 2 := h
    unfold membersFrom
    rcases Nat.lt_or_ge bits 1 with h1 | h1
    · obtain rfl : bits = 0 := by omega
      simp
    · obtain rfl : bits = 1 := by omega
      simp only [Nat.testBit_one_eq_true_iff_self_eq_zero, List.mem_singleton,
        if_neg (by decide : ¬ (1 : Nat) = 0)]
      omega
  | k + 1, start, bits, h => by
    unfold membersFrom
    split
    · rename_i h0
      subst h0
      simp
    · have hw : 1 <<< (k + 1) = 1 <<< k + 1 <<< k := by
        simp only [Nat.one_shiftLeft, Nat.pow_succ]
        omega
      rw [hw] at h
      have hpos : 0 < 1 <<< (1 <<< k) := by
        rw [Nat.one_shiftLeft]
        exact Nat.two_pow_pos _
      have hlow : bits % 1 <<< (1 <<< k) < 1 <<< (1 <<< k) := Nat.mod_lt _ hpos
      have hhigh : bits >>> (1 <<< k) < 1 <<< (1 <<< k) := by
        rw [Nat.shiftRight_eq_div_pow, ← Nat.one_shiftLeft]
        refine Nat.div_lt_of_lt_mul ?_
        rwa [Nat.one_shiftLeft, ← Nat.pow_add, ← Nat.one_shiftLeft]
      rw [List.mem_append, mem_membersFrom hlow, mem_membersFrom hhigh, Nat.one_shiftLeft (1 <<< k),
        Nat.testBit_mod_two_pow, Nat.testBit_shiftRight]
      generalize 1 <<< k = w
      simp only [Bool.and_eq_true, decide_eq_true_eq]
      constructor
      · rintro (⟨hs, -, hb⟩ | ⟨hs, hb⟩)
        · exact ⟨hs, hb⟩
        · refine ⟨by omega, ?_⟩
          rwa [show i - start = w + (i - (start + w)) by omega]
      · rintro ⟨hs, hb⟩
        rcases Nat.lt_or_ge (i - start) w with hi | hi
        · exact .inl ⟨hs, hi, hb⟩
        · refine .inr ⟨by omega, ?_⟩
          rwa [show w + (i - (start + w)) = i - start by omega]

theorem mem_toList {i : Nat} {s : IdSet} : i ∈ s.toList ↔ i ∈ s := by
  have h : s.bits < 1 <<< (1 <<< (s.bits.log2.log2 + 1)) := by
    rw [Nat.one_shiftLeft, Nat.one_shiftLeft]
    exact Nat.lt_of_lt_of_le Nat.lt_log2_self (Nat.pow_le_pow_right (by decide) Nat.lt_log2_self)
  rw [toList, mem_membersFrom h, mem_iff]
  simp

/-- Whatever the bits are, nothing outside of the range is found. -/
theorem bounds_of_mem_membersFrom {i : Nat} :
    ∀ {k start bits : Nat}, i ∈ membersFrom k start bits → start ≤ i ∧ i < start + 1 <<< k
  | 0, start, bits, h => by
    unfold membersFrom at h
    split at h
    · simp at h
    · rw [List.mem_singleton.1 h]
      exact ⟨Nat.le_refl _, Nat.lt_succ_self _⟩
  | k + 1, start, bits, h => by
    have hw : 1 <<< (k + 1) = 1 <<< k + 1 <<< k := by
      simp only [Nat.one_shiftLeft, Nat.pow_succ]
      omega
    unfold membersFrom at h
    split at h
    · simp at h
    · rcases List.mem_append.1 h with h | h
      · have := bounds_of_mem_membersFrom h
        omega
      · have := bounds_of_mem_membersFrom h
        omega

/-- The members come in ascending order. -/
theorem pairwise_membersFrom :
    ∀ k start bits : Nat, (membersFrom k start bits).Pairwise (· < ·)
  | 0, start, bits => by
    unfold membersFrom
    split <;> simp
  | k + 1, start, bits => by
    unfold membersFrom
    split
    · simp
    · refine List.pairwise_append.2
        ⟨pairwise_membersFrom .., pairwise_membersFrom .., fun i hi j hj => ?_⟩
      have := bounds_of_mem_membersFrom hi
      have := bounds_of_mem_membersFrom hj
      omega

/-- The members are listed in increasing order. -/
theorem pairwise_toList (s : IdSet) : s.toList.Pairwise (· < ·) := pairwise_membersFrom ..

end IdSet

end Midend
