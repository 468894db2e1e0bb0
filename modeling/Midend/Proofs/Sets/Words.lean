import Mathlib.Data.List.GetD
import Midend.WordSet

/-!
# Sets in words

A list of words stands for the sequence of words that continues it by zeros
(`WordSet.word`), in which a set has a bit for every identifier. Each operation acts on
this sequence word by word, so the lengths of the lists that meet in it do not show:
`mem_union`, `mem_inter` and `mem_diff` say what becomes of the members, and two sets
are equal by `==` when they have the same members (`beq_iff`).
-/

namespace Midend

namespace WordSet

/-! ## Bits of a word -/

/-- Whether bit `j` is set. -/
def bit (w : UInt64) (j : ℕ) : Bool := w.toBitVec.getLsbD j

@[simp] theorem bit_zero (j : ℕ) : bit 0 j = false := BitVec.getLsbD_zero

@[simp] theorem bit_or (w x : UInt64) (j : ℕ) : bit (w ||| x) j = (bit w j || bit x j) :=
  BitVec.getLsbD_or

@[simp] theorem bit_and (w x : UInt64) (j : ℕ) : bit (w &&& x) j = (bit w j && bit x j) :=
  BitVec.getLsbD_and

/-- Complementing a word complements each of its bits. -/
theorem bit_not {j : ℕ} (hj : j < 64) (w : UInt64) : bit (~~~w) j = !bit w j := by
  show (~~~w.toBitVec).getLsbD j = _
  simp [bit, hj]

/-- A mask has its one bit set. -/
theorem bit_mask {i : ℕ} (hi : i < 64) (j : ℕ) :
    bit (1 <<< UInt64.ofNat i) j = decide (i = j) := by
  have h : (1 <<< UInt64.ofNat i : UInt64).toBitVec = BitVec.twoPow 64 i := by
    rw [UInt64.toBitVec_shiftLeft, BitVec.twoPow_eq, BitVec.shiftLeft_eq']
    congr 1
    simp
    omega
  rw [bit, h, BitVec.getLsbD_twoPow]
  simp [hi]

/-- A word is determined by its 64 bits. -/
theorem eq_of_bit {w x : UInt64} (h : ∀ j < 64, bit w j = bit x j) : w = x :=
  UInt64.toBitVec_inj.1 (BitVec.eq_of_getLsbD_eq h)

/-- A word is tested for a bit by its mask. -/
theorem and_mask_eq_zero {i : ℕ} (hi : i < 64) (w : UInt64) :
    w &&& 1 <<< UInt64.ofNat i = 0 ↔ bit w i = false := by
  constructor
  · intro h
    have hbit := congrArg (bit · i) h
    simpa [bit_mask hi] using hbit
  · intro h
    refine eq_of_bit fun j _ => ?_
    rw [bit_and, bit_mask hi, bit_zero]
    by_cases hij : i = j
    · rw [← hij, h, Bool.false_and]
    · rw [decide_eq_false hij, Bool.and_false]

/-- Two sequences of words are the same when they have the same bits. -/
theorem forall_word_eq {w x : ℕ → UInt64} :
    (∀ k, w k = x k) ↔ ∀ i, bit (w (i / 64)) (i % 64) = bit (x (i / 64)) (i % 64) := by
  refine ⟨fun h i => by rw [h], fun h k => eq_of_bit fun j hj => ?_⟩
  have hkj := h (64 * k + j)
  rwa [show (64 * k + j) / 64 = k by omega, show (64 * k + j) % 64 = j by omega] at hkj

/-! ## Lists of words -/

section

variable {as bs : List UInt64} {f : UInt64 → UInt64 → UInt64} {k : ℕ}

/-- Words that are added hold no element. -/
theorem getD_replicate (n : ℕ) : (List.replicate n (0 : UInt64)).getD k 0 = 0 := by
  rw [List.getD_eq_getElem?_getD, List.getElem?_replicate]
  split <;> rfl

/-- Growing a vector adds empty words only. -/
theorem getD_grown (n : ℕ) : (grown as n).getD k 0 = as.getD k 0 := by
  rcases Nat.lt_or_ge k as.length with hk | hk
  · exact List.getD_append as _ 0 k hk
  · rw [grown, List.getD_append_right as _ 0 k hk, getD_replicate, List.getD_eq_default as 0 hk]

/-- A vector grows to the length that is asked and never shrinks. -/
theorem length_grown (n : ℕ) : (grown as n).length = max as.length n := by
  rw [grown, List.length_append, List.length_replicate]
  omega

/-- Setting a word changes this word only. -/
theorem getD_set {i : ℕ} (hi : i < as.length) (w : UInt64) :
    (as.set i w).getD k 0 = if k = i then w else as.getD k 0 := by
  simp only [List.getD_eq_getElem?_getD, List.getElem?_set, if_pos hi]
  by_cases hki : k = i
  · rw [if_pos hki, if_pos hki.symm]
    rfl
  · rw [if_neg hki, if_neg fun h => hki h.symm]

/-- Combining into a vector works word by word when missing words act as empty ones. -/
theorem getD_zipInto (hleft : ∀ a, f a 0 = a)
    (hright : ∀ k, as.length ≤ k → f 0 (bs.getD k 0) = 0) :
    (zipInto f as bs).getD k 0 = f (as.getD k 0) (bs.getD k 0) := by
  induction as generalizing bs k with
  | nil => simpa [zipInto] using (hright k (Nat.zero_le k)).symm
  | cons a as ih =>
    cases bs with
    | nil => simp [zipInto, hleft]
    | cons b bs =>
      cases k with
      | zero => rfl
      | succ k => exact ih fun k hk => hright (k + 1) (Nat.succ_le_succ hk)

theorem getD_zipPadded (hright : ∀ b, f 0 b = 0) :
    (zipPadded f as bs).getD k 0 = f (as.getD k 0) (bs.getD k 0) := by
  induction as generalizing bs k with
  | nil => exact (hright _).symm
  | cons a as ih => cases bs <;> cases k <;> first | rfl | exact ih

/-- A test of all pairs covers the missing words when it holds against empty ones. -/
theorem all_zip {p : UInt64 → UInt64 → Bool} (hleft : ∀ a, p a 0 = true)
    (hright : ∀ k, as.length ≤ k → p 0 (bs.getD k 0) = true) :
    ((as.zip bs).all fun (a, b) => p a b) = true ↔ ∀ k, p (as.getD k 0) (bs.getD k 0) = true := by
  induction as generalizing bs with
  | nil => simpa using fun k => hright k (Nat.zero_le k)
  | cons a as ih =>
    cases bs with
    | nil => simpa using fun k => hleft _
    | cons b bs =>
      have ih := ih fun k hk => hright (k + 1) (Nat.succ_le_succ hk)
      rw [List.zip_cons_cons, List.all_cons, Bool.and_eq_true, ih]
      exact Nat.and_forall_add_one
        (p := fun k => p ((a :: as).getD k 0) ((b :: bs).getD k 0) = true)

/-- A vector is empty when each of its words is. -/
theorem all_eq_zero : as.all (· == 0) = true ↔ ∀ k, as.getD k 0 = 0 := by
  induction as with
  | nil => simp
  | cons a as ih =>
    rw [List.all_cons, Bool.and_eq_true, ih, beq_iff_eq]
    exact Nat.and_forall_add_one (p := fun k => (a :: as).getD k 0 = 0)

/-- A list is a prefix up to zeros when both stand for one sequence. -/
theorem take_beq_iff (h : as.length ≤ bs.length) :
    (bs.take as.length == as && (bs.drop as.length).all (· == 0)) = true ↔
      ∀ k, as.getD k 0 = bs.getD k 0 := by
  induction as generalizing bs with
  | nil =>
    show (bs.all (· == 0)) = true ↔ ∀ k, 0 = bs.getD k 0
    rw [all_eq_zero]
    exact forall_congr' fun k => eq_comm
  | cons a as ih =>
    cases bs with
    | nil => cases h
    | cons b bs =>
      have ih := ih (Nat.le_of_succ_le_succ h)
      rw [← Nat.and_forall_add_one]
      simp only [List.length_cons, List.take_succ_cons, List.drop_succ_cons, Bool.and_eq_true,
        beq_iff_eq, List.cons.injEq, List.getD_cons_zero, List.getD_cons_succ] at ih ⊢
      rw [← ih, and_assoc, eq_comm (a := a)]

end

/-! ## Members -/

variable {s t : WordSet} {i j k : ℕ}

/-- A word of the sequence that the list stands for. -/
def word (s : WordSet) (k : ℕ) : UInt64 := s.words.getD k 0

instance : Membership ℕ WordSet := ⟨fun s i => bit (s.word (i / 64)) (i % 64) = true⟩

/-- Membership is a bit of the word the element lies in. -/
theorem mem_iff : i ∈ s ↔ bit (s.word (i / 64)) (i % 64) = true := Iff.rfl

/-- The test for an element decides membership. -/
theorem contains_iff : s.contains i = true ↔ i ∈ s := by
  have hmask := and_mask_eq_zero (Nat.mod_lt i (by decide : 64 > 0))
  rw [mem_iff, word, List.getD_eq_getElem?_getD]
  simp only [contains, locate]
  cases s.words[i / 64]? with
  | none => simp
  | some w => simp [hmask]

/-- Two sets have the same members when they stand for one sequence. -/
theorem forall_mem_iff : (∀ i, i ∈ s ↔ i ∈ t) ↔ ∀ k, s.word k = t.word k := by
  rw [forall_word_eq]
  exact forall_congr' fun i => Bool.eq_iff_iff.symm

/-- Words without bits have no elements. -/
theorem not_mem_of_word (h : ∀ k, s.word k = 0) (i : ℕ) : i ∉ s := by
  rw [mem_iff, h, bit_zero]
  exact Bool.false_ne_true

/-- The empty set has no element. -/
theorem not_mem_empty (i : ℕ) : i ∉ (∅ : WordSet) := not_mem_of_word (fun _ => rfl) i

theorem not_mem_withCapacity (n i : ℕ) : i ∉ withCapacity n :=
  not_mem_of_word (fun _ => getD_replicate _) i

theorem not_mem_clear (s : WordSet) (i : ℕ) : i ∉ s.clear := by
  refine not_mem_of_word (fun k => ?_) i
  rw [word, clear, List.map_const', getD_replicate]

/-- An insertion sets one bit of one word. -/
theorem word_insert (s : WordSet) (i k : ℕ) :
    (s.insert i).2.word k =
      if k = i / 64 then s.word k ||| 1 <<< UInt64.ofNat (i % 64) else s.word k := by
  have hlen : i / 64 < (grown s.words (i / 64 + 1)).length := by
    rw [length_grown]
    omega
  simp only [word, insert, locate]
  rw [getD_set hlen, getD_grown, getD_grown]
  by_cases hk : k = i / 64
  · rw [if_pos hk, if_pos hk, hk]
  · rw [if_neg hk, if_neg hk]

/-- A removal clears one bit of one word. -/
theorem word_erase (s : WordSet) (i k : ℕ) :
    (s.erase i).2.word k =
      if k = i / 64 then s.word k &&& ~~~(1 <<< UInt64.ofNat (i % 64)) else s.word k := by
  simp only [word, erase, locate]
  cases h : s.words[i / 64]? with
  | none =>
    have hlen : s.words.length ≤ i / 64 := List.getElem?_eq_none_iff.1 h
    by_cases hk : k = i / 64
    · rw [if_pos hk, hk, List.getD_eq_default _ _ hlen, UInt64.zero_and]
    · rw [if_neg hk]
  | some w =>
    obtain ⟨hlen, rfl⟩ := List.getElem?_eq_some_iff.1 h
    rw [getD_set hlen]
    by_cases hk : k = i / 64
    · rw [if_pos hk, if_pos hk, hk, List.getD_eq_getElem _ _ hlen]
    · rw [if_neg hk, if_neg hk]

/-- After an insertion the set has the new element and those it had. -/
theorem mem_insert : i ∈ (s.insert j).2 ↔ i = j ∨ i ∈ s := by
  rw [mem_iff, mem_iff, word_insert]
  split
  next hk =>
    rw [bit_or, bit_mask (Nat.mod_lt j (by decide)), Bool.or_eq_true, decide_eq_true_iff]
    have : j % 64 = i % 64 ↔ i = j := by omega
    rw [this, or_comm]
  next hk =>
    have : i ≠ j := by omega
    rw [or_iff_right this]

/-- After a removal the set has those it had but the removed one. -/
theorem mem_erase : i ∈ (s.erase j).2 ↔ i ≠ j ∧ i ∈ s := by
  rw [mem_iff, mem_iff, word_erase]
  split
  next hk =>
    rw [bit_and, bit_not (Nat.mod_lt i (by decide)), bit_mask (Nat.mod_lt j (by decide)),
      Bool.and_eq_true, Bool.not_eq_true', decide_eq_false_iff_not]
    have : j % 64 = i % 64 ↔ i = j := by omega
    rw [this, and_comm]
  next hk =>
    have : i ≠ j := by omega
    rw [and_iff_right this]

/-- Inserting elements one after another adds them all. -/
theorem mem_foldl_insert {is : List ℕ} :
    ∀ {s : WordSet}, i ∈ is.foldl (fun s i => (s.insert i).2) s ↔ i ∈ is ∨ i ∈ s := by
  induction is with
  | nil => simp
  | cons j js ih =>
    intro s
    rw [List.foldl_cons, ih, mem_insert, List.mem_cons, or_left_comm, or_assoc]

/-- A set made of a list has its elements. -/
theorem mem_ofList {is : List ℕ} : i ∈ ofList is ↔ i ∈ is := by
  rw [ofList, mem_foldl_insert, or_iff_left (not_mem_empty i)]

/-- A union is taken word by word. -/
theorem word_union (s t : WordSet) (k : ℕ) : (s.union t).2.word k = s.word k ||| t.word k := by
  have hlen : t.words.length ≤ (grown s.words t.words.length).length := by
    rw [length_grown]
    exact Nat.le_max_right ..
  simp only [word, union]
  rw [getD_zipInto (fun a => UInt64.or_zero), getD_grown]
  intro k hk
  rw [List.getD_eq_default _ _ (Nat.le_trans hlen hk), UInt64.or_zero]

/-- An intersection is taken word by word. -/
theorem word_inter (s t : WordSet) (k : ℕ) : (s.inter t).word k = s.word k &&& t.word k :=
  getD_zipPadded fun _ => UInt64.zero_and

/-- A difference is taken word by word. -/
theorem word_diff (s t : WordSet) (k : ℕ) : (s.diff t).word k = s.word k &&& ~~~t.word k :=
  getD_zipInto (fun a => by simp) fun _ _ => UInt64.zero_and

/-- A union has the elements of either set. -/
theorem mem_union : i ∈ (s.union t).2 ↔ i ∈ s ∨ i ∈ t := by
  rw [mem_iff, word_union, bit_or, Bool.or_eq_true]
  rfl

/-- An intersection has the elements of both sets. -/
theorem mem_inter : i ∈ s.inter t ↔ i ∈ s ∧ i ∈ t := by
  rw [mem_iff, word_inter, bit_and, Bool.and_eq_true]
  rfl

/-- A difference has the elements of the first set that are not in the second. -/
theorem mem_diff : i ∈ s.diff t ↔ i ∈ s ∧ i ∉ t := by
  rw [mem_iff, word_diff, bit_and, bit_not (Nat.mod_lt i (by decide)), Bool.and_eq_true,
    Bool.not_eq_true', Bool.eq_false_iff]
  rfl

/-! ## Answers -/

/-- An insertion tells whether the element is new. -/
theorem fst_insert_iff : (s.insert i).1 = true ↔ i ∉ s := by
  simp only [insert, locate, getD_grown, beq_iff_eq]
  rw [and_mask_eq_zero (Nat.mod_lt i (by decide)), mem_iff, word, Bool.not_eq_true]

/-- A removal tells whether the element was there. -/
theorem fst_erase_iff : (s.erase i).1 = true ↔ i ∈ s := by
  have h : (s.erase i).1 = s.contains i := by
    simp only [erase, contains, locate]
    cases s.words[i / 64]? <;> rfl
  rw [h, contains_iff]

/-- A union tells whether it added an element. -/
theorem fst_union_iff : (s.union t).1 = true ↔ ∃ i ∈ t, i ∉ s := by
  have hlen : t.words.length ≤ (grown s.words t.words.length).length := by
    rw [length_grown]
    exact Nat.le_max_right ..
  have hsame : (s.union t).1 = false ↔ ∀ k, s.word k ||| t.word k = s.word k := by
    have hzip : (((grown s.words t.words.length).zip t.words).all fun (a, b) => a ||| b == a) =
        true ↔ ∀ k, ((grown s.words t.words.length).getD k 0 ||| t.words.getD k 0 ==
          (grown s.words t.words.length).getD k 0) = true := by
      refine all_zip (p := fun a b => a ||| b == a) (fun a => by simp) fun k hk => ?_
      rw [List.getD_eq_default _ _ (Nat.le_trans hlen hk)]
      rfl
    simp only [getD_grown, beq_iff_eq] at hzip
    rw [← Bool.not_eq_true', union, List.not_any_eq_all_not]
    simpa only [bne, Bool.not_not, word] using hzip
  rw [← Bool.not_eq_false, hsame, forall_word_eq, not_forall]
  refine exists_congr fun i => ?_
  rw [bit_or, mem_iff, mem_iff]
  cases bit (s.word (i / 64)) (i % 64) <;> cases bit (t.word (i / 64)) (i % 64) <;> simp

/-- The test for emptiness looks at every word. -/
theorem isEmpty_iff_word : s.isEmpty = true ↔ ∀ k, s.word k = 0 := all_eq_zero

/-- The test for emptiness decides that there is no element. -/
theorem isEmpty_iff : s.isEmpty = true ↔ ∀ i, i ∉ s := by
  rw [isEmpty_iff_word, forall_word_eq (x := fun _ => 0)]
  exact forall_congr' fun i => by rw [bit_zero, mem_iff, Bool.not_eq_true]

/-- The test for a subset decides inclusion. -/
theorem isSubset_iff : s.isSubset t = true ↔ ∀ i ∈ s, i ∈ t := by
  have h : s.isSubset t = true ↔ (s.diff t).isEmpty = true := by
    rw [isSubset, all_eq_zero, isEmpty_iff_word]
    refine forall_congr' fun k => ?_
    rw [word_diff, getD_zipPadded (f := fun a b => a &&& ~~~b) fun _ => UInt64.zero_and]
    rfl
  rw [h, isEmpty_iff]
  simp only [mem_diff, not_and, not_not]

/-- The test for disjointness decides that no element is shared. -/
theorem isDisjoint_iff : s.isDisjoint t = true ↔ ∀ i ∈ s, i ∉ t := by
  have h : s.isDisjoint t = true ↔ (s.inter t).isEmpty = true := by
    rw [isDisjoint, all_zip (p := fun a b => a &&& b == 0) (fun a => by simp) fun k _ => by simp,
      isEmpty_iff_word]
    exact forall_congr' fun k => by rw [word_inter, beq_iff_eq]; rfl
  rw [h, isEmpty_iff]
  simp only [mem_inter, not_and]

/-- Equality compares elements, however long the vectors are. -/
theorem beq_iff : (s == t) = true ↔ ∀ i, i ∈ s ↔ i ∈ t := by
  rw [forall_mem_iff]
  show s.eq t = true ↔ _
  unfold eq
  by_cases h : s.words.length ≤ t.words.length
  · rw [if_pos h]
    exact take_beq_iff h
  · rw [if_neg h]
    exact (take_beq_iff (Nat.le_of_not_le h)).trans (forall_congr' fun k => eq_comm)

/-! ## Listing -/

/-- The members of a word are the places of its bits. -/
theorem mem_wordMembers {w : UInt64} :
    i ∈ wordMembers k w ↔ i / 64 = k ∧ bit w (i % 64) = true := by
  simp only [wordMembers, List.mem_map, List.mem_filter, List.mem_range, bne_iff_ne]
  constructor
  · rintro ⟨j, ⟨hj, hbit⟩, rfl⟩
    rw [Ne, and_mask_eq_zero hj, Bool.not_eq_false] at hbit
    rw [show (k * 64 + j) / 64 = k by omega, show (k * 64 + j) % 64 = j by omega]
    exact ⟨rfl, hbit⟩
  · rintro ⟨rfl, hbit⟩
    have hi : i % 64 < 64 := Nat.mod_lt i (by decide)
    refine ⟨i % 64, ⟨hi, ?_⟩, Nat.div_add_mod' i 64⟩
    rwa [Ne, and_mask_eq_zero hi, Bool.not_eq_false]

/-- The members of words from an index on. -/
theorem mem_membersFrom {ws : List UInt64} :
    i ∈ membersFrom k ws ↔ k ≤ i / 64 ∧ bit (ws.getD (i / 64 - k) 0) (i % 64) = true := by
  induction ws generalizing k with
  | nil => simp [membersFrom]
  | cons w ws ih =>
    rw [membersFrom, List.mem_append, mem_wordMembers, ih]
    rcases Nat.lt_trichotomy (i / 64) k with h | h | h
    · omega
    · rw [h, Nat.sub_self, List.getD_cons_zero, or_iff_left fun h => Nat.not_succ_le_self k h.1]
      simp
    · obtain ⟨n, hn⟩ : ∃ n, i / 64 - k = n + 1 := ⟨i / 64 - k - 1, by omega⟩
      rw [hn, List.getD_cons_succ, show i / 64 - (k + 1) = n by omega,
        or_iff_right fun hk => Nat.ne_of_gt h hk.1, and_iff_right (Nat.succ_le_of_lt h),
        and_iff_right (Nat.le_of_lt h)]

/-- The list of a set has its elements. -/
theorem mem_toList : i ∈ s.toList ↔ i ∈ s := by
  rw [toList, mem_membersFrom, and_iff_right (Nat.zero_le _)]
  rfl

/-- The members of a word are listed in increasing order. -/
theorem pairwise_wordMembers (k : ℕ) (w : UInt64) : (wordMembers k w).Pairwise (· < ·) := by
  refine List.Pairwise.map _ (fun a b h => Nat.add_lt_add_left h _) ?_
  exact List.Pairwise.filter _ List.pairwise_lt_range

theorem pairwise_membersFrom (k : ℕ) (ws : List UInt64) :
    (membersFrom k ws).Pairwise (· < ·) := by
  induction ws generalizing k with
  | nil => exact .nil
  | cons w ws ih =>
    refine List.pairwise_append.2 ⟨pairwise_wordMembers k w, ih (k + 1), fun i hi j hj => ?_⟩
    have := (mem_wordMembers.1 hi).1
    have := (mem_membersFrom.1 hj).1
    omega

/-- The members are listed in increasing order. -/
theorem pairwise_toList (s : WordSet) : s.toList.Pairwise (· < ·) := pairwise_membersFrom ..

/-- A word has as many members as bits. -/
theorem length_wordMembers (k : ℕ) (w : UInt64) :
    (wordMembers k w).length = w.toBitVec.cpop.toNat := by
  have h : ∀ n ≤ 64, w.toBitVec.cpopNatRec n 0 =
      ((List.range n).filter fun j => w &&& 1 <<< UInt64.ofNat j != 0).length := by
    intro n hn
    induction n with
    | zero => rfl
    | succ n ih =>
      have hmask := and_mask_eq_zero (Nat.lt_of_succ_le hn) w
      rw [BitVec.cpopNatRec_succ, BitVec.cpopNatRec_add, ih (Nat.le_of_succ_le hn),
        List.range_succ, List.filter_append, List.length_append]
      show _ + (bit w n).toNat = _
      cases hbit : bit w n <;> simp [hbit, hmask]
  rw [BitVec.toNat_cpop, h 64 (Nat.le_refl _), wordMembers, List.length_map]

/-- The size is the number of elements. -/
theorem size_eq (s : WordSet) : s.size = s.toList.length := by
  have h : ∀ (k : ℕ) (ws : List UInt64),
      ws.foldr (fun w n => w.toBitVec.cpop.toNat + n) 0 = (membersFrom k ws).length := by
    intro k ws
    induction ws generalizing k with
    | nil => rfl
    | cons w ws ih =>
      rw [List.foldr_cons, ih (k + 1), membersFrom, List.length_append, length_wordMembers]
  exact h 0 s.words

end WordSet

end Midend
