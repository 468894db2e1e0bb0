import Mathlib.Data.List.Basic
import Midend.Proofs.Value.Concat

/-!
# Quoted text is read back

A text between quotes is read piece by piece: an escape, four hexadecimal digits after
`\u`, or a character that stands for itself (`readQuoted`). A quote, a backslash or the
end of a line never stands for itself. Each code unit is written as one such piece
(`escapeUnit_cases`), so a literal of a string or a character stands between quotes that
nothing inside can end, and its code units are read back from it (`Spells`).

A text is known from its code units (`units_injective`): a character is one unit that is
no half of a pair, or the two halves of a pair. So different literals are written
differently (`Literal.text_reads_back`).
-/

namespace Midend

namespace Text

/-! ## Reading -/

/-- The value of a hexadecimal digit. -/
def hexValue? (c : Char) : Option ℕ :=
  if '0' ≤ c ∧ c ≤ '9' then some (c.toNat - '0'.toNat)
  else if 'a' ≤ c ∧ c ≤ 'f' then some (c.toNat - 'a'.toNat + 10)
  else if 'A' ≤ c ∧ c ≤ 'F' then some (c.toNat - 'A'.toNat + 10)
  else none

/-- The code unit with the given hexadecimal digits. -/
def hexUnit? (digits : List Char) : Option UInt16 :=
  (digits.mapM hexValue?).map fun values => .ofNat (values.foldl (fun n d => 16 * n + d) 0)

/-- The code unit that a character stands for after a backslash. -/
def escaped? (quote c : Char) : Option UInt16 :=
  if c = 'n' then some 0x0A
  else if c = 't' then some 0x09
  else if c = 'r' then some 0x0D
  else if c = '\\' then some 0x5C
  else if c = quote then some c.val.toUInt16
  else none

/-- The code units of what stands between quotes; none if it is no such text. -/
def readQuoted (quote : Char) : List Char → Option (List UInt16)
  | [] => some []
  | '\\' :: 'u' :: a :: b :: c :: d :: cs => do
    let u ← hexUnit? [a, b, c, d]
    return u :: (← readQuoted quote cs)
  | '\\' :: c :: cs => do
    let u ← escaped? quote c
    return u :: (← readQuoted quote cs)
  | c :: cs =>
    if c = quote ∨ c = '\\' ∨ c = '\r' ∨ c = '\n' then none
    else do return unitsOf c ++ (← readQuoted quote cs)

/-- The characters that no backslash stands before. -/
def bare : List Char → List Char
  | '\\' :: _ :: cs => bare cs
  | c :: cs => c :: bare cs
  | [] => []

/-- The text is that of the code units between quotes. Inside there is no bare quote or backslash
and no end of a line, and the code units are read back. -/
def Spells (quote : Char) (us : List UInt16) (text : String) : Prop :=
  ∃ inside, text.toList = quote :: inside ++ [quote] ∧ quote ∉ bare inside ∧ '\\' ∉ bare inside ∧
    '\r' ∉ inside ∧ '\n' ∉ inside ∧ readQuoted quote inside = some us

/-- One text spells one sequence of units. -/
theorem Spells.unique {quote : Char} {us vs : List UInt16} {text : String}
    (h : Spells quote us text) (h' : Spells quote vs text) : us = vs := by
  obtain ⟨inside, ht, -, -, -, -, hus⟩ := h
  obtain ⟨inside', ht', -, -, -, -, hvs⟩ := h'
  rw [ht] at ht'
  obtain rfl : inside = inside' :=
    List.append_cancel_right (List.cons.inj ht').2
  exact Option.some.inj (hus.symm.trans hvs)

/-! ## Hexadecimal digits -/

theorem hexValue?_digitChar : ∀ d < 16, hexValue? (Nat.digitChar d) = some d := by decide

theorem digitChar_ne : ∀ d < 16, Nat.digitChar d ∉ ['\'', '"', '\\', '\r', '\n'] := by decide

/-- Four hexadecimal digits are read back as the unit. -/
theorem hexUnit?_hex4 (u : UInt16) : hexUnit? (hex4 u) = some u := by
  have hlt : u.toNat < 2 ^ 16 := u.toNat_lt
  have hdigit : ∀ n, hexValue? (Nat.digitChar (u.toNat >>> n % 16)) = some (u.toNat >>> n % 16) :=
    fun n => hexValue?_digitChar _ (Nat.mod_lt _ (by decide))
  have hsum : 16 * (16 * (16 * (16 * 0 + u.toNat >>> 12 % 16) + u.toNat >>> 8 % 16) +
      u.toNat >>> 4 % 16) + u.toNat >>> 0 % 16 = u.toNat := by
    simp only [Nat.shiftRight_eq_div_pow]
    omega
  simp only [hexUnit?, hex4, List.map_cons, List.map_nil, List.mapM_cons, List.mapM_nil, hdigit,
    Option.bind_eq_bind, Option.bind_some, Option.pure_def, Option.map_some, List.foldl_cons,
    List.foldl_nil, hsum, UInt16.ofNat_toNat]

/-- Hexadecimal digits need no escape. -/
theorem not_mem_hex4 {c : Char} (h : c ∈ ['\'', '"', '\\', '\r', '\n']) (u : UInt16) :
    c ∉ hex4 u := by
  intro hc
  obtain ⟨n, -, rfl⟩ := List.mem_map.1 hc
  exact digitChar_ne _ (Nat.mod_lt _ (by decide)) h

/-! ## Writing -/

/-- What literals are quoted with. -/
def IsQuote (c : Char) : Prop := c = '\'' ∨ c = '"'

theorem IsQuote.mem {quote : Char} (h : IsQuote quote) :
    quote ∈ ['\'', '"', '\\', '\r', '\n'] := by
  obtain rfl | rfl := h <;> decide

/-- A unit is that of the character it has. -/
theorem eq_of_charOf? {u v : UInt16} {c : Char} (h : charOf? u = some c) (hv : unitsOf c = [v]) :
    u = v := by
  rw [unitsOf_charOf? h] at hv
  exact List.singleton_inj.1 hv

/-- A unit is written as an escape, by its digits, or as a character that stands for itself. -/
theorem escapeUnit_cases {quote : Char} (hq : IsQuote quote) (u : UInt16) :
    (∃ c ∈ ['n', 't', 'r', '\\', quote], escapeUnit quote u = ['\\', c] ∧
      escaped? quote c = some u) ∨
    escapeUnit quote u = '\\' :: 'u' :: hex4 u ∨
    ∃ c, c ∉ [quote, '\\', '\r', '\n'] ∧ escapeUnit quote u = [c] ∧ unitsOf c = [u] := by
  unfold escapeUnit
  split
  · next h =>
    obtain rfl := eq_of_charOf? h (v := 0x0A) (by decide)
    exact .inl ⟨'n', by simp, rfl, rfl⟩
  · next h =>
    obtain rfl := eq_of_charOf? h (v := 0x09) (by decide)
    exact .inl ⟨'t', by simp, rfl, rfl⟩
  · next h =>
    obtain rfl := eq_of_charOf? h (v := 0x0D) (by decide)
    exact .inl ⟨'r', by simp, rfl, rfl⟩
  · next h =>
    obtain rfl := eq_of_charOf? h (v := 0x5C) (by decide)
    exact .inl ⟨'\\', by simp, rfl, rfl⟩
  · next c hn ht hr hb h =>
    split
    · next hc =>
      subst hc
      refine .inl ⟨c, by simp, rfl, ?_⟩
      obtain rfl | rfl := hq
      · rw [eq_of_charOf? h (v := 0x27) (by decide)]
        rfl
      · rw [eq_of_charOf? h (v := 0x22) (by decide)]
        rfl
    · next hc =>
      split
      · exact .inr (.inl rfl)
      · refine .inr (.inr ⟨c, ?_, rfl, unitsOf_charOf? h⟩)
        simp only [List.mem_cons, List.not_mem_nil, or_false, not_or]
        exact ⟨hc, hb, hr, hn⟩
  · exact .inr (.inl rfl)

/-! ## Pieces -/

/-- An escaped character is read back as its unit. -/
theorem readQuoted_escape {quote c : Char} {u : UInt16} (h : escaped? quote c = some u)
    (hc : c ≠ 'u') (cs : List Char) :
    readQuoted quote ('\\' :: c :: cs) = (readQuoted quote cs).map (u :: ·) := by
  rw [readQuoted, h]
  · cases readQuoted quote cs <;> rfl
  · exact fun _ _ _ _ _ hu => absurd hu hc

/-- An escape by number is read back as its unit. -/
theorem readQuoted_hex4 (quote : Char) (u : UInt16) (cs : List Char) :
    readQuoted quote ('\\' :: 'u' :: hex4 u ++ cs) = (readQuoted quote cs).map (u :: ·) := by
  have hunit := hexUnit?_hex4 u
  simp only [hex4, List.map_cons, List.map_nil] at hunit ⊢
  simp only [List.cons_append, List.nil_append, readQuoted, hunit]
  cases readQuoted quote cs <;> rfl

/-- A plain character is read back as its units. -/
theorem readQuoted_cons {quote c : Char} (h : c ∉ [quote, '\\', '\r', '\n']) (cs : List Char) :
    readQuoted quote (c :: cs) = (readQuoted quote cs).map (unitsOf c ++ ·) := by
  simp only [List.mem_cons, List.not_mem_nil, or_false] at h
  have hc : c ≠ '\\' := fun hb => h (.inr (.inl hb))
  rw [readQuoted, if_neg h]
  · cases readQuoted quote cs <;> rfl
  · exact fun _ _ _ _ _ hb => absurd hb hc
  · exact fun _ _ hb => absurd hb hc

/-- A plain character stands outside of escapes. -/
theorem bare_cons {c : Char} (h : c ≠ '\\') (cs : List Char) : bare (c :: cs) = c :: bare cs := by
  rw [bare]
  exact fun _ _ hb => absurd hb h

theorem bare_append {cs : List Char} (h : '\\' ∉ cs) (ds : List Char) :
    bare (cs ++ ds) = cs ++ bare ds := by
  induction cs with
  | nil => rfl
  | cons c cs ih =>
    obtain ⟨hc, hcs⟩ := not_or.1 (List.mem_cons.not.1 h)
    rw [List.cons_append, bare_cons (Ne.symm hc), ih hcs, List.cons_append]

section

variable {quote : Char} (hq : IsQuote quote) (u : UInt16)

include hq

/-- Whatever is written for a unit is read back as this unit. -/
theorem readQuoted_escapeUnit (cs : List Char) :
    readQuoted quote (escapeUnit quote u ++ cs) = (readQuoted quote cs).map (u :: ·) := by
  obtain ⟨c, hc, h, hu⟩ | h | ⟨c, hc, h, hu⟩ := escapeUnit_cases hq u
  · rw [h]
    refine readQuoted_escape hu ?_ cs
    rintro rfl
    obtain rfl | rfl := hq <;> exact absurd hc (by decide)
  · rw [h, readQuoted_hex4]
  · rw [h, List.singleton_append, readQuoted_cons hc, hu]
    rfl

/-- What a unit adds to the bare characters is neither a quote nor a backslash. -/
theorem mem_bare_escapeUnit {x : Char} (hx : x = quote ∨ x = '\\') {cs : List Char}
    (h : x ∈ bare (escapeUnit quote u ++ cs)) : x ∈ bare cs := by
  obtain ⟨c, -, hu, -⟩ | hu | ⟨c, hc, hu, -⟩ := escapeUnit_cases hq u
  · rwa [hu] at h
  · have hdigits : bare ('\\' :: 'u' :: hex4 u ++ cs) = hex4 u ++ bare cs :=
      bare_append (not_mem_hex4 (by decide) u) cs
    rw [hu, hdigits] at h
    refine (List.mem_append.1 h).resolve_left (not_mem_hex4 ?_ u)
    obtain rfl | rfl := hx
    · exact hq.mem
    · decide
  · have hne : c ≠ '\\' := fun hb => hc (by simp [hb])
    rw [hu, List.singleton_append, bare_cons hne] at h
    refine (List.mem_cons.1 h).resolve_left ?_
    rintro rfl
    obtain rfl | rfl := hx <;> exact hc (by simp)

/-- No end of a line is written into the text. -/
theorem not_mem_escapeUnit {x : Char} (hx : x = '\r' ∨ x = '\n') : x ∉ escapeUnit quote u := by
  intro h
  obtain ⟨c, hc, hu, -⟩ | hu | ⟨c, hc, hu, -⟩ := escapeUnit_cases hq u
  · have hx' : x ∉ ['n', 't', 'r', '\\', quote] := by
      obtain rfl | rfl := hx <;> obtain rfl | rfl := hq <;> decide
    rw [hu] at h
    obtain rfl | h := List.mem_cons.1 h
    · exact hx' (by simp)
    · exact hx' (List.mem_singleton.1 h ▸ hc)
  · rw [hu] at h
    have hdigits : x ∉ hex4 u := not_mem_hex4 (by obtain rfl | rfl := hx <;> decide) u
    obtain rfl | rfl := hx <;> simp_all
  · rw [hu, List.mem_singleton] at h
    subst h
    obtain rfl | rfl := hx <;> exact hc (by simp)

end

/-! ## Quoted units -/

theorem readQuoted_flatMap {quote : Char} (hq : IsQuote quote) (us : List UInt16) :
    readQuoted quote (us.flatMap (escapeUnit quote)) = some us := by
  induction us with
  | nil => rfl
  | cons u us ih => rw [List.flatMap_cons, readQuoted_escapeUnit hq, ih, Option.map_some]

/-- Outside of escapes the text has neither quote nor backslash. -/
theorem not_mem_bare_flatMap {quote : Char} (hq : IsQuote quote) {x : Char}
    (hx : x = quote ∨ x = '\\') (us : List UInt16) :
    x ∉ bare (us.flatMap (escapeUnit quote)) := by
  induction us with
  | nil => exact List.not_mem_nil
  | cons u us ih => exact fun h => ih (mem_bare_escapeUnit hq u hx h)

/-- Code units between quotes are read back. -/
theorem quoted_spells {quote : Char} (hq : IsQuote quote) (us : List UInt16) :
    Spells quote us (quoted quote us) := by
  refine ⟨us.flatMap (escapeUnit quote), String.toList_ofList,
    not_mem_bare_flatMap hq (.inl rfl) us, not_mem_bare_flatMap hq (.inr rfl) us, ?_, ?_,
    readQuoted_flatMap hq us⟩
  · intro h
    obtain ⟨u, -, hu⟩ := List.mem_flatMap.1 h
    exact not_mem_escapeUnit hq u (.inl rfl) hu
  · intro h
    obtain ⟨u, -, hu⟩ := List.mem_flatMap.1 h
    exact not_mem_escapeUnit hq u (.inr rfl) hu

/-! ## Units of text -/

/-- A character below `U+10000` is one unit, and no half of a pair. -/
theorem unitsOf_small {c : Char} (h : c.toNat < 0x10000) :
    ∃ u, unitsOf c = [u] ∧ u.toNat = c.toNat ∧ (u.toNat < 0xD800 ∨ 0xDFFF < u.toNat) := by
  have hval : c.val < 0x10000 := UInt32.lt_iff_toNat_lt.2 h
  have hunit : c.val.toUInt16.toNat = c.toNat := by
    rw [UInt32.toNat_toUInt16]
    exact Nat.mod_eq_of_lt h
  refine ⟨c.val.toUInt16, by rw [unitsOf, if_pos hval], hunit, ?_⟩
  have hvalid : c.toNat < 0xD800 ∨ 0xDFFF < c.toNat ∧ c.toNat < 0x110000 := c.valid
  rw [hunit]
  omega

/-- Any other character is a pair, whose halves say how far it is from `U+10000`. -/
theorem unitsOf_large {c : Char} (h : 0x10000 ≤ c.toNat) :
    ∃ u v, unitsOf c = [u, v] ∧ u.toNat = 0xD800 + (c.toNat - 0x10000) / 0x400 ∧
      v.toNat = 0xDC00 + (c.toNat - 0x10000) % 0x400 ∧ c.toNat < 0x110000 := by
  have hvalid : c.toNat < 0xD800 ∨ 0xDFFF < c.toNat ∧ c.toNat < 0x110000 := c.valid
  have hval : ¬c.val < 0x10000 := fun hlt => absurd (UInt32.lt_iff_toNat_lt.1 hlt) (Nat.not_lt.2 h)
  have hoffset : (c.val - 0x10000).toNat = c.toNat - 0x10000 :=
    UInt32.toNat_sub_of_le _ _ (UInt32.le_iff_toNat_le.2 h)
  refine ⟨(0xD800 : UInt16) + ((c.val - 0x10000) >>> 10).toUInt16,
    (0xDC00 : UInt16) + ((c.val - 0x10000) &&& 0x3FF).toUInt16,
    by rw [unitsOf, if_neg hval], ?_, ?_, by omega⟩
  · have hshift : ((c.val - 0x10000) >>> 10).toNat = (c.toNat - 0x10000) / 0x400 := by
      rw [UInt32.toNat_shiftRight, hoffset, Nat.shiftRight_eq_div_pow]
      rfl
    rw [UInt16.toNat_add, UInt32.toNat_toUInt16, hshift]
    change (0xD800 + _) % 2 ^ 16 = _
    omega
  · have hmask : ((c.val - 0x10000) &&& 0x3FF).toNat = (c.toNat - 0x10000) % 0x400 := by
      rw [UInt32.toNat_and, hoffset]
      exact Nat.and_two_pow_sub_one_eq_mod _ 10
    rw [UInt16.toNat_add, UInt32.toNat_toUInt16, hmask]
    change (0xDC00 + _) % 2 ^ 16 = _
    omega

/-- The units of a character can be told from those that follow. -/
theorem unitsOf_append_inj {c d : Char} {us vs : List UInt16}
    (h : unitsOf c ++ us = unitsOf d ++ vs) : c = d ∧ us = vs := by
  obtain hc | hc := Nat.lt_or_ge c.toNat 0x10000 <;>
    obtain hd | hd := Nat.lt_or_ge d.toNat 0x10000
  · obtain ⟨u, hu, hcu, -⟩ := unitsOf_small hc
    obtain ⟨v, hv, hdv, -⟩ := unitsOf_small hd
    rw [hu, hv] at h
    obtain ⟨rfl, hrest⟩ := List.cons.inj h
    exact ⟨Char.toNat_inj.1 (hcu.symm.trans hdv), hrest⟩
  · obtain ⟨u, hu, -, hpair⟩ := unitsOf_small hc
    obtain ⟨v, w, hv, hdv, -, hlt⟩ := unitsOf_large hd
    rw [hu, hv] at h
    obtain ⟨rfl, -⟩ := List.cons.inj h
    omega
  · obtain ⟨u, w, hu, hcu, -, hlt⟩ := unitsOf_large hc
    obtain ⟨v, hv, -, hpair⟩ := unitsOf_small hd
    rw [hu, hv] at h
    obtain ⟨rfl, -⟩ := List.cons.inj h
    omega
  · obtain ⟨u, w, hu, hcu, hcw, -⟩ := unitsOf_large hc
    obtain ⟨v, x, hv, hdv, hdx, -⟩ := unitsOf_large hd
    rw [hu, hv] at h
    obtain ⟨rfl, htail⟩ := List.cons.inj h
    obtain ⟨rfl, hrest⟩ := List.cons.inj htail
    exact ⟨Char.toNat_inj.1 (by omega), hrest⟩

theorem unitsOf_ne_nil (c : Char) : unitsOf c ≠ [] := by
  rw [unitsOf]
  split <;> exact List.cons_ne_nil _ _

/-- Characters are determined by their units. -/
theorem flatMap_unitsOf_inj :
    ∀ {cs ds : List Char}, cs.flatMap unitsOf = ds.flatMap unitsOf → cs = ds
  | [], [], _ => rfl
  | [], d :: ds, h => absurd (List.append_eq_nil_iff.1 h.symm).1 (unitsOf_ne_nil d)
  | c :: cs, [], h => absurd (List.append_eq_nil_iff.1 h).1 (unitsOf_ne_nil c)
  | c :: cs, d :: ds, h => by
    rw [List.flatMap_cons, List.flatMap_cons] at h
    obtain ⟨rfl, hrest⟩ := unitsOf_append_inj h
    rw [flatMap_unitsOf_inj hrest]

/-- A text is known from its code units. -/
theorem units_injective : Function.Injective units :=
  fun _ _ h => String.toList_inj.1 (flatMap_unitsOf_inj h)

end Text

/-! ## Literals -/

/-- A literal of a string is its code units between double quotes, and one of a character its unit
between single quotes. Nothing inside ends the text or the line, and the units are read back. So
different strings are written differently, and so are different characters. -/
theorem Literal.text_reads_back :
    (∀ s, Text.Spells '"' (Text.units s) (str s).text) ∧
    (∀ u, Text.Spells '\'' [u] (char u).text) ∧
    (Function.Injective fun s => (str s).text) ∧ Function.Injective fun u => (char u).text := by
  have hstr : ∀ s, Text.Spells '"' (Text.units s) (str s).text := fun s =>
    Text.quoted_spells (.inr rfl) (Text.units s)
  have hchar : ∀ u, Text.Spells '\'' [u] (char u).text := fun u =>
    Text.quoted_spells (.inl rfl) [u]
  refine ⟨hstr, hchar, fun s t (h : (str s).text = (str t).text) => ?_,
    fun u v (h : (char u).text = (char v).text) => ?_⟩
  · exact Text.units_injective ((hstr s).unique (h ▸ hstr t))
  · exact List.singleton_inj.1 ((hchar u).unique (h ▸ hchar v))

end Midend
