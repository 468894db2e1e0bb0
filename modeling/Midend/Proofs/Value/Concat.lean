import Midend.Proofs.Value.Faults

/-!
# Concatenated text

A constant that is a string or a character has code units of its own
(`Literal.units`). A sum with a string is a string again, so sums nested to the left
put the units of all operands one after another (`Value.concat`): each string keeps
its units, and a character keeps its unit unless that is half of a pair, which no
text can hold on its own and which comes out as the replacement character. So the
units are those of the operands exactly where no character is half of a pair
(`Literal.units_concat`).
-/

namespace Midend

/-! ## Code units -/

namespace Text

@[simp] theorem units_append (s t : String) : units (s ++ t) = units s ++ units t := by
  simp [units]

/-- The code unit that a text shows for one on its own. -/
def shownUnit (u : UInt16) : UInt16 := if isSurrogate u then 0xFFFD else u

/-- A unit is shown as it is unless it is half of a pair. -/
theorem shownUnit_eq_iff {u : UInt16} : shownUnit u = u ↔ isSurrogate u = false := by
  unfold shownUnit
  split
  · next h =>
    -- the replacement character is no half of a pair
    refine ⟨fun heq => ?_, fun hn => absurd h (by simp [hn])⟩
    rw [← heq] at h
    exact absurd h (by decide)
  · next h => simpa using h

/-- A unit that is no half of a pair is that of its character. -/
theorem unitsOf_charOf? {u : UInt16} {c : Char} (h : charOf? u = some c) : unitsOf c = [u] := by
  unfold charOf? at h
  split at h
  · cases h
  · next hu =>
    obtain rfl := Option.some.inj h
    have hlt : u.toNat < 0x10000 := u.toNat_lt
    have hvalid : u.toNat.isValidChar := by
      simp only [isSurrogate, Bool.and_eq_true, decide_eq_true_eq, not_and, UInt16.le_iff_toNat_le]
        at hu
      simp only [Nat.isValidChar]
      have : (0xD800 : UInt16).toNat = 0xD800 := rfl
      have : (0xDFFF : UInt16).toNat = 0xDFFF := rfl
      omega
    have hval : (Char.ofNat u.toNat).val.toNat = u.toNat := by
      rw [Char.ofNat, dif_pos hvalid]
      rfl
    have hsmall : (Char.ofNat u.toNat).val < 0x10000 := by
      rw [UInt32.lt_iff_toNat_lt, hval]
      exact hlt
    rw [unitsOf, if_pos hsmall]
    congr 1
    apply UInt16.toNat_inj.1
    rw [UInt32.toNat_toUInt16, hval]
    exact Nat.mod_eq_of_lt hlt

/-- A single unit is shown as one. -/
theorem units_ofUnit (u : UInt16) : units (ofUnit u) = [shownUnit u] := by
  cases hc : charOf? u with
  | some c =>
    have hu : isSurrogate u = false := by
      rw [Bool.eq_false_iff]
      intro h
      simp [charOf?, h] at hc
    simp [ofUnit, hc, units, unitsOf_charOf? hc, shownUnit, hu]
  | none =>
    have hu : isSurrogate u = true := by
      rw [← Bool.not_eq_false]
      intro h
      simp [charOf?, h] at hc
    simp only [ofUnit, hc, shownUnit, hu, if_true, units, Option.getD_none]
    decide

end Text

/-! ## Operands -/

namespace Literal

/-- Whether the constant is a string or a character. -/
def isText : Literal → Bool
  | str _ | char _ => true
  | _ => false

/-- The code units of a string or character. -/
def units : Literal → List UInt16
  | str s => Text.units s
  | char u => [u]
  | _ => []

/-- Whether the constant is a character that is half of a pair. -/
def isHalf : Literal → Bool
  | char u => Text.isSurrogate u
  | _ => false

variable {l : Literal}

/-- A text part is shown with as many units as it has. -/
theorem length_units_display (h : l.isText = true) :
    (Text.units l.display).length = l.units.length := by
  cases l <;> cases h
  case str.refl s => rfl
  case char.refl u => rw [display, Text.units_ofUnit]; rfl

/-- A text part is shown as it is unless it is half of a pair. -/
theorem units_display_eq_iff (h : l.isText = true) :
    Text.units l.display = l.units ↔ l.isHalf = false := by
  cases l <;> cases h
  case str.refl s => exact ⟨fun _ => rfl, fun _ => rfl⟩
  case char.refl u =>
    rw [display, Text.units_ofUnit, units, List.singleton_inj]
    exact Text.shownUnit_eq_iff

end Literal

/-! ## Sums -/

namespace Value

/-- The sum of a value and further ones, nested to the left. -/
def concat (x : Value) (ys : List Value) : Except Fault Value :=
  ys.foldlM (binary (.arith .add)) x

/-- A sum that begins with a string is the string of all operands as they appear in it. -/
theorem concat_str (s : String) (cs : List Literal) :
    concat (known (.str s)) (cs.map known) =
      .ok (known (.str (s ++ String.join (cs.map Literal.display)))) := by
  induction cs generalizing s with
  | nil => simp [concat, pure, Except.pure]
  | cons c cs ih =>
    have hstep : binary (.arith .add) (known (.str s)) (known c) =
        .ok (known (.str (s ++ c.display))) := by
      rw [binary, Literal.binary_eitherString rfl]
      rfl
    rw [List.map_cons, concat, List.foldlM_cons, hstep]
    refine (ih (s ++ c.display)).trans ?_
    simp [String.append_assoc]

end Value

namespace Literal

variable {a b : Literal} {cs : List Literal}

/-- Joined texts have the units of their parts in order. -/
theorem units_join_display (cs : List Literal) :
    Text.units (String.join (cs.map display)) = cs.flatMap fun c => Text.units c.display := by
  induction cs with
  | nil => simp [Text.units]
  | cons c cs ih => simp [ih]

/-- The units of the operands come out as they are exactly where none of them is half of a pair. -/
theorem flatMap_units_display_iff (h : ∀ c ∈ cs, c.isText = true) :
    (cs.flatMap fun c => Text.units c.display) = cs.flatMap units ↔
      ∀ c ∈ cs, c.isHalf = false := by
  induction cs with
  | nil => simp
  | cons c cs ih =>
    obtain ⟨hc, hcs⟩ := List.forall_mem_cons.1 h
    rw [List.flatMap_cons, List.flatMap_cons, List.forall_mem_cons, ← ih hcs,
      ← units_display_eq_iff hc]
    constructor
    · exact fun heq => List.append_inj heq (length_units_display hc)
    · rintro ⟨hhead, htail⟩
      rw [hhead, htail]

/-- A sum of strings and characters that begins with two of which one is a string, nested to the
left, is a string. Its units are those of the operands, one operand after another, exactly where no
character among them is half of a pair. -/
theorem units_concat (hs : eitherString a b = true) (ht : ∀ c ∈ a :: b :: cs, c.isText = true) :
    ∃ s, Value.concat (.known a) ((b :: cs).map .known) = .ok (.known (.str s)) ∧
      (Text.units s = (a :: b :: cs).flatMap units ↔ ∀ c ∈ a :: b :: cs, c.isHalf = false) := by
  refine ⟨a.display ++ b.display ++ String.join (cs.map display), ?_, ?_⟩
  · have hfirst : Value.binary (.arith .add) (.known a) (.known b) =
        .ok (.known (.str (a.display ++ b.display))) := by
      rw [Value.binary, binary_eitherString hs]
      rfl
    rw [List.map_cons, Value.concat, List.foldlM_cons, hfirst]
    exact Value.concat_str _ cs
  · have hunits : Text.units (a.display ++ b.display ++ String.join (cs.map display)) =
        (a :: b :: cs).flatMap fun c => Text.units c.display := by
      simp only [Text.units_append, units_join_display, List.flatMap_cons, List.append_assoc]
    rw [hunits]
    exact flatMap_units_display_iff ht

/-- A character before a string, and characters after it: `'é' + "😀" + 'b'`. -/
theorem units_concat_accent :
    eitherString (char 0xE9) (str "😀") = true ∧
      (∀ c ∈ [char 0xE9, str "😀", char 0x62], c.isText = true) ∧
      (∀ c ∈ [char 0xE9, str "😀", char 0x62], c.isHalf = false) ∧
      ∃ s, Value.concat (.known (char 0xE9)) [.known (str "😀"), .known (char 0x62)] =
          .ok (.known (.str s)) ∧
        Text.units s = [0xE9, 0xD83D, 0xDE00, 0x62] := by
  have hs : eitherString (char 0xE9) (str "😀") = true := by decide
  have ht : ∀ c ∈ [char 0xE9, str "😀", char 0x62], c.isText = true := by decide
  have hhalf : ∀ c ∈ [char 0xE9, str "😀", char 0x62], c.isHalf = false := by decide
  obtain ⟨s, hsum, hunits⟩ := units_concat hs ht
  refine ⟨hs, ht, hhalf, s, hsum, (hunits.2 hhalf).trans ?_⟩
  decide

/-- The halves of a pair, added to a string one after the other, do not come out as the pair:
`"" + '\uD83D' + '\uDE00'`. -/
theorem units_lost_halves :
    Value.concat (.known (str "")) [.known (char 0xD83D), .known (char 0xDE00)] =
        .ok (.known (str "\uFFFD\uFFFD")) ∧
      Text.units "\uFFFD\uFFFD" = [0xFFFD, 0xFFFD] ∧
      [str "", char 0xD83D, char 0xDE00].flatMap units = [0xD83D, 0xDE00] := by
  have hsum : "" ++ String.join ([char 0xD83D, char 0xDE00].map display) = "\uFFFD\uFFFD" := by
    decide
  refine ⟨?_, by decide, by decide⟩
  rw [← hsum]
  exact Value.concat_str "" [char 0xD83D, char 0xDE00]

end Literal

end Midend
