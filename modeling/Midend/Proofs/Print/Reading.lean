import Midend.Tree.Print

/-!
# Reading expressions

The text of an expression is read from the left by the rules of the source language.
A sign that is followed by the same sign is an increment or decrement, a name goes as
far as it can, and an operator between operands takes the operand to its left if it
binds at least as tightly as the position asks for. `Reads` says what is read and
what is left of the text. Parentheses only group, so the expression that is read has
none. There is at most one way to read a text (`Reads.unique`).
-/

namespace Midend

theorem UnOp.toList_text_step (s : Step) :
    (UnOp.step s).text.toList = bif s.increments then ['+', '+'] else ['-', '-'] := by
  obtain ⟨_ | _, after⟩ := s <;> simp [text]

namespace Reading

/-- The characters that names do not have. -/
def delimiters : List Char := [' ', '(', ')', '[', ']', '+', '-', '!', '~']

/-- Whether a character may be part of a name. -/
def isNameChar (c : Char) : Bool := !delimiters.contains c

/-- A token at the start of an operand. -/
inductive Opening where
  | group
  | unary (op : UnOp)
  | name (cs : List Char)

/-- The token that an operand starts with, and the text after it. -/
def opening : List Char → Option (Opening × List Char)
  | ' ' :: cs => opening cs
  | '(' :: cs => some (.group, cs)
  | '+' :: '+' :: cs => some (.unary (.step ⟨true, false⟩), cs)
  | '-' :: '-' :: cs => some (.unary (.step ⟨false, false⟩), cs)
  | '+' :: cs => some (.unary .plus, cs)
  | '-' :: cs => some (.unary .neg, cs)
  | '!' :: cs => some (.unary .not, cs)
  | '~' :: cs => some (.unary .bitNot, cs)
  | cs => some (.name (cs.takeWhile isNameChar), cs.dropWhile isNameChar)

/-- A token after an operand that continues the expression. -/
inductive Following where
  | bracket
  | unary (op : UnOp)
  | binary (op : BinOp)
  | assign (op : Option BinOp)
  | question
deriving DecidableEq

namespace Following

/-- How tightly the expression binds that the token continues. -/
def level : Following → Nat
  | bracket => Precedence.primary
  | unary _ => Precedence.unaryAfter
  | binary op => op.precedence
  | assign _ => Precedence.assignment
  | question => Precedence.conditional

/-- What is written for the token. -/
def text : Following → String
  | bracket => "["
  | unary op => op.text
  | binary op => op.text
  | assign op => op.elim "" BinOp.text ++ "="
  | question => "?"

/-- The tokens between blanks. -/
def infixes : List Following :=
  [question, assign none] ++ BinOp.all.map binary ++
    (BinOp.all.filter BinOp.isAssignable).map fun op => assign (some op)

/-- The token between blanks that is written like this. -/
def ofText? (cs : List Char) : Option Following := infixes.find? (·.text.toList == cs)

end Following

/-- The token that continues an expression, and the text after it. -/
def following : List Char → Option (Following × List Char)
  | '[' :: cs => some (.bracket, cs)
  | '+' :: '+' :: cs => some (.unary (.step ⟨true, true⟩), cs)
  | '-' :: '-' :: cs => some (.unary (.step ⟨false, true⟩), cs)
  | ' ' :: cs =>
    (Following.ofText? (cs.takeWhile (· != ' '))).map (·, (cs.dropWhile (· != ' ')).drop 1)
  | _ => none

/-- Everything that may come after an operand continues an expression that binds less tightly than
the position asks for. -/
def Stops (least : Nat) (cs : List Char) : Prop :=
  ∀ t cs', following cs = some (t, cs') → t.level < least

/-- The text does not go on with a name. -/
def Delimited (cs : List Char) : Prop := ∀ c, cs.head? = some c → isNameChar c = false

theorem delimited_cons {c : Char} {cs : List Char} (h : isNameChar c = false) :
    Delimited (c :: cs) := by
  rintro _ ⟨⟩
  exact h

/-- A text that an expression can have as a name. -/
structure IsName (s : String) : Prop where
  nonempty : s ≠ ""
  isNameChar : ∀ c ∈ s.toList, isNameChar c = true

theorem isNameChar_of_isAlphanum {c : Char} (h : c.isAlphanum = true) : isNameChar c = true := by
  rw [isNameChar, Bool.not_eq_true', ← Bool.not_eq_true, List.contains_iff_mem]
  intro hm
  have hall : delimiters.all (!·.isAlphanum) = true := by decide
  have hnot := List.all_eq_true.1 hall c hm
  rw [h] at hnot
  cases hnot

/-- An alphanumeric text is a name. -/
theorem isName_of_isAlphanum {s : String} (hs : s ≠ "")
    (h : s.toList.all Char.isAlphanum = true) : IsName s :=
  ⟨hs, fun c hc => isNameChar_of_isAlphanum (List.all_eq_true.1 h c hc)⟩

/-- A name has a first character. -/
theorem IsName.exists_cons {s : String} (h : IsName s) :
    ∃ c cs, s.toList = c :: cs ∧ Reading.isNameChar c = true := by
  have hne : s.toList ≠ [] := fun hnil => h.nonempty (String.toList_eq_nil_iff.1 hnil)
  obtain ⟨c, cs, hcs⟩ := List.exists_cons_of_ne_nil hne
  exact ⟨c, cs, hcs, h.isNameChar c (hcs ▸ List.mem_cons_self)⟩

/-- A name character opens a name that goes as far as it can. -/
theorem opening_of_isNameChar {c : Char} (hc : isNameChar c = true) (cs : List Char) :
    opening (c :: cs) =
      some (.name ((c :: cs).takeWhile isNameChar), (c :: cs).dropWhile isNameChar) := by
  unfold opening
  split
  all_goals first
    | rfl
    | (next heq => cases heq; exact absurd hc (by decide))

/-- A name that is delimited is read whole. -/
theorem opening_name {s : String} (h : IsName s) {k : List Char} (hk : Delimited k) :
    opening (s.toList ++ k) = some (.name s.toList, k) := by
  have htake : (s.toList ++ k).takeWhile Reading.isNameChar = s.toList := by
    rw [List.takeWhile_append_of_pos h.isNameChar]
    cases k with
    | nil => simp
    | cons c k => simp [hk c rfl]
  have hdrop : (s.toList ++ k).dropWhile Reading.isNameChar = k := by
    rw [List.dropWhile_append_of_pos h.isNameChar]
    cases k with
    | nil => simp
    | cons c k => simp [hk c rfl]
  obtain ⟨c, cs, hcs, hc⟩ := h.exists_cons
  have hopening := opening_of_isNameChar hc (cs ++ k)
  rwa [← List.cons_append, ← hcs, htake, hdrop] at hopening

/-- A sign is an operator on its own if the same sign does not follow. -/
theorem opening_unary {op : UnOp} (h : op.isAfter = false) {k : List Char}
    (hplus : op = .plus → k.head? ≠ some '+') (hneg : op = .neg → k.head? ≠ some '-') :
    opening (op.text.toList ++ k) = some (.unary op, k) := by
  cases op with
  | step s =>
    obtain ⟨increments, after⟩ := s
    obtain rfl : after = false := h
    cases increments <;> rfl
  | not | bitNot => rfl
  | plus =>
    have hk := hplus rfl
    change opening ('+' :: k) = _
    rw [opening]
    rintro cs rfl
    exact hk rfl
  | neg =>
    have hk := hneg rfl
    change opening ('-' :: k) = _
    rw [opening]
    rintro cs rfl
    exact hk rfl

/-- A postfix operator is read back. -/
theorem following_unary {op : UnOp} (h : op.isAfter = true) (k : List Char) :
    following (op.text.toList ++ k) = some (.unary op, k) := by
  cases op with
  | step s =>
    obtain ⟨increments, after⟩ := s
    obtain rfl : after = true := h
    cases increments <;> rfl
  | _ => cases h

theorem delimited_unary {op : UnOp} (h : op.isAfter = true) {k : List Char} :
    Delimited (op.text.toList ++ k) := by
  cases op with
  | step s =>
    rw [UnOp.toList_text_step]
    cases s.increments <;> exact delimited_cons (by decide)
  | _ => cases h

/-- An infix operator is read back between its spaces. -/
theorem following_infix {t : Following} (ht : t ∈ Following.infixes) (k : List Char) :
    following (' ' :: (t.text.toList ++ ' ' :: k)) = some (t, k) := by
  have htexts : ∀ t ∈ Following.infixes, Following.ofText? t.text.toList = some t ∧
      t.text.toList.all (· != ' ') = true := by decide
  obtain ⟨hof, hall⟩ := htexts t ht
  have hblank := List.all_eq_true.1 hall
  rw [following, List.takeWhile_append_of_pos hblank, List.dropWhile_append_of_pos hblank]
  simp [hof]

theorem mem_infixes_binary (op : BinOp) : .binary op ∈ Following.infixes := by
  rcases op with (_ | _ | _ | _ | _) | (_ | _ | _) | (_ | _ | _) | (_ | _ | _ | _) | (_ | _) |
    (_ | _) <;> decide

theorem mem_infixes_assign {op : Option BinOp} (h : ∀ o, op = some o → o.isAssignable = true) :
    .assign op ∈ Following.infixes := by
  cases op with
  | none => decide
  | some o =>
    have ho := h o rfl
    rcases o with (_ | _ | _ | _ | _) | (_ | _ | _) | (_ | _ | _) | _ | _ | _ <;>
      first | decide | cases ho

theorem Stops.mono {n n' : Nat} {k : List Char} (h : Stops n k) (hle : n ≤ n') : Stops n' k :=
  fun t cs hf => Nat.lt_of_lt_of_le (h t cs hf) hle

/-- An operator of a lower level stops the reading. -/
theorem stops_of_following {n : Nat} {k cs : List Char} {t : Following}
    (hf : following k = some (t, cs)) (ht : t.level < n) : Stops n k := by
  intro t' cs' hf'
  cases hf.symm.trans hf'
  exact ht

end Reading

open Reading

/-- At a position that asks for at least the precedence, the expression is read from the text if
given no operand, or from the operand and the text after it, and the last text is left. -/
inductive Reads (sc : Scope) (vars : List VarId) :
    Nat → Option Expr → List Char → Expr → List Char → Prop
  | group {least cs cs₁ cs₂ x e rest} : opening cs = some (.group, cs₁) →
    Reads sc vars 0 none cs₁ x (')' :: cs₂) → Reads sc vars least (some x) cs₂ e rest →
    Reads sc vars least none cs e rest
  | before {least cs cs₁ cs₂ op x e rest} : opening cs = some (.unary op, cs₁) →
    Reads sc vars Precedence.unary none cs₁ x cs₂ →
    Reads sc vars least (some (.node 0 (.unary op x))) cs₂ e rest →
    Reads sc vars least none cs e rest
  | var {least cs cs₁ v e rest} : v ∈ vars → opening cs = some (.name (sc.name v).toList, cs₁) →
    Reads sc vars least (some (.node 0 (.var v))) cs₁ e rest → Reads sc vars least none cs e rest
  | index {least cs cs₁ cs₂ x i e rest} : following cs = some (.bracket, cs₁) →
    least ≤ Precedence.primary → Reads sc vars 0 none cs₁ i (']' :: cs₂) →
    Reads sc vars least (some (.node 0 (.index x i))) cs₂ e rest →
    Reads sc vars least (some x) cs e rest
  | after {least cs cs₁ op x e rest} : following cs = some (.unary op, cs₁) →
    least ≤ Precedence.unaryAfter →
    Reads sc vars least (some (.node 0 (.unary op x))) cs₁ e rest →
    Reads sc vars least (some x) cs e rest
  | binary {least cs cs₁ cs₂ op x y e rest} : following cs = some (.binary op, cs₁) →
    least ≤ op.precedence → Reads sc vars (op.precedence + 1) none cs₁ y cs₂ →
    Reads sc vars least (some (.node 0 (.binary x op y))) cs₂ e rest →
    Reads sc vars least (some x) cs e rest
  | assign {least cs cs₁ cs₂ op x y e rest} : following cs = some (.assign op, cs₁) →
    least ≤ Precedence.assignment → Reads sc vars Precedence.assignment none cs₁ y cs₂ →
    Reads sc vars least (some (.node 0 (.assign x op y))) cs₂ e rest →
    Reads sc vars least (some x) cs e rest
  | conditional {least cs cs₁ cs₂ cs₃ x t f e rest} : following cs = some (.question, cs₁) →
    least ≤ Precedence.conditional →
    Reads sc vars Precedence.assignment none cs₁ t (' ' :: ':' :: cs₂) →
    Reads sc vars Precedence.conditional none cs₂ f cs₃ →
    Reads sc vars least (some (.node 0 (.conditional x t f))) cs₃ e rest →
    Reads sc vars least (some x) cs e rest
  | stop {least cs x} : Stops least cs → Reads sc vars least (some x) cs x cs

namespace Reads

variable {sc : Scope} {vars : List VarId} {least : Nat} {x? : Option Expr} {x e e' : Expr}
  {cs rest rest' : List Char}

/-- Blanks before an operand do not count. -/
theorem blank (h : Reads sc vars least none cs e rest) :
    Reads sc vars least none (' ' :: cs) e rest := by
  cases h with
  | group ho hx hrest => exact .group ho hx hrest
  | before ho hx hrest => exact .before ho hx hrest
  | var hv ho hrest => exact .var hv ho hrest

/-- Nothing is read after a text that stops. -/
theorem eq_of_stops (hs : Stops least cs) (h : Reads sc vars least (some x) cs e rest) :
    e = x ∧ rest = cs := by
  cases h with
  | stop => exact ⟨rfl, rfl⟩
  | index hf hle | after hf hle | binary hf hle | assign hf hle | conditional hf hle =>
    exact absurd (hs _ _ hf) (Nat.not_lt.2 hle)

/-- If no two variables have the same name, a text is read in one way. -/
theorem unique (hname : ∀ v ∈ vars, ∀ w ∈ vars, sc.name v = sc.name w → v = w)
    (h : Reads sc vars least x? cs e rest) (h' : Reads sc vars least x? cs e' rest') :
    e = e' ∧ rest = rest' := by
  induction h generalizing e' rest' with
  | group ho _ _ ihx ih =>
    cases h' with
    | group ho' hx' h' =>
      obtain ⟨-, rfl⟩ := Prod.mk.inj (Option.some.inj (ho.symm.trans ho'))
      obtain ⟨rfl, hcs⟩ := ihx hx'
      obtain rfl := (List.cons.inj hcs).2
      exact ih h'
    | before ho' | var _ ho' => cases ho.symm.trans ho'
  | before ho _ _ ihx ih =>
    cases h' with
    | before ho' hx' h' =>
      cases ho.symm.trans ho'
      obtain ⟨rfl, rfl⟩ := ihx hx'
      exact ih h'
    | group ho' | var _ ho' => cases ho.symm.trans ho'
  | var hv ho _ ih =>
    cases h' with
    | var hv' ho' h' =>
      obtain ⟨hn, rfl⟩ := Prod.mk.inj (Option.some.inj (ho.symm.trans ho'))
      obtain rfl := hname _ hv _ hv' (String.toList_inj.1 (Opening.name.inj hn))
      exact ih h'
    | group ho' | before ho' => cases ho.symm.trans ho'
  | index hf hle _ _ ihx ih =>
    cases h' with
    | index hf' _ hx' h' =>
      cases hf.symm.trans hf'
      obtain ⟨rfl, hcs⟩ := ihx hx'
      obtain rfl := (List.cons.inj hcs).2
      exact ih h'
    | after hf' | binary hf' | assign hf' | conditional hf' => cases hf.symm.trans hf'
    | stop hs => exact absurd (hs _ _ hf) (Nat.not_lt.2 hle)
  | after hf hle _ ih =>
    cases h' with
    | after hf' _ h' =>
      cases hf.symm.trans hf'
      exact ih h'
    | index hf' | binary hf' | assign hf' | conditional hf' => cases hf.symm.trans hf'
    | stop hs => exact absurd (hs _ _ hf) (Nat.not_lt.2 hle)
  | binary hf hle _ _ ihx ih =>
    cases h' with
    | binary hf' _ hx' h' =>
      cases hf.symm.trans hf'
      obtain ⟨rfl, rfl⟩ := ihx hx'
      exact ih h'
    | index hf' | after hf' | assign hf' | conditional hf' => cases hf.symm.trans hf'
    | stop hs => exact absurd (hs _ _ hf) (Nat.not_lt.2 hle)
  | assign hf hle _ _ ihx ih =>
    cases h' with
    | assign hf' _ hx' h' =>
      cases hf.symm.trans hf'
      obtain ⟨rfl, rfl⟩ := ihx hx'
      exact ih h'
    | index hf' | after hf' | binary hf' | conditional hf' => cases hf.symm.trans hf'
    | stop hs => exact absurd (hs _ _ hf) (Nat.not_lt.2 hle)
  | conditional hf hle _ _ _ iht ihf ih =>
    cases h' with
    | conditional hf' _ ht' hf'' h' =>
      cases hf.symm.trans hf'
      obtain ⟨rfl, hcs⟩ := iht ht'
      obtain rfl := (List.cons.inj (List.cons.inj hcs).2).2
      obtain ⟨rfl, rfl⟩ := ihf hf''
      exact ih h'
    | index hf' | after hf' | binary hf' | assign hf' => cases hf.symm.trans hf'
    | stop hs => exact absurd (hs _ _ hf) (Nat.not_lt.2 hle)
  | stop hs =>
    obtain ⟨rfl, rfl⟩ := eq_of_stops hs h'
    exact ⟨rfl, rfl⟩

end Reads

end Midend
