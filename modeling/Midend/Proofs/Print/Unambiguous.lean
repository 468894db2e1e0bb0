import Midend.Body.Basic
import Midend.Proofs.Print.Reading
import Midend.Proofs.Tree.Bare
import Midend.Proofs.Tree.Operand

/-!
# Printed expressions are unambiguous

An expression of names, operators, array accesses, conditionals and assignments can
be read back from its text (`Expr.reads_text`): parentheses are printed wherever the
position of an operand asks for them, and a blank wherever two signs would merge. In
each layer the operand to the left is followed by a token that does not continue it,
and the operand to the right by what does not continue the layer, which is what
`ReadsAs` carries through the induction. As there is one way to read a text, two
expressions with the same text differ in identifiers and parentheses only
(`Body.exprText_injective`).
-/

namespace Midend

open Reading
open Text (Piece)

namespace Text.Piece

/-- The characters of the pieces. -/
def chars (ps : List Piece) : List Char := ps.flatMap (·.render.toList)

@[simp] theorem chars_nil : chars [] = [] := rfl

@[simp] theorem chars_word (s : String) (ps : List Piece) :
    chars (word s :: ps) = s.toList ++ chars ps := rfl

@[simp] theorem chars_space (ps : List Piece) : chars (space :: ps) = ' ' :: chars ps := rfl

@[simp] theorem chars_append (ps qs : List Piece) : chars (ps ++ qs) = chars ps ++ chars qs :=
  List.flatMap_append

theorem toList_renderAll (ps : List Piece) : (renderAll ps).toList = chars ps := by
  simp [renderAll, chars, List.flatMap_map]

end Text.Piece

/-! ## Layers -/

namespace ExprKind

variable {ε : Type}

/-- Whether the layer is one of the variables, an operator, a conditional, an array access,
parentheses or an assignment. -/
def isOperation (vars : List VarId) : ExprKind ε → Bool
  | var v => vars.contains v
  | assign _ (some op) _ => op.isAssignable
  | assign _ none _ | binary .. | unary .. | conditional .. | index .. | paren _ => true
  | _ => false

/-- What comes after the text of the layer may continue an expression only if that binds less
tightly: the least precedence at which the last operand of the layer is read, if it has one at its
end. -/
def rightLevel : ExprKind ε → Nat
  | assign .. => Precedence.assignment
  | conditional .. => Precedence.conditional
  | binary _ op _ => op.precedence + 1
  | unary op _ => if op.isAfter then Precedence.primary + 1 else Precedence.unary
  | _ => Precedence.primary + 1

variable {vars : List VarId} {k : ExprKind ε}

/-- The right end of an operation binds at least as tightly as the operation. -/
theorem precedence_le_rightLevel (h : k.isOperation vars = true) :
    k.precedence ≤ k.rightLevel := by
  cases k with
  | unary op e =>
    rw [precedence, rightLevel]
    split <;> decide
  | binary | var | index | paren => exact Nat.le_succ _
  | assign | conditional => exact Nat.le_refl _
  | _ => cases h

/-- An operator that asks its left operand for at least the precedence takes a layer that binds so
tightly as a whole, except where that is the precedence of an operator before its operand. -/
theorem lt_rightLevel (h : k.isOperation vars = true) {n : Nat} (hn : Precedence.conditional < n)
    (hunary : n ≠ Precedence.unary) (hk : n ≤ k.precedence) : n < k.rightLevel := by
  cases k with
  | unary op e =>
    rw [precedence] at hk
    rw [rightLevel]
    split at hk
    · next hafter =>
      rw [if_pos hafter]
      exact Nat.lt_of_le_of_lt hk (by decide)
    · next hafter =>
      rw [if_neg hafter]
      exact Nat.lt_of_le_of_ne hk hunary
  | binary l op r => exact Nat.lt_succ_of_le hk
  | assign => exact absurd (Nat.lt_of_lt_of_le hn hk) (Nat.not_lt.2 (Nat.le_succ _))
  | conditional => exact absurd hk (Nat.not_le.2 hn)
  | var | index | paren => exact Nat.lt_succ_of_le hk
  | _ => cases h

end ExprKind

namespace BinOp

/-- Binary operators lie between the conditional and the unary ones. -/
theorem precedence_bounds (op : BinOp) :
    Precedence.conditional < op.precedence ∧ op.precedence < Precedence.unary := by
  cases op with
  | arith op | bits op | logic op => cases op <;> decide
  | shift | order | equality => exact ⟨Nat.lt_of_sub_eq_succ rfl, Nat.lt_of_sub_eq_succ rfl⟩

end BinOp

theorem UnOp.exists_cons_text (op : UnOp) : ∃ c cs, op.text.toList = c :: cs := by
  cases op with
  | step s =>
    rw [toList_text_step]
    cases s.increments <;> exact ⟨_, _, rfl⟩
  | _ => exact ⟨_, _, rfl⟩

namespace Expr

mutual

/-- The expression without its parentheses. -/
def unparen : Expr → Expr
  | node _ (.paren inner) => inner.unparen
  | node id kind => node id (unparenKind kind)

/-- The layer with operands that have no parentheses. -/
def unparenKind : ExprKind Expr → ExprKind Expr
  | .lit l => .lit l
  | .var v => .var v
  | .field none name isStatic => .field none name isStatic
  | .field (some e) name isStatic => .field (some e.unparen) name isStatic
  | .assign l op r => .assign l.unparen op r.unparen
  | .binary l op r => .binary l.unparen op r.unparen
  | .unary op e => .unary op e.unparen
  | .paren e => .paren e.unparen
  | .conditional c t f => .conditional c.unparen t.unparen f.unparen
  | .call none callee args => .call none callee (unparenList args)
  | .call (some e) callee args => .call (some e.unparen) callee (unparenList args)
  | .create ty args => .create ty (unparenList args)
  | .index a i => .index a.unparen i.unparen
  | .cast ty e => .cast ty e.unparen
  | .instanceOf e ty => .instanceOf e.unparen ty
  | .err => .err

/-- Expressions without their parentheses. -/
def unparenList : List Expr → List Expr
  | [] => []
  | e :: es => e.unparen :: unparenList es

end

/-- Whether the expression is built from the variables, operators, conditionals, array accesses,
parentheses and assignments. -/
def isFormula (vars : List VarId) (e : Expr) : Bool := e.subexprs.all (·.kind.isOperation vars)

/-- A node is a formula when its operator is and its operands are. -/
theorem isFormula_node {vars : List VarId} {id : ExprId} {k : ExprKind Expr} :
    (node id k).isFormula vars = true ↔
      k.isOperation vars = true ∧ ∀ c ∈ k.children, c.isFormula vars = true := by
  simp only [isFormula, subexprs, subexprsOfKind_eq, List.all_cons, List.all_flatMap, kind,
    Bool.and_eq_true, List.all_eq_true]

/-- What may come after the expression at a position that asks for at least the precedence. -/
def rightLevelAt (e : Expr) (least : Nat) : Nat :=
  if e.kind.precedence < least then Precedence.primary + 1 else e.kind.rightLevel

variable {vars : List VarId} {e : Expr} {least : Nat}

theorem isOperation_of_isFormula (h : e.isFormula vars = true) :
    e.kind.isOperation vars = true :=
  List.all_eq_true.1 h e (mem_subexprs_self e)

/-- Parentheses raise the level of the right end to what is asked. -/
theorem le_rightLevelAt (h : e.isFormula vars = true) (hleast : least ≤ Precedence.primary + 1) :
    least ≤ e.rightLevelAt least := by
  unfold rightLevelAt
  split
  · exact hleast
  · next hle =>
    exact Nat.le_trans (Nat.le_of_not_lt hle)
      (ExprKind.precedence_le_rightLevel (isOperation_of_isFormula h))

theorem lt_rightLevelAt (h : e.isFormula vars = true) (hleast : least ≤ Precedence.primary)
    (hcond : Precedence.conditional < least) (hunary : least ≠ Precedence.unary) :
    least < e.rightLevelAt least := by
  unfold rightLevelAt
  split
  · exact Nat.lt_succ_of_le hleast
  · next hle =>
    exact ExprKind.lt_rightLevel (isOperation_of_isFormula h) hcond hunary (Nat.le_of_not_lt hle)

end Expr

/-! ## Reading back -/

/-- Distinct names for the variables. -/
structure Scope.Names (sc : Scope) (vars : List VarId) : Prop where
  isName : ∀ v ∈ vars, IsName (sc.name v)
  distinct : ∀ v ∈ vars, ∀ w ∈ vars, sc.name v = sc.name w → v = w

/-- Where at most the precedence is asked for, what is read from the pieces and a text after them is
what is read after the expression, if the text does not continue it. -/
def ReadsAs (sc : Scope) (vars : List VarId) (ps : List Piece) (x : Expr) (least right : Nat) :
    Prop :=
  ∀ ⦃m : Nat⦄ ⦃k : List Char⦄ ⦃e : Expr⦄ ⦃rest : List Char⦄, m ≤ least → Delimited k →
    Stops right k → Reads sc vars m (some x) k e rest →
      Reads sc vars m none (Piece.chars ps ++ k) e rest

namespace ReadsAs

variable {sc : Scope} {vars : List VarId} {ps : List Piece} {x : Expr} {least right : Nat}

/-- An operand at its position, before a text that ends it there. -/
theorem operand (h : ReadsAs sc vars ps x least right) {k : List Char} (hk : Delimited k)
    (hs : Stops least k) (hle : least ≤ right) :
    Reads sc vars least none (Piece.chars ps ++ k) x k :=
  h (Nat.le_refl _) hk (hs.mono hle) (.stop hs)

/-- In parentheses, everything is read to the closing one. -/
theorem group (h : ReadsAs sc vars ps x least right) (n n' : Nat) :
    ReadsAs sc vars (.word "(" :: ps ++ [.word ")"]) x n n' := by
  intro m k e rest _ _ _ hrest
  have hclose : Stops 0 (')' :: k) := nofun
  have hx : Reads sc vars 0 none (Piece.chars ps ++ ')' :: k) x (')' :: k) :=
    h (Nat.zero_le _) (delimited_cons (by decide)) (hclose.mono (Nat.zero_le _)) (.stop hclose)
  have hchars : Piece.chars (.word "(" :: ps ++ [.word ")"]) ++ k =
      '(' :: (Piece.chars ps ++ ')' :: k) := by simp
  rw [hchars]
  exact .group rfl hx hrest

variable {qs us : List Piece} {y z : Expr} {right' right'' : Nat}

/-- A variable is read back as its name. -/
theorem var {v : VarId} (hv : v ∈ vars) (hname : IsName (sc.name v)) (n n' : Nat) :
    ReadsAs sc vars [.word (sc.name v)] (.node 0 (.var v)) n n' := by
  intro m k e rest _ hd _ hrest
  refine .var hv ?_ hrest
  rw [Piece.chars_word, Piece.chars_nil, List.append_nil]
  exact opening_name hname hd

/-- An index expression is read back from its two parts. -/
theorem index (h : ReadsAs sc vars ps x Precedence.primary right)
    (hright : Precedence.primary < right) (hi : ReadsAs sc vars qs y 0 right') (n : Nat) :
    ReadsAs sc vars (ps ++ [.word "["] ++ qs ++ [.word "]"]) (.node 0 (.index x y))
      Precedence.primary n := by
  intro m k e rest hm _ _ hrest
  have hclose : Stops 0 (']' :: k) := nofun
  have hf : following ('[' :: (Piece.chars qs ++ ']' :: k)) =
      some (.bracket, Piece.chars qs ++ ']' :: k) := rfl
  have hread := h hm (delimited_cons (by decide)) (stops_of_following hf hright)
    (.index hf hm (hi.operand (delimited_cons (by decide)) hclose (Nat.zero_le _)) hrest)
  simpa using hread

/-- A binary operation is read back from its two operands. -/
theorem binary {op : BinOp} (h : ReadsAs sc vars ps x op.precedence right)
    (hright : op.precedence < right) (hr : ReadsAs sc vars qs y (op.precedence + 1) right')
    (hright' : op.precedence + 1 ≤ right') :
    ReadsAs sc vars (ps ++ [.space, .word op.text, .space] ++ qs) (.node 0 (.binary x op y))
      op.precedence (op.precedence + 1) := by
  intro m k e rest hm hd hs hrest
  have hf := following_infix (mem_infixes_binary op) (Piece.chars qs ++ k)
  have hread := h hm (delimited_cons (by decide)) (stops_of_following hf hright)
    (.binary hf hm (hr.operand hd hs hright') hrest)
  simpa [Following.text] using hread

/-- An assignment is read back from its target and value. -/
theorem assign {op : Option BinOp} (h : ReadsAs sc vars ps x Precedence.unary right)
    (hop : ∀ o, op = some o → o.isAssignable = true) (hright : Precedence.unary ≤ right)
    (hr : ReadsAs sc vars qs y Precedence.assignment right')
    (hright' : Precedence.assignment ≤ right') :
    ReadsAs sc vars
      (ps ++ [.space, .word (op.elim "" BinOp.text ++ "="), .space] ++ qs)
      (.node 0 (.assign x op y)) Precedence.assignment Precedence.assignment := by
  intro m k e rest hm hd hs hrest
  have hf := following_infix (mem_infixes_assign hop) (Piece.chars qs ++ k)
  have hlt : Precedence.assignment < right := Nat.lt_of_lt_of_le (by decide) hright
  have hread := h (Nat.le_trans hm (by decide)) (delimited_cons (by decide))
    (stops_of_following hf hlt) (.assign hf hm (hr.operand hd hs hright') hrest)
  simpa [Following.text] using hread

/-- A conditional is read back from its three parts. -/
theorem conditional (h : ReadsAs sc vars ps x (Precedence.conditional + 1) right)
    (hright : Precedence.conditional + 1 ≤ right)
    (ht : ReadsAs sc vars qs y Precedence.assignment right')
    (hright' : Precedence.assignment ≤ right')
    (hf : ReadsAs sc vars us z Precedence.conditional right'')
    (hright'' : Precedence.conditional ≤ right'') :
    ReadsAs sc vars
      (ps ++ [.space, .word "?", .space] ++ qs ++ [.space, .word ":", .space] ++ us)
      (.node 0 (.conditional x y z)) Precedence.conditional Precedence.conditional := by
  intro m k e rest hm hd hs hrest
  have hquestion := following_infix (t := .question) (by decide)
    (Piece.chars qs ++ ' ' :: ':' :: ' ' :: (Piece.chars us ++ k))
  have hcolon : Stops 0 (' ' :: ':' :: ' ' :: (Piece.chars us ++ k)) := by
    intro t cs hfollowing
    cases hfollowing
  have hread := h (Nat.le_succ_of_le hm) (delimited_cons (by decide))
    (stops_of_following hquestion hright)
    (.conditional hquestion hm
      (ht.operand (delimited_cons (by decide)) (hcolon.mono (Nat.zero_le _)) hright')
      (hf.operand hd hs hright'').blank hrest)
  simpa [Following.text] using hread

/-- A postfix operator is read back after its operand. -/
theorem after {op : UnOp} (h : ReadsAs sc vars ps x Precedence.unaryAfter right)
    (hop : op.isAfter = true) (hright : Precedence.unaryAfter < right) (n : Nat) :
    ReadsAs sc vars (ps ++ [.word op.text]) (.node 0 (.unary op x)) Precedence.unaryAfter n := by
  intro m k e rest hm _ _ hrest
  have hf := following_unary hop k
  have hread := h hm (delimited_unary hop) (stops_of_following hf hright) (.after hf hm hrest)
  simpa using hread

/-- A prefix operator is read back before its operand. -/
theorem before {op : UnOp} {apart : Bool} (h : ReadsAs sc vars ps x Precedence.unary right)
    (hop : op.isAfter = false) (hright : Precedence.unary ≤ right)
    (hhead : apart = false → ∀ k, (op = .plus → (Piece.chars ps ++ k).head? ≠ some '+') ∧
      (op = .neg → (Piece.chars ps ++ k).head? ≠ some '-')) :
    ReadsAs sc vars (.word op.text :: (if apart then [.space] else []) ++ ps)
      (.node 0 (.unary op x)) Precedence.unary Precedence.unary := by
  intro m k e rest _ hd hs hrest
  have hx := h.operand hd hs hright
  cases apart with
  | true =>
    have hopening := opening_unary (k := ' ' :: (Piece.chars ps ++ k)) hop nofun nofun
    have hread := Reads.before hopening hx.blank hrest
    simpa using hread
  | false =>
    have hopening := opening_unary hop (hhead rfl k).1 (hhead rfl k).2
    have hread := Reads.before hopening hx hrest
    simpa using hread

end ReadsAs

namespace Expr

variable {sc : Scope} {vars : List VarId}

/-- A layer at a position, from the layer on its own. -/
theorem readsAs_of_kind {id : ExprId} {k : ExprKind Expr} {x : Expr}
    (h : ReadsAs sc vars (kindPieces sc k) x k.precedence k.rightLevel) (least : Nat) :
    ReadsAs sc vars ((node id k).pieces sc least) x least ((node id k).rightLevelAt least) := by
  rw [pieces, rightLevelAt, parenthesized, kind]
  by_cases hk : k.precedence < least
  · rw [decide_eq_true hk, if_pos rfl]
    exact h.group _ _
  · rw [decide_eq_false hk, if_neg Bool.false_ne_true, if_neg hk]
    intro m k' e rest hm
    exact h (Nat.le_trans hm (Nat.le_of_not_lt hk))

/-- A layer that binds at least as tightly as an operator after its operand starts with a
parenthesis or a name. -/
theorem head_pieces (hn : sc.Names vars) {e : Expr} (he : e.isFormula vars = true) :
    ∀ {least : Nat}, Precedence.unaryAfter ≤ least → ∃ c cs,
      Piece.chars (e.pieces sc least) = c :: cs ∧ (c = '(' ∨ isNameChar c = true) := by
  induction e using ofChildren with
  | node id k ih =>
    intro least hleast
    obtain ⟨hk, hchildren⟩ := isFormula_node.1 he
    rw [pieces, parenthesized]
    split
    · exact ⟨'(', _, rfl, .inl rfl⟩
    · next hprec =>
      have hprec : Precedence.unaryAfter ≤ k.precedence :=
        Nat.le_trans hleast (Nat.le_of_not_lt (by simpa using hprec))
      have happend : ∀ {ps qs : List Piece},
          (∃ c cs, Piece.chars ps = c :: cs ∧ (c = '(' ∨ isNameChar c = true)) →
            ∃ c cs, Piece.chars (ps ++ qs) = c :: cs ∧ (c = '(' ∨ isNameChar c = true) := by
        rintro ps qs ⟨c, cs, hcs, hc⟩
        exact ⟨c, _, by rw [Piece.chars_append, hcs, List.cons_append], hc⟩
      cases k with
      | var v =>
        have hv : v ∈ vars := List.contains_iff_mem.1 hk
        obtain ⟨c, cs, hcs, hc⟩ := (hn.isName v hv).exists_cons
        exact ⟨c, cs, by simp [kindPieces, hcs], .inr hc⟩
      | paren inner => exact ⟨'(', _, rfl, .inl rfl⟩
      | index a i =>
        rw [kindPieces, List.append_assoc, List.append_assoc]
        exact happend (ih a List.mem_cons_self (hchildren a List.mem_cons_self) (by decide))
      | unary op operand =>
        rw [ExprKind.precedence] at hprec
        split at hprec
        · next hafter =>
          rw [kindPieces, if_pos hafter]
          have hmem : operand ∈ [operand] := List.mem_singleton_self _
          exact happend (ih operand hmem (hchildren operand hmem) (Nat.le_refl _))
        · exact absurd hprec (by decide)
      | binary l op r =>
        exact absurd hprec (Nat.not_le.2 (Nat.lt_succ_of_lt op.precedence_bounds.2))
      | assign l op r =>
        exact absurd (show Precedence.unaryAfter ≤ Precedence.assignment from hprec) (by decide)
      | conditional c t f =>
        exact absurd (show Precedence.unaryAfter ≤ Precedence.conditional from hprec) (by decide)
      | _ => cases hk

/-- The text of an operand does not start with the sign before it, unless they are kept apart. -/
theorem head_operand (hn : sc.Names vars) {e : Expr} (he : e.isFormula vars = true) {op : UnOp}
    {sign : Char} (hop : op.text.toList.head? = some sign) (hsign : sign = '+' ∨ sign = '-')
    (hmerge : e.kind.mergesWith op = false) (k : List Char) :
    (Piece.chars (e.pieces sc Precedence.unary) ++ k).head? ≠ some sign := by
  have hne : ∀ {c}, c = '(' ∨ isNameChar c = true → c ≠ sign := by
    rintro c hc rfl
    rcases hsign with rfl | rfl <;> exact absurd hc (by decide)
  obtain ⟨id, kd⟩ := e
  have htight : Precedence.unaryAfter ≤ kd.precedence →
      (Piece.chars ((node id kd).pieces sc Precedence.unary) ++ k).head? ≠ some sign := by
    intro hprec
    obtain ⟨c, cs, hcs, hc⟩ := head_pieces hn he (Nat.le_refl Precedence.unaryAfter)
    rw [pieces, decide_eq_false (Nat.not_lt.2 hprec)] at hcs
    have hunary : Precedence.unary ≤ kd.precedence := Nat.le_of_succ_le hprec
    rw [pieces, decide_eq_false (Nat.not_lt.2 hunary), hcs]
    exact fun heq => hne hc (Option.some.inj heq)
  cases kd with
  | unary inner operand =>
    by_cases hafter : inner.isAfter = true
    · have hprec : (ExprKind.unary inner operand).precedence = Precedence.unaryAfter := by
        rw [ExprKind.precedence, if_pos hafter]
      exact htight (Nat.le_of_eq hprec.symm)
    · have hinner : inner.text.toList.head? ≠ some sign := by
        rcases hsign with rfl | rfl <;> simpa [ExprKind.mergesWith, hop, kind, hafter] using hmerge
      rw [pieces, ExprKind.precedence, if_neg hafter, kindPieces, if_neg hafter]
      obtain ⟨c, cs, hcs⟩ := inner.exists_cons_text
      rw [hcs] at hinner
      simpa [parenthesized, hcs] using hinner
  | binary l o r =>
    rw [pieces, ExprKind.precedence, decide_eq_true o.precedence_bounds.2]
    exact fun heq => hne (.inl rfl) (Option.some.inj heq)
  | assign | conditional => exact fun heq => hne (.inl rfl) (Option.some.inj heq)
  | var | index | paren => exact htight (Nat.le_succ _)
  | _ => cases (isFormula_node.1 he).1

/-- An expression is read back from what is printed for it. -/
theorem readsAs_pieces (hn : sc.Names vars) {e : Expr} (he : e.isFormula vars = true) :
    ∀ least : Nat, ReadsAs sc vars (e.pieces sc least) e.unparen.bare least
      (e.rightLevelAt least) := by
  induction e using ofChildren with
  | node id k ih =>
    obtain ⟨hk, hchildren⟩ := isFormula_node.1 he
    have ih := fun c hc least => ih c hc (hchildren c hc) least
    intro least
    refine readsAs_of_kind ?_ least
    cases k with
    | paren inner => exact (ih inner (List.mem_singleton_self _) _).group _ _
    | var v =>
      have hv : v ∈ vars := List.contains_iff_mem.1 hk
      exact .var hv (hn.isName v hv) _ _
    | index a i =>
      have ha := hchildren a List.mem_cons_self
      have hlt : Precedence.primary < a.rightLevelAt Precedence.primary :=
        lt_rightLevelAt ha (by decide) (by decide) (by decide)
      exact (ih a List.mem_cons_self _).index hlt
        (ih i (List.mem_cons_of_mem _ List.mem_cons_self) _) _
    | binary l op r =>
      have hl := hchildren l List.mem_cons_self
      have hr := hchildren r (List.mem_cons_of_mem _ List.mem_cons_self)
      obtain ⟨hcond, hunary⟩ := op.precedence_bounds
      have hlt := lt_rightLevelAt hl (Nat.le_trans (Nat.le_of_lt hunary) (by decide)) hcond
        (Nat.ne_of_lt hunary)
      have hle := le_rightLevelAt hr (Nat.le_trans hunary (by decide))
      exact (ih l List.mem_cons_self _).binary hlt
        (ih r (List.mem_cons_of_mem _ List.mem_cons_self) _) hle
    | assign l op r =>
      have hl := hchildren l List.mem_cons_self
      have hr := hchildren r (List.mem_cons_of_mem _ List.mem_cons_self)
      refine (ih l List.mem_cons_self _).assign ?_ (le_rightLevelAt hl (by decide))
        (ih r (List.mem_cons_of_mem _ List.mem_cons_self) _) (le_rightLevelAt hr (by decide))
      rintro o rfl
      exact hk
    | conditional c t f =>
      have hmem : t ∈ [c, t, f] ∧ f ∈ [c, t, f] := by simp
      have hc := hchildren c List.mem_cons_self
      exact (ih c List.mem_cons_self _).conditional (le_rightLevelAt hc (by decide))
        (ih t hmem.1 _) (le_rightLevelAt (hchildren t hmem.1) (by decide))
        (ih f hmem.2 _) (le_rightLevelAt (hchildren f hmem.2) (by decide))
    | unary op operand =>
      have ho := hchildren operand (List.mem_singleton_self _)
      by_cases hafter : op.isAfter = true
      · rw [ExprKind.precedence, ExprKind.rightLevel, kindPieces, if_pos hafter, if_pos hafter,
          if_pos hafter]
        exact (ih operand (List.mem_singleton_self _) _).after hafter
          (lt_rightLevelAt ho (by decide) (by decide) (by decide)) _
      · rw [ExprKind.precedence, ExprKind.rightLevel, kindPieces, if_neg hafter, if_neg hafter,
          if_neg hafter]
        refine (ih operand (List.mem_singleton_self _) _).before (Bool.eq_false_iff.2 hafter)
          (le_rightLevelAt ho (by decide)) fun hmerge k => ⟨?_, ?_⟩
        · rintro rfl
          exact head_operand hn ho rfl (.inl rfl) hmerge k
        · rintro rfl
          exact head_operand hn ho rfl (.inr rfl) hmerge k
    | _ => cases hk

/-- The text of an expression is read as the expression without its parentheses, to its end. -/
theorem reads_text (hn : sc.Names vars) {e : Expr} (he : e.isFormula vars = true) :
    Reads sc vars 0 none (e.text sc).toList e.unparen.bare [] := by
  have hs : Stops 0 [] := nofun
  have hread := (readsAs_pieces hn he 0).operand (k := []) nofun hs (Nat.zero_le _)
  rwa [List.append_nil, ← Piece.toList_renderAll] at hread

end Expr

/-! ## Bodies -/

namespace Body

/-- Two expressions with the same text, built from variables with distinct names, operators,
conditionals, array accesses, parentheses and assignments, differ in parentheses and in the
identifiers of their nodes only. -/
theorem exprText_injective {b : Body} {vars : List VarId} (hn : b.scope.Names vars)
    {x y : ExprId} (hx : (b.exprTree x).isFormula vars = true)
    (hy : (b.exprTree y).isFormula vars = true) (h : b.exprText x = b.exprText y) :
    (b.exprTree x).unparen.bare = (b.exprTree y).unparen.bare := by
  have hread := Expr.reads_text hn hx
  have hread' := Expr.reads_text hn hy
  rw [exprText, exprText] at h
  rw [← h] at hread'
  exact (hread.unique hn.distinct hread').1

/-- `(a + b) * -(- c)`, with parentheses that are nodes and with those that the printer adds. -/
def groups : Body where
  name := "groups"
  vars := #[⟨"a", .prim .int, .param, .dummy⟩, ⟨"b", .prim .int, .param, .dummy⟩,
    ⟨"c", .prim .int, .param, .dummy⟩]
  exprs := #[⟨.dummy, .var 0⟩, ⟨.dummy, .var 1⟩, ⟨.dummy, .binary 0 (.arith .add) 1⟩,
    ⟨.dummy, .paren 2⟩, ⟨.dummy, .var 2⟩, ⟨.dummy, .unary .neg 4⟩, ⟨.dummy, .unary .neg 5⟩,
    ⟨.dummy, .binary 3 (.arith .mul) 6⟩, ⟨.dummy, .var 0⟩, ⟨.dummy, .var 1⟩,
    ⟨.dummy, .binary 8 (.arith .add) 9⟩, ⟨.dummy, .var 2⟩, ⟨.dummy, .unary .neg 11⟩,
    ⟨.dummy, .unary .neg 12⟩, ⟨.dummy, .binary 10 (.arith .mul) 13⟩]
  stmts := #[⟨.dummy, .expr 7⟩, ⟨.dummy, .expr 14⟩]
  params := [0, 1, 2]
  block := [0, 1]

/-- Two trees that differ in parentheses only have one text. -/
theorem exprText_injective_groups :
    groups.Accepted ∧ groups.exprText 7 = "(a + b) * - -c" ∧
      groups.exprText 7 = groups.exprText 14 ∧
      (groups.exprTree 7).subexprs.length ≠ (groups.exprTree 14).subexprs.length ∧
      (groups.exprTree 7).unparen.bare = (groups.exprTree 14).unparen.bare := by
  have hb : groups.Accepted :=
    ⟨groups.has_of_reaches (by decide) (by decide) (by decide), by decide⟩
  have hn : groups.scope.Names [0, 1, 2] := by
    refine ⟨fun v hv => isName_of_isAlphanum ?_ ?_, by decide⟩
    · revert v; decide
    · revert v; decide
  have htext : groups.exprText 7 = groups.exprText 14 := by decide
  exact ⟨hb, by decide, htext, by decide, exprText_injective hn (by decide) (by decide) htext⟩

end Body

end Midend
