import Midend.Proofs.Tree.Operand
import Midend.Tree.Print

/-!
# Reading nested statements

An `else` belongs to the nearest `if` before it that has none yet, through the bodies
of branches and loops that are not in braces. A reader keeps a stack of what it is
inside of (`Frame`). When a statement has ended, the bodies on top of the stack may
have ended with it: an `else` takes the first `if` among them, the `while` of a `do`
loop leaves them up to its `do`, and anything else leaves all of them. The words of an
expression leave the stack as it is, whatever they are (`Expr.inert_pieces`), as long
as the names in it are none of the reserved words.
-/

namespace Midend

open Text (Piece)

namespace Nesting

/-- What a word means for the nesting of statements. -/
inductive Token where
  /-- `if` -/
  | branch
  /-- `else` -/
  | otherwise
  /-- `for` -/
  | loop
  /-- `while`, at the start of a loop or after the body of one. -/
  | test
  /-- `do` -/
  | body
  /-- `catch` or `finally`, which continue a statement. -/
  | handler
  | opening
  /-- A brace may end a statement, a parenthesis does not. -/
  | closing (brace : Bool)
  | semicolon
  | plain
deriving DecidableEq

/-- The words that mean something for the nesting of statements. -/
def meanings : List (String × Token) :=
  [("if", .branch), ("else", .otherwise), ("for", .loop), ("while", .test), ("do", .body),
    ("catch", .handler), ("finally", .handler), ("(", .opening), ("\x7b", .opening),
    (")", .closing false), ("\x7d", .closing true), (";", .semicolon)]

/-- The words that mean something to the reader. -/
def reserved : List String := meanings.map Prod.fst

/-- The token that a word is to the reader. -/
def Token.of (w : String) : Token := (meanings.lookup w).getD plain

theorem Token.of_eq_plain {w : String} (h : w ∉ reserved) : Token.of w = plain := by
  have hnone : meanings.lookup w = none := by
    refine List.lookup_eq_none_iff.2 fun p hp => bne_iff_ne.2 ?_
    rintro rfl
    exact h (List.mem_map_of_mem hp)
  rw [Token.of, hnone]
  rfl

/-- What surrounds a word. -/
inductive Frame where
  /-- Braces or parentheses. -/
  | group
  /-- The body of an `if` that has no `else` yet. -/
  | branch (id : StmtId)
  /-- The body of a loop or of an `else`. -/
  | body
  /-- The body of a `do` loop. -/
  | doBody
deriving DecidableEq

namespace Frame

/-- Whether the end of a statement may be the end of the body around it. -/
def isOpen : Frame → Bool
  | branch _ | body => true
  | group | doBody => false

/-- Whether the frame is the body of a loop or of an `else`. -/
def isBody : Frame → Bool
  | body => true
  | _ => false

/-- Whether the frame is that of braces or parentheses. -/
def isGroup : Frame → Bool
  | group => true
  | _ => false

end Frame

/-- A reader in the middle of a text. -/
structure Reader where
  /-- What it is inside of, from the inside out. -/
  stack : List Frame
  /-- Whether a statement has just ended. -/
  ended : Bool
  /-- The `if` statements that are still to come, in order. -/
  ifs : List StmtId
  /-- The `if` statements of every `else` so far, in order. -/
  bound : List StmtId

namespace Reader

/-- What surrounds a statement that starts now. -/
def settled (r : Reader) : List Frame :=
  if r.ended then r.stack.dropWhile Frame.isOpen else r.stack

/-- Reads one token. -/
def step (r : Reader) : Token → Reader
  | .plain => { r with stack := r.settled, ended := false }
  | .semicolon => { r with stack := r.settled, ended := true }
  | .opening => { r with stack := .group :: r.settled, ended := false }
  | .closing brace => { r with stack := (r.stack.dropWhile (!·.isGroup)).tail, ended := brace }
  | .handler => { r with ended := false }
  | .loop => { r with stack := .body :: r.settled, ended := false }
  | .body => { r with stack := .doBody :: r.settled, ended := false }
  | .test =>
    match r.ended, r.settled with
    | true, .doBody :: stack => { r with stack, ended := false }
    | _, stack => { r with stack := .body :: stack, ended := false }
  | .branch =>
    match r.ifs with
    | [] => { r with stack := r.settled, ended := false }
    | id :: ifs => { r with stack := .branch id :: r.settled, ended := false, ifs }
  | .otherwise =>
    match r.stack.dropWhile Frame.isBody with
    | .branch id :: stack =>
      { r with stack := .body :: stack, ended := false, bound := r.bound ++ [id] }
    | stack => { r with stack, ended := false }

/-- Reads tokens in order. -/
def run (r : Reader) (ts : List Token) : Reader := ts.foldl step r

/-- A reader takes tokens part by part. -/
theorem run_append (r : Reader) (ts us : List Token) : r.run (ts ++ us) = (r.run ts).run us :=
  List.foldl_append

end Reader

/-- What the words among the pieces mean. -/
def tokens (ps : List Piece) : List Token := (Piece.words ps).map Token.of

@[simp] theorem tokens_nil : tokens [] = [] := rfl

@[simp] theorem tokens_append (ps qs : List Piece) :
    tokens (ps ++ qs) = tokens ps ++ tokens qs := by
  simp [tokens, Piece.words]

@[simp] theorem tokens_word (w : String) (ps : List Piece) :
    tokens (.word w :: ps) = Token.of w :: tokens ps := rfl

@[simp] theorem tokens_space (ps : List Piece) : tokens (.space :: ps) = tokens ps := rfl

@[simp] theorem tokens_newline (n : Nat) (ps : List Piece) :
    tokens (.newline n :: ps) = tokens ps := rfl

/-- The `if` to which each `else` of a text belongs, in order, given the `if` statements in
order. -/
def attached (ifs : List StmtId) (ps : List Piece) : List StmtId :=
  (Reader.run ⟨[], false, ifs, []⟩ (tokens ps)).bound

/-! ## Words without effect -/

/-- In the middle of a statement, reading the tokens changes nothing. -/
def Inert (ts : List Token) : Prop := ∀ r : Reader, r.ended = false → r.run ts = r

namespace Inert

variable {ts us : List Token}

theorem nil : Inert [] := fun _ _ => rfl

theorem append (h : Inert ts) (h' : Inert us) : Inert (ts ++ us) := by
  intro r hr
  rw [Reader.run_append, h r hr, h' r hr]

theorem plain (h : Inert ts) : Inert (.plain :: ts) := by
  rintro ⟨stack, ended, ifs, bound⟩ hr
  obtain rfl : ended = false := hr
  exact h _ rfl

/-- A word that is not reserved changes nothing for a reader. -/
theorem word (h : Inert ts) {w : String} (hw : w ∉ reserved) : Inert (Token.of w :: ts) := by
  rw [Token.of_eq_plain hw]
  exact h.plain

/-- Tokens without effect in parentheses. -/
theorem group (h : Inert ts) : Inert (.opening :: ts ++ [.closing false]) := by
  rintro ⟨stack, ended, ifs, bound⟩ hr
  obtain rfl : ended = false := hr
  have hinner := h ⟨.group :: stack, false, ifs, bound⟩ rfl
  rw [Reader.run_append]
  change ((Reader.run ⟨.group :: stack, false, ifs, bound⟩ ts).run [.closing false]) = _
  rw [hinner]
  rfl

theorem commaSeparated {pss : List (List Piece)} (h : ∀ ps ∈ pss, Inert (tokens ps)) :
    Inert (tokens (Piece.commaSeparated pss)) := by
  cases pss with
  | nil => exact nil
  | cons ps pss =>
    obtain ⟨hps, hrest⟩ := List.forall_mem_cons.1 h
    rw [Piece.commaSeparated, Piece.separated, tokens_append]
    refine hps.append ?_
    clear h
    induction pss with
    | nil => exact nil
    | cons qs pss ih =>
      obtain ⟨hqs, hrest⟩ := List.forall_mem_cons.1 hrest
      rw [List.flatMap_cons, tokens_append]
      exact (hqs.plain).append (ih hrest)

end Inert

/-! ## Texts that are not reserved -/

/-- A text with a character that no reserved word has. -/
theorem not_mem_reserved {w : String} {c : Char} (hc : c ∈ w.toList)
    (h : ∀ r ∈ reserved, c ∉ r.toList) : w ∉ reserved :=
  fun hw => h w hw hc

/-- A word with a digit is not reserved. -/
theorem not_mem_reserved_of_isDigit {w : String} {c : Char} (hc : c ∈ w.toList)
    (h : c.isDigit = true) : w ∉ reserved := by
  refine not_mem_reserved hc fun r hr hm => ?_
  have hall : (reserved.all fun r => r.toList.all (!·.isDigit)) = true := by decide
  have hdigit := List.all_eq_true.1 (List.all_eq_true.1 hall r hr) c hm
  rw [h] at hdigit
  cases hdigit

theorem exists_isDigit_repr (i : Int) : ∃ c ∈ i.repr.toList, c.isDigit = true := by
  have hnat : ∀ n : Nat, ∃ c ∈ n.repr.toList, c.isDigit = true := by
    intro n
    obtain ⟨c, cs, hcs⟩ := List.exists_cons_of_ne_nil (Nat.toDigits_ne_nil (n := n) (b := 10))
    have hc : c ∈ Nat.toDigits 10 n := hcs ▸ List.mem_cons_self
    refine ⟨c, ?_, Nat.isDigit_of_mem_toDigits (by decide) (by decide) hc⟩
    rwa [Nat.repr_eq_ofList_toDigits, String.toList_ofList]
  cases i with
  | ofNat n => exact hnat n
  | negSucc n =>
    obtain ⟨c, hc, hdigit⟩ := hnat (n + 1)
    refine ⟨c, ?_, hdigit⟩
    change c ∈ ("-" ++ (n + 1).repr).toList
    rw [String.toList_append]
    exact List.mem_append_right _ hc

end Nesting

open Nesting

namespace Decimal

/-- A decimal fraction has a point. -/
theorem mem_pointed (whole fraction : List Char) : '.' ∈ (pointed whole fraction).toList := by
  simp [pointed]

/-- A number in source text has a point in it. -/
theorem mem_text_sourceLayout {f : Floating.Format} {w : Nat} {negative : Bool} {n : Nat} {e : Int}
    (h : f.decode w = .finite negative n e) : '.' ∈ (sourceLayout.text f w).toList := by
  rw [Layout.text, h]
  have hwrite : ∀ d : Dec, '.' ∈ (sourceLayout.write d).toList := by
    intro d
    unfold Layout.write positional Layout.scientific
    dsimp only
    split
    · split <;> exact mem_pointed _ _
    · rw [if_neg (fun h => h.2 rfl)]
      simp [pointed]
  simp only [String.toList_append]
  refine List.mem_append_right _ ?_
  split
  · decide
  · exact hwrite _

end Decimal

namespace Literal

/-- No literal is written as a reserved word. -/
theorem text_not_mem_reserved (l : Literal) : l.text ∉ reserved := by
  have hint : ∀ (pre post : String) (i : Int), pre ++ i.repr ++ post ∉ reserved := by
    intro pre post i
    obtain ⟨c, hc, hdigit⟩ := exists_isDigit_repr i
    refine not_mem_reserved_of_isDigit ?_ hdigit
    simp [hc]
  have hfloat : ∀ (f : Floating.Format) (cls mark : String) (w : Nat),
      floatingSource f cls mark w ∉ reserved := by
    intro f cls mark w
    refine not_mem_reserved (c := '.') ?_ (by decide)
    unfold floatingSource
    split
    · simp
    · simp
    · next h =>
      rw [String.toList_append]
      exact List.mem_append_left _ (Decimal.mem_text_sourceLayout h)
  have hquoted : ∀ q us, q = '"' ∨ q = '\'' → Text.quoted q us ∉ reserved := by
    intro q us hq
    refine not_mem_reserved (c := q) ?_ ?_
    · simp [Text.quoted]
    · rcases hq with rfl | rfl <;> decide
  cases l with
  | null => decide
  | bool b => cases b <;> decide
  | char u => exact hquoted _ _ (.inr rfl)
  | str s => exact hquoted _ _ (.inl rfl)
  | byte i => simpa [text] using hint "(byte) " "" i.toInt
  | short i => simpa [text] using hint "(short) " "" i.toInt
  | int i => simpa [text] using hint "" "" i.toInt
  | long i => simpa [text] using hint "" "L" i.toInt
  | float bits => exact hfloat _ _ _ _
  | double bits => exact hfloat _ _ _ _

end Literal

/-! ## Expressions -/

/-- The names and types in the text of a layer. -/
def ExprKind.names {ε : Type} (sc : Scope) : ExprKind ε → List String
  | var v => [sc.name v]
  | field _ name _ => [name]
  | call _ callee _ => [callee.name]
  | create ty _ | cast ty _ | instanceOf _ ty => [ty.text]
  | lit _ | assign .. | binary .. | unary .. | paren _ | conditional .. | index .. | err => []

/-- No binary operator is a reserved word. -/
theorem BinOp.text_not_mem_reserved (op : BinOp) :
    op.text ∉ reserved ∧ op.text ++ "=" ∉ reserved := by
  rcases op with (_ | _ | _ | _ | _) | (_ | _ | _) | (_ | _ | _) | (_ | _ | _ | _) | (_ | _) |
    (_ | _) <;> decide

/-- No unary operator is a reserved word. -/
theorem UnOp.text_not_mem_reserved (op : UnOp) : op.text ∉ reserved := by
  cases op with
  | step s => obtain ⟨_ | _, after⟩ := s <;> exact of_decide_eq_true rfl
  | _ => decide

namespace Expr

variable {sc : Scope}

/-- No name in the expression is a reserved word. -/
def Unreserved (sc : Scope) (e : Expr) : Prop :=
  ∀ s ∈ e.subexprs, ∀ w ∈ s.kind.names sc, w ∉ reserved

instance (sc : Scope) (e : Expr) : Decidable (e.Unreserved sc) :=
  inferInstanceAs (Decidable (∀ s ∈ e.subexprs, ∀ w ∈ s.kind.names sc, w ∉ reserved))

theorem unreserved_node {id : ExprId} {k : ExprKind Expr} :
    (node id k).Unreserved sc ↔
      (∀ w ∈ k.names sc, w ∉ reserved) ∧ ∀ c ∈ k.children, c.Unreserved sc := by
  simp only [Unreserved, subexprs, subexprsOfKind_eq, List.forall_mem_cons, List.mem_flatMap, kind]
  refine and_congr_right fun _ => ⟨fun h c hc s hs => h s ⟨c, hc, hs⟩, ?_⟩
  rintro h s ⟨c, hc, hs⟩
  exact h c hc s hs

/-- Arguments are inert when each of them is. -/
theorem inert_args {es : List Expr} (h : ∀ e ∈ es, ∀ n, Inert (tokens (e.pieces sc n))) :
    Inert (tokens (argPieces (piecesOfArgs sc es))) := by
  rw [argPieces, piecesOfArgs_eq, List.cons_append, tokens_word, tokens_append]
  refine Inert.group (Inert.commaSeparated fun ps hps => ?_)
  obtain ⟨e, he, rfl⟩ := List.mem_map.1 hps
  exact h e he _

/-- The words of an expression have no effect on what surrounds it. -/
theorem inert_pieces {e : Expr} (he : e.Unreserved sc) :
    ∀ n, Inert (tokens (e.pieces sc n)) := by
  induction e using ofChildren with
  | node id k ih =>
    obtain ⟨hnames, hchildren⟩ := unreserved_node.1 he
    have ih := fun c hc => ih c hc (hchildren c hc)
    have hkind : Inert (tokens (kindPieces sc k)) := by
      cases k with
      | lit l => exact Inert.nil.word l.text_not_mem_reserved
      | var v => exact Inert.nil.word (hnames _ (List.mem_singleton_self _))
      | field receiver name isStatic =>
        have hname := Inert.nil.word (hnames name (List.mem_singleton_self _))
        cases receiver with
        | none =>
          cases isStatic
          · exact hname.plain.plain
          · exact hname
        | some r =>
          rw [kindPieces, tokens_append]
          exact (ih r (List.mem_singleton_self _) _).append hname.plain
      | assign l op r =>
        have hop : op.elim "" BinOp.text ++ "=" ∉ reserved := by
          cases op with
          | none => decide
          | some op => exact op.text_not_mem_reserved.2
        rw [kindPieces, tokens_append, tokens_append]
        exact ((ih l List.mem_cons_self _).append (Inert.nil.word hop)).append
          (ih r (List.mem_cons_of_mem _ List.mem_cons_self) _)
      | binary l op r =>
        rw [kindPieces, tokens_append, tokens_append]
        have hop := Inert.nil.word op.text_not_mem_reserved.1
        exact ((ih l List.mem_cons_self _).append hop).append
          (ih r (List.mem_cons_of_mem _ List.mem_cons_self) _)
      | unary op operand =>
        have hop := Inert.nil.word op.text_not_mem_reserved
        have hoperand := ih operand (List.mem_singleton_self _)
        rw [kindPieces]
        split
        · rw [tokens_append]
          exact (hoperand _).append hop
        · rw [List.cons_append, tokens_word, tokens_append]
          refine hop.append (.append ?_ (hoperand _))
          split <;> exact .nil
      | paren inner =>
        rw [kindPieces, List.cons_append, tokens_word, tokens_append]
        exact (ih inner (List.mem_singleton_self _) _).group
      | conditional c t f =>
        have hmem : t ∈ [c, t, f] ∧ f ∈ [c, t, f] := by simp
        simp only [kindPieces, tokens_append]
        exact ((((ih c List.mem_cons_self _).append Inert.nil.plain).append (ih t hmem.1 _)).append
          Inert.nil.plain).append (ih f hmem.2 _)
      | call receiver callee args =>
        have hname := hnames callee.name (List.mem_singleton_self _)
        cases receiver with
        | none => exact (inert_args fun e he => ih e he).word hname
        | some r =>
          obtain ⟨hr, hargs⟩ := List.forall_mem_cons.1 ih
          rw [kindPieces, tokens_append, tokens_append]
          exact ((hr _).append (Inert.nil.word hname).plain).append (inert_args hargs)
      | create ty args =>
        have hty := hnames ty.text (List.mem_singleton_self _)
        exact ((inert_args fun e he => ih e he).word hty).plain
      | index a i =>
        simp only [kindPieces, tokens_append]
        exact (((ih a List.mem_cons_self _).append Inert.nil.plain).append
          (ih i (List.mem_cons_of_mem _ List.mem_cons_self) _)).append Inert.nil.plain
      | cast ty e =>
        have hty := hnames ty.text (List.mem_singleton_self _)
        rw [kindPieces, tokens_append]
        exact (Inert.nil.word hty).group.append (ih e (List.mem_singleton_self _) _)
      | instanceOf e ty =>
        have hty := hnames ty.text (List.mem_singleton_self _)
        rw [kindPieces, tokens_append]
        exact (ih e (List.mem_singleton_self _) _).append (Inert.nil.word hty).plain
      | err => exact Inert.nil.plain
    intro n
    rw [pieces, parenthesized]
    split
    · rw [List.cons_append, tokens_word, tokens_append]
      exact hkind.group
    · exact hkind

end Expr

end Midend
