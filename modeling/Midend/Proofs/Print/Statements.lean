import Midend.Proofs.Print.Nesting

/-!
# Reading the text of statements

The words of a statement are read as one statement: the reader comes past its `if`s in
their order and leaves those frames on the stack that are still open where the text
ends (`Stmt.openFrames`). An `else` goes to the innermost `if` that the body before it
has left open, and to its own if there is none (`Stmt.takeElse`). `Scans` says this of
a list of tokens, from one place to another, `Between` of what stands between the
statements of a group. Each form of statement is one lemma, and the main result is
`Stmt.scanned`.
-/

namespace Midend

open Nesting
open Text (Piece)

namespace Nesting

/-- A stack, and whether a statement has just ended. -/
abbrev Place := List Frame × Bool

/-- What surrounds a statement that starts at the place. -/
def Place.settled (p : Place) : List Frame := if p.2 then p.1.dropWhile Frame.isOpen else p.1

/-- Reading the tokens leads from one place to another, past the `if` statements `ifs`, and `takers`
are those to which the `else`s on the way belong. -/
def Scans (p : Place) (ts : List Token) (ifs takers : List StmtId) (q : Place) : Prop :=
  ∀ later bound, Reader.run ⟨p.1, p.2, ifs ++ later, bound⟩ ts = ⟨q.1, q.2, later, bound ++ takers⟩

namespace Scans

variable {p q r : Place} {ts us : List Token} {ifs ifs' takers takers' : List StmtId}
  {stack : List Frame}

theorem nil (p : Place) : Scans p [] [] [] p := by
  intro later bound
  rw [List.append_nil]
  rfl

theorem append (h : Scans p ts ifs takers q) (h' : Scans q us ifs' takers' r) :
    Scans p (ts ++ us) (ifs ++ ifs') (takers ++ takers') r := by
  intro later bound
  rw [Reader.run_append, List.append_assoc, h, h', List.append_assoc]

/-- Inert tokens are scanned without a trace. -/
theorem of_inert (h : Inert ts) : Scans (stack, false) ts [] [] (stack, false) := by
  intro later bound
  rw [List.append_nil]
  exact h _ rfl

theorem congr (h : Scans p ts ifs takers q) {q' : Place} (hts : us = ts) (hifs : ifs' = ifs)
    (htakers : takers' = takers) (hq : q' = q) : Scans p us ifs' takers' q' := by
  subst hts hifs htakers hq
  exact h

/-- A token that does not open or take an `if`. -/
theorem of_step {t : Token}
    (h : ∀ ifs bound, Reader.step ⟨p.1, p.2, ifs, bound⟩ t = ⟨q.1, q.2, ifs, bound⟩) :
    Scans p [t] [] [] q := by
  intro later bound
  rw [List.append_nil]
  exact h later bound

/-- An `if` is put on the stack. -/
theorem branch (id : StmtId) :
    Scans (stack, false) [.branch] [id] [] (.branch id :: stack, false) := by
  intro later bound
  rw [List.append_nil]
  rfl

/-- Words without effect up to a semicolon. -/
theorem statement (h : Inert ts) :
    Scans (stack, false) (ts ++ [.semicolon]) [] [] (stack, true) :=
  (of_inert h).append (of_step fun _ _ => rfl)

end Scans

/-! ## Starts of statements -/

/-- The tokens start with one that starts a statement, or an expression. -/
def Starts (ts : List Token) : Prop :=
  ∃ t us, ts = t :: us ∧ t ∉ [.otherwise, .handler, .closing true, .closing false]

theorem Starts.append {ts us : List Token} (h : Starts ts) : Starts (ts ++ us) := by
  obtain ⟨t, vs, rfl, ht⟩ := h
  exact ⟨t, vs ++ us, rfl, ht⟩

/-- A statement may start where another has ended, if that was not the body of a `do` loop. -/
theorem Scans.of_settled {p q : Place} {ts : List Token} {ifs takers : List StmtId}
    (hts : Starts ts) (hp : p.settled.head? ≠ some .doBody)
    (h : Scans (p.settled, false) ts ifs takers q) : Scans p ts ifs takers q := by
  obtain ⟨t, us, rfl, ht⟩ := hts
  obtain ⟨stack, ended⟩ := p
  intro later bound
  rw [← h later bound]
  change Reader.run (Reader.step _ t) us = Reader.run (Reader.step _ t) us
  congr 1
  cases ended with
  | false => rfl
  | true =>
    cases t with
    | test =>
      simp only [Reader.step, Reader.settled, Place.settled, if_true] at hp ⊢
      split
      · next heq =>
        rw [heq] at hp
        exact absurd rfl hp
      · rfl
    | branch => cases ifs ++ later <;> rfl
    | otherwise | handler => simp at ht
    | closing brace => cases brace <;> simp at ht
    | _ => rfl

/-- The pieces may stand anywhere between statements in a group. -/
def Between (ps : List Piece) (ifs takers : List StmtId) : Prop :=
  ∀ (stack : List Frame) (p : Place), p.settled = .group :: stack →
    ∃ q : Place, q.settled = .group :: stack ∧ Scans p (tokens ps) ifs takers q

namespace Between

variable {ps qs : List Piece} {ifs ifs' takers takers' : List StmtId}

theorem nil : Between [] [] [] := fun _ p hp => ⟨p, hp, .nil p⟩

theorem append (h : Between ps ifs takers) (h' : Between qs ifs' takers') :
    Between (ps ++ qs) (ifs ++ ifs') (takers ++ takers') := by
  intro stack p hp
  obtain ⟨q, hq, hpq⟩ := h stack p hp
  obtain ⟨r, hr, hqr⟩ := h' stack q hq
  exact ⟨r, hr, tokens_append ps qs ▸ hpq.append hqr⟩

theorem space (h : Between ps ifs takers) : Between (.space :: ps) ifs takers := h

theorem newline (h : Between ps ifs takers) (n : Nat) : Between (.newline n :: ps) ifs takers := h

/-- What is read from inside of the group. -/
theorem of_scans (hps : Starts (tokens ps))
    (h : ∀ stack, ∃ q : Place, q.settled = .group :: stack ∧
      Scans (.group :: stack, false) (tokens ps) ifs takers q) : Between ps ifs takers := by
  intro stack p hp
  obtain ⟨q, hq, hscans⟩ := h stack
  exact ⟨q, hq, .of_settled hps (by rw [hp]; exact nofun) (hp ▸ hscans)⟩

/-- Inert pieces can stand between statements. -/
theorem of_inert (hps : Starts (tokens ps)) (h : Inert (tokens ps)) : Between ps [] [] :=
  of_scans hps fun _ => ⟨_, rfl, .of_inert h⟩

/-- So can a word that is not reserved, before inert pieces. -/
theorem plain {w : String} (hw : w ∉ reserved) (h : Inert (tokens ps)) :
    Between (.word w :: ps) [] [] := by
  refine of_inert ⟨_, _, rfl, ?_⟩ (h.word hw)
  rw [Token.of_eq_plain hw]
  decide

theorem semicolon : Between [.word ";"] [] [] :=
  of_scans ⟨_, _, rfl, by decide⟩ fun stack =>
    ⟨(.group :: stack, true), rfl, .of_step fun _ _ => rfl⟩

theorem separated {α : Type} {sep : List Piece} (hsep : Between sep [] []) {f : α → List Piece}
    {a b : α → List StmtId} {xs : List α} (h : ∀ x ∈ xs, Between (f x) (a x) (b x)) :
    Between (Piece.separated sep (xs.map f)) (xs.flatMap a) (xs.flatMap b) := by
  cases xs with
  | nil => exact nil
  | cons x xs =>
    obtain ⟨hx, hxs⟩ := List.forall_mem_cons.1 h
    rw [List.map_cons, Piece.separated, List.flatMap_cons, List.flatMap_cons]
    refine hx.append ?_
    clear h
    induction xs with
    | nil => exact nil
    | cons y ys ih =>
      obtain ⟨hy, hys⟩ := List.forall_mem_cons.1 hxs
      rw [List.map_cons, List.flatMap_cons, List.flatMap_cons, List.flatMap_cons]
      exact (hsep.append hy).append (ih hys)

/-- Where the stack settles at a group, this is its innermost one. -/
theorem dropWhile_of_settled {p : Place} {stack : List Frame} (h : p.settled = .group :: stack) :
    p.1.dropWhile (!·.isGroup) = .group :: stack := by
  obtain ⟨frames, ended⟩ := p
  cases ended with
  | false =>
    obtain rfl : frames = .group :: stack := h
    rfl
  | true =>
    change frames.dropWhile Frame.isOpen = .group :: stack at h
    induction frames with
    | nil => cases h
    | cons f frames ih =>
      cases f with
      | group => exact h
      | branch | body => exact ih h
      | doBody => cases h

/-- Pieces between braces or parentheses. -/
theorem group (h : Between ps ifs takers) (stack : List Frame) (brace : Bool) :
    Scans (stack, false) (.opening :: tokens ps ++ [.closing brace]) ifs takers (stack, brace) := by
  obtain ⟨q, hq, hscans⟩ := h stack (.group :: stack, false) rfl
  have hopening : Scans (stack, false) [.opening] [] [] (.group :: stack, false) :=
    .of_step fun _ _ => rfl
  have hclosing : Scans q [.closing brace] [] [] (stack, brace) := by
    refine .of_step fun ifs bound => ?_
    simp only [Reader.step, dropWhile_of_settled hq, List.tail_cons]
  have hall := (hopening.append hscans).append hclosing
  rwa [List.append_nil, List.append_nil] at hall

end Between

end Nesting

namespace Expr

variable {sc : Scope}

/-- An expression starts with a token that closes no branch. -/
theorem starts_pieces {e : Expr} (he : e.Unreserved sc) : ∀ n, Starts (tokens (e.pieces sc n)) := by
  induction e using ofChildren with
  | node id k ih =>
    obtain ⟨hnames, hchildren⟩ := unreserved_node.1 he
    have ih := fun c hc => ih c hc (hchildren c hc)
    have hword : ∀ {w : String} {ps : List Piece}, w ∉ reserved →
        Starts (tokens (.word w :: ps)) := by
      intro w ps hw
      refine ⟨_, _, rfl, ?_⟩
      rw [Token.of_eq_plain hw]
      decide
    have happend : ∀ {ps qs : List Piece}, Starts (tokens ps) → Starts (tokens (ps ++ qs)) := by
      intro ps qs h
      rw [tokens_append]
      exact h.append
    have hkind : Starts (tokens (kindPieces sc k)) := by
      cases k with
      | lit l => exact hword l.text_not_mem_reserved
      | var v => exact hword (hnames _ (List.mem_singleton_self _))
      | field receiver name isStatic =>
        cases receiver with
        | none =>
          cases isStatic
          · exact hword (by decide)
          · exact hword (hnames name (List.mem_singleton_self _))
        | some r => exact happend (ih r (List.mem_singleton_self _) _)
      | assign l op r => exact happend (happend (ih l List.mem_cons_self _))
      | binary l op r => exact happend (happend (ih l List.mem_cons_self _))
      | unary op operand =>
        rw [kindPieces]
        split
        · exact happend (ih operand (List.mem_singleton_self _) _)
        · exact hword op.text_not_mem_reserved
      | paren inner => exact ⟨_, _, rfl, by decide⟩
      | conditional c t f =>
        exact happend (happend (happend (happend (ih c List.mem_cons_self _))))
      | call receiver callee args =>
        cases receiver with
        | none => exact hword (hnames callee.name (List.mem_singleton_self _))
        | some r => exact happend (happend (ih r List.mem_cons_self _))
      | create ty args => exact hword (by decide)
      | index a i => exact happend (happend (happend (ih a List.mem_cons_self _)))
      | cast ty e => exact ⟨_, _, rfl, by decide⟩
      | instanceOf e ty => exact happend (ih e (List.mem_singleton_self _) _)
      | err => exact hword (by decide)
    intro n
    rw [pieces, parenthesized]
    split
    · exact ⟨_, _, rfl, by decide⟩
    · exact hkind

/-- An expression can stand between statements. -/
theorem between_pieces {e : Expr} (he : e.Unreserved sc) (n : Nat) :
    Between (e.pieces sc n) [] [] :=
  .of_inert (starts_pieces he n) (inert_pieces he n)

end Expr

namespace Stmt

/-! ## What a statement leaves open -/

/-- The `if` that takes an `else` after a body that leaves the frames open in an `if` of its own,
and what is left open then. -/
def takeElse (own : StmtId) : List Frame → StmtId × List Frame
  | [] => (own, [])
  | .branch id :: fs => (id, fs ++ [.branch own])
  | _ :: fs => takeElse own fs

/-- The frames that are open where the text of the statement ends. -/
def openFrames : Stmt → List Frame
  | node id (.branch _ t none) => t.openFrames ++ [.branch id]
  | node id (.branch _ t (some f)) => f.openFrames ++ .body :: (takeElse id t.openFrames).2
  | node _ (.whileLoop _ body) | node _ (.forLoop _ _ _ body) | node _ (.forEach _ _ body) =>
    body.openFrames ++ [.body]
  | _ => []

/-- Whether an `if` in the text of the statement can take an `else` after it. -/
def leavesOpen : Stmt → Bool
  | node _ (.branch _ _ none) => true
  | node _ (.branch _ t (some f)) => t.leavesOpen || f.leavesOpen
  | node _ (.whileLoop _ body) | node _ (.forLoop _ _ _ body) | node _ (.forEach _ _ body) =>
    body.leavesOpen
  | _ => false

mutual

/-- The `if` statements with an `else`, in the order of these. -/
def elseBranches : Stmt → List Stmt
  | node id (.branch c t (some f)) =>
    t.elseBranches ++ node id (.branch c t (some f)) :: f.elseBranches
  | node _ kind => elseBranchesOfKind kind

/-- The `if` statements with an `else` below a layer. -/
def elseBranchesOfKind : StmtKind Expr Stmt → List Stmt
  | .block body => elseBranchesOfList body
  | .branch _ t none => t.elseBranches
  | .branch _ t (some f) => t.elseBranches ++ f.elseBranches
  | .whileLoop _ body | .doLoop body _ | .forEach _ _ body => body.elseBranches
  | .forLoop init _ _ body => elseBranchesOfList init ++ body.elseBranches
  | .switch _ cases => elseBranchesOfCases cases
  | .guarded resources body catches none =>
    elseBranchesOfList resources ++ elseBranchesOfList body ++ elseBranchesOfCatches catches
  | .guarded resources body catches (some finalizer) =>
    elseBranchesOfList resources ++ elseBranchesOfList body ++ elseBranchesOfCatches catches ++
      elseBranchesOfList finalizer
  | .decl .. | .expr _ | .throw _ | .assert .. | .ret _ | .breakOut | .continueLoop | .empty
  | .err => []

/-- The `if` statements with an `else` in statements. -/
def elseBranchesOfList : List Stmt → List Stmt
  | [] => []
  | s :: ss => s.elseBranches ++ elseBranchesOfList ss

/-- The `if` statements with an `else` in the groups of a switch. -/
def elseBranchesOfCases : List (SwitchCase Expr Stmt) → List Stmt
  | [] => []
  | ⟨_, _, body⟩ :: cs => elseBranchesOfList body ++ elseBranchesOfCases cs

/-- The `if` statements with an `else` in handlers. -/
def elseBranchesOfCatches : List (CatchClause Stmt) → List Stmt
  | [] => []
  | ⟨_, _, body⟩ :: cs => elseBranchesOfList body ++ elseBranchesOfCatches cs

end

/-- The `if` statements in the order of their text. -/
def ifs (s : Stmt) : List StmtId := (s.substmts.filter isBranch).map Stmt.id

/-- The `if` that takes the `else` of the statement. -/
def taker : Stmt → StmtId
  | node id (.branch _ t (some _)) => (takeElse id t.openFrames).1
  | s => s.id

/-- The `if` statements that take the `else`s in the statement. -/
def takers (s : Stmt) : List StmtId := s.elseBranches.map taker

/-- The branches of statements are those of each one in order. -/
theorem elseBranchesOfList_eq (ss : List Stmt) :
    elseBranchesOfList ss = ss.flatMap elseBranches := by
  induction ss with
  | nil => rfl
  | cons s ss ih => rw [elseBranchesOfList, ih, List.flatMap_cons]

theorem elseBranchesOfCases_eq (cs : List (SwitchCase Expr Stmt)) :
    elseBranchesOfCases cs = (cs.flatMap (·.body)).flatMap elseBranches := by
  induction cs with
  | nil => rfl
  | cons c cs ih =>
    rw [elseBranchesOfCases, ih, elseBranchesOfList_eq, List.flatMap_cons, List.flatMap_append]

theorem elseBranchesOfCatches_eq (cs : List (CatchClause Stmt)) :
    elseBranchesOfCatches cs = (cs.flatMap (·.body)).flatMap elseBranches := by
  induction cs with
  | nil => rfl
  | cons c cs ih =>
    rw [elseBranchesOfCatches, ih, elseBranchesOfList_eq, List.flatMap_cons, List.flatMap_append]

/-- The branches of a layer are those of its children in order. -/
theorem elseBranchesOfKind_eq (k : StmtKind Expr Stmt) :
    elseBranchesOfKind k = k.stmtChildren.flatMap elseBranches := by
  cases k with
  | branch cond onTrue onFalse =>
    cases onFalse <;> simp [elseBranchesOfKind, StmtKind.stmtChildren]
  | guarded resources body catches finalizer =>
    cases finalizer <;> simp [elseBranchesOfKind, StmtKind.stmtChildren, elseBranchesOfList_eq,
      elseBranchesOfCatches_eq]
  | _ =>
    simp [elseBranchesOfKind, StmtKind.stmtChildren, elseBranchesOfList_eq,
      elseBranchesOfCases_eq]

/-- A branch comes before those nested in it. -/
theorem ifs_node (id : StmtId) (k : StmtKind Expr Stmt) :
    (node id k).ifs =
      (if (node id k).isBranch then [id] else []) ++ k.stmtChildren.flatMap ifs := by
  have hrest : ((k.stmtChildren.flatMap substmts).filter isBranch).map Stmt.id =
      k.stmtChildren.flatMap ifs := by
    rw [List.filter_flatMap, List.map_flatMap]
    rfl
  rw [ifs, substmts, substmtsOfKind_eq, List.filter_cons]
  split
  · rw [List.map_cons, hrest]
    rfl
  · exact hrest

/-- An `else` that is taken by none of the statements before it. -/
theorem takers_node {id : StmtId} {k : StmtKind Expr Stmt}
    (h : ∀ c t f, k ≠ .branch c t (some f)) :
    (node id k).takers = k.stmtChildren.flatMap takers := by
  have hk : (node id k).elseBranches = elseBranchesOfKind k := by
    rw [elseBranches]
    exact h
  rw [takers, hk, elseBranchesOfKind_eq, List.map_flatMap]
  rfl

/-- The `else` of a branch is taken by what is open after its first arm. -/
theorem takers_branch (id : StmtId) (c : Expr) (t f : Stmt) :
    (node id (.branch c t (some f))).takers =
      t.takers ++ (takeElse id t.openFrames).1 :: f.takers := by
  rw [takers, elseBranches, List.map_append, List.map_cons]
  rfl

/-- What is left open is open. -/
theorem isOpen_takeElse {own : StmtId} : ∀ fs : List Frame, (∀ f ∈ fs, f.isOpen = true) →
    ∀ f ∈ (takeElse own fs).2, f.isOpen = true
  | [], _ => nofun
  | .branch id :: fs, h => by
    intro f hf
    rcases List.mem_append.1 hf with hf | hf
    · exact h f (List.mem_cons_of_mem _ hf)
    · rw [List.mem_singleton.1 hf]
      rfl
  | .body :: fs, h | .group :: fs, h | .doBody :: fs, h =>
    isOpen_takeElse fs fun f hf => h f (List.mem_cons_of_mem _ hf)

theorem isOpen_of_mem_openFrames {s : Stmt} : ∀ f ∈ s.openFrames, f.isOpen = true := by
  induction s using ofChildren with
  | node id k ih =>
    cases k with
    | branch c t f =>
      have ht := ih t List.mem_cons_self
      cases f with
      | none =>
        intro fr hfr
        rcases List.mem_append.1 hfr with hfr | hfr
        · exact ht fr hfr
        · rw [List.mem_singleton.1 hfr]
          rfl
      | some f =>
        intro fr hfr
        rcases List.mem_append.1 hfr with hfr | hfr
        · exact ih f (List.mem_cons_of_mem _ (List.mem_singleton_self _)) fr hfr
        · rcases List.mem_cons.1 hfr with rfl | hfr
          · rfl
          · exact isOpen_takeElse _ ht fr hfr
    | whileLoop c body | forEach v c body =>
      intro fr hfr
      rcases List.mem_append.1 hfr with hfr | hfr
      · exact ih body (List.mem_singleton_self _) fr hfr
      · rw [List.mem_singleton.1 hfr]
        rfl
    | forLoop init c update body =>
      intro fr hfr
      rcases List.mem_append.1 hfr with hfr | hfr
      · exact ih body (List.mem_append_right _ (List.mem_singleton_self _)) fr hfr
      · rw [List.mem_singleton.1 hfr]
        rfl
    | _ => nofun

/-- An `else` after a body goes to the innermost `if` that the body leaves open. -/
theorem dropWhile_takeElse {own : StmtId} {stack : List Frame} :
    ∀ fs : List Frame, (∀ f ∈ fs, f.isOpen = true) →
      (fs ++ .branch own :: stack).dropWhile Frame.isBody =
        .branch (takeElse own fs).1 :: ((takeElse own fs).2 ++ stack)
  | [], _ => rfl
  | .branch id :: fs, _ => by
    simp [takeElse, Frame.isBody]
  | .body :: fs, h => dropWhile_takeElse fs fun f hf => h f (List.mem_cons_of_mem _ hf)
  | .group :: fs, h => nomatch h .group List.mem_cons_self
  | .doBody :: fs, h => nomatch h .doBody List.mem_cons_self

/-- Dropping the open frames drops those the statement has left. -/
theorem dropWhile_openFrames (s : Stmt) {f : Frame} (hf : f.isOpen = false) (stack : List Frame) :
    (s.openFrames ++ f :: stack).dropWhile Frame.isOpen = f :: stack := by
  rw [List.dropWhile_append_of_pos isOpen_of_mem_openFrames, List.dropWhile_cons, hf]
  rfl

/-! ## Reading statements -/

/-- No name in the statement's own expressions and declarations is a reserved word. -/
def Unreserved (sc : Scope) (s : Stmt) : Prop :=
  (∀ v ∈ s.kind.declared, sc.name v ∉ reserved ∧ (sc.ty v).elim "" Ty.text ∉ reserved) ∧
    ∀ e ∈ s.kind.exprChildren, e.Unreserved sc

instance (sc : Scope) (s : Stmt) : Decidable (s.Unreserved sc) :=
  inferInstanceAs (Decidable ((∀ v ∈ s.kind.declared,
    sc.name v ∉ reserved ∧ (sc.ty v).elim "" Ty.text ∉ reserved) ∧
      ∀ e ∈ s.kind.exprChildren, e.Unreserved sc))

/-- The text of the statement is read as one statement, which leaves its open frames. -/
def Scanned (sc : Scope) (s : Stmt) : Prop :=
  ∀ n stack, Scans (stack, false) (tokens (s.pieces sc n)) s.ifs s.takers
    (s.openFrames ++ stack, true)

section

variable {sc : Scope}

/-- A declared variable is inert when its name and type are not reserved. -/
theorem inert_varPieces {v : VarId}
    (h : sc.name v ∉ reserved ∧ (sc.ty v).elim "" Ty.text ∉ reserved) :
    Inert (tokens (varPieces sc v)) :=
  (Inert.nil.word h.1).word h.2

theorem inert_declPieces {v : VarId} {init : Option Expr}
    (h : sc.name v ∉ reserved ∧ (sc.ty v).elim "" Ty.text ∉ reserved)
    (hinit : ∀ e ∈ init.toList, e.Unreserved sc) : Inert (tokens (declPieces sc v init)) := by
  rw [declPieces, tokens_append]
  refine (inert_varPieces h).append ?_
  cases init with
  | none => exact .nil
  | some e => exact (Expr.inert_pieces (hinit e (List.mem_singleton_self _)) _).plain

theorem starts_declPieces {v : VarId} {init : Option Expr}
    (h : sc.name v ∉ reserved ∧ (sc.ty v).elim "" Ty.text ∉ reserved) :
    Starts (tokens (declPieces sc v init)) := by
  refine ⟨_, _, rfl, ?_⟩
  rw [Token.of_eq_plain h.2]
  decide

theorem starts_braced (n : Nat) (ls : List Piece) : Starts (tokens (braced n ls)) := by
  rw [braced]
  split <;> exact ⟨_, _, rfl, by decide⟩

/-- A statement starts with a token that closes no branch. -/
theorem starts_pieces {s : Stmt} (hs : s.Unreserved sc) (n : Nat) :
    Starts (tokens (s.pieces sc n)) := by
  obtain ⟨id, k⟩ := s
  obtain ⟨hvars, hexprs⟩ := hs
  rw [pieces]
  cases k with
  | decl v init =>
    rw [kindPieces, tokens_append]
    exact (starts_declPieces (hvars v (List.mem_singleton_self _))).append
  | expr e =>
    rw [kindPieces, tokens_append]
    exact (Expr.starts_pieces (hexprs e (List.mem_singleton_self _)) 0).append
  | block body => exact starts_braced n _
  | branch c t f => cases f <;> exact ⟨_, _, rfl, by decide⟩
  | _ => exact ⟨_, _, rfl, by decide⟩

/-- A scanned statement can stand between statements. -/
theorem Scanned.between {s : Stmt} (h : s.Scanned sc) (hs : s.Unreserved sc) (n : Nat) :
    Between (s.pieces sc n) s.ifs s.takers :=
  .of_scans (starts_pieces hs n) fun stack =>
    ⟨(s.openFrames ++ .group :: stack, true), s.dropWhile_openFrames rfl stack, h n _⟩

/-- So can statements on lines of their own. -/
theorem between_lines {ss : List Stmt} (h : ∀ s ∈ ss, s.Scanned sc ∧ s.Unreserved sc) (n : Nat) :
    Between (lines sc n ss) (ss.flatMap ifs) (ss.flatMap takers) := by
  induction ss with
  | nil => exact .nil
  | cons s ss ih =>
    obtain ⟨⟨hscanned, hs⟩, hss⟩ := List.forall_mem_cons.1 h
    rw [lines, List.flatMap_cons, List.flatMap_cons]
    exact ((hscanned.between hs n).append (ih hss)).newline n

theorem tokens_braced (n : Nat) (ls : List Piece) :
    tokens (braced n ls) = .opening :: tokens ls ++ [.closing true] := by
  rw [braced]
  split
  · next h =>
    obtain rfl := List.isEmpty_iff.1 h
    rfl
  · rw [tokens_append]
    rfl

/-- Braces close whatever their statements leave open. -/
theorem scans_braced {ss : List Stmt} (h : ∀ s ∈ ss, s.Scanned sc ∧ s.Unreserved sc) (n m : Nat)
    (stack : List Frame) :
    Scans (stack, false) (tokens (braced n (lines sc m ss))) (ss.flatMap ifs) (ss.flatMap takers)
      (stack, true) := by
  rw [tokens_braced]
  exact (between_lines h m).group stack true

/-- A nested statement is scanned with or without braces. -/
theorem scans_nested {body : Nat → List Piece} {p q : Place} {ifs takers : List StmtId}
    (h : ∀ n, Scans p (tokens (body n)) ifs takers q) (n : Nat) (isBlock : Bool) :
    Scans p (tokens (nested n isBlock body)) ifs takers q := by
  cases isBlock
  · exact h (n + 1)
  · exact h n

/-- One of the statements before the first semicolon of a `for` loop. -/
def bareItem (sc : Scope) (n : Nat) : Stmt → List Piece
  | node _ (.decl v init) => declPieces sc v init
  | node _ (.expr e) => e.pieces sc 0
  | s => s.pieces sc n

/-- One of the resources of a `try` statement. -/
def declItem (sc : Scope) (n : Nat) : Stmt → List Piece
  | node _ (.decl v init) => declPieces sc v init
  | s => s.pieces sc n

theorem bareList_eq (n : Nat) (ss : List Stmt) : bareList sc n ss = ss.map (bareItem sc n) := by
  induction ss with
  | nil => rfl
  | cons s ss ih =>
    obtain ⟨id, k⟩ := s
    cases k <;> rw [bareList, ih] <;> first | rfl | exact nofun

theorem declList_eq (n : Nat) (ss : List Stmt) : declList sc n ss = ss.map (declItem sc n) := by
  induction ss with
  | nil => rfl
  | cons s ss ih =>
    obtain ⟨id, k⟩ := s
    cases k <;> rw [declList, ih] <;> first | rfl | exact nofun

/-- A statement in a `for` header can stand between its separators. -/
theorem Scanned.between_declItem {s : Stmt} (h : s.Scanned sc) (hs : s.Unreserved sc) (n : Nat) :
    Between (declItem sc n s) s.ifs s.takers := by
  have hall := h.between hs n
  obtain ⟨id, k⟩ := s
  cases k with
  | decl v init =>
    have hv := hs.1 v (List.mem_singleton_self _)
    exact .of_inert (starts_declPieces hv) (inert_declPieces hv hs.2)
  | _ => exact hall

theorem Scanned.between_bareItem {s : Stmt} (h : s.Scanned sc) (hs : s.Unreserved sc) (n : Nat) :
    Between (bareItem sc n s) s.ifs s.takers := by
  have hall := h.between_declItem hs n
  obtain ⟨id, k⟩ := s
  cases k with
  | expr e => exact Expr.between_pieces (hs.2 e (List.mem_singleton_self _)) 0
  | _ => exact hall

theorem between_comma : Between [.word ",", .space] [] [] := .plain (by decide) .nil

theorem between_exprs {es : List Expr} (h : ∀ e ∈ es, e.Unreserved sc) :
    Between (Piece.commaSeparated (es.map fun e => e.pieces sc 0)) [] [] := by
  have hall := Between.separated (a := fun _ => []) (b := fun _ => []) between_comma fun e he =>
    Expr.between_pieces (h e he) 0
  rwa [List.flatMap_eq_nil_iff.2 fun _ _ => rfl] at hall

/-- The cases of a `switch` can stand between its braces. -/
theorem between_cases {cs : List (SwitchCase Expr Stmt)}
    (h : ∀ s ∈ cs.flatMap (·.body), s.Scanned sc ∧ s.Unreserved sc)
    (hlabels : ∀ e ∈ cs.flatMap (·.labels), e.Unreserved sc) (n : Nat) :
    Between (casePieces sc n cs) ((cs.flatMap (·.body)).flatMap ifs)
      ((cs.flatMap (·.body)).flatMap takers) := by
  induction cs with
  | nil => exact .nil
  | cons c cs ih =>
    obtain ⟨span, labels, body⟩ := c
    rw [List.flatMap_cons] at h hlabels
    have hbody := between_lines (n := n + 1) fun s hs => h s (List.mem_append_left _ hs)
    have hrest := ih (fun s hs => h s (List.mem_append_right _ hs)) fun e he =>
      hlabels e (List.mem_append_right _ he)
    have hlabel : Between ((if labels.isEmpty then [.word "default"]
        else [.word "case", .space] ++ Piece.commaSeparated (labels.map fun e => e.pieces sc 0)) ++
          [.word ":"]) [] [] := by
      have hcolon : Between [.word ":"] [] [] := .plain (by decide) .nil
      refine (?_ : Between _ [] []).append hcolon
      split
      · exact .plain (by decide) .nil
      · refine .plain (by decide) (Inert.commaSeparated fun ps hps => ?_)
        obtain ⟨e, he, rfl⟩ := List.mem_map.1 hps
        exact Expr.inert_pieces (hlabels e (List.mem_append_left _ he)) 0
    rw [List.flatMap_cons, List.flatMap_append, List.flatMap_append, casePieces]
    exact (((hlabel.append hbody).append hrest).newline n)

/-- Handlers are scanned one after another. -/
theorem scans_catches {cs : List (CatchClause Stmt)}
    (h : ∀ s ∈ cs.flatMap (·.body), s.Scanned sc ∧ s.Unreserved sc)
    (hparams : ∀ c ∈ cs, sc.name c.param ∉ reserved ∧ (sc.ty c.param).elim "" Ty.text ∉ reserved)
    (n : Nat) (stack : List Frame) :
    Scans (stack, true) (tokens (catchPieces sc n cs)) ((cs.flatMap (·.body)).flatMap ifs)
      ((cs.flatMap (·.body)).flatMap takers) (stack, true) := by
  induction cs with
  | nil => exact .nil _
  | cons c cs ih =>
    obtain ⟨span, param, body⟩ := c
    obtain ⟨hparam, hparams⟩ := List.forall_mem_cons.1 hparams
    rw [List.flatMap_cons] at h
    have hcatch : Scans (stack, true) [.handler] [] [] (stack, false) := .of_step fun _ _ => rfl
    have hhead := hcatch.append (.of_inert (inert_varPieces hparam).group)
    have hbody := scans_braced (fun s hs => h s (List.mem_append_left _ hs)) n (n + 1) stack
    have hrest := ih (fun s hs => h s (List.mem_append_right _ hs)) hparams
    have hall := (hhead.append hbody).append hrest
    rw [List.flatMap_cons, List.flatMap_append, List.flatMap_append, catchPieces, tokens_append,
      tokens_append, tokens_append, tokens_append]
    exact hall

/-- A finalizer is scanned like a block. -/
theorem scans_finalizer {finalizer : Option (List Stmt)}
    (h : ∀ s ∈ finalizer.getD [], s.Scanned sc ∧ s.Unreserved sc) (n : Nat) (stack : List Frame) :
    Scans (stack, true) (tokens (finalizerPieces sc n finalizer))
      ((finalizer.getD []).flatMap ifs) ((finalizer.getD []).flatMap takers) (stack, true) := by
  cases finalizer with
  | none => exact .nil _
  | some body =>
    have hfinally : Scans (stack, true) [.handler] [] [] (stack, false) := .of_step fun _ _ => rfl
    have hall := hfinally.append (scans_braced h n (n + 1) stack)
    rw [finalizerPieces, tokens_append]
    exact hall

@[simp] theorem tokens_afterNested (n : Nat) (s : Stmt) (ps : List Piece) :
    tokens (afterNested n s :: ps) = tokens ps := by
  rw [afterNested]
  split <;> rfl

/-! ### One statement at a time -/

variable {id : StmtId} {c : Expr} {t f body : Stmt}

/-- An `if` without `else` leaves its branch open. -/
theorem scanned_branch (hc : c.Unreserved sc) (ht : t.Scanned sc) :
    (node id (.branch c t none)).Scanned sc := by
  intro n stack
  have hif : Scans (stack, false) [.branch] [id] [] (.branch id :: stack, false) := .branch id
  have hhead := hif.append (.of_inert (Expr.inert_pieces hc 0).group)
  have hall := hhead.append (scans_nested (fun m => ht m (.branch id :: stack)) n t.isBlock)
  refine hall.congr ?_ ?_ ?_ ?_
  · simp [pieces, kindPieces, headPieces, Token.of, meanings, List.lookup_cons]
  · simp [ifs_node, StmtKind.stmtChildren, isBranch, kind]
  · simp [takers_node, StmtKind.stmtChildren]
  · exact congrArg (·, true) (List.append_assoc _ _ stack)

/-- The `else` goes to the innermost `if` that the body before it leaves open, or else to its
own. -/
theorem scanned_branch_else (hc : c.Unreserved sc) (ht : t.Scanned sc) (hf : f.Scanned sc) :
    (node id (.branch c t (some f))).Scanned sc := by
  intro n stack
  have hif : Scans (stack, false) [.branch] [id] [] (.branch id :: stack, false) := .branch id
  have hhead := hif.append (.of_inert (Expr.inert_pieces hc 0).group)
  have hbody := hhead.append (scans_nested (fun m => ht m (.branch id :: stack)) n t.isBlock)
  have helse : Scans (t.openFrames ++ .branch id :: stack, true) [.otherwise] []
      [(takeElse id t.openFrames).1]
      (.body :: ((takeElse id t.openFrames).2 ++ stack), false) := by
    intro later bound
    simp only [Reader.run, List.foldl_cons, List.foldl_nil, Reader.step, List.nil_append,
      dropWhile_takeElse _ isOpen_of_mem_openFrames]
  have hrest : Scans (.body :: ((takeElse id t.openFrames).2 ++ stack), false)
      (tokens (if f.isBranch then .space :: f.pieces sc n
        else nested n f.isBlock fun m => f.pieces sc m)) f.ifs f.takers
      (f.openFrames ++ .body :: ((takeElse id t.openFrames).2 ++ stack), true) := by
    split
    · exact hf n _
    · exact scans_nested (fun m => hf m _) n f.isBlock
  refine ((hbody.append helse).append hrest).congr ?_ ?_ ?_ ?_
  · simp [pieces, kindPieces, headPieces, Token.of, meanings, List.lookup_cons]
  · simp [ifs_node, StmtKind.stmtChildren, isBranch, kind]
  · simp [takers_branch]
  · exact congrArg (·, true) (List.append_assoc _ _ stack)

/-- A `while` loop leaves open what its body does. -/
theorem scanned_whileLoop (hc : c.Unreserved sc) (hb : body.Scanned sc) :
    (node id (.whileLoop c body)).Scanned sc := by
  intro n stack
  have hwhile : Scans (stack, false) [.test] [] [] (.body :: stack, false) :=
    .of_step fun _ _ => rfl
  have hhead := hwhile.append (.of_inert (Expr.inert_pieces hc 0).group)
  have hall := hhead.append (scans_nested (fun m => hb m (.body :: stack)) n body.isBlock)
  refine hall.congr ?_ ?_ ?_ ?_
  · simp [pieces, kindPieces, headPieces, Token.of, meanings, List.lookup_cons]
  · simp [ifs_node, StmtKind.stmtChildren, isBranch, kind]
  · simp [takers_node, StmtKind.stmtChildren]
  · exact congrArg (·, true) (List.append_assoc _ _ stack)

/-- The `while` after the body of a `do` loop ends what the body leaves open. -/
theorem scanned_doLoop (hc : c.Unreserved sc) (hb : body.Scanned sc) :
    (node id (.doLoop body c)).Scanned sc := by
  intro n stack
  have hdo : Scans (stack, false) [.body] [] [] (.doBody :: stack, false) :=
    .of_step fun _ _ => rfl
  have hbody := hdo.append (scans_nested (fun m => hb m (.doBody :: stack)) n body.isBlock)
  have hwhile : Scans (body.openFrames ++ .doBody :: stack, true) [.test] [] []
      (stack, false) := by
    have hdrop := body.dropWhile_openFrames (f := .doBody) rfl stack
    refine .of_step fun ifs bound => ?_
    simp only [Reader.step, Reader.settled, if_true, hdrop]
  have hend := hwhile.append (.statement (Expr.inert_pieces hc 0).group)
  refine (hbody.append hend).congr ?_ ?_ ?_ rfl
  · simp [pieces, kindPieces, headPieces, Token.of, meanings, List.lookup_cons]
  · simp [ifs_node, StmtKind.stmtChildren, isBranch, kind]
  · simp [takers_node, StmtKind.stmtChildren]

theorem scanned_forLoop {init : List Stmt} {cond : Option Expr} {update : List Expr}
    (hinit : ∀ s ∈ init, s.Scanned sc ∧ s.Unreserved sc)
    (hcond : ∀ e ∈ cond.toList, e.Unreserved sc) (hupdate : ∀ e ∈ update, e.Unreserved sc)
    (hb : body.Scanned sc) : (node id (.forLoop init cond update body)).Scanned sc := by
  intro n stack
  have hfor : Scans (stack, false) [.loop] [] [] (.body :: stack, false) :=
    .of_step fun _ _ => rfl
  have hinits : Between (Piece.commaSeparated (bareList sc n init)) (init.flatMap ifs)
      (init.flatMap takers) := by
    rw [bareList_eq]
    exact .separated between_comma fun s hs =>
      (hinit s hs).1.between_bareItem (hinit s hs).2 n
  have hconds : Between (cond.elim [] fun e => .space :: e.pieces sc 0) [] [] := by
    cases cond with
    | none => exact .nil
    | some c => exact (Expr.between_pieces (hcond c (List.mem_singleton_self _)) 0).space
  have hupdates : Between (if update.isEmpty then []
      else .space :: Piece.commaSeparated (update.map fun e => e.pieces sc 0)) [] [] := by
    split
    · exact .nil
    · exact (between_exprs hupdate).space
  have hhead := ((((hinits.append .semicolon).append hconds).append .semicolon).append
    hupdates).group (.body :: stack) false
  have hall := (hfor.append hhead).append
    (scans_nested (fun m => hb m (.body :: stack)) n body.isBlock)
  refine hall.congr ?_ ?_ ?_ ?_
  · simp [pieces, kindPieces, Token.of, meanings, List.lookup_cons]
  · simp [ifs_node, StmtKind.stmtChildren, isBranch, kind]
  · simp [takers_node, StmtKind.stmtChildren]
  · exact congrArg (·, true) (List.append_assoc _ _ stack)

theorem scanned_forEach {v : VarId}
    (hv : sc.name v ∉ reserved ∧ (sc.ty v).elim "" Ty.text ∉ reserved) (hc : c.Unreserved sc)
    (hb : body.Scanned sc) : (node id (.forEach v c body)).Scanned sc := by
  intro n stack
  have hfor : Scans (stack, false) [.loop] [] [] (.body :: stack, false) :=
    .of_step fun _ _ => rfl
  have hcolon : Inert [Token.of ":"] := Inert.nil.word (by decide)
  have hhead := hfor.append (.of_inert
    (((inert_varPieces hv).append hcolon).append (Expr.inert_pieces hc 0)).group)
  have hall := hhead.append (scans_nested (fun m => hb m (.body :: stack)) n body.isBlock)
  refine hall.congr ?_ ?_ ?_ ?_
  · simp [pieces, kindPieces, Token.of, meanings, List.lookup_cons]
  · simp [ifs_node, StmtKind.stmtChildren, isBranch, kind]
  · simp [takers_node, StmtKind.stmtChildren]
  · exact congrArg (·, true) (List.append_assoc _ _ stack)

/-- A `switch` leaves nothing open. -/
theorem scanned_switch {cases : List (SwitchCase Expr Stmt)} (hc : c.Unreserved sc)
    (hcases : ∀ s ∈ cases.flatMap (·.body), s.Scanned sc ∧ s.Unreserved sc)
    (hlabels : ∀ e ∈ cases.flatMap (·.labels), e.Unreserved sc) :
    (node id (.switch c cases)).Scanned sc := by
  intro n stack
  have hhead : Inert (tokens (headPieces sc "switch" c)) := by
    rw [headPieces, tokens_append, tokens_append]
    exact ((Expr.inert_pieces hc 0).group).word (w := "switch") (by decide)
  have hswitch : Scans (stack, false) (tokens (headPieces sc "switch" c)) [] [] (stack, false) :=
    .of_inert hhead
  have hall := hswitch.append ((between_cases hcases hlabels n).group stack true)
  refine hall.congr ?_ ?_ ?_ rfl
  · simp [pieces, kindPieces, Token.of, meanings, List.lookup_cons]
  · simp [ifs_node, StmtKind.stmtChildren, isBranch, kind]
  · simp [takers_node, StmtKind.stmtChildren]

theorem scanned_guarded {resources body : List Stmt} {catches : List (CatchClause Stmt)}
    {finalizer : Option (List Stmt)}
    (hresources : ∀ s ∈ resources, s.Scanned sc ∧ s.Unreserved sc)
    (hbody : ∀ s ∈ body, s.Scanned sc ∧ s.Unreserved sc)
    (hcatches : ∀ s ∈ catches.flatMap (·.body), s.Scanned sc ∧ s.Unreserved sc)
    (hfinalizer : ∀ s ∈ finalizer.getD [], s.Scanned sc ∧ s.Unreserved sc)
    (hparams : ∀ c ∈ catches,
      sc.name c.param ∉ reserved ∧ (sc.ty c.param).elim "" Ty.text ∉ reserved) :
    (node id (.guarded resources body catches finalizer)).Scanned sc := by
  intro n stack
  have htry : Scans (stack, false) [Token.of "try"] [] [] (stack, false) :=
    .of_inert (Inert.nil.word (by decide))
  have hhead : Scans (stack, false) (tokens (if resources.isEmpty then []
      else .word "(" :: Piece.separated [.word ";", .space] (declList sc n resources) ++
        [.word ")", .space])) (resources.flatMap ifs) (resources.flatMap takers)
      (stack, false) := by
    split
    · next h =>
      obtain rfl := List.isEmpty_iff.1 h
      exact .nil _
    · have hsep : Between [.word ";", .space] [] [] := .semicolon
      rw [declList_eq, List.cons_append, tokens_word, tokens_append]
      exact (Between.separated hsep fun s hs =>
        (hresources s hs).1.between_declItem (hresources s hs).2 n).group stack false
  have hall := (((htry.append hhead).append (scans_braced hbody n (n + 1) stack)).append
    (scans_catches hcatches hparams n stack)).append (scans_finalizer hfinalizer n stack)
  refine hall.congr ?_ ?_ ?_ rfl
  · simp [pieces, kindPieces]
  · simp [ifs_node, StmtKind.stmtChildren, isBranch, kind]
  · simp [takers_node, StmtKind.stmtChildren]

theorem scanned_assert {message : Option Expr} (hc : c.Unreserved sc)
    (hmessage : ∀ e ∈ message.toList, e.Unreserved sc) :
    (node id (.assert c message)).Scanned sc := by
  intro n stack
  have hrest : Inert (tokens (message.elim [] fun e =>
      [.space, .word ":", .space] ++ e.pieces sc 0)) := by
    cases message with
    | none => exact .nil
    | some e =>
      exact (Expr.inert_pieces (hmessage e (List.mem_singleton_self _)) 0).word (w := ":")
        (by decide)
  have hassert := ((Expr.inert_pieces hc 0).append hrest).word (w := "assert") (by decide)
  refine (Scans.statement hassert).congr ?_ rfl rfl rfl
  simp [pieces, kindPieces, Token.of, meanings, List.lookup_cons]

theorem scanned_ret {e : Option Expr} (he : ∀ x ∈ e.toList, x.Unreserved sc) :
    (node id (.ret e)).Scanned sc := by
  intro n stack
  have hvalue : Inert (tokens (e.elim [] fun e => .space :: e.pieces sc 0)) := by
    cases e with
    | none => exact .nil
    | some e => exact Expr.inert_pieces (he e (List.mem_singleton_self _)) 0
  have hreturn := hvalue.word (w := "return") (by decide)
  refine (Scans.statement hreturn).congr ?_ rfl rfl rfl
  simp [pieces, kindPieces, Token.of, meanings, List.lookup_cons]

/-- The text of a statement without reserved words for names is read as one statement. -/
theorem scanned {s : Stmt} (hs : ∀ t ∈ s.substmts, t.Unreserved sc) : s.Scanned sc := by
  induction s using ofChildren with
  | node id k ih =>
    obtain ⟨hvars, hexprs⟩ := hs _ (mem_substmts_self _)
    have hall : ∀ c ∈ k.stmtChildren, c.Scanned sc ∧ c.Unreserved sc := by
      intro c hc
      have hsub : ∀ t ∈ c.substmts, t.Unreserved sc := fun t ht => hs t (substmts_subset hc ht)
      exact ⟨ih c hc hsub, hsub c (mem_substmts_self c)⟩
    cases k with
    | decl v init =>
      intro n stack
      rw [pieces, kindPieces, tokens_append]
      exact .statement (inert_declPieces (hvars v (List.mem_singleton_self _)) hexprs)
    | expr e =>
      intro n stack
      rw [pieces, kindPieces, tokens_append]
      exact .statement (Expr.inert_pieces (hexprs e (List.mem_singleton_self _)) 0)
    | block body =>
      intro n stack
      refine (scans_braced hall n (n + 1) stack).congr rfl ?_ ?_ rfl
      · simp [ifs_node, StmtKind.stmtChildren, isBranch, kind]
      · simp [takers_node, StmtKind.stmtChildren]
    | branch c t f =>
      have hc := hexprs c (List.mem_singleton_self _)
      have ht := (hall t List.mem_cons_self).1
      cases f with
      | none => exact scanned_branch hc ht
      | some f =>
        have hf := (hall f (List.mem_cons_of_mem _ (List.mem_singleton_self _))).1
        exact scanned_branch_else hc ht hf
    | whileLoop c body =>
      exact scanned_whileLoop (hexprs c (List.mem_singleton_self _))
        (hall body (List.mem_singleton_self _)).1
    | doLoop body c =>
      exact scanned_doLoop (hexprs c (List.mem_singleton_self _))
        (hall body (List.mem_singleton_self _)).1
    | forLoop init c update body =>
      exact scanned_forLoop (fun s hs => hall s (List.mem_append_left _ hs))
        (fun e he => hexprs e (List.mem_append_left _ he))
        (fun e he => hexprs e (List.mem_append_right _ he))
        (hall body (List.mem_append_right _ (List.mem_singleton_self _))).1
    | forEach v iterable body =>
      exact scanned_forEach (hvars v (List.mem_singleton_self _))
        (hexprs iterable (List.mem_singleton_self _)) (hall body (List.mem_singleton_self _)).1
    | switch selector cases =>
      exact scanned_switch (hexprs selector List.mem_cons_self) hall
        fun e he => hexprs e (List.mem_cons_of_mem _ he)
    | guarded resources body catches finalizer =>
      simp only [StmtKind.stmtChildren, List.mem_append] at hall
      exact scanned_guarded (fun s hs => hall s (.inl (.inl (.inl hs))))
        (fun s hs => hall s (.inl (.inl (.inr hs)))) (fun s hs => hall s (.inl (.inr hs)))
        (fun s hs => hall s (.inr hs)) fun c hc => hvars _ (List.mem_map_of_mem hc)
    | throw e =>
      intro n stack
      rw [pieces, kindPieces, tokens_append, tokens_append]
      exact .statement ((Expr.inert_pieces (hexprs e (List.mem_singleton_self _)) 0).word
        (w := "throw") (by decide))
    | assert c message =>
      exact scanned_assert (hexprs c List.mem_cons_self)
        fun e he => hexprs e (List.mem_cons_of_mem _ he)
    | ret e => exact scanned_ret hexprs
    | breakOut => exact fun _ _ => .statement (Inert.nil.word (w := "break") (by decide))
    | continueLoop => exact fun _ _ => .statement (Inert.nil.word (w := "continue") (by decide))
    | empty => exact fun _ _ => .statement .nil
    | err => exact fun _ _ => .statement (Inert.nil.word (w := "/* error */") (by decide))

end

end Stmt

end Midend
