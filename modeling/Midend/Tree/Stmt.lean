import Midend.IdSet
import Midend.Tree.Expr

/-!
# Statements

As for expressions, `StmtKind ε σ` is one layer with expressions of type `ε` and
nested statements of type `σ`, and `Stmt` is a tree whose nodes keep their
identifiers.
-/

namespace Midend

/-- A statement of a body. -/
abbrev StmtId := Nat

/-- A group of a switch: its labels, none for the default group, and its statements. -/
structure SwitchCase (ε σ : Type) where
  span : Span
  labels : List ε
  body : List σ
deriving DecidableEq

/-- A handler of a try statement. -/
structure CatchClause (σ : Type) where
  span : Span
  param : VarId
  body : List σ
deriving DecidableEq

/-- One layer of a statement. -/
inductive StmtKind (ε σ : Type) where
  | decl (v : VarId) (init : Option ε)
  | expr (e : ε)
  | block (body : List σ)
  | branch (cond : ε) (onTrue : σ) (onFalse : Option σ)
  | whileLoop (cond : ε) (body : σ)
  | doLoop (body : σ) (cond : ε)
  | forLoop (init : List σ) (cond : Option ε) (update : List ε) (body : σ)
  | forEach (v : VarId) (iterable : ε) (body : σ)
  /-- Groups fall through into the next one unless they jump. -/
  | switch (selector : ε) (cases : List (SwitchCase ε σ))
  | guarded (resources body : List σ) (catches : List (CatchClause σ))
      (finalizer : Option (List σ))
  | throw (e : ε)
  | assert (cond : ε) (message : Option ε)
  | ret (e : Option ε)
  | breakOut
  | continueLoop
  | empty
  /-- A statement that could not be represented. -/
  | err
deriving DecidableEq

instance {ε σ : Type} (k : StmtKind ε σ) : Decidable (k = .err) :=
  match k with
  | .err => .isTrue rfl
  | .decl .. | .expr _ | .block _ | .branch .. | .whileLoop .. | .doLoop .. | .forLoop ..
  | .forEach .. | .switch .. | .guarded .. | .throw _ | .assert .. | .ret _ | .breakOut
  | .continueLoop | .empty => .isFalse nofun

/-- Whether the group is the default one, which has no labels. -/
def SwitchCase.isDefault {ε σ : Type} (c : SwitchCase ε σ) : Bool := c.labels.isEmpty

/-- Replaces the first label equal to `old` in a list of groups. -/
def swapLabel {ε σ : Type} [DecidableEq ε] (old new : ε) :
    List (SwitchCase ε σ) → Option (List (SwitchCase ε σ))
  | [] => none
  | c :: rest =>
    match swapFirst old new c.labels with
    | some labels => some (⟨c.span, labels, c.body⟩ :: rest)
    | none => (swapLabel old new rest).map (c :: ·)

namespace StmtKind

variable {ε δ σ τ : Type}

/-- The expressions of the statement itself in evaluation order; the labels of a switch follow its
selector. -/
def exprChildren : StmtKind ε σ → List ε
  | decl _ init => init.toList
  | expr e | whileLoop e _ | doLoop _ e | throw e | forEach _ e _ | branch e .. => [e]
  | forLoop _ cond update _ => cond.toList ++ update
  | switch selector cases => selector :: cases.flatMap (·.labels)
  | assert cond message => cond :: message.toList
  | ret e => e.toList
  | block _ | guarded .. | breakOut | continueLoop | empty | err => []

/-- The statements nested in this one in program order. -/
def stmtChildren : StmtKind ε σ → List σ
  | block body => body
  | branch _ onTrue onFalse => onTrue :: onFalse.toList
  | whileLoop _ body | doLoop body _ | forEach _ _ body => [body]
  | forLoop init _ _ body => init ++ [body]
  | switch _ cases => cases.flatMap (·.body)
  | guarded resources body catches finalizer =>
    resources ++ body ++ catches.flatMap (·.body) ++ finalizer.getD []
  | decl .. | expr _ | throw _ | assert .. | ret _ | breakOut | continueLoop | empty | err => []

/-- Applies `f` to every expression and `g` to every nested statement. -/
def map (f : ε → δ) (g : σ → τ) : StmtKind ε σ → StmtKind δ τ
  | decl v init => decl v (init.map f)
  | expr e => expr (f e)
  | block body => block (body.map g)
  | branch cond onTrue onFalse => branch (f cond) (g onTrue) (onFalse.map g)
  | whileLoop cond body => whileLoop (f cond) (g body)
  | doLoop body cond => doLoop (g body) (f cond)
  | forLoop init cond update body => forLoop (init.map g) (cond.map f) (update.map f) (g body)
  | forEach v iterable body => forEach v (f iterable) (g body)
  | switch selector cases =>
    switch (f selector) (cases.map fun c => ⟨c.span, c.labels.map f, c.body.map g⟩)
  | guarded resources body catches finalizer =>
    guarded (resources.map g) (body.map g)
      (catches.map fun c => ⟨c.span, c.param, c.body.map g⟩) (finalizer.map (·.map g))
  | throw e => throw (f e)
  | assert cond message => assert (f cond) (message.map f)
  | ret e => ret (e.map f)
  | breakOut => breakOut
  | continueLoop => continueLoop
  | empty => empty
  | err => err

/-- Only what `g` does to the nested statements matters. -/
theorem map_congr {f : ε → δ} {g h : σ → τ} {k : StmtKind ε σ}
    (hk : ∀ s ∈ k.stmtChildren, g s = h s) : k.map f g = k.map f h := by
  cases k with
  | branch cond onTrue onFalse =>
    cases onFalse <;> simp_all [stmtChildren, map]
  | switch selector cases =>
    simp only [stmtChildren, List.mem_flatMap] at hk
    simp only [map, switch.injEq, true_and]
    refine List.map_congr_left fun c hc => ?_
    rw [List.map_congr_left fun s hs => hk s ⟨c, hc, hs⟩]
  | guarded resources body catches finalizer =>
    simp only [stmtChildren, List.mem_append, List.mem_flatMap] at hk
    simp only [map, guarded.injEq]
    refine ⟨List.map_congr_left fun s hs => hk s (.inl (.inl (.inl hs))),
      List.map_congr_left fun s hs => hk s (.inl (.inl (.inr hs))),
      List.map_congr_left fun c hc => ?_, ?_⟩
    · rw [List.map_congr_left fun s hs => hk s (.inl (.inr ⟨c, hc, hs⟩))]
    · cases finalizer with
      | none => rfl
      | some ss => exact congrArg some (List.map_congr_left fun s hs => hk s (.inr hs))
  | _ => simp_all [stmtChildren, map]

/-- Replaces the first expression equal to `old`; none if there is no such expression. -/
def replaceChild [DecidableEq ε] (old new : ε) : StmtKind ε σ → Option (StmtKind ε σ)
  | decl v init => (init.bind (swapSlot old new)).map fun e => decl v (some e)
  | ret e => (e.bind (swapSlot old new)).map fun e => ret (some e)
  | expr e => (swapSlot old new e).map expr
  | branch cond t f => (swapSlot old new cond).map fun cond => branch cond t f
  | whileLoop cond body => (swapSlot old new cond).map fun cond => whileLoop cond body
  | doLoop body cond => (swapSlot old new cond).map (doLoop body)
  | throw e => (swapSlot old new e).map throw
  | forEach v iterable body => (swapSlot old new iterable).map fun e => forEach v e body
  | forLoop init cond update body =>
    ((cond.bind (swapSlot old new)).map fun c => forLoop init (some c) update body) <|>
      (swapFirst old new update).map fun update => forLoop init cond update body
  | switch selector cases =>
    ((swapSlot old new selector).map fun selector => switch selector cases) <|>
      (swapLabel old new cases).map (switch selector)
  | assert cond message =>
    ((swapSlot old new cond).map fun cond => assert cond message) <|>
      (message.bind (swapSlot old new)).map fun m => assert cond (some m)
  | block _ | guarded .. | breakOut | continueLoop | empty | err => none

/-- Whether the statement is a loop. -/
def isLoop : StmtKind ε σ → Bool
  | whileLoop .. | doLoop .. | forLoop .. | forEach .. => true
  | _ => false

/-- Whether a `break` directly inside leaves this statement. -/
def isBreakable : StmtKind ε σ → Bool
  | whileLoop .. | doLoop .. | forLoop .. | forEach .. | switch .. => true
  | _ => false

/-- Whether the statement is a block. -/
def isBlock : StmtKind ε σ → Bool
  | block _ => true
  | _ => false

/-- The variables that the statement itself declares. -/
def declared : StmtKind ε σ → List VarId
  | decl v _ | forEach v .. => [v]
  | guarded _ _ catches _ => catches.map (·.param)
  | _ => []

/-- What the layer is, in words. -/
def description : StmtKind ε σ → String
  | decl .. => "variable declaration"
  | expr _ => "expression statement"
  | block _ => "block"
  | branch .. => "`if` statement"
  | whileLoop .. => "`while` loop"
  | doLoop .. => "`do` loop"
  | forLoop .. => "`for` loop"
  | forEach .. => "for-each loop"
  | switch .. => "`switch` statement"
  | guarded .. => "`try` statement"
  | throw _ => "`throw` statement"
  | assert .. => "`assert` statement"
  | ret _ => "`return` statement"
  | breakOut => "`break` statement"
  | continueLoop => "`continue` statement"
  | empty => "empty statement"
  | err => "erroneous statement"

end StmtKind

/-- A statement tree. Every node keeps its identifier. -/
inductive Stmt where
  | node (id : StmtId) (kind : StmtKind Expr Stmt)

namespace Stmt

/-- The identifier of a statement. -/
def id : Stmt → StmtId
  | node id _ => id

/-- The layer at the root of a statement. -/
def kind : Stmt → StmtKind Expr Stmt
  | node _ kind => kind

mutual

/-- The statement and all statements nested in it, each before those nested in it. -/
def substmts : Stmt → List Stmt
  | node id kind => node id kind :: substmtsOfKind kind

/-- The statements below a layer, parents before children. -/
def substmtsOfKind : StmtKind Expr Stmt → List Stmt
  | .block body => substmtsOfList body
  | .branch _ t none => t.substmts
  | .branch _ t (some f) => t.substmts ++ f.substmts
  | .whileLoop _ body | .doLoop body _ | .forEach _ _ body => body.substmts
  | .forLoop init _ _ body => substmtsOfList init ++ body.substmts
  | .switch _ cases => substmtsOfCases cases
  | .guarded resources body catches none =>
    substmtsOfList resources ++ substmtsOfList body ++ substmtsOfCatches catches
  | .guarded resources body catches (some finalizer) =>
    substmtsOfList resources ++ substmtsOfList body ++ substmtsOfCatches catches ++
      substmtsOfList finalizer
  | .decl .. | .expr _ | .throw _ | .assert .. | .ret _ | .breakOut | .continueLoop | .empty
  | .err => []

/-- The statements of a list and those below them. -/
def substmtsOfList : List Stmt → List Stmt
  | [] => []
  | s :: ss => s.substmts ++ substmtsOfList ss

/-- The statements of the groups of a switch and those below them. -/
def substmtsOfCases : List (SwitchCase Expr Stmt) → List Stmt
  | [] => []
  | ⟨_, _, body⟩ :: cs => substmtsOfList body ++ substmtsOfCases cs

/-- The statements of handlers and those below them. -/
def substmtsOfCatches : List (CatchClause Stmt) → List Stmt
  | [] => []
  | ⟨_, _, body⟩ :: cs => substmtsOfList body ++ substmtsOfCatches cs

end

/-- Every expression of the statement and of those nested in it. -/
def allExprs (s : Stmt) : List Expr :=
  s.substmts.flatMap fun t => t.kind.exprChildren.flatMap Expr.subexprs

/-- The locals that the statement may write, with every variable it declares. -/
def written (s : Stmt) : IdSet :=
  IdSet.ofList (s.substmts.flatMap fun t =>
    t.kind.declared ++ t.kind.exprChildren.flatMap Expr.written)

end Stmt

end Midend
