import Midend.Tree.Stmt

/-!
# Visits

The nodes and declared variables of a tree in evaluation order: the body of a `do`
loop comes before its condition, the update of a `for` loop after its body, and
the labels of a switch group right before its statements. `visits` lists them.
`forVisits` acts on one after the other, which is the same as acting on the list
(`forVisits_eq`), but an action that fails ends the walk.
-/

set_option linter.unusedSectionVars false

namespace Midend

/-- What a visit meets. -/
inductive Visit where
  | stmt (id : StmtId)
  | expr (id : ExprId)
  /-- A declaration of a variable. -/
  | var (v : VarId)
deriving DecidableEq

/-- What is visited, as it is shown. -/
def Visit.text : Visit → String
  | stmt id => "s" ++ id.repr
  | expr id => "e" ++ id.repr
  | var v => "v" ++ v.repr

/-- The expression and its operands in evaluation order. -/
def Expr.visits (e : Expr) : List Visit := e.subexprs.map fun s => .expr s.id

/-- Expressions one after the other. -/
def visitsOfExprs (es : List Expr) : List Visit := es.flatMap Expr.visits

namespace Stmt

mutual

/-- The statement and everything in it in evaluation order. -/
def visits : Stmt → List Visit
  | node id kind => .stmt id :: visitsOfKind kind

/-- The visits of a layer and of everything below it. -/
def visitsOfKind : StmtKind Expr Stmt → List Visit
  | .decl v init => .var v :: visitsOfExprs init.toList
  | .expr e | .throw e => e.visits
  | .block body => visitsOfList body
  | .branch cond t none => cond.visits ++ t.visits
  | .branch cond t (some f) => cond.visits ++ (t.visits ++ f.visits)
  | .whileLoop cond body => cond.visits ++ body.visits
  | .doLoop body cond => body.visits ++ cond.visits
  | .forLoop init cond update body =>
    visitsOfList init ++ (visitsOfExprs cond.toList ++ (body.visits ++ visitsOfExprs update))
  | .forEach v iterable body => iterable.visits ++ .var v :: body.visits
  | .switch selector cases => selector.visits ++ visitsOfCases cases
  | .guarded resources body catches none =>
    visitsOfList resources ++ (visitsOfList body ++ visitsOfCatches catches)
  | .guarded resources body catches (some finalizer) =>
    visitsOfList resources ++
      (visitsOfList body ++ (visitsOfCatches catches ++ visitsOfList finalizer))
  | .assert cond message => cond.visits ++ visitsOfExprs message.toList
  | .ret e => visitsOfExprs e.toList
  | .breakOut | .continueLoop | .empty | .err => []

/-- The visits of statements in order. -/
def visitsOfList : List Stmt → List Visit
  | [] => []
  | s :: ss => s.visits ++ visitsOfList ss

/-- The visits of the groups of a switch, labels before bodies. -/
def visitsOfCases : List (SwitchCase Expr Stmt) → List Visit
  | [] => []
  | ⟨_, labels, body⟩ :: cs => visitsOfExprs labels ++ (visitsOfList body ++ visitsOfCases cs)

/-- The visits of handlers, each with its variable. -/
def visitsOfCatches : List (CatchClause Stmt) → List Visit
  | [] => []
  | ⟨_, param, body⟩ :: cs => .var param :: visitsOfList body ++ visitsOfCatches cs

end

end Stmt

/-! ## Walking -/

variable {m : Type → Type} [Monad m]

namespace Expr

mutual

/-- Acts on the expression and its operands in evaluation order. -/
def forVisits (f : Visit → m Unit) : Expr → m Unit
  | node id kind => do
    f (.expr id)
    forVisitsOfKind f kind

/-- Acts on the expressions below a layer. -/
def forVisitsOfKind (f : Visit → m Unit) : ExprKind Expr → m Unit
  | .lit _ | .var _ | .err | .field none .. => pure ()
  | .field (some r) .. => r.forVisits f
  | .assign l _ r | .binary l _ r | .index l r => do
    l.forVisits f
    r.forVisits f
  | .unary _ e | .paren e | .cast _ e | .instanceOf e _ => e.forVisits f
  | .conditional c t e => do
    c.forVisits f
    t.forVisits f
    e.forVisits f
  | .call none _ args | .create _ args => forVisitsOfList f args
  | .call (some r) _ args => do
    r.forVisits f
    forVisitsOfList f args

/-- Acts on the expressions of a list. -/
def forVisitsOfList (f : Visit → m Unit) : List Expr → m Unit
  | [] => pure ()
  | e :: es => do
    e.forVisits f
    forVisitsOfList f es

end

variable [LawfulMonad m] (f : Visit → m Unit)

mutual

/-- Acting on an expression is acting on its visits, in order. -/
theorem forVisits_eq : ∀ e : Expr, e.forVisits f = e.visits.forM f
  | node id kind => by
    rw [forVisits, forVisitsOfKind_eq kind]
    simp [visits, subexprs, Expr.id]

theorem forVisitsOfKind_eq :
    ∀ k : ExprKind Expr, forVisitsOfKind f k = ((subexprsOfKind k).map (.expr ·.id)).forM f
  | .lit _ | .var _ | .err | .field none .. => by simp [forVisitsOfKind, subexprsOfKind]
  | .field (some e) .. | .unary _ e | .paren e | .cast _ e | .instanceOf e _ => by
    simp [forVisitsOfKind, subexprsOfKind, forVisits_eq e, visits]
  | .assign l _ r | .binary l _ r | .index l r => by
    simp [forVisitsOfKind, subexprsOfKind, forVisits_eq l, forVisits_eq r, visits]
  | .conditional c t e => by
    simp [forVisitsOfKind, subexprsOfKind, forVisits_eq c, forVisits_eq t, forVisits_eq e, visits]
  | .call none _ args | .create _ args => by
    simp [forVisitsOfKind, subexprsOfKind, forVisitsOfList_subexprs args]
  | .call (some r) _ args => by
    simp [forVisitsOfKind, subexprsOfKind, forVisits_eq r, forVisitsOfList_subexprs args, visits]

/-- Acting on expressions is acting on each of their nodes, in order. -/
theorem forVisitsOfList_subexprs :
    ∀ es : List Expr, forVisitsOfList f es = ((subexprsOfList es).map (.expr ·.id)).forM f
  | [] => by simp [forVisitsOfList, subexprsOfList]
  | e :: es => by
    simp [forVisitsOfList, subexprsOfList, forVisits_eq e, forVisitsOfList_subexprs es, visits]

end

/-- Acting on expressions is acting on their visits, in order. -/
theorem forVisitsOfList_eq (es : List Expr) :
    forVisitsOfList f es = (visitsOfExprs es).forM f := by
  induction es with
  | nil => simp [forVisitsOfList, visitsOfExprs]
  | cons e es ih => simp [forVisitsOfList, visitsOfExprs, forVisits_eq, ih]

end Expr

namespace Stmt

mutual

/-- Acts on the statement and everything in it in evaluation order. -/
def forVisits (f : Visit → m Unit) : Stmt → m Unit
  | node id kind => do
    f (.stmt id)
    forVisitsOfKind f kind

/-- Acts on everything below a layer. -/
def forVisitsOfKind (f : Visit → m Unit) : StmtKind Expr Stmt → m Unit
  | .decl v init => do
    f (.var v)
    Expr.forVisitsOfList f init.toList
  | .expr e | .throw e => e.forVisits f
  | .block body => forVisitsOfList f body
  | .branch cond t none => do
    cond.forVisits f
    t.forVisits f
  | .branch cond t (some e) => do
    cond.forVisits f
    t.forVisits f
    e.forVisits f
  | .whileLoop cond body => do
    cond.forVisits f
    body.forVisits f
  | .doLoop body cond => do
    body.forVisits f
    cond.forVisits f
  | .forLoop init cond update body => do
    forVisitsOfList f init
    Expr.forVisitsOfList f cond.toList
    body.forVisits f
    Expr.forVisitsOfList f update
  | .forEach v iterable body => do
    iterable.forVisits f
    f (.var v)
    body.forVisits f
  | .switch selector cases => do
    selector.forVisits f
    forVisitsOfCases f cases
  | .guarded resources body catches none => do
    forVisitsOfList f resources
    forVisitsOfList f body
    forVisitsOfCatches f catches
  | .guarded resources body catches (some finalizer) => do
    forVisitsOfList f resources
    forVisitsOfList f body
    forVisitsOfCatches f catches
    forVisitsOfList f finalizer
  | .assert cond message => do
    cond.forVisits f
    Expr.forVisitsOfList f message.toList
  | .ret e => Expr.forVisitsOfList f e.toList
  | .breakOut | .continueLoop | .empty | .err => pure ()

/-- Acts on the statements of a list. -/
def forVisitsOfList (f : Visit → m Unit) : List Stmt → m Unit
  | [] => pure ()
  | s :: ss => do
    s.forVisits f
    forVisitsOfList f ss

/-- Acts on the groups of a switch. -/
def forVisitsOfCases (f : Visit → m Unit) : List (SwitchCase Expr Stmt) → m Unit
  | [] => pure ()
  | ⟨_, labels, body⟩ :: cs => do
    Expr.forVisitsOfList f labels
    forVisitsOfList f body
    forVisitsOfCases f cs

/-- Acts on handlers. -/
def forVisitsOfCatches (f : Visit → m Unit) : List (CatchClause Stmt) → m Unit
  | [] => pure ()
  | ⟨_, param, body⟩ :: cs => do
    f (.var param)
    forVisitsOfList f body
    forVisitsOfCatches f cs

end

variable [LawfulMonad m] (f : Visit → m Unit)

mutual

/-- Acting on a statement is acting on its visits, in order. -/
theorem forVisits_eq : ∀ s : Stmt, s.forVisits f = s.visits.forM f
  | node id kind => by
    rw [forVisits, forVisitsOfKind_eq kind]
    simp [visits]

theorem forVisitsOfKind_eq :
    ∀ k : StmtKind Expr Stmt, forVisitsOfKind f k = (visitsOfKind k).forM f
  | .decl v init => by simp [forVisitsOfKind, visitsOfKind, Expr.forVisitsOfList_eq]
  | .expr e | .throw e => by simp [forVisitsOfKind, visitsOfKind, Expr.forVisits_eq]
  | .block body => by simp [forVisitsOfKind, visitsOfKind, forVisitsOfList_eq body]
  | .branch cond t none => by
    simp [forVisitsOfKind, visitsOfKind, Expr.forVisits_eq, forVisits_eq t]
  | .branch cond t (some e) => by
    simp [forVisitsOfKind, visitsOfKind, Expr.forVisits_eq, forVisits_eq t, forVisits_eq e]
  | .whileLoop cond body | .doLoop body cond => by
    simp [forVisitsOfKind, visitsOfKind, Expr.forVisits_eq, forVisits_eq body]
  | .forLoop init cond update body => by
    simp [forVisitsOfKind, visitsOfKind, Expr.forVisitsOfList_eq, forVisitsOfList_eq init,
      forVisits_eq body]
  | .forEach v iterable body => by
    simp [forVisitsOfKind, visitsOfKind, Expr.forVisits_eq, forVisits_eq body]
  | .switch selector cases => by
    simp [forVisitsOfKind, visitsOfKind, Expr.forVisits_eq, forVisitsOfCases_eq cases]
  | .guarded resources body catches none => by
    simp [forVisitsOfKind, visitsOfKind, forVisitsOfList_eq resources, forVisitsOfList_eq body,
      forVisitsOfCatches_eq catches]
  | .guarded resources body catches (some finalizer) => by
    simp [forVisitsOfKind, visitsOfKind, forVisitsOfList_eq resources, forVisitsOfList_eq body,
      forVisitsOfCatches_eq catches, forVisitsOfList_eq finalizer]
  | .assert cond message => by
    simp [forVisitsOfKind, visitsOfKind, Expr.forVisits_eq, Expr.forVisitsOfList_eq]
  | .ret e => by simp [forVisitsOfKind, visitsOfKind, Expr.forVisitsOfList_eq]
  | .breakOut | .continueLoop | .empty | .err => by simp [forVisitsOfKind, visitsOfKind]

/-- Acting on statements is acting on their visits, in order. -/
theorem forVisitsOfList_eq : ∀ ss : List Stmt, forVisitsOfList f ss = (visitsOfList ss).forM f
  | [] => by simp [forVisitsOfList, visitsOfList]
  | s :: ss => by
    simp [forVisitsOfList, visitsOfList, forVisits_eq s, forVisitsOfList_eq ss]

theorem forVisitsOfCases_eq :
    ∀ cs : List (SwitchCase Expr Stmt), forVisitsOfCases f cs = (visitsOfCases cs).forM f
  | [] => by simp [forVisitsOfCases, visitsOfCases]
  | ⟨_, labels, body⟩ :: cs => by
    simp [forVisitsOfCases, visitsOfCases, Expr.forVisitsOfList_eq, forVisitsOfList_eq body,
      forVisitsOfCases_eq cs]

theorem forVisitsOfCatches_eq :
    ∀ cs : List (CatchClause Stmt), forVisitsOfCatches f cs = (visitsOfCatches cs).forM f
  | [] => by simp [forVisitsOfCatches, visitsOfCatches]
  | ⟨_, param, body⟩ :: cs => by
    simp [forVisitsOfCatches, visitsOfCatches, forVisitsOfList_eq body, forVisitsOfCatches_eq cs]

end

end Stmt

end Midend
