import Midend.Body.Basic
import Midend.Liveness.Kills
import Midend.Liveness.Transfer
import Midend.Tree.Role

/-!
# Liveness of a body

The live sets of all nodes of a body, by identifier. A node is recorded with the
sets of the last walk over it; nodes that are not reached from the root block have
empty sets.
-/

namespace Midend

/-- What is recorded of a node. -/
inductive LiveEntry where
  | expr (id : ExprId) (live : IdSet)
  | stmt (id : StmtId) (live out : IdSet)

namespace Expr

/-- The target of a write with the targets inside its parentheses. -/
def targetChain : Expr → List ExprId
  | node id (.paren inner) => id :: inner.targetChain
  | node id _ => [id]

/-- The entries of a variable that is written. -/
def targetEntries (e : Expr) (live : IdSet) : List LiveEntry :=
  e.targetChain.map (LiveEntry.expr · live)

mutual

/-- The entries of an expression, in the order in which a walk ends with them. -/
def liveEntries (protect out : IdSet) : Expr → List LiveEntry
  | node id (.assign l op r) =>
    let live := (node id (.assign l op r)).liveIn protect out
    (match l.localTarget? with
    | some v => r.liveEntries protect (out.erase v) ++ l.targetEntries live
    | none => r.liveEntries protect out ++ l.placeEntries protect (r.liveIn protect out)) ++
      [.expr id live]
  | node id (.unary (.step s) e) =>
    let live := (node id (.unary (.step s) e)).liveIn protect out
    (match e.localTarget? with
    | some _ => e.targetEntries live
    | none => e.placeEntries protect out) ++ [.expr id live]
  | node id (.binary l (.logic op) r) =>
    let live := (node id (.binary l (.logic op) r)).liveIn protect out
    r.liveEntries protect out ++ l.liveEntries protect (out ∪ r.liveIn protect out) ++
      [.expr id live]
  | node id (.conditional c t f) =>
    let live := (node id (.conditional c t f)).liveIn protect out
    t.liveEntries protect out ++ f.liveEntries protect out ++
      c.liveEntries protect (t.liveIn protect out ∪ f.liveIn protect out) ++ [.expr id live]
  | node id kind =>
    operandEntries protect out kind ++ [.expr id ((node id kind).liveIn protect out)]

/-- The entries of a field or array element that is written. -/
def placeEntries (protect out : IdSet) : Expr → List LiveEntry
  | node id (.paren inner) =>
    inner.placeEntries protect out ++ [.expr id (inner.placeIn protect out ∪ protect)]
  | node id kind =>
    operandEntries protect out kind ++
      [.expr id ((node id kind).placeIn protect out ∪ protect)]

/-- The entries of the operands of a layer, from the set live after it. -/
def operandEntries (protect out : IdSet) : ExprKind Expr → List LiveEntry
  | .lit _ | .var _ | .err | .field none .. => []
  | .field (some r) .. => r.liveEntries protect out
  | .assign l _ r | .binary l _ r | .index l r =>
    r.liveEntries protect out ++ l.liveEntries protect (r.liveIn protect out)
  | .unary _ e | .paren e | .cast _ e | .instanceOf e _ => e.liveEntries protect out
  | .conditional c t f =>
    f.liveEntries protect out ++ t.liveEntries protect (f.liveIn protect out) ++
      c.liveEntries protect (t.liveIn protect (f.liveIn protect out))
  | .call none _ args => listEntries protect out args
  | .call (some r) _ args =>
    listEntries protect out args ++ r.liveEntries protect (listIn protect out args)
  | .create _ args => listEntries protect out args

/-- The entries of expressions that are evaluated in order, those of the last one first. -/
def listEntries (protect out : IdSet) : List Expr → List LiveEntry
  | [] => []
  | e :: es => listEntries protect out es ++ e.liveEntries protect (listIn protect out es)

end

end Expr

namespace Stmt

mutual

/-- The entries of a statement, in the order in which a walk ends with them. -/
def liveEntries (all : IdSet) (rounds : Nat) (t : Targets) (out : IdSet) :
    Stmt → List LiveEntry
  | node id kind =>
    kindEntries all rounds t out kind ++
      [.stmt id ((node id kind).liveIn all rounds t out) (out ∪ t.protect)]

/-- The entries of the children of a layer, with the targets that each of them has. -/
def kindEntries (all : IdSet) (rounds : Nat) (t : Targets) (out : IdSet) :
    StmtKind Expr Stmt → List LiveEntry
  | .decl v init => Expr.listEntries t.protect (out.erase v) init.toList
  | .expr e => e.liveEntries t.protect out
  | .block body => listEntries all rounds t out body
  | .branch c a none =>
    a.liveEntries all rounds t out ++
      c.liveEntries t.protect (a.liveIn all rounds t out ∪ out)
  | .branch c a (some b) =>
    a.liveEntries all rounds t out ++ b.liveEntries all rounds t out ++
      c.liveEntries t.protect (a.liveIn all rounds t out ∪ b.liveIn all rounds t out)
  | .whileLoop c body =>
    let head := walkedHead rounds
      (fun head => c.liveIn t.protect (out ∪ body.liveIn all rounds (t.breakable out head) head))
      (c.liveIn t.protect out)
    body.liveEntries all rounds (t.breakable out head) head ++
      c.liveEntries t.protect (out ∪ body.liveIn all rounds (t.breakable out head) head)
  | .doLoop body c =>
    let condIn := walkedHead rounds
      (fun condIn =>
        c.liveIn t.protect (out ∪ body.liveIn all rounds (t.breakable out condIn) condIn))
      (c.liveIn t.protect out)
    body.liveEntries all rounds (t.breakable out condIn) condIn ++
      c.liveEntries t.protect (out ∪ body.liveIn all rounds (t.breakable out condIn) condIn)
  | .forLoop init cond update body =>
    let walk := fun head =>
      let updateIn := Expr.listIn t.protect head update
      conditionIn t.protect out cond (body.liveIn all rounds (t.breakable out updateIn) updateIn)
    let head := walkedHead rounds walk (conditionIn t.protect out cond ∅)
    let updateIn := Expr.listIn t.protect head update
    let bodyIn := body.liveIn all rounds (t.breakable out updateIn) updateIn
    Expr.listEntries t.protect head update ++
      body.liveEntries all rounds (t.breakable out updateIn) updateIn ++
      Expr.listEntries t.protect (out ∪ bodyIn) cond.toList ++
      listEntries all rounds t (conditionIn t.protect out cond bodyIn) init
  | .forEach v iterable body =>
    let walk := fun head => out ∪ (body.liveIn all rounds (t.breakable out head) head).erase v
    let head := walkedHead rounds walk out
    body.liveEntries all rounds (t.breakable out head) head ++
      iterable.liveEntries t.protect (walk head)
  | .switch selector cases =>
    let inner := t.breakable out t.cont
    let entry := switchEntry out cases (casesIn all rounds inner out cases).2
    caseEntries all rounds inner out cases ++
      Expr.listEntries t.protect entry (labels cases) ++
      selector.liveEntries t.protect (Expr.listIn t.protect entry (labels cases))
  | .guarded resources body catches none =>
    let handlers := catchesIn all rounds t out catches
    let inBlock := t.through (resourceVars resources ∪ handlers)
    let blockOut := out ∪ resourceVars resources
    catchEntries all rounds t out catches ++
      listEntries all rounds inBlock blockOut body ++
      listEntries all rounds (t.through handlers) (listIn all rounds inBlock blockOut body)
        resources
  | .guarded resources body catches (some finalizer) =>
    let final := listIn all rounds t (out ∪ t.anyExit) finalizer
    let handlers := final ∪ catchesIn all rounds (t.through final) final catches
    let inBlock := t.through (resourceVars resources ∪ handlers)
    let blockOut := final ∪ resourceVars resources
    listEntries all rounds t (out ∪ t.anyExit) finalizer ++
      catchEntries all rounds (t.through final) final catches ++
      listEntries all rounds inBlock blockOut body ++
      listEntries all rounds (t.through handlers) (listIn all rounds inBlock blockOut body)
        resources
  | .throw e => e.liveEntries t.protect t.protect
  | .assert c message =>
    let failed := Expr.listIn t.protect t.protect message.toList
    Expr.listEntries t.protect t.protect message.toList ++ c.liveEntries t.protect (failed ∪ out)
  | .ret e => Expr.listEntries t.protect t.ret e.toList
  | .breakOut | .continueLoop | .empty | .err => []

/-- The entries of statements that run in order, those of the last one first. -/
def listEntries (all : IdSet) (rounds : Nat) (t : Targets) (out : IdSet) :
    List Stmt → List LiveEntry
  | [] => []
  | s :: ss =>
    listEntries all rounds t out ss ++ s.liveEntries all rounds t (listIn all rounds t out ss)

/-- The entries of the groups of a switch, each of which falls through to the next. -/
def caseEntries (all : IdSet) (rounds : Nat) (t : Targets) (out : IdSet) :
    List (SwitchCase Expr Stmt) → List LiveEntry
  | [] => []
  | ⟨_, _, body⟩ :: cs =>
    caseEntries all rounds t out cs ++
      listEntries all rounds t (casesIn all rounds t out cs).1 body

/-- The entries of handlers, all with the same set live after them. -/
def catchEntries (all : IdSet) (rounds : Nat) (t : Targets) (out : IdSet) :
    List (CatchClause Stmt) → List LiveEntry
  | [] => []
  | ⟨_, _, body⟩ :: cs =>
    listEntries all rounds t out body ++ catchEntries all rounds t out cs

end

/-- The variables that the expressions of a statement read and, for a `try` statement, its
resources, which are read when they are closed. -/
def ownReads (s : Stmt) : List VarId :=
  s.kind.exprChildren.flatMap Expr.reads ++
    match s.kind with
    | .guarded resources .. => resources.filterMap declaredVar?
    | _ => []

end Stmt

/-- The liveness of a body's nodes, by identifier. -/
structure LivenessInfo where
  stmtIn : Array IdSet
  stmtOut : Array IdSet
  exprIn : Array IdSet
  kills : Array IdSet
  /-- Every variable whose value is read somewhere. -/
  everLive : IdSet
  /-- The variables live where the body starts. -/
  entry : IdSet

namespace LivenessInfo

/-- Records one entry over any earlier one of the same node. -/
def put (info : LivenessInfo) : LiveEntry → LivenessInfo
  | .expr id live => { info with exprIn := info.exprIn.setIfInBounds id live }
  | .stmt id live out =>
    { info with
      stmtIn := info.stmtIn.setIfInBounds id live
      stmtOut := info.stmtOut.setIfInBounds id out }

/-- The liveness of a body whose loops are walked `rounds + 1` times, starting from targets `t`. -/
def computeWith (b : Body) (rounds : Nat) (t : Targets) : LivenessInfo :=
  let stmts := b.root.flatMap Stmt.substmts
  let none : LivenessInfo :=
    { stmtIn := Array.replicate b.stmts.size ∅
      stmtOut := Array.replicate b.stmts.size ∅
      exprIn := Array.replicate b.exprs.size ∅
      kills := stmts.foldl (fun kills s => kills.setIfInBounds s.id s.kills)
        (Array.replicate b.stmts.size ∅)
      everLive := .ofList (stmts.flatMap Stmt.ownReads)
      entry := Stmt.listIn b.allVars rounds t ∅ b.root }
  (Stmt.listEntries b.allVars rounds t ∅ b.root).foldl put none

/-- The liveness of a body. Two walks over each loop reach the fixed point. -/
def compute (b : Body) : LivenessInfo := computeWith b 1 {}

/-- The variables live before a statement. -/
def liveIn (info : LivenessInfo) (id : StmtId) : IdSet := info.stmtIn.getD id ∅

/-- The variables live after a statement. -/
def liveOut (info : LivenessInfo) (id : StmtId) : IdSet := info.stmtOut.getD id ∅

/-- The variables live before an expression. -/
def liveInExpr (info : LivenessInfo) (id : ExprId) : IdSet := info.exprIn.getD id ∅

/-- The variables that a statement overwrites on every path that completes it. -/
def killsOf (info : LivenessInfo) (id : StmtId) : IdSet := info.kills.getD id ∅

end LivenessInfo

end Midend
