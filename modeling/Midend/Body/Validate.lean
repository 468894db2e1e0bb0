import Midend.Body.Basic

/-!
# Tree shape

The analyses need a body whose reachable nodes form a tree, whose assignments
have targets that can be assigned to and whose jumps have an enclosing statement
to leave. `Body.validate` finds the first fault.
-/

namespace Midend

/-- A shape that the analyses cannot handle. -/
inductive ShapeFault where
  | multipleParents (node : NodeId)
  | notAnLvalue (target : ExprId)
  | jumpOutsideLoop (jump : StmtId)
deriving DecidableEq

namespace ShapeFault

/-- The name of the cause. -/
def name : ShapeFault → String
  | multipleParents _ => "MultipleParents"
  | notAnLvalue _ => "NotAnLvalue"
  | jumpOutsideLoop _ => "JumpOutsideLoop"

/-- What is wrong, as an error says it. -/
def message : ShapeFault → String
  | multipleParents node => "tree node has more than one parent: " ++ node.text
  | notAnLvalue _ => "assignment target is not a variable, field or array element"
  | jumpOutsideLoop _ => "jump statement has no enclosing target"

/-- The node at fault. -/
def node : ShapeFault → NodeId
  | multipleParents node => node
  | notAnLvalue target => .expr target
  | jumpOutsideLoop jump => .stmt jump

end ShapeFault

namespace Body

/-! ## Single parents -/

/-- The children of a node in either arena; nested statements come last. -/
def nodeChildren (b : Body) : NodeId → List NodeId
  | .expr id => (b.exprKind id).children.map .expr
  | .stmt id =>
    (b.stmtKind id).exprChildren.map .expr ++ (b.stmtKind id).stmtChildren.map .stmt

/-- The nodes met so far. -/
structure Visited where
  exprs : IdSet := ∅
  stmts : IdSet := ∅

namespace Visited

/-- Whether the node has been visited. -/
def contains (v : Visited) : NodeId → Bool
  | .expr id => v.exprs.contains id
  | .stmt id => v.stmts.contains id

/-- Marks the node as visited. -/
def insert (v : Visited) : NodeId → Visited
  | .expr id => { v with exprs := v.exprs.insert id }
  | .stmt id => { v with stmts := v.stmts.insert id }

end Visited

/-- Visits the nodes on a stack and everything below them, children last to first. The first node
met twice is the result. Every step but the last meets a new node, so as many steps as there are
nodes, and one more, are enough. -/
def findShared (b : Body) : Nat → Visited → List NodeId → Option NodeId
  | _, _, [] => none
  | 0, _, _ :: _ => none
  | steps + 1, visited, n :: stack =>
    if visited.contains n then some n
    else b.findShared steps (visited.insert n) ((b.nodeChildren n).reverse ++ stack)

/-- A node reachable from the root block that is referred to twice. -/
def sharedNode? (b : Body) : Option NodeId :=
  b.findShared (b.exprs.size + b.stmts.size + 1) {} (b.block.map .stmt)

end Body

/-! ## Targets and jumps -/

/-- The first assignment or step, operands after their expression, whose target cannot be assigned
to. -/
def Expr.badTarget? (e : Expr) : Option ShapeFault :=
  e.subexprs.findSome? fun s =>
    s.target?.bind fun t => if t.isLvalue then none else some (.notAnLvalue t.id)

namespace Stmt

/-- The fault of the statement itself, inside or outside a loop and something to break out of. -/
def ownFault? (inLoop inBreakable : Bool) (id : StmtId) (kind : StmtKind Expr Stmt) :
    Option ShapeFault :=
  let jump :=
    match kind with
    | .breakOut => !inBreakable
    | .continueLoop => !inLoop
    | _ => false
  if jump then some (.jumpOutsideLoop id) else kind.exprChildren.findSome? Expr.badTarget?

mutual

/-- The first fault of a target or jump in program order, expressions before nested statements. -/
def shapeFault? (inLoop inBreakable : Bool) : Stmt → Option ShapeFault
  | node id kind =>
    ownFault? inLoop inBreakable id kind <|>
      kindFault? (inLoop || kind.isLoop) (inBreakable || kind.isBreakable) kind

/-- The first misplaced jump in a layer. -/
def kindFault? (inLoop inBreakable : Bool) : StmtKind Expr Stmt → Option ShapeFault
  | .block body => listFault? inLoop inBreakable body
  | .branch _ t none => t.shapeFault? inLoop inBreakable
  | .branch _ t (some f) =>
    t.shapeFault? inLoop inBreakable <|> f.shapeFault? inLoop inBreakable
  | .whileLoop _ body | .doLoop body _ | .forEach _ _ body => body.shapeFault? inLoop inBreakable
  | .forLoop init _ _ body =>
    listFault? inLoop inBreakable init <|> body.shapeFault? inLoop inBreakable
  | .switch _ cases => casesFault? inLoop inBreakable cases
  | .guarded resources body catches none =>
    listFault? inLoop inBreakable resources <|> listFault? inLoop inBreakable body <|>
      catchesFault? inLoop inBreakable catches
  | .guarded resources body catches (some finalizer) =>
    listFault? inLoop inBreakable resources <|> listFault? inLoop inBreakable body <|>
      catchesFault? inLoop inBreakable catches <|> listFault? inLoop inBreakable finalizer
  | .decl .. | .expr _ | .throw _ | .assert .. | .ret _ | .breakOut | .continueLoop | .empty
  | .err => none

/-- The first misplaced jump in a list of statements. -/
def listFault? (inLoop inBreakable : Bool) : List Stmt → Option ShapeFault
  | [] => none
  | s :: ss => s.shapeFault? inLoop inBreakable <|> listFault? inLoop inBreakable ss

/-- The first misplaced jump in the groups of a switch. -/
def casesFault? (inLoop inBreakable : Bool) : List (SwitchCase Expr Stmt) → Option ShapeFault
  | [] => none
  | ⟨_, _, body⟩ :: cs => listFault? inLoop inBreakable body <|> casesFault? inLoop inBreakable cs

/-- The first misplaced jump in handlers. -/
def catchesFault? (inLoop inBreakable : Bool) : List (CatchClause Stmt) → Option ShapeFault
  | [] => none
  | ⟨_, _, body⟩ :: cs => listFault? inLoop inBreakable body <|> catchesFault? inLoop inBreakable cs

end

end Stmt

/-- The first fault of the body, if any: shared nodes, then targets and jumps. -/
def Body.validate (b : Body) : Option ShapeFault :=
  match b.sharedNode? with
  | some node => some (.multipleParents node)
  | none => Stmt.listFault? false false b.root

end Midend
