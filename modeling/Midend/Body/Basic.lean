import Midend.IdMap
import Midend.Tree.Equality
import Midend.Tree.Print

/-!
# Method bodies

A body keeps its expressions and statements in arenas, each node naming its
children by their positions. `Body.exprTree` and `Body.stmtTree` read the tree
below a node out of the arenas. A node replaced by a rewrite stays in the arena
and is no longer reached from the root block.
-/

namespace Midend

/-- The nesting of expressions that is evaluated. -/
def evalDepth : Nat := 64

/-- A node of an arena. -/
structure Node (κ : Type) where
  span : Span
  kind : κ

/-- Where a variable is declared. -/
inductive VarKind where
  | param | localVar | catchParam | resource
deriving DecidableEq

/-- The name of the kind, as it is shown. -/
def VarKind.text : VarKind → String
  | param => "Param"
  | localVar => "Local"
  | catchParam => "CatchParam"
  | resource => "Resource"

/-- A declared variable. -/
structure Variable where
  name : String
  ty : Ty
  kind : VarKind
  span : Span

/-- A node of either arena. -/
inductive NodeId where
  | expr (id : ExprId)
  | stmt (id : StmtId)
deriving DecidableEq

/-- The node as an error names it. -/
def NodeId.text : NodeId → String
  | expr id => "expression #" ++ id.repr
  | stmt id => "statement #" ++ id.repr

/-- The body of a method. -/
structure Body where
  name : String
  span : Span := .dummy
  vars : Array Variable := #[]
  exprs : Array (Node (ExprKind ExprId)) := #[]
  stmts : Array (Node (StmtKind ExprId StmtId)) := #[]
  /-- The parameters in declaration order. -/
  params : List VarId := []
  /-- The statements of the root block. -/
  block : List StmtId := []

namespace Body

variable (b : Body)

/-! ## Nodes -/

/-- The layer of an expression; an identifier that is not in the arena stands for an erroneous one.
-/
def exprKind (id : ExprId) : ExprKind ExprId :=
  match b.exprs[id]? with
  | some n => n.kind
  | none => .err

/-- The layer of a statement; an identifier that is not in the arena stands for an erroneous one. -/
def stmtKind (id : StmtId) : StmtKind ExprId StmtId :=
  match b.stmts[id]? with
  | some n => n.kind
  | none => .err

/-- The place of an expression. -/
def exprSpan (id : ExprId) : Span :=
  match b.exprs[id]? with
  | some n => n.span
  | none => .dummy

/-- The place of a statement. -/
def stmtSpan (id : StmtId) : Span :=
  match b.stmts[id]? with
  | some n => n.span
  | none => .dummy

/-- The place of a node. -/
def nodeSpan : NodeId → Span
  | .expr id => b.exprSpan id
  | .stmt id => b.stmtSpan id

/-- The declared type of a variable. -/
def varTy : TyEnv := fun v => b.vars[v]?.map (·.ty)

/-- The name of a variable. -/
def varName (v : VarId) : String :=
  match b.vars[v]? with
  | some x => x.name
  | none => ""

/-- The set of all variables. -/
def allVars : IdSet := .below b.vars.size

/-- The expressions of the body, those that are detached included. -/
def exprIds : List ExprId := List.range b.exprs.size

/-- The statements of the body, those that are detached included. -/
def stmtIds : List StmtId := List.range b.stmts.size

/-! ## Trees

A path through an arena without cycles visits each node at most once, so reading
a tree to the depth of the arena's size reads all of it. Expressions are read
deeper by what is ever evaluated, so that an evaluation does not find the end of a
cycle. `exprTo` and `stmtTo` say what is read; `exprsTo` and `stmtsTo` read a node
once for all those that share it. -/

/-- How deep expressions are read. -/
def treeDepth : Nat := b.exprs.size + evalDepth

/-- The tree below an expression, to the given depth. -/
def exprTo : Nat → ExprId → Expr
  | 0, id => .node id .err
  | depth + 1, id => .node id ((b.exprKind id).map (exprTo depth))

/-- The trees below several expressions, each to the given depth. -/
def exprsTo : Nat → List ExprId → List (ExprId × Expr)
  | _, [] => []
  | 0, ids => ids.map fun id => (id, .node id .err)
  | depth + 1, ids =>
    let operands := exprsTo depth (ids.flatMap fun id => (b.exprKind id).children).eraseDups
    ids.map fun id =>
      (id, .node id ((b.exprKind id).map fun e => (operands.lookup e).getD (.node e .err)))

/-- The tree below an expression. -/
def exprTree (id : ExprId) : Expr := ((b.exprsTo b.treeDepth [id]).lookup id).getD (.node id .err)

/-- The trees of the expressions asked for are in the table. -/
theorem lookup_exprsTo {id : ExprId} :
    ∀ {depth : Nat} {ids : List ExprId}, id ∈ ids →
      (b.exprsTo depth ids).lookup id = some (b.exprTo depth id)
  | 0, [], h | _ + 1, [], h => by simp at h
  | 0, _ :: _, h => by
    rw [exprsTo, Assoc.lookup_graph (fun id => Expr.node id .err) h, exprTo]
    simp
  | depth + 1, i :: is, h => by
    rw [exprsTo, Assoc.lookup_graph _ h, exprTo]
    · refine congrArg some (congrArg _ (ExprKind.map_congr fun e he => ?_))
      rw [lookup_exprsTo, Option.getD_some]
      exact List.mem_eraseDups.2 (List.mem_flatMap.2 ⟨id, h, he⟩)
    · simp

/-- The tree of an expression is its unfolding to the depth of the arena. -/
theorem exprTree_eq_exprTo (id : ExprId) : b.exprTree id = b.exprTo b.treeDepth id := by
  rw [exprTree, b.lookup_exprsTo (by simp), Option.getD_some]

/-- The trees of all expressions. One that precedes an expression it is an operand of is not read
again. -/
def exprTrees : Array Expr :=
  b.exprIds.foldl (fun trees id =>
    trees.push (.node id ((b.exprKind id).map fun e => (trees[e]?).getD (b.exprTree e)))) #[]

/-- The tree below a statement, to the given depth. -/
def stmtTo : Nat → StmtId → Stmt
  | 0, id => .node id .err
  | depth + 1, id => .node id ((b.stmtKind id).map b.exprTree (stmtTo depth))

/-- The trees below several statements, each to the given depth. -/
def stmtsTo : Nat → List StmtId → List (StmtId × Stmt)
  | _, [] => []
  | 0, ids => ids.map fun id => (id, .node id .err)
  | depth + 1, ids =>
    let nested := stmtsTo depth (ids.flatMap fun id => (b.stmtKind id).stmtChildren).eraseDups
    ids.map fun id => (id, .node id ((b.stmtKind id).map b.exprTree fun s =>
      (nested.lookup s).getD (.node s .err)))

/-- The tree below a statement. -/
def stmtTree (id : StmtId) : Stmt :=
  ((b.stmtsTo b.stmts.size [id]).lookup id).getD (.node id .err)

/-- The trees of the statements asked for are in the table. -/
theorem lookup_stmtsTo {id : StmtId} :
    ∀ {depth : Nat} {ids : List StmtId}, id ∈ ids →
      (b.stmtsTo depth ids).lookup id = some (b.stmtTo depth id)
  | 0, [], h | _ + 1, [], h => by simp at h
  | 0, _ :: _, h => by
    rw [stmtsTo, Assoc.lookup_graph (fun id => Stmt.node id .err) h, stmtTo]
    simp
  | depth + 1, i :: is, h => by
    rw [stmtsTo, Assoc.lookup_graph _ h, stmtTo]
    · refine congrArg some (congrArg _ (StmtKind.map_congr fun s hs => ?_))
      rw [lookup_stmtsTo, Option.getD_some]
      exact List.mem_eraseDups.2 (List.mem_flatMap.2 ⟨id, h, hs⟩)
    · simp

/-- The tree of a statement is its unfolding to the depth of the arena. -/
theorem stmtTree_eq_stmtTo (id : StmtId) : b.stmtTree id = b.stmtTo b.stmts.size id := by
  rw [stmtTree, b.lookup_stmtsTo (by simp), Option.getD_some]

/-- The trees of the root block. -/
def root : List Stmt := b.block.map b.stmtTree

/-! ## Equality and source text -/

/-- For every expression of the body, the first one that is equal to it. -/
def firstSame : List ExprId :=
  let trees := b.exprTrees.toList
  trees.map fun e => ((trees.find? (·.sameAs e)).getD e).id

/-- The names and types of the variables. -/
def scope : Scope := ⟨b.varName, b.varTy⟩

/-- The source text of an expression. -/
def exprText (id : ExprId) : String := (b.exprTree id).text b.scope

/-- The source text of a statement. -/
def stmtText (id : StmtId) : String := (b.stmtTree id).text b.scope

/-- The source text of the root block. -/
def text : String := Stmt.blockText b.scope b.root

/-! ## Changes -/

/-- Adds a detached expression. -/
def addExpr (span : Span) (kind : ExprKind ExprId) : ExprId × Body :=
  (b.exprs.size, { b with exprs := b.exprs.push ⟨span, kind⟩ })

/-- Replaces the first child `old` of `parent` by `new`; none if there is no such child. -/
def replaceExprIn (parent : NodeId) (old new : ExprId) : Option Body :=
  match parent with
  | .expr id =>
    ((b.exprKind id).replaceChild old new).map fun kind =>
      { b with exprs := b.exprs.setIfInBounds id ⟨b.exprSpan id, kind⟩ }
  | .stmt id =>
    ((b.stmtKind id).replaceChild old new).map fun kind =>
      { b with stmts := b.stmts.setIfInBounds id ⟨b.stmtSpan id, kind⟩ }

/-- Moves a node to another place in the text. -/
def withSpan (node : NodeId) (span : Span) : Body :=
  match node with
  | .expr id => { b with exprs := b.exprs.setIfInBounds id ⟨span, b.exprKind id⟩ }
  | .stmt id => { b with stmts := b.stmts.setIfInBounds id ⟨span, b.stmtKind id⟩ }

end Body

end Midend
