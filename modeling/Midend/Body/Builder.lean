import Midend.Body.Basic

/-!
# Building bodies

Nodes are built from the leaves up: an expression or statement is added once its
children are, and refers to them by the identifiers that adding them gave. Every
variable, node, switch group and handler takes the next byte of the text as its
span.
-/

namespace Midend

/-- A body under construction. -/
structure Builder where
  body : Body
  /-- The next free byte of the text. -/
  pos : Nat := 0

/-- A step of construction. -/
abbrev Build := StateM Builder

namespace Builder

/-- An empty body of the given name. -/
def start (name : String) : Builder := { body := { name } }

/-- Takes the next byte of the text. -/
def nextSpan : Build Span := fun b => (Span.byte b.pos, { b with pos := b.pos + 1 })

/-- Declares a variable. -/
def var (kind : VarKind) (name : String) (ty : Ty) : Build VarId := do
  let span ← nextSpan
  modifyGet fun b =>
    let id := b.body.vars.size
    let params := if kind = .param then b.body.params ++ [id] else b.body.params
    (id, { b with body := { b.body with vars := b.body.vars.push ⟨name, ty, kind, span⟩, params } })

/-- Adds an expression. -/
def expr (kind : ExprKind ExprId) : Build ExprId := do
  let span ← nextSpan
  modifyGet fun b =>
    let (id, body) := b.body.addExpr span kind
    (id, { b with body })

/-- Adds a statement. -/
def stmt (kind : StmtKind ExprId StmtId) : Build StmtId := do
  let span ← nextSpan
  modifyGet fun b =>
    (b.body.stmts.size, { b with body := { b.body with stmts := b.body.stmts.push ⟨span, kind⟩ } })

/-- A group of a switch, placed after its statements. -/
def switchCase (labels : List ExprId) (body : List StmtId) : Build (SwitchCase ExprId StmtId) := do
  return ⟨← nextSpan, labels, body⟩

/-- A handler, placed after its statements. -/
def catchClause (param : VarId) (body : List StmtId) : Build (CatchClause StmtId) := do
  return ⟨← nextSpan, param, body⟩

/-- The body with the given root block. Its span covers everything that was built. -/
def finish (b : Builder) (block : List StmtId) : Body :=
  { b.body with block, span := .between 0 b.pos }

end Builder

end Midend
