import Midend.Effect.Propagation
import Midend.IdMap
import Midend.Value.Basic

/-!
# Edits

A round of folding first collects the expressions to replace, none inside another,
and then replaces them. An expression is replaced by a literal if it has no effect
but reading locals and had one known value whenever it was evaluated. Targets are
left alone, but not the operands of a target that is a field or array element.
-/

namespace Midend

/-- What an expression is replaced by. -/
inductive Rewrite where
  | literal (l : Literal)
  /-- One of its own operands. -/
  | operand (e : ExprId)
deriving DecidableEq

/-- An expression to replace, and the node it is an operand of. -/
structure Edit where
  parent : NodeId
  old : ExprId
  rewrite : Rewrite
deriving DecidableEq

/-- What is known of a body when its edits are collected. -/
structure FoldFacts where
  env : TyEnv
  effects : Effects
  /-- The recorded values of expressions. -/
  values : IdMap Value

namespace FoldFacts

variable (facts : FoldFacts)

/-- The known value of an expression without effects. -/
def constant? (id : ExprId) : Option Literal :=
  if (facts.effects.expr id).isPure then (facts.values.get? id).bind Value.literal? else none

/-- What an expression is replaced by for its shape: parentheses around a literal, and a condition
that is a literal if the chosen arm has the type of the whole. -/
def simpler? (e : Expr) : Option Rewrite :=
  match e.kind with
  | .paren inner => if inner.kind.isLiteral then some (.operand inner.id) else none
  | .conditional c t f =>
    match c.kind with
    | .lit (.bool b) =>
      let arm := if b then t else f
      let ty := e.staticTy facts.env
      if ty.isSome && arm.staticTy facts.env == ty then some (.operand arm.id) else none
    | _ => none
  | _ => none

/-- What an expression is replaced by, if it is. -/
def rewrite? (e : Expr) : Option Rewrite :=
  if e.kind.isLiteral then none
  else
    match facts.constant? e.id with
    | some l => some (.literal l)
    | none => facts.simpler? e

mutual

/-- The edits of an expression that is evaluated as an operand of `parent`. -/
def exprEdits (parent : NodeId) : Expr → List Edit
  | .node id kind =>
    match facts.rewrite? (.node id kind) with
    | some r => [⟨parent, id, r⟩]
    | none => kindEdits id kind

/-- The edits of the operands of an expression that is kept. -/
def kindEdits (id : ExprId) : ExprKind Expr → List Edit
  | .lit _ | .var _ | .err | .field none .. => []
  | .assign l _ r => targetEdits id l ++ exprEdits (.expr id) r
  | .unary (.step _) e => targetEdits id e
  | .field (some e) .. | .unary _ e | .paren e | .cast _ e | .instanceOf e _ =>
    exprEdits (.expr id) e
  | .binary l _ r | .index l r => exprEdits (.expr id) l ++ exprEdits (.expr id) r
  | .conditional c t f =>
    exprEdits (.expr id) c ++ (exprEdits (.expr id) t ++ exprEdits (.expr id) f)
  | .call none _ args | .create _ args => listEdits id args
  | .call (some r) _ args => exprEdits (.expr id) r ++ listEdits id args

/-- The edits of a target of the expression `parent`. -/
def targetEdits (parent : ExprId) : Expr → List Edit
  | .node id (.paren inner) => targetEdits id inner
  | .node _ (.var _) | .node _ (.field none ..) => []
  | .node id (.field (some r) ..) => exprEdits (.expr id) r
  | .node id (.index a i) => exprEdits (.expr id) a ++ exprEdits (.expr id) i
  | .node id kind =>
    match facts.rewrite? (.node id kind) with
    | some r => [⟨.expr parent, id, r⟩]
    | none => kindEdits id kind

/-- The edits in a list of operands of `parent`, in order. -/
def listEdits (parent : ExprId) : List Expr → List Edit
  | [] => []
  | e :: es => exprEdits (.expr parent) e ++ listEdits parent es

end

/-- The edits of a statement and of those nested in it. -/
def stmtEdits (s : Stmt) : List Edit :=
  s.substmts.flatMap fun t => t.kind.exprChildren.flatMap (facts.exprEdits (.stmt t.id))

end FoldFacts

namespace Body

/-- Replaces one expression. A new literal takes its place in the text. -/
def applyEdit (b : Body) (e : Edit) : Body :=
  match e.rewrite with
  | .literal l =>
    let (new, b) := b.addExpr (b.exprSpan e.old) (.lit l)
    (b.replaceExprIn e.parent e.old new).getD b
  | .operand new => (b.replaceExprIn e.parent e.old new).getD b

/-- Makes the edits, one after the other. -/
def applyEdits (b : Body) (es : List Edit) : Body := es.foldl applyEdit b

end Body

end Midend
