import Midend.Tree.Stmt

/-!
# Roles

An expression is evaluated for its value or is the target of a write. The
operands of a target that is a field or an array element are evaluated for their
values, while a parenthesised target is a target inside the parentheses too.
-/

namespace Midend

/-- What an expression is used for. -/
inductive Role where
  | value
  /-- Written by an assignment or step, which also reads it or not. -/
  | target (reads : Bool)
deriving DecidableEq

namespace Expr

mutual

/-- The expression and its operands with their roles, each before its own operands. -/
def roles : Expr → List (Role × Expr)
  | node id (.assign l op r) =>
    (.value, node id (.assign l op r)) :: (l.targetRoles op.isSome ++ r.roles)
  | node id (.unary (.step s) e) =>
    (.value, node id (.unary (.step s) e)) :: e.targetRoles true
  | node id kind => (.value, node id kind) :: operandRoles kind

/-- The same for the target of a write. -/
def targetRoles (reads : Bool) : Expr → List (Role × Expr)
  | node id (.paren inner) =>
    (.target reads, node id (.paren inner)) :: inner.targetRoles reads
  | node id kind => (.target reads, node id kind) :: operandRoles kind

/-- The operands of a layer, all of them evaluated. -/
def operandRoles : ExprKind Expr → List (Role × Expr)
  | .lit _ | .var _ | .err | .field none .. => []
  | .field (some r) .. => r.roles
  | .assign l _ r | .binary l _ r | .index l r => l.roles ++ r.roles
  | .unary _ e | .paren e | .cast _ e | .instanceOf e _ => e.roles
  | .conditional c t f => c.roles ++ (t.roles ++ f.roles)
  | .call none _ args => listRoles args
  | .call (some r) _ args => r.roles ++ listRoles args
  | .create _ args => listRoles args

/-- The expressions of a list, each evaluated for its value. -/
def listRoles : List Expr → List (Role × Expr)
  | [] => []
  | e :: es => e.roles ++ listRoles es

end

/-- The variable whose value is read by an expression in a role. -/
def readAs (e : Expr) : Role → Option VarId
  | .value | .target true =>
    match e.kind with
    | .var v => some v
    | _ => none
  | .target false => none

/-- The variables whose values an evaluation may read. -/
def reads (e : Expr) : List VarId := e.roles.filterMap fun (role, s) => s.readAs role

end Expr

end Midend
