import Midend.Liveness.Info
import Midend.Proofs.Run.Stmt

/-!
# Control-flow paths

A path is followed by what it does to variables: it reads them, and it declares
or assigns them. Conditions may go either way, and every point of an expression
may throw. Operands are evaluated in order; a compound assignment reads its
target before its right operand is evaluated, and a plain one does not read it.

`ReadsFirst v` holds of a path on which the value that `v` has at its start is
read.
-/

namespace Midend

/-- What a path does to a variable. -/
inductive Access where
  | read (v : VarId)
  /-- A declaration or an assignment. -/
  | write (v : VarId)
deriving DecidableEq

/-- The path reads `v` before it declares or assigns it. -/
def ReadsFirst (v : VarId) (path : List Access) : Prop :=
  ∃ before after, path = before ++ .read v :: after ∧ .write v ∉ before

/-- Paths through a part of a program. -/
abbrev Path (α : Type) := Run Unit Access α

open Run

/-! ## Expressions -/

namespace Expr

mutual

/-- The paths through an expression. -/
def path : Expr → Path Unit
  | node _ (.var v) => hazardous (Emit (.read v))
  | node _ (.assign l op r) =>
    hazardous (match l.localTarget? with
      | some v => do
        if op.isSome then Emit (.read v)
        r.path
        Emit (.write v)
      | none => do
        l.placePath
        r.path)
  | node _ (.unary (.step _) e) =>
    hazardous (match e.localTarget? with
      | some v => do
        Emit (.read v)
        Emit (.write v)
      | none => e.placePath)
  | node _ (.binary l (.logic _) r) =>
    hazardous do
      l.path
      Either (pure ()) r.path
  | node _ (.conditional c t f) =>
    hazardous do
      c.path
      Either t.path f.path
  | node _ kind => hazardous (operandsPath kind)

/-- The paths through the operands of a target that is no local. -/
def placePath : Expr → Path Unit
  | node _ (.paren inner) => inner.placePath
  | node _ kind => operandsPath kind

/-- The paths through all operands of a layer. -/
def operandsPath : ExprKind Expr → Path Unit
  | .lit _ | .var _ | .err | .field none .. => pure ()
  | .field (some e) .. | .unary _ e | .paren e | .cast _ e | .instanceOf e _ => e.path
  | .assign l _ r | .binary l _ r | .index l r => do
    l.path
    r.path
  | .conditional c t f => do
    c.path
    t.path
    f.path
  | .call none _ args | .create _ args => listPath args
  | .call (some e) _ args => do
    e.path
    listPath args

/-- A path through expressions that are evaluated in order. -/
def listPath : List Expr → Path Unit
  | [] => pure ()
  | e :: es => do
    e.path
    listPath es

end

end Expr

/-! ## Statements -/

/-- Reads variables in order. -/
def readAll : List VarId → Path Unit
  | [] => pure ()
  | v :: vs => do
    Emit (.read v)
    readAll vs

/-- What statements do on a path. An erroneous statement reads every variable of `all`. -/
def paths (all : IdSet) : Meaning Unit Access where
  eval e := e.path
  test e := do
    e.path
    Either (return true) (return false)
  declare v init := do
    Expr.listPath init.toList
    Emit (.write v)
    Hazard
  next v _ := do
    Hazard
    Either (return false) do
      Emit (.write v)
      return true
  handle v := Emit (.write v)
  close v := do
    Emit (.read v)
    Hazard
  err := do
    readAll all.toList
    return .normal

/-- The statements of a body, each with the paths that start at its entry. -/
def Body.starts (b : Body) : List (Stmt × Path Exit) := Stmt.listStarts (paths b.allVars) b.root

/-- Some path from the entry of `s` has the accesses `path` up to some point. -/
def Body.HasPath (b : Body) (s : Stmt) (path : List Access) : Prop :=
  ∃ p, (s, p) ∈ b.starts ∧ ∃ r, p () path r ()

end Midend
