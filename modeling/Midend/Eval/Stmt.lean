import Midend.Eval.Expr

/-!
# Evaluating statements

A statement that may run any number of times, or stop part of the way, is entered
in a context that forgets every local it writes, and is left in one too. What it
does not write is the same on every path, so `break` needs no tracking; `continue`
does, because the rest of the loop's body is skipped before its condition or
update is evaluated.
-/

namespace Midend

namespace Expr

/-- Evaluates an expression of a statement for its effects. -/
def run (b : Body) (e : Expr) : Eval Unit := do
  let _ ← e.eval b 0

/-- Evaluates an expression that may be absent. -/
def runOption (b : Body) : Option Expr → Eval Unit
  | none => pure ()
  | some e => e.run b

end Expr

namespace Stmt

mutual

/-- Evaluates a statement. -/
def eval (b : Body) : Stmt → Eval Unit
  | node id kind =>
    Eval.locate (b.stmtSpan id) (evalKind b (node id kind) kind)

/-- Evaluates the layer of the statement `whole`. What `whole` writes is forgotten where it may run
any number of times or stop part of the way. -/
def evalKind (b : Body) (whole : Stmt) : StmtKind Expr Stmt → Eval Unit
  | .decl v none => do
    let _ ← Eval.assignLocal b v .unknown
  | .decl v (some init) => do
    let _ ← Eval.assignLocal b v (← init.eval b 0)
  | .expr e | .throw e => e.run b
  | .ret e => Expr.runOption b e
  | .block body => evalList b body
  | .branch cond onTrue onFalse => do
    match ← cond.eval b 0 with
    | .known (.bool true) => onTrue.eval b
    | .known (.bool false) => evalOption b onFalse
    | .unknown =>
      let _ ← Eval.either (onTrue.eval b) (evalOption b onFalse)
    | .known l => Eval.fail (.nonBooleanCondition (some l.kind))
  | .assert cond message => Eval.maybe do
    -- The message is only evaluated when the assertion fails.
    cond.run b
    let passed ← Eval.context
    Expr.runOption b message
    Eval.setContext passed
  | .whileLoop cond body => do
    Eval.forget whole.written
    cond.run b
    Eval.iteration (body.eval b)
    Eval.forget whole.written
  | .doLoop body cond => do
    Eval.forget whole.written
    Eval.iteration (body.eval b)
    cond.run b
    Eval.forget whole.written
  | .forLoop init cond update body => do
    evalList b init
    Eval.forget whole.written
    Expr.runOption b cond
    Eval.iteration (body.eval b)
    Expr.evalList b 0 update
    Eval.forget whole.written
  | .forEach _ iterable body => do
    iterable.run b
    Eval.forget whole.written
    Eval.iteration (body.eval b)
    Eval.forget whole.written
  | .switch selector cases => do
    selector.run b
    Eval.forget whole.written
    let entry ← Eval.context
    evalCases b entry cases
    Eval.setContext entry
  | .guarded resources body catches finalizer => do
    Eval.forget whole.written
    let entry ← Eval.context
    evalList b resources
    evalList b body
    evalCatches b entry catches
    match finalizer with
    | none => pure ()
    | some finalizer =>
      Eval.setContext entry
      evalList b finalizer
    Eval.setContext entry
  | .continueLoop => modify EvalState.continueLoop
  | .breakOut | .empty | .err => pure ()

/-- Evaluates a statement that may be absent. -/
def evalOption (b : Body) : Option Stmt → Eval Unit
  | none => pure ()
  | some s => s.eval b

/-- Evaluates statements in order. -/
def evalList (b : Body) : List Stmt → Eval Unit
  | [] => pure ()
  | s :: ss => do
    s.eval b
    evalList b ss

/-- Evaluates the groups of a switch, the statements of each from its entry. -/
def evalCases (b : Body) (entry : Context) : List (SwitchCase Expr Stmt) → Eval Unit
  | [] => pure ()
  | ⟨_, labels, body⟩ :: cases => do
    Expr.evalList b 0 labels
    Eval.setContext entry
    evalList b body
    evalCases b entry cases

/-- Evaluates handlers, each from the entry of their statement. -/
def evalCatches (b : Body) (entry : Context) : List (CatchClause Stmt) → Eval Unit
  | [] => pure ()
  | ⟨_, _, body⟩ :: catches => do
    Eval.setContext entry
    evalList b body
    evalCatches b entry catches

end

end Stmt

end Midend
