import Midend.Diagnostic.Reporter
import Midend.Eval.Stmt

/-!
# Evaluations that report their faults

A fault becomes an error about the node whose evaluation was asked for, with a
label at the node that failed. In place of the fault the caller gets proof that an
error was reported.
-/

namespace Midend

/-- The error for a fault met while evaluating a node at the given span. -/
def EvalError.diagnostic (e : EvalError) (span : Span) : Diagnostic :=
  { level := .error
    messages := ["failed to evaluate constant: " ++ e.fault.message]
    code := some .failedEvaluation
    span := ⟨[span], [(e.span, "evaluation of constant value failed here")]⟩ }

/-- An evaluation without faults of its own. -/
abbrev Reporting := ExceptT Reported (StateM EvalState)

/-- Reports the fault of an evaluation of the node at the given span. -/
def Eval.reporting {α : Type} (span : Span) (x : Eval α) : Reporting α := fun s =>
  match x s with
  | (.ok a, t) => (.ok a, t)
  | (.error e, t) => (.error .mk, t.report (e.diagnostic span))

/-- The value of an expression. -/
def Expr.evalReporting (b : Body) (e : Expr) : Reporting Value :=
  (e.eval b 0).reporting (b.exprSpan e.id)

/-- Evaluates a statement. -/
def Stmt.evalReporting (b : Body) (s : Stmt) : Reporting Unit :=
  (s.eval b).reporting (b.stmtSpan s.id)

/-- Evaluates statements in order; a fault is reported for the one that failed. -/
def Stmt.listReporting (b : Body) : List Stmt → Reporting Unit
  | [] => pure ()
  | s :: ss => do
    s.evalReporting b
    listReporting b ss

/-- Evaluates the root block. -/
def Body.evalReporting (b : Body) : Reporting Unit := Stmt.listReporting b b.root

end Midend
