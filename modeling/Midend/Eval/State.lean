import Midend.Diagnostic.Basic
import Midend.Eval.Context
import Midend.Value.Fault

/-!
# Steps of evaluation

An evaluation runs on a state that outlives a fault: what was known, observed and
reported when it failed stays. `Eval α` is a computation on that state with a
result or an error. An error names the innermost node with a place in the text
around the point of failure.
-/

namespace Midend

/-- A fault and where it happened. -/
structure EvalError where
  fault : Fault
  span : Span := .dummy
deriving DecidableEq

/-- The state of an evaluation. -/
structure EvalState where
  context : Context := ∅
  /-- For each enclosing loop, innermost first, the join of the contexts at its `continue`
  statements; none before the first. -/
  continues : List (Option Context) := []
  /-- The values of the expressions evaluated so far, if they are recorded. An expression that was
  evaluated more than once has the join of its values. -/
  observed : Option (IdMap Value) := none
  /-- The diagnostics given so far. -/
  reports : List Diagnostic := []

namespace EvalState

/-- Records the value of an expression. -/
def observe (s : EvalState) (e : ExprId) (v : Value) : EvalState :=
  match s.observed with
  | none => s
  | some values =>
    let joined :=
      match values.get? e with
      | some old => old.join v
      | none => v
    { s with observed := some (values.insert e joined) }

/-- Gives a diagnostic. -/
def report (s : EvalState) (d : Diagnostic) : EvalState :=
  { s with reports := s.reports ++ [d] }

/-- Starts to record values. -/
def startRecording (s : EvalState) : EvalState := { s with observed := some ∅ }

/-- The recorded values. -/
def recorded (s : EvalState) : IdMap Value := s.observed.getD ∅

/-- Ends the recording of values. -/
def stopRecording (s : EvalState) : EvalState := { s with observed := none }

/-- Adds the current context to those that continue the innermost loop. -/
def continueLoop (s : EvalState) : EvalState :=
  match s.continues with
  | [] => s
  | none :: outer => { s with continues := some s.context :: outer }
  | some c :: outer => { s with continues := some (c.join s.context) :: outer }

end EvalState

/-- A step of evaluation. -/
abbrev Eval := ExceptT EvalError (StateM EvalState)

namespace Eval

variable {α : Type}

/-! ## Faults -/

/-- Fails at no place in particular. -/
def fail (f : Fault) : Eval α := throw ⟨f, .dummy⟩

/-- The result of an operation on values. -/
def ofExcept : Except Fault α → Eval α
  | .ok a => pure a
  | .error f => fail f

/-- Places an error that has no place yet. -/
def locate (span : Span) (x : Eval α) : Eval α := fun s =>
  match x s with
  | (.ok a, t) => (.ok a, t)
  | (.error e, t) => (.error { e with span := e.span.orElse span }, t)

/-! ## Contexts -/

/-- What is known of the locals. -/
def context : Eval Context := return (← get).context

/-- Goes on with another context. -/
def setContext (c : Context) : Eval Unit := modify fun s => { s with context := c }

/-- Forgets what is known of the given variables. -/
def forget (vs : IdSet) : Eval Unit := modify fun s => { s with context := s.context.forget vs }

/-- Meets a path that ended in the given context. -/
def meet (c : Context) : Eval Unit := modify fun s => { s with context := s.context.join c }

/-- Runs `x`, which may be skipped. -/
def maybe (x : Eval α) : Eval Unit := do
  let skipped ← context
  let _ ← x
  meet skipped

/-- Runs both ways to go on from here, which then meet. -/
def either (x y : Eval α) : Eval (α × α) := do
  let entry ← context
  let a ← x
  let left ← context
  setContext entry
  let b ← y
  meet left
  return (a, b)

/-- Runs the body of a loop. It ends where the next iteration begins: at its end and at every
`continue`. -/
def iteration (x : Eval Unit) : Eval Unit := fun s =>
  match x { s with continues := none :: s.continues } with
  | (.error e, t) => (.error e, { t with continues := t.continues.tail })
  | (.ok (), t) =>
    let context :=
      match t.continues with
      | some c :: _ => t.context.join c
      | _ => t.context
    (.ok (), { t with context, continues := t.continues.tail })

/-! ## Observations -/

/-- Records the value of an expression. -/
def observe (e : ExprId) (v : Value) : Eval Unit := modify (·.observe e v)

/-- Reports a warning. -/
def warn (d : Diagnostic) : Eval Unit := modify (·.report d)

end Eval

end Midend
