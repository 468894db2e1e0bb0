import Midend.Proofs.Eval.Steps

/-!
# Evaluators

An evaluator is made once and evaluates many nodes. It keeps the state of evaluation
between its calls, and a counter of the expressions that are being evaluated. The
counter is counted up where an expression is entered and down where it is left, and
the stack of contexts for `continue` is pushed and popped around the body of a loop.
`Expr.eval` has the depth for a parameter, and nothing to put back.

How a tree is evaluated is written once (`Expr.evaluateIn`, `Stmt.evaluateIn`), for
every monad that has the steps of `Eval` and its own ways to enter an expression and
a loop (`Evaluates`). `Evaluation` is such a monad.
-/

namespace Midend

/-! ## Monads to evaluate in -/

/-- What a monad has in which trees can be evaluated. -/
class Evaluates (m : Type → Type) extends MonadLift Eval m where
  /-- Runs a computation inside one more expression, if there may be so many. -/
  nested {α : Type} : m α → m α
  /-- Places an error that has no place yet. -/
  locate {α : Type} : Span → m α → m α
  /-- Runs the body of a loop, with a place for its `continue` statements. -/
  iteration : m Unit → m Unit

namespace Evaluates

variable {m : Type → Type} [Monad m] [Evaluates m] {α : Type}

/-- Runs `x`, which may be skipped. -/
def maybe (x : m α) : m Unit := do
  let skipped ← Eval.context
  let _ ← x
  Eval.meet skipped

/-- Runs both ways to go on from here, which then meet. -/
def either (x y : m α) : m (α × α) := do
  let entry ← Eval.context
  let a ← x
  let left ← Eval.context
  Eval.setContext entry
  let b ← y
  Eval.meet left
  return (a, b)

end Evaluates

/-! ## Evaluators -/

/-- What an evaluator keeps between calls. -/
structure Evaluator where
  state : EvalState := {}
  /-- How many expressions are being evaluated. -/
  depth : Nat := 0

namespace Evaluator

/-- Enters an expression. -/
def enter (s : Evaluator) : Evaluator := { s with depth := s.depth + 1 }

/-- Leaves an expression. -/
def leave (s : Evaluator) : Evaluator := { s with depth := s.depth - 1 }

/-- Enters a loop. No `continue` statement has been met. -/
def push (s : Evaluator) : Evaluator := { s with state.continues := none :: s.state.continues }

/-- Leaves a loop. -/
def pop (s : Evaluator) : Evaluator := { s with state.continues := s.state.continues.tail }

/-- Joins the contexts at the `continue` statements of the innermost loop. -/
def arrive (s : Evaluator) : Evaluator :=
  { s with state.context := Eval.endOf s.state.context s.state.continues }

end Evaluator

/-- A step of an evaluator. -/
abbrev Evaluation := ExceptT EvalError (StateM Evaluator)

namespace Evaluation

variable {α : Type}

/-- A step that leaves the counter alone. -/
def ofEval (x : Eval α) : Evaluation α := fun s =>
  ((x s.state).1, { s with state := (x s.state).2 })

/-- Runs `x` inside one more expression, if there may be so many. -/
def nested (x : Evaluation α) : Evaluation α := fun s =>
  if s.enter.depth > evalDepth then (.error ⟨.recursionLimit, .dummy⟩, s.enter.leave)
  else
    match x s.enter with
    | (result, t) => (result, t.leave)

/-- Places an error that has no place yet. -/
def locate (span : Span) (x : Evaluation α) : Evaluation α := fun s =>
  match x s with
  | (.ok a, t) => (.ok a, t)
  | (.error e, t) => (.error { e with span := e.span.orElse span }, t)

/-- Runs the body of a loop, with a place on the stack for its `continue` statements. -/
def iteration (x : Evaluation Unit) : Evaluation Unit := fun s =>
  match x s.push with
  | (.error e, t) => (.error e, t.pop)
  | (.ok (), t) => (.ok (), t.arrive.pop)

instance : Evaluates Evaluation where
  monadLift := ofEval
  nested := nested
  locate := locate
  iteration := iteration

end Evaluation

/-! ## Trees -/

section

variable {m : Type → Type} [Monad m] [Evaluates m]

namespace Expr

mutual

/-- Evaluates an expression. -/
def evaluateIn (b : Body) : Expr → m Value
  | node id kind => Evaluates.locate (b.exprSpan id) do
    let v ← Evaluates.nested (evaluateKindIn b id kind)
    Eval.observe id v
    return v

/-- Evaluates a layer. -/
def evaluateKindIn (b : Body) (id : ExprId) : ExprKind Expr → m Value
  | .lit l => pure (.known l)
  | .var v => return (← Eval.context).get v
  | .paren inner => inner.evaluateIn b
  | .assign target op value =>
    match target.localTarget?, op with
    | none, _ => do
      target.evaluatePlaceIn b
      let _ ← value.evaluateIn b
      return .unknown
    | some v, none => do Eval.assignLocal b v (← value.evaluateIn b)
    | some v, some op => do
      let old := (← Eval.context).get v
      let r ← value.evaluateIn b
      Eval.assignLocal b v (← Eval.ofExcept (Value.binary op old r))
  | .binary l (.logic op) r => do
    match ← l.evaluateIn b with
    | .unknown =>
      Evaluates.maybe (r.evaluateIn b)
      return .unknown
    | .known a =>
      if a = .bool op.deciding then return .known a
      else Eval.ofExcept (Value.binary (.logic op) (.known a) (← r.evaluateIn b))
  | .binary l op r => do
    let x ← l.evaluateIn b
    let y ← r.evaluateIn b
    Eval.binary op (b.exprSpan id) x y
  | .unary (.step st) operand =>
    match operand.localTarget? with
    | none => do
      operand.evaluatePlaceIn b
      return .unknown
    | some v => Eval.step b st v
  | .unary op operand => do Eval.ofExcept (Value.unary op (← operand.evaluateIn b))
  | .conditional c t f => do
    let promote (v : Value) : Value :=
      v.asConditional ((node id (.conditional c t f)).staticTy b.varTy)
    match ← c.evaluateIn b with
    | .known (.bool true) => return promote (← t.evaluateIn b)
    | .known (.bool false) => return promote (← f.evaluateIn b)
    | .unknown =>
      let (x, y) ← Evaluates.either (t.evaluateIn b) (f.evaluateIn b)
      return promote (x.join y)
    | .known l => Eval.fail (.nonBooleanCondition (some l.kind))
  | .field none .. | .err => pure .unknown
  | .field (some e) .. | .cast _ e | .instanceOf e _ => do
    let _ ← e.evaluateIn b
    return .unknown
  | .index a i => do
    let _ ← a.evaluateIn b
    let _ ← i.evaluateIn b
    return .unknown
  | .call none _ args | .create _ args => do
    evaluateListIn b args
    return .unknown
  | .call (some receiver) _ args => do
    let _ ← receiver.evaluateIn b
    evaluateListIn b args
    return .unknown

/-- Evaluates the operands of a target that is a field or an array element. -/
def evaluatePlaceIn (b : Body) : Expr → m Unit
  | node _ (.paren inner) => inner.evaluatePlaceIn b
  | node _ (.field none ..) => pure ()
  | node _ (.field (some receiver) ..) => do
    let _ ← receiver.evaluateIn b
  | node _ (.index a i) => do
    let _ ← a.evaluateIn b
    let _ ← i.evaluateIn b
  | node .. => Eval.fail .notAnLvalue

/-- Evaluates expressions in order. -/
def evaluateListIn (b : Body) : List Expr → m Unit
  | [] => pure ()
  | e :: es => do
    let _ ← e.evaluateIn b
    evaluateListIn b es

end

/-- Evaluates an expression of a statement for its effects. -/
def performIn (b : Body) (e : Expr) : m Unit := do
  let _ ← e.evaluateIn b

/-- Evaluates an expression that may be absent. -/
def performOptionIn (b : Body) : Option Expr → m Unit
  | none => pure ()
  | some e => e.performIn b

end Expr

namespace Stmt

mutual

/-- Evaluates a statement. -/
def evaluateIn (b : Body) : Stmt → m Unit
  | node id kind => Evaluates.locate (b.stmtSpan id) (evaluateKindIn b (node id kind) kind)

/-- Evaluates the layer of the statement `whole`. -/
def evaluateKindIn (b : Body) (whole : Stmt) : StmtKind Expr Stmt → m Unit
  | .decl v none => do
    let _ ← Eval.assignLocal b v .unknown
  | .decl v (some init) => do
    let _ ← Eval.assignLocal b v (← init.evaluateIn b)
  | .expr e | .throw e => e.performIn b
  | .ret e => Expr.performOptionIn b e
  | .block body => evaluateListIn b body
  | .branch cond onTrue onFalse => do
    match ← cond.evaluateIn b with
    | .known (.bool true) => onTrue.evaluateIn b
    | .known (.bool false) => evaluateOptionIn b onFalse
    | .unknown =>
      let _ ← Evaluates.either (onTrue.evaluateIn b) (evaluateOptionIn b onFalse)
    | .known l => Eval.fail (.nonBooleanCondition (some l.kind))
  | .assert cond message => Evaluates.maybe do
    cond.performIn b
    let passed ← Eval.context
    Expr.performOptionIn b message
    Eval.setContext passed
  | .whileLoop cond body => do
    Eval.forget whole.written
    cond.performIn b
    Evaluates.iteration (body.evaluateIn b)
    Eval.forget whole.written
  | .doLoop body cond => do
    Eval.forget whole.written
    Evaluates.iteration (body.evaluateIn b)
    cond.performIn b
    Eval.forget whole.written
  | .forLoop init cond update body => do
    evaluateListIn b init
    Eval.forget whole.written
    Expr.performOptionIn b cond
    Evaluates.iteration (body.evaluateIn b)
    Expr.evaluateListIn b update
    Eval.forget whole.written
  | .forEach _ iterable body => do
    iterable.performIn b
    Eval.forget whole.written
    Evaluates.iteration (body.evaluateIn b)
    Eval.forget whole.written
  | .switch selector cases => do
    selector.performIn b
    Eval.forget whole.written
    let entry ← Eval.context
    evaluateCasesIn b entry cases
    Eval.setContext entry
  | .guarded resources body catches finalizer => do
    Eval.forget whole.written
    let entry ← Eval.context
    evaluateListIn b resources
    evaluateListIn b body
    evaluateCatchesIn b entry catches
    match finalizer with
    | none => pure ()
    | some finalizer =>
      Eval.setContext entry
      evaluateListIn b finalizer
    Eval.setContext entry
  | .continueLoop => (modify EvalState.continueLoop : Eval Unit)
  | .breakOut | .empty | .err => pure ()

/-- Evaluates a statement that may be absent. -/
def evaluateOptionIn (b : Body) : Option Stmt → m Unit
  | none => pure ()
  | some s => s.evaluateIn b

/-- Evaluates statements in order. -/
def evaluateListIn (b : Body) : List Stmt → m Unit
  | [] => pure ()
  | s :: ss => do
    s.evaluateIn b
    evaluateListIn b ss

/-- Evaluates the groups of a switch, the statements of each from its entry. -/
def evaluateCasesIn (b : Body) (entry : Context) :
    List (SwitchCase Expr Stmt) → m Unit
  | [] => pure ()
  | ⟨_, labels, body⟩ :: cases => do
    Expr.evaluateListIn b labels
    Eval.setContext entry
    evaluateListIn b body
    evaluateCasesIn b entry cases

/-- Evaluates handlers, each from the entry of their statement. -/
def evaluateCatchesIn (b : Body) (entry : Context) :
    List (CatchClause Stmt) → m Unit
  | [] => pure ()
  | ⟨_, _, body⟩ :: catches => do
    Eval.setContext entry
    evaluateListIn b body
    evaluateCatchesIn b entry catches

end

end Stmt

end

/-- Evaluates an expression as an evaluator does. -/
def Expr.evaluate (b : Body) (e : Expr) : Evaluation Value := e.evaluateIn b

/-- Evaluates a statement as an evaluator does. -/
def Stmt.evaluate (b : Body) (s : Stmt) : Evaluation Unit := s.evaluateIn b

/-- Evaluates statements in order as an evaluator does. -/
def Stmt.evaluateList (b : Body) (ss : List Stmt) : Evaluation Unit := evaluateListIn b ss

end Midend
