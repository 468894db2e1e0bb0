import Midend.Body.Basic
import Midend.Eval.State
import Midend.Value.Operators

/-!
# Evaluating expressions

Literals, locals and operators have values; whatever depends on the heap or on
other methods is unknown, and only its operands are evaluated. An operand that may
be skipped is evaluated and then met with the path that skips it.
-/

namespace Midend

/-- The value of the left operand that decides the result without the right one. -/
def LogicOp.deciding : LogicOp → Bool
  | and => false
  | or => true

/-- A warning about strings compared by an operator. -/
def identityWarning (op : BinOp) (span : Span) : Diagnostic :=
  { level := .warning
    messages := ["comparing strings with `" ++ op.text ++ "` compares their identity"]
    span := .ofSpan span
    children := [.of .help "use `equals` to compare the contents of strings"] }

/-- The value of a conditional expression of the given type whose arm has the given value. Numeric
arms are promoted; without a type it is not known to what. -/
def Value.asConditional (ty : Option Ty) (v : Value) : Value :=
  match ty with
  | some (.prim p) => if p.isNumeric then v.convert p else v
  | some _ => v
  | none => if v.isNumeric then .unknown else v

/-- What is not known before promotion is not known after it. -/
theorem Value.asConditional_unknown (ty : Option Ty) : unknown.asConditional ty = unknown := by
  unfold asConditional
  split
  · split <;> rfl
  · rfl
  · rfl

namespace Eval

/-- Assigns to a local, converting to its declared type; the result is the value assigned. -/
def assignLocal (b : Body) (v : VarId) (value : Value) : Eval Value := do
  let value :=
    match primOf (b.varTy v) with
    | some p => value.convert p
    | none => value
  modify fun s => { s with context := s.context.bind v value }
  return value

/-- Increments or decrements a local. -/
def step (b : Body) (st : Step) (v : VarId) : Eval Value := do
  let old := (← context).get v
  if old.isKnown && !old.isNumeric then fail (.unaryMismatch (.step st) old.kind?)
  else
    let op := BinOp.arith (if st.increments then .add else .sub)
    let new ← assignLocal b v (← ofExcept (Value.binary op old (.known (.int 1))))
    return if st.after then old else new

/-- Applies an operator that evaluates both its operands. -/
def binary (op : BinOp) (span : Span) (l r : Value) : Eval Value := do
  match op with
  | .equality _ => if l.isString && r.isString then warn (identityWarning op span)
  | _ => pure ()
  ofExcept (Value.binary op l r)

end Eval

namespace Expr

mutual

/-- The value of an expression inside `depth` others. -/
def eval (b : Body) (depth : Nat) : Expr → Eval Value
  | node id kind => Eval.locate (b.exprSpan id) do
    if depth ≥ evalDepth then Eval.fail .recursionLimit
    else
      let v ← evalKind b (depth + 1) id kind
      Eval.observe id v
      return v

/-- The value of a layer, whose operands are inside `depth` expressions. -/
def evalKind (b : Body) (depth : Nat) (id : ExprId) : ExprKind Expr → Eval Value
  | .lit l => pure (.known l)
  | .var v => return (← Eval.context).get v
  | .paren inner => inner.eval b depth
  | .assign target op value =>
    match target.localTarget?, op with
    | none, _ => do
      target.evalPlace b depth
      let _ ← value.eval b depth
      return .unknown
    | some v, none => do Eval.assignLocal b v (← value.eval b depth)
    | some v, some op => do
      let old := (← Eval.context).get v
      let r ← value.eval b depth
      Eval.assignLocal b v (← Eval.ofExcept (Value.binary op old r))
  | .binary l (.logic op) r => do
    match ← l.eval b depth with
    | .unknown =>
      Eval.maybe (r.eval b depth)
      return .unknown
    | .known a =>
      if a = .bool op.deciding then return .known a
      else Eval.ofExcept (Value.binary (.logic op) (.known a) (← r.eval b depth))
  | .binary l op r => do
    let x ← l.eval b depth
    let y ← r.eval b depth
    Eval.binary op (b.exprSpan id) x y
  | .unary (.step st) operand =>
    match operand.localTarget? with
    | none => do
      operand.evalPlace b depth
      return .unknown
    | some v => Eval.step b st v
  | .unary op operand => do Eval.ofExcept (Value.unary op (← operand.eval b depth))
  | .conditional c t f => do
    let promote (v : Value) : Value :=
      v.asConditional ((node id (.conditional c t f)).staticTy b.varTy)
    match ← c.eval b depth with
    | .known (.bool true) => return promote (← t.eval b depth)
    | .known (.bool false) => return promote (← f.eval b depth)
    | .unknown =>
      let (x, y) ← Eval.either (t.eval b depth) (f.eval b depth)
      return promote (x.join y)
    | .known l => Eval.fail (.nonBooleanCondition (some l.kind))
  | .field none .. | .err => pure .unknown
  | .field (some e) .. | .cast _ e | .instanceOf e _ => do
    let _ ← e.eval b depth
    return .unknown
  | .index a i => do
    let _ ← a.eval b depth
    let _ ← i.eval b depth
    return .unknown
  | .call none _ args | .create _ args => do
    evalList b depth args
    return .unknown
  | .call (some receiver) _ args => do
    let _ ← receiver.eval b depth
    evalList b depth args
    return .unknown

/-- Evaluates the operands of a target that is a field or an array element. -/
def evalPlace (b : Body) (depth : Nat) : Expr → Eval Unit
  | node _ (.paren inner) => inner.evalPlace b depth
  | node _ (.field none ..) => pure ()
  | node _ (.field (some receiver) ..) => do
    let _ ← receiver.eval b depth
  | node _ (.index a i) => do
    let _ ← a.eval b depth
    let _ ← i.eval b depth
  | node .. => Eval.fail .notAnLvalue

/-- Evaluates expressions in order. -/
def evalList (b : Body) (depth : Nat) : List Expr → Eval Unit
  | [] => pure ()
  | e :: es => do
    let _ ← e.eval b depth
    evalList b depth es

end

end Expr

end Midend
