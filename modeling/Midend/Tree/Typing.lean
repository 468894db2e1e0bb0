import Midend.Tree.Expr

/-!
# Static types

The type of an expression as far as the tree determines it. Fields and method
results depend on declarations elsewhere and have none, and neither has `null`.
-/

namespace Midend

/-- The declared types of the variables in scope. -/
abbrev TyEnv := VarId → Option Ty

/-- The primitive type, if the type is known and primitive. -/
def primOf (ty : Option Ty) : Option PrimTy := ty.bind Ty.prim?

/-- The type of a unary operation that writes nothing. -/
def UnOp.resultTy (op : UnOp) (operand : Option Ty) : Option Ty :=
  match op with
  | .not => some (.prim .boolean)
  | .step _ => operand
  | .neg | .plus | .bitNot => (primOf operand).map fun p => .prim p.promoted

/-- The primitive type of a binary operation on primitive operands. -/
def BinOp.resultPrim (op : BinOp) (l r : PrimTy) : Option PrimTy :=
  match op with
  | .order _ | .equality _ | .logic _ => some .boolean
  | .shift _ => some l.promoted
  | .bits _ => if l = .boolean ∧ r = .boolean then some .boolean else l.promotedWith r
  | .arith _ => l.promotedWith r

/-- Whether the result is a truth value whatever the operands are. -/
def BinOp.isTest (op : BinOp) : Bool := op.isComparison || op.isShortCircuit

/-- The type of a binary operation. A sum with a string is a string. -/
def BinOp.resultTy (op : BinOp) (l r : Option Ty) : Option Ty :=
  if op.isTest then some (.prim .boolean)
  else if op = .arith .add ∧ (l.any Ty.isString || r.any Ty.isString) then some .string
  else do (op.resultPrim (← primOf l) (← primOf r)).map .prim

/-- The type of a conditional expression. Arms of different types are promoted; a narrow arm would
make the type depend on constant values, so there is none. -/
def conditionalTy (t f : Option Ty) : Option Ty := do
  let t ← t
  let f ← f
  if t = f then return t
  let p ← t.prim?
  let q ← f.prim?
  if p.isNarrow || q.isNarrow then none
  else (p.promotedWith q).map .prim

/-- The type of an element of an array. -/
def elementTy : Option Ty → Option Ty
  | some (.array element) => some element
  | _ => none

/-- The static type of an expression. The type of an operand is found only where the result depends
on it (`staticTy_unary`, `staticTy_binary`, `staticTy_conditional`). -/
def Expr.staticTy (env : TyEnv) : Expr → Option Ty
  | node _ (.lit l) => l.ty?
  | node _ (.var v) => env v
  | node _ (.paren inner) => inner.staticTy env
  | node _ (.assign target _ _) => target.staticTy env
  | node _ (.cast ty _) => some ty
  | node _ (.create ty _) => some ty
  | node _ (.instanceOf ..) => some (.prim .boolean)
  | node _ (.index array _) => elementTy (array.staticTy env)
  | node _ (.unary op operand) =>
    if op = .not then some (.prim .boolean) else op.resultTy (operand.staticTy env)
  | node _ (.binary l op r) =>
    if op.isTest then some (.prim .boolean)
    else
      let left := l.staticTy env
      if op = .arith .add then
        if left.any Ty.isString then some .string else op.resultTy left (r.staticTy env)
      else if (primOf left).isNone then none
      else op.resultTy left (r.staticTy env)
  | node _ (.conditional _ t f) =>
    let onTrue := t.staticTy env
    if onTrue.isNone then none else conditionalTy onTrue (f.staticTy env)
  | node _ (.field ..) | node _ (.call ..) | node _ .err => none

/-- The type is the operator's for the type of its operand. -/
theorem Expr.staticTy_unary (env : TyEnv) (id : ExprId) (op : UnOp) (operand : Expr) :
    (node id (.unary op operand)).staticTy env = op.resultTy (operand.staticTy env) := by
  rw [staticTy]
  split
  · rename_i h
    subst h
    rfl
  · rfl

/-- The type is the operator's for the types of its operands. -/
theorem Expr.staticTy_binary (env : TyEnv) (id : ExprId) (l : Expr) (op : BinOp) (r : Expr) :
    (node id (.binary l op r)).staticTy env = op.resultTy (l.staticTy env) (r.staticTy env) := by
  rw [staticTy]
  by_cases ht : op.isTest = true
  · simp [BinOp.resultTy, ht]
  · by_cases ha : op = .arith .add
    · subst ha
      by_cases hs : (l.staticTy env).any Ty.isString = true
      · simp [BinOp.resultTy, hs]
      · rw [if_neg ht]
        simp [hs]
    · by_cases hp : (primOf (l.staticTy env)).isNone = true
      · simp [BinOp.resultTy, ht, ha, Option.isNone_iff_eq_none.1 hp]
      · simp [ht, ha, hp]

/-- The type is the common one of the arms. -/
theorem Expr.staticTy_conditional (env : TyEnv) (id : ExprId) (c t f : Expr) :
    (node id (.conditional c t f)).staticTy env =
      conditionalTy (t.staticTy env) (f.staticTy env) := by
  rw [staticTy]
  by_cases ht : (t.staticTy env).isNone = true
  · simp [conditionalTy, Option.isNone_iff_eq_none.1 ht]
  · simp [ht]

/-- The static type of an expression, if it is primitive. -/
def Expr.primTy (env : TyEnv) (e : Expr) : Option PrimTy := primOf (e.staticTy env)

end Midend
