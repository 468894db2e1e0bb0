import Midend.Body.Basic
import Midend.Effect.Signature
import Midend.Tree.Role

/-!
# Effects of nodes

The effects of an expression are those of its operands together with its own. A
target has other effects than the same expression evaluated for its value. The
table of a body's effects records every node that is reached from the root block;
all others have none.
-/

namespace Midend

namespace EffectSet

/-- The effect of reading a local. -/
def readsLocal : EffectSet := singleton .readLocal

/-- The effect of assigning to a local. -/
def writesLocal : EffectSet := singleton .writeLocal

/-- The effect of reading the heap. -/
def readsGlobal : EffectSet := singleton .readGlobal

/-- The effect of writing the heap. -/
def writesGlobal : EffectSet := singleton .writeGlobal

/-- The effect of what may throw. -/
def throws : EffectSet := singleton .exception

/-- Of writing a local, which is read before or not. -/
def localWrite (reads : Bool) : EffectSet :=
  if reads then readsLocal ∪ writesLocal else writesLocal

/-- Of writing a field or an array element, which is read before or not. -/
def globalWrite (reads : Bool) : EffectSet :=
  if reads then readsGlobal ∪ writesGlobal else writesGlobal

end EffectSet

/-- Whether a divisor may be zero: only a literal number other than zero may not. -/
def Expr.mayBeZero (e : Expr) : Bool :=
  match e.peel.kind with
  | .lit (.int i) => i == 0
  | .lit (.long i) => i == 0
  | .lit (.float _) | .lit (.double _) => false
  | _ => true

/-- Of an operator that divides by the given operand. -/
def divisionEffects (op : BinOp) (divisor : Expr) : EffectSet :=
  if op.isDivision && divisor.mayBeZero then .throws else .none

namespace Expr

mutual

/-- The effects of evaluating an expression. -/
def effects (callees : CalleeEffects) : Expr → EffectSet
  | node _ kind => kindEffects callees kind

/-- The effects of writing to an expression, and reading it before if `reads`. -/
def targetEffects (callees : CalleeEffects) (reads : Bool) : Expr → EffectSet
  | node _ (.var _) => .localWrite reads
  | node _ (.paren inner) => inner.targetEffects callees reads
  | node _ (.field none ..) => .globalWrite reads
  | node _ (.field (some r) ..) => r.effects callees ∪ .globalWrite reads
  | node _ (.index a i) => a.effects callees ∪ i.effects callees ∪ .globalWrite reads
  | node .. => .all

/-- The effects of a layer and of everything below it. -/
def kindEffects (callees : CalleeEffects) : ExprKind Expr → EffectSet
  | .lit _ => .none
  | .var _ => .readsLocal
  | .field none .. => .readsGlobal
  | .field (some r) .. => .readsGlobal ∪ r.effects callees
  | .assign l none r => l.targetEffects callees false ∪ r.effects callees
  | .assign l (some op) r =>
    l.targetEffects callees true ∪ r.effects callees ∪ divisionEffects op r
  | .binary l op r => l.effects callees ∪ r.effects callees ∪ divisionEffects op r
  | .unary (.step _) e => e.targetEffects callees true
  | .unary _ e | .paren e | .instanceOf e _ => e.effects callees
  | .conditional c t f => c.effects callees ∪ t.effects callees ∪ f.effects callees
  | .call none callee args => listEffects callees args ∪ callees.ofCall callee
  | .call (some r) callee args =>
    r.effects callees ∪ listEffects callees args ∪ callees.ofCall callee
  | .create ty args =>
    listEffects callees args ∪ callees.ofCall (.ofConstructor ty.ownerName args.length)
  | .index a i => .readsGlobal ∪ a.effects callees ∪ i.effects callees
  | .cast ty e => if ty.isReference then e.effects callees ∪ .throws else e.effects callees
  | .err => .all

/-- The effects of the expressions of a list. -/
def listEffects (callees : CalleeEffects) : List Expr → EffectSet
  | [] => .none
  | e :: es => e.effects callees ∪ listEffects callees es

end

/-- The effects of an expression in the given role. -/
def effectsAs (callees : CalleeEffects) (e : Expr) : Role → EffectSet
  | .value => e.effects callees
  | .target reads => e.targetEffects callees reads

/-- The effects of stepping through the expression in a for-each loop. An array is read; anything
else is asked for an iterator. -/
def iterationEffects (callees : CalleeEffects) (env : TyEnv) (e : Expr) : EffectSet :=
  match e.staticTy env with
  | some (.array _) => .readsGlobal
  | some ty =>
    callees.ofCall ⟨ty.ownerName, "iterator", 0⟩ ∪ callees.ofCall ⟨"Iterator", "hasNext", 0⟩ ∪
      callees.ofCall ⟨"Iterator", "next", 0⟩
  | none => .all

end Expr

namespace Stmt

/-- The effects of closing a declared resource. -/
def closeEffects (callees : CalleeEffects) (env : TyEnv) (s : Stmt) : EffectSet :=
  match s.kind with
  | .decl v _ =>
    match env v with
    | some ty => callees.ofCall ⟨ty.ownerName, "close", 0⟩
    | none => .all
  | _ => .none

/-- The effects of a statement itself, without those of its expressions and nested statements. -/
def ownEffects (callees : CalleeEffects) (env : TyEnv) : StmtKind Expr Stmt → EffectSet
  | .decl _ (some _) => .writesLocal
  | .forEach _ iterable _ => .writesLocal ∪ iterable.iterationEffects callees env
  | .throw _ | .assert .. => .throws
  | .err => .all
  | .guarded resources _ catches _ =>
    (if catches.isEmpty then .none else .writesLocal) ∪
      .unions (resources.map (closeEffects callees env))
  | _ => .none

mutual

/-- The effects of a statement with everything in it. -/
def effects (callees : CalleeEffects) (env : TyEnv) : Stmt → EffectSet
  | node _ kind =>
    ownEffects callees env kind ∪ .unions (kind.exprChildren.map (Expr.effects callees)) ∪
      nestedEffects callees env kind

/-- The effects of the statements nested in a layer. -/
def nestedEffects (callees : CalleeEffects) (env : TyEnv) : StmtKind Expr Stmt → EffectSet
  | .block body => listEffects callees env body
  | .branch _ t none => t.effects callees env
  | .branch _ t (some f) => t.effects callees env ∪ f.effects callees env
  | .whileLoop _ body | .doLoop body _ | .forEach _ _ body => body.effects callees env
  | .forLoop init _ _ body => listEffects callees env init ∪ body.effects callees env
  | .switch _ cases => casesEffects callees env cases
  | .guarded resources body catches none =>
    listEffects callees env resources ∪ listEffects callees env body ∪
      catchesEffects callees env catches
  | .guarded resources body catches (some finalizer) =>
    listEffects callees env resources ∪ listEffects callees env body ∪
      catchesEffects callees env catches ∪ listEffects callees env finalizer
  | .decl .. | .expr _ | .throw _ | .assert .. | .ret _ | .breakOut | .continueLoop | .empty
  | .err => .none

/-- The effects of the statements of a list. -/
def listEffects (callees : CalleeEffects) (env : TyEnv) : List Stmt → EffectSet
  | [] => .none
  | s :: ss => s.effects callees env ∪ listEffects callees env ss

/-- The effects of the statements in the groups of a switch. -/
def casesEffects (callees : CalleeEffects) (env : TyEnv) :
    List (SwitchCase Expr Stmt) → EffectSet
  | [] => .none
  | ⟨_, _, body⟩ :: cs => listEffects callees env body ∪ casesEffects callees env cs

/-- The effects of handlers. -/
def catchesEffects (callees : CalleeEffects) (env : TyEnv) : List (CatchClause Stmt) → EffectSet
  | [] => .none
  | ⟨_, _, body⟩ :: cs => listEffects callees env body ∪ catchesEffects callees env cs

end

end Stmt

/-- The effects of the nodes of a body, by identifier. -/
structure Effects where
  exprs : Array EffectSet
  stmts : Array EffectSet
  body : EffectSet

namespace Effects

/-- Writes entries into a table; of several entries for one node the last stays. -/
def record (table : Array EffectSet) (entries : List (Nat × EffectSet)) : Array EffectSet :=
  entries.foldl (fun t e => t.setIfInBounds e.1 e.2) table

/-- The effects of every reachable node of a body. -/
def compute (b : Body) (callees : CalleeEffects) : Effects :=
  let stmts := b.root.flatMap Stmt.substmts
  let exprs := stmts.flatMap fun s => s.kind.exprChildren.flatMap Expr.roles
  { exprs := record (Array.replicate b.exprs.size .none)
      (exprs.map fun (role, e) => (e.id, e.effectsAs callees role))
    stmts := record (Array.replicate b.stmts.size .none)
      (stmts.map fun s => (s.id, s.effects callees b.varTy))
    body := Stmt.listEffects callees b.varTy b.root }

/-- The effects recorded for an expression; none if it was not reached. -/
def expr (e : Effects) (id : ExprId) : EffectSet := e.exprs.getD id .none

/-- The effects recorded for a statement; none if it was not reached. -/
def stmt (e : Effects) (id : StmtId) : EffectSet := e.stmts.getD id .none

/-- The effects of calling the method. -/
def summary (e : Effects) : EffectSet := e.body.calleeVisible

end Effects

end Midend
