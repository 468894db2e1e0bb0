import Midend.Effect.Propagation
import Midend.Liveness.Info
import Midend.Tree.Equality

/-!
# Loop invariants

An expression is invariant in a loop if its value is the same on every iteration:

* it is not a literal, a variable or in parentheses;
* it neither writes nor throws;
* every local it reads is live into the loop and not written by it;
* it reads the heap only if the loop does not write the heap;
* it creates no object.

Only the outermost invariant expressions are found, and those that are equal are
found together. The initialiser of a loop and the iterable of a for-each loop run
once and are not considered.
-/

namespace Midend

/-- What is known of a loop. -/
structure LoopFacts where
  effects : Effects
  /-- The variables live into the loop. -/
  live : IdSet
  /-- The locals the loop may write. -/
  writes : IdSet
  /-- Whether the loop may write the heap. -/
  writesGlobal : Bool

namespace LoopFacts

variable (facts : LoopFacts)

/-- Whether effects are those of an expression that may be invariant. -/
def allows (s : EffectSet) : Bool :=
  !s.hasWrites && !s.exception && !(facts.writesGlobal && s.readGlobal)

/-- Whether a layer has the same value on every iteration if its operands have. -/
def isStable {ε : Type} : ExprKind ε → Bool
  | .var v => facts.live.contains v && !facts.writes.contains v
  | .create .. | .err => false
  | _ => true

/-- Whether an expression has the same value on every iteration. -/
def isInvariant (e : Expr) : Bool :=
  match e.kind with
  | .lit _ | .var _ | .paren _ | .err => false
  | _ => facts.allows (facts.effects.expr e.id) && e.subexprs.all fun s => facts.isStable s.kind

mutual

/-- The outermost invariant expressions of an expression in evaluation order. -/
def exprInvariants : Expr → List Expr
  | .node id kind =>
    if facts.isInvariant (.node id kind) then [.node id kind] else kindInvariants kind

/-- Those of the operands of a layer. -/
def kindInvariants : ExprKind Expr → List Expr
  | .lit _ | .var _ | .err | .field none .. => []
  | .assign l _ r => targetInvariants l ++ exprInvariants r
  | .unary (.step _) e => targetInvariants e
  | .field (some e) .. | .unary _ e | .paren e | .cast _ e | .instanceOf e _ => exprInvariants e
  | .binary l _ r | .index l r => exprInvariants l ++ exprInvariants r
  | .conditional c t f => exprInvariants c ++ (exprInvariants t ++ exprInvariants f)
  | .call none _ args | .create _ args => listInvariants args
  | .call (some r) _ args => exprInvariants r ++ listInvariants args

/-- Those of the operands of a target. -/
def targetInvariants : Expr → List Expr
  | .node _ (.paren inner) => targetInvariants inner
  | .node _ (.field (some r) ..) => exprInvariants r
  | .node _ (.index a i) => exprInvariants a ++ exprInvariants i
  | .node .. => []

/-- The invariant expressions in a list of expressions, in order. -/
def listInvariants : List Expr → List Expr
  | [] => []
  | e :: es => exprInvariants e ++ listInvariants es

end

end LoopFacts

/-- The expressions of a statement and of those nested in it, without their operands. -/
def Stmt.topExprs (s : Stmt) : List Expr := s.substmts.flatMap fun t => t.kind.exprChildren

/-- The expressions that every iteration of a loop evaluates, without their operands; none if the
layer is no loop. -/
def StmtKind.iterated : StmtKind Expr Stmt → List Expr
  | whileLoop cond body => cond :: body.topExprs
  | doLoop body cond => body.topExprs ++ [cond]
  | forLoop _ cond update body => cond.toList ++ body.topExprs ++ update
  | forEach _ _ body => body.topExprs
  | _ => []

/-- Equal invariant expressions of one loop. -/
structure InvariantGroup where
  /-- The first in program order. -/
  representative : Expr
  /-- The others in program order. -/
  others : List Expr := []

namespace InvariantGroup

/-- All occurrences of the group, the representative first. -/
def occurrences (g : InvariantGroup) : List Expr := g.representative :: g.others

/-- Adds an expression to the first group that it is equal to, or else as a group of its own. -/
def add (e : Expr) : List InvariantGroup → List InvariantGroup
  | [] => [⟨e, []⟩]
  | g :: gs =>
    if g.representative.sameAs e then { g with others := g.others ++ [e] } :: gs
    else g :: add e gs

/-- Groups equal expressions. -/
def ofList (es : List Expr) : List InvariantGroup := es.foldl (fun gs e => add e gs) []

end InvariantGroup

/-- The invariant expressions of one loop. -/
structure LoopInvariants where
  loop : StmtId
  groups : List InvariantGroup

/-- The invariant expressions of a statement, which has none if it is no loop. -/
def Stmt.invariants (effects : Effects) (liveness : LivenessInfo) (s : Stmt) : LoopInvariants :=
  let facts : LoopFacts :=
    { effects, live := liveness.liveIn s.id, writes := s.written,
      writesGlobal := (effects.stmt s.id).writeGlobal }
  ⟨s.id, InvariantGroup.ofList (s.kind.iterated.flatMap facts.exprInvariants)⟩

/-- The invariant expressions of every loop of the body, each before those nested in it. -/
def Body.invariants (b : Body) (effects : Effects) (liveness : LivenessInfo) :
    List LoopInvariants :=
  ((b.root.flatMap Stmt.substmts).filter (·.kind.isLoop)).map (Stmt.invariants effects liveness)

end Midend
