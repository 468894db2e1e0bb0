import Midend.IdSet
import Midend.Tree.Stmt

/-!
# Live variables before a node

A variable is live at a point if its value may be read later before it is
overwritten. The functions here give the variables live before an expression or
statement from those live after it, walking backward through the tree. Inside a
`try` statement whatever its handlers need stays live at every point.

The body of a loop is walked `rounds + 1` times, each walk starting from the head
the one before it gave.
-/

namespace Midend

/-- The variables live where control may go. -/
structure Targets where
  /-- After the innermost loop or switch. -/
  brk : IdSet := ∅
  /-- Where the innermost loop continues. -/
  cont : IdSet := ∅
  /-- On a return. -/
  ret : IdSet := ∅
  /-- At the handlers of the enclosing `try` statements. -/
  protect : IdSet := ∅

namespace Targets

/-- The targets inside a loop or switch. -/
def breakable (t : Targets) (brk cont : IdSet) : Targets := { t with brk, cont }

/-- The targets inside a `try` statement, where every way out also needs `extra`. -/
def through (t : Targets) (extra : IdSet) : Targets :=
  ⟨t.brk ∪ extra, t.cont ∪ extra, t.ret ∪ extra, t.protect ∪ extra⟩

/-- Everything that is live on some way out by a jump. -/
def anyExit (t : Targets) : IdSet := t.brk ∪ t.cont ∪ t.ret ∪ t.protect

end Targets

namespace Expr

mutual

/-- The variables live before an expression. -/
def liveIn (protect out : IdSet) : Expr → IdSet
  | node _ (.var v) => out.insert v ∪ protect
  | node _ (.assign l op r) =>
    (match l.localTarget? with
    | some v =>
      let live := r.liveIn protect (out.erase v)
      if op.isSome then live.insert v else live
    | none => l.placeIn protect (r.liveIn protect out)) ∪ protect
  | node _ (.unary (.step _) e) =>
    (match e.localTarget? with
    | some v => out.insert v
    | none => e.placeIn protect out) ∪ protect
  | node _ (.binary l (.logic _) r) => l.liveIn protect (out ∪ r.liveIn protect out) ∪ protect
  | node _ (.conditional c t f) =>
    c.liveIn protect (t.liveIn protect out ∪ f.liveIn protect out) ∪ protect
  | node _ kind => operandsIn protect out kind ∪ protect

/-- The variables live before the operands of a field or array element that is written. -/
def placeIn (protect out : IdSet) : Expr → IdSet
  | node _ (.paren inner) => inner.placeIn protect out
  | node _ kind => operandsIn protect out kind

/-- The variables live before the operands of a layer, evaluated in order. -/
def operandsIn (protect out : IdSet) : ExprKind Expr → IdSet
  | .lit _ | .var _ | .err | .field none .. => out
  | .field (some r) .. => r.liveIn protect out
  | .assign l _ r | .binary l _ r | .index l r => l.liveIn protect (r.liveIn protect out)
  | .unary _ e | .paren e | .cast _ e | .instanceOf e _ => e.liveIn protect out
  | .conditional c t f => c.liveIn protect (t.liveIn protect (f.liveIn protect out))
  | .call none _ args => listIn protect out args
  | .call (some r) _ args => r.liveIn protect (listIn protect out args)
  | .create _ args => listIn protect out args

/-- The variables live before expressions evaluated in order. -/
def listIn (protect out : IdSet) : List Expr → IdSet
  | [] => out
  | e :: es => e.liveIn protect (listIn protect out es)

end

end Expr

namespace Stmt

/-- The variable declared by a resource of a `try` statement. -/
def declaredVar? (s : Stmt) : Option VarId :=
  match s.kind with
  | .decl v _ => some v
  | _ => none

/-- The variables declared by the resources of a `try` statement. -/
def resourceVars (resources : List Stmt) : IdSet := .ofList (resources.filterMap declaredVar?)

/-- The head of a loop after `n` walks, given how a walk changes it. -/
def walkedHead (n : Nat) (walk : IdSet → IdSet) (head : IdSet) : IdSet := Nat.repeat walk n head

/-- The head of a loop with a condition, given what is live before its body. -/
def conditionIn (protect out : IdSet) (cond : Option Expr) (bodyIn : IdSet) : IdSet :=
  match cond with
  | some c => c.liveIn protect (out ∪ bodyIn)
  | none => bodyIn

/-- What a switch needs before its labels, given what its groups need. -/
def switchEntry (out : IdSet) (cases : List (SwitchCase Expr Stmt)) (entry : IdSet) : IdSet :=
  if cases.any SwitchCase.isDefault then entry else entry ∪ out

/-- The labels of a switch in evaluation order. -/
def labels (cases : List (SwitchCase Expr Stmt)) : List Expr := cases.flatMap (·.labels)

mutual

/-- The variables live before a statement. An erroneous statement may read every variable of
`all`. -/
def liveIn (all : IdSet) (rounds : Nat) (t : Targets) (out : IdSet) : Stmt → IdSet
  | node _ kind => kindIn all rounds t out kind ∪ t.protect

/-- What is live before a layer, given what is live after it. -/
def kindIn (all : IdSet) (rounds : Nat) (t : Targets) (out : IdSet) : StmtKind Expr Stmt → IdSet
  | .decl v none => out.erase v
  | .decl v (some e) => e.liveIn t.protect (out.erase v)
  | .expr e => e.liveIn t.protect out
  | .block body => listIn all rounds t out body
  | .branch c a none => c.liveIn t.protect (a.liveIn all rounds t out ∪ out)
  | .branch c a (some b) =>
    c.liveIn t.protect (a.liveIn all rounds t out ∪ b.liveIn all rounds t out)
  | .whileLoop c body =>
    walkedHead (rounds + 1)
      (fun head => c.liveIn t.protect (out ∪ body.liveIn all rounds (t.breakable out head) head))
      (c.liveIn t.protect out)
  | .doLoop body c =>
    let condIn := walkedHead rounds
      (fun condIn =>
        c.liveIn t.protect (out ∪ body.liveIn all rounds (t.breakable out condIn) condIn))
      (c.liveIn t.protect out)
    body.liveIn all rounds (t.breakable out condIn) condIn
  | .forLoop init cond update body =>
    let head := walkedHead (rounds + 1)
      (fun head =>
        let updateIn := Expr.listIn t.protect head update
        conditionIn t.protect out cond
          (body.liveIn all rounds (t.breakable out updateIn) updateIn))
      (conditionIn t.protect out cond ∅)
    listIn all rounds t head init
  | .forEach v iterable body =>
    iterable.liveIn t.protect (walkedHead (rounds + 1)
      (fun head => out ∪ (body.liveIn all rounds (t.breakable out head) head).erase v) out)
  | .switch selector cases =>
    let entry := switchEntry out cases (casesIn all rounds (t.breakable out t.cont) out cases).2
    selector.liveIn t.protect (Expr.listIn t.protect entry (labels cases))
  | .guarded resources body catches none =>
    let handlers := catchesIn all rounds t out catches
    let block := listIn all rounds (t.through (resourceVars resources ∪ handlers))
      (out ∪ resourceVars resources) body
    listIn all rounds (t.through handlers) block resources
  | .guarded resources body catches (some finalizer) =>
    let final := listIn all rounds t (out ∪ t.anyExit) finalizer
    let handlers := final ∪ catchesIn all rounds (t.through final) final catches
    let block := listIn all rounds (t.through (resourceVars resources ∪ handlers))
      (final ∪ resourceVars resources) body
    listIn all rounds (t.through handlers) block resources
  | .throw e => e.liveIn t.protect t.protect
  | .assert c message =>
    let failed := Expr.listIn t.protect t.protect message.toList
    c.liveIn t.protect (failed ∪ out) ∪ out
  | .ret none => t.ret
  | .ret (some e) => e.liveIn t.protect t.ret
  | .breakOut => t.brk
  | .continueLoop => t.cont
  | .empty => out
  | .err => all

/-- The variables live before statements run in order. -/
def listIn (all : IdSet) (rounds : Nat) (t : Targets) (out : IdSet) : List Stmt → IdSet
  | [] => out
  | s :: ss => s.liveIn all rounds t (listIn all rounds t out ss)

/-- The variables live before the first group, which falls through into the next, and those live
before any group. -/
def casesIn (all : IdSet) (rounds : Nat) (t : Targets) (out : IdSet) :
    List (SwitchCase Expr Stmt) → IdSet × IdSet
  | [] => (out, ∅)
  | ⟨_, _, body⟩ :: cs =>
    let (next, entry) := casesIn all rounds t out cs
    let first := listIn all rounds t next body
    (first, entry ∪ first)

/-- The variables live before some handler. -/
def catchesIn (all : IdSet) (rounds : Nat) (t : Targets) (out : IdSet) :
    List (CatchClause Stmt) → IdSet
  | [] => ∅
  | ⟨_, param, body⟩ :: cs =>
    (listIn all rounds t out body).erase param ∪ catchesIn all rounds t out cs

end

end Stmt

end Midend
