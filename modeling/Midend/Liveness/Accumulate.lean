import Midend.Liveness.Info

/-!
# Liveness recorded along a walk

`LivenessInfo.accumulateWith` finds the liveness of a body in one walk that keeps
all of its results in a state. Whoever comes to an expression records what is live
before it and which variable it reads. Whoever leaves a statement records what is
live around it and what it overwrites, and the overwrites of a block are looked up
among those recorded for its statements. A loop is walked again and again, over the
records of the walk before.
-/

namespace Midend

namespace LivenessInfo

/-- Records that a variable is read. -/
def read (info : LivenessInfo) (v : VarId) : LivenessInfo :=
  { info with everLive := info.everLive.insert v }

/-- Records what a statement overwrites. -/
def overwrite (info : LivenessInfo) (id : StmtId) (kills : IdSet) : LivenessInfo :=
  { info with kills := info.kills.setIfInBounds id kills }

/-- What statements run in order overwrite up to the first that may break out of them, by what is
recorded of each, and whether there is such a statement. -/
def pathKills (info : LivenessInfo) : List Stmt → IdSet × Bool
  | [] => (∅, false)
  | s :: ss =>
    if s.mayBreak then (info.killsOf s.id, true)
    else
      let (kills, breaks) := info.pathKills ss
      (info.killsOf s.id ∪ kills, breaks)

/-- What the path from the first group to the end of the switch overwrites, by what is recorded, and
what the paths from all groups do. -/
def caseKills (info : LivenessInfo) : List (SwitchCase Expr Stmt) → IdSet × Option IdSet
  | [] => (∅, none)
  | ⟨_, _, body⟩ :: cs =>
    let (next, others) := info.caseKills cs
    let (own, breaks) := info.pathKills body
    let kills := if breaks then own else own ∪ next
    (kills, some (Stmt.meet kills others))

end LivenessInfo

/-! ## The walk -/

/-- A part of a walk that records what it finds. -/
abbrev Recording := StateM LivenessInfo

namespace Recording

/-- Records an entry over any earlier one of the same node. -/
def put (entry : LiveEntry) : Recording Unit := modify (·.put entry)

/-- Records that a variable is read. -/
def noteRead (v : VarId) : Recording Unit := modify (·.read v)

/-- Records that variables are read. -/
def noteReads : List VarId → Recording Unit
  | [] => return
  | v :: vs => do
    noteRead v
    noteReads vs

/-- Records what a statement overwrites. -/
def overwrite (id : StmtId) (kills : IdSet) : Recording Unit := modify (·.overwrite id kills)

/-- Does the same `n` times, each time from the result of the time before. -/
def iterate {α : Type} (step : α → Recording α) : Nat → α → Recording α
  | 0, a => return a
  | n + 1, a => do
    let a ← step a
    iterate step n a

/-- Ends a walk over an expression before whose operands `operands` are live. -/
def leave (id : ExprId) (protect : IdSet) (operands : Recording IdSet) : Recording IdSet := do
  let live ← operands
  put (.expr id (live ∪ protect))
  return live ∪ protect

/-- Ends a walk over a block, and looks up what its statements overwrite. -/
def block (walk : Recording IdSet) (ss : List Stmt) : Recording (IdSet × IdSet) := do
  let live ← walk
  let info ← get
  return (live, (info.pathKills ss).1)

/-- Ends a walk over the groups of a switch, and looks up what all paths through them overwrite. -/
def groups (walk : Recording IdSet) (cs : List (SwitchCase Expr Stmt)) :
    Recording (IdSet × IdSet) := do
  let live ← walk
  let info ← get
  return (live, (info.caseKills cs).2.getD ∅)

end Recording

open Recording

namespace Expr

/-- Records what is live at the target of a write, which is not itself a read, and inside its
parentheses. -/
def recordTarget (live : IdSet) : Expr → Recording Unit
  | node id (.paren inner) => do
    put (.expr id live)
    inner.recordTarget live
  | node id _ => put (.expr id live)

mutual

/-- Walks over an expression to what is live before it. -/
def recordLive (protect out : IdSet) : Expr → Recording IdSet
  | node id (.var v) => leave id protect do
    noteRead v
    return out.insert v
  | node id (.assign l op r) => leave id protect
    (match l.localTarget? with
    | some v => do
      let live ← r.recordLive protect (out.erase v)
      if op.isSome then
        noteRead v
        l.recordTarget (live.insert v ∪ protect)
        return live.insert v
      else
        l.recordTarget (live ∪ protect)
        return live
    | none => do
      let live ← r.recordLive protect out
      l.recordPlace protect live)
  | node id (.unary (.step _) e) => leave id protect
    (match e.localTarget? with
    | some v => do
      noteRead v
      e.recordTarget (out.insert v ∪ protect)
      return out.insert v
    | none => e.recordPlace protect out)
  | node id (.binary l (.logic _) r) => leave id protect do
    let live ← r.recordLive protect out
    l.recordLive protect (out ∪ live)
  | node id (.conditional c t f) => leave id protect do
    let onTrue ← t.recordLive protect out
    let onFalse ← f.recordLive protect out
    c.recordLive protect (onTrue ∪ onFalse)
  | node id kind => leave id protect (recordOperands protect out kind)

/-- Walks over a field or array element that is written. What it records of the place itself is not
what is live before its operands. -/
def recordPlace (protect out : IdSet) : Expr → Recording IdSet
  | node id (.paren inner) => do
    let live ← inner.recordPlace protect out
    put (.expr id (live ∪ protect))
    return live
  | node id kind => do
    let live ← recordOperands protect out kind
    put (.expr id (live ∪ protect))
    return live

/-- Walks over all operands of a layer. -/
def recordOperands (protect out : IdSet) : ExprKind Expr → Recording IdSet
  | .lit _ | .var _ | .err | .field none .. => return out
  | .field (some r) .. => r.recordLive protect out
  | .assign l _ r | .binary l _ r | .index l r => do
    let live ← r.recordLive protect out
    l.recordLive protect live
  | .unary _ e | .paren e | .cast _ e | .instanceOf e _ => e.recordLive protect out
  | .conditional c t f => do
    let live ← f.recordLive protect out
    let live ← t.recordLive protect live
    c.recordLive protect live
  | .call none _ args => recordList protect out args
  | .call (some r) _ args => do
    let live ← recordList protect out args
    r.recordLive protect live
  | .create _ args => recordList protect out args

/-- Walks over expressions evaluated in order. -/
def recordList (protect out : IdSet) : List Expr → Recording IdSet
  | [] => return out
  | e :: es => do
    let live ← recordList protect out es
    e.recordLive protect live

end

end Expr

namespace Stmt

/-- Walks over the labels of a switch. -/
def recordLabels (protect out : IdSet) : List (SwitchCase Expr Stmt) → Recording IdSet
  | [] => return out
  | c :: cs => do
    let live ← recordLabels protect out cs
    Expr.recordList protect live c.labels

/-- Walks over the condition of a loop, if it has one, to the head of the loop. -/
def recordCondition (protect out : IdSet) (cond : Option Expr) (bodyIn : IdSet) : Recording IdSet :=
  match cond with
  | some c => c.recordLive protect (out ∪ bodyIn)
  | none => return bodyIn

mutual

/-- Walks over a statement to what is live before it and what it overwrites. -/
def recordLive (all : IdSet) (rounds : Nat) (t : Targets) (out : IdSet) :
    Stmt → Recording (IdSet × IdSet)
  | node id kind => do
    let (live, kills) ← recordKind all rounds t out kind
    put (.stmt id (live ∪ t.protect) (out ∪ t.protect))
    overwrite id kills
    return (live ∪ t.protect, kills)

/-- Walks over the parts of a layer. -/
def recordKind (all : IdSet) (rounds : Nat) (t : Targets) (out : IdSet) :
    StmtKind Expr Stmt → Recording (IdSet × IdSet)
  | .decl v none => return (out.erase v, IdSet.insert ∅ v)
  | .decl v (some e) => do
    let live ← e.recordLive t.protect (out.erase v)
    return (live, e.kills.insert v)
  | .expr e => do
    let live ← e.recordLive t.protect out
    return (live, e.kills)
  | .block body => block (recordList all rounds t out body) body
  | .branch c a none => do
    let (live, _) ← a.recordLive all rounds t out
    let live ← c.recordLive t.protect (live ∪ out)
    return (live, c.kills)
  | .branch c a (some b) => do
    let (onTrue, killsTrue) ← a.recordLive all rounds t out
    let (onFalse, killsFalse) ← b.recordLive all rounds t out
    let live ← c.recordLive t.protect (onTrue ∪ onFalse)
    return (live, (killsTrue ∩ killsFalse) ∪ c.kills)
  | .whileLoop c body => do
    let head ← c.recordLive t.protect out
    let head ← iterate
      (fun head => do
        let (bodyIn, _) ← body.recordLive all rounds (t.breakable out head) head
        c.recordLive t.protect (out ∪ bodyIn))
      (rounds + 1) head
    return (head, c.kills)
  | .doLoop body c => do
    let condIn ← c.recordLive t.protect out
    let (bodyIn, _) ← iterate
      (fun (_, condIn) => do
        let (bodyIn, _) ← body.recordLive all rounds (t.breakable out condIn) condIn
        let condIn ← c.recordLive t.protect (out ∪ bodyIn)
        return (bodyIn, condIn))
      (rounds + 1) (∅, condIn)
    return (bodyIn, ∅)
  | .forLoop init cond update body => do
    let head ← recordCondition t.protect out cond ∅
    let head ← iterate
      (fun head => do
        let updateIn ← Expr.recordList t.protect head update
        let (bodyIn, _) ← body.recordLive all rounds (t.breakable out updateIn) updateIn
        recordCondition t.protect out cond bodyIn)
      (rounds + 1) head
    let (live, kills) ← block (recordList all rounds t head init) init
    return (live, kills ∪ Expr.killsOf? cond)
  | .forEach v iterable body => do
    let head ← iterate
      (fun head => do
        let (bodyIn, _) ← body.recordLive all rounds (t.breakable out head) head
        return out ∪ bodyIn.erase v)
      (rounds + 1) out
    let live ← iterable.recordLive t.protect head
    return (live, iterable.kills)
  | .switch selector cases => do
    let (entry, kills) ← groups
      (do
        let (_, entry) ← recordCases all rounds (t.breakable out t.cont) out cases
        recordLabels t.protect (switchEntry out cases entry) cases)
      cases
    let live ← selector.recordLive t.protect entry
    return (live, (if cases.any SwitchCase.isDefault then kills else ∅) ∪ selector.kills)
  | .guarded resources body catches none => do
    let (handlers, catchKills) ← recordCatches all rounds t out catches
    noteReads (resources.filterMap declaredVar?)
    let vars := resourceVars resources
    let (blockIn, blockKills) ←
      block (recordList all rounds (t.through (vars ∪ handlers)) (out ∪ vars) body) body
    let (live, kills) ←
      block (recordList all rounds (t.through handlers) blockIn resources) resources
    return (live, meet (kills ∪ blockKills) catchKills)
  | .guarded resources body catches (some finalizer) => do
    let (final, finalKills) ← block (recordList all rounds t (out ∪ t.anyExit) finalizer) finalizer
    let (caught, catchKills) ← recordCatches all rounds (t.through final) final catches
    noteReads (resources.filterMap declaredVar?)
    let vars := resourceVars resources
    let handlers := final ∪ caught
    let (blockIn, blockKills) ←
      block (recordList all rounds (t.through (vars ∪ handlers)) (final ∪ vars) body) body
    let (live, kills) ←
      block (recordList all rounds (t.through handlers) blockIn resources) resources
    return (live, meet (kills ∪ blockKills) catchKills ∪ finalKills)
  | .throw e => do
    let live ← e.recordLive t.protect t.protect
    return (live, e.kills)
  | .assert c message => do
    let failed ← Expr.recordList t.protect t.protect message.toList
    let live ← c.recordLive t.protect (failed ∪ out)
    return (live ∪ out, ∅)
  | .ret none => return (t.ret, ∅)
  | .ret (some e) => do
    let live ← e.recordLive t.protect t.ret
    return (live, e.kills)
  | .breakOut => return (t.brk, ∅)
  | .continueLoop => return (t.cont, ∅)
  | .empty => return (out, ∅)
  | .err => return (all, ∅)

/-- Walks over statements run in order. -/
def recordList (all : IdSet) (rounds : Nat) (t : Targets) (out : IdSet) :
    List Stmt → Recording IdSet
  | [] => return out
  | s :: ss => do
    let live ← recordList all rounds t out ss
    let (live, _) ← s.recordLive all rounds t live
    return live

/-- Walks over the groups of a switch to what is live before the first and before any of them. -/
def recordCases (all : IdSet) (rounds : Nat) (t : Targets) (out : IdSet) :
    List (SwitchCase Expr Stmt) → Recording (IdSet × IdSet)
  | [] => return (out, ∅)
  | ⟨_, _, body⟩ :: cs => do
    let (next, entry) ← recordCases all rounds t out cs
    let first ← recordList all rounds t next body
    return (first, entry ∪ first)

/-- Walks over handlers to what is live before some of them and what all of them overwrite. -/
def recordCatches (all : IdSet) (rounds : Nat) (t : Targets) (out : IdSet) :
    List (CatchClause Stmt) → Recording (IdSet × Option IdSet)
  | [] => return (∅, none)
  | ⟨_, param, body⟩ :: cs => do
    let (live, kills) ← block (recordList all rounds t out body) body
    let (others, otherKills) ← recordCatches all rounds t out cs
    return (live.erase param ∪ others, some (meet (kills.insert param) otherKills))

end

end Stmt

namespace LivenessInfo

/-- Nothing is recorded of any node of the body. -/
def unrecorded (b : Body) : LivenessInfo where
  stmtIn := Array.replicate b.stmts.size ∅
  stmtOut := Array.replicate b.stmts.size ∅
  exprIn := Array.replicate b.exprs.size ∅
  kills := Array.replicate b.stmts.size ∅
  everLive := ∅
  entry := ∅

/-- The liveness of a body, recorded along a walk that starts from targets `t` and walks over each
loop `rounds + 1` times. -/
def accumulateWith (b : Body) (rounds : Nat) (t : Targets) : LivenessInfo :=
  let ((entry, _), info) :=
    (block (Stmt.recordList b.allVars rounds t ∅ b.root) b.root).run (unrecorded b)
  { info with entry }

end LivenessInfo

end Midend
