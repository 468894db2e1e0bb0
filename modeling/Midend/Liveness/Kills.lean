import Midend.IdSet
import Midend.Tree.Stmt

/-!
# Definite overwrites

The variables that a node declares or assigns whenever it completes. Branches
agree on what they both overwrite, and a switch overwrites something only if it
has a default group.
-/

namespace Midend

namespace Expr

mutual

/-- The variables overwritten by every evaluation. -/
def kills : Expr → IdSet
  | node _ (.binary l (.logic _) _) => l.kills
  | node _ (.conditional c t f) => (t.kills ∩ f.kills) ∪ c.kills
  | node _ (.assign l none r) =>
    l.kills ∪ r.kills ∪ (l.localTarget?.elim ∅ IdSet.singleton)
  | node _ kind => operandKills kind

/-- The variables overwritten when all operands of a layer are evaluated. -/
def operandKills : ExprKind Expr → IdSet
  | .lit _ | .var _ | .err | .field none .. => ∅
  | .field (some r) .. => r.kills
  | .assign l _ r | .binary l _ r | .index l r => l.kills ∪ r.kills
  | .unary _ e | .paren e | .cast _ e | .instanceOf e _ => e.kills
  | .conditional c t f => c.kills ∪ t.kills ∪ f.kills
  | .call none _ args => listKills args
  | .call (some r) _ args => r.kills ∪ listKills args
  | .create _ args => listKills args

/-- The variables overwritten by the expressions of a list. -/
def listKills : List Expr → IdSet
  | [] => ∅
  | e :: es => e.kills ∪ listKills es

end

/-- The variables overwritten by an expression that may be missing. -/
def killsOf? (e : Option Expr) : IdSet := e.elim ∅ kills

end Expr

namespace Stmt

mutual

/-- Whether the statement contains a `break` that leaves it. -/
def mayBreak : Stmt → Bool
  | node _ .breakOut => true
  | node _ (.block body) => listMayBreak body
  | node _ (.branch _ t none) => t.mayBreak
  | node _ (.branch _ t (some f)) => t.mayBreak || f.mayBreak
  | node _ (.guarded resources body catches none) =>
    listMayBreak resources || listMayBreak body || catchesMayBreak catches
  | node _ (.guarded resources body catches (some finalizer)) =>
    listMayBreak resources || listMayBreak body || catchesMayBreak catches ||
      listMayBreak finalizer
  | node .. => false

/-- Whether one of the statements may break out of what is around them. -/
def listMayBreak : List Stmt → Bool
  | [] => false
  | s :: ss => s.mayBreak || listMayBreak ss

/-- Whether one of the handlers may break out of what is around them. -/
def catchesMayBreak : List (CatchClause Stmt) → Bool
  | [] => false
  | ⟨_, _, body⟩ :: cs => listMayBreak body || catchesMayBreak cs

end

/-- The intersection of overwrites with those of another path, if there is one. -/
def meet (kills : IdSet) : Option IdSet → IdSet
  | some other => kills ∩ other
  | none => kills

mutual

/-- The variables overwritten whenever the statement completes. -/
def kills : Stmt → IdSet
  | node _ kind => kindKills kind

/-- The variables overwritten whenever a layer completes. -/
def kindKills : StmtKind Expr Stmt → IdSet
  | .decl v init => (Expr.killsOf? init).insert v
  | .expr e | .throw e => e.kills
  | .block body => (pathKills body).1
  | .branch c _ none => c.kills
  | .branch c t (some f) => (t.kills ∩ f.kills) ∪ c.kills
  | .whileLoop c _ => c.kills
  | .forLoop init c _ _ => (pathKills init).1 ∪ Expr.killsOf? c
  | .forEach _ iterable _ => iterable.kills
  | .switch selector cases =>
    (if cases.any SwitchCase.isDefault then (caseKills cases).2.getD ∅ else ∅) ∪ selector.kills
  | .guarded resources body catches none =>
    meet ((pathKills resources).1 ∪ (pathKills body).1) (catchKills catches)
  | .guarded resources body catches (some finalizer) =>
    meet ((pathKills resources).1 ∪ (pathKills body).1) (catchKills catches) ∪
      (pathKills finalizer).1
  | .ret e => Expr.killsOf? e
  | .doLoop .. | .assert .. | .breakOut | .continueLoop | .empty | .err => ∅

/-- What statements run in order overwrite up to the first that may break out of them, and whether
there is such a statement. -/
def pathKills : List Stmt → IdSet × Bool
  | [] => (∅, false)
  | s :: ss =>
    if s.mayBreak then (s.kills, true)
    else
      let (kills, breaks) := pathKills ss
      (s.kills ∪ kills, breaks)

/-- What the path from the first group to the end of the switch overwrites, and what the paths from
all groups do. -/
def caseKills : List (SwitchCase Expr Stmt) → IdSet × Option IdSet
  | [] => (∅, none)
  | ⟨_, _, body⟩ :: cs =>
    let (next, others) := caseKills cs
    let (own, breaks) := pathKills body
    let kills := if breaks then own else own ∪ next
    (kills, some (meet kills others))

/-- What all handlers overwrite. -/
def catchKills : List (CatchClause Stmt) → Option IdSet
  | [] => none
  | ⟨_, param, body⟩ :: cs => some (meet ((pathKills body).1.insert param) (catchKills cs))

end

end Stmt

end Midend
