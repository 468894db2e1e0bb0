import Midend.Body.Basic
import Midend.Tree.Visit

/-!
# Visits of bodies

A walk through a body may end at any node or variable. `visitUntil` walks no
further than it has to; what it meets is the beginning of the list of all visits
(`visitUntil_eq`).
-/

namespace Midend

/-- The visits up to and including the first that satisfies `stop`, and that one. -/
def Visit.takeUntil (stop : Visit → Bool) : List Visit → List Visit × Option Visit
  | [] => ([], none)
  | v :: vs => if stop v then ([v], some v) else ((takeUntil stop vs).map (v :: ·) id)

/-- A walk that notes what it meets, latest first, and may end early. -/
abbrev Walk := ExceptT Visit (StateM (List Visit))

/-- Notes a visit, and ends the walk there if it satisfies `stop`. -/
def Walk.meet (stop : Visit → Bool) (v : Visit) : Walk Unit := fun seen =>
  (if stop v then .error v else .ok (), v :: seen)

/-- What a walk has met after `seen`, and where it ended early. -/
def Walk.result (w : Walk Unit) (seen : List Visit) : List Visit × Option Visit :=
  match w seen with
  | (.ok (), seen) => (seen.reverse, none)
  | (.error v, seen) => (seen.reverse, some v)

/-- A walk goes on after a visit unless it is to stop there. -/
theorem Walk.meet_bind (stop : Visit → Bool) (v : Visit) (w : Walk Unit) (seen : List Visit) :
    (meet stop v >>= fun _ => w) seen =
      if stop v then (.error v, v :: seen) else w (v :: seen) := by
  cases h : stop v with
  | true =>
    have hm : meet stop v = fun seen => (.error v, v :: seen) := by
      funext seen
      simp [meet, h]
    rw [hm]
    rfl
  | false =>
    have hm : meet stop v = fun seen => (.ok (), v :: seen) := by
      funext seen
      simp [meet, h]
    rw [hm]
    rfl

/-- A walk along visits makes those up to the first at which it is to stop. -/
theorem Walk.result_forM_meet (stop : Visit → Bool) :
    ∀ vs seen : List Visit,
      Walk.result (vs.forM (Walk.meet stop)) seen =
        (Visit.takeUntil stop vs).map (seen.reverse ++ ·) id
  | [], seen => by
    show (seen.reverse, none) = _
    simp [Visit.takeUntil]
  | v :: vs, seen => by
    have ih := result_forM_meet stop vs (v :: seen)
    rw [List.forM_eq_forM, result] at ih
    rw [result, List.forM_eq_forM, List.forM_cons, meet_bind, Visit.takeUntil]
    by_cases h : stop v = true
    · simp [h]
    · rw [if_neg h, if_neg h, ih]
      simp [Prod.map]

namespace Body

variable (b : Body)

/-- The parameters and everything in the root block in evaluation order. -/
def visits : List Visit := b.params.map .var ++ Stmt.visitsOfList b.root

/-- What a walk in evaluation order meets up to and including the first visit that satisfies
`stop`, and that visit. -/
def visitUntil (stop : Visit → Bool) : List Visit × Option Visit :=
  Walk.result (do
    (b.params.map .var).forM (Walk.meet stop)
    Stmt.forVisitsOfList (Walk.meet stop) b.root) []

/-- A walk over the body makes the visits of the body up to the one where it stops. -/
theorem visitUntil_eq (stop : Visit → Bool) :
    b.visitUntil stop = Visit.takeUntil stop b.visits := by
  rw [visitUntil, Stmt.forVisitsOfList_eq, List.forM_eq_forM, ← List.forM_append, ← visits,
    ← List.forM_eq_forM, Walk.result_forM_meet]
  simp [Prod.map]

end Body

end Midend
