import Midend.Eval.Report
import Midend.Fold.Edit

/-!
# Constant folding

A round evaluates the body, which must not fail, and replaces the expressions whose
value is known. Rounds are repeated until one changes nothing or a bound is
reached.
-/

namespace Midend

/-- What folding did. -/
structure FoldStats where
  /-- The rounds that ran, with the last one that changed nothing. -/
  rounds : Nat := 0
  /-- The expressions replaced. -/
  rewrites : Nat := 0
  /-- Whether the last round changed nothing. -/
  reachedFixpoint : Bool := false
deriving DecidableEq

/-- The body after folding, with a result or proof that an error was reported. -/
structure Folding (α : Type) where
  body : Body
  result : Except Reported α
  reports : List Diagnostic

namespace Body

/-- The edits of the next round, given the recorded values. -/
def edits (b : Body) (callees : CalleeEffects) (values : IdMap Value) : List Edit :=
  let facts : FoldFacts := ⟨b.varTy, .compute b callees, values⟩
  b.root.flatMap facts.stmtEdits

/-- One round of folding; its result is the number of edits. If the evaluation fails, the body stays
as it is. -/
def foldRound (b : Body) (callees : CalleeEffects) : Folding Nat :=
  match b.evalReporting (EvalState.startRecording {}) with
  | (.error e, s) => ⟨b, .error e, s.reports⟩
  | (.ok (), s) =>
    let edits := b.edits callees s.recorded
    ⟨b.applyEdits edits, .ok edits.length, s.reports⟩

/-- At most `bound` further rounds of folding. -/
def foldFrom (callees : CalleeEffects) (stats : FoldStats) : Nat → Body → Folding FoldStats
  | 0, b => ⟨b, .ok stats, []⟩
  | bound + 1, b =>
    let round := b.foldRound callees
    match round.result with
    | .error e => ⟨round.body, .error e, round.reports⟩
    | .ok 0 =>
      ⟨round.body, .ok { stats with rounds := stats.rounds + 1, reachedFixpoint := true },
        round.reports⟩
    | .ok n =>
      let stats := { stats with rounds := stats.rounds + 1, rewrites := stats.rewrites + n }
      let rest := foldFrom callees stats bound round.body
      { rest with reports := round.reports ++ rest.reports }

/-- Folds until a round changes nothing, in at most `bound` rounds. -/
def fold (b : Body) (callees : CalleeEffects) (bound : Nat) : Folding FoldStats :=
  foldFrom callees {} bound b

end Body

end Midend
