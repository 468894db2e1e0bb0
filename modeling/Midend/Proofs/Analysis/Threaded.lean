import Midend.Proofs.Analysis.Errors
import Midend.Proofs.Eval.Emission

/-!
# Analyses that report as they go

The passes over a body work on the body and a console at once (`Session`): a round of
folding evaluates the root block with an evaluator that reports each warning and each
fault where it is met, so that everything after a diagnostic runs with a reporter that
was given it. `Reporter.analyze` runs the passes first and reports afterwards, and it
comes to the same: the result, the body, the reporter and what it passed on are those of
the session (`Session.analyze_eq`), for one body and for many that share a reporter
(`Session.analyzeAll_eq`). So how a session ends does not depend on its console
(`Session.analyze_console`).
-/

namespace Midend

/-! ## Sessions -/

/-- A computation on a body that reports as it goes. What it did to the body is not undone when it
fails. -/
abbrev Session := ExceptT Reported (StateM (Body × Console))

namespace Session

/-- Reports an error, and fails with the proof that it was reported. -/
def fail {α : Type} (d : Diagnostic) : Session α := fun (b, c) => (.error .mk, b, c.emit d)

/-- One round of folding; its result is the number of edits. -/
def foldRound (callees : CalleeEffects) : Session Nat := fun (b, c) =>
  match Stmt.listEmitting b b.root (⟨EvalState.startRecording {}, 0⟩, c) with
  | (.error e, _, c) => (.error e, b, c)
  | (.ok (), s, c) =>
    let edits := b.edits callees s.state.recorded
    (.ok edits.length, b.applyEdits edits, c)

/-- At most `bound` further rounds of folding. -/
def foldFrom (callees : CalleeEffects) (stats : FoldStats) : Nat → Session FoldStats
  | 0 => pure stats
  | bound + 1 => do
    let rewrites ← foldRound callees
    let stats := { stats with rounds := stats.rounds + 1 }
    if rewrites = 0 then return { stats with reachedFixpoint := true }
    else foldFrom callees { stats with rewrites := stats.rewrites + rewrites } bound

/-- Folds the body, if it is to be folded. -/
def fold (opts : Options) (callees : CalleeEffects) : Session (Option FoldStats) := do
  if opts.runs .fold then return some (← foldFrom callees {} opts.maxFoldRounds)
  else return none

/-- Runs the passes that were asked for. -/
def analyze (opts : Options) (callees : CalleeEffects) : Session Analysis := do
  let b := (← get).1
  match b.validate with
  | some fault => fail (b.shapeDiagnostic fault)
  | none =>
    let stats ← fold opts callees
    return (← get).1.analyses opts callees stats

/-- Analyses bodies one after the other, with one console for all. -/
def analyzeAll (opts : Options) (callees : CalleeEffects) (c : Console) :
    List Body → List (Except Reported Analysis × Body) × Console
  | [] => ([], c)
  | b :: bs =>
    let (result, b, c) := analyze opts callees (b, c)
    let (rest, c) := analyzeAll opts callees c bs
    ((result, b) :: rest, c)

/-! ## Reports at once and afterwards -/

variable (callees : CalleeEffects)

/-- A round that reports as it goes ends as one that reports afterwards. -/
theorem foldRound_eq (b : Body) (c : Console) :
    foldRound callees (b, c) =
      ((b.foldRound callees).result, (b.foldRound callees).body,
        c.emitAll (b.foldRound callees).reports) := by
  have hroot : Stmt.listEmitting b b.root (⟨EvalState.startRecording {}, 0⟩, c) =
      handOver 0 [] c (b.evalReporting (EvalState.startRecording {})) :=
    (Stmt.listEmitting_emits b b.root).hands (EvalState.startRecording {}) c
  unfold Body.foldRound
  rcases h : b.evalReporting (EvalState.startRecording {}) with ⟨e | ⟨⟩, t⟩
  · simp only [foldRound, hroot, h, handOver]
  · simp only [foldRound, hroot, h, handOver]
    rfl

/-- A round that succeeds has reported when the next one begins. -/
theorem foldFrom_eq (stats : FoldStats) (bound : Nat) (b : Body) (c : Console) :
    foldFrom callees stats bound (b, c) =
      ((Body.foldFrom callees stats bound b).result, (Body.foldFrom callees stats bound b).body,
        c.emitAll (Body.foldFrom callees stats bound b).reports) := by
  induction bound generalizing stats b c with
  | zero => rfl
  | succ bound ih =>
    have hround := foldRound_eq callees b c
    unfold foldFrom Body.foldFrom
    generalize b.foldRound callees = round at hround ⊢
    obtain ⟨b', result, reports⟩ := round
    rcases result with e | n
    · exact Eval.bind_of_error hround
    · rw [Eval.bind_of_ok hround]
      cases n with
      | zero => rfl
      | succ n =>
        simp only [Nat.add_one_ne_zero, if_false, ih, Console.emitAll_append]

/-- Folding that reports as it goes ends as folding that reports afterwards. -/
theorem fold_eq {opts : Options} (h : opts.runs .fold) (b : Body) (c : Console) :
    fold opts callees (b, c) =
      ((b.fold callees opts.maxFoldRounds).result.map some,
        (b.fold callees opts.maxFoldRounds).body,
        c.emitAll (b.fold callees opts.maxFoldRounds).reports) := by
  have hfrom := foldFrom_eq callees {} opts.maxFoldRounds b c
  unfold fold Body.fold
  rw [if_pos h]
  generalize Body.foldFrom callees {} opts.maxFoldRounds b = folding at hfrom ⊢
  obtain ⟨b', e | stats, reports⟩ := folding
  · exact Eval.bind_of_error hfrom
  · exact Eval.bind_of_ok hfrom

/-- A session gives its console the diagnostics of the analysis, in their order. -/
theorem analyze_emitAll (opts : Options) (b : Body) (c : Console) :
    analyze opts callees (b, c) =
      ((b.analyze opts callees).result, (b.analyze opts callees).body,
        c.emitAll (b.analyze opts callees).reports) := by
  have hget : (get : Session (Body × Console)) (b, c) = (.ok (b, c), b, c) := rfl
  unfold analyze Body.analyze
  rw [Eval.bind_of_ok hget]
  cases b.validate with
  | some fault => rfl
  | none =>
    cases hruns : opts.runs .fold with
    | false =>
      have hfold : fold opts callees (b, c) = (.ok none, b, c) := by
        unfold fold
        rw [hruns]
        rfl
      exact Eval.bind_of_ok hfold
    | true =>
      have hfold := fold_eq callees hruns b c
      generalize b.fold callees opts.maxFoldRounds = folding at hfold ⊢
      obtain ⟨b', e | stats, reports⟩ := folding
      · exact Eval.bind_of_error hfold
      · exact Eval.bind_of_ok hfold

/-- Reporting each diagnostic where it is met, or all of them after the passes, comes to the same:
the result, the body, the reporter and what it passed on. -/
theorem analyze_eq (r : Reporter) (opts : Options) (b : Body) :
    analyze opts callees (b, ⟨r, []⟩) =
      ((r.analyze opts callees b).1.result, (r.analyze opts callees b).1.body,
        ⟨(r.analyze opts callees b).2.2, (r.analyze opts callees b).2.1⟩) := by
  have hanalyze := analyze_emitAll callees opts b ⟨r, []⟩
  rw [Console.emitAll_eq] at hanalyze
  exact hanalyze

/-- Analyses that share a reporter share it in the same order. -/
theorem analyzeAll_eq (opts : Options) (bs : List Body) : ∀ c : Console,
    analyzeAll opts callees c bs =
      ((c.reporter.analyzeAll opts callees bs).1.map fun a => (a.result, a.body),
        ⟨(c.reporter.analyzeAll opts callees bs).2.2,
          c.passed ++ (c.reporter.analyzeAll opts callees bs).2.1⟩) := by
  induction bs with
  | nil => exact fun c => Prod.ext rfl (congrArg (Console.mk _) (List.append_nil _).symm)
  | cons b bs ih =>
    intro c
    simp only [analyzeAll, analyze_emitAll, ih, Console.emitAll_eq, Reporter.analyzeAll,
      Reporter.analyze, List.map_cons, List.append_assoc]

/-- How a session ends, and with which body, depends neither on what its reporter was given before
nor on whether it ignores warnings. The reporter counts one error more if the session fails and
none if it succeeds. -/
theorem analyze_console (opts : Options) (b : Body) (c c' : Console) :
    (analyze opts callees (b, c)).1 = (analyze opts callees (b, c')).1 ∧
    (analyze opts callees (b, c)).2.1 = (analyze opts callees (b, c')).2.1 ∧
    (analyze opts callees (b, c)).2.2.reporter.errors =
      c.reporter.errors + failures (analyze opts callees (b, c)).1 := by
  rw [analyze_emitAll, analyze_emitAll]
  refine ⟨rfl, rfl, ?_⟩
  rw [Console.emitAll_eq]
  exact Reporter.errors_of_explains (b.analyze_explains callees opts) c.reporter

end Session

end Midend
