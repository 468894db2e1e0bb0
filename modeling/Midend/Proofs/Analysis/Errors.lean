import Midend.Analysis
import Midend.Proofs.Eval.Reports

/-!
# Reported errors

An analysis that succeeds reports no error, and one that fails reports exactly one,
as its last diagnostic (`Body.analyze_explains`). A reporter counts every error that
it is given, repeats too, so its count tells how many analyses failed
(`Reporter.analyze_errors`).
-/

namespace Midend

/-! ## Passes -/

namespace Body

variable (b : Body) (callees : CalleeEffects)

/-- Whatever was reported before, the root block is evaluated to the same end and with the same
reports. -/
theorem evalReporting_explains : Adds Explains b.evalReporting :=
  Stmt.listReporting_explains b b.root

/-- A round fails with one error, that of the statement that failed. -/
theorem foldRound_explains :
    Explains (b.foldRound callees).reports (b.foldRound callees).result := by
  obtain ⟨ds, hd, hs⟩ := b.evalReporting_explains (EvalState.startRecording {})
  have hreports : (b.evalReporting (EvalState.startRecording {})).2.reports = ds :=
    congrArg (fun r => r.2.reports) (hs [])
  rw [← hreports] at hd
  unfold foldRound
  generalize b.evalReporting (EvalState.startRecording {}) = r at hd ⊢
  rcases r with ⟨e | ⟨⟩, t⟩
  · exact hd.of_error
  · exact hd.map fun _ => (b.edits callees t.recorded).length

/-- Every round but the last succeeds, so it adds nothing but warnings. -/
theorem foldFrom_explains (stats : FoldStats) (bound : Nat) :
    Explains (foldFrom callees stats bound b).reports (foldFrom callees stats bound b).result := by
  induction bound generalizing stats b with
  | zero => exact .ok .nil stats
  | succ bound ih =>
    have hround := b.foldRound_explains callees
    unfold foldFrom
    generalize b.foldRound callees = round at hround ⊢
    obtain ⟨c, result, reports⟩ := round
    cases hround with
    | error h hd e => exact .error h hd e
    | ok h n =>
      cases n with
      | zero => exact .ok h _
      | succ n => exact (ih c _).after h

/-- An analysis fails with one error, which comes last, and succeeds with none. -/
theorem analyze_explains (opts : Options) :
    Explains (b.analyze opts callees).reports (b.analyze opts callees).result := by
  unfold analyze
  split
  · exact .single rfl .mk
  · split
    · exact (b.foldFrom_explains callees {} opts.maxFoldRounds).map _
    · exact .ok .nil _

end Body

/-! ## Reporters -/

namespace Reporter

/-- Only errors are counted as errors. -/
theorem errors_count (r : Reporter) (d : Diagnostic) :
    (r.count d).errors = r.errors + if d.isError then 1 else 0 := by
  obtain ⟨level, messages, code, span, children⟩ := d
  cases level <;> rfl

theorem errors_countDistinct (r : Reporter) (d : Diagnostic) :
    (r.countDistinct d).errors = r.errors := by
  unfold countDistinct
  split <;> rfl

/-- An error is never suppressed, and a repeated one is counted again. -/
theorem errors_emit (r : Reporter) (d : Diagnostic) :
    (r.emit d).2.errors = r.errors + if d.isError then 1 else 0 := by
  unfold emit
  split
  · next h =>
    have hne : d.isError = false := by
      rcases Bool.or_eq_true_iff.1 h with h | h
      · simp [Diagnostic.isError, beq_iff_eq.1 h]
      · simp [Diagnostic.isError, beq_iff_eq.1 (Bool.and_eq_true_iff.1 h).1]
    simp [hne]
  · split
    · exact errors_count r d
    · rw [errors_count, errors_countDistinct]

/-- Every error in a list is counted. -/
theorem errors_emitAll (ds : List Diagnostic) :
    ∀ r : Reporter, (r.emitAll ds).2.errors = r.errors + ds.countP Diagnostic.isError := by
  induction ds with
  | nil => exact fun _ => rfl
  | cons d ds ih =>
    intro r
    change ((r.emit d).2.emitAll ds).2.errors = _
    rw [ih, errors_emit, List.countP_cons, Nat.add_assoc, Nat.add_comm (ds.countP _)]

/-- A reporter that is given the diagnostics of a computation counts one error more if there is no
result. -/
theorem errors_of_explains {α : Type} {ds : List Diagnostic} {result : Except Reported α}
    (h : Explains ds result) (r : Reporter) :
    (r.emitAll ds).2.errors = r.errors + failures result := by
  rw [errors_emitAll, h.errors]

/-- The number of errors grows by one if the analysis fails and not at all if it succeeds. How it
ends, with what results and with which body, does not depend on the reporter: neither on what it
was given before nor on whether it ignores warnings. An evaluation, which reports while it runs,
does not depend on earlier reports either: it has the same result and records the same values. -/
theorem analyze_errors (r : Reporter) (opts : Options) (callees : CalleeEffects) (b : Body) :
    (match (r.analyze opts callees b).1.result with
      | .ok _ => (r.analyze opts callees b).2.2.errors = r.errors
      | .error _ => (r.analyze opts callees b).2.2.errors = r.errors + 1) ∧
    (∀ r' : Reporter,
      (r'.analyze opts callees b).1.result = (r.analyze opts callees b).1.result ∧
      (r'.analyze opts callees b).1.body = (r.analyze opts callees b).1.body) ∧
    ∀ (c : Body) (s : EvalState) (before : List Diagnostic),
      (c.evalReporting { s with reports := before }).1 = (c.evalReporting s).1 ∧
      (c.evalReporting { s with reports := before }).2.recorded =
        (c.evalReporting s).2.recorded := by
  refine ⟨?_, fun r' => ⟨rfl, rfl⟩, fun c s before => ?_⟩
  · have hcount : (r.analyze opts callees b).2.2.errors =
        r.errors + failures (b.analyze opts callees).result :=
      errors_of_explains (b.analyze_explains callees opts) r
    have hresult : (r.analyze opts callees b).1.result = (b.analyze opts callees).result := rfl
    rw [hcount, hresult]
    cases (b.analyze opts callees).result <;> rfl
  · obtain ⟨ds, -, hs⟩ := c.evalReporting_explains s
    rw [hs before]
    exact ⟨rfl, rfl⟩

end Reporter

end Midend
