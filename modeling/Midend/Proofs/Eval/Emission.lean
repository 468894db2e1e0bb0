import Midend.Proofs.Eval.Mirrors
import Midend.Proofs.Eval.Reports

/-!
# Evaluators that report as they go

An evaluator holds on to its reporter and gives it each diagnostic at once: a warning
where it is met, and the error for a fault when the statement of the root block that
failed is left (`Emission`). `Eval` keeps what it has to report, for its caller. The two
come to the same: an evaluator ends as `Eval` does, and its reporter has been given, one
by one, what `Eval` has kept (`Emits`), for every expression, every statement and the
root block (`Stmt.listEmitting_emits`).
-/

namespace Midend

/-! ## Consoles -/

/-- A reporter, and what it has passed on. -/
structure Console where
  reporter : Reporter := {}
  passed : List Diagnostic := []

namespace Console

/-- Reports a diagnostic. -/
def emit (c : Console) (d : Diagnostic) : Console :=
  { reporter := (c.reporter.emit d).2, passed := c.passed ++ (c.reporter.emit d).1.toList }

/-- Reports diagnostics, one after the other. -/
def emitAll (c : Console) (ds : List Diagnostic) : Console := ds.foldl emit c

/-- What is reported in two goes is reported in one. -/
theorem emitAll_append (c : Console) (ds es : List Diagnostic) :
    c.emitAll (ds ++ es) = (c.emitAll ds).emitAll es :=
  List.foldl_append

/-- The diagnostics that a reporter is given all at once are reported one by one. -/
theorem emitAll_eq (ds : List Diagnostic) : ∀ c : Console,
    c.emitAll ds = ⟨(c.reporter.emitAll ds).2, c.passed ++ (c.reporter.emitAll ds).1⟩ := by
  induction ds with
  | nil => exact fun c => congrArg (Console.mk c.reporter) (List.append_nil c.passed).symm
  | cons d ds ih =>
    intro c
    change (c.emit d).emitAll ds = _
    rw [ih, Reporter.emitAll]
    simp only [emit, List.append_assoc]

end Console

/-! ## Evaluators with a reporter -/

/-- A step of an evaluator that reports. -/
abbrev Emission := ExceptT EvalError (StateM (Evaluator × Console))

namespace Emission

variable {α : Type}

/-- A step that leaves the counter alone. What it has to report is reported at once. -/
def ofEval (x : Eval α) : Emission α := fun (s, c) =>
  match x { s.state with reports := [] } with
  | (result, t) =>
    (result, { s with state := { t with reports := s.state.reports } }, c.emitAll t.reports)

/-- Runs `x` inside one more expression, if there may be so many. -/
def nested (x : Emission α) : Emission α := fun (s, c) =>
  if s.enter.depth > evalDepth then (.error ⟨.recursionLimit, .dummy⟩, s.enter.leave, c)
  else
    match x (s.enter, c) with
    | (result, t, c) => (result, t.leave, c)

/-- Places an error that has no place yet. -/
def locate (span : Span) (x : Emission α) : Emission α := fun p =>
  match x p with
  | (.ok a, q) => (.ok a, q)
  | (.error e, q) => (.error { e with span := e.span.orElse span }, q)

/-- Runs the body of a loop, with a place on the stack for its `continue` statements. -/
def iteration (x : Emission Unit) : Emission Unit := fun (s, c) =>
  match x (s.push, c) with
  | (.error e, t, c) => (.error e, t.pop, c)
  | (.ok (), t, c) => (.ok (), t.arrive.pop, c)

instance : Evaluates Emission where
  monadLift := ofEval
  nested := nested
  locate := locate
  iteration := iteration

end Emission

/-- An evaluation whose faults are reported, too. -/
abbrev Emitting := ExceptT Reported (StateM (Evaluator × Console))

/-- Reports the fault of an evaluation of the node at the given span. -/
def Emission.reporting {α : Type} (span : Span) (x : Emission α) : Emitting α := fun p =>
  match x p with
  | (.ok a, q) => (.ok a, q)
  | (.error e, t, c) => (.error .mk, t, c.emit (e.diagnostic span))

/-- Evaluates statements in order; a fault is reported for the one that failed. -/
def Stmt.listEmitting (b : Body) : List Stmt → Emitting Unit
  | [] => pure ()
  | s :: ss => do
    Emission.reporting (b.stmtSpan s.id) (s.evaluateIn b)
    listEmitting b ss

/-! ## What is reported and what is kept -/

variable {ε α β : Type}

/-- What an evaluation with nothing kept yet comes to once all that it kept is reported. The
evaluator keeps what it had. -/
def handOver (depth : Nat) (kept : List Diagnostic) (c : Console) (p : Except ε α × EvalState) :
    Except ε α × Evaluator × Console :=
  (p.1, ⟨{ p.2 with reports := kept }, depth⟩, c.emitAll p.2.reports)

/-- Where `depth` expressions are being evaluated, `x` does what `y` does and reports what `y`
keeps. Nothing that `y` does depends on what was reported. -/
structure Emits (depth : Nat) (x : ExceptT ε (StateM (Evaluator × Console)) α)
    (y : ExceptT ε (StateM EvalState) α) : Prop where
  oblivious : Adds (fun _ _ => True) y
  hands : ∀ (s : EvalState) (c : Console),
    x (⟨s, depth⟩, c) = handOver depth s.reports c (y { s with reports := [] })

namespace Emits

variable {depth : Nat}

theorem pure (a : α) :
    Emits depth (Pure.pure a : ExceptT ε (StateM (Evaluator × Console)) α) (Pure.pure a) where
  oblivious := .pure trivial
  hands _ _ := rfl

/-- What the second computation keeps comes after what the first has kept, and is reported after
it. -/
theorem bind {x : ExceptT ε (StateM (Evaluator × Console)) α}
    {y : ExceptT ε (StateM EvalState) α} {f : α → ExceptT ε (StateM (Evaluator × Console)) β}
    {g : α → ExceptT ε (StateM EvalState) β} (hx : Emits depth x y)
    (hf : ∀ a, Emits depth (f a) (g a)) : Emits depth (x >>= f) (y >>= g) where
  oblivious := hx.oblivious.bind (fun a => (hf a).oblivious) (fun _ _ => trivial) fun _ => trivial
  hands s c := by
    have hs := hx.hands s c
    rcases hy : y { s with reports := [] } with ⟨e | a, t⟩ <;> rw [hy] at hs
    · rw [Eval.bind_of_error hs, Eval.bind_of_error hy]
      rfl
    · rw [Eval.bind_of_ok hs, Eval.bind_of_ok hy]
      obtain ⟨ds, -, hds⟩ := (hf a).oblivious t
      have hrest := (hf a).hands { t with reports := s.reports } (c.emitAll t.reports)
      have hlater : g a t = ((g a t).1, { (g a t).2 with reports := t.reports ++ ds }) :=
        hds t.reports
      rw [hrest, hds [], hlater]
      simp only [handOver, List.nil_append, Console.emitAll_append]

end Emits

namespace Emission

variable {depth : Nat} {x : Emission α} {y : Eval α}

/-- A step that does not depend on what was reported is such an evaluation at any depth. -/
theorem emits_step (hy : Adds (fun _ _ => True) y) : Emits depth (liftM y) y :=
  ⟨hy, fun _ _ => rfl⟩

/-- A step that only warns reports its warnings at once. -/
theorem emits_warns (hy : y.OnlyWarns) : Emits depth (liftM y) y :=
  emits_step (hy.mono fun _ _ _ => trivial)

/-- Entering and leaving an expression reports nothing. -/
theorem emits_nested (hx : Emits (depth + 1) x y) :
    Emits depth (nested x) (if depth ≥ evalDepth then Eval.fail .recursionLimit else y) where
  oblivious := by
    split
    · exact Eval.OnlyWarns.fail.mono fun _ _ _ => trivial
    · exact hx.oblivious
  hands s c := by
    have hs : x (Evaluator.enter ⟨s, depth⟩, c) = _ := hx.hands s c
    have hlimit : (Evaluator.enter ⟨s, depth⟩).depth > evalDepth ↔ depth ≥ evalDepth :=
      Nat.lt_succ_iff
    unfold nested
    simp only [hlimit, hs]
    split <;> rfl

/-- An error is placed as before. -/
theorem emits_locate (span : Span) (hx : Emits depth x y) :
    Emits depth (locate span x) (Eval.locate span y) where
  oblivious := hx.oblivious.locate
  hands s c := by
    unfold locate Eval.locate
    rw [hx.hands s c]
    rcases y { s with reports := [] } with ⟨e | a, t⟩ <;> rfl

/-- Entering and leaving a loop reports nothing. -/
theorem emits_iteration {x : Emission Unit} {y : Eval Unit} (hx : Emits depth x y) :
    Emits depth (iteration x) (Eval.iteration y) where
  oblivious := hx.oblivious.iteration
  hands s c := by
    have hs : x (Evaluator.push ⟨s, depth⟩, c) = _ :=
      hx.hands { s with continues := none :: s.continues } c
    unfold iteration Eval.iteration
    simp only [hs]
    rcases y { s with reports := [], continues := none :: s.continues } with ⟨e | ⟨⟩, t⟩ <;> rfl

/-- Steps made of steps report what these report. -/
theorem closed : Eval.Closed (fun _ => True) (fun _ => True) fun y =>
    ∀ depth, Emits depth (liftM y) y where
  pure _ _ := emits_warns .pure
  fail _ _ := emits_warns .fail
  bind hx hf _ := emits_step <|
    (hx 0).oblivious.bind (fun a => (hf a 0).oblivious) (fun _ _ => trivial) fun _ => trivial
  context_bind hf _ := emits_step <|
    Adds.bind Eval.OnlyWarns.context (fun c => (hf c trivial 0).oblivious) (fun _ _ => trivial)
      fun _ => trivial
  change _ _ := emits_warns (.ofModify fun _ _ => rfl)
  warn hd _ := emits_warns (.warn hd)

/-- Every way to compose evaluations reports what these report. -/
theorem mirrors : Mirrors (m := Emission) Emits where
  pure := .pure
  bind := .bind
  steps := closed
  observe _ _ _ := emits_warns .observe
  continueLoop _ := emits_warns .continueLoop
  nested := emits_nested
  locate := emits_locate
  iteration := emits_iteration

/-- The fault is reported after everything else. -/
theorem emits_reporting (span : Span) (hx : Emits depth x y) :
    Emits depth (x.reporting span) (y.reporting span) where
  oblivious := hx.oblivious.reporting span (fun _ _ => trivial) fun _ _ => trivial
  hands s c := by
    unfold Emission.reporting Eval.reporting
    rw [hx.hands s c]
    rcases y { s with reports := [] } with ⟨e | a, t⟩
    · simp only [handOver, EvalState.report, Console.emitAll_append]
      rfl
    · rfl

end Emission

/-- An evaluator that reports as it goes gives its reporter, one by one, what an evaluation of the
statements has to report in the end. -/
theorem Stmt.listEmitting_emits (b : Body) (ss : List Stmt) :
    Emits 0 (listEmitting b ss) (listReporting b ss) := by
  induction ss with
  | nil => exact .pure ()
  | cons s ss ih =>
    have hs : Emits 0 (s.evaluateIn b) (s.eval b) := evaluateIn_mirrors Emission.mirrors s
    exact (Emission.emits_reporting (b.stmtSpan s.id) hs).bind fun _ => ih

end Midend
