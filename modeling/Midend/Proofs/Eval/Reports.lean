import Midend.Eval.Report
import Midend.Proofs.Eval.Closed

/-!
# What evaluation reports

No evaluation looks at what was reported before it, and all it reports by itself
are warnings, whether it succeeds or fails (`Eval.OnlyWarns`). An evaluation that
reports its fault adds the error for it as the last diagnostic, so the diagnostics
tell whether there is a result (`Explains`).
-/

namespace Midend

/-! ## Diagnostics and results -/

/-- None of the diagnostics is more than a warning. -/
def Warnings (ds : List Diagnostic) : Prop := ∀ d ∈ ds, d.level = .warning

theorem Warnings.nil : Warnings [] := fun _ hd => nomatch hd

theorem Warnings.append {ds es : List Diagnostic} (hd : Warnings ds) (he : Warnings es) :
    Warnings (ds ++ es) := by
  intro d h
  rcases List.mem_append.1 h with h | h
  · exact hd d h
  · exact he d h

/-- Among warnings there is no error. -/
theorem Warnings.errors {ds : List Diagnostic} (h : Warnings ds) :
    ds.countP Diagnostic.isError = 0 := by
  refine List.countP_eq_zero.2 fun d hd => ?_
  simp [Diagnostic.isError, h d hd]

/-- The diagnostics of a computation with the given result: warnings, and last one error if there
is no result. -/
inductive Explains {α : Type} : List Diagnostic → Except Reported α → Prop
  | ok {ws : List Diagnostic} (h : Warnings ws) (a : α) : Explains ws (.ok a)
  | error {ws : List Diagnostic} {d : Diagnostic} (h : Warnings ws) (hd : d.level = .error)
      (e : Reported) : Explains (ws ++ [d]) (.error e)

/-- How many errors stand for the result. -/
def failures {α : Type} : Except Reported α → Nat
  | .ok _ => 0
  | .error _ => 1

namespace Explains

variable {α β : Type} {r : Except Reported α} {ds ws : List Diagnostic}

theorem single {d : Diagnostic} (hd : d.level = .error) (e : Reported) :
    Explains [d] (.error e : Except Reported α) :=
  have h : Explains ([] ++ [d]) (.error e : Except Reported α) := .error .nil hd e
  h

/-- Warnings may come first. -/
theorem after (h : Explains ds r) (hw : Warnings ws) : Explains (ws ++ ds) r := by
  cases h with
  | ok h a => exact .ok (hw.append h) a
  | error h hd e =>
    rw [← List.append_assoc]
    exact .error (hw.append h) hd e

theorem map (h : Explains ds r) (f : α → β) : Explains ds (r.map f) := by
  cases h with
  | ok h a => exact .ok h (f a)
  | error h hd e => exact .error h hd e

/-- The result is lost to the same error. -/
theorem of_error {e : Reported} (h : Explains ds (.error e : Except Reported α)) :
    Explains ds (.error e : Except Reported β) := by
  cases h with
  | error h hd e => exact .error h hd e

theorem errors (h : Explains ds r) : ds.countP Diagnostic.isError = failures r := by
  cases h with
  | ok h a => exact h.errors
  | @error ws d h hd e =>
    have hlast : d.isError = true := by simp [Diagnostic.isError, hd]
    rw [List.countP_append, h.errors, List.countP_singleton, if_pos hlast]
    rfl

end Explains

/-! ## Added diagnostics -/

variable {ε α β : Type}

/-- Whatever was reported before, the computation has the same outcome and adds the same
diagnostics, which `P` relates to its result. -/
def Adds (P : List Diagnostic → Except ε α → Prop) (x : ExceptT ε (StateM EvalState) α) : Prop :=
  ∀ s : EvalState, ∃ ds, P ds (x s).1 ∧
    ∀ before, x { s with reports := before } = ((x s).1, { (x s).2 with reports := before ++ ds })

namespace Adds

variable {P : List Diagnostic → Except ε α → Prop} {Q : List Diagnostic → Except ε β → Prop}

theorem pure {a : α} (h : P [] (.ok a)) : Adds P (Pure.pure a) :=
  fun _ => ⟨[], h, fun before => by rw [List.append_nil]; rfl⟩

/-- What `P` says may be forgotten in part. -/
theorem mono {P' : List Diagnostic → Except ε α → Prop} {x : ExceptT ε (StateM EvalState) α}
    (hx : Adds P x) (h : ∀ ds r, P ds r → P' ds r) : Adds P' x := by
  intro s
  obtain ⟨ds, hd, hs⟩ := hx s
  exact ⟨ds, h ds _ hd, hs⟩

theorem bind {x : ExceptT ε (StateM EvalState) α} {f : α → ExceptT ε (StateM EvalState) β}
    (hx : Adds P x) (hf : ∀ a, Adds Q (f a))
    (hok : ∀ {ds es a r}, P ds (.ok a) → Q es r → Q (ds ++ es) r)
    (herror : ∀ {ds e}, P ds (.error e) → Q ds (.error e)) : Adds Q (x >>= f) := by
  have hbind : ∀ s, (x >>= f) s = ExceptT.bindCont f (x s).1 (x s).2 := fun _ => rfl
  intro s
  obtain ⟨ds, hd, hxs⟩ := hx s
  rcases hs : x s with ⟨e | a, t⟩
  · simp only [hs] at hd hxs
    simp only [hbind, hs, hxs]
    exact ⟨ds, herror hd, fun _ => rfl⟩
  · simp only [hs] at hd hxs
    obtain ⟨es, he, hfs⟩ := hf a t
    simp only [hbind, hs, hxs]
    refine ⟨ds ++ es, hok hd he, fun before => ?_⟩
    rw [← List.append_assoc]
    exact hfs (before ++ ds)

variable {R : List Diagnostic → Prop}

theorem locate {span : Span} {x : Eval α} (hx : Adds (fun ds _ => R ds) x) :
    Adds (fun ds _ => R ds) (Eval.locate span x) := by
  intro s
  obtain ⟨ds, hd, hxs⟩ := hx s
  refine ⟨ds, hd, fun before => ?_⟩
  unfold Eval.locate
  rw [hxs before]
  rcases x s with ⟨e | a, t⟩ <;> rfl

/-- An iteration adds what its body adds. -/
theorem iteration {x : Eval Unit} (hx : Adds (fun ds _ => R ds) x) :
    Adds (fun ds _ => R ds) (Eval.iteration x) := by
  intro s
  obtain ⟨ds, hd, hxs⟩ := hx { s with continues := none :: s.continues }
  refine ⟨ds, hd, fun before => ?_⟩
  unfold Eval.iteration
  rw [hxs before]
  rcases x { s with continues := none :: s.continues } with ⟨e | ⟨⟩, t⟩ <;> rfl

/-- The error for a fault is added last. -/
theorem reporting {Q : List Diagnostic → Except Reported α → Prop} {x : Eval α}
    (hx : Adds (fun ds _ => R ds) x) (span : Span) (hok : ∀ {ds} (a : α), R ds → Q ds (.ok a))
    (herror : ∀ {ds d}, R ds → d.level = .error → Q (ds ++ [d]) (.error .mk)) :
    Adds Q (x.reporting span) := by
  intro s
  obtain ⟨ds, hd, hxs⟩ := hx s
  rcases hs : x s with ⟨e | a, t⟩
  · simp only [hs] at hxs
    simp only [Eval.reporting, hs, hxs]
    refine ⟨ds ++ [e.diagnostic span], herror hd rfl, fun before => ?_⟩
    simp only [EvalState.report, List.append_assoc]
  · simp only [hs] at hxs
    simp only [Eval.reporting, hs, hxs]
    exact ⟨ds, hok a hd, fun _ => rfl⟩

end Adds

namespace Eval

/-- Whatever was reported before, the evaluation has the same outcome and adds the same warnings
and nothing else. -/
def OnlyWarns (x : Eval α) : Prop := Adds (fun ds _ => Warnings ds) x

namespace OnlyWarns

variable {x y : Eval α}

theorem pure {a : α} : OnlyWarns (Pure.pure a : Eval α) := Adds.pure .nil

theorem bind {f : α → Eval β} (hx : OnlyWarns x) (hf : ∀ a, OnlyWarns (f a)) :
    OnlyWarns (x >>= f) :=
  Adds.bind hx hf .append id

theorem fail {f : Fault} : OnlyWarns (Eval.fail f : Eval α) :=
  fun _ => ⟨[], .nil, fun before => by rw [List.append_nil]; rfl⟩

/-- A step that neither reads nor writes the reports. -/
theorem ofModify {f : EvalState → EvalState}
    (h : ∀ s before, f { s with reports := before } = { f s with reports := before }) :
    OnlyWarns (modify f : Eval Unit) := by
  refine fun s => ⟨[], .nil, fun before => ?_⟩
  rw [List.append_nil]
  exact Prod.ext rfl (h s before)

theorem context : OnlyWarns Eval.context :=
  fun _ => ⟨[], .nil, fun before => by rw [List.append_nil]; rfl⟩

theorem observe {e : ExprId} {v : Value} : OnlyWarns (Eval.observe e v) := by
  refine .ofModify fun s before => ?_
  cases hs : s.observed <;> simp [EvalState.observe, hs]

theorem continueLoop : OnlyWarns (modify EvalState.continueLoop : Eval Unit) := by
  refine .ofModify fun s before => ?_
  rcases hs : s.continues with _ | ⟨_ | c, outer⟩ <;> simp [EvalState.continueLoop, hs]

/-- A warning is allowed. -/
theorem warn {d : Diagnostic} (hd : d.level = .warning) : OnlyWarns (Eval.warn d) :=
  fun _ => ⟨[d], fun _ h => List.mem_singleton.1 h ▸ hd, fun _ => rfl⟩

/-- The operations of the evaluator only warn. -/
theorem closed (W : VarId → Prop) : Closed W (fun _ => True) OnlyWarns where
  pure _ := .pure
  fail _ := .fail
  bind := .bind
  context_bind hf := context.bind fun c => hf c trivial
  change _ := .ofModify fun _ _ => rfl
  warn := .warn

theorem treeClosed (w : IdSet) : TreeClosed w (fun _ => True) OnlyWarns where
  toClosed := closed (· ∈ w)
  locate _ := Adds.locate
  observe _ _ := .observe
  iteration := Adds.iteration
  continueLoop := .continueLoop

end OnlyWarns

end Eval

/-! ## Reported faults -/

/-- Where an evaluation only warns, it is reported with one error if it fails and with none
otherwise. -/
theorem Eval.OnlyWarns.reporting {x : Eval α} (hx : OnlyWarns x) (span : Span) :
    Adds Explains (x.reporting span) :=
  Adds.reporting hx span (fun a h => .ok h a) fun h hd => .error h hd .mk

/-- Only the statement that fails reports an error, and none after it is evaluated. -/
theorem Stmt.listReporting_explains (b : Body) (ss : List Stmt) :
    Adds Explains (listReporting b ss) := by
  induction ss with
  | nil => exact .pure (.ok .nil ())
  | cons s ss ih =>
    have hwarns : (s.eval b).OnlyWarns :=
      eval_closed (Eval.OnlyWarns.treeClosed s.written) (assignsIn_of_written fun _ hv => hv)
    have hs : Adds Explains (s.evalReporting b) := hwarns.reporting _
    refine hs.bind (fun _ => ih) ?_ .of_error
    rintro ds es ⟨⟩ r ⟨hd, -⟩ he
    exact he.after hd

end Midend
