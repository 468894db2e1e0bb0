import Midend.Body.Validate
import Midend.Fold.Fixpoint
import Midend.Invariant
import Midend.Options.Basic

/-!
# Analysing bodies

The passes asked for run over a body one after the other: folding first, and the
analyses on the folded body. An error ends the analysis of its body and of no
other. What an analysis finds does not depend on earlier reports; its diagnostics
are reported afterwards, in order.
-/

namespace Midend

/-- The results of the passes over one body; none for a pass that did not run. -/
structure Analysis where
  fold : Option FoldStats := none
  effects : Option Effects := none
  liveness : Option LivenessInfo := none
  invariants : List LoopInvariants := []

/-- A body after its analysis, with the results or proof that an error was reported. -/
structure Analyzed where
  body : Body
  result : Except Reported Analysis
  reports : List Diagnostic

namespace Body

/-- The error for a body that the analyses cannot handle. -/
def shapeDiagnostic (b : Body) (fault : ShapeFault) : Diagnostic :=
  { level := .error
    messages := [fault.message]
    code := some .malformedTree
    span := .ofSpan ((b.nodeSpan fault.node).orElse b.span) }

/-- The results of the passes after folding. -/
def analyses (b : Body) (opts : Options) (callees : CalleeEffects) (fold : Option FoldStats) :
    Analysis :=
  let effects := if opts.needs .effects then some (Effects.compute b callees) else none
  let liveness := if opts.needs .liveness then some (LivenessInfo.compute b) else none
  let invariants :=
    match opts.runs .invariants, effects, liveness with
    | true, some effects, some liveness => b.invariants effects liveness
    | _, _, _ => []
  { fold, effects, liveness, invariants }

/-- Runs the passes that were asked for. -/
def analyze (b : Body) (opts : Options) (callees : CalleeEffects) : Analyzed :=
  match b.validate with
  | some fault => ⟨b, .error .mk, [b.shapeDiagnostic fault]⟩
  | none =>
    if opts.runs .fold then
      let folding := b.fold callees opts.maxFoldRounds
      ⟨folding.body,
        folding.result.map fun stats => folding.body.analyses opts callees (some stats),
        folding.reports⟩
    else ⟨b, .ok (b.analyses opts callees none), []⟩

end Body

/-- Analyses a body and reports what there is to report. The second component is what was passed
on. -/
def Reporter.analyze (r : Reporter) (opts : Options) (callees : CalleeEffects) (b : Body) :
    Analyzed × List Diagnostic × Reporter :=
  let a := b.analyze opts callees
  (a, r.emitAll a.reports)

/-- Analyses bodies one after the other. -/
def Reporter.analyzeAll (r : Reporter) (opts : Options) (callees : CalleeEffects) :
    List Body → List Analyzed × List Diagnostic × Reporter
  | [] => ([], [], r)
  | b :: bs =>
    let (a, passed, r) := r.analyze opts callees b
    let (as, more, r) := r.analyzeAll opts callees bs
    (a :: as, passed ++ more, r)

end Midend
