import Midend.Diagnostic.Reporter

/-!
# Drafts

A diagnostic is drafted before it is reported. A draft has to be emitted or
cancelled: one that is abandoned reports itself and is a fault. A draft that
promises an error must be emitted at that level.
-/

namespace Midend

/-- A diagnostic that is not yet reported. -/
structure Draft where
  diagnostic : Diagnostic
  /-- Whether emitting it gives proof that an error was reported. -/
  promisesError : Bool := false

/-- A wrong use of a draft. -/
inductive DraftFault where
  | notEmitted
  | brokenPromise (level : Level)
  /-- The diagnostic could not be written. -/
  | failedWrite (cause : String)
deriving DecidableEq

/-- What went wrong with the draft, as it is told. -/
def DraftFault.message : DraftFault → String
  | notEmitted => "diagnostic was constructed but not emitted"
  | brokenPromise level =>
    "emitted non-error (" ++ level.debugText ++ ") diagnostic from `DiagBuilder<ErrorGuaranteed>`"
  | failedWrite cause => "failed to emit diagnostic: " ++ cause

/-- What became of a draft. -/
structure DraftOutcome where
  /-- The diagnostics that were passed on. -/
  passed : List Diagnostic
  reporter : Reporter
  fault : Option DraftFault := none

namespace Draft

/-- A draft at a fixed level; one of an error promises it. -/
def of (level : Level) (message : String) : Draft :=
  { diagnostic := .of level message, promisesError := level == .error }

/-- Reports the draft. -/
def emit (d : Draft) (r : Reporter) : DraftOutcome :=
  let (passed, reporter) := r.emit d.diagnostic
  let broken := d.promisesError && !d.diagnostic.isError
  { passed := passed.toList, reporter,
    fault := if broken then some (.brokenPromise d.diagnostic.level) else none }

/-- Reports the draft and a copy of it; after a fault the copy is lost. -/
def emitTwice (d : Draft) (r : Reporter) : DraftOutcome :=
  let first := d.emit r
  match first.fault with
  | some _ => first
  | none =>
    let second := d.emit first.reporter
    { second with passed := first.passed ++ second.passed }

/-- Reports nothing. -/
def cancel (_ : Draft) (r : Reporter) : DraftOutcome := { passed := [], reporter := r }

/-- The draft is neither emitted nor cancelled. -/
def abandon (d : Draft) (r : Reporter) : DraftOutcome :=
  let (passed, reporter) := r.emitAll
    [.of .note "the following diagnostic was constructed but not emitted", d.diagnostic]
  { passed, reporter, fault := some .notEmitted }

end Draft

end Midend
