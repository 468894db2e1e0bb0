import Midend.Diagnostic.Basic

/-!
# Reporting diagnostics

A reporter counts what it is given and passes each diagnostic on once. Repeats
are counted and not passed on; diagnostics at level `allow`, and warnings while
they are off, change nothing. A sub-diagnostic that is shown once is dropped from
every diagnostic after the first that carries it.
-/

namespace Midend

/-- Proof that an error was reported. -/
inductive Reported where
  | mk
deriving DecidableEq

/-- What the proof says. -/
def Reported.message : Reported → String
  | mk => "an error has already been emitted"

/-- What emitting a diagnostic proves. -/
def Diagnostic.proof? (d : Diagnostic) : Option Reported := if d.isError then some .mk else none

/-- What was reported so far. -/
structure Reporter where
  /-- Errors, repeats included. -/
  errors : Nat := 0
  /-- Warnings, repeats included. -/
  warnings : Nat := 0
  /-- Errors that were passed on. -/
  distinctErrors : Nat := 0
  /-- Warnings that were passed on. -/
  distinctWarnings : Nat := 0
  /-- The diagnostics that were passed on, as they were given. -/
  seen : List Diagnostic := []
  /-- The sub-diagnostics that are not to be shown again. -/
  seenOnce : List SubDiagnostic := []
  emitsWarnings : Bool := true

namespace Reporter

/-- Whether the diagnostic is neither counted nor passed on. -/
def suppresses (r : Reporter) (d : Diagnostic) : Bool :=
  d.level == .allow || (d.level == .warning && !r.emitsWarnings)

/-- Drops the sub-diagnostics that were shown, and gives those that are shown from now on. -/
def freshChildren (shown : List SubDiagnostic) :
    List SubDiagnostic → List SubDiagnostic × List SubDiagnostic
  | [] => ([], shown)
  | c :: cs =>
    if c.level.isOnce then
      if shown.contains c then freshChildren shown cs
      else
        let (kept, shown) := freshChildren (c :: shown) cs
        (c :: kept, shown)
    else
      let (kept, shown) := freshChildren shown cs
      (c :: kept, shown)

/-- Counts a diagnostic that is not suppressed. -/
def count (r : Reporter) (d : Diagnostic) : Reporter :=
  match d.level with
  | .error => { r with errors := r.errors + 1 }
  | .warning => { r with warnings := r.warnings + 1 }
  | _ => r

/-- Counts a diagnostic that is passed on. -/
def countDistinct (r : Reporter) (d : Diagnostic) : Reporter :=
  match d.level with
  | .error => { r with distinctErrors := r.distinctErrors + 1 }
  | .warning => { r with distinctWarnings := r.distinctWarnings + 1 }
  | _ => r

/-- Reports a diagnostic; the first component is what is passed on. -/
def emit (r : Reporter) (d : Diagnostic) : Option Diagnostic × Reporter :=
  if r.suppresses d then (none, r)
  else if r.seen.contains d then (none, r.count d)
  else
    let (children, seenOnce) := freshChildren r.seenOnce d.children
    let r := { r with seen := d :: r.seen, seenOnce }
    (some { d with children }, (r.countDistinct d).count d)

/-- Reports diagnostics in order. -/
def emitAll (r : Reporter) : List Diagnostic → List Diagnostic × Reporter
  | [] => ([], r)
  | d :: ds =>
    let (passed, r) := r.emit d
    let (rest, r) := r.emitAll ds
    (passed.toList ++ rest, r)

/-- Whether an error was reported. -/
def hasErrors (r : Reporter) : Bool := r.errors > 0

/-- A reporter that ignores warnings. -/
def withoutWarnings (r : Reporter) : Reporter := { r with emitsWarnings := false }

end Reporter

end Midend
