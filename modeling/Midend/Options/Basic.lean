import Midend.Diagnostic.Reporter
import Midend.Text.Number

/-!
# Options

Which passes run over a body, how far folding goes, and what becomes of
diagnostics. Invariants are found from effects and liveness, so asking for them
asks for those passes too.
-/

namespace Midend

/-- A pass over a body. Passes run in this order. -/
inductive Pass where
  | fold | effects | liveness | invariants
deriving DecidableEq

namespace Pass

/-- The name of the pass. -/
def text : Pass → String
  | fold => "fold"
  | effects => "effects"
  | liveness => "liveness"
  | invariants => "invariants"

/-- The pass as it appears in logs. -/
def debugText : Pass → String
  | fold => "Fold"
  | effects => "Effects"
  | liveness => "Liveness"
  | invariants => "Invariants"

/-- Every pass in order. -/
def all : List Pass := [fold, effects, liveness, invariants]

/-- The pass with the given name. -/
def ofText? (s : String) : Option Pass := all.find? (·.text == s)

/-- The position in the order of passes. -/
def position : Pass → Nat
  | fold => 0
  | effects => 1
  | liveness => 2
  | invariants => 3

end Pass

/-- What becomes of diagnostics. -/
inductive ErrorFormat where
  /-- They are written for people. -/
  | human
  /-- They are only counted. -/
  | silent
deriving DecidableEq

namespace ErrorFormat

/-- The name of the format. -/
def text : ErrorFormat → String
  | human => "human"
  | silent => "silent"

/-- The format as it appears in logs. -/
def debugText : ErrorFormat → String
  | human => "Human"
  | silent => "Silent"

/-- All formats. -/
def all : List ErrorFormat := [human, silent]

/-- The format with the given name. -/
def ofText? (s : String) : Option ErrorFormat := all.find? (·.text == s)

end ErrorFormat

/-- Options for analysing bodies. -/
structure Options where
  /-- The passes asked for; every pass if empty. -/
  passes : List Pass := []
  /-- The most rounds of folding. -/
  maxFoldRounds : Nat := 16
  threads : Nat := 8
  errorFormat : ErrorFormat := .human
  noWarnings : Bool := false

namespace Options

/-- Whether a pass was asked for. -/
def runs (o : Options) (p : Pass) : Bool := o.passes.isEmpty || o.passes.contains p

/-- Whether a pass has to run, for itself or for one that uses its results. -/
def needs (o : Options) : Pass → Bool
  | .fold => o.runs .fold
  | .invariants => o.runs .invariants
  | .effects => o.runs .effects || o.runs .invariants
  | .liveness => o.runs .liveness || o.runs .invariants

/-- A reporter for the analysis. -/
def reporter (o : Options) : Reporter := { emitsWarnings := !o.noWarnings }

/-- Reads a number of threads, of which there is at least one. -/
def readThreads (s : String) : Except Text.CountFault Nat := (Text.readCount s).map (max 1)

end Options

end Midend
