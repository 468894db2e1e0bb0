import Midend.Span

/-!
# Diagnostics

A diagnostic is a message with a level, an optional code, the spans it is about
and attached sub-diagnostics. Two diagnostics are the same when all of these are.
-/

namespace Midend

/-- How serious a diagnostic is. -/
inductive Level where
  /-- Aborts the analysis of the body. -/
  | error
  | warning
  | note
  /-- A note that is shown once. -/
  | onceNote
  | help
  /-- A help that is shown once. -/
  | onceHelp
  /-- Never shown. -/
  | allow
deriving DecidableEq

namespace Level

/-- The level as people see it. -/
def text : Level → String
  | error => "error"
  | warning => "warning"
  | note | onceNote => "note"
  | help | onceHelp => "help"
  | allow => "allow"

/-- The level as it appears in logs, where levels that read alike are told apart. -/
def debugText : Level → String
  | error => "Error"
  | warning => "Warning"
  | note => "Note"
  | onceNote => "OnceNote"
  | help => "Help"
  | onceHelp => "OnceHelp"
  | allow => "Allow"

/-- The level with the given name. Levels that are shown once have names of their own. -/
def ofText? : String → Option Level
  | "error" => some error
  | "warning" => some warning
  | "note" => some note
  | "once-note" => some onceNote
  | "help" => some help
  | "once-help" => some onceHelp
  | "allow" => some allow
  | _ => none

/-- Whether a sub-diagnostic of the level is shown only once. -/
def isOnce : Level → Bool
  | onceNote | onceHelp => true
  | _ => false

end Level

/-- The code of an error: four decimal digits. -/
structure ErrorCode where
  id : Nat
deriving DecidableEq

/-- Why a text is not an error code. -/
inductive CodeFault where
  | noLeadingE
  | wrongLength
  | notDecimal
deriving DecidableEq

/-- What is wrong with the text, as an error says it. -/
def CodeFault.message : CodeFault → String
  | noLeadingE => "error codes must start with 'E'"
  | wrongLength => "error codes must be exactly 4 digits long"
  | notDecimal => "error codes must be decimal"

namespace ErrorCode

/-- The code with the given text. -/
def ofText (s : String) : Except CodeFault ErrorCode :=
  match s.toList with
  | 'E' :: digits =>
    if (String.ofList digits).utf8ByteSize ≠ 4 then .error .wrongLength
    else if digits.all Char.isDigit then
      .ok ⟨digits.foldl (fun n c => 10 * n + (c.toNat - '0'.toNat)) 0⟩
    else .error .notDecimal
  | _ => .error .noLeadingE

/-- The code as it is written, with leading zeros. -/
def text (c : ErrorCode) : String :=
  let digits := c.id.repr
  "E" ++ String.ofList (List.replicate (4 - digits.length) '0') ++ digits

/-- The body has a shape that the analyses cannot handle. -/
def malformedTree : ErrorCode := ⟨101⟩

/-- A constant could not be evaluated. -/
def failedEvaluation : ErrorCode := ⟨201⟩

end ErrorCode

/-- A span to show, with the label next to it. -/
structure SpanLabel where
  span : Span
  isPrimary : Bool
  label : Option String
deriving DecidableEq

/-- The spans of a diagnostic: those it is about, and labelled ones. -/
structure MultiSpan where
  primary : List Span := []
  labels : List (Span × String) := []
deriving DecidableEq

namespace MultiSpan

/-- A single primary span. -/
def ofSpan (s : Span) : MultiSpan := { primary := [s] }

/-- Several primary spans, in order. -/
def ofSpans (ss : List Span) : MultiSpan :=
  { primary := ss.mergeSort fun a b => a.compare b != .gt }

/-- The first primary span. -/
def first? (m : MultiSpan) : Option Span := m.primary.head?

/-- Whether no primary span is a place in the text. -/
def isDummy (m : MultiSpan) : Bool := m.primary.all Span.isDummy

/-- Adds an entry for every primary span that has none yet. -/
def withPrimary (shown : List SpanLabel) (primary : List Span) : List SpanLabel :=
  primary.foldl
    (fun shown s =>
      if shown.any (·.span == s) then shown else shown ++ [⟨s, true, none⟩]) shown

/-- The spans to show: the labelled ones, then the primary ones without a label. -/
def spanLabels (m : MultiSpan) : List SpanLabel :=
  withPrimary (m.labels.map fun (s, l) => ⟨s, m.primary.contains s, some l⟩) m.primary

end MultiSpan

/-- Messages attached to a diagnostic. -/
structure SubDiagnostic where
  level : Level
  messages : List String
  span : MultiSpan := {}
deriving DecidableEq

namespace SubDiagnostic

/-- A sub-diagnostic with a single message, about the given spans. -/
def of (level : Level) (message : String) (span : MultiSpan := {}) : SubDiagnostic :=
  { level, messages := [message], span }

/-- All messages in one text. -/
def message (d : SubDiagnostic) : String := String.join d.messages

end SubDiagnostic

/-- A diagnostic. -/
structure Diagnostic where
  level : Level
  messages : List String
  code : Option ErrorCode := none
  span : MultiSpan := {}
  children : List SubDiagnostic := []
deriving DecidableEq

namespace Diagnostic

/-- A diagnostic with a single message. -/
def of (level : Level) (message : String) : Diagnostic := { level, messages := [message] }

/-- All messages in one text. -/
def message (d : Diagnostic) : String := String.join d.messages

/-- Whether the diagnostic is an error. -/
def isError (d : Diagnostic) : Bool := d.level == .error

/-- Gives the diagnostic a code. -/
def withCode (d : Diagnostic) (code : ErrorCode) : Diagnostic := { d with code := some code }

/-- Replaces the spans. -/
def withSpan (d : Diagnostic) (span : MultiSpan) : Diagnostic := { d with span }

/-- Adds a label at a span. -/
def withLabel (d : Diagnostic) (span : Span) (label : String) : Diagnostic :=
  { d with span := { d.span with labels := d.span.labels ++ [(span, label)] } }

/-- Appends to the message. -/
def withMessage (d : Diagnostic) (message : String) : Diagnostic :=
  { d with messages := d.messages ++ [message] }

/-- Attaches a sub-diagnostic. -/
def withChild (d : Diagnostic) (child : SubDiagnostic) : Diagnostic :=
  { d with children := d.children ++ [child] }

end Diagnostic

end Midend
