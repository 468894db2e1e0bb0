import Midend.Diagnostic.Basic
import Midend.Text.Terminal

/-!
# Diagnostics for people

The level and code stand before the message, each span on a line of its own below
it and each sub-diagnostic on a line after those. A blank line ends it.

```text
error[E0101]: division by zero
  --> 14..19
   = note: the divisor is 0
```
-/

namespace Midend

open Text.Terminal (sequence bold reset strip)

/-- How a level stands out. -/
def Level.style : Level → String
  | error => bold ++ sequence "91"
  | warning => bold ++ sequence "93"
  | note | onceNote => bold ++ sequence "92"
  | help | onceHelp => bold ++ sequence "96"
  | allow => bold

/-- Text in a style. -/
def styled (style text : String) : String := style ++ text ++ reset

/-- The lines of the spans, write by write. -/
def MultiSpan.writes (m : MultiSpan) : List String :=
  (m.spanLabels.filter fun l => !l.span.isDummy).flatMap fun l =>
    ["  " ++ styled Level.note.style (if l.isPrimary then "-->" else ":::") ++ " ", l.span.text] ++
      l.label.elim [] (fun t => [" ", t]) ++ ["\n"]

/-- The line of a sub-diagnostic, write by write. -/
def SubDiagnostic.writes (d : SubDiagnostic) : List String :=
  let place :=
    match d.span.first? with
    | some s => if s.isDummy then [] else [" (" ++ s.text ++ ")"]
    | none => []
  ["   = " ++ styled d.level.style d.level.text ++ ": ", d.message] ++ place ++ ["\n"]

/-- The diagnostic with terminal styles, write by write: texts and line ends are written one at a
time. -/
def Diagnostic.writes (d : Diagnostic) : List String :=
  [styled d.level.style (d.level.text ++ d.code.elim "" fun c => "[" ++ c.text ++ "]"),
    bold ++ ": ", d.message, reset, "\n"] ++
    d.span.writes ++ d.children.flatMap SubDiagnostic.writes ++ ["\n"]

/-- The diagnostic for a terminal with or without styles. -/
def Diagnostic.render (color : Bool) (d : Diagnostic) : String :=
  if color then String.join d.writes else strip d.writes

/-- Where diagnostics go. -/
inductive Emitter where
  /-- To a stream, with or without styles. -/
  | human (color : Bool)
  | silent
  | inMemory

/-- Whether the diagnostics are shown with styles. -/
def Emitter.supportsColor : Emitter → Bool
  | human color => color
  | silent | inMemory => false

end Midend
