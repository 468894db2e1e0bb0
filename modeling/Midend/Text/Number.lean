/-!
# Counts in text

A count is written in decimal digits, with a plus sign before them or not, and is
at most `maxCount`. A text is read from the left, so a wrong character is found
only if the number before it is not already too large.
-/

namespace Midend.Text

/-- Why a text is no count. -/
inductive CountFault where
  | empty
  | invalidDigit
  | tooLarge
deriving DecidableEq

/-- What is wrong with the text, as an error says it. -/
def CountFault.message : CountFault → String
  | empty => "cannot parse integer from empty string"
  | invalidDigit => "invalid digit found in string"
  | tooLarge => "number too large to fit in target type"

/-- The largest count. -/
def maxCount : Nat := 1 <<< 64 - 1

/-- The value of a decimal digit. -/
def digit? (c : Char) : Option Nat := if c.isDigit then some (c.toNat - '0'.toNat) else none

/-- Reads digits after a number `n`. -/
def readDigits (n : Nat) : List Char → Except CountFault Nat
  | [] => .ok n
  | c :: cs =>
    match digit? c with
    | none => .error .invalidDigit
    | some d => if 10 * n + d > maxCount then .error .tooLarge else readDigits (10 * n + d) cs

/-- Reads a count. -/
def readCount (s : String) : Except CountFault Nat :=
  match s.toList with
  | [] => .error .empty
  | ['+'] => .error .invalidDigit
  | '+' :: cs => readDigits 0 cs
  | cs => readDigits 0 cs

/-! ## Words that agree with a count -/

/-- The ending of a noun. -/
def pluralEnding (n : Int) : String := if n = 1 then "" else "s"

/-- The verb `have`. -/
def hasOrHave (n : Int) : String := if n = 1 then "has" else "have"

/-- The verb `be`. -/
def isOrAre (n : Int) : String := if n = 1 then "is" else "are"

end Midend.Text
