import Midend.Decimal.Layout
import Midend.Decimal.Numeral
import Midend.Options.Basic

/-!
# Choices in data

A pass or format may be given as a piece of structured data, which has to be the
text of one of the choices. The faults say what was found instead.
-/

namespace Midend

/-- Structured data, as far as a choice can be read from it. -/
inductive Datum where
  | null
  | boolean (b : Bool)
  | integer (i : Int)
  /-- A number of 64 bits, by its pattern. -/
  | floating (bits : UInt64)
  | text (s : String)
  | sequence
  | mapping

/-- Numbers in a message are written positionally from `10 ^ -5` up to, and without, `10 ^ 16`,
else as in `1e+16` and `1.5e-6`. -/
def Datum.numberLayout : Decimal.Layout := ⟨-5, 16, "e", true, false, .even, "NaN", "inf"⟩

/-- The number that a numeral stands for: an integer if it is written as one and fits 64 bits,
with a sign or without, else a floating point number. A negative zero is no integer, and a
number past the largest finite one is none at all. -/
def Datum.ofNumeral? (n : Decimal.Numeral) : Option Datum :=
  match n.integer? with
  | some i =>
    if n.negative then
      if i < 0 ∧ -((1 <<< 63 : Nat) : Int) ≤ i then some (.integer i) else rounded
    else if i < ((1 <<< 64 : Nat) : Int) then some (.integer i)
    else rounded
  | none => rounded
where
  rounded : Option Datum := n.double?.map fun w => .floating (UInt64.ofNat w)

/-- Reads a number. -/
def Datum.ofNumber? (s : String) : Option Datum := (Decimal.Numeral.ofText? s).bind ofNumeral?

/-- What a datum is, in words. -/
def Datum.description : Datum → String
  | null => "null"
  | boolean b => "boolean `" ++ (if b then "true" else "false") ++ "`"
  | integer i => "integer `" ++ toString i ++ "`"
  | floating bits => "floating point `" ++ numberLayout.text .double bits.toNat ++ "`"
  | text s => "string \"" ++ s ++ "\""
  | sequence => "sequence"
  | mapping => "map"

/-- Why a datum is no choice. -/
inductive ChoiceFault where
  /-- The text is none of the choices. -/
  | unknown (found : String) (choices : List String)
  /-- The datum is no text. -/
  | notText (found : Datum) (what : String)

/-- Choices in a sentence. -/
def ChoiceFault.expected (choices : List String) : String :=
  let quoted := choices.map fun c => "`" ++ c ++ "`"
  match quoted with
  | [] => "there are no variants"
  | [a] => "expected " ++ a
  | [a, b] => "expected " ++ a ++ " or " ++ b
  | cs => "expected one of " ++ ", ".intercalate cs

/-- What is wrong with the choice, as an error says it. -/
def ChoiceFault.message : ChoiceFault → String
  | unknown found choices => "unknown variant `" ++ found ++ "`, " ++ expected choices
  | notText found what =>
    "invalid type: " ++ found.description ++ ", expected a " ++ what ++ " string"

/-- Reads one of the choices, which are called `what` in a message. -/
def Datum.choose {α : Type} (what : String) (choices : List α) (name : α → String) (d : Datum) :
    Except ChoiceFault α :=
  match d with
  | text s =>
    match choices.find? (name · == s) with
    | some a => .ok a
    | none => .error (.unknown s (choices.map name))
  | d => .error (.notText d what)

/-- The pass that a datum names. -/
def Datum.pass (d : Datum) : Except ChoiceFault Pass := d.choose "Pass" Pass.all Pass.text

/-- The format that a datum names. -/
def Datum.errorFormat (d : Datum) : Except ChoiceFault ErrorFormat :=
  d.choose "ErrorFormat" ErrorFormat.all ErrorFormat.text

end Midend
