import Midend.Decimal.Layout
import Midend.Text.Escape
import Midend.Ty

/-!
# Literals

Floating point literals are kept by their bit patterns, so that equality of
literals distinguishes the two zeros and holds between equal patterns that are
not a number.
-/

namespace Midend

open Floating (Format)

/-- A constant of the analysed language. -/
inductive Literal where
  | null
  | bool (b : Bool)
  /-- A 16-bit code unit. -/
  | char (unit : UInt16)
  | byte (i : Int8)
  | short (i : Int16)
  | int (i : Int32)
  | long (i : Int64)
  /-- A number of 32 bits, by its pattern. -/
  | float (bits : UInt32)
  /-- A number of 64 bits, by its pattern. -/
  | double (bits : UInt64)
  | str (s : String)
deriving DecidableEq

namespace Literal

/-- The primitive type of a literal; none for `null` and strings. -/
def prim? : Literal → Option PrimTy
  | null | str _ => none
  | bool _ => some .boolean
  | char _ => some .char
  | byte _ => some .byte
  | short _ => some .short
  | int _ => some .int
  | long _ => some .long
  | float _ => some .float
  | double _ => some .double

/-- The static type of a literal; none for `null`. -/
def ty? : Literal → Option Ty
  | null => none
  | str _ => some .string
  | l => l.prim?.map .prim

/-- The text of a number of 32 bits. -/
def floatText (bits : UInt32) : String := Decimal.sourceLayout.text .single bits.toNat

/-- The text of a number of 64 bits. -/
def doubleText (bits : UInt64) : String := Decimal.sourceLayout.text .double bits.toNat

/-- A floating point constant as source text: numbers that have no literal are named by the class
that declares them. -/
def floatingSource (f : Format) (cls mark : String) (w : Nat) : String :=
  match f.decode w with
  | .nan .. => cls ++ ".NaN"
  | .infinite negative =>
    cls ++ "." ++ (if negative then "NEGATIVE" else "POSITIVE") ++ "_INFINITY"
  | .finite .. => Decimal.sourceLayout.text f w ++ mark

/-- The literal as source text. `byte` and `short` have no literals of their own and are written
as casts. -/
def text : Literal → String
  | null => "null"
  | bool b => if b then "true" else "false"
  | char u => Text.quoted '\'' [u]
  | byte i => "(byte) " ++ toString i.toInt
  | short i => "(short) " ++ toString i.toInt
  | int i => toString i.toInt
  | long i => toString i.toInt ++ "L"
  | float bits => floatingSource .single "Float" "f" bits.toNat
  | double bits => floatingSource .double "Double" "" bits.toNat
  | str s => Text.quoted '"' (Text.units s)

/-- The literal as it appears in a concatenated string. -/
def display : Literal → String
  | null => "null"
  | bool b => if b then "true" else "false"
  | char u => Text.ofUnit u
  | byte i => toString i.toInt
  | short i => toString i.toInt
  | int i => toString i.toInt
  | long i => toString i.toInt
  | float bits => floatText bits
  | double bits => doubleText bits
  | str s => s

end Literal

end Midend
