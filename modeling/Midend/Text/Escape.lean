/-!
# Code units and quoted text

Text is measured in 16-bit code units: a character below `U+10000` is one unit,
any other is a pair of surrogate units. A surrogate unit on its own is no
character.

Between quotes a line feed, a tab, a carriage return, a backslash and the quote
itself are written with a backslash. Control characters and surrogate units are
written `\uXXXX` in hexadecimal, and every other character stands for itself.
-/

namespace Midend.Text

/-- Whether a code unit is half of a pair. -/
def isSurrogate (u : UInt16) : Bool := 0xD800 ≤ u && u ≤ 0xDFFF

/-- The code units of a character. -/
def unitsOf (c : Char) : List UInt16 :=
  if c.val < 0x10000 then [c.val.toUInt16]
  else
    let v := c.val - 0x10000
    [(0xD800 : UInt16) + (v >>> 10).toUInt16, (0xDC00 : UInt16) + (v &&& 0x3FF).toUInt16]

/-- The code units of a text. -/
def units (s : String) : List UInt16 := s.toList.flatMap unitsOf

/-- The character of a single code unit; none for a surrogate. -/
def charOf? (u : UInt16) : Option Char :=
  if isSurrogate u then none else some (Char.ofNat u.toNat)

/-- The text of a single code unit, with the replacement character for a surrogate. -/
def ofUnit (u : UInt16) : String := String.singleton ((charOf? u).getD '\uFFFD')

/-- Whether a character is a control character: `U+0000` to `U+001F` and `U+007F` to `U+009F`. -/
def isControl (c : Char) : Bool :=
  c.toNat ≤ 0x1F || (0x7F ≤ c.toNat && c.toNat ≤ 0x9F)

/-- The last four hexadecimal digits of a code unit, in lower case. -/
def hex4 (u : UInt16) : List Char :=
  [12, 8, 4, 0].map fun shift => Nat.digitChar (u.toNat >>> shift % 16)

/-- A code unit inside quotes. -/
def escapeUnit (quote : Char) (u : UInt16) : List Char :=
  match charOf? u with
  | some '\n' => ['\\', 'n']
  | some '\t' => ['\\', 't']
  | some '\r' => ['\\', 'r']
  | some '\\' => ['\\', '\\']
  | some c =>
    if c = quote then ['\\', c]
    else if isControl c then '\\' :: 'u' :: hex4 u
    else [c]
  | none => '\\' :: 'u' :: hex4 u

/-- Code units between quotes. -/
def quoted (quote : Char) (us : List UInt16) : String :=
  String.ofList (quote :: us.flatMap (escapeUnit quote) ++ [quote])

end Midend.Text
