/-!
# Terminal escapes

Styled text carries escape sequences. `strip` gives what a terminal without
styles would show: escape sequences and control characters other than white space
are left out.

Text arrives in several writes, and a sequence may go on from one to the next. A
reader is inside a sequence or on the ground (`State`); what is read there is
decided by `State.scan`. White space is shown inside a short or control sequence
too, and begins a run: within one write, the printable characters after a shown
one are shown as well, wherever the reader stands (`Reader.read`). An escape or
another control character ends the run, and the sequence before it goes on.
-/

namespace Midend.Text.Terminal

/-- The escape sequence with the given parameter. -/
def sequence (parameter : String) : String := "\x1b[" ++ parameter ++ "m"

/-- The sequence that starts bold text. -/
def bold : String := sequence "1"

/-- The sequence that ends every style. -/
def reset : String := sequence "0"

/-! ## Characters -/

/-- White space among the control characters. -/
def isSpacing (c : Char) : Bool :=
  c == '\t' || c == '\n' || c == '\r' || c.toNat == 0x0C

/-- A control character of the first kind, before the space. -/
def isControl (c : Char) : Bool := c.toNat < 0x20

/-- An intermediate character of a sequence. -/
def isIntermediate (c : Char) : Bool := 0x20 ≤ c.toNat && c.toNat < 0x30

/-- A character that ends a short sequence. -/
def isFinal (c : Char) : Bool := 0x30 ≤ c.toNat && c.toNat < 0x7F

/-- A letter or sign that ends a control sequence. -/
def isControlFinal (c : Char) : Bool := 0x40 ≤ c.toNat && c.toNat < 0x7F

/-- A character that a terminal shows. -/
def isShown (c : Char) : Bool := if isControl c then isSpacing c else c.toNat != 0x7F

/-- A character whose encoding holds the byte that terminates strings. -/
def holdsTerminator (c : Char) : Bool := (String.utf8EncodeChar c).contains 0x9C

/-! ## Sequences -/

/-- Where a reader stands. -/
inductive State where
  | ground
  | escape
  /-- After an intermediate character of a short sequence. -/
  | intermediate
  /-- Inside a control sequence, up to its final letter. -/
  | control
  /-- Inside an operating system command, up to a bell. -/
  | command
  /-- At the start of a device control string. -/
  | device
  /-- Among the parameters of a device control string. -/
  | deviceParameter
  /-- Among the intermediate characters of a device control string. -/
  | deviceIntermediate
  /-- Inside a string, up to a terminator. -/
  | string
deriving DecidableEq

/-- What a character does right after an escape. -/
def State.ofIntroducer (c : Char) : State :=
  if c == '[' then control
  else if c == ']' then command
  else if c == 'P' then device
  else if c == 'X' || c == '^' || c == '_' then string
  else if isIntermediate c then intermediate
  else if isFinal c then ground
  else escape

/-- Where a character leads inside a sequence. An escape begins a new one and a cancel ends it. -/
def State.next (s : State) (c : Char) : State :=
  if c.toNat == 0x1B then escape
  else if c.toNat == 0x18 || c.toNat == 0x1A then ground
  else
    match s with
    | ground => ground
    | escape => ofIntroducer c
    | intermediate => if isFinal c then ground else intermediate
    | control => if isControlFinal c then ground else control
    | command => if c.toNat == 0x07 then ground else command
    | device =>
      if isIntermediate c then deviceIntermediate
      else if isControlFinal c then string
      else if isFinal c then deviceParameter
      else device
    | deviceParameter =>
      if isIntermediate c then deviceIntermediate
      else if c.isDigit || c == ':' || c == ';' then deviceParameter
      else if isFinal c then string
      else deviceParameter
    | deviceIntermediate => if isFinal c then string else deviceIntermediate
    | string => if holdsTerminator c then ground else string

/-- Whether a character is shown where the reader stands: anything that can be shown on the
ground, white space in a short or control sequence, and nothing in a string. -/
def State.shows (s : State) (c : Char) : Bool :=
  match s with
  | ground => isShown c
  | escape | intermediate | control => isSpacing c
  | command | device | deviceParameter | deviceIntermediate | string => false

/-! ## Runs -/

/-- A reader of text. -/
structure Reader where
  state : State := .ground
  /-- The last character was shown. -/
  showing : Bool := false

/-- Reads a character; the second component says whether it is shown. In a run a character beyond
ASCII is always plain text, so it leads back to the ground. -/
def Reader.read (r : Reader) (c : Char) : Reader × Bool :=
  if r.showing && isShown c then (⟨if c.toNat < 0x80 then r.state else .ground, true⟩, true)
  else (⟨r.state.next c, r.state.shows c⟩, r.state.shows c)

/-- Reads the characters of a write and gives those that are shown. -/
def Reader.readAll (r : Reader) : List Char → Reader × List Char
  | [] => (r, [])
  | c :: cs =>
    let (r, shown) := r.read c
    let (r, rest) := r.readAll cs
    (r, if shown then c :: rest else rest)

/-- Reads one write after another, each as a run of its own. -/
def Reader.readWrites (r : Reader) : List String → List Char
  | [] => []
  | w :: ws =>
    let (r, shown) := Reader.readAll { r with showing := false } w.toList
    shown ++ r.readWrites ws

/-- The writes without styles. -/
def strip (writes : List String) : String := String.ofList (Reader.readWrites {} writes)

end Midend.Text.Terminal
