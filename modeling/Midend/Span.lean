/-!
# Source spans

A span is a range of byte offsets into the text a body was built from. The span
`0..0` stands for no place at all and is ignored when spans are merged.
-/

namespace Midend

/-- A range `lo..hi` of byte offsets. -/
structure Span where
  lo : Nat
  hi : Nat
deriving DecidableEq, Inhabited

namespace Span

/-- The span of a node that has no place in the text. -/
def dummy : Span := ⟨0, 0⟩

/-- The span between two offsets, in either order. -/
def between (a b : Nat) : Span := if a > b then ⟨b, a⟩ else ⟨a, b⟩

/-- The one-byte span that starts at `lo`. -/
def byte (lo : Nat) : Span := ⟨lo, lo + 1⟩

/-- Whether the span is no place in the text. -/
def isDummy (s : Span) : Bool := s == dummy

/-- The span as it is shown, its ends with two dots between them. -/
def text (s : Span) : String := s.lo.repr ++ ".." ++ s.hi.repr

/-- The span as it appears in logs. -/
def debugText (s : Span) : String := "Span(" ++ s.text ++ ")"

/-- A byte offset as it appears in logs. -/
def positionText (pos : Nat) : String := "BytePos(" ++ pos.repr ++ ")"

/-- Whether `s` encloses `t`. -/
def contains (s t : Span) : Bool := s.lo ≤ t.lo && t.hi ≤ s.hi

/-- The least span that encloses both; a dummy span is ignored. -/
def merge (s t : Span) : Span :=
  if s.isDummy then t
  else if t.isDummy then s
  else between (min s.lo t.lo) (max s.hi t.hi)

/-- The least span that encloses all; dummy if there is none. -/
def joinAll (ss : List Span) : Span := ss.foldl merge dummy

/-- The order by start, then by end. -/
def compare (s t : Span) : Ordering := (Ord.compare s.lo t.lo).then (Ord.compare s.hi t.hi)

/-- The span itself, or `other` in place of the dummy span. -/
def orElse (s other : Span) : Span := if s.isDummy then other else s

end Span

end Midend
