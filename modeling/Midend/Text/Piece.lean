/-!
# Laid out text

Source text is put together from words, the blanks between them and line breaks.
A word is a token of the text or a run of tokens that is never split.
-/

namespace Midend.Text

/-- A part of a laid out text. -/
inductive Piece where
  | word (s : String)
  | space
  /-- A new line, indented by this many levels. -/
  | newline (indent : Nat)
deriving DecidableEq

namespace Piece

/-- The text of a piece. -/
def render : Piece → String
  | word s => s
  | space => " "
  | newline indent => "\n" ++ String.join (List.replicate indent "    ")

/-- The words among the pieces. -/
def words (ps : List Piece) : List String :=
  ps.filterMap fun
    | word s => some s
    | space | newline _ => none

/-- The text of a list of pieces. -/
def renderAll (ps : List Piece) : String := String.join (ps.map render)

/-- Lists of pieces with a separator between any two. -/
def separated (separator : List Piece) : List (List Piece) → List Piece
  | [] => []
  | p :: ps => p ++ ps.flatMap (separator ++ ·)

/-- Lists of pieces with commas between them. -/
def commaSeparated : List (List Piece) → List Piece := separated [word ",", space]

end Piece

end Midend.Text
