import Midend.Text.Piece
import Midend.Tree.Stmt
import Midend.Tree.Typing

/-!
# Source text of trees

An operand is put in parentheses when it binds less tightly than its position
asks for, in addition to the parentheses that are nodes of the tree. A statement
inside braces stands on a line of its own; the body of a branch or loop that is no
block is indented on the next line.
-/

namespace Midend

open Text (Piece)

/-- What the printer has to know of the variables. -/
structure Scope where
  name : VarId → String
  ty : TyEnv

namespace Precedence

/-- The level of assignments, the lowest. -/
def assignment : Nat := 1

/-- The level of conditional expressions. -/
def conditional : Nat := 2

/-- The level of type tests. -/
def instanceTest : Nat := 9

/-- Of unary operators before their operand, and of casts. -/
def unary : Nat := 13

/-- Of unary operators after their operand. -/
def unaryAfter : Nat := 14

/-- The level of what never needs parentheses. -/
def primary : Nat := 15

end Precedence

/-- Whether the text of the literal starts with the character. -/
def Literal.startsWith (l : Literal) (c : Char) : Bool := l.text.toList.head? == some c

/-- How tightly a layer binds in text. -/
def ExprKind.precedence {ε : Type} : ExprKind ε → Nat
  | assign .. => Precedence.assignment
  | conditional .. => Precedence.conditional
  | binary _ op _ => op.precedence
  | instanceOf .. => Precedence.instanceTest
  | unary op _ => if op.isAfter then Precedence.unaryAfter else Precedence.unary
  | cast .. | lit (.byte _) | lit (.short _) => Precedence.unary
  | lit l => if l.startsWith '-' then Precedence.unary else Precedence.primary
  | _ => Precedence.primary

/-- Whether a sign written right before the operand would merge with it into another token. -/
def ExprKind.mergesWith {ε : Type} (op : UnOp) (operand : ExprKind ε) : Bool :=
  match op.text.toList.head? with
  | none => false
  | some c =>
    (c == '+' || c == '-') &&
      match operand with
      | unary inner _ => !inner.isAfter && inner.text.toList.head? == some c
      | lit l => l.startsWith c
      | _ => false

/-- The pieces in parentheses, if asked for. -/
def parenthesized (yes : Bool) (ps : List Piece) : List Piece :=
  if yes then .word "(" :: ps ++ [.word ")"] else ps

namespace Expr

/-- Arguments in parentheses. -/
def argPieces (args : List (List Piece)) : List Piece :=
  .word "(" :: Piece.commaSeparated args ++ [.word ")"]

mutual

/-- An expression at a position that asks for at least the given precedence. -/
def pieces (sc : Scope) (least : Nat) : Expr → List Piece
  | node _ kind => parenthesized (kind.precedence < least) (kindPieces sc kind)

/-- The text of a layer. -/
def kindPieces (sc : Scope) : ExprKind Expr → List Piece
  | .lit l => [.word l.text]
  | .var v => [.word (sc.name v)]
  | .field none name isStatic =>
    (if isStatic then [] else [.word "this", .word "."]) ++ [.word name]
  | .field (some r) name _ => r.pieces sc Precedence.primary ++ [.word ".", .word name]
  | .assign l op r =>
    l.pieces sc Precedence.unary ++ [.space, .word ((op.elim "" BinOp.text) ++ "="), .space] ++
      r.pieces sc Precedence.assignment
  | .binary l op r =>
    l.pieces sc op.precedence ++ [.space, .word op.text, .space] ++
      r.pieces sc (op.precedence + 1)
  | .unary op operand =>
    if op.isAfter then operand.pieces sc Precedence.unaryAfter ++ [.word op.text]
    else
      .word op.text :: (if operand.kind.mergesWith op then [.space] else []) ++
        operand.pieces sc Precedence.unary
  | .paren inner => .word "(" :: inner.pieces sc 0 ++ [.word ")"]
  | .conditional c t f =>
    c.pieces sc (Precedence.conditional + 1) ++ [.space, .word "?", .space] ++
      t.pieces sc Precedence.assignment ++ [.space, .word ":", .space] ++
        f.pieces sc Precedence.conditional
  | .call none callee args => .word callee.name :: argPieces (piecesOfArgs sc args)
  | .call (some r) callee args =>
    r.pieces sc Precedence.primary ++ [.word ".", .word callee.name] ++
      argPieces (piecesOfArgs sc args)
  | .create ty args => [.word "new", .space, .word ty.text] ++ argPieces (piecesOfArgs sc args)
  | .index a i =>
    a.pieces sc Precedence.primary ++ [.word "["] ++ i.pieces sc 0 ++ [.word "]"]
  | .cast ty e =>
    [.word "(", .word ty.text, .word ")", .space] ++ e.pieces sc Precedence.unary
  | .instanceOf e ty =>
    e.pieces sc Precedence.instanceTest ++ [.space, .word "instanceof", .space, .word ty.text]
  | .err => [.word "/* error */"]

/-- The texts of arguments. -/
def piecesOfArgs (sc : Scope) : List Expr → List (List Piece)
  | [] => []
  | e :: es => e.pieces sc Precedence.assignment :: piecesOfArgs sc es

end

/-- Every argument is printed at the lowest level. -/
theorem piecesOfArgs_eq (sc : Scope) (es : List Expr) :
    piecesOfArgs sc es = es.map (pieces sc Precedence.assignment) := by
  induction es with
  | nil => rfl
  | cons e es ih => rw [piecesOfArgs, ih, List.map_cons]

/-- The source text of an expression. -/
def text (sc : Scope) (e : Expr) : String := Piece.renderAll (e.pieces sc 0)

end Expr

namespace Stmt

/-- The type and name of a variable. -/
def varPieces (sc : Scope) (v : VarId) : List Piece :=
  [.word ((sc.ty v).elim "" Ty.text), .space, .word (sc.name v)]

/-- A declaration without its semicolon. -/
def declPieces (sc : Scope) (v : VarId) (init : Option Expr) : List Piece :=
  varPieces sc v ++
    init.elim [] fun e => [.space, .word "=", .space] ++ e.pieces sc Precedence.assignment

/-- A keyword followed by an expression in parentheses. -/
def headPieces (sc : Scope) (keyword : String) (e : Expr) : List Piece :=
  [.word keyword, .space, .word "("] ++ e.pieces sc 0 ++ [.word ")"]

/-- Whether the statement has braces of its own. -/
def isBlock (s : Stmt) : Bool := s.kind.isBlock

/-- Whether the statement is an `if`. -/
def isBranch (s : Stmt) : Bool :=
  match s.kind with
  | .branch .. => true
  | _ => false

/-- What separates the end of a branch or loop body from the keyword that follows it. -/
def afterNested (indent : Nat) (s : Stmt) : Piece :=
  if s.isBlock then .space else .newline indent

/-- The body of a branch or loop, given its pieces at any indentation. -/
def nested (indent : Nat) (isBlock : Bool) (body : Nat → List Piece) : List Piece :=
  if isBlock then .space :: body indent else .newline (indent + 1) :: body (indent + 1)

/-- Statements in braces, given their lines. -/
def braced (indent : Nat) (lines : List Piece) : List Piece :=
  if lines.isEmpty then [.word "\x7b", .word "\x7d"]
  else .word "\x7b" :: lines ++ [.newline indent, .word "\x7d"]

mutual

/-- A statement whose first line is already indented to the given level. -/
def pieces (sc : Scope) (indent : Nat) : Stmt → List Piece
  | node _ kind => kindPieces sc indent kind

/-- The text of a layer, at the given indentation. -/
def kindPieces (sc : Scope) (indent : Nat) : StmtKind Expr Stmt → List Piece
  | .decl v init => declPieces sc v init ++ [.word ";"]
  | .expr e => e.pieces sc 0 ++ [.word ";"]
  | .block body => braced indent (lines sc (indent + 1) body)
  | .branch cond t none =>
    headPieces sc "if" cond ++ nested indent t.isBlock fun n => t.pieces sc n
  | .branch cond t (some f) =>
    headPieces sc "if" cond ++ nested indent t.isBlock (fun n => t.pieces sc n) ++
      [afterNested indent t, .word "else"] ++
        (if f.isBranch then .space :: f.pieces sc indent
         else nested indent f.isBlock fun n => f.pieces sc n)
  | .whileLoop cond body =>
    headPieces sc "while" cond ++ nested indent body.isBlock fun n => body.pieces sc n
  | .doLoop body cond =>
    .word "do" :: nested indent body.isBlock (fun n => body.pieces sc n) ++
      afterNested indent body :: headPieces sc "while" cond ++ [.word ";"]
  | .forLoop init cond update body =>
    [.word "for", .space, .word "("] ++ Piece.commaSeparated (bareList sc indent init) ++
      [.word ";"] ++ cond.elim [] (fun e => .space :: e.pieces sc 0) ++ [.word ";"] ++
      (if update.isEmpty then []
       else .space :: Piece.commaSeparated (update.map fun e => e.pieces sc 0)) ++
      [.word ")"] ++ nested indent body.isBlock fun n => body.pieces sc n
  | .forEach v iterable body =>
    [.word "for", .space, .word "("] ++ varPieces sc v ++ [.space, .word ":", .space] ++
      iterable.pieces sc 0 ++ [.word ")"] ++ nested indent body.isBlock fun n => body.pieces sc n
  | .switch selector cases =>
    headPieces sc "switch" selector ++ [.space, .word "\x7b"] ++ casePieces sc indent cases ++
      [.newline indent, .word "\x7d"]
  | .guarded resources body catches finalizer =>
    [.word "try", .space] ++
      (if resources.isEmpty then []
       else .word "(" :: Piece.separated [.word ";", .space] (declList sc indent resources) ++
         [.word ")", .space]) ++
      braced indent (lines sc (indent + 1) body) ++ catchPieces sc indent catches ++
      finalizerPieces sc indent finalizer
  | .throw e => [.word "throw", .space] ++ e.pieces sc 0 ++ [.word ";"]
  | .assert cond message =>
    [.word "assert", .space] ++ cond.pieces sc 0 ++
      message.elim [] (fun e => [.space, .word ":", .space] ++ e.pieces sc 0) ++ [.word ";"]
  | .ret e => .word "return" :: e.elim [] (fun e => .space :: e.pieces sc 0) ++ [.word ";"]
  | .breakOut => [.word "break", .word ";"]
  | .continueLoop => [.word "continue", .word ";"]
  | .empty => [.word ";"]
  | .err => [.word "/* error */", .word ";"]

/-- Each statement on a line of its own. -/
def lines (sc : Scope) (indent : Nat) : List Stmt → List Piece
  | [] => []
  | s :: ss => .newline indent :: s.pieces sc indent ++ lines sc indent ss

/-- Declarations and expressions without their semicolons, other statements in full. -/
def bareList (sc : Scope) (indent : Nat) : List Stmt → List (List Piece)
  | [] => []
  | node _ (.decl v init) :: ss => declPieces sc v init :: bareList sc indent ss
  | node _ (.expr e) :: ss => e.pieces sc 0 :: bareList sc indent ss
  | s :: ss => s.pieces sc indent :: bareList sc indent ss

/-- Declarations without their semicolons, other statements in full. -/
def declList (sc : Scope) (indent : Nat) : List Stmt → List (List Piece)
  | [] => []
  | node _ (.decl v init) :: ss => declPieces sc v init :: declList sc indent ss
  | s :: ss => s.pieces sc indent :: declList sc indent ss

/-- The text of the groups of a switch. -/
def casePieces (sc : Scope) (indent : Nat) : List (SwitchCase Expr Stmt) → List Piece
  | [] => []
  | ⟨_, labels, body⟩ :: cs =>
    .newline indent ::
      (if labels.isEmpty then [.word "default"]
       else [.word "case", .space] ++ Piece.commaSeparated (labels.map fun e => e.pieces sc 0)) ++
      [.word ":"] ++ lines sc (indent + 1) body ++ casePieces sc indent cs

/-- The text of handlers. -/
def catchPieces (sc : Scope) (indent : Nat) : List (CatchClause Stmt) → List Piece
  | [] => []
  | ⟨_, param, body⟩ :: cs =>
    [.space, .word "catch", .space, .word "("] ++ varPieces sc param ++ [.word ")", .space] ++
      braced indent (lines sc (indent + 1) body) ++ catchPieces sc indent cs

/-- The text of a finalizer, if there is one. -/
def finalizerPieces (sc : Scope) (indent : Nat) : Option (List Stmt) → List Piece
  | none => []
  | some body =>
    [.space, .word "finally", .space] ++ braced indent (lines sc (indent + 1) body)

end

/-- The source text of a statement. -/
def text (sc : Scope) (s : Stmt) : String := Piece.renderAll (s.pieces sc 0)

/-- The source text of a list of statements in braces. -/
def blockText (sc : Scope) (ss : List Stmt) : String :=
  Piece.renderAll (braced 0 (lines sc 1 ss))

end Stmt

end Midend
