import Midend.Operator
import Midend.Span
import Midend.Tree.Callee
import Midend.Value.Literal

/-!
# Expressions

`ExprKind ε` is one layer of an expression whose operands are of type `ε`. With
identifiers for operands it is a node of a body's arena; with trees for operands
it is a tree (`Expr`), whose nodes keep their identifiers. Passes over expressions
are recursive functions on the trees, and results are reported by identifier.
-/

namespace Midend

/-- A variable of a body. -/
abbrev VarId := Nat

/-- An expression of a body. -/
abbrev ExprId := Nat

/-- One layer of an expression. -/
inductive ExprKind (ε : Type) where
  | lit (l : Literal)
  /-- A local variable or parameter. -/
  | var (v : VarId)
  /-- A field. Without a receiver it is static or a field of the current object. -/
  | field (receiver : Option ε) (name : String) (isStatic : Bool)
  /-- An assignment, compound if it has an operator. -/
  | assign (target : ε) (op : Option BinOp) (value : ε)
  | binary (left : ε) (op : BinOp) (right : ε)
  | unary (op : UnOp) (operand : ε)
  | paren (inner : ε)
  | conditional (cond onTrue onFalse : ε)
  | call (receiver : Option ε) (callee : Callee) (args : List ε)
  | create (ty : Ty) (args : List ε)
  | index (array index : ε)
  | cast (ty : Ty) (operand : ε)
  | instanceOf (operand : ε) (ty : Ty)
  /-- An expression that could not be represented. -/
  | err
deriving DecidableEq

/-- Replaces one slot, if it holds `old`. -/
def swapSlot {ε : Type} [DecidableEq ε] (old new slot : ε) : Option ε :=
  if slot = old then some new else none

/-- Replaces the first slot of a list that holds `old`; none if there is no such slot. -/
def swapFirst {ε : Type} [DecidableEq ε] (old new : ε) : List ε → Option (List ε)
  | [] => none
  | slot :: rest =>
    if slot = old then some (new :: rest) else (swapFirst old new rest).map (slot :: ·)

namespace ExprKind

variable {ε δ : Type}

/-- The operands in evaluation order. -/
def children : ExprKind ε → List ε
  | lit _ | var _ | err => []
  | field receiver .. => receiver.toList
  | assign l _ r | binary l _ r | index l r => [l, r]
  | unary _ e | paren e | cast _ e | instanceOf e _ => [e]
  | conditional c t f => [c, t, f]
  | call receiver _ args => receiver.toList ++ args
  | create _ args => args

/-- Applies `f` to every operand. -/
def map (f : ε → δ) : ExprKind ε → ExprKind δ
  | lit l => lit l
  | var v => var v
  | field receiver name isStatic => field (receiver.map f) name isStatic
  | assign l op r => assign (f l) op (f r)
  | binary l op r => binary (f l) op (f r)
  | unary op e => unary op (f e)
  | paren e => paren (f e)
  | conditional c t e => conditional (f c) (f t) (f e)
  | call receiver callee args => call (receiver.map f) callee (args.map f)
  | create ty args => create ty (args.map f)
  | index a i => index (f a) (f i)
  | cast ty e => cast ty (f e)
  | instanceOf e ty => instanceOf (f e) ty
  | err => err

/-- Only what `f` does to the operands matters. -/
theorem map_congr {f g : ε → δ} {k : ExprKind ε} (h : ∀ e ∈ k.children, f e = g e) :
    k.map f = k.map g := by
  cases k with
  | field receiver name isStatic =>
    cases receiver <;> simp_all [children, map]
  | call receiver callee args =>
    cases receiver <;> simp_all [children, map]
  | _ => simp_all [children, map]

/-- Replaces the first operand equal to `old`; none if there is no such operand. -/
def replaceChild [DecidableEq ε] (old new : ε) : ExprKind ε → Option (ExprKind ε)
  | lit _ | var _ | err => none
  | field receiver name isStatic =>
    (receiver.bind (swapSlot old new)).map fun r => field (some r) name isStatic
  | assign l op r =>
    ((swapSlot old new l).map fun l => assign l op r) <|>
      (swapSlot old new r).map fun r => assign l op r
  | binary l op r =>
    ((swapSlot old new l).map fun l => binary l op r) <|>
      (swapSlot old new r).map fun r => binary l op r
  | index l r =>
    ((swapSlot old new l).map fun l => index l r) <|>
      (swapSlot old new r).map fun r => index l r
  | unary op e => (swapSlot old new e).map (unary op)
  | paren e => (swapSlot old new e).map paren
  | cast ty e => (swapSlot old new e).map (cast ty)
  | instanceOf e ty => (swapSlot old new e).map fun e => instanceOf e ty
  | conditional c t f =>
    ((swapSlot old new c).map fun c => conditional c t f) <|>
      ((swapSlot old new t).map fun t => conditional c t f) <|>
        (swapSlot old new f).map fun f => conditional c t f
  | call receiver callee args =>
    ((receiver.bind (swapSlot old new)).map fun r => call (some r) callee args) <|>
      (swapFirst old new args).map fun args => call receiver callee args
  | create ty args => (swapFirst old new args).map (create ty)

/-- The literal that the layer is, if it is one. -/
def literal? : ExprKind ε → Option Literal
  | lit l => some l
  | _ => none

/-- Whether the layer is a literal. -/
def isLiteral (k : ExprKind ε) : Bool := k.literal?.isSome

/-- What the layer is, in words. -/
def description : ExprKind ε → String
  | lit _ => "literal"
  | var _ => "variable"
  | field .. => "field access"
  | assign _ none _ => "assignment"
  | assign _ (some _) _ => "compound assignment"
  | binary .. => "binary operation"
  | unary .. => "unary operation"
  | paren _ => "parenthesized expression"
  | conditional .. => "conditional expression"
  | call .. => "method call"
  | create .. => "instance creation"
  | index .. => "array access"
  | cast .. => "cast"
  | instanceOf .. => "`instanceof` test"
  | err => "erroneous expression"

end ExprKind

/-- An expression tree. Every node keeps its identifier. -/
inductive Expr where
  | node (id : ExprId) (kind : ExprKind Expr)

namespace Expr

/-- The identifier of an expression. -/
def id : Expr → ExprId
  | node id _ => id

/-- The layer at the root of an expression. -/
def kind : Expr → ExprKind Expr
  | node _ kind => kind

/-- The expression inside any parentheses. -/
def peel : Expr → Expr
  | node _ (.paren inner) => inner.peel
  | e => e

/-- The variable written by an assignment to this target. -/
def localTarget? (e : Expr) : Option VarId :=
  match e.peel.kind with
  | .var v => some v
  | _ => none

/-- Whether the expression can be assigned to. -/
def isLvalue (e : Expr) : Bool :=
  match e.peel.kind with
  | .var _ | .field .. | .index .. => true
  | _ => false

/-- The target of an assignment or step. -/
def target? (e : Expr) : Option Expr :=
  match e.kind with
  | .assign l _ _ => some l
  | .unary (.step _) operand => some operand
  | _ => none

mutual

/-- The expression and all its operands, each before its own operands. -/
def subexprs : Expr → List Expr
  | node id kind => node id kind :: subexprsOfKind kind

/-- The expressions below a layer, parents before children. -/
def subexprsOfKind : ExprKind Expr → List Expr
  | .lit _ | .var _ | .err | .field none .. => []
  | .field (some r) .. => r.subexprs
  | .assign l _ r | .binary l _ r | .index l r => l.subexprs ++ r.subexprs
  | .unary _ e | .paren e | .cast _ e | .instanceOf e _ => e.subexprs
  | .conditional c t f => c.subexprs ++ (t.subexprs ++ f.subexprs)
  | .call none _ args => subexprsOfList args
  | .call (some r) _ args => r.subexprs ++ subexprsOfList args
  | .create _ args => subexprsOfList args

/-- The expressions of a list and those below them. -/
def subexprsOfList : List Expr → List Expr
  | [] => []
  | e :: es => e.subexprs ++ subexprsOfList es

end

/-- The variables that an evaluation may write. -/
def written (e : Expr) : List VarId :=
  e.subexprs.filterMap fun s => s.target?.bind localTarget?

end Expr

end Midend
