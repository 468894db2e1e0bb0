import Midend.Tree.Expr

/-!
# Structural hashes

A hash is a fold over the items that an expression writes. Every node writes, before
its operands do, the form of its layer, what the layer holds besides operands, and how
many operands there are where that is not the same for all layers of the form.
-/

namespace Midend

/-- An item that is written to a hash. -/
inductive HashItem where
  /-- The form of a layer or of a literal, by its position among the forms. -/
  | form (index : Nat)
  /-- An integer, or the pattern of a floating point number. -/
  | number (n : Int)
  | flag (b : Bool)
  | text (s : String)
  | var (v : VarId)
  | assignment (op : Option BinOp)
  | binary (op : BinOp)
  | unary (op : UnOp)
  | callee (c : Callee)
  | ty (t : Ty)
  | count (n : Nat)
deriving DecidableEq

/-- What a literal writes. -/
def Literal.hashItems : Literal → List HashItem
  | null => [.form 0]
  | bool b => [.form 1, .flag b]
  | char unit => [.form 2, .number unit.toNat]
  | byte i => [.form 3, .number i.toInt]
  | short i => [.form 4, .number i.toInt]
  | int i => [.form 5, .number i.toInt]
  | long i => [.form 6, .number i.toInt]
  | float bits => [.form 7, .number bits.toNat]
  | double bits => [.form 8, .number bits.toNat]
  | str s => [.form 9, .text s]

/-- What a layer writes, without its operands. -/
def ExprKind.hashItems {ε : Type} : ExprKind ε → List HashItem
  | lit l => .form 0 :: l.hashItems
  | var v => [.form 1, .var v]
  | field receiver name isStatic => [.form 2, .text name, .flag isStatic, .flag receiver.isSome]
  | assign _ op _ => [.form 3, .assignment op]
  | binary _ op _ => [.form 4, .binary op]
  | unary op _ => [.form 5, .unary op]
  | paren _ => [.form 6]
  | conditional .. => [.form 7]
  | call receiver callee args =>
    [.form 8, .callee callee, .count args.length, .flag receiver.isSome]
  | create ty args => [.form 9, .ty ty, .count args.length]
  | index .. => [.form 10]
  | cast ty _ => [.form 11, .ty ty]
  | instanceOf _ ty => [.form 12, .ty ty]
  | err => [.form 13]

/-- The state of a hash after the items of the expression are written to it. -/
def Expr.hashInto {σ : Type} (write : σ → HashItem → σ) (state : σ) (e : Expr) : σ :=
  e.subexprs.foldl (fun state s => s.kind.hashItems.foldl write state) state

end Midend
