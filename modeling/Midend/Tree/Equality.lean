import Midend.Tree.Expr

/-!
# Structural equality

Two expressions are equal when they are the same node or have the same layer and
equal operands. Erroneous expressions are equal to nothing but themselves. The
fingerprint lists the layers of an expression without its operands' identities, so
equal expressions have the same fingerprint.
-/

namespace Midend.Expr

mutual

/-- Whether two expressions are structurally equal. -/
def sameAs : Expr → Expr → Bool
  | node i k, node j l => i == j || kindSameAs k l

/-- Whether two layers are the same but for identifiers. -/
def kindSameAs : ExprKind Expr → ExprKind Expr → Bool
  | .lit a, .lit b => a == b
  | .var v, .var w => v == w
  | .field none n s, .field none m t => n == m && s == t
  | .field (some r) n s, .field (some q) m t => n == m && s == t && r.sameAs q
  | .assign l op r, .assign l' op' r' => op == op' && l.sameAs l' && r.sameAs r'
  | .binary l op r, .binary l' op' r' => op == op' && l.sameAs l' && r.sameAs r'
  | .unary op e, .unary op' e' => op == op' && e.sameAs e'
  | .paren e, .paren e' => e.sameAs e'
  | .conditional c t f, .conditional c' t' f' => c.sameAs c' && t.sameAs t' && f.sameAs f'
  | .call none c as, .call none d bs => c == d && listSameAs as bs
  | .call (some r) c as, .call (some q) d bs => c == d && r.sameAs q && listSameAs as bs
  | .create t as, .create u bs => t == u && listSameAs as bs
  | .index a i, .index a' i' => a.sameAs a' && i.sameAs i'
  | .cast t e, .cast u e' => t == u && e.sameAs e'
  | .instanceOf e t, .instanceOf e' u => t == u && e.sameAs e'
  | _, _ => false

/-- Whether two lists of expressions are the same, one by one. -/
def listSameAs : List Expr → List Expr → Bool
  | [], [] => true
  | a :: as, b :: bs => a.sameAs b && listSameAs as bs
  | _, _ => false

end

/-- A layer without its operands, and how many it has. -/
def layer (e : Expr) : ExprKind Unit := e.kind.map fun _ => ()

/-- The layers of the expression and its operands, each before its own operands. -/
def fingerprint (e : Expr) : List (ExprKind Unit) := e.subexprs.map layer

end Midend.Expr
