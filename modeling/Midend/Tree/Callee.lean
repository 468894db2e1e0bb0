import Midend.Ty

/-!
# Called methods

A method is known to its callers by the type that declares it, its name and its
number of parameters.
-/

namespace Midend

/-- The identity of a called method. -/
structure Callee where
  owner : String
  name : String
  arity : Nat
deriving DecidableEq

namespace Callee

/-- The name of every constructor. -/
def constructorName : String := "<init>"

/-- The constructor of a class. -/
def ofConstructor (owner : String) (arity : Nat) : Callee := ⟨owner, constructorName, arity⟩

/-- Whether the callee makes an object. -/
def isConstructor (c : Callee) : Bool := c.name == constructorName

/-- The callee as it is shown: its owner, its name and its number of arguments. -/
def text (c : Callee) : String := c.owner ++ "." ++ c.name ++ "/" ++ c.arity.repr

/-- The order by owner, then name, then arity. -/
def compare (c d : Callee) : Ordering :=
  ((Ord.compare c.owner d.owner).then (Ord.compare c.name d.name)).then
    (Ord.compare c.arity d.arity)

end Callee

end Midend
