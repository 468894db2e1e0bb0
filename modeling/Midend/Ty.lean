/-!
# Types

A type is primitive, a class named by its text, or an array. Arithmetic promotes
the narrow integral types to `int` (`PrimTy.promoted`) and two operands to the
wider of their promoted types (`PrimTy.promotedWith`).
-/

namespace Midend

/-- A primitive type. -/
inductive PrimTy where
  | boolean | char | byte | short | int | long | float | double
deriving DecidableEq

namespace PrimTy

/-- The keyword of the type. -/
def text : PrimTy → String
  | boolean => "boolean"
  | char => "char"
  | byte => "byte"
  | short => "short"
  | int => "int"
  | long => "long"
  | float => "float"
  | double => "double"

/-- All primitive types. -/
def all : List PrimTy := [boolean, char, byte, short, int, long, float, double]

/-- The primitive type with the given name. -/
def ofText? (s : String) : Option PrimTy := all.find? (·.text == s)

/-- Whether the values of the type are numbers. -/
def isNumeric : PrimTy → Bool
  | boolean => false
  | _ => true

/-- The integral types include `char`. -/
def isIntegral : PrimTy → Bool
  | char | byte | short | int | long => true
  | boolean | float | double => false

/-- Unary promotion: a type narrower than `int` widens to it. -/
def promoted : PrimTy → PrimTy
  | char | byte | short => int
  | p => p

/-- Whether unary promotion widens the type. -/
def isNarrow (p : PrimTy) : Bool := p.promoted != p

/-- The position among the promoted numeric types, by increasing width. -/
def rank : PrimTy → Nat
  | boolean | char | byte | short => 0
  | int => 1
  | long => 2
  | float => 3
  | double => 4

/-- Binary promotion: the wider of the two promoted types, if both are numeric. -/
def promotedWith (p q : PrimTy) : Option PrimTy :=
  if p.isNumeric && q.isNumeric then
    some (if p.promoted.rank ≤ q.promoted.rank then q.promoted else p.promoted)
  else none

end PrimTy

/-- A type as written in a declaration or an expression. -/
inductive Ty where
  | prim (p : PrimTy)
  | named (name : String)
  | array (element : Ty)
deriving DecidableEq

namespace Ty

/-- The type as it is written. -/
def text : Ty → String
  | prim p => p.text
  | named name => name
  | array element => element.text ++ "[]"

/-- The type of string literals. -/
def string : Ty := named "String"

/-- The primitive type that this type is, if it is one. -/
def prim? : Ty → Option PrimTy
  | prim p => some p
  | _ => none

/-- Whether `null` has the type. -/
def isReference : Ty → Bool
  | prim _ => false
  | _ => true

/-- Whether the type is the string class, under its short or its full name. -/
def isString : Ty → Bool
  | named name => name == "String" || name == "java.lang.String"
  | _ => false

/-- The name of the class that declares the methods of values of this type. -/
def ownerName : Ty → String
  | named name => name
  | ty => ty.text

/-- Reads reversed text: a closing pair of brackets makes an array type. -/
def ofReversed : List Char → Ty
  | ']' :: '[' :: rest => array (ofReversed rest)
  | cs =>
    let s := String.ofList cs.reverse
    match PrimTy.ofText? s with
    | some p => prim p
    | none => named s

/-- The type with the given text: a keyword, an element type followed by brackets, or the name of
a class. -/
def ofText (s : String) : Ty := ofReversed s.toList.reverse

end Ty

end Midend
