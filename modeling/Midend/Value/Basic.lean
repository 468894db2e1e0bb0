import Midend.Value.Literal

/-!
# Symbolic values

A value is a constant or unknown. Values of different control flow paths are
merged by `Value.join`, which keeps a constant only if both paths agree on it.
-/

namespace Midend

/-- What is known of a value before the program runs. -/
inductive Value where
  | unknown
  | known (l : Literal)
deriving DecidableEq, Inhabited

/-- The kind of a constant. -/
inductive ValueKind where
  | null
  | prim (p : PrimTy)
  | string
deriving DecidableEq

/-- The name of the kind, as errors show it. -/
def ValueKind.text : ValueKind → String
  | null => "null"
  | prim p => p.text
  | string => "string"

/-- The kind of a literal. -/
def Literal.kind : Literal → ValueKind
  | null => .null
  | str _ => .string
  | bool _ => .prim .boolean
  | char _ => .prim .char
  | byte _ => .prim .byte
  | short _ => .prim .short
  | int _ => .prim .int
  | long _ => .prim .long
  | float _ => .prim .float
  | double _ => .prim .double

namespace Value

/-- The literal that is known to be the value. -/
def literal? : Value → Option Literal
  | unknown => none
  | known l => some l

/-- The value that is a literal, if one is given. -/
def ofOption : Option Literal → Value
  | none => unknown
  | some l => known l

/-- Whether it is known which literal the value is. -/
def isKnown : Value → Bool
  | unknown => false
  | known _ => true

/-- The kind of a known value. -/
def kind? : Value → Option ValueKind
  | unknown => none
  | known l => some l.kind

/-- The truth value that is known to be the value. -/
def bool? : Value → Option Bool
  | known (.bool b) => some b
  | _ => none

/-- Whether the value is known to be a string. -/
def isString : Value → Bool
  | known (.str _) => true
  | _ => false

/-- Whether both values are the same constant. -/
def identical : Value → Value → Bool
  | known a, known b => a == b
  | _, _ => false

/-- The value after two control flow paths meet. -/
def join (a b : Value) : Value := if a.identical b then a else unknown

/-- The value as source text. -/
def text : Value → String
  | unknown => "<unknown>"
  | known l => l.text

/-- The value as it appears in a concatenated string. -/
def display : Value → String
  | unknown => "<unknown>"
  | known l => l.display

/-! ## Joining -/

/-- Values are identical if they are equal and known. -/
theorem identical_iff {a b : Value} : a.identical b = true ↔ a = b ∧ a ≠ unknown := by
  cases a <;> cases b <;> simp [identical]

@[simp] theorem join_unknown (a : Value) : a.join unknown = unknown := by
  cases a <;> simp [join, identical]

@[simp] theorem unknown_join (a : Value) : unknown.join a = unknown := by
  simp [join, identical]

@[simp] theorem join_self (a : Value) : a.join a = a := by
  cases a <;> simp [join, identical]

/-- A join keeps what both sides agree on, or knows nothing. -/
theorem join_eq_or (a b : Value) : a.join b = a ∨ a.join b = unknown := by
  unfold join
  split
  · exact .inl rfl
  · exact .inr rfl

end Value

end Midend
