import Midend.IdMap
import Midend.IdSet
import Midend.Tree.Expr
import Midend.Value.Basic

/-!
# What is known of the locals

A context binds local variables to the constants they hold at one point of the
program. A variable without a binding is unknown, and binding a variable to the
unknown value removes its binding. The context after two paths meet keeps the
bindings on which both agree: it gives every variable the join of its two values
(`get_join`).
-/

namespace Midend

/-- The known values of local variables at one point of the program. -/
structure Context where
  bindings : IdMap Literal := ∅

namespace Context

instance : EmptyCollection Context := ⟨{}⟩

instance : Inhabited Context := ⟨∅⟩

/-- The value of a variable. -/
def get (c : Context) (v : VarId) : Value := .ofOption (c.bindings.get? v)

/-- The context after an assignment. -/
def bind (c : Context) (v : VarId) : Value → Context
  | .unknown => ⟨c.bindings.erase v⟩
  | .known l => ⟨c.bindings.insert v l⟩

/-- Forgets the values of the given variables. -/
def forget (c : Context) (vs : IdSet) : Context :=
  ⟨c.bindings.filter fun v _ => !vs.contains v⟩

/-- The context after two paths meet. -/
def join (c d : Context) : Context :=
  ⟨c.bindings.filter fun v l => d.bindings.get? v == some l⟩

/-- The bindings by increasing variable. -/
def toList (c : Context) : List (VarId × Literal) := c.bindings.toList

/-- The context with the given assignments, the last to a variable winning. -/
def ofList (vs : List (VarId × Value)) : Context := vs.foldl (fun c (v, x) => c.bind v x) ∅

/-! ## Values -/

@[simp] theorem get_empty (v : VarId) : (∅ : Context).get v = .unknown := rfl

/-- A local is bound to the value, and all others are as before. -/
theorem get_bind (c : Context) (v : VarId) (x : Value) (w : VarId) :
    (c.bind v x).get w = if w = v then x else c.get w := by
  cases x with
  | unknown =>
    simp only [bind, get, IdMap.get?_erase]
    split <;> rfl
  | known l =>
    simp only [bind, get, IdMap.get?_insert]
    split <;> rfl

/-- What is forgotten is unknown, and all other locals are as before. -/
theorem get_forget (c : Context) (vs : IdSet) (v : VarId) :
    (c.forget vs).get v = if v ∈ vs then .unknown else c.get v := by
  simp only [forget, get, IdMap.get?_filter]
  by_cases h : v ∈ vs
  · have : vs.contains v = true := h
    cases c.bindings.get? v <;> simp [this, h, Option.filter_some, Value.ofOption]
  · have : vs.contains v = false := Bool.eq_false_iff.2 h
    cases c.bindings.get? v <;> simp [this, h, Option.filter_some]

/-- Contexts are joined local by local. -/
theorem get_join (c d : Context) (v : VarId) : (c.join d).get v = (c.get v).join (d.get v) := by
  simp only [join, get, IdMap.get?_filter]
  cases hc : c.bindings.get? v with
  | none => simp [Value.ofOption]
  | some l =>
    cases hd : d.bindings.get? v with
    | none => simp [Option.filter_some, Value.ofOption]
    | some m =>
      by_cases h : m = l
      · subst h
        simp [Option.filter_some]
      · have h' : ¬ l = m := fun e => h e.symm
        simp [Option.filter_some, Value.ofOption, Value.join, Value.identical, h, h']

/-- Contexts that know the same of every local are equal. -/
@[ext] theorem ext {c d : Context} (h : ∀ v, c.get v = d.get v) : c = d := by
  cases c with | mk m => cases d with | mk n =>
  congr 1
  ext1 v
  have hv : Value.ofOption (m.get? v) = Value.ofOption (n.get? v) := h v
  revert hv
  cases m.get? v <;> cases n.get? v <;> simp [Value.ofOption]

end Context

end Midend
