import Midend.Effect.Basic
import Midend.IdMap
import Midend.Tree.Callee

/-!
# Effect signatures

The effects of methods that were analysed before. A table keeps its signatures in
the order in which their methods were first recorded, and drops the effects that
no caller can see.
-/

namespace Midend

/-- The recorded effects of a method; none if it was never analysed. -/
abbrev CalleeEffects := Callee → Option EffectSet

/-- Knows no method. -/
def noSignatures : CalleeEffects := fun _ => none

/-- The effects of a call: every effect, unless the method was analysed. -/
def CalleeEffects.ofCall (callees : CalleeEffects) (c : Callee) : EffectSet :=
  match callees c with
  | some s => s.calleeVisible
  | none => .all

/-- Recorded signatures in order. -/
structure SignatureTable where
  toList : List (Callee × EffectSet) := []

namespace SignatureTable

/-- The effects in the table of a callee. -/
def get? (t : SignatureTable) : CalleeEffects := fun c => t.toList.lookup c

/-- Puts a signature over the one of the same method, or at the end. -/
def put (c : Callee) (s : EffectSet) : List (Callee × EffectSet) → List (Callee × EffectSet)
  | [] => [(c, s)]
  | (d, r) :: rest => if d = c then (c, s) :: rest else (d, r) :: put c s rest

/-- Records the effects of a method. -/
def insert (t : SignatureTable) (c : Callee) (s : EffectSet) : SignatureTable :=
  ⟨put c s.calleeVisible t.toList⟩

/-- Records a list of signatures in order. -/
def insertAll (t : SignatureTable) (es : List (Callee × EffectSet)) : SignatureTable :=
  es.foldl (fun t e => t.insert e.1 e.2) t

/-- How many callees are in the table. -/
def size (t : SignatureTable) : Nat := t.toList.length

/-- The entry of a callee is replaced or added, and all others stay. -/
theorem lookup_put (c : Callee) (s : EffectSet) (d : Callee) :
    ∀ es : List (Callee × EffectSet),
      (put c s es).lookup d = if d = c then some s else es.lookup d
  | [] => by rw [put, Assoc.lookup_cons_eq]
  | (k, r) :: rest => by
    unfold put
    split
    · rename_i hk
      subst hk
      rw [Assoc.lookup_cons_eq, Assoc.lookup_cons_eq]
      split <;> simp_all
    · rename_i hk
      rw [Assoc.lookup_cons_eq, Assoc.lookup_cons_eq, lookup_put c s d rest]
      split
      · rename_i hd
        rw [if_neg (hd ▸ hk)]
      · rfl

/-- What callers see of the effects is found for the callee afterwards. -/
theorem get?_insert (t : SignatureTable) (c : Callee) (s : EffectSet) (d : Callee) :
    (t.insert c s).get? d = if d = c then some s.calleeVisible else t.get? d :=
  lookup_put c s.calleeVisible d t.toList

end SignatureTable

end Midend
