/-!
# Effects

What evaluating a node may do besides giving a value. Sets of effects form a
lattice under union, with `EffectSet.none` at the bottom and `EffectSet.all`, the
cautious answer, at the top.
-/

namespace Midend

/-- A kind of effect. -/
inductive EffectKind where
  | readLocal
  | writeLocal
  /-- Reads a field or an array element. -/
  | readGlobal
  /-- Writes a field or an array element. -/
  | writeGlobal
  | exception
deriving DecidableEq

namespace EffectKind

/-- The name of the effect. -/
def text : EffectKind → String
  | readLocal => "read-local"
  | writeLocal => "write-local"
  | readGlobal => "read-global"
  | writeGlobal => "write-global"
  | exception => "exception"

/-- All kinds of effects. -/
def all : List EffectKind := [readLocal, writeLocal, readGlobal, writeGlobal, exception]

/-- The kind of effect with the given name. -/
def ofText? (s : String) : Option EffectKind := all.find? (·.text == s)

/-- The position of the kind in a bit mask. -/
def position : EffectKind → Nat
  | readLocal => 0
  | writeLocal => 1
  | readGlobal => 2
  | writeGlobal => 3
  | exception => 4

end EffectKind

/-- A set of effects. -/
structure EffectSet where
  readLocal : Bool := false
  writeLocal : Bool := false
  readGlobal : Bool := false
  writeGlobal : Bool := false
  exception : Bool := false
deriving DecidableEq, Inhabited

namespace EffectSet

/-- Whether the kind is in the set. -/
def has (s : EffectSet) : EffectKind → Bool
  | .readLocal => s.readLocal
  | .writeLocal => s.writeLocal
  | .readGlobal => s.readGlobal
  | .writeGlobal => s.writeGlobal
  | .exception => s.exception

/-- The set of the kinds that satisfy `p`. -/
def ofPred (p : EffectKind → Bool) : EffectSet :=
  ⟨p .readLocal, p .writeLocal, p .readGlobal, p .writeGlobal, p .exception⟩

/-- No effect. -/
def none : EffectSet := ofPred fun _ => false

/-- Every effect. -/
def all : EffectSet := ofPred fun _ => true

/-- One effect. -/
def singleton (k : EffectKind) : EffectSet := ofPred (· == k)

/-- The effects of a list. -/
def ofList (ks : List EffectKind) : EffectSet := ofPred ks.contains

/-- The effects of either set. -/
def union (s t : EffectSet) : EffectSet := ofPred fun k => s.has k || t.has k

instance : Union EffectSet := ⟨union⟩

/-- The effects of both sets. -/
def inter (s t : EffectSet) : EffectSet := ofPred fun k => s.has k && t.has k

instance : Inter EffectSet := ⟨inter⟩

/-- The effects of `s` that are not in `t`. -/
def diff (s t : EffectSet) : EffectSet := ofPred fun k => s.has k && !t.has k

instance : SDiff EffectSet := ⟨diff⟩

/-- The union of a list of sets. -/
def unions (ss : List EffectSet) : EffectSet := ss.foldl (· ∪ ·) none

/-- Whether every effect of `t` is in `s`. -/
def contains (s t : EffectSet) : Bool := EffectKind.all.all fun k => !t.has k || s.has k

/-- Whether the sets have an effect in common. -/
def intersects (s t : EffectSet) : Bool := EffectKind.all.any fun k => s.has k && t.has k

/-- Whether there is no effect. -/
def isEmpty (s : EffectSet) : Bool := s == none

/-- The kinds in the set, in declaration order. -/
def kinds (s : EffectSet) : List EffectKind := EffectKind.all.filter s.has

/-- The set as a bit mask. -/
def bits (s : EffectSet) : Nat := s.kinds.foldl (fun n k => n ||| 1 <<< k.position) 0

/-- Whether nothing can be observed of an evaluation: it reads locals at most. -/
def isPure (s : EffectSet) : Bool := (s \ singleton .readLocal).isEmpty

/-- Whether any storage is written. -/
def hasWrites (s : EffectSet) : Bool := s.writeLocal || s.writeGlobal

/-- The effects a caller can see: a method's accesses to its own locals are not among them. -/
def calleeVisible (s : EffectSet) : EffectSet := s \ ofList [.readLocal, .writeLocal]

/-- The names of the effects, as they are shown. -/
def text (s : EffectSet) : String :=
  if s.isEmpty then "none" else " | ".intercalate (s.kinds.map EffectKind.text)

/-- The set as it appears in logs. -/
def debugText (s : EffectSet) : String := "EffectSet(" ++ s.text ++ ")"

/-! ## Membership -/

@[simp] theorem has_ofPred (p : EffectKind → Bool) (k : EffectKind) : (ofPred p).has k = p k := by
  cases k <;> rfl

/-- Sets that have the same effects are equal. -/
@[ext] theorem ext {s t : EffectSet} (h : ∀ k, s.has k = t.has k) : s = t := by
  cases s
  cases t
  simpa [has] using
    And.intro (h .readLocal) (And.intro (h .writeLocal) (And.intro (h .readGlobal)
      (And.intro (h .writeGlobal) (h .exception))))

@[simp] theorem has_union (s t : EffectSet) (k : EffectKind) :
    (s ∪ t).has k = (s.has k || t.has k) := has_ofPred _ k

@[simp] theorem has_inter (s t : EffectSet) (k : EffectKind) :
    (s ∩ t).has k = (s.has k && t.has k) := has_ofPred _ k

@[simp] theorem has_diff (s t : EffectSet) (k : EffectKind) :
    (s \ t).has k = (s.has k && !t.has k) := has_ofPred _ k

@[simp] theorem has_none (k : EffectKind) : none.has k = false := has_ofPred _ k

@[simp] theorem has_all (k : EffectKind) : all.has k = true := has_ofPred _ k

/-- A set contains another if it has every effect of the other. -/
theorem contains_iff {s t : EffectSet} :
    s.contains t = true ↔ ∀ k, t.has k = true → s.has k = true := by
  constructor
  · intro h k
    have : k ∈ EffectKind.all := by cases k <;> decide
    have := List.all_eq_true.1 h k this
    cases ht : t.has k <;> simp_all
  · intro h
    refine List.all_eq_true.2 fun k _ => ?_
    have := h k
    cases ht : t.has k <;> simp_all

end EffectSet

end Midend
