import Midend.Effect.Propagation

/-!
# What effects cover

The effects of a node cover those of everything in it. An expression that writes
the heap has an operand that does (`Expr.writeGlobal_effects`), and the effects of
a statement contain those of all statements nested in it (`Stmt.has_effects`).
-/

namespace Midend

namespace EffectSet

@[simp] theorem writeLocal_union (s t : EffectSet) :
    (s ∪ t).writeLocal = (s.writeLocal || t.writeLocal) := rfl

@[simp] theorem readGlobal_union (s t : EffectSet) :
    (s ∪ t).readGlobal = (s.readGlobal || t.readGlobal) := rfl

@[simp] theorem writeGlobal_union (s t : EffectSet) :
    (s ∪ t).writeGlobal = (s.writeGlobal || t.writeGlobal) := rfl

@[simp] theorem writeGlobal_globalWrite (reads : Bool) :
    (globalWrite reads).writeGlobal = true := by
  cases reads <;> rfl

@[simp] theorem writeLocal_localWrite (reads : Bool) : (localWrite reads).writeLocal = true := by
  cases reads <;> rfl

/-- A union over a list has the effects of its members. -/
theorem has_foldl_union {k : EffectKind} {ss : List EffectSet} :
    ∀ {t : EffectSet}, (ss.foldl (· ∪ ·) t).has k = true ↔
      t.has k = true ∨ ∃ s ∈ ss, s.has k = true := by
  induction ss with
  | nil => simp
  | cons s ss ih =>
    intro t
    rw [List.foldl_cons, ih, has_union, Bool.or_eq_true, or_assoc]
    simp

/-- A union has the effects of its members. -/
theorem has_unions {k : EffectKind} {ss : List EffectSet} :
    (unions ss).has k = true ↔ ∃ s ∈ ss, s.has k = true := by
  rw [unions, has_foldl_union]
  simp

end EffectSet

/-! ## Expressions -/

namespace Expr

variable {callees : CalleeEffects}

/-- Whether a layer may write the heap itself. -/
def writesHeap (callees : CalleeEffects) : ExprKind Expr → Bool
  | .assign target .. | .unary (.step _) target => target.localTarget?.isNone
  | .call _ callee _ => (callees.ofCall callee).writeGlobal
  | .create ty args => (callees.ofCall (.ofConstructor ty.ownerName args.length)).writeGlobal
  | _ => false

/-- A target that is no local is written on the heap. -/
theorem writeGlobal_targetEffects {reads : Bool} :
    ∀ {e : Expr}, e.localTarget? = none → (e.targetEffects callees reads).writeGlobal = true
  | node id kind, h => by
    cases kind with
    | var v => cases h
    | paren inner => exact writeGlobal_targetEffects (e := inner) h
    | field receiver name isStatic => cases receiver <;> simp [targetEffects]
    | index a i => simp [targetEffects]
    | _ => rfl

/-- A target is written. -/
theorem hasWrites_targetEffects {reads : Bool} :
    ∀ e : Expr, (e.targetEffects callees reads).hasWrites = true
  | node id kind => by
    cases kind with
    | var v => simp [targetEffects, EffectSet.hasWrites]
    | paren inner => exact hasWrites_targetEffects inner
    | field receiver name isStatic => cases receiver <;> simp [targetEffects, EffectSet.hasWrites]
    | index a i => simp [targetEffects, EffectSet.hasWrites]
    | _ => rfl

/-- A layer that writes the heap has the effect. -/
theorem writeGlobal_own :
    ∀ {k : ExprKind Expr}, writesHeap callees k = true → (kindEffects callees k).writeGlobal = true
  | .assign _ none _, h | .assign _ (some _) _, h => by
    simp [kindEffects, writeGlobal_targetEffects (Option.isNone_iff_eq_none.1 h)]
  | .unary (.step _) _, h => writeGlobal_targetEffects (Option.isNone_iff_eq_none.1 h)
  | .call none callee _, h | .call (some _) callee _, h => by
    have hc : (callees.ofCall callee).writeGlobal = true := h
    simp [kindEffects, hc]
  | .create ty args, h => by
    have hc : (callees.ofCall (.ofConstructor ty.ownerName args.length)).writeGlobal = true := h
    simp [kindEffects, hc]

mutual

/-- The effects of an expression cover what its operands write on the heap. -/
theorem writeGlobal_effects {s : Expr} (hs : writesHeap callees s.kind = true) :
    ∀ {e : Expr}, s ∈ e.subexprs → (e.effects callees).writeGlobal = true
  | node id kind, h => by
    rcases List.mem_cons.1 h with rfl | h
    · exact writeGlobal_own hs
    · exact writeGlobal_kindEffects hs h

/-- A target has the effect if something below it writes the heap. -/
theorem writeGlobal_targetOperand {s : Expr} (hs : writesHeap callees s.kind = true)
    {reads : Bool} :
    ∀ {e : Expr}, s ∈ e.subexprs → (e.targetEffects callees reads).writeGlobal = true
  | node id kind, h => by
    cases kind with
    | var v =>
      rw [List.mem_singleton.1 h] at hs
      cases hs
    | paren inner =>
      rcases List.mem_cons.1 h with rfl | h
      · cases hs
      · exact writeGlobal_targetOperand (e := inner) hs h
    | field receiver name isStatic => cases receiver <;> simp [targetEffects]
    | index a i => simp [targetEffects]
    | _ => rfl

/-- A layer has the effect if something below it writes the heap. -/
theorem writeGlobal_kindEffects {s : Expr} (hs : writesHeap callees s.kind = true) :
    ∀ {k : ExprKind Expr}, s ∈ subexprsOfKind k → (kindEffects callees k).writeGlobal = true
  | .field (some _) .., h => by simp [kindEffects, writeGlobal_effects hs h]
  | .assign _ none _, h | .assign _ (some _) _, h => by
    rcases List.mem_append.1 h with h | h
    · simp [kindEffects, writeGlobal_targetOperand hs h]
    · simp [kindEffects, writeGlobal_effects hs h]
  | .binary .., h | .index .., h => by
    rcases List.mem_append.1 h with h | h <;> simp [kindEffects, writeGlobal_effects hs h]
  | .unary (.step _) _, h => writeGlobal_targetOperand hs h
  | .unary .not _, h | .unary .neg _, h | .unary .plus _, h | .unary .bitNot _, h | .paren _, h
  | .instanceOf .., h => writeGlobal_effects hs h
  | .conditional .., h => by
    simp only [subexprsOfKind, List.mem_append] at h
    rcases h with h | h | h <;> simp [kindEffects, writeGlobal_effects hs h]
  | .call none .., h | .create .., h => by simp [kindEffects, writeGlobal_listEffects hs h]
  | .call (some _) .., h => by
    rcases List.mem_append.1 h with h | h
    · simp [kindEffects, writeGlobal_effects hs h]
    · simp [kindEffects, writeGlobal_listEffects hs h]
  | .cast .., h => by
    rw [kindEffects]
    split <;> simp [writeGlobal_effects hs h]

theorem writeGlobal_listEffects {s : Expr} (hs : writesHeap callees s.kind = true) :
    ∀ {es : List Expr}, s ∈ subexprsOfList es → (listEffects callees es).writeGlobal = true
  | [], h => nomatch h
  | e :: es, h => by
    rcases List.mem_append.1 h with h | h
    · simp [listEffects, writeGlobal_effects hs h]
    · simp [listEffects, writeGlobal_listEffects hs h]

end

end Expr

/-! ## Statements -/

namespace Stmt

variable {callees : CalleeEffects} {env : TyEnv} {t : Stmt} {k : EffectKind}

/-- A statement has the effects of its expressions. -/
theorem has_effects_of_expr {id : StmtId} {kind : StmtKind Expr Stmt} {e : Expr}
    (he : e ∈ kind.exprChildren) (h : (e.effects callees).has k = true) :
    ((node id kind).effects callees env).has k = true := by
  have hu : (EffectSet.unions (kind.exprChildren.map (Expr.effects callees))).has k = true :=
    EffectSet.has_unions.2 ⟨_, List.mem_map_of_mem he, h⟩
  simp [effects, hu]

mutual

/-- The effects of a statement cover those of the statements nested in it. -/
theorem has_effects (h : (t.effects callees env).has k = true) :
    ∀ {s : Stmt}, t ∈ s.substmts → (s.effects callees env).has k = true
  | node id kind, ht => by
    rcases List.mem_cons.1 ht with rfl | ht
    · exact h
    · simp [effects, has_nestedEffects h ht]

/-- A layer has the effects of every statement below it. -/
theorem has_nestedEffects (h : (t.effects callees env).has k = true) :
    ∀ {kind : StmtKind Expr Stmt}, t ∈ substmtsOfKind kind →
      (nestedEffects callees env kind).has k = true
  | .block _, ht => has_listEffects h ht
  | .branch _ _ none, ht | .whileLoop .., ht | .doLoop .., ht | .forEach .., ht => has_effects h ht
  | .branch _ _ (some _), ht => by
    rcases List.mem_append.1 ht with ht | ht <;> simp [nestedEffects, has_effects h ht]
  | .forLoop .., ht => by
    rcases List.mem_append.1 ht with ht | ht
    · simp [nestedEffects, has_listEffects h ht]
    · simp [nestedEffects, has_effects h ht]
  | .switch .., ht => has_casesEffects h ht
  | .guarded _ _ _ none, ht => by
    simp only [substmtsOfKind, List.mem_append] at ht
    rcases ht with (ht | ht) | ht
    · simp [nestedEffects, has_listEffects h ht]
    · simp [nestedEffects, has_listEffects h ht]
    · simp [nestedEffects, has_catchesEffects h ht]
  | .guarded _ _ _ (some _), ht => by
    simp only [substmtsOfKind, List.mem_append] at ht
    rcases ht with ((ht | ht) | ht) | ht
    · simp [nestedEffects, has_listEffects h ht]
    · simp [nestedEffects, has_listEffects h ht]
    · simp [nestedEffects, has_catchesEffects h ht]
    · simp [nestedEffects, has_listEffects h ht]

theorem has_listEffects (h : (t.effects callees env).has k = true) :
    ∀ {ss : List Stmt}, t ∈ substmtsOfList ss → (listEffects callees env ss).has k = true
  | [], ht => nomatch ht
  | s :: ss, ht => by
    rcases List.mem_append.1 ht with ht | ht
    · simp [listEffects, has_effects h ht]
    · simp [listEffects, has_listEffects h ht]

theorem has_casesEffects (h : (t.effects callees env).has k = true) :
    ∀ {cs : List (SwitchCase Expr Stmt)}, t ∈ substmtsOfCases cs →
      (casesEffects callees env cs).has k = true
  | [], ht => nomatch ht
  | ⟨_, _, body⟩ :: cs, ht => by
    rcases List.mem_append.1 ht with ht | ht
    · simp [casesEffects, has_listEffects h ht]
    · simp [casesEffects, has_casesEffects h ht]

theorem has_catchesEffects (h : (t.effects callees env).has k = true) :
    ∀ {cs : List (CatchClause Stmt)}, t ∈ substmtsOfCatches cs →
      (catchesEffects callees env cs).has k = true
  | [], ht => nomatch ht
  | ⟨_, _, body⟩ :: cs, ht => by
    rcases List.mem_append.1 ht with ht | ht
    · simp [catchesEffects, has_listEffects h ht]
    · simp [catchesEffects, has_catchesEffects h ht]

end

end Stmt

end Midend
