import Midend.Proofs.Effect.Cover
import Midend.Proofs.Tree.Subst

/-!
# What is performed

The acts of a program that are not without effect, in evaluation order: operands
before their expression, the target of a write before the value, and the update of
a `for` loop after its body. What has no effect but reading locals performs no act
(`Expr.performedAs_of_isPure`).
-/

namespace Midend

/-! ## Evaluation order -/

namespace Expr

mutual

/-- The expression and its operands with their roles, each after its own operands. -/
def evaluations : Expr → List (Role × Expr)
  | node id (.assign l op r) =>
    l.targetEvaluations op.isSome ++ (r.evaluations ++ [(.value, node id (.assign l op r))])
  | node id (.unary (.step s) e) =>
    e.targetEvaluations true ++ [(.value, node id (.unary (.step s) e))]
  | node id kind => operandEvaluations kind ++ [(.value, node id kind)]

/-- The same for the target of a write. -/
def targetEvaluations (reads : Bool) : Expr → List (Role × Expr)
  | node id (.paren inner) =>
    inner.targetEvaluations reads ++ [(.target reads, node id (.paren inner))]
  | node id kind => operandEvaluations kind ++ [(.target reads, node id kind)]

/-- The operands of a layer, all of them evaluated. -/
def operandEvaluations : ExprKind Expr → List (Role × Expr)
  | .lit _ | .var _ | .err | .field none .. => []
  | .field (some r) .. => r.evaluations
  | .assign l _ r | .binary l _ r | .index l r => l.evaluations ++ r.evaluations
  | .unary _ e | .paren e | .cast _ e | .instanceOf e _ => e.evaluations
  | .conditional c t f => c.evaluations ++ (t.evaluations ++ f.evaluations)
  | .call none _ args => listEvaluations args
  | .call (some r) _ args => r.evaluations ++ listEvaluations args
  | .create _ args => listEvaluations args

/-- The evaluations of a list of operands, in order. -/
def listEvaluations : List Expr → List (Role × Expr)
  | [] => []
  | e :: es => e.evaluations ++ listEvaluations es

end

/-- The expression in a role and its operands with theirs, each after its own operands. -/
def evaluationsAs (e : Expr) : Role → List (Role × Expr)
  | .value => e.evaluations
  | .target reads => e.targetEvaluations reads

theorem listEvaluations_eq (es : List Expr) : listEvaluations es = es.flatMap evaluations := by
  induction es with
  | nil => rfl
  | cons e es ih => rw [listEvaluations, ih, List.flatMap_cons]

/-- The operands of a layer are evaluated in order, for their values. -/
theorem operandEvaluations_eq (k : ExprKind Expr) :
    operandEvaluations k =
      (k.children.map (Role.value, ·)).flatMap fun o => o.2.evaluationsAs o.1 := by
  rw [List.flatMap_map]
  change _ = k.children.flatMap evaluations
  cases k with
  | field receiver => cases receiver <;> simp [operandEvaluations, ExprKind.children]
  | call receiver =>
    cases receiver <;> simp [operandEvaluations, ExprKind.children, listEvaluations_eq]
  | _ => simp [operandEvaluations, ExprKind.children, listEvaluations_eq]

/-- An expression is evaluated after its operands in their roles. -/
theorem evaluationsAs_node (id : ExprId) (k : ExprKind Expr) (role : Role) :
    (node id k).evaluationsAs role =
      ((k.operands role).flatMap fun o => o.2.evaluationsAs o.1) ++ [(role, node id k)] := by
  cases role with
  | value =>
    cases k with
    | assign l op r => simp [ExprKind.operands, evaluationsAs, evaluations]
    | unary op e =>
      cases op with
      | step s => simp [ExprKind.operands, evaluationsAs, evaluations]
      | _ => exact congrArg (· ++ _) (operandEvaluations_eq _)
    | _ => exact congrArg (· ++ _) (operandEvaluations_eq _)
  | target reads =>
    cases k with
    | paren inner => simp [ExprKind.operands, evaluationsAs, targetEvaluations]
    | _ => exact congrArg (· ++ _) (operandEvaluations_eq _)

/-- What is evaluated has the role in which it is evaluated. -/
theorem mem_rolesAs_of_evaluationsAs {e : Expr} {role : Role} {o : Role × Expr}
    (h : o ∈ e.evaluationsAs role) : o ∈ e.rolesAs role := by
  induction e using ofChildren generalizing role with
  | node id k ih =>
    rw [evaluationsAs_node] at h
    rw [rolesAs_node]
    rcases List.mem_append.1 h with h | h
    · obtain ⟨p, hp, h⟩ := List.mem_flatMap.1 h
      have hc := ExprKind.mem_children_of_operands hp
      exact List.mem_cons_of_mem _ (List.mem_flatMap.2 ⟨p, hp, ih p.2 hc h⟩)
    · rw [List.mem_singleton.1 h]
      exact List.mem_cons_self

end Expr

namespace Stmt

mutual

/-- The expressions of the statement and of those nested in it, in evaluation order. -/
def inOrder : Stmt → List Expr
  | node _ kind => inOrderOfKind kind

/-- The expressions of a layer and of everything below it, in evaluation order. -/
def inOrderOfKind : StmtKind Expr Stmt → List Expr
  | .decl _ e | .ret e => e.toList
  | .expr e | .throw e => [e]
  | .block body => inOrderOfList body
  | .branch c t none => c :: t.inOrder
  | .branch c t (some f) => c :: (t.inOrder ++ f.inOrder)
  | .whileLoop c body => c :: body.inOrder
  | .doLoop body c => body.inOrder ++ [c]
  | .forLoop init c update body =>
    inOrderOfList init ++ (c.toList ++ (body.inOrder ++ update))
  | .forEach _ e body => e :: body.inOrder
  | .switch e cases => e :: inOrderOfCases cases
  | .guarded resources body catches none =>
    inOrderOfList resources ++ (inOrderOfList body ++ inOrderOfCatches catches)
  | .guarded resources body catches (some finalizer) =>
    inOrderOfList resources ++
      (inOrderOfList body ++ (inOrderOfCatches catches ++ inOrderOfList finalizer))
  | .assert c message => c :: message.toList
  | .breakOut | .continueLoop | .empty | .err => []

/-- The expressions of statements that run in order. -/
def inOrderOfList : List Stmt → List Expr
  | [] => []
  | s :: ss => s.inOrder ++ inOrderOfList ss

/-- The expressions of the groups of a switch, labels before bodies. -/
def inOrderOfCases : List (SwitchCase Expr Stmt) → List Expr
  | [] => []
  | ⟨_, labels, body⟩ :: cs => labels ++ (inOrderOfList body ++ inOrderOfCases cs)

/-- The expressions of handlers, one after the other. -/
def inOrderOfCatches : List (CatchClause Stmt) → List Expr
  | [] => []
  | ⟨_, _, body⟩ :: cs => inOrderOfList body ++ inOrderOfCatches cs

end

variable (g : Expr → Expr)

mutual

/-- Mapping the expressions of a statement keeps their order. -/
theorem inOrder_mapExprs : ∀ s : Stmt, (s.mapExprs g).inOrder = s.inOrder.map g
  | node _ kind => inOrderOfKind_mapKind kind

theorem inOrderOfKind_mapKind :
    ∀ k : StmtKind Expr Stmt, inOrderOfKind (mapKind g k) = (inOrderOfKind k).map g
  | .decl _ e | .ret e => by cases e <;> rfl
  | .expr _ | .throw _ | .breakOut | .continueLoop | .empty | .err => rfl
  | .block body => inOrderOfList_mapList body
  | .branch _ t none => by simp [mapKind, inOrderOfKind, inOrder_mapExprs t]
  | .branch _ t (some f) => by simp [mapKind, inOrderOfKind, inOrder_mapExprs t, inOrder_mapExprs f]
  | .whileLoop _ body | .doLoop body _ | .forEach _ _ body => by
    simp [mapKind, inOrderOfKind, inOrder_mapExprs body]
  | .forLoop init c update body => by
    cases c <;> simp [mapKind, inOrderOfKind, inOrder_mapExprs body, inOrderOfList_mapList init]
  | .switch _ cases => by simp [mapKind, inOrderOfKind, inOrderOfCases_mapCases cases]
  | .guarded resources body catches none => by
    simp [mapKind, inOrderOfKind, inOrderOfList_mapList resources, inOrderOfList_mapList body,
      inOrderOfCatches_mapCatches catches]
  | .guarded resources body catches (some finalizer) => by
    simp [mapKind, inOrderOfKind, inOrderOfList_mapList resources, inOrderOfList_mapList body,
      inOrderOfCatches_mapCatches catches, inOrderOfList_mapList finalizer]
  | .assert _ message => by cases message <;> rfl

theorem inOrderOfList_mapList :
    ∀ ss : List Stmt, inOrderOfList (mapList g ss) = (inOrderOfList ss).map g
  | [] => rfl
  | s :: ss => by simp [mapList, inOrderOfList, inOrder_mapExprs s, inOrderOfList_mapList ss]

theorem inOrderOfCases_mapCases :
    ∀ cs : List (SwitchCase Expr Stmt), inOrderOfCases (mapCases g cs) = (inOrderOfCases cs).map g
  | [] => rfl
  | ⟨_, labels, body⟩ :: cs => by
    simp [mapCases, inOrderOfCases, inOrderOfList_mapList body, inOrderOfCases_mapCases cs]

theorem inOrderOfCatches_mapCatches :
    ∀ cs : List (CatchClause Stmt),
      inOrderOfCatches (mapCatches g cs) = (inOrderOfCatches cs).map g
  | [] => rfl
  | ⟨_, _, body⟩ :: cs => by
    simp [mapCatches, inOrderOfCatches, inOrderOfList_mapList body, inOrderOfCatches_mapCatches cs]

end

theorem inOrderOfList_eq (ss : List Stmt) : inOrderOfList ss = ss.flatMap inOrder := by
  induction ss with
  | nil => rfl
  | cons s ss ih => rw [inOrderOfList, ih, List.flatMap_cons]

theorem inOrderOfCatches_eq (cs : List (CatchClause Stmt)) :
    inOrderOfCatches cs = (cs.flatMap (·.body)).flatMap inOrder := by
  induction cs with
  | nil => rfl
  | cons c cs ih =>
    rw [inOrderOfCatches, ih, inOrderOfList_eq, List.flatMap_cons, List.flatMap_append]

/-- The expressions of groups are labels or belong to a statement. -/
theorem mem_inOrderOfCases {x : Expr} {cs : List (SwitchCase Expr Stmt)}
    (h : x ∈ inOrderOfCases cs) :
    x ∈ cs.flatMap (·.labels) ∨ x ∈ (cs.flatMap (·.body)).flatMap inOrder := by
  induction cs with
  | nil => cases h
  | cons c cs ih =>
    rw [inOrderOfCases, inOrderOfList_eq] at h
    simp only [List.flatMap_cons, List.flatMap_append, List.mem_append] at h ⊢
    rcases h with h | h | h
    · exact .inl (.inl h)
    · exact .inr (.inl h)
    · exact (ih h).imp .inr .inr

/-- The expressions of a statement are its own or belong to a child. -/
theorem mem_inOrderOfKind {x : Expr} {k : StmtKind Expr Stmt} (h : x ∈ inOrderOfKind k) :
    x ∈ k.exprChildren ∨ x ∈ k.stmtChildren.flatMap inOrder := by
  cases k with
  | branch c t f =>
    cases f <;> simpa [inOrderOfKind, StmtKind.exprChildren, StmtKind.stmtChildren] using h
  | switch e cases =>
    rcases List.mem_cons.1 h with rfl | h
    · exact .inl List.mem_cons_self
    · exact (mem_inOrderOfCases h).imp_left (List.mem_cons_of_mem _)
  | guarded resources body catches finalizer =>
    cases finalizer <;> simpa [inOrderOfKind, StmtKind.exprChildren, StmtKind.stmtChildren,
      inOrderOfList_eq, inOrderOfCatches_eq, or_assoc] using h
  | block body => exact .inr (inOrderOfList_eq body ▸ h)
  | _ =>
    simp only [inOrderOfKind, inOrderOfList_eq, List.mem_append, List.mem_cons] at h
    simp only [StmtKind.exprChildren, StmtKind.stmtChildren, List.flatMap_append, List.mem_append,
      List.flatMap_cons, List.flatMap_nil, List.append_nil, List.mem_cons]
    tauto

/-- What is evaluated is an expression of a statement. -/
theorem exists_of_mem_inOrder {s : Stmt} {x : Expr} (h : x ∈ s.inOrder) :
    ∃ t ∈ s.substmts, x ∈ t.kind.exprChildren := by
  induction s using ofChildren with
  | node id k ih =>
    rcases mem_inOrderOfKind h with h | h
    · exact ⟨_, List.mem_cons_self, h⟩
    · obtain ⟨c, hc, h⟩ := List.mem_flatMap.1 h
      obtain ⟨t, ht, hx⟩ := ih c hc h
      exact ⟨t, substmts_subset hc ht, hx⟩

end Stmt

/-! ## Acts -/

/-- What an expression does that counts as an effect. -/
inductive Act where
  | assignment | step | fieldRead | arrayRead | referenceCast | division | call | creation
deriving DecidableEq

namespace Expr

variable (callees : CalleeEffects) (fails : ExprId → Bool)

/-- What an expression does itself in a role. Divisions count where they may fail, calls where the
callee is unknown or does something its caller can see. -/
def actsAs (e : Expr) : Role → List Act
  | .value =>
    match e.kind with
    | .assign _ none _ => [.assignment]
    | .assign _ (some op) _ =>
      if op.isDivision && fails e.id then [.division, .assignment] else [.assignment]
    | .unary (.step _) _ => [.step]
    | .field .. => [.fieldRead]
    | .index .. => [.arrayRead]
    | .cast ty _ => if ty.isReference then [.referenceCast] else []
    | .binary _ op _ => if op.isDivision && fails e.id then [.division] else []
    | .call _ callee _ => if (callees.ofCall callee).isEmpty then [] else [.call]
    | .create ty args =>
      if (callees.ofCall (.ofConstructor ty.ownerName args.length)).isEmpty then [] else [.creation]
    | _ => []
  | .target true =>
    match e.kind with
    | .field .. => [.fieldRead]
    | .index .. => [.arrayRead]
    | _ => []
  | .target false => []

/-- The acts of an expression in a role and of its operands, in evaluation order. -/
def performedAs (e : Expr) (role : Role) : List (ExprId × Act) :=
  (e.evaluationsAs role).flatMap fun o => (o.2.actsAs callees fails o.1).map (o.2.id, ·)

/-- An expression acts after its operands have acted in their roles. -/
theorem performedAs_node (id : ExprId) (k : ExprKind Expr) (role : Role) :
    (node id k).performedAs callees fails role =
      ((k.operands role).flatMap fun o => o.2.performedAs callees fails o.1) ++
        ((node id k).actsAs callees fails role).map (id, ·) := by
  unfold performedAs
  rw [evaluationsAs_node, List.flatMap_append, List.flatMap_assoc, List.flatMap_singleton]
  rfl

/-- What an expression does itself does not depend on its operands. -/
theorem actsAs_map (id : ExprId) (k : ExprKind Expr) (f : Expr → Expr) (role : Role) :
    (node id (k.map f)).actsAs callees fails role = (node id k).actsAs callees fails role := by
  cases k with
  | assign l op r => cases op <;> cases role <;> rfl
  | unary op e => cases op <;> cases role <;> rfl
  | create ty args => cases role <;> simp [actsAs, kind, ExprKind.map]
  | _ => cases role <;> rfl

/-! ## No effects, no acts -/

/-- Whether the expression is a division whose divisor may be zero. -/
def mayFail (e : Expr) : Bool :=
  match e.kind with
  | .binary _ op r | .assign _ (some op) r => op.isDivision && r.mayBeZero
  | _ => false

variable {callees}

/-- A list has the effects of its members. -/
theorem has_listEffects {κ : EffectKind} {e : Expr} (h : (e.effects callees).has κ = true) :
    ∀ {es : List Expr}, e ∈ es → (listEffects callees es).has κ = true
  | x :: es, he => by
    rw [listEffects, EffectSet.has_union, Bool.or_eq_true]
    rcases List.mem_cons.1 he with rfl | he
    · exact .inl h
    · exact .inr (has_listEffects h he)

/-- The effects of a layer cover those of its operands. -/
theorem has_effectsAs_operand {id : ExprId} {k : ExprKind Expr} {role : Role} {o : Role × Expr}
    (ho : o ∈ k.operands role) {κ : EffectKind}
    (h : (o.2.effectsAs callees o.1).has κ = true) :
    ((node id k).effectsAs callees role).has κ = true := by
  cases role with
  | value =>
    change (kindEffects callees k).has κ = true
    cases k with
    | assign l op r =>
      obtain rfl | rfl : o = (.target op.isSome, l) ∨ o = (.value, r) := by
        simpa [ExprKind.operands] using ho
      · cases op <;> simp_all [effectsAs, kindEffects]
      · cases op <;> simp_all [effectsAs, kindEffects]
    | unary op e =>
      cases op with
      | step s =>
        rw [List.mem_singleton.1 ho] at h
        exact h
      | _ =>
        rw [List.mem_singleton.1 ho] at h
        exact h
    | field receiver name isStatic =>
      cases receiver with
      | none => cases ho
      | some e =>
        rw [List.mem_singleton.1 ho] at h
        simp_all [effectsAs, kindEffects]
    | call receiver callee args =>
      obtain ⟨e, he, rfl⟩ := List.mem_map.1 ho
      cases receiver with
      | none =>
        have hargs : (listEffects callees args).has κ = true := has_listEffects h he
        simp [kindEffects, hargs]
      | some r =>
        rcases List.mem_cons.1 he with rfl | he
        · simp_all [effectsAs, kindEffects]
        · have hargs : (listEffects callees args).has κ = true := has_listEffects h he
          simp [kindEffects, hargs]
    | create ty args =>
      obtain ⟨e, he, rfl⟩ := List.mem_map.1 ho
      have hargs : (listEffects callees args).has κ = true := has_listEffects h he
      simp [kindEffects, hargs]
    | cast ty e =>
      rw [List.mem_singleton.1 ho] at h
      rw [kindEffects]
      split <;> simp_all [effectsAs]
    | paren e | instanceOf e =>
      rw [List.mem_singleton.1 ho] at h
      exact h
    | lit | var | err => cases ho
    | binary | index | conditional =>
      obtain ⟨e, he, rfl⟩ := List.mem_map.1 ho
      simp only [ExprKind.children, List.mem_cons, List.not_mem_nil, or_false] at he
      rcases he with rfl | rfl | rfl <;> simp_all [effectsAs, kindEffects]
  | target reads =>
    change ((node id k).targetEffects callees reads).has κ = true
    cases k with
    | paren e =>
      rw [List.mem_singleton.1 ho] at h
      exact h
    | var => cases ho
    | field receiver name isStatic =>
      cases receiver with
      | none => cases ho
      | some e =>
        rw [List.mem_singleton.1 ho] at h
        simp_all [effectsAs, targetEffects]
    | index a i =>
      obtain ⟨e, he, rfl⟩ := List.mem_map.1 ho
      simp only [ExprKind.children, List.mem_cons, List.not_mem_nil, or_false] at he
      rcases he with rfl | rfl <;> simp_all [effectsAs, targetEffects]
    | _ => exact EffectSet.has_all κ

/-- The effects of an expression cover those of everything in it. -/
theorem has_effectsAs {e s : Expr} {role r : Role} (hs : (r, s) ∈ e.rolesAs role) {κ : EffectKind}
    (h : (s.effectsAs callees r).has κ = true) : (e.effectsAs callees role).has κ = true := by
  induction e using ofChildren generalizing role with
  | node id k ih =>
    rw [rolesAs_node] at hs
    rcases List.mem_cons.1 hs with hs | hs
    · obtain ⟨rfl, rfl⟩ := Prod.mk.inj hs
      exact h
    · obtain ⟨o, ho, hs⟩ := List.mem_flatMap.1 hs
      exact has_effectsAs_operand ho (ih o.2 (ExprKind.mem_children_of_operands ho) hs)

end Expr

/-- An effect that shows: any but the reading of a local. -/
def EffectSet.Shows (s : EffectSet) : Prop := ∃ κ, κ ≠ .readLocal ∧ s.has κ = true

/-- Nothing shows of pure effects. -/
theorem EffectSet.not_shows_of_isPure {s : EffectSet} (h : s.isPure = true) : ¬s.Shows := by
  rintro ⟨κ, hκ, hs⟩
  have hempty : s \ singleton .readLocal = none := by simpa [isPure, isEmpty] using h
  have hnone := congrArg (·.has κ) hempty
  simp [hs, singleton, hκ] at hnone

/-- A call that has any effect shows it. -/
theorem CalleeEffects.shows {callees : CalleeEffects} {c : Callee}
    (h : (callees.ofCall c).isEmpty = false) : (callees.ofCall c).Shows := by
  unfold ofCall at h ⊢
  cases hc : callees c with
  | none => exact ⟨.writeGlobal, nofun, rfl⟩
  | some s =>
    simp only [hc] at h ⊢
    by_contra hn
    have hnone : s.calleeVisible = .none := by
      ext κ
      rw [EffectSet.has_none]
      by_contra hκ
      refine hn ⟨κ, ?_, by simpa using hκ⟩
      rintro rfl
      simp [EffectSet.calleeVisible, EffectSet.ofList] at hκ
    rw [hnone] at h
    cases h

namespace Expr

variable {callees : CalleeEffects} {fails : ExprId → Bool}

/-- The effects of a target show. -/
theorem targetEffects_shows (e : Expr) (reads : Bool) : (e.targetEffects callees reads).Shows := by
  have hw : (e.targetEffects callees reads).hasWrites = true := hasWrites_targetEffects e
  rw [EffectSet.hasWrites, Bool.or_eq_true] at hw
  rcases hw with hw | hw
  · exact ⟨.writeLocal, by decide, hw⟩
  · exact ⟨.writeGlobal, by decide, hw⟩

/-- What shows of an operand shows of the expression. -/
theorem shows_of_operand {id : ExprId} {k : ExprKind Expr} {role : Role} {o : Role × Expr}
    (ho : o ∈ k.operands role) (h : (o.2.effectsAs callees o.1).Shows) :
    ((node id k).effectsAs callees role).Shows :=
  h.imp fun _ hκ => ⟨hκ.1, has_effectsAs_operand ho hκ.2⟩

/-- What acts has an effect that shows. -/
theorem shows_of_acts {e : Expr} {role : Role} (hf : fails e.id = e.mayFail)
    (h : e.actsAs callees fails role ≠ []) : (e.effectsAs callees role).Shows := by
  obtain ⟨id, k⟩ := e
  cases role with
  | value =>
    cases k with
    | assign l op r => exact shows_of_operand List.mem_cons_self (targetEffects_shows l _)
    | unary op e =>
      cases op with
      | step s => exact targetEffects_shows e true
      | _ => exact absurd rfl h
    | field receiver => exact ⟨.readGlobal, nofun, by cases receiver <;> rfl⟩
    | index => exact ⟨.readGlobal, nofun, rfl⟩
    | cast ty e =>
      have ht : ty.isReference = true := by
        by_contra ht
        exact h (if_neg ht)
      refine ⟨.exception, nofun, ?_⟩
      simp [effectsAs, effects, kindEffects, ht, EffectSet.throws, EffectSet.singleton]
    | binary l op r =>
      have hd : (op.isDivision && fails id) = true := by
        by_contra hd
        exact h (if_neg hd)
      have hz : (op.isDivision && r.mayBeZero) = true := by
        rw [Bool.and_eq_true] at hd
        exact hf.symm.trans hd.2
      refine ⟨.exception, nofun, ?_⟩
      simp [effectsAs, effects, kindEffects, divisionEffects, hz, EffectSet.throws,
        EffectSet.singleton]
    | call receiver callee args =>
      have hc : (callees.ofCall callee).isEmpty = false := by
        by_contra hc
        exact h (if_pos (by simpa using hc))
      obtain ⟨κ, hκ, hs⟩ := CalleeEffects.shows hc
      refine ⟨κ, hκ, ?_⟩
      cases receiver <;> simp [effectsAs, effects, kindEffects, hs]
    | create ty args =>
      have hc : (callees.ofCall (.ofConstructor ty.ownerName args.length)).isEmpty = false := by
        by_contra hc
        exact h (if_pos (by simpa using hc))
      obtain ⟨κ, hκ, hs⟩ := CalleeEffects.shows hc
      refine ⟨κ, hκ, ?_⟩
      simp [effectsAs, effects, kindEffects, hs]
    | _ => exact absurd rfl h
  | target reads =>
    cases reads with
    | false => exact absurd rfl h
    | true => exact targetEffects_shows _ true

/-- What has no effect but reading locals performs nothing. -/
theorem performedAs_of_isPure {e : Expr} {role : Role}
    (h : (e.effectsAs callees role).isPure = true)
    (hf : ∀ s ∈ e.subexprs, fails s.id = s.mayFail) : e.performedAs callees fails role = [] := by
  rw [performedAs, List.flatMap_eq_nil_iff]
  intro o ho
  have hrole := mem_rolesAs_of_evaluationsAs ho
  have hsub : o.2 ∈ e.subexprs := by
    rw [← map_snd_rolesAs e role]
    exact List.mem_map_of_mem hrole
  by_contra hne
  have hacts : o.2.actsAs callees fails o.1 ≠ [] := fun hnil => hne (by rw [hnil]; rfl)
  obtain ⟨κ, hκ, hs⟩ := shows_of_acts (hf o.2 hsub) hacts
  exact EffectSet.not_shows_of_isPure h ⟨κ, hκ, has_effectsAs hrole hs⟩

end Expr

end Midend
