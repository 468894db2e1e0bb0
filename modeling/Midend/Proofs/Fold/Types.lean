import Midend.Proofs.Eval.Typed
import Midend.Proofs.Fold.Rounds

/-!
# Folding and static types

What a round of folding puts in the place of an expression has the static type of
the expression, except for a literal in the place of an expression of reference
type: `null` has no type, and a string may be known of a local of another type. An
expression in which every replacement keeps the type keeps its own
(`Body.foldRound_staticTy`); one with such a literal may lose its type
(`Body.staticTy_lost_nullArm`).
-/

namespace Midend

/-! ## Types of operands -/

/-- The second is the type that the first is, if that is one. -/
def KeepsTy (x y : Option Ty) : Prop := ∀ t, x = some t → y = some t

theorem KeepsTy.refl (x : Option Ty) : KeepsTy x x := fun _ h => h

theorem KeepsTy.map {x y : Option Ty} (h : KeepsTy x y) {f : Option Ty → Option Ty}
    (hf : f none = none) : KeepsTy (f x) (f y) := by
  cases x with
  | none =>
    rw [hf]
    exact fun _ ht => nomatch ht
  | some t =>
    rw [h t rfl]
    exact .refl _

/-- The type of a unary operator is kept with its operand's. -/
theorem UnOp.resultTy_keeps (op : UnOp) {x y : Option Ty} (h : KeepsTy x y) :
    KeepsTy (op.resultTy x) (op.resultTy y) := by
  cases op with
  | not => exact .refl _
  | step | neg | plus | bitNot => exact h.map rfl

/-- The type of a conditional is kept with its arms'. -/
theorem conditionalTy_keeps {x y x' y' : Option Ty} (hx : KeepsTy x x') (hy : KeepsTy y y') :
    KeepsTy (conditionalTy x y) (conditionalTy x' y') := by
  cases x with
  | none => exact fun _ h => nomatch h
  | some t =>
    cases y with
    | none => exact fun _ h => nomatch h
    | some f =>
      rw [hx t rfl, hy f rfl]
      exact .refl _

/-- The type of a binary operator is kept with its operands'. -/
theorem BinOp.resultTy_keeps (op : BinOp) {x y x' y' : Option Ty} (hx : KeepsTy x x')
    (hy : KeepsTy y y') : KeepsTy (op.resultTy x y) (op.resultTy x' y') := by
  intro t ht
  unfold resultTy at ht ⊢
  split at ht
  · next htest => rwa [if_pos htest]
  · next htest =>
    rw [if_neg htest]
    split at ht
    · next hs =>
      -- One operand is a string and stays one, whatever is found for the other.
      obtain ⟨hadd, hs⟩ := hs
      have hs' : (x'.any Ty.isString || y'.any Ty.isString) = true := by
        rw [Bool.or_eq_true, Option.any_eq_true, Option.any_eq_true] at hs ⊢
        exact hs.imp (fun ⟨s, hs⟩ => ⟨s, hx s hs.1, hs.2⟩) fun ⟨s, hs⟩ => ⟨s, hy s hs.1, hs.2⟩
      rwa [if_pos ⟨hadd, hs'⟩]
    · next hs =>
      obtain ⟨p, hp, ht'⟩ := Option.bind_eq_some_iff.1 ht
      obtain ⟨q, hq, -⟩ := Option.bind_eq_some_iff.1 ht'
      have hx' := hx _ (primOf_eq_some.1 hp)
      have hy' := hy _ (primOf_eq_some.1 hq)
      rw [primOf_eq_some.1 hp, primOf_eq_some.1 hq] at hs ht
      rwa [hx', hy', if_neg hs]

namespace Expr

variable {env : TyEnv}

/-- An expression keeps its type if its operands keep theirs. -/
theorem staticTy_map {id : ExprId} {k : ExprKind Expr} {f : Expr → Expr}
    (h : ∀ c ∈ k.children, KeepsTy (c.staticTy env) ((f c).staticTy env)) :
    KeepsTy ((node id k).staticTy env) ((node id (k.map f)).staticTy env) := by
  cases k with
  | lit | var | err | field | call | create | cast | instanceOf => exact .refl _
  | paren e => exact h e (by simp [ExprKind.children])
  | assign target => exact h target (by simp [ExprKind.children])
  | index array => exact (h array (by simp [ExprKind.children])).map rfl
  | unary op e =>
    rw [ExprKind.map, staticTy_unary, staticTy_unary]
    exact op.resultTy_keeps (h e (by simp [ExprKind.children]))
  | binary l op r =>
    rw [ExprKind.map, staticTy_binary, staticTy_binary]
    exact op.resultTy_keeps (h l (by simp [ExprKind.children])) (h r (by simp [ExprKind.children]))
  | conditional c t f =>
    rw [ExprKind.map, staticTy_conditional, staticTy_conditional]
    exact conditionalTy_keeps (h t (by simp [ExprKind.children]))
      (h f (by simp [ExprKind.children]))

/-- An expression keeps its type if all replacements in it do. -/
theorem staticTy_subst {ρ : ExprId → Option Expr} {e : Expr}
    (h : ∀ q ∈ e.subexprs, ∀ x ∈ q.kind.children, ∀ r, ρ x.id = some r →
      KeepsTy (x.staticTy env) (r.staticTy env)) :
    KeepsTy (e.staticTy env) ((node e.id (e.kind.map (subst ρ))).staticTy env) := by
  induction e using ofChildren with
  | node id k ih =>
    refine staticTy_map fun c hc => ?_
    cases hρ : ρ c.id with
    | some r =>
      rw [subst_of_some hρ]
      exact h _ (mem_subexprs_self _) c hc r hρ
    | none =>
      rw [subst_of_none hρ]
      exact ih c hc fun q hq => h q (subexprs_subset hc hq)

end Expr

/-- A literal in the place of an expression of reference type has the type only if it is a string
and the type is that of string literals. -/
def Ty.Fits (t : Ty) (k : ExprKind ExprId) : Prop :=
  t.isReference = true → ∀ l, k = .lit l → t = .string ∧ ∃ s, l = .str s

theorem Literal.ty?_eq_reference {l : Literal} {t : Ty} (ht : t.isReference = true) :
    l.ty? = some t ↔ t = .string ∧ ∃ s, l = .str s := by
  constructor
  · intro h
    cases l with
    | null => cases h
    | str s => exact ⟨(Option.some.inj h).symm, s, rfl⟩
    | _ =>
      cases h
      cases ht
  · rintro ⟨rfl, s, rfl⟩
    rfl

/-! ## Replacements -/

namespace Body

variable {b c : Body} {callees : CalleeEffects} {values : IdMap Value}
  {σ origin : ExprId → ExprId}

/-- The frame holds the types of the variables. -/
theorem SameFrame.varTy (h : b.SameFrame c) : c.varTy = b.varTy := by
  unfold Body.varTy
  rw [h.vars]

/-- The recorded values have the types of their expressions. -/
def ValuesTyped (b : Body) (values : IdMap Value) : Prop :=
  ∀ e ∈ b.root.flatMap Stmt.allExprs, ∀ x, values.get? e.id = some x → x.HasTy (e.staticTy b.varTy)

/-- A replacement has the type of the expression exactly if it fits. -/
theorem Replaces.staticTy_iff {e r : Expr} (hv : b.ValuesTyped values)
    (hr : b.Replaces (b.foldFacts callees values) e r) {t : Ty}
    (ht : e.staticTy b.varTy = some t) :
    r.staticTy b.varTy = some t ↔ t.Fits (r.kind.map Expr.id) := by
  constructor
  · intro hrt href l hl
    obtain ⟨j, k⟩ := r
    cases k with
    | lit m =>
      obtain rfl := ExprKind.lit.inj hl
      exact (Literal.ty?_eq_reference href).1 hrt
    | _ => cases hl
  · intro hfits
    rcases hr.result with ⟨j, l, rfl, hconst⟩ | hsimp
    · cases href : t.isReference with
      | true => exact (Literal.ty?_eq_reference href).2 (hfits href l rfl)
      | false =>
        obtain ⟨-, hvalue⟩ := FoldFacts.constant?_eq_some _ hconst
        cases t with
        | prim p => exact Literal.ty?_eq_prim.2 (hv e hr.evaluated.mem _ hvalue p l ht rfl)
        | named | array => cases href
    · cases hsimp with
      | paren _ => exact ht
      | arm _ hty => exact hty.trans ht

/-- A slot of the node names one expression in `b` and another in `c`. -/
def Swaps (b c : Body) (m : NodeId) (i i' : ExprId) : Prop :=
  ∃ k : Nat, (b.slots m)[k]? = some i ∧ (c.slots m)[k]? = some i' ∧ i ≠ i'

section

variable (h : b.Accepted) (ha : b.Applied (b.edits callees values) σ origin c)

include h ha

/-- The tree of an expression that was replaced is the tree of the replacement. -/
theorem exprTree_replaced {e r : Expr} (he : e ∈ b.root.flatMap Stmt.allExprs)
    (hr : b.replacement (b.edits callees values) σ e.id = some r) : c.exprTree r.id = r := by
  have hstands := standsFor_of_replacement h ha he hr
  refine exprTree_of_holds (fun s hs => (hstands.held s hs).2) ?_
  have hle := hstands.origins.length_le
  rw [List.length_map, List.length_map] at hle
  exact Nat.le_trans hle (Nat.le_trans (h.spans.length_le he) ha.frame.exprs)

/-- The operands of an expression have been replaced in its tree. -/
theorem exprTree_applied {e : Expr} (he : e ∈ b.root.flatMap Stmt.allExprs) :
    c.exprTree e.id =
      .node e.id (e.kind.map (Expr.subst (b.replacement (b.edits callees values) σ))) := by
  obtain ⟨d, hdepth, hd⟩ : ∃ d, c.treeDepth = d + 1 ∧ c.exprs.size ≤ d :=
    ⟨c.exprs.size + (evalDepth - 1), rfl, Nat.le_add_right _ _⟩
  rw [exprTree_eq_exprTo, hdepth, exprTo, exprKind_applied h ha he, ExprKind.map_map]
  congr 1
  refine ExprKind.map_congr fun x hx => ?_
  have hm := mem_allExprs_trans he (Expr.mem_subexprs_child hx)
  rw [Function.comp, ← id_subst h ha hm]
  refine exprTo_of_holds (fun s hs => (holds_subst h ha hm s hs).2) ?_
  have hle := (ids_subst h ha hm).length_le
  rw [List.length_map, List.length_map] at hle
  have hexprs := ha.frame.exprs
  have hsize := h.spans.length_le hm
  omega

/-- What is put in another's place is the replacement of an expression. -/
theorem replacement_of_swaps {m : NodeId} (hm : b.Has m) {i i' : ExprId} (hs : b.Swaps c m i i') :
    ∃ e ∈ b.root.flatMap Stmt.allExprs, ∃ r, e.id = i ∧ r.id = i' ∧
      b.replacement (b.edits callees values) σ e.id = some r := by
  obtain ⟨k, hi, hi', hne⟩ := hs
  rw [ha.slots hm, List.getElem?_map, hi, Option.map_some, Option.some.injEq] at hi'
  unfold Edit.moved at hi'
  split at hi'
  · next hany =>
    obtain ⟨d, hd, hp⟩ := List.any_eq_true.1 hany
    obtain ⟨-, rfl⟩ := of_decide_eq_true hp
    obtain ⟨e, hsite⟩ := h.site hd
    have hr : ∃ r, b.replacement (b.edits callees values) σ d.old = some r := by
      rw [replacement, Edit.find?_old (h.ready callees values).nodup hd]
      exact ⟨_, rfl⟩
    rw [← hsite.old] at hr hi'
    obtain ⟨r, hr⟩ := hr
    have hmem := hsite.evaluated.mem
    exact ⟨e, hmem, r, hsite.old, (standsFor_of_replacement h ha hmem hr).id_eq.trans hi', hr⟩
  · exact absurd hi' hne

/-- A replaced operand is in a slot that has changed. -/
theorem swaps_of_replacement {q x r : Expr} (hq : q ∈ b.root.flatMap Stmt.allExprs)
    (hx : x ∈ q.kind.children) (hr : b.replacement (b.edits callees values) σ x.id = some r) :
    b.Swaps c (.expr q.id) x.id r.id := by
  have hm := mem_allExprs_trans hq (Expr.mem_subexprs_child hx)
  have hslots : c.slots (.expr q.id) = (b.slots (.expr q.id)).map σ := by
    rw [h.spans.slots_expr hq, slots, exprKind_applied h ha hq, ExprKind.children_map, List.map_map]
    rfl
  have hmem : x.id ∈ b.slots (.expr q.id) := by
    rw [h.spans.slots_expr hq]
    exact List.mem_map_of_mem hx
  obtain ⟨k, hk⟩ := List.mem_iff_getElem?.1 hmem
  obtain ⟨d, hd, hold⟩ := List.mem_map.1 (mem_of_replacement hr)
  rw [(standsFor_of_replacement h ha hm hr).id_eq]
  refine ⟨k, hk, ?_, hold ▸ ha.ne_old (h.ready callees values) hd⟩
  rw [hslots, List.getElem?_map, hk]
  rfl

/-- What is put in another's place has its type exactly if it fits. -/
theorem staticTy_swapped (hv : b.ValuesTyped values) {m : NodeId} (hm : b.Has m) {i i' : ExprId}
    (hs : b.Swaps c m i i') {t : Ty} (ht : (b.exprTree i).staticTy b.varTy = some t) :
    (c.exprTree i').staticTy c.varTy = some t ↔ t.Fits (c.exprKind i') := by
  obtain ⟨e, he, r, rfl, rfl, hr⟩ := replacement_of_swaps h ha hm hs
  have hstands := standsFor_of_replacement h ha he hr
  rw [h.spans.exprTree he] at ht
  rw [exprTree_replaced h ha he hr, ha.frame.varTy, (hstands.held r (Expr.mem_subexprs_self r)).2]
  exact hstands.replaces.staticTy_iff hv ht

/-- An expression keeps its type if what is replaced in it fits. -/
theorem staticTy_applied (hv : b.ValuesTyped values) {e : Expr}
    (he : e ∈ b.root.flatMap Stmt.allExprs)
    (hfits : ∀ q ∈ e.subexprs, ∀ i i' t, b.Swaps c (.expr q.id) i i' →
      (b.exprTree i).staticTy b.varTy = some t → t.Fits (c.exprKind i')) :
    KeepsTy (e.staticTy b.varTy) ((c.exprTree e.id).staticTy c.varTy) := by
  rw [exprTree_applied h ha he, ha.frame.varTy]
  refine Expr.staticTy_subst fun q hq x hx r hr t ht => ?_
  have hqm := mem_allExprs_trans he hq
  have hxm := mem_allExprs_trans hqm (Expr.mem_subexprs_child hx)
  have hswaps := swaps_of_replacement h ha hqm hx hr
  have hstands := standsFor_of_replacement h ha hxm hr
  refine (hstands.replaces.staticTy_iff hv ht).2 ?_
  rw [← (hstands.held r (Expr.mem_subexprs_self r)).2]
  exact hfits q hq x.id r.id t hswaps (by rwa [h.spans.exprTree hxm])

end

/-! ## A round -/

/-- The values a round folds have the types of their expressions. -/
theorem Accepted.roundValues_typed (h : b.Accepted)
    (hok : (b.evalReporting (EvalState.startRecording {})).1 = .ok ()) :
    b.ValuesTyped b.roundValues := by
  intro e he x hx
  have hty : ∀ s ∈ b.root.flatMap Stmt.allExprs,
      (b.exprTree s.id).staticTy b.varTy = s.staticTy b.varTy :=
    fun s hs => by rw [h.spans.exprTree hs]
  have htyped := evalReporting_types (fun i => (b.exprTree i).staticTy b.varTy) hty
    (Prod.ext hok rfl) hx
  rwa [hty e he] at htyped

/-- How static types are kept from `b` to `c`: what is put in the place of an expression with a type
has the same type exactly if it fits, and an expression in which all that is replaced fits keeps its
type. -/
structure TypesKept (b c : Body) : Prop where
  replaced : ∀ m i i' t, b.Has m → b.Swaps c m i i' → (b.exprTree i).staticTy b.varTy = some t →
    ((c.exprTree i').staticTy c.varTy = some t ↔ t.Fits (c.exprKind i'))
  kept : ∀ e ∈ b.root.flatMap Stmt.allExprs,
    (∀ q ∈ e.subexprs, ∀ i i' t, b.Swaps c (.expr q.id) i i' →
      (b.exprTree i).staticTy b.varTy = some t → t.Fits (c.exprKind i')) →
    ∀ t, e.staticTy b.varTy = some t → (c.exprTree e.id).staticTy c.varTy = some t

/-- A round of folding keeps static types, but for literals in the place of objects. -/
theorem foldRound_staticTy (h : b.Accepted) {n : Nat} (hn : (b.foldRound callees).result = .ok n) :
    b.TypesKept (b.foldRound callees).body := by
  obtain ⟨hok, -, hbody⟩ := foldRound_of_ok hn
  obtain ⟨σ, origin, ha⟩ := (h.ready callees b.roundValues).applied
  have hv := h.roundValues_typed hok
  rw [hbody]
  exact ⟨fun m i i' t hm hs => staticTy_swapped h ha hv hm hs,
    fun e he hfits => staticTy_applied h ha hv he hfits⟩

/-- The sum in `chosenArm` is replaced by a literal of its type. -/
theorem foldRound_staticTy_chosenArm :
    chosenArm.Accepted ∧ (chosenArm.foldRound noSignatures).result = .ok 2 ∧
      chosenArm.Swaps (chosenArm.foldRound noSignatures).body (.stmt 1) 9 10 ∧
      ((chosenArm.foldRound noSignatures).body.exprTree 10).staticTy
        (chosenArm.foldRound noSignatures).body.varTy = some (.prim .int) := by
  have hresult : (chosenArm.foldRound noSignatures).result = .ok 2 := by rfl
  have hswaps : chosenArm.Swaps (chosenArm.foldRound noSignatures).body (.stmt 1) 9 10 :=
    ⟨0, by rfl, by rfl, by decide⟩
  have hhas : chosenArm.Has (.stmt 1) := by
    change 1 < chosenArm.stmts.size
    decide
  have hkept := foldRound_staticTy chosenArm_accepted hresult
  refine ⟨chosenArm_accepted, hresult, hswaps, ?_⟩
  exact (hkept.replaced (.stmt 1) 9 10 (.prim .int) hhas hswaps rfl).2 nofun

/-- A string that is known to be `null`, as an arm beside a string literal. -/
def nullArm : Body where
  name := "nullArm"
  vars := #[⟨"c", .prim .boolean, .param, .dummy⟩, ⟨"s", .string, .localVar, .dummy⟩]
  exprs := #[⟨.dummy, .lit .null⟩, ⟨.dummy, .var 0⟩, ⟨.dummy, .var 1⟩, ⟨.dummy, .lit (.str "a")⟩,
    ⟨.dummy, .conditional 1 2 3⟩]
  stmts := #[⟨.dummy, .decl 1 (some 0)⟩, ⟨.dummy, .ret (some 4)⟩]
  params := [0]
  block := [0, 1]

/-- In `nullArm` the local is replaced by `null`, which has no type, and so the conditional
expression loses its type too. -/
theorem staticTy_lost_nullArm :
    nullArm.Accepted ∧ (nullArm.foldRound noSignatures).result = .ok 1 ∧
      nullArm.Swaps (nullArm.foldRound noSignatures).body (.expr 4) 2 5 ∧
      (nullArm.exprTree 2).staticTy nullArm.varTy = some .string ∧
      ((nullArm.foldRound noSignatures).body.exprTree 5).staticTy
        (nullArm.foldRound noSignatures).body.varTy = none ∧
      (nullArm.exprTree 4).staticTy nullArm.varTy = some .string ∧
      ((nullArm.foldRound noSignatures).body.exprTree 4).staticTy
        (nullArm.foldRound noSignatures).body.varTy = none :=
  ⟨⟨nullArm.has_of_reaches (by decide) (by decide) (by decide), by decide⟩, by rfl,
    ⟨1, by rfl, by rfl, by decide⟩, by rfl, by rfl, by rfl, by rfl⟩

end Body

end Midend
