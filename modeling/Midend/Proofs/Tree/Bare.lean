import Midend.Proofs.Tree.Operand
import Midend.Tree.Equality
import Midend.Tree.Typing

/-!
# Expressions without identifiers

Expressions that are structurally equal differ in the identifiers of their nodes
only, if no two nodes have the same one (`Expr.bare_of_sameAs`). Those that differ in
nothing else are structurally equal, unless a node of them is erroneous
(`Expr.sameAs_of_bare`).
-/

namespace Midend.Expr

mutual

/-- The expression without the identifiers of its nodes. -/
def bare : Expr → Expr
  | node _ kind => node 0 (bareKind kind)

/-- The layer with bare operands. -/
def bareKind : ExprKind Expr → ExprKind Expr
  | .lit l => .lit l
  | .var v => .var v
  | .field none name isStatic => .field none name isStatic
  | .field (some e) name isStatic => .field (some e.bare) name isStatic
  | .assign l op r => .assign l.bare op r.bare
  | .binary l op r => .binary l.bare op r.bare
  | .unary op e => .unary op e.bare
  | .paren e => .paren e.bare
  | .conditional c t f => .conditional c.bare t.bare f.bare
  | .call none callee args => .call none callee (bareList args)
  | .call (some e) callee args => .call (some e.bare) callee (bareList args)
  | .create ty args => .create ty (bareList args)
  | .index a i => .index a.bare i.bare
  | .cast ty e => .cast ty e.bare
  | .instanceOf e ty => .instanceOf e.bare ty
  | .err => .err

/-- Expressions without their identifiers. -/
def bareList : List Expr → List Expr
  | [] => []
  | e :: es => e.bare :: bareList es

end

/-- Every expression is equal to itself. -/
theorem sameAs_self (e : Expr) : e.sameAs e = true := by
  cases e
  simp [sameAs]

/-- No two nodes of the lists have the same identifier. -/
def IdsApart (ss ts : List Expr) : Prop := ∀ s ∈ ss, ∀ t ∈ ts, s.id = t.id → s = t

theorem IdsApart.mono {ss ss' ts ts' : List Expr} (h : IdsApart ss' ts') (hs : ss ⊆ ss')
    (ht : ts ⊆ ts') : IdsApart ss ts := fun s hss t htt => h s (hs hss) t (ht htt)

theorem IdsApart.left {ss ss' ts ts' : List Expr} (h : IdsApart (ss ++ ss') (ts ++ ts')) :
    IdsApart ss ts := h.mono (List.subset_append_left _ _) (List.subset_append_left _ _)

theorem IdsApart.right {ss ss' ts ts' : List Expr} (h : IdsApart (ss ++ ss') (ts ++ ts')) :
    IdsApart ss' ts' := h.mono (List.subset_append_right _ _) (List.subset_append_right _ _)

mutual

/-- Equal expressions differ in their identifiers only. -/
theorem bare_of_sameAs :
    ∀ {e e' : Expr}, IdsApart e.subexprs e'.subexprs → e.sameAs e' = true → e.bare = e'.bare
  | node i k, node j l, hd, h => by
    rw [sameAs, Bool.or_eq_true] at h
    rcases h with h | h
    · rw [hd _ List.mem_cons_self _ List.mem_cons_self (beq_iff_eq.1 h)]
    · have hk := bareKind_of_sameAs
        (hd.mono (List.subset_cons_self _ _) (List.subset_cons_self _ _)) h
      rw [bare, bare, hk]

/-- Layers that are tested equal are the same without identifiers. -/
theorem bareKind_of_sameAs :
    ∀ {k l : ExprKind Expr}, IdsApart (subexprsOfKind k) (subexprsOfKind l) →
      kindSameAs k l = true → bareKind k = bareKind l := by
  intro k l hd h
  cases k with
  | err => cases h
  | lit a =>
    cases l with
    | lit b => rw [eq_of_beq h]
    | _ => cases h
  | var v =>
    cases l with
    | var w => rw [eq_of_beq h]
    | _ => cases h
  | field receiver name isStatic =>
    cases l with
    | field receiver' =>
      match receiver, receiver', hd, h with
      | none, none, _, h =>
        simp only [kindSameAs, Bool.and_eq_true, beq_iff_eq] at h
        rw [h.1, h.2]
      | some e, some e', hd, h =>
        simp only [kindSameAs, Bool.and_eq_true, beq_iff_eq] at h
        obtain ⟨⟨rfl, rfl⟩, he⟩ := h
        rw [bareKind, bareKind, bare_of_sameAs hd he]
    | _ => cases receiver <;> cases h
  | assign a op r =>
    cases l with
    | assign =>
      simp only [kindSameAs, Bool.and_eq_true, beq_iff_eq] at h
      obtain ⟨⟨rfl, hl⟩, hr⟩ := h
      rw [bareKind, bareKind, bare_of_sameAs hd.left hl, bare_of_sameAs hd.right hr]
    | _ => cases h
  | binary a op r =>
    cases l with
    | binary =>
      simp only [kindSameAs, Bool.and_eq_true, beq_iff_eq] at h
      obtain ⟨⟨rfl, hl⟩, hr⟩ := h
      rw [bareKind, bareKind, bare_of_sameAs hd.left hl, bare_of_sameAs hd.right hr]
    | _ => cases h
  | unary op e =>
    cases l with
    | unary =>
      simp only [kindSameAs, Bool.and_eq_true, beq_iff_eq] at h
      obtain ⟨rfl, h⟩ := h
      rw [bareKind, bareKind, bare_of_sameAs hd h]
    | _ => cases h
  | paren e =>
    cases l with
    | paren => rw [bareKind, bareKind, bare_of_sameAs hd h]
    | _ => cases h
  | conditional c t f =>
    cases l with
    | conditional =>
      simp only [kindSameAs, Bool.and_eq_true] at h
      obtain ⟨⟨hc, ht⟩, hf⟩ := h
      rw [bareKind, bareKind, bare_of_sameAs hd.left hc, bare_of_sameAs hd.right.left ht,
        bare_of_sameAs hd.right.right hf]
    | _ => cases h
  | call receiver callee args =>
    cases l with
    | call receiver' =>
      match receiver, receiver', hd, h with
      | none, none, hd, h =>
        simp only [kindSameAs, Bool.and_eq_true, beq_iff_eq] at h
        obtain ⟨rfl, hargs⟩ := h
        rw [bareKind, bareKind, bareList_of_sameAs hd hargs]
      | some e, some e', hd, h =>
        simp only [kindSameAs, Bool.and_eq_true, beq_iff_eq] at h
        obtain ⟨⟨rfl, he⟩, hargs⟩ := h
        rw [bareKind, bareKind, bare_of_sameAs hd.left he, bareList_of_sameAs hd.right hargs]
    | _ => cases receiver <;> cases h
  | create ty args =>
    cases l with
    | create =>
      simp only [kindSameAs, Bool.and_eq_true, beq_iff_eq] at h
      obtain ⟨rfl, h⟩ := h
      rw [bareKind, bareKind, bareList_of_sameAs hd h]
    | _ => cases h
  | index a i =>
    cases l with
    | index =>
      simp only [kindSameAs, Bool.and_eq_true] at h
      rw [bareKind, bareKind, bare_of_sameAs hd.left h.1, bare_of_sameAs hd.right h.2]
    | _ => cases h
  | cast ty e =>
    cases l with
    | cast =>
      simp only [kindSameAs, Bool.and_eq_true, beq_iff_eq] at h
      obtain ⟨rfl, h⟩ := h
      rw [bareKind, bareKind, bare_of_sameAs hd h]
    | _ => cases h
  | instanceOf e ty =>
    cases l with
    | instanceOf =>
      simp only [kindSameAs, Bool.and_eq_true, beq_iff_eq] at h
      obtain ⟨rfl, h⟩ := h
      rw [bareKind, bareKind, bare_of_sameAs hd h]
    | _ => cases h

theorem bareList_of_sameAs :
    ∀ {es es' : List Expr}, IdsApart (subexprsOfList es) (subexprsOfList es') →
      listSameAs es es' = true → bareList es = bareList es'
  | [], [], _, _ => rfl
  | e :: es, e' :: es', hd, h => by
    rw [listSameAs, Bool.and_eq_true] at h
    rw [bareList, bareList, bare_of_sameAs hd.left h.1, bareList_of_sameAs hd.right h.2]

end

theorem bareList_eq (es : List Expr) : bareList es = es.map bare := by
  induction es with
  | nil => rfl
  | cons e es ih => rw [bareList, ih, List.map_cons]

theorem bareKind_eq (k : ExprKind Expr) : bareKind k = k.map bare := by
  cases k with
  | field receiver name isStatic => cases receiver <;> rfl
  | call receiver callee args => cases receiver <;> simp [bareKind, ExprKind.map, bareList_eq]
  | create ty args => simp [bareKind, ExprKind.map, bareList_eq]
  | _ => rfl

/-- No node is erroneous. -/
def ErrFree (es : List Expr) : Prop := ∀ e ∈ es, e.kind ≠ .err

theorem ErrFree.left {ss ts : List Expr} (h : ErrFree (ss ++ ts)) : ErrFree ss :=
  fun s hs => h s (List.mem_append_left _ hs)

theorem ErrFree.right {ss ts : List Expr} (h : ErrFree (ss ++ ts)) : ErrFree ts :=
  fun s hs => h s (List.mem_append_right _ hs)

mutual

/-- Expressions that differ in their identifiers only are equal if no node is erroneous. -/
theorem sameAs_of_bare :
    ∀ {e e' : Expr}, ErrFree e.subexprs → e.bare = e'.bare → e.sameAs e' = true
  | node i k, node j l, he, h => by
    have hkl : k.map bare = l.map bare := by
      rw [← bareKind_eq, ← bareKind_eq]
      exact (node.inj h).2
    have hk : kindSameAs k l = true :=
      kindSameAs_of_map (he _ List.mem_cons_self) (fun s hs => he s (List.mem_cons_of_mem _ hs)) hkl
    rw [sameAs, hk, Bool.or_true]

/-- Layers that are the same without identifiers are tested equal when they have no error. -/
theorem kindSameAs_of_map :
    ∀ {k l : ExprKind Expr}, k ≠ .err → ErrFree (subexprsOfKind k) → k.map bare = l.map bare →
      kindSameAs k l = true := by
  intro k l hk he h
  cases k with
  | err => exact absurd rfl hk
  | lit a =>
    cases l with
    | lit b => exact beq_iff_eq.2 (ExprKind.lit.inj h)
    | _ => cases h
  | var v =>
    cases l with
    | var w => exact beq_iff_eq.2 (ExprKind.var.inj h)
    | _ => cases h
  | field receiver name isStatic =>
    cases l with
    | field receiver' =>
      obtain ⟨hr, rfl, rfl⟩ := ExprKind.field.inj h
      match receiver, receiver', hr, he with
      | none, none, _, _ => simp [kindSameAs]
      | some e, some e', hr, he =>
        simp [kindSameAs, sameAs_of_bare he (Option.some.inj hr)]
    | _ => cases h
  | assign a op r =>
    cases l with
    | assign =>
      obtain ⟨hl, rfl, hr⟩ := ExprKind.assign.inj h
      simp [kindSameAs, sameAs_of_bare he.left hl, sameAs_of_bare he.right hr]
    | _ => cases h
  | binary a op r =>
    cases l with
    | binary =>
      obtain ⟨hl, rfl, hr⟩ := ExprKind.binary.inj h
      simp [kindSameAs, sameAs_of_bare he.left hl, sameAs_of_bare he.right hr]
    | _ => cases h
  | unary op e =>
    cases l with
    | unary =>
      obtain ⟨rfl, he'⟩ := ExprKind.unary.inj h
      simp [kindSameAs, sameAs_of_bare he he']
    | _ => cases h
  | paren e =>
    cases l with
    | paren => exact sameAs_of_bare he (ExprKind.paren.inj h)
    | _ => cases h
  | conditional c t f =>
    cases l with
    | conditional =>
      obtain ⟨hc, ht, hf⟩ := ExprKind.conditional.inj h
      simp [kindSameAs, sameAs_of_bare he.left hc, sameAs_of_bare he.right.left ht,
        sameAs_of_bare he.right.right hf]
    | _ => cases h
  | call receiver callee args =>
    cases l with
    | call receiver' callee' args' =>
      obtain ⟨hr, rfl, has⟩ := ExprKind.call.inj h
      match receiver, receiver', hr, he with
      | none, none, _, he => simp [kindSameAs, listSameAs_of_bare he has]
      | some e, some e', hr, he =>
        simp [kindSameAs, sameAs_of_bare he.left (Option.some.inj hr),
          listSameAs_of_bare he.right has]
    | _ => cases h
  | create ty args =>
    cases l with
    | create =>
      obtain ⟨rfl, has⟩ := ExprKind.create.inj h
      simp [kindSameAs, listSameAs_of_bare he has]
    | _ => cases h
  | index a i =>
    cases l with
    | index =>
      obtain ⟨ha, hi⟩ := ExprKind.index.inj h
      simp [kindSameAs, sameAs_of_bare he.left ha, sameAs_of_bare he.right hi]
    | _ => cases h
  | cast ty e =>
    cases l with
    | cast =>
      obtain ⟨rfl, he'⟩ := ExprKind.cast.inj h
      simp [kindSameAs, sameAs_of_bare he he']
    | _ => cases h
  | instanceOf e ty =>
    cases l with
    | instanceOf =>
      obtain ⟨he', rfl⟩ := ExprKind.instanceOf.inj h
      simp [kindSameAs, sameAs_of_bare he he']
    | _ => cases h

theorem listSameAs_of_bare :
    ∀ {es es' : List Expr}, ErrFree (subexprsOfList es) → es.map bare = es'.map bare →
      listSameAs es es' = true
  | [], [], _, _ => rfl
  | e :: es, e' :: es', he, h => by
    obtain ⟨hh, ht⟩ := List.cons.inj h
    rw [listSameAs, sameAs_of_bare he.left hh, listSameAs_of_bare he.right ht, Bool.and_true]

end

/-- The fingerprint of a node is its layer and those of its children in order. -/
theorem fingerprint_node (id : ExprId) (k : ExprKind Expr) :
    (node id k).fingerprint = (k.map fun _ => ()) :: k.children.flatMap fingerprint := by
  rw [fingerprint, subexprs, subexprsOfKind_eq, List.map_cons, List.map_flatMap]
  rfl

/-- Identifiers do not matter to fingerprints. -/
theorem fingerprint_bare (e : Expr) : e.bare.fingerprint = e.fingerprint := by
  induction e using ofChildren with
  | node id k ih =>
    rw [bare, bareKind_eq, fingerprint_node, fingerprint_node, ExprKind.map_map,
      ExprKind.children_map, List.flatMap_map, List.flatMap_congr ih]

/-- Identifiers do not matter to static types. -/
theorem staticTy_bare (env : TyEnv) : ∀ e : Expr, e.bare.staticTy env = e.staticTy env
  | node _ (.lit _) | node _ (.var _) | node _ (.field none ..) | node _ (.field (some _) ..)
  | node _ (.call none ..) | node _ (.call (some _) ..) | node _ (.create ..) | node _ (.cast ..)
  | node _ (.instanceOf ..) | node _ .err => rfl
  | node _ (.paren e) | node _ (.assign e ..) => staticTy_bare env e
  | node _ (.index a _) => congrArg elementTy (staticTy_bare env a)
  | node _ (.unary op e) => by
    rw [staticTy_unary, ← staticTy_bare env e]
    exact staticTy_unary ..
  | node _ (.binary l op r) => by
    rw [staticTy_binary, ← staticTy_bare env l, ← staticTy_bare env r]
    exact staticTy_binary ..
  | node _ (.conditional c t f) => by
    rw [staticTy_conditional, ← staticTy_bare env t, ← staticTy_bare env f]
    exact staticTy_conditional ..

end Midend.Expr
