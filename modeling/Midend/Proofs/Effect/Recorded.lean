import Midend.Effect.Propagation
import Midend.Proofs.Body.Shape

/-!
# Recorded effects

Every expression of a tree has exactly one role (`Expr.map_snd_roles`). In an
accepted body no two nodes have the same identifier, so the effects found under
an identifier are those of its node in this role (`Effects.expr_compute`,
`Effects.stmt_compute`).
-/

namespace Midend

namespace Expr

mutual

/-- The roles of an expression are those of its operands and its own. -/
theorem map_snd_roles : ∀ e : Expr, e.roles.map Prod.snd = e.subexprs
  | node _ kind => by
    have hk := map_snd_operandRoles kind
    cases kind with
    | assign l op r =>
      simp [roles, subexprs, subexprsOfKind, map_snd_targetRoles _ l, map_snd_roles r]
    | unary op e =>
      cases op with
      | step s => simp [roles, subexprs, subexprsOfKind, map_snd_targetRoles _ e]
      | _ => simp [roles, subexprs, hk]
    | _ => simp [roles, subexprs, hk]

/-- The expressions with a role below a target are all of its expressions. -/
theorem map_snd_targetRoles (reads : Bool) :
    ∀ e : Expr, (e.targetRoles reads).map Prod.snd = e.subexprs
  | node _ kind => by
    have hk := map_snd_operandRoles kind
    cases kind with
    | paren inner => simp [targetRoles, subexprs, subexprsOfKind, map_snd_targetRoles reads inner]
    | _ => simp [targetRoles, subexprs, hk]

/-- The expressions with a role below a layer are all of its expressions. -/
theorem map_snd_operandRoles :
    ∀ k : ExprKind Expr, (operandRoles k).map Prod.snd = subexprsOfKind k
  | .lit _ | .var _ | .err | .field none .. => rfl
  | .field (some e) .. | .unary _ e | .paren e | .cast _ e | .instanceOf e _ => map_snd_roles e
  | .assign l _ r | .binary l _ r | .index l r => by
    simp [operandRoles, subexprsOfKind, map_snd_roles l, map_snd_roles r]
  | .conditional c t f => by
    simp [operandRoles, subexprsOfKind, map_snd_roles c, map_snd_roles t, map_snd_roles f]
  | .call none _ args | .create _ args => map_snd_listRoles args
  | .call (some e) _ args => by
    simp [operandRoles, subexprsOfKind, map_snd_roles e, map_snd_listRoles args]

theorem map_snd_listRoles : ∀ es : List Expr, (listRoles es).map Prod.snd = subexprsOfList es
  | [] => rfl
  | e :: es => by simp [listRoles, subexprsOfList, map_snd_roles e, map_snd_listRoles es]

end

/-- An expression with a role is below the one that gives it. -/
theorem mem_subexprs_of_roles {x e : Expr} {role : Role} (h : (role, e) ∈ x.roles) :
    e ∈ x.subexprs := by
  rw [← map_snd_roles]
  exact List.mem_map_of_mem h

end Expr

namespace Effects

/-- What no entry is about keeps what the table had. -/
theorem getD_record_of_not_mem {i : Nat} {entries : List (Nat × EffectSet)} :
    ∀ {table : Array EffectSet}, i ∉ entries.map Prod.fst →
      (record table entries).getD i .none = table.getD i .none := by
  induction entries with
  | nil => exact fun _ => rfl
  | cons entry entries ih =>
    intro table hi
    rw [List.map_cons, List.mem_cons, not_or] at hi
    have hrest : (record table (entry :: entries)).getD i .none =
        (table.setIfInBounds entry.1 entry.2).getD i .none := ih hi.2
    rw [hrest, Array.getD_eq_getD_getElem?, Array.getD_eq_getD_getElem?,
      Array.getElem?_setIfInBounds_ne (Ne.symm hi.1)]

/-- What all entries about a node say is found. -/
theorem getD_record_of_forall {i : Nat} {s : EffectSet} {entries : List (Nat × EffectSet)} :
    ∀ {table : Array EffectSet}, (∀ entry ∈ entries, entry.1 = i → entry.2 = s) →
      i ∈ entries.map Prod.fst → i < table.size → (record table entries).getD i .none = s := by
  induction entries with
  | nil => exact fun _ h => nomatch h
  | cons entry entries ih =>
    intro table hall hmem hi
    rw [List.forall_mem_cons] at hall
    by_cases hrest : i ∈ entries.map Prod.fst
    · exact ih hall.2 hrest (by simpa using hi)
    · obtain rfl : i = entry.1 := (List.mem_cons.1 hmem).resolve_right hrest
      refine (getD_record_of_not_mem hrest).trans ?_
      simp [Array.getD_eq_getD_getElem?, hi, hall.1 rfl]

/-- An entry is found if no other one is about the same node. -/
theorem getD_record {i : Nat} {s : EffectSet} {entries : List (Nat × EffectSet)}
    {table : Array EffectSet} (hnodup : (entries.map Prod.fst).Nodup) (hmem : (i, s) ∈ entries)
    (hi : i < table.size) : (record table entries).getD i .none = s := by
  refine getD_record_of_forall (fun entry he hid => ?_) (List.mem_map_of_mem hmem) hi
  rw [List.inj_on_of_nodup_map hnodup he hmem hid]

variable {b : Body} {callees : CalleeEffects}

/-- A reachable statement of an accepted body is recorded with its effects. -/
theorem stmt_compute (hb : b.Accepted) {s : Stmt} (hs : s ∈ b.root.flatMap Stmt.substmts) :
    (compute b callees).stmt s.id = s.effects callees b.varTy := by
  refine getD_record ?_ (List.mem_map_of_mem hs) (by simpa using hb.stmt_lt hs)
  rw [List.map_map]
  exact hb.nodup_stmtIds

/-- An expression is recorded with the effects it has in its role. -/
theorem expr_compute (hb : b.Accepted) {t : Stmt} (ht : t ∈ b.root.flatMap Stmt.substmts)
    {x e : Expr} {role : Role} (hx : x ∈ t.kind.exprChildren) (he : (role, e) ∈ x.roles) :
    (compute b callees).expr e.id = e.effectsAs callees role := by
  have hall : (b.root.flatMap Stmt.substmts).flatMap
      (fun s => s.kind.exprChildren.flatMap Expr.subexprs) = b.root.flatMap Stmt.allExprs :=
    List.flatMap_assoc
  have hroles : ((b.root.flatMap Stmt.substmts).flatMap
      fun s => s.kind.exprChildren.flatMap Expr.roles).map Prod.snd =
        b.root.flatMap Stmt.allExprs := by
    simp only [← hall, List.map_flatMap, Expr.map_snd_roles]
  have hmem : (role, e) ∈ (b.root.flatMap Stmt.substmts).flatMap
      fun s => s.kind.exprChildren.flatMap Expr.roles :=
    List.mem_flatMap.2 ⟨t, ht, List.mem_flatMap.2 ⟨x, hx, he⟩⟩
  refine getD_record ?_ (List.mem_map.2 ⟨_, hmem, rfl⟩) ?_
  · have hids := hb.nodup_exprIds
    rw [← hroles, List.map_map] at hids
    rw [List.map_map]
    exact hids
  · have hlt : e ∈ b.root.flatMap Stmt.allExprs := by
      rw [← hroles]
      exact List.mem_map_of_mem hmem
    simpa using hb.expr_lt hlt

end Effects

end Midend
