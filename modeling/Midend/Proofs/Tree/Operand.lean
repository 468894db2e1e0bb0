import Midend.Proofs.Body.Shape
import Midend.Tree.Role

/-!
# Operands and their roles

Trees are taken apart one layer at a time. `Expr.ofChildren` and `Stmt.ofChildren`
are induction on a tree through the children of its layers, and
`Expr.rolesAs_node` lists an expression with its operands and their roles by the
roles of the layer's own operands, `ExprKind.operands`.
-/

namespace Midend

theorem sublist_flatMap {α β : Type} {f : α → List β} {as : List α} {a : α} (h : a ∈ as) :
    (f a).Sublist (as.flatMap f) :=
  List.sublist_flatten_of_mem (List.mem_map_of_mem h)

namespace ExprKind

variable {ε δ γ : Type}

/-- Mapping twice is mapping once. -/
theorem map_map (f : ε → δ) (g : δ → γ) (k : ExprKind ε) : (k.map f).map g = k.map (g ∘ f) := by
  cases k with
  | field receiver name isStatic => cases receiver <;> rfl
  | call receiver callee args => cases receiver <;> simp [map]
  | create ty args => simp [map]
  | _ => rfl

/-- A map that changes no child changes nothing. -/
theorem map_eq_self {f : ε → ε} {k : ExprKind ε} (h : ∀ e ∈ k.children, f e = e) :
    k.map f = k := by
  have hid : k.map f = k.map id := map_congr h
  rw [hid]
  cases k with
  | field receiver name isStatic => cases receiver <;> rfl
  | call receiver callee args => cases receiver <;> simp [map]
  | create ty args => simp [map]
  | _ => rfl

/-- The operands of a layer in the given role, with their own roles. -/
def operands : Role → ExprKind ε → List (Role × ε)
  | .value, assign l op r => [(.target op.isSome, l), (.value, r)]
  | .value, unary (.step _) e => [(.target true, e)]
  | .target reads, paren e => [(.target reads, e)]
  | _, k => k.children.map (.value, ·)

/-- The operands of a layer are its children in order. -/
theorem map_snd_operands (role : Role) (k : ExprKind ε) :
    (k.operands role).map Prod.snd = k.children := by
  unfold operands
  split
  · rfl
  · rfl
  · rfl
  · simp [Function.comp_def]

theorem mem_children_of_operands {role r : Role} {k : ExprKind ε} {e : ε}
    (h : (r, e) ∈ k.operands role) : e ∈ k.children := by
  rw [← map_snd_operands role]
  exact List.mem_map_of_mem h

/-- A target is that of an assignment or step, or inside a parenthesised one. -/
theorem target_of_operands {role : Role} {k : ExprKind ε} {reads : Bool} {e : ε}
    (h : (Role.target reads, e) ∈ k.operands role) :
    role = .value ∧ ((∃ op r, k = assign e op r) ∨ ∃ s, k = unary (.step s) e) ∨
      role = .target reads ∧ k = paren e := by
  unfold operands at h
  split at h
  · next l op r =>
    obtain ⟨-, rfl⟩ : reads = op.isSome ∧ e = l := by simpa using h
    exact .inl ⟨rfl, .inl ⟨op, r, rfl⟩⟩
  · next s x =>
    obtain ⟨-, rfl⟩ : reads = true ∧ e = x := by simpa using h
    exact .inl ⟨rfl, .inr ⟨s, rfl⟩⟩
  · next x =>
    obtain ⟨rfl, rfl⟩ : reads = _ ∧ e = x := by simpa using h
    exact .inr ⟨rfl, rfl⟩
  · simp at h

theorem operands_map (role : Role) (f : ε → δ) (k : ExprKind ε) :
    (k.map f).operands role = (k.operands role).map (Prod.map id f) := by
  cases k with
  | field receiver name isStatic => cases role <;> cases receiver <;> rfl
  | call receiver callee args => cases role <;> cases receiver <;> simp [map, operands, children]
  | create ty args => cases role <;> simp [map, operands, children]
  | unary op e => cases role <;> cases op <;> rfl
  | _ => cases role <;> rfl

end ExprKind

namespace StmtKind

variable {ε δ σ τ : Type}

/-- Mapping twice is mapping once. -/
theorem map_map {ε' σ' : Type} (f : ε → δ) (g : σ → τ) (f' : δ → ε') (g' : τ → σ')
    (k : StmtKind ε σ) : (k.map f g).map f' g' = k.map (f' ∘ f) (g' ∘ g) := by
  cases k with
  | guarded resources body catches finalizer => cases finalizer <;> simp [map]
  | _ => simp [map]

theorem map_congr_exprs {f f' : ε → δ} {g : σ → τ} {k : StmtKind ε σ}
    (h : ∀ e ∈ k.exprChildren, f e = f' e) : k.map f g = k.map f' g := by
  cases k with
  | switch selector cases =>
    simp only [exprChildren, List.mem_cons, List.mem_flatMap] at h
    simp only [map, h selector (.inl rfl)]
    congr 1
    refine List.map_congr_left fun c hc => ?_
    rw [List.map_congr_left fun e he => h e (.inr ⟨c, hc, he⟩)]
  | decl v init => cases init <;> simp_all [exprChildren, map]
  | ret e => cases e <;> simp_all [exprChildren, map]
  | assert cond message => cases message <;> simp_all [exprChildren, map]
  | forLoop init cond update body => cases cond <;> simp_all [exprChildren, map]
  | _ => simp_all [exprChildren, map]

/-- A map that changes no part changes nothing. -/
theorem map_eq_self {f : ε → ε} {g : σ → σ} {k : StmtKind ε σ}
    (hf : ∀ e ∈ k.exprChildren, f e = e) (hg : ∀ s ∈ k.stmtChildren, g s = s) : k.map f g = k := by
  have hid : k.map f g = k.map id id := (map_congr hg).trans (map_congr_exprs hf)
  rw [hid]
  cases k with
  | guarded resources body catches finalizer => cases finalizer <;> simp [map]
  | _ => simp [map]

end StmtKind

namespace Expr

/-- The nodes of a tree are its root and those of its children. -/
theorem subexprs_eq (e : Expr) : e.subexprs = e :: subexprsOfKind e.kind := by
  cases e
  rfl

/-- The nodes of a child are among those of the layer, in their order. -/
theorem subexprs_sublist {k : ExprKind Expr} {c : Expr} (h : c ∈ k.children) :
    c.subexprs.Sublist (subexprsOfKind k) := by
  rw [subexprsOfKind_eq]
  exact sublist_flatMap h

/-- A child has fewer nodes. -/
theorem length_subexprs_lt {i : ExprId} {k : ExprKind Expr} {c : Expr} (h : c ∈ k.children) :
    c.subexprs.length < (node i k).subexprs.length :=
  Nat.lt_succ_of_le (subexprs_sublist h).length_le

theorem subexprs_subset {i : ExprId} {k : ExprKind Expr} {c : Expr} (h : c ∈ k.children) :
    c.subexprs ⊆ (node i k).subexprs :=
  fun _ hs => List.mem_cons_of_mem _ ((subexprs_sublist h).subset hs)

/-- A child is a node of the tree. -/
theorem mem_subexprs_child : ∀ {e c : Expr}, c ∈ e.kind.children → c ∈ e.subexprs
  | node .., _, h => subexprs_subset h (mem_subexprs_self _)

/-- Induction on an expression through the operands of its layers. -/
@[elab_as_elim]
theorem ofChildren {P : Expr → Prop}
    (node : ∀ id k, (∀ c ∈ k.children, P c) → P (node id k)) (e : Expr) : P e := by
  induction hn : e.subexprs.length using Nat.strongRecOn generalizing e with
  | _ n ih =>
    obtain ⟨id, k⟩ := e
    exact node id k fun c hc => ih _ (hn ▸ length_subexprs_lt hc) c rfl

/-- A subexpression has no more nodes than the tree. -/
theorem length_subexprs_le {e s : Expr} (h : s ∈ e.subexprs) :
    s.subexprs.length ≤ e.subexprs.length := by
  induction e using ofChildren with
  | node id k ih =>
    have hmem := h
    rw [subexprs, subexprsOfKind_eq] at hmem
    rcases List.mem_cons.1 hmem with rfl | hmem
    · exact Nat.le_refl _
    · obtain ⟨c, hc, hs⟩ := List.mem_flatMap.1 hmem
      exact Nat.le_trans (ih c hc hs) (Nat.le_of_lt (length_subexprs_lt hc))

/-- The expression in a role and its operands with theirs, each before its own operands. -/
def rolesAs (e : Expr) : Role → List (Role × Expr)
  | .value => e.roles
  | .target reads => e.targetRoles reads

theorem listRoles_eq (es : List Expr) : listRoles es = es.flatMap roles := by
  induction es with
  | nil => rfl
  | cons e es ih => rw [listRoles, ih, List.flatMap_cons]

theorem operandRoles_eq (k : ExprKind Expr) : operandRoles k = k.children.flatMap roles := by
  cases k with
  | field receiver name isStatic =>
    cases receiver <;> simp [operandRoles, ExprKind.children]
  | call receiver callee args =>
    cases receiver <;> simp [operandRoles, ExprKind.children, listRoles_eq]
  | _ => simp [operandRoles, ExprKind.children, listRoles_eq]

/-- A node in its role comes before its operands in theirs. -/
theorem rolesAs_node (id : ExprId) (k : ExprKind Expr) (role : Role) :
    (node id k).rolesAs role =
      (role, node id k) :: (k.operands role).flatMap fun o => o.2.rolesAs o.1 := by
  have hvalues : (k.children.map (Role.value, ·)).flatMap (fun o => o.2.rolesAs o.1) =
      operandRoles k := by
    rw [operandRoles_eq, List.flatMap_map]
    rfl
  cases role with
  | value =>
    cases k with
    | assign l op r => simp [ExprKind.operands, rolesAs, roles]
    | unary op e =>
      cases op with
      | step s => simp [ExprKind.operands, rolesAs, roles]
      | _ => exact congrArg (List.cons _) hvalues.symm
    | _ => exact congrArg (List.cons _) hvalues.symm
  | target reads =>
    cases k with
    | paren inner => simp [ExprKind.operands, rolesAs, targetRoles]
    | _ => exact congrArg (List.cons _) hvalues.symm

theorem mem_rolesAs_self : ∀ (e : Expr) (role : Role), (role, e) ∈ e.rolesAs role
  | node id k, role => by
    rw [rolesAs_node]
    exact List.mem_cons_self

theorem mem_rolesAs_operand {i : ExprId} {k : ExprKind Expr} {role : Role} {o : Role × Expr}
    (ho : o ∈ k.operands role) : o ∈ (node i k).rolesAs role := by
  rw [rolesAs_node]
  exact List.mem_cons_of_mem _ (List.mem_flatMap.2 ⟨o, ho, mem_rolesAs_self o.2 o.1⟩)

/-- Each node has one role. -/
theorem map_snd_rolesAs (e : Expr) : ∀ role, (e.rolesAs role).map Prod.snd = e.subexprs := by
  induction e using ofChildren with
  | node id k ih =>
    intro role
    rw [rolesAs_node, List.map_cons, List.map_flatMap, subexprs, subexprsOfKind_eq,
      ← ExprKind.map_snd_operands role, List.flatMap_map]
    congr 1
    exact List.flatMap_congr fun o ho => ih o.2 (ExprKind.mem_children_of_operands ho) o.1

/-- The roles in an operand are roles in the expression. -/
theorem rolesAs_trans {e s u : Expr} {q r : Role} : ∀ {role : Role},
    (q, s) ∈ e.rolesAs role → (r, u) ∈ s.rolesAs q → (r, u) ∈ e.rolesAs role := by
  induction e using ofChildren with
  | node id k ih =>
    intro role hs hu
    rw [rolesAs_node] at hs
    rcases List.mem_cons.1 hs with hs | hs
    · obtain ⟨rfl, rfl⟩ := Prod.mk.inj hs
      exact hu
    · obtain ⟨o, ho, hs⟩ := List.mem_flatMap.1 hs
      rw [rolesAs_node]
      have hc := ExprKind.mem_children_of_operands ho
      exact List.mem_cons_of_mem _ (List.mem_flatMap.2 ⟨o, ho, ih o.2 hc hs hu⟩)

end Expr

namespace Stmt

/-- A nested statement has fewer nodes. -/
theorem length_substmts_lt {i : StmtId} {k : StmtKind Expr Stmt} {c : Stmt}
    (h : c ∈ k.stmtChildren) : c.substmts.length < (node i k).substmts.length := by
  rw [substmts, substmtsOfKind_eq, List.length_cons, Nat.lt_succ_iff]
  exact (sublist_flatMap h).length_le

theorem substmts_subset {i : StmtId} {k : StmtKind Expr Stmt} {c : Stmt}
    (h : c ∈ k.stmtChildren) : c.substmts ⊆ (node i k).substmts := by
  intro t ht
  rw [substmts, substmtsOfKind_eq]
  exact List.mem_cons_of_mem _ (List.mem_flatMap.2 ⟨c, h, ht⟩)

/-- A statement is one of its own nodes. -/
theorem mem_substmts_self (s : Stmt) : s ∈ s.substmts := by
  cases s
  exact List.mem_cons_self

/-- A nested statement is a node of the statement. -/
theorem mem_substmts_child : ∀ {s c : Stmt}, c ∈ s.kind.stmtChildren → c ∈ s.substmts
  | node .., _, h => substmts_subset h (mem_substmts_self _)

/-- Induction on a statement through the statements nested in its layers. -/
@[elab_as_elim]
theorem ofChildren {P : Stmt → Prop}
    (node : ∀ id k, (∀ c ∈ k.stmtChildren, P c) → P (node id k)) (s : Stmt) : P s := by
  induction hn : s.substmts.length using Nat.strongRecOn generalizing s with
  | _ n ih =>
    obtain ⟨id, k⟩ := s
    exact node id k fun c hc => ih _ (hn ▸ length_substmts_lt hc) c rfl

/-- The nodes of a nested statement are among those of the whole, in their order. -/
theorem substmts_sublist {s t : Stmt} (h : t ∈ s.substmts) : t.substmts.Sublist s.substmts := by
  induction s using ofChildren with
  | node id k ih =>
    rw [substmts, substmtsOfKind_eq] at h ⊢
    rcases List.mem_cons.1 h with rfl | h
    · rw [substmts, substmtsOfKind_eq]
    · obtain ⟨c, hc, h⟩ := List.mem_flatMap.1 h
      exact ((ih c hc h).trans (sublist_flatMap hc)).cons _

section

variable {roots : List Stmt} {s : Stmt} (hn : (roots.flatMap nodes).Nodup)
  (hs : s ∈ roots.flatMap substmts)

include hn hs

theorem nodup_stmtIds_of_mem : (s.substmts.map Stmt.id).Nodup := by
  obtain ⟨r, hr, hs⟩ := List.mem_flatMap.1 hs
  have hsub := (substmts_sublist hs).trans (sublist_flatMap hr)
  exact (hsub.map Stmt.id).nodup (nodup_stmtIds hn)

theorem nodup_exprIds_of_mem : (s.allExprs.map Expr.id).Nodup := by
  obtain ⟨r, hr, hs⟩ := List.mem_flatMap.1 hs
  have hsub := ((substmts_sublist hs).flatMap _).trans (sublist_flatMap (f := allExprs) hr)
  exact (hsub.map Expr.id).nodup (nodup_exprIds hn)

end

end Stmt

end Midend
