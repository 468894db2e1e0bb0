import Midend.Proofs.Tree.Operand
import Midend.Tree.Visit

/-!
# Parts in evaluation order

`StmtKind.parts` lists what a layer of a statement consists of in evaluation order;
its expressions and its nested statements are the parts of either sort. A walk
through a statement meets what its parts consist of, one part after the other
(`Stmt.visitsOfKind_eq`).

That `a` comes before `c` in a list is written `[a, c].Sublist l`. In a list of
lists the two are in one list in this order, or in two of which that of `a` comes
first (`pair_sublist_flatMap`).
-/

namespace Midend

/-! ## Order in lists -/

section

variable {α β : Type} {a c : α} {l : List α}

/-- A pair in order lies in the tail or starts with the head. -/
theorem pair_sublist_cons {x : α} :
    [a, c].Sublist (x :: l) ↔ [a, c].Sublist l ∨ a = x ∧ c ∈ l := by
  rw [List.sublist_cons_iff]
  simp

/-- Of two members of a list one comes first. -/
theorem pair_sublist_total (ha : a ∈ l) (hc : c ∈ l) (hne : a ≠ c) :
    [a, c].Sublist l ∨ [c, a].Sublist l := by
  induction l with
  | nil => cases ha
  | cons x l ih =>
    rw [pair_sublist_cons, pair_sublist_cons]
    rcases List.mem_cons.1 ha with rfl | ha'
    · exact .inl (.inr ⟨rfl, (List.mem_cons.1 hc).resolve_left (Ne.symm hne)⟩)
    · rcases List.mem_cons.1 hc with rfl | hc'
      · exact .inr (.inr ⟨rfl, ha'⟩)
      · exact (ih ha' hc').imp .inl .inl

/-- Two members of a list without duplicates come in one order only. -/
theorem pair_sublist_asymm (hl : l.Nodup) (h : [a, c].Sublist l) : ¬ [c, a].Sublist l := by
  induction l with
  | nil => cases h
  | cons x l ih =>
    obtain ⟨hx, hl⟩ := List.nodup_cons.1 hl
    rw [pair_sublist_cons] at h ⊢
    rintro (h' | ⟨rfl, -⟩)
    · rcases h with h | ⟨rfl, -⟩
      · exact ih hl h h'
      · exact hx (h'.subset (by simp))
    · rcases h with h | ⟨rfl, h⟩
      · exact hx (h.subset (by simp))
      · exact hx h

/-- A pair in order lies in one part or across both. -/
theorem pair_sublist_append {l₁ l₂ : List α} :
    [a, c].Sublist (l₁ ++ l₂) ↔
      [a, c].Sublist l₁ ∨ [a, c].Sublist l₂ ∨ a ∈ l₁ ∧ c ∈ l₂ := by
  induction l₁ with
  | nil => simp
  | cons x l₁ ih =>
    rw [List.cons_append, pair_sublist_cons, pair_sublist_cons, ih, List.mem_append, List.mem_cons]
    grind

/-- A pair in order lies in the list of one element or in those of two in order. -/
theorem pair_sublist_flatMap {f : β → List α} {l : List β} :
    [a, c].Sublist (l.flatMap f) ↔
      (∃ x ∈ l, [a, c].Sublist (f x)) ∨ ∃ x y, [x, y].Sublist l ∧ a ∈ f x ∧ c ∈ f y := by
  induction l with
  | nil => simp
  | cons x l ih =>
    simp only [List.flatMap_cons, pair_sublist_append, ih, List.exists_mem_cons_iff,
      pair_sublist_cons, List.mem_flatMap]
    constructor
    · rintro (h | (h | ⟨y, z, hyz, ha, hc⟩) | ⟨ha, y, hy, hc⟩)
      · exact .inl (.inl h)
      · exact .inl (.inr h)
      · exact .inr ⟨y, z, .inl hyz, ha, hc⟩
      · exact .inr ⟨x, y, .inr ⟨rfl, hy⟩, ha, hc⟩
    · rintro ((h | h) | ⟨y, z, hyz | ⟨rfl, hz⟩, ha, hc⟩)
      · exact .inl h
      · exact .inr (.inl (.inl h))
      · exact .inr (.inl (.inr ⟨y, z, hyz, ha, hc⟩))
      · exact .inr (.inr ⟨ha, z, hz, hc⟩)

/-- A selection keeps the order. -/
theorem pair_sublist_filterMap {f : β → Option α} {l : List β} :
    [a, c].Sublist (l.filterMap f) ↔ ∃ x y, [x, y].Sublist l ∧ f x = some a ∧ f y = some c := by
  rw [List.filterMap_eq_flatMap_toList, pair_sublist_flatMap]
  simp only [Option.mem_toList, or_iff_right_iff_imp]
  rintro ⟨x, -, h⟩
  cases hx : f x <;> simp [hx] at h

end

/-! ## Parts -/

/-- What a layer of a statement consists of. -/
inductive Part (ε σ : Type) where
  | expr (e : ε)
  | stmt (s : σ)
  /-- A variable that is declared. -/
  | var (v : VarId)

namespace Part

variable {ε σ : Type}

/-- The part, if it is an expression. -/
def expr? : Part ε σ → Option ε
  | expr e => some e
  | stmt _ | var _ => none

/-- The part, if it is a statement. -/
def stmt? : Part ε σ → Option σ
  | stmt s => some s
  | expr _ | var _ => none

/-- The part, if it is a variable. -/
def var? : Part ε σ → Option VarId
  | var v => some v
  | expr _ | stmt _ => none

@[simp] theorem expr?_comp_expr : (expr? : Part ε σ → Option ε) ∘ expr = some := rfl

@[simp] theorem expr?_comp_stmt : (expr? : Part ε σ → Option ε) ∘ stmt = fun _ => none := rfl

@[simp] theorem stmt?_comp_stmt : (stmt? : Part ε σ → Option σ) ∘ stmt = some := rfl

@[simp] theorem stmt?_comp_expr : (stmt? : Part ε σ → Option σ) ∘ expr = fun _ => none := rfl

@[simp] theorem var?_comp_expr : (var? : Part ε σ → Option VarId) ∘ expr = fun _ => none := rfl

@[simp] theorem var?_comp_stmt : (var? : Part ε σ → Option VarId) ∘ stmt = fun _ => none := rfl

theorem expr?_eq_some {p : Part ε σ} {e : ε} : p.expr? = some e ↔ p = .expr e := by
  cases p <;> simp [expr?]

theorem stmt?_eq_some {p : Part ε σ} {s : σ} : p.stmt? = some s ↔ p = .stmt s := by
  cases p <;> simp [stmt?]

/-- The visits of a part. -/
def visits : Part Expr Stmt → List Visit
  | expr e => e.visits
  | stmt s => s.visits
  | var v => [.var v]

end Part

namespace StmtKind

variable {ε σ : Type}

/-- What the layer consists of in evaluation order. -/
def parts : StmtKind ε σ → List (Part ε σ)
  | decl v init => .var v :: init.toList.map .expr
  | expr e | throw e => [.expr e]
  | block body => body.map .stmt
  | branch cond onTrue onFalse => .expr cond :: .stmt onTrue :: onFalse.toList.map .stmt
  | whileLoop cond body => [.expr cond, .stmt body]
  | doLoop body cond => [.stmt body, .expr cond]
  | forLoop init cond update body =>
    init.map .stmt ++ (cond.toList.map .expr ++ .stmt body :: update.map .expr)
  | forEach v iterable body => [.expr iterable, .var v, .stmt body]
  | switch selector cases =>
    .expr selector :: cases.flatMap fun c => c.labels.map .expr ++ c.body.map .stmt
  | guarded resources body catches finalizer =>
    resources.map .stmt ++ (body.map .stmt ++
      ((catches.flatMap fun c => .var c.param :: c.body.map .stmt) ++
        (finalizer.getD []).map .stmt))
  | assert cond message => .expr cond :: message.toList.map .expr
  | ret e => e.toList.map .expr
  | breakOut | continueLoop | empty | err => []

/-- The expressions among the parts are the children, in order. -/
theorem filterMap_expr?_parts (k : StmtKind ε σ) :
    k.parts.filterMap Part.expr? = k.exprChildren := by
  cases k <;>
    simp [parts, exprChildren, List.filterMap_flatMap, List.filterMap_cons, Part.expr?]

/-- The statements among the parts are the nested ones, in order. -/
theorem filterMap_stmt?_parts (k : StmtKind ε σ) :
    k.parts.filterMap Part.stmt? = k.stmtChildren := by
  cases k <;>
    simp [parts, stmtChildren, List.filterMap_flatMap, List.filterMap_cons, Part.stmt?]

/-- The variables among the parts are the declared ones, in order. -/
theorem filterMap_var?_parts (k : StmtKind ε σ) : k.parts.filterMap Part.var? = k.declared := by
  cases k <;>
    simp [parts, declared, List.filterMap_flatMap, List.filterMap_cons, Part.var?,
      ← List.map_eq_flatMap]

theorem mem_parts_expr {k : StmtKind ε σ} {e : ε} : .expr e ∈ k.parts ↔ e ∈ k.exprChildren := by
  simp [← filterMap_expr?_parts, List.mem_filterMap, Part.expr?_eq_some]

theorem mem_parts_stmt {k : StmtKind ε σ} {s : σ} : .stmt s ∈ k.parts ↔ s ∈ k.stmtChildren := by
  simp [← filterMap_stmt?_parts, List.mem_filterMap, Part.stmt?_eq_some]

/-- Expressions of a layer are among its parts in the same order. -/
theorem pair_sublist_exprChildren {k : StmtKind ε σ} {e e' : ε} :
    [e, e'].Sublist k.exprChildren ↔ [Part.expr e, .expr e'].Sublist k.parts := by
  simp [← filterMap_expr?_parts, pair_sublist_filterMap, Part.expr?_eq_some]

/-- Statements nested in a layer are among its parts in the same order. -/
theorem pair_sublist_stmtChildren {k : StmtKind ε σ} {s t : σ} :
    [s, t].Sublist k.stmtChildren ↔ [Part.stmt s, .stmt t].Sublist k.parts := by
  simp [← filterMap_stmt?_parts, pair_sublist_filterMap, Part.stmt?_eq_some]

/-- The expressions, the nested statements and the variables of a layer, sorted apart. -/
theorem flatMap_parts_perm {α : Type} (g : Part ε σ → List α) (k : StmtKind ε σ) :
    (k.parts.flatMap g).Perm
      (k.exprChildren.flatMap (fun e => g (.expr e)) ++
        (k.stmtChildren.flatMap (fun s => g (.stmt s)) ++
          k.declared.flatMap fun v => g (.var v))) := by
  rw [← filterMap_expr?_parts, ← filterMap_stmt?_parts, ← filterMap_var?_parts]
  induction k.parts with
  | nil => exact .refl _
  | cons p ps ih =>
    rw [List.flatMap_cons]
    refine (ih.append_left _).trans ?_
    cases p with
    | expr e =>
      simp only [List.filterMap_cons, Part.expr?, Part.stmt?, Part.var?, List.flatMap_cons,
        List.append_assoc, List.Perm.refl]
    | stmt s =>
      simp only [List.filterMap_cons, Part.expr?, Part.stmt?, Part.var?, List.flatMap_cons,
        List.append_assoc]
      exact List.perm_append_comm_assoc ..
    | var v =>
      simp only [List.filterMap_cons, Part.expr?, Part.stmt?, Part.var?, List.flatMap_cons]
      exact (List.perm_append_comm_assoc ..).trans (.append_left _ (List.perm_append_comm_assoc ..))

end StmtKind

namespace Visit

/-- What is visited, if it is an expression. -/
def expr? : Visit → Option ExprId
  | expr id => some id
  | stmt _ | var _ => none

/-- What is visited, if it is a statement. -/
def stmt? : Visit → Option StmtId
  | stmt id => some id
  | expr _ | var _ => none

/-- What is visited, if it is a variable. -/
def var? : Visit → Option VarId
  | var v => some v
  | expr _ | stmt _ => none

theorem mem_filterMap_expr? {l : List Visit} {id : ExprId} :
    id ∈ l.filterMap expr? ↔ .expr id ∈ l := by
  have heq : ∀ v : Visit, v.expr? = some id ↔ v = .expr id := by
    intro v
    cases v <;> simp [expr?]
  simp [List.mem_filterMap, heq]

theorem mem_filterMap_stmt? {l : List Visit} {id : StmtId} :
    id ∈ l.filterMap stmt? ↔ .stmt id ∈ l := by
  have heq : ∀ v : Visit, v.stmt? = some id ↔ v = .stmt id := by
    intro v
    cases v <;> simp [stmt?]
  simp [List.mem_filterMap, heq]

end Visit

namespace Expr

/-- An expression visits each of its nodes once, in pre-order. -/
theorem filterMap_expr?_visits (e : Expr) :
    e.visits.filterMap Visit.expr? = e.subexprs.map Expr.id := by
  rw [visits, List.filterMap_map, ← List.filterMap_eq_map]
  rfl

theorem filterMap_stmt?_visits (e : Expr) : e.visits.filterMap Visit.stmt? = [] := by
  simp [visits, Visit.stmt?]

theorem filterMap_var?_visits (e : Expr) : e.visits.filterMap Visit.var? = [] := by
  simp [visits, Visit.var?]

end Expr

namespace Stmt

/-- Statements are visited one after another. -/
theorem visitsOfList_eq (ss : List Stmt) : visitsOfList ss = ss.flatMap visits := by
  induction ss with
  | nil => rfl
  | cons s ss ih => rw [visitsOfList, ih, List.flatMap_cons]

/-- The labels of a case are visited before its body. -/
theorem visitsOfCases_eq (cs : List (SwitchCase Expr Stmt)) :
    visitsOfCases cs =
      cs.flatMap fun c => visitsOfExprs c.labels ++ c.body.flatMap visits := by
  induction cs with
  | nil => rfl
  | cons c cs ih =>
    rw [visitsOfCases, ih, visitsOfList_eq, List.flatMap_cons, List.append_assoc]

/-- The parameter of a handler is visited before its body. -/
theorem visitsOfCatches_eq (cs : List (CatchClause Stmt)) :
    visitsOfCatches cs = cs.flatMap fun c => .var c.param :: c.body.flatMap visits := by
  induction cs with
  | nil => rfl
  | cons c cs ih => rw [visitsOfCatches, ih, visitsOfList_eq, List.flatMap_cons]

/-- What a walk meets in a layer is what its parts consist of. -/
theorem visitsOfKind_eq (k : StmtKind Expr Stmt) :
    visitsOfKind k = k.parts.flatMap Part.visits := by
  have hexprs : ∀ es : List Expr, (es.map Part.expr).flatMap Part.visits = visitsOfExprs es :=
    fun es => List.flatMap_map ..
  have hstmts : ∀ ss : List Stmt, (ss.map Part.stmt).flatMap Part.visits = ss.flatMap visits :=
    fun ss => List.flatMap_map ..
  cases k with
  | branch cond onTrue onFalse =>
    cases onFalse <;> simp [visitsOfKind, StmtKind.parts, Part.visits]
  | switch selector cases =>
    simp [visitsOfKind, StmtKind.parts, Part.visits, visitsOfCases_eq, List.flatMap_assoc, hexprs,
      hstmts]
  | guarded resources body catches finalizer =>
    cases finalizer <;>
      simp [visitsOfKind, StmtKind.parts, Part.visits, visitsOfList_eq, visitsOfCatches_eq,
        List.flatMap_assoc, hstmts]
  | _ => simp [visitsOfKind, StmtKind.parts, Part.visits, visitsOfList_eq, hexprs, hstmts]

/-- A statement is visited before its parts, and these in their order. -/
theorem visits_node (id : StmtId) (k : StmtKind Expr Stmt) :
    (node id k).visits = .stmt id :: k.parts.flatMap Part.visits := by
  rw [visits, visitsOfKind_eq]

/-- A walk meets statements before those nested in them. -/
theorem filterMap_stmt?_visits (s : Stmt) :
    s.visits.filterMap Visit.stmt? = s.substmts.map Stmt.id := by
  induction s using ofChildren with
  | node id k ih =>
    have hpart : ∀ p ∈ k.parts, p.visits.filterMap Visit.stmt? =
        p.stmt?.toList.flatMap fun s => s.substmts.map Stmt.id := by
      rintro (e | s | v) hp
      · exact e.filterMap_stmt?_visits
      · simpa [Part.stmt?, Part.visits] using ih s (StmtKind.mem_parts_stmt.1 hp)
      · rfl
    have hparts : (k.parts.flatMap Part.visits).filterMap Visit.stmt? =
        k.stmtChildren.flatMap fun s => s.substmts.map Stmt.id := by
      rw [List.filterMap_flatMap, List.flatMap_congr hpart, ← List.flatMap_assoc,
        ← List.filterMap_eq_flatMap_toList, StmtKind.filterMap_stmt?_parts]
    rw [visits_node, List.filterMap_cons, Visit.stmt?, hparts, substmts, substmtsOfKind_eq,
      List.map_cons, List.map_flatMap]
    rfl

/-- The expressions of a statement are its own and those of nested statements. -/
theorem allExprs_node (id : StmtId) (k : StmtKind Expr Stmt) :
    (node id k).allExprs =
      k.exprChildren.flatMap Expr.subexprs ++ k.stmtChildren.flatMap allExprs := by
  rw [allExprs, substmts, substmtsOfKind_eq, List.flatMap_cons, List.flatMap_assoc]
  rfl

/-- A walk meets every expression once. -/
theorem filterMap_expr?_visits_perm (s : Stmt) :
    (s.visits.filterMap Visit.expr?).Perm (s.allExprs.map Expr.id) := by
  induction s using ofChildren with
  | node id k ih =>
    rw [visits_node, List.filterMap_cons, Visit.expr?, List.filterMap_flatMap, allExprs_node,
      List.map_append, List.map_flatMap, List.map_flatMap]
    refine (StmtKind.flatMap_parts_perm (fun p => p.visits.filterMap Visit.expr?) k).trans ?_
    have hvars : (k.declared.flatMap fun v =>
        (Part.var v).visits.filterMap Visit.expr?) = [] :=
      List.flatMap_eq_nil_iff.2 fun _ _ => rfl
    rw [hvars, List.append_nil]
    refine .append ?_ (.flatMap_left _ ih)
    exact .flatMap_left _ fun e _ => .of_eq e.filterMap_expr?_visits

/-- Exactly the nested statements are visited. -/
theorem stmt_mem_visits {s : Stmt} {id : StmtId} :
    .stmt id ∈ s.visits ↔ id ∈ s.substmts.map Stmt.id := by
  rw [← Visit.mem_filterMap_stmt?, filterMap_stmt?_visits]

/-- Exactly the expressions of the tree are visited. -/
theorem expr_mem_visits {s : Stmt} {id : ExprId} :
    .expr id ∈ s.visits ↔ id ∈ s.allExprs.map Expr.id := by
  rw [← Visit.mem_filterMap_expr?, s.filterMap_expr?_visits_perm.mem_iff]

/-- A walk meets a variable for everything that declares one. -/
theorem filterMap_var?_visits_perm (s : Stmt) :
    (s.visits.filterMap Visit.var?).Perm (s.substmts.flatMap fun t => t.kind.declared) := by
  induction s using ofChildren with
  | node id k ih =>
    rw [visits_node, List.filterMap_cons, Visit.var?, List.filterMap_flatMap, substmts,
      substmtsOfKind_eq, List.flatMap_cons, List.flatMap_assoc]
    refine (StmtKind.flatMap_parts_perm (fun p => p.visits.filterMap Visit.var?) k).trans ?_
    have hexprs : (k.exprChildren.flatMap fun e =>
        (Part.expr e).visits.filterMap Visit.var?) = [] :=
      List.flatMap_eq_nil_iff.2 fun e _ => e.filterMap_var?_visits
    have hvars : (k.declared.flatMap fun v =>
        (Part.var v).visits.filterMap Visit.var?) = k.declared := List.flatMap_singleton' _
    rw [hexprs, hvars, List.nil_append]
    exact List.perm_append_comm.trans (.append_left _ (.flatMap_left _ ih))

end Stmt

end Midend
