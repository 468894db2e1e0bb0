import Midend.Proofs.Body.Trees
import Midend.Proofs.Tree.Parts

/-!
# Visits of reachable statements

A walk names every form of a statement and takes its parts in evaluation order,
whereas `Stmt.substmts` and `Stmt.allExprs` follow the lists of children, statements
before expressions. If no node of a body is shared, both meet what lies below the
statement in the arenas, every node of it once.

Variables are not nodes, and one can be declared in several places. `Declaration`
is such a place, and a walk meets a variable for each declaration below the
statement. The main result is `Body.visits_each_once`.
-/

namespace Midend

/-! ## Declarations -/

/-- A place in a body that declares a variable. -/
inductive Declaration where
  | decl (s : StmtId)
  | forEach (s : StmtId)
  /-- A catch clause, by its position in the `try` statement. -/
  | catchClause (s : StmtId) (index : Nat)

/-- The statement that the declaration belongs to. -/
def Declaration.stmt : Declaration → StmtId
  | decl s | forEach s | catchClause s _ => s

namespace StmtKind

variable {ε δ σ τ : Type}

/-- The declarations of a statement, with the variables that they declare. -/
def declarations (id : StmtId) : StmtKind ε σ → List (Declaration × VarId)
  | decl v _ => [(.decl id, v)]
  | forEach v .. => [(.forEach id, v)]
  | guarded _ _ catches _ => catches.zipIdx.map fun c => (.catchClause id c.2, c.1.param)
  | _ => []

/-- What a layer declares does not depend on its parts. -/
theorem declarations_map (f : ε → δ) (g : σ → τ) (id : StmtId) (k : StmtKind ε σ) :
    (k.map f g).declarations id = k.declarations id := by
  cases k <;> simp [map, declarations, List.zipIdx_map]

/-- The declarations of a layer are those of the variables it declares. -/
theorem map_snd_declarations (id : StmtId) (k : StmtKind ε σ) :
    (k.declarations id).map Prod.snd = k.declared := by
  cases k with
  | guarded resources body catches finalizer =>
    have hfst : catches.zipIdx.map Prod.fst = catches := List.zipIdx_map_fst 0 catches
    rw [declarations, declared, List.map_map, ← congrArg (List.map (·.param)) hfst, List.map_map]
    rfl
  | _ => rfl

/-- A declaration belongs to the statement that makes it. -/
theorem stmt_of_mem_declarations {id : StmtId} {k : StmtKind ε σ} {d : Declaration} {v : VarId}
    (h : (d, v) ∈ k.declarations id) : d.stmt = id := by
  cases k with
  | decl | forEach =>
    obtain ⟨rfl, -⟩ := Prod.mk.inj (List.mem_singleton.1 h)
    rfl
  | guarded =>
    obtain ⟨c, -, heq⟩ := List.mem_map.1 h
    obtain ⟨rfl, -⟩ := Prod.mk.inj heq
    rfl
  | _ => cases h

/-- A layer makes no declaration twice. -/
theorem nodup_declarations (id : StmtId) (k : StmtKind ε σ) :
    ((k.declarations id).map Prod.fst).Nodup := by
  cases k with
  | guarded resources body catches finalizer =>
    have hpos : (catches.zipIdx.map fun c => Declaration.catchClause id c.2) =
        (catches.zipIdx.map Prod.snd).map (Declaration.catchClause id) := by
      rw [List.map_map]
      rfl
    rw [declarations, List.map_map, Function.comp_def, hpos, List.zipIdx_map_snd]
    exact (List.nodup_range' _).map fun _ _ h => (Declaration.catchClause.inj h).2
  | decl | forEach => exact List.nodup_singleton _
  | _ => exact .nil

end StmtKind

namespace Stmt

/-- The declarations of the statement and of those nested in it. -/
def declarations (s : Stmt) : List (Declaration × VarId) :=
  s.substmts.flatMap fun t => t.kind.declarations t.id

/-- The declarations of a statement are those of its nested statements, in order. -/
theorem map_snd_declarations (s : Stmt) :
    s.declarations.map Prod.snd = s.substmts.flatMap fun t => t.kind.declared := by
  rw [declarations, List.map_flatMap]
  exact List.flatMap_congr fun t _ => t.kind.map_snd_declarations t.id

/-- If no statement occurs twice, no declaration does. -/
theorem nodup_declarations {s : Stmt} (h : (s.substmts.map Stmt.id).Nodup) :
    (s.declarations.map Prod.fst).Nodup := by
  rw [declarations, List.map_flatMap, List.nodup_flatMap]
  refine ⟨fun t _ => t.kind.nodup_declarations t.id, (List.pairwise_map.1 h).imp fun hne => ?_⟩
  intro d hd hd'
  obtain ⟨⟨_, v⟩, hv, rfl⟩ := List.mem_map.1 hd
  obtain ⟨⟨_, v'⟩, hv', rfl⟩ := List.mem_map.1 hd'
  exact hne ((StmtKind.stmt_of_mem_declarations hv).symm.trans
    (StmtKind.stmt_of_mem_declarations hv'))

end Stmt

namespace Body

variable {b : Body}

/-- The body has the declaration, and it declares the variable. -/
def Declares (b : Body) : Declaration → VarId → Prop
  | .decl s, v => ∃ init, b.stmtKind s = .decl v init
  | .forEach s, v => ∃ iterable body, b.stmtKind s = .forEach v iterable body
  | .catchClause s i, v => ∃ resources body catches finalizer,
      b.stmtKind s = .guarded resources body catches finalizer ∧
        catches[i]?.map (·.param) = some v

theorem declares_iff {d : Declaration} {v : VarId} :
    b.Declares d v ↔ (d, v) ∈ (b.stmtKind d.stmt).declarations d.stmt := by
  cases d with
  | decl s =>
    cases hk : b.stmtKind s <;>
      simp [Declares, Declaration.stmt, StmtKind.declarations, hk, eq_comm]
  | forEach s =>
    cases hk : b.stmtKind s <;>
      simp [Declares, Declaration.stmt, StmtKind.declarations, hk, eq_comm]
  | catchClause s i =>
    cases hk : b.stmtKind s with
    | guarded resources body catches finalizer =>
      simp [Declares, Declaration.stmt, StmtKind.declarations, hk, List.mem_zipIdx_iff_getElem?]
    | _ => simp [Declares, Declaration.stmt, StmtKind.declarations, hk]

namespace Spans

variable {roots : List Stmt} {t : Stmt}

/-- The declarations of a tree are those of the statements that its own leads to. -/
theorem mem_declarations_iff (h : b.Spans roots) (ht : t ∈ roots.flatMap Stmt.substmts)
    {d : Declaration} {v : VarId} :
    (d, v) ∈ t.declarations ↔ b.LeadsTo (.stmt t.id) (.stmt d.stmt) ∧ b.Declares d v := by
  have hkind : ∀ u ∈ t.substmts,
      (b.stmtKind u.id).declarations u.id = u.kind.declarations u.id := by
    intro u hu
    obtain ⟨s, hs, ht⟩ := List.mem_flatMap.1 ht
    have hroot := List.mem_flatMap.2 ⟨s, hs, Stmt.substmts_trans ht hu⟩
    rw [h.stmtKind hroot, StmtKind.declarations_map]
  rw [← h.mem_nodes_iff ht, Stmt.stmt_mem_nodes, declares_iff, Stmt.declarations,
    List.mem_flatMap]
  constructor
  · rintro ⟨u, hu, hd⟩
    have hid : d.stmt = u.id := StmtKind.stmt_of_mem_declarations hd
    rw [hid, hkind u hu]
    exact ⟨⟨u, hu, rfl⟩, hd⟩
  · rintro ⟨⟨u, hu, hid⟩, hd⟩
    rw [← hid, hkind u hu] at hd
    exact ⟨u, hu, hd⟩

end Spans

/-! ## Walks -/

/-- What a walk through a statement acts on, against the lists of its statements and expressions and
against what lies below it. -/
structure Logs (b : Body) (s : StmtId) (log : List Visit) : Prop where
  /-- Whatever the action, a walk acts on what is logged, in order. -/
  acts : ∀ {m : Type → Type} [Monad m] [LawfulMonad m] (f : Visit → m Unit),
    (b.stmtTree s).forVisits f = log.forM f
  stmts : log.filterMap Visit.stmt? = (b.stmtTree s).substmts.map Stmt.id
  exprs : (log.filterMap Visit.expr?).Perm ((b.stmtTree s).allExprs.map Expr.id)
  nodup_stmts : (log.filterMap Visit.stmt?).Nodup
  nodup_exprs : (log.filterMap Visit.expr?).Nodup
  stmt_mem : ∀ t, .stmt t ∈ log ↔ b.LeadsTo (.stmt s) (.stmt t)
  expr_mem : ∀ e, .expr e ∈ log ↔ b.LeadsTo (.stmt s) (.expr e)
  /-- The variables are those of the declarations below the statement, each of these taken once. -/
  vars : ∃ ds : List (Declaration × VarId),
    log.filterMap Visit.var? = ds.map Prod.snd ∧ (ds.map Prod.fst).Nodup ∧
      ∀ d v, (d, v) ∈ ds ↔ b.LeadsTo (.stmt s) (.stmt d.stmt) ∧ b.Declares d v

/-- If no node is shared, a walk through a reachable statement meets the statements and expressions
that are listed for it, which are those it leads to, each of them once, and a variable for each
declaration it leads to. -/
theorem visits_each_once (hb : ∀ n, b.Reaches n → b.Has n) (htree : b.sharedNode? = none)
    {s : StmtId} (hs : b.Reaches (.stmt s)) : b.Logs s (b.stmtTree s).visits := by
  have hspans := spans hb htree
  obtain ⟨t, ht, rfl⟩ := hspans.exists_stmt hs
  have hread : b.stmtTree t.id = t := hspans.stmtTree ht
  have hstmts := Stmt.nodup_stmtIds_of_mem hspans.nodup ht
  have hexprs := Stmt.nodup_exprIds_of_mem hspans.nodup ht
  have hvars := t.filterMap_var?_visits_perm
  rw [← Stmt.map_snd_declarations] at hvars
  -- The declarations in the order in which the walk meets their variables.
  obtain ⟨ds, hds, hperm⟩ := (congrFun₂ (List.eq_map_comp_perm Prod.snd) _ _).mpr hvars
  rw [hread]
  exact {
    acts := fun f => by rw [hread, Stmt.forVisits_eq]
    stmts := by rw [hread, Stmt.filterMap_stmt?_visits]
    exprs := by
      rw [hread]
      exact t.filterMap_expr?_visits_perm
    nodup_stmts := by rwa [Stmt.filterMap_stmt?_visits]
    nodup_exprs := t.filterMap_expr?_visits_perm.nodup_iff.2 hexprs
    stmt_mem := fun u => by
      rw [Stmt.stmt_mem_visits, List.mem_map, ← Stmt.stmt_mem_nodes, hspans.mem_nodes_iff ht]
    expr_mem := fun e => by
      rw [Stmt.expr_mem_visits, List.mem_map, ← Stmt.expr_mem_nodes, hspans.mem_nodes_iff ht]
    vars := ⟨ds, hds, (hperm.map _).nodup_iff.2 (Stmt.nodup_declarations hstmts),
      fun d v => hperm.mem_iff.trans (hspans.mem_declarations_iff ht)⟩ }

/-- A `try` statement around `for (int x = 0; a; x++) do ; while (a);`, with two catch clauses for
the same variable. -/
def caughtTwice : Body where
  name := "caughtTwice"
  vars := #[⟨"a", .prim .boolean, .param, .dummy⟩, ⟨"x", .prim .int, .localVar, .dummy⟩,
    ⟨"e", .named "Exception", .catchParam, .dummy⟩]
  exprs := #[⟨.dummy, .lit (.int 0)⟩, ⟨.dummy, .var 0⟩, ⟨.dummy, .var 0⟩, ⟨.dummy, .var 1⟩,
    ⟨.dummy, .unary (.step ⟨true, true⟩) 3⟩]
  stmts := #[⟨.dummy, .decl 1 (some 0)⟩, ⟨.dummy, .empty⟩, ⟨.dummy, .doLoop 1 1⟩,
    ⟨.dummy, .forLoop [0] (some 2) [4] 2⟩, ⟨.dummy, .ret none⟩,
    ⟨.dummy, .guarded [] [3] [⟨.dummy, 2, [4]⟩, ⟨.dummy, 2, []⟩] none⟩]
  params := [0]
  block := [5]

theorem visits_each_once_caughtTwice :
    (∀ n, caughtTwice.Reaches n → caughtTwice.Has n) ∧ caughtTwice.sharedNode? = none ∧
      caughtTwice.Reaches (.stmt 5) ∧
      ((caughtTwice.stmtTree 5).allExprs.map Expr.id) = [2, 4, 3, 0, 1] ∧
      caughtTwice.Logs 5 [.stmt 5, .stmt 3, .stmt 0, .var 1, .expr 0, .expr 2, .stmt 2, .stmt 1,
        .expr 1, .expr 4, .expr 3, .var 2, .stmt 4, .var 2] := by
  have hb := caughtTwice.has_of_reaches (by decide) (by decide) (by decide)
  have htree : caughtTwice.sharedNode? = none := by decide
  have hs : caughtTwice.Reaches (.stmt 5) := .root (by decide)
  have hlog : (caughtTwice.stmtTree 5).visits = [.stmt 5, .stmt 3, .stmt 0, .var 1, .expr 0,
      .expr 2, .stmt 2, .stmt 1, .expr 1, .expr 4, .expr 3, .var 2, .stmt 4, .var 2] := by decide
  exact ⟨hb, htree, hs, by decide, hlog ▸ visits_each_once hb htree hs⟩

end Body

end Midend
