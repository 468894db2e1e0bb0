import Mathlib.Logic.Relation
import Midend.Body.Basic
import Midend.Proofs.Body.Roles
import Midend.Proofs.Body.Trees
import Midend.Proofs.Tree.Equality

/-!
# Equality of the expressions of a body

Where no expression is below itself, a path from operand to operand names no node
twice, so the tree below every expression is read completely however often nodes are
shared (`ExprsAcyclic.holds`), and a node has one tree (`Holds.eq`). Structural equality
is then an equivalence that goes through layers, and equal expressions cannot be told
apart by their hashes, types, texts or effects (`ExprsAcyclic.sameExpr_congruence`).
-/

namespace Midend.Body

variable {b : Body}

/-! ## Trees without cycles -/

/-- The second expression is an operand of the first one. -/
def HasOperand (b : Body) (e c : ExprId) : Prop := c ∈ (b.exprKind e).children

/-- No expression is below itself. -/
def ExprsAcyclic (b : Body) : Prop := ∀ e, ¬Relation.TransGen b.HasOperand e e

/-- An identifier outside of the arena stands for an erroneous expression. -/
theorem exprKind_of_ge {e : ExprId} (h : b.exprs.size ≤ e) : b.exprKind e = .err := by
  rw [exprKind, Array.getElem?_eq_none h]

/-- Expressions that only have older operands are not below themselves. -/
theorem exprsAcyclic_of_lt
    (h : ∀ e < b.exprs.size, ∀ c ∈ (b.exprKind e).children, c < e) : b.ExprsAcyclic := by
  have hstep : ∀ {e c}, b.HasOperand e c → c < e := by
    intro e c hc
    rcases Nat.lt_or_ge e b.exprs.size with he | he
    · exact h e he c hc
    · rw [HasOperand, exprKind_of_ge he] at hc
      cases hc
  have hbelow : ∀ {e c}, Relation.TransGen b.HasOperand e c → c < e := by
    intro e c hc
    induction hc with
    | single hc => exact hstep hc
    | tail _ hc ih => exact Nat.lt_trans (hstep hc) ih
  exact fun e he => Nat.lt_irrefl e (hbelow he)

/-- A path of distinct nodes ends before the depth does. -/
theorem ExprsAcyclic.holds_exprTo (h : b.ExprsAcyclic) :
    ∀ (d : ℕ) (path : List ExprId) (id : ExprId), path.Nodup → (∀ p ∈ path, p < b.exprs.size) →
      (∀ p ∈ path, Relation.TransGen b.HasOperand p id) → b.exprs.size < d + path.length →
      b.Holds (b.exprTo d id)
  | 0, path, _, hnodup, hlt, _, hd => by
    have hle := length_le_of_lt hnodup hlt
    omega
  | d + 1, path, id, hnodup, hlt, hpath, hd => by
    rw [exprTo, holds_node, ExprKind.map_map]
    refine ⟨(ExprKind.map_eq_self fun e _ => id_exprTo d e).symm, fun c hc => ?_⟩
    rw [ExprKind.children_map] at hc
    obtain ⟨e, he, rfl⟩ := List.mem_map.1 hc
    have hid : id < b.exprs.size := by
      by_contra hge
      rw [exprKind_of_ge (Nat.le_of_not_lt hge)] at he
      cases he
    have hnew : id ∉ path := fun hmem => h id (hpath id hmem)
    refine h.holds_exprTo d (id :: path) e (List.nodup_cons.2 ⟨hnew, hnodup⟩)
      (List.forall_mem_cons.2 ⟨hid, hlt⟩)
      (List.forall_mem_cons.2 ⟨.single he, fun p hp => (hpath p hp).tail he⟩) ?_
    rw [List.length_cons]
    omega

/-- The tree below every expression is read completely. -/
theorem ExprsAcyclic.holds (h : b.ExprsAcyclic) (id : ExprId) : b.Holds (b.exprTree id) := by
  rw [exprTree_eq_exprTo]
  refine h.holds_exprTo _ [] id List.nodup_nil nofun nofun ?_
  show b.exprs.size < b.treeDepth
  unfold treeDepth evalDepth
  omega

/-- A node has one tree. -/
theorem Holds.eq {e e' : Expr} (h : b.Holds e) (h' : b.Holds e') (hid : e.id = e'.id) : e = e' := by
  have hd := exprTo_of_holds h (Nat.le_max_left _ e'.subexprs.length)
  have hd' := exprTo_of_holds h' (Nat.le_max_right e.subexprs.length _)
  rw [← hd, hid, hd']

/-- Two trees of one arena have the same layer wherever they have the same identifier. -/
theorem Holds.idsApart {e e' : Expr} (h : b.Holds e) (h' : b.Holds e') :
    Expr.IdsApart e.subexprs e'.subexprs :=
  fun _ hs _ hs' hid => (h.sub hs).eq (h'.sub hs') hid

/-- Without cycles a tree is the layer in the arena over the trees of its operands. -/
theorem ExprsAcyclic.kind_exprTree (h : b.ExprsAcyclic) (id : ExprId) :
    (b.exprTree id).kind = (b.exprKind id).map b.exprTree := by
  have hnode := h.holds id (b.exprTree id) (Expr.mem_subexprs_self _)
  rw [id_exprTree] at hnode
  rw [hnode, ExprKind.map_map]
  refine (ExprKind.map_eq_self fun c hc => ?_).symm
  exact (h.holds c.id).eq ((h.holds id).sub (Expr.mem_subexprs_child hc)) (id_exprTree _)

/-! ## Equality -/

/-- A relation that is transitive on the members of three lists goes along them. -/
theorem forall₂_trans {α : Type} {R : α → α → Prop} {as bs cs : List α}
    (hab : List.Forall₂ R as bs) (hbc : List.Forall₂ R bs cs)
    (htrans : ∀ a ∈ as, ∀ c ∈ bs, ∀ d ∈ cs, R a c → R c d → R a d) : List.Forall₂ R as cs := by
  induction hab generalizing cs with
  | nil => exact hbc
  | cons h _ ih =>
    cases hbc with
    | cons h' hbc =>
      refine .cons (htrans _ List.mem_cons_self _ List.mem_cons_self _ List.mem_cons_self h h') ?_
      exact ih hbc fun a ha c hc d hd =>
        htrans a (.tail _ ha) c (.tail _ hc) d (.tail _ hd)

/-- Equality is transitive on expressions that the arena holds. -/
theorem sameAs_trans {e : Expr} (he : b.Holds e) :
    ∀ {f g : Expr}, b.Holds f → b.Holds g → e.sameAs f = true → f.sameAs g = true →
      e.sameAs g = true := by
  induction e using Expr.ofChildren with
  | node id k ih =>
    intro f g hf hg hef hfg
    rcases Expr.sameAs_iff.1 hef with hid | ⟨herr, hshell, hchildren⟩
    · rwa [he.eq hf hid]
    rcases Expr.sameAs_iff.1 hfg with hid | ⟨-, hshell', hchildren'⟩
    · rwa [← hf.eq hg hid]
    refine Expr.sameAs_iff.2 (.inr ⟨herr, hshell.trans hshell', ?_⟩)
    exact forall₂_trans hchildren hchildren' fun c hc d hd e' he' hcd hde =>
      ih c hc (he.sub (Expr.mem_subexprs_child hc)) (hf.sub (Expr.mem_subexprs_child hd))
        (hg.sub (Expr.mem_subexprs_child he')) hcd hde

/-- Whether two expressions of the body are structurally equal. -/
def sameExpr (b : Body) (x y : ExprId) : Bool := (b.exprTree x).sameAs (b.exprTree y)

/-- What equal expressions have in common. -/
structure Interchangeable (b : Body) (x y : ExprId) : Prop where
  hash : ∀ {σ : Type} (write : σ → HashItem → σ) (state : σ),
    (b.exprTree x).hashInto write state = (b.exprTree y).hashInto write state
  staticTy : (b.exprTree x).staticTy b.varTy = (b.exprTree y).staticTy b.varTy
  text : b.exprText x = b.exprText y
  /-- Two targets may differ, as one may read what it writes. -/
  effects : b.Accepted → b.Uses .value (b.exprTree x) → b.Uses .value (b.exprTree y) →
    ∀ callees, (Effects.compute b callees).expr x = (Effects.compute b callees).expr y

/-- Structurally equal expressions have the same text, hash and effects. -/
theorem ExprsAcyclic.interchangeable (h : b.ExprsAcyclic) {x y : ExprId}
    (hxy : b.sameExpr x y = true) : b.Interchangeable x y := by
  have hbare : (b.exprTree x).bare = (b.exprTree y).bare :=
    Expr.bare_of_sameAs ((h.holds x).idsApart (h.holds y)) hxy
  constructor
  · intro σ write state
    rw [← Expr.hashInto_bare, hbare, Expr.hashInto_bare]
  · rw [← Expr.staticTy_bare, hbare, Expr.staticTy_bare]
  · rw [exprText, exprText, ← Expr.text_bare, hbare, Expr.text_bare]
  · intro hb hx hy callees
    have hentry : ∀ {z}, b.Uses .value (b.exprTree z) →
        (Effects.compute b callees).expr z = (b.exprTree z).effectsAs callees .value := by
      rintro z ⟨t, ht, e, he, hz⟩
      rw [← Effects.expr_compute hb ht he hz, id_exprTree]
    rw [hentry hx, hentry hy, ← Expr.effectsAs_bare, hbare, Expr.effectsAs_bare]

/-- Where no expression is below itself, structural equality is an equivalence. Two nodes are equal
if they are one node, or their layers are equal, not erroneous, and have equal operands; what is
computed of equal expressions is the same. -/
theorem ExprsAcyclic.sameExpr_congruence (h : b.ExprsAcyclic) :
    Equivalence (b.sameExpr · · = true) ∧
    (∀ x y, b.sameExpr x y = true ↔ x = y ∨ b.exprKind x ≠ .err ∧
      (b.exprKind x).shell = (b.exprKind y).shell ∧
        List.Forall₂ (b.sameExpr · · = true) (b.exprKind x).children (b.exprKind y).children) ∧
    ∀ x y, b.sameExpr x y = true → b.Interchangeable x y := by
  refine ⟨⟨fun x => Expr.sameAs_self _, fun hxy => Expr.sameAs_symm hxy, fun {x y z} hxy hyz => ?_⟩,
    fun x y => ?_, fun x y hxy => h.interchangeable hxy⟩
  · exact sameAs_trans (h.holds x) (h.holds y) (h.holds z) hxy hyz
  · rw [sameExpr, Expr.sameAs_iff, id_exprTree, id_exprTree, h.kind_exprTree, h.kind_exprTree, Ne,
      ExprKind.map_eq_err, ExprKind.shell_map, ExprKind.shell_map, ExprKind.children_map,
      ExprKind.children_map, List.forall₂_map_left_iff, List.forall₂_map_right_iff]
    rfl

/-- A body that returns the sum of a quotient and the same quotient. -/
def ratios : Body where
  name := "ratios"
  vars := #[⟨"x", .prim .int, .param, .dummy⟩, ⟨"y", .prim .int, .param, .dummy⟩]
  exprs := #[⟨.dummy, .var 0⟩, ⟨.dummy, .var 1⟩, ⟨.dummy, .binary 0 (.arith .div) 1⟩,
    ⟨.dummy, .var 0⟩, ⟨.dummy, .var 1⟩, ⟨.dummy, .binary 3 (.arith .div) 4⟩,
    ⟨.dummy, .binary 2 (.arith .add) 5⟩]
  stmts := #[⟨.dummy, .ret (some 6)⟩]
  params := [0, 1]
  block := [0]

/-- The witness is an accepted body. -/
theorem ratios_accepted : ratios.Accepted :=
  ⟨ratios.has_of_reaches (by decide) (by decide) (by decide), by decide⟩

theorem ratios_uses {x : ExprId}
    (hx : (Role.value, ratios.exprTree x) ∈ (ratios.exprTree 6).roles) :
    ratios.Uses .value (ratios.exprTree x) :=
  ⟨ratios.stmtTree 0, List.mem_flatMap.2 ⟨_, List.mem_cons_self, List.mem_cons_self⟩,
    ratios.exprTree 6, List.mem_cons_self, hx⟩

/-- The two quotients are equal, and have the same effects, whatever the callees have. -/
theorem sameExpr_congruence_ratios :
    ratios.ExprsAcyclic ∧ ratios.sameExpr 2 5 = true ∧ ratios.exprText 2 = ratios.exprText 5 ∧
      ∀ callees, (Effects.compute ratios callees).expr 2 =
        (Effects.compute ratios callees).expr 5 := by
  have h : ratios.ExprsAcyclic := exprsAcyclic_of_lt (by decide)
  obtain ⟨-, -, hsame⟩ := h.sameExpr_congruence
  have halike := hsame 2 5 rfl
  exact ⟨h, rfl, halike.text, halike.effects ratios_accepted (ratios_uses (.tail _ (.head _)))
    (ratios_uses (.tail _ (.tail _ (.tail _ (.tail _ (.head _))))))⟩

end Midend.Body
