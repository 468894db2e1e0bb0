import Midend.Effect.Propagation
import Midend.Proofs.Tree.Bare
import Midend.Tree.Hash
import Midend.Tree.Print

/-!
# Equality and what it ignores

Two layers are equal if they hold the same and their operands are equal in pairs
(`Expr.kindSameAs_iff`), so structural equality is symmetric. What it ignores, the
identifiers of nodes, matters neither to hashes (`Expr.hashInto_bare`) nor to source
text (`Expr.text_bare`) nor to effects (`Expr.effects_bare`).
-/

namespace Midend

namespace ExprKind

variable {ε δ : Type}

/-- The layer without its operands. -/
def shell (k : ExprKind ε) : ExprKind Unit := k.map fun _ => ()

theorem shell_map (f : ε → δ) (k : ExprKind ε) : (k.map f).shell = k.shell := map_map ..

theorem map_eq_err {f : ε → δ} {k : ExprKind ε} : k.map f = err ↔ k = err := by
  cases k <;> simp [map]

theorem hashItems_map (f : ε → δ) (k : ExprKind ε) : (k.map f).hashItems = k.hashItems := by
  cases k <;> simp [map, hashItems]

theorem precedence_map (f : ε → δ) (k : ExprKind ε) : (k.map f).precedence = k.precedence := by
  cases k with
  | lit l => cases l <;> rfl
  | _ => rfl

theorem mergesWith_map (op : UnOp) (f : ε → δ) (k : ExprKind ε) :
    (k.map f).mergesWith op = k.mergesWith op := by
  cases k <;> rfl

end ExprKind

namespace Expr

/-! ## Layers -/

theorem listSameAs_iff :
    ∀ {es es' : List Expr}, listSameAs es es' = true ↔ List.Forall₂ (sameAs · · = true) es es'
  | [], [] => by simp [listSameAs]
  | [], _ :: _ => by simp [listSameAs]
  | _ :: _, [] => by simp [listSameAs]
  | e :: es, e' :: es' => by
    rw [listSameAs, Bool.and_eq_true, listSameAs_iff, List.forall₂_cons]

/-- Layers are equal if they hold the same, are not erroneous, and have equal operands. -/
theorem kindSameAs_iff {k l : ExprKind Expr} :
    kindSameAs k l = true ↔
      k ≠ .err ∧ k.shell = l.shell ∧ List.Forall₂ (sameAs · · = true) k.children l.children := by
  -- Layers of different forms are told apart by both sides.
  have hforms : ∀ {k l : ExprKind Expr}, kindSameAs k l = false → k.shell ≠ l.shell →
      (kindSameAs k l = true ↔ k ≠ .err ∧ k.shell = l.shell ∧
        List.Forall₂ (sameAs · · = true) k.children l.children) :=
    fun h hshell => iff_of_false (Bool.eq_false_iff.1 h) fun hsame => hshell hsame.2.1
  cases k with
  | err => exact iff_of_false (Bool.eq_false_iff.1 rfl) fun h => h.1 rfl
  | lit a =>
    cases l with
    | lit b => simp [kindSameAs, ExprKind.shell, ExprKind.map, ExprKind.children]
    | _ => exact hforms rfl (by simp [ExprKind.shell, ExprKind.map])
  | var v =>
    cases l with
    | var w => simp [kindSameAs, ExprKind.shell, ExprKind.map, ExprKind.children]
    | _ => exact hforms rfl (by simp [ExprKind.shell, ExprKind.map])
  | field receiver name isStatic =>
    cases l with
    | field receiver' =>
      cases receiver <;> cases receiver' <;>
        simp [kindSameAs, ExprKind.shell, ExprKind.map, ExprKind.children]
    | _ => cases receiver <;> exact hforms rfl (by simp [ExprKind.shell, ExprKind.map])
  | assign a op r =>
    cases l with
    | assign => simp [kindSameAs, ExprKind.shell, ExprKind.map, ExprKind.children, and_assoc]
    | _ => exact hforms rfl (by simp [ExprKind.shell, ExprKind.map])
  | binary a op r =>
    cases l with
    | binary => simp [kindSameAs, ExprKind.shell, ExprKind.map, ExprKind.children, and_assoc]
    | _ => exact hforms rfl (by simp [ExprKind.shell, ExprKind.map])
  | unary op e =>
    cases l with
    | unary => simp [kindSameAs, ExprKind.shell, ExprKind.map, ExprKind.children]
    | _ => exact hforms rfl (by simp [ExprKind.shell, ExprKind.map])
  | paren e =>
    cases l with
    | paren => simp [kindSameAs, ExprKind.shell, ExprKind.map, ExprKind.children]
    | _ => exact hforms rfl (by simp [ExprKind.shell, ExprKind.map])
  | conditional c t f =>
    cases l with
    | conditional => simp [kindSameAs, ExprKind.shell, ExprKind.map, ExprKind.children, and_assoc]
    | _ => exact hforms rfl (by simp [ExprKind.shell, ExprKind.map])
  | call receiver callee args =>
    cases l with
    | call receiver' =>
      cases receiver <;> cases receiver' <;>
        simp [kindSameAs, ExprKind.shell, ExprKind.map, ExprKind.children, listSameAs_iff]
      · exact fun h _ => h.length_eq
      · constructor
        · rintro ⟨⟨hcallee, he⟩, hargs⟩
          exact ⟨⟨hcallee, hargs.length_eq⟩, he, hargs⟩
        · rintro ⟨⟨hcallee, -⟩, he, hargs⟩
          exact ⟨⟨hcallee, he⟩, hargs⟩
    | _ => cases receiver <;> exact hforms rfl (by simp [ExprKind.shell, ExprKind.map])
  | create ty args =>
    cases l with
    | create =>
      simp [kindSameAs, ExprKind.shell, ExprKind.map, ExprKind.children, listSameAs_iff]
      exact fun h _ => h.length_eq
    | _ => exact hforms rfl (by simp [ExprKind.shell, ExprKind.map])
  | index a i =>
    cases l with
    | index => simp [kindSameAs, ExprKind.shell, ExprKind.map, ExprKind.children]
    | _ => exact hforms rfl (by simp [ExprKind.shell, ExprKind.map])
  | cast ty e =>
    cases l with
    | cast => simp [kindSameAs, ExprKind.shell, ExprKind.map, ExprKind.children]
    | _ => exact hforms rfl (by simp [ExprKind.shell, ExprKind.map])
  | instanceOf e ty =>
    cases l with
    | instanceOf =>
      simp [kindSameAs, ExprKind.shell, ExprKind.map, ExprKind.children, and_comm]
    | _ => exact hforms rfl (by simp [ExprKind.shell, ExprKind.map])

/-- Expressions are equal if they are one node or have equal layers. -/
theorem sameAs_iff {e e' : Expr} :
    e.sameAs e' = true ↔ e.id = e'.id ∨ e.kind ≠ .err ∧ e.kind.shell = e'.kind.shell ∧
      List.Forall₂ (sameAs · · = true) e.kind.children e'.kind.children := by
  cases e
  cases e'
  rw [sameAs, Bool.or_eq_true, beq_iff_eq, kindSameAs_iff]
  rfl

/-- Equality of expressions is symmetric. -/
theorem sameAs_symm {e e' : Expr} (h : e.sameAs e' = true) : e'.sameAs e = true := by
  induction e using ofChildren generalizing e' with
  | node id k ih =>
    rw [sameAs_iff] at h ⊢
    rcases h with h | ⟨herr, hshell, hchildren⟩
    · exact .inl h.symm
    · have herr' : e'.kind ≠ .err := by
        intro h
        rw [h] at hshell
        exact herr (ExprKind.map_eq_err.1 hshell)
      have hpairs := (List.forall₂_and_left ..).2 ⟨ih, hchildren⟩
      exact .inr ⟨herr', hshell.symm, (hpairs.imp fun _ _ h => h.1 h.2).flip⟩

/-! ## Hashes -/

/-- A hash is computed from the fingerprint alone. -/
theorem hashInto_eq {σ : Type} (write : σ → HashItem → σ) (state : σ) (e : Expr) :
    e.hashInto write state = e.fingerprint.foldl (fun s k => k.hashItems.foldl write s) state := by
  rw [hashInto, fingerprint, List.foldl_map]
  simp only [layer, ExprKind.hashItems_map]

/-- Identifiers do not matter to hashes. -/
theorem hashInto_bare {σ : Type} (write : σ → HashItem → σ) (state : σ) (e : Expr) :
    e.bare.hashInto write state = e.hashInto write state := by
  rw [hashInto_eq, hashInto_eq, fingerprint_bare]

/-! ## Text -/

/-- Without identifiers a node keeps its layer. -/
theorem kind_bare (e : Expr) : e.bare.kind = e.kind.map bare := by
  cases e with
  | node id k => exact bareKind_eq k

/-- Identifiers do not matter to source text. -/
theorem pieces_bare (sc : Scope) (e : Expr) :
    ∀ least, e.bare.pieces sc least = e.pieces sc least := by
  induction e using ofChildren with
  | node id k ih =>
    intro least
    have hargs : ∀ args : List Expr, (∀ c ∈ args, c ∈ k.children) →
        piecesOfArgs sc (args.map bare) = piecesOfArgs sc args := by
      intro args h
      rw [piecesOfArgs_eq, piecesOfArgs_eq, List.map_map]
      exact List.map_congr_left fun c hc => ih c (h c hc) _
    have hkind : kindPieces sc (k.map bare) = kindPieces sc k := by
      cases k with
      | field receiver name isStatic =>
        cases receiver <;> simp_all [kindPieces, ExprKind.map, ExprKind.children]
      | call receiver callee args =>
        have hargs := hargs args fun c hc => List.mem_append_right _ hc
        cases receiver <;> simp_all [kindPieces, ExprKind.map, ExprKind.children]
      | create ty args =>
        have hargs := hargs args fun c hc => hc
        simp_all [kindPieces, ExprKind.map]
      | unary op e =>
        have hmerges : e.bare.kind.mergesWith op = e.kind.mergesWith op := by
          rw [kind_bare, ExprKind.mergesWith_map]
        simp_all [kindPieces, ExprKind.map, ExprKind.children]
      | _ => simp_all [kindPieces, ExprKind.map, ExprKind.children]
    rw [bare, bareKind_eq, pieces, pieces, hkind, ExprKind.precedence_map]

/-- The text does not depend on identifiers. -/
theorem text_bare (sc : Scope) (e : Expr) : e.bare.text sc = e.text sc :=
  congrArg Text.Piece.renderAll (pieces_bare sc e 0)

/-! ## Effects -/

/-- Parentheses are taken off in the same way. -/
theorem peel_bare (e : Expr) : e.bare.peel = e.peel.bare := by
  induction e using ofChildren with
  | node id k ih => cases k <;> simp_all [bare, bareKind_eq, ExprKind.map, peel, ExprKind.children]

/-- Whether a divisor may be zero does not depend on identifiers. -/
theorem mayBeZero_bare (e : Expr) : e.bare.mayBeZero = e.mayBeZero := by
  rw [mayBeZero, mayBeZero, peel_bare, kind_bare]
  cases e.peel.kind <;> rfl

/-- Identifiers do not matter to effects. -/
theorem effectsAs_bare (callees : CalleeEffects) (e : Expr) :
    ∀ role, e.bare.effectsAs callees role = e.effectsAs callees role := by
  induction e using ofChildren with
  | node id k ih =>
    have hvalue : ∀ c ∈ k.children, c.bare.effects callees = c.effects callees :=
      fun c hc => ih c hc .value
    have htarget : ∀ c ∈ k.children, ∀ reads,
        c.bare.targetEffects callees reads = c.targetEffects callees reads :=
      fun c hc reads => ih c hc (.target reads)
    have hargs : ∀ args : List Expr, (∀ c ∈ args, c ∈ k.children) →
        listEffects callees (args.map bare) = listEffects callees args := by
      intro args
      induction args with
      | nil => exact fun _ => rfl
      | cons e es ihs =>
        intro h
        rw [List.map_cons, listEffects, listEffects, hvalue e (h e List.mem_cons_self),
          ihs fun c hc => h c (List.mem_cons_of_mem _ hc)]
    intro role
    cases role with
    | value =>
      show kindEffects callees (bareKind k) = kindEffects callees k
      rw [bareKind_eq]
      cases k with
      | field receiver name isStatic =>
        cases receiver <;> simp_all [kindEffects, ExprKind.map, ExprKind.children]
      | assign l op r =>
        cases op <;>
          simp_all [kindEffects, ExprKind.map, ExprKind.children, divisionEffects, mayBeZero_bare]
      | binary l op r =>
        simp_all [kindEffects, ExprKind.map, ExprKind.children, divisionEffects, mayBeZero_bare]
      | unary op e => cases op <;> simp_all [kindEffects, ExprKind.map, ExprKind.children]
      | call receiver callee args =>
        have hargs := hargs args fun c hc => List.mem_append_right _ hc
        cases receiver <;> simp_all [kindEffects, ExprKind.map, ExprKind.children]
      | create ty args =>
        have hargs := hargs args fun c hc => hc
        simp_all [kindEffects, ExprKind.map]
      | _ => simp_all [kindEffects, ExprKind.map, ExprKind.children]
    | target reads =>
      show (node 0 (bareKind k)).targetEffects callees reads =
        (node id k).targetEffects callees reads
      rw [bareKind_eq]
      cases k with
      | field receiver name isStatic =>
        cases receiver <;> simp_all [targetEffects, ExprKind.map, ExprKind.children]
      | paren inner => exact htarget inner List.mem_cons_self reads
      | _ => simp_all [targetEffects, ExprKind.map, ExprKind.children]

end Expr

end Midend
