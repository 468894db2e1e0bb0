import Midend.Invariant
import Midend.Proofs.Effect.Cover

/-!
# Effects and what is known of callees

One set of signatures refines another if it says no more of any call
(`CalleeEffects.Refines`), where a method without a signature may do everything.
Signatures enter the effects of a node through calls, constructors, the steps of a
for-each loop and the closing of resources, and everywhere by union; so with better
signatures no node, neither the body nor its summary, has an effect more, and an
expression that is invariant in a loop stays so (`Effects.compute_refines`).
-/

namespace Midend

namespace EffectSet

theorem contains_self (s : EffectSet) : s.contains s = true := contains_iff.2 fun _ h => h

theorem all_contains (s : EffectSet) : all.contains s = true :=
  contains_iff.2 fun k _ => has_all k

variable {s s' t t' : EffectSet}

/-- A union grows with its parts. -/
theorem contains_union (h : t.contains s = true) (h' : t'.contains s' = true) :
    (t ∪ t').contains (s ∪ s') = true := by
  rw [contains_iff] at *
  intro k hk
  rw [has_union, Bool.or_eq_true] at *
  exact hk.imp (h k) (h' k)

/-- A union over a list grows with its members. -/
theorem contains_unions_map {α : Type} {f g : α → EffectSet} {xs : List α}
    (h : ∀ x ∈ xs, (g x).contains (f x) = true) :
    (unions (xs.map g)).contains (unions (xs.map f)) = true := by
  rw [contains_iff]
  intro k hk
  obtain ⟨s, hs, hk⟩ := has_unions.1 hk
  obtain ⟨x, hx, rfl⟩ := List.mem_map.1 hs
  exact has_unions.2 ⟨g x, List.mem_map_of_mem hx, contains_iff.1 (h x hx) k hk⟩

/-- More effects of a method show more outside of it. -/
theorem calleeVisible_contains (h : t.contains s = true) :
    t.calleeVisible.contains s.calleeVisible = true := by
  rw [contains_iff] at *
  intro k hk
  rw [calleeVisible, has_diff, Bool.and_eq_true] at *
  exact hk.imp_left (h k)

end EffectSet

open EffectSet (contains_self contains_union contains_unions_map contains_iff)

/-- The first signatures say no more of any call than the second. -/
def CalleeEffects.Refines (callees callees' : CalleeEffects) : Prop :=
  ∀ c, (callees'.ofCall c).contains (callees.ofCall c) = true

variable {callees callees' : CalleeEffects}

/-- The signature of a method that had none says no more of any call. -/
theorem SignatureTable.insert_refines {t : SignatureTable} {c : Callee} (h : t.get? c = none)
    (s : EffectSet) : (t.insert c s).get?.Refines t.get? := by
  intro d
  by_cases hd : d = c
  · have hall : t.get?.ofCall d = .all := by rw [CalleeEffects.ofCall, hd, h]
    rw [hall]
    exact EffectSet.all_contains _
  · have hsame : (t.insert c s).get?.ofCall d = t.get?.ofCall d := by
      rw [CalleeEffects.ofCall, CalleeEffects.ofCall, get?_insert, if_neg hd]
    rw [hsame]
    exact contains_self _

/-! ## Nodes -/

namespace Expr

mutual

/-- Finer signatures give an expression no more effects. -/
theorem effects_refines (h : callees.Refines callees') :
    ∀ e : Expr, (e.effects callees').contains (e.effects callees) = true
  | node _ kind => kindEffects_refines h kind

/-- Finer signatures give a target no more effects. -/
theorem targetEffects_refines (h : callees.Refines callees') (reads : Bool) :
    ∀ e : Expr, (e.targetEffects callees' reads).contains (e.targetEffects callees reads) = true
  | node _ kind => by
    cases kind with
    | paren inner => exact targetEffects_refines h reads inner
    | field receiver name isStatic =>
      cases receiver with
      | none => exact contains_self _
      | some r => exact contains_union (effects_refines h r) (contains_self _)
    | index a i =>
      exact contains_union (contains_union (effects_refines h a) (effects_refines h i))
        (contains_self _)
    | _ => exact contains_self _

/-- Finer signatures give a layer no more effects. -/
theorem kindEffects_refines (h : callees.Refines callees') :
    ∀ k : ExprKind Expr, (kindEffects callees' k).contains (kindEffects callees k) = true
  | .lit _ | .var _ | .field none .. | .err => contains_self _
  | .field (some r) .. => contains_union (contains_self _) (effects_refines h r)
  | .assign l none r => contains_union (targetEffects_refines h false l) (effects_refines h r)
  | .assign l (some _) r =>
    contains_union (contains_union (targetEffects_refines h true l) (effects_refines h r))
      (contains_self _)
  | .binary l _ r =>
    contains_union (contains_union (effects_refines h l) (effects_refines h r)) (contains_self _)
  | .unary op e => by
    cases op with
    | step s => exact targetEffects_refines h true e
    | _ => exact effects_refines h e
  | .paren e | .instanceOf e _ => effects_refines h e
  | .conditional c t f =>
    contains_union (contains_union (effects_refines h c) (effects_refines h t))
      (effects_refines h f)
  | .call none callee args => contains_union (listEffects_refines h args) (h callee)
  | .call (some r) callee args =>
    contains_union (contains_union (effects_refines h r) (listEffects_refines h args)) (h callee)
  | .create _ args => contains_union (listEffects_refines h args) (h _)
  | .index a i =>
    contains_union (contains_union (contains_self _) (effects_refines h a)) (effects_refines h i)
  | .cast ty e => by
    rw [kindEffects, kindEffects]
    split
    · exact contains_union (effects_refines h e) (contains_self _)
    · exact effects_refines h e

theorem listEffects_refines (h : callees.Refines callees') :
    ∀ es : List Expr, (listEffects callees' es).contains (listEffects callees es) = true
  | [] => contains_self _
  | e :: es => contains_union (effects_refines h e) (listEffects_refines h es)

end

/-- Finer signatures give an expression no more effects in any role. -/
theorem effectsAs_refines (h : callees.Refines callees') (e : Expr) :
    ∀ role, (e.effectsAs callees' role).contains (e.effectsAs callees role) = true
  | .value => effects_refines h e
  | .target reads => targetEffects_refines h reads e

/-- Finer signatures give iterating no more effects. -/
theorem iterationEffects_refines (h : callees.Refines callees') (env : TyEnv) (e : Expr) :
    (e.iterationEffects callees' env).contains (e.iterationEffects callees env) = true := by
  unfold iterationEffects
  split
  · exact contains_self _
  · exact contains_union (contains_union (h _) (h _)) (h _)
  · exact contains_self _

end Expr

namespace Stmt

/-- Finer signatures give closing a resource no more effects. -/
theorem closeEffects_refines (h : callees.Refines callees') (env : TyEnv) (s : Stmt) :
    (s.closeEffects callees' env).contains (s.closeEffects callees env) = true := by
  unfold closeEffects
  split
  · split
    · exact h _
    · exact contains_self _
  · exact contains_self _

/-- Finer signatures give the layer of a statement no more effects of its own. -/
theorem ownEffects_refines (h : callees.Refines callees') (env : TyEnv)
    (kind : StmtKind Expr Stmt) :
    (ownEffects callees' env kind).contains (ownEffects callees env kind) = true := by
  unfold ownEffects
  split
  case h_2 => exact contains_union (contains_self _) (Expr.iterationEffects_refines h env _)
  case h_6 =>
    exact contains_union (contains_self _)
      (contains_unions_map fun r _ => closeEffects_refines h env r)
  all_goals exact contains_self _

mutual

/-- Finer signatures give a statement no more effects. -/
theorem effects_refines (h : callees.Refines callees') (env : TyEnv) :
    ∀ s : Stmt, (s.effects callees' env).contains (s.effects callees env) = true
  | node _ kind =>
    contains_union
      (contains_union (ownEffects_refines h env kind)
        (contains_unions_map fun e _ => Expr.effects_refines h e))
      (nestedEffects_refines h env kind)

/-- Finer signatures give the statements below a layer no more effects. -/
theorem nestedEffects_refines (h : callees.Refines callees') (env : TyEnv) :
    ∀ kind : StmtKind Expr Stmt,
      (nestedEffects callees' env kind).contains (nestedEffects callees env kind) = true
  | .block body => listEffects_refines h env body
  | .branch _ t none => effects_refines h env t
  | .branch _ t (some f) => contains_union (effects_refines h env t) (effects_refines h env f)
  | .whileLoop _ body | .doLoop body _ | .forEach _ _ body => effects_refines h env body
  | .forLoop init _ _ body =>
    contains_union (listEffects_refines h env init) (effects_refines h env body)
  | .switch _ cases => casesEffects_refines h env cases
  | .guarded resources body catches none =>
    contains_union
      (contains_union (listEffects_refines h env resources) (listEffects_refines h env body))
      (catchesEffects_refines h env catches)
  | .guarded resources body catches (some finalizer) =>
    contains_union
      (contains_union
        (contains_union (listEffects_refines h env resources) (listEffects_refines h env body))
        (catchesEffects_refines h env catches))
      (listEffects_refines h env finalizer)
  | .decl .. | .expr _ | .throw _ | .assert .. | .ret _ | .breakOut | .continueLoop | .empty
  | .err => contains_self _

theorem listEffects_refines (h : callees.Refines callees') (env : TyEnv) :
    ∀ ss : List Stmt, (listEffects callees' env ss).contains (listEffects callees env ss) = true
  | [] => contains_self _
  | s :: ss => contains_union (effects_refines h env s) (listEffects_refines h env ss)

theorem casesEffects_refines (h : callees.Refines callees') (env : TyEnv) :
    ∀ cs : List (SwitchCase Expr Stmt),
      (casesEffects callees' env cs).contains (casesEffects callees env cs) = true
  | [] => contains_self _
  | ⟨_, _, body⟩ :: cs =>
    contains_union (listEffects_refines h env body) (casesEffects_refines h env cs)

theorem catchesEffects_refines (h : callees.Refines callees') (env : TyEnv) :
    ∀ cs : List (CatchClause Stmt),
      (catchesEffects callees' env cs).contains (catchesEffects callees env cs) = true
  | [] => contains_self _
  | ⟨_, _, body⟩ :: cs =>
    contains_union (listEffects_refines h env body) (catchesEffects_refines h env cs)

end

end Stmt

/-! ## Tables -/

namespace Effects

/-- A table that is recorded node by node grows with its entries, whichever of several entries
for one node stays. -/
theorem getD_record_contains {α : Type} {key : α → Nat} {f g : α → EffectSet} {xs : List α}
    (h : ∀ x ∈ xs, (g x).contains (f x) = true) (i : Nat) :
    ∀ {table table' : Array EffectSet}, table.size = table'.size →
      (table'.getD i .none).contains (table.getD i .none) = true →
      ((record table' (xs.map fun x => (key x, g x))).getD i .none).contains
        ((record table (xs.map fun x => (key x, f x))).getD i .none) = true := by
  induction xs with
  | nil => exact fun _ ht => ht
  | cons x xs ih =>
    intro table table' hsize ht
    have hset : ((table'.setIfInBounds (key x) (g x)).getD i .none).contains
        ((table.setIfInBounds (key x) (f x)).getD i .none) = true := by
      simp only [Array.getD_eq_getD_getElem?, Array.getElem?_setIfInBounds] at ht ⊢
      by_cases hi : key x = i
      · by_cases hlt : key x < table.size
        · rw [if_pos hi, if_pos hi, if_pos hlt, if_pos (hsize ▸ hlt)]
          exact h x List.mem_cons_self
        · rw [if_pos hi, if_pos hi, if_neg hlt, if_neg (hsize ▸ hlt)]
          exact contains_self _
      · rwa [if_neg hi, if_neg hi]
    exact ih (fun y hy => h y (List.mem_cons_of_mem x hy)) (by simpa using hsize) hset

/-- Finer signatures record no more effects for any expression. -/
theorem expr_refines (h : callees.Refines callees') (b : Body) (id : ExprId) :
    (((compute b callees').expr id).contains ((compute b callees).expr id)) = true :=
  getD_record_contains (fun re _ => re.2.effectsAs_refines h re.1) id rfl (contains_self _)

/-- Finer signatures record no more effects for any statement. -/
theorem stmt_refines (h : callees.Refines callees') (b : Body) (id : StmtId) :
    (((compute b callees').stmt id).contains ((compute b callees).stmt id)) = true :=
  getD_record_contains (fun s _ => s.effects_refines h b.varTy) id rfl (contains_self _)

end Effects

/-! ## Invariant expressions -/

/-- What is known of a loop from the tables of its body. -/
def Stmt.loopFacts (effects : Effects) (liveness : LivenessInfo) (s : Stmt) : LoopFacts :=
  { effects, live := liveness.liveIn s.id, writes := s.written,
    writesGlobal := (effects.stmt s.id).writeGlobal }

/-- The invariants of a loop are the groups of the invariant expressions in it. -/
theorem Stmt.invariants_eq (effects : Effects) (liveness : LivenessInfo) (s : Stmt) :
    s.invariants effects liveness =
      ⟨s.id, InvariantGroup.ofList
        (s.kind.iterated.flatMap (s.loopFacts effects liveness).exprInvariants)⟩ := rfl

namespace LoopFacts

variable {facts facts' : LoopFacts}

/-- Fewer effects are allowed wherever more are, in a loop that writes the heap only where the
other one does. -/
theorem allows_of_contains {s t : EffectSet} (h : t.contains s = true)
    (hw : facts.writesGlobal = true → facts'.writesGlobal = true) (ht : facts'.allows t = true) :
    facts.allows s = true := by
  have hk := contains_iff.1 h
  have hlocal : s.writeLocal = true → t.writeLocal = true := hk .writeLocal
  have hglobal : s.writeGlobal = true → t.writeGlobal = true := hk .writeGlobal
  have hread : s.readGlobal = true → t.readGlobal = true := hk .readGlobal
  have hthrow : s.exception = true → t.exception = true := hk .exception
  simp only [allows, EffectSet.hasWrites, Bool.and_eq_true, Bool.not_eq_true', Bool.or_eq_false_iff,
    Bool.and_eq_false_iff] at ht ⊢
  grind

/-- The test for invariance depends on the effects by what they allow only. -/
theorem isInvariant_of_allows {e : Expr} (hlive : facts.live = facts'.live)
    (hwrites : facts.writes = facts'.writes)
    (hallows : facts'.allows (facts'.effects.expr e.id) = true →
      facts.allows (facts.effects.expr e.id) = true) (h : facts'.isInvariant e = true) :
    facts.isInvariant e = true := by
  have hstable : ∀ k : ExprKind Expr, facts.isStable k = facts'.isStable k := by
    intro k
    cases k <;> simp [isStable, hlive, hwrites]
  unfold isInvariant at h ⊢
  split at h
  any_goals cases h
  simp only [Bool.and_eq_true] at h ⊢
  simp only [hstable]
  exact ⟨hallows h.1, h.2⟩

end LoopFacts

/-- Better signatures make nothing worse: no expression, no statement, neither the body nor its
summary has more effects under signatures that refine others, and every expression that passes
the test for invariance in a loop under the others passes it under them. -/
theorem Effects.compute_refines (h : callees.Refines callees') (b : Body) :
    (∀ id, ((compute b callees').expr id).contains ((compute b callees).expr id) = true) ∧
      (∀ id, ((compute b callees').stmt id).contains ((compute b callees).stmt id) = true) ∧
      (compute b callees').body.contains (compute b callees).body = true ∧
      (compute b callees').summary.contains (compute b callees).summary = true ∧
      ∀ (liveness : LivenessInfo) (loop : Stmt) (e : Expr),
        (loop.loopFacts (compute b callees') liveness).isInvariant e = true →
          (loop.loopFacts (compute b callees) liveness).isInvariant e = true := by
  have hbody : (compute b callees').body.contains (compute b callees).body = true :=
    Stmt.listEffects_refines h b.varTy b.root
  refine ⟨expr_refines h b, stmt_refines h b, hbody, EffectSet.calleeVisible_contains hbody, ?_⟩
  intro liveness loop e
  have hheap := contains_iff.1 (stmt_refines h b loop.id) .writeGlobal
  exact LoopFacts.isInvariant_of_allows rfl rfl
    (LoopFacts.allows_of_contains (expr_refines h b e.id) hheap)

/-- A method that was analysed, and one that is analysed later. -/
def scale : Callee := ⟨"Rows", "scale", 1⟩

/-- The method that is analysed later. -/
def nextRow : Callee := ⟨"Iterator", "next", 0⟩

/-- The signatures of the first alone. -/
def scaleSignatures : SignatureTable := SignatureTable.insert {} scale .none

/-- A loop over rows, of which no iterator is analysed, that scales a local in every iteration. -/
def scaledRows : Body where
  name := "scaledRows"
  vars := #[⟨"rows", .named "Rows", .param, .dummy⟩, ⟨"x", .prim .int, .param, .dummy⟩,
    ⟨"row", .named "Row", .localVar, .dummy⟩]
  exprs := #[⟨.dummy, .var 0⟩, ⟨.dummy, .var 1⟩, ⟨.dummy, .call none scale [1]⟩]
  stmts := #[⟨.dummy, .expr 2⟩, ⟨.dummy, .forEach 2 0 0⟩]
  params := [0, 1]
  block := [1]

theorem Effects.compute_refines_scaledRows :
    (scaleSignatures.insert nextRow .readsGlobal).get?.Refines scaleSignatures.get? ∧
      ((scaledRows.stmtTree 1).loopFacts (compute scaledRows scaleSignatures.get?)
        (.compute scaledRows)).isInvariant (scaledRows.exprTree 2) = true ∧
      ((scaledRows.stmtTree 1).loopFacts
        (compute scaledRows (scaleSignatures.insert nextRow .readsGlobal).get?)
        (.compute scaledRows)).isInvariant (scaledRows.exprTree 2) = true := by
  have hinsert : (scaleSignatures.insert nextRow .readsGlobal).get?.Refines scaleSignatures.get? :=
    SignatureTable.insert_refines (by decide) _
  have htest : ((scaledRows.stmtTree 1).loopFacts (compute scaledRows scaleSignatures.get?)
      (.compute scaledRows)).isInvariant (scaledRows.exprTree 2) = true := by decide
  exact ⟨hinsert, htest, (compute_refines hinsert scaledRows).2.2.2.2 _ _ _ htest⟩

end Midend
