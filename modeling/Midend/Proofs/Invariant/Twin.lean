import Midend.Proofs.Effect.Steady
import Midend.Proofs.Tree.Bare

/-!
# Twin runs

Two runs of structurally equal expressions that start in states alike have the
same value (`Expr.exec_twin`), if the expressions write nothing, read no local in
which the states may differ, and read the heap only if it is the same.
-/

namespace Midend

/-! ## Twins -/

namespace Run

variable {σ ε α β : Type} {R : σ → σ → Prop}

/-- From states that `R` relates, the runs have the same result and lead to states that `R`
relates. -/
def Twin (R : σ → σ → Prop) (p q : Run σ ε α) : Prop :=
  ∀ ⦃s s' tr tr' a a' t t'⦄, R s s' → p s tr (.done a) t → q s' tr' (.done a') t' →
    a = a' ∧ R t t'

namespace Twin

variable {p q : Run σ ε α}

theorem pure {a : α} : Twin R (Pure.pure a : Run σ ε α) (Pure.pure a) := by
  rintro s s' _ _ _ _ _ _ hs ⟨⟩ ⟨⟩
  exact ⟨rfl, hs⟩

theorem bind {f g : α → Run σ ε β} (hp : Twin R p q) (hf : ∀ a, Twin R (f a) (g a)) :
    Twin R (p >>= f) (q >>= g) := by
  rintro s s' _ _ _ _ _ _ hs ⟨h₁, h₂⟩ ⟨h₁', h₂'⟩
  obtain ⟨rfl, ht⟩ := hp hs h₁ h₁'
  exact hf _ ht h₂ h₂'

theorem throw : Twin R (Throw : Run σ ε α) q := fun _ _ _ _ _ _ _ _ _ h => nomatch h

theorem hazard : Twin R (Hazard : Run σ ε Unit) Hazard := by
  rintro s s' _ _ _ _ _ _ hs ⟨⟩ ⟨⟩
  exact ⟨rfl, hs⟩

theorem emit {e e' : ε} : Twin R (Emit e : Run σ ε Unit) (Emit e') := by
  rintro s s' _ _ _ _ _ _ hs ⟨⟩ ⟨⟩
  exact ⟨rfl, hs⟩

theorem hazardous (hp : Twin R p q) : Twin R (Run.hazardous p) (Run.hazardous q) :=
  hazard.bind fun _ => hp.bind fun _ => hazard.bind fun _ => pure

theorem ite {c : Prop} [Decidable c] {p' q' : Run σ ε α} (hp : Twin R p q) (hp' : Twin R p' q') :
    Twin R (if c then p else p') (if c then q else q') := by
  split
  · exact hp
  · exact hp'

/-- Steps of the host that agree on related states are twins. -/
theorem step {S S' : σ → Option α → σ → Prop}
    (h : ∀ s s' a a' t t', R s s' → S s (some a) t → S' s' (some a') t' → a = a' ∧ R t t') :
    Twin R (Step S : Run σ ε α) (Step S') := by
  rintro s s' _ _ _ _ _ _ hs ⟨h₁⟩ ⟨h₂⟩
  exact h _ _ _ _ _ _ hs h₁ h₂

end Twin

end Run

open Run Exec

variable {H : Type} {b : Body} {host : Host H} {callees : CalleeEffects} {w : IdSet}
  {writes : Bool}

/-! ## Steps -/

namespace Exec

/-- An operation gives the same on the same operands. -/
theorem apply_twin (hhost : host.Respects callees) (op : Operation) (ds : List Concrete) :
    Twin (Machine.Steady w writes) (apply host op ds) (apply host op ds) := by
  unfold apply
  split
  · exact .pure
  · exact .throw
  · refine .step fun m m' d d' t t' hm h h' => ?_
    rw [h.2, h'.2]
    exact ⟨hhost.compute h.1 h'.1, hm⟩

/-- The truth of a value does not depend on the state. -/
theorem truth_twin (hhost : host.Respects callees) (d : Concrete) :
    Twin (Machine.Steady w writes) (truth host d) (truth host d) := by
  refine (apply_twin hhost .truth [d]).bind fun d => ?_
  split
  · exact .pure
  · exact .throw

/-- A promotion does not depend on the state. -/
theorem promote_twin (hhost : host.Respects callees) (ty : Option Ty) (d : Concrete) :
    Twin (Machine.Steady w writes) (promote host ty d) (promote host ty d) := by
  unfold promote
  split
  · exact .ite (apply_twin hhost _ _) .pure
  · exact .pure

/-- A connective of twins is one. -/
theorem logic_twin (hhost : host.Respects callees) {op : LogicOp} {l l' r r' : Exec H Concrete}
    (hl : Twin (Machine.Steady w writes) l l') (hr : Twin (Machine.Steady w writes) r r') :
    Twin (Machine.Steady w writes) (logic host op l r) (logic host op l' r') :=
  hl.bind fun _ => (truth_twin hhost _).bind fun _ =>
    .ite .pure (hr.bind fun _ => apply_twin hhost _ _)

/-- The condition decides the same arm for both. -/
theorem branch_twin {α : Type} (hhost : host.Respects callees) {c c' : Exec H Concrete}
    {x x' y y' : Exec H α} (hc : Twin (Machine.Steady w writes) c c')
    (hx : Twin (Machine.Steady w writes) x x') (hy : Twin (Machine.Steady w writes) y y') :
    Twin (Machine.Steady w writes) (branch host c x y) (branch host c' x' y') :=
  hc.bind fun _ => (truth_twin hhost _).bind fun _ => .ite hx hy

/-- A local outside of what is written reads the same. -/
theorem readLocal_twin {v : VarId} (hv : v ∉ w) :
    Twin (Machine.Steady (H := H) w writes) (readLocal v) (readLocal v) := by
  refine .step fun m m' d d' t t' hm h h' => ?_
  obtain ⟨⟨⟩, rfl⟩ := h
  obtain ⟨⟨⟩, rfl⟩ := h'
  exact ⟨(hm.locals v hv).symm, hm⟩

/-- A load reads the same where nothing global is written. -/
theorem load_twin (hhost : host.Respects callees) (hw : writes = false) (place : Place) :
    Twin (Machine.Steady w writes) (asks (host.load place)) (asks (host.load place)) := by
  refine .step fun m m' d d' t t' hm h h' => ?_
  obtain ⟨h, rfl⟩ := h
  obtain ⟨h', rfl⟩ := h'
  rw [hm.heap hw] at h'
  exact ⟨hhost.load h h', hm⟩

end Exec

/-- Nothing is written, and the heap is not read if it may be written elsewhere. -/
def EffectSet.Quiet (writes : Bool) (s : EffectSet) : Prop :=
  s.hasWrites = false ∧ (writes = true → s.readGlobal = false)

namespace EffectSet

/-- Two parts are quiet together when each is. -/
theorem quiet_union {s t : EffectSet} : (s ∪ t).Quiet writes ↔ s.Quiet writes ∧ t.Quiet writes := by
  simp only [Quiet, hasWrites, writeLocal_union, writeGlobal_union, readGlobal_union,
    Bool.or_eq_false_iff]
  grind

/-- A quiet expression that reads globals is in a loop that writes none. -/
theorem Quiet.writes_eq_false {s : EffectSet} (h : s.Quiet writes) (hr : s.readGlobal = true) :
    writes = false := by
  refine Bool.eq_false_iff.2 fun hw => ?_
  exact Bool.false_ne_true ((h.2 hw).symm.trans hr)

/-- An assignment is never quiet. -/
theorem Quiet.not_target {reads : Bool} {target : Expr}
    (h : (target.targetEffects callees reads).Quiet writes) : False :=
  Bool.false_ne_true (h.1.symm.trans (Expr.hasWrites_targetEffects target))

end EffectSet

namespace Exec

/-- A call with quiet effects gives the same from both states. -/
theorem call_twin (hhost : host.Respects callees) {c : Callee}
    (hc : (callees.ofCall c).Quiet writes) (receiver : Option Concrete) (ds : List Concrete) :
    Twin (Machine.Steady w writes) (acts (host.call c receiver ds))
      (acts (host.call c receiver ds)) := by
  have hheap : (callees.ofCall c).writeGlobal = false := (Bool.or_eq_false_iff.1 hc.1).2
  refine .step fun m m' d d' t t' hm h h' => ?_
  obtain ⟨_, h, rfl⟩ := h
  obtain ⟨_, h', rfl⟩ := h'
  obtain rfl := hhost.call hheap h
  obtain rfl := hhost.call hheap h'
  refine ⟨hhost.result hc.1 (fun hr => ?_) h h', hm⟩
  exact (hm.heap (hc.writes_eq_false hr)).symm

end Exec

/-! ## Expressions -/

namespace Expr

/-- A layer that may have the same value again and again: it reads no local in `w` and creates no
object. -/
def Stable (w : IdSet) : ExprKind Expr → Prop
  | .var v => v ∉ w
  | .create .. | .err => False
  | _ => True

mutual

/-- Expressions that are structurally equal have the same value in states alike. -/
theorem exec_twin (hhost : host.Respects callees) :
    ∀ {e e' : Expr}, e.bare = e'.bare → (e.effects callees).Quiet writes →
      (∀ s ∈ e.subexprs, Stable w s.kind) →
      Twin (Machine.Steady w writes) (e.exec b host) (e'.exec b host)
  | node i k, node j l, hb, hq, hs => by
    rw [exec, exec]
    refine .hazardous (Twin.bind ?_ fun d => Twin.emit.bind fun _ => .pure)
    refine kindExec_twin hhost (Expr.node.inj hb).2 hq (hs _ List.mem_cons_self) fun s h => ?_
    exact hs s (List.mem_cons_of_mem _ h)

/-- One case for each form of expression: equal up to identifiers, quiet and stable, both runs
agree. -/
theorem kindExec_twin (hhost : host.Respects callees) {i j : ExprId} :
    ∀ {k l : ExprKind Expr}, bareKind k = bareKind l → (kindEffects callees k).Quiet writes →
      Stable w k → (∀ s ∈ subexprsOfKind k, Stable w s.kind) →
      Twin (Machine.Steady w writes) (kindExec b host i k) (kindExec b host j l)
  | .lit a, .lit a', hb, _, _, _ => by
    obtain rfl : a = a' := ExprKind.lit.inj hb
    exact .pure
  | .var v, .var v', hb, _, hk, _ => by
    obtain rfl : v = v' := ExprKind.var.inj hb
    exact readLocal_twin hk
  | .paren e, .paren e', hb, hq, _, hs => exec_twin hhost (ExprKind.paren.inj hb) hq hs
  | .assign l none r, _, _, hq, _, _ => (EffectSet.quiet_union.1 hq).1.not_target.elim
  | .assign l (some op) r, _, _, hq, _, _ => by
    obtain ⟨hq, -⟩ := EffectSet.quiet_union.1 hq
    exact (EffectSet.quiet_union.1 hq).1.not_target.elim
  | .binary l op r, .binary l' op' r', hb, hq, _, hs => by
    obtain ⟨hbl, rfl, hbr⟩ := ExprKind.binary.inj hb
    obtain ⟨hq, -⟩ := EffectSet.quiet_union.1 hq
    obtain ⟨hql, hqr⟩ := EffectSet.quiet_union.1 hq
    have hl := exec_twin hhost hbl hql fun s h => hs s (List.mem_append.2 (.inl h))
    have hr := exec_twin hhost hbr hqr fun s h => hs s (List.mem_append.2 (.inr h))
    cases op with
    | logic op => exact logic_twin hhost hl hr
    | _ => exact hl.bind fun _ => hr.bind fun _ => apply_twin hhost _ _
  | .unary op e, .unary op' e', hb, hq, _, hs => by
    obtain ⟨rfl, hbe⟩ := ExprKind.unary.inj hb
    cases op with
    | step st => exact (EffectSet.Quiet.not_target hq).elim
    | _ => exact (exec_twin hhost hbe hq hs).bind fun _ => apply_twin hhost _ _
  | .conditional c t f, .conditional c' t' f', hb, hq, _, hs => by
    have hty : (node i (.conditional c t f)).staticTy b.varTy =
        (node j (.conditional c' t' f')).staticTy b.varTy := by
      rw [← staticTy_bare, ← staticTy_bare _ (node j _), bare, bare, hb]
    obtain ⟨hbc, hbt, hbf⟩ := ExprKind.conditional.inj hb
    obtain ⟨hq, hqf⟩ := EffectSet.quiet_union.1 hq
    obtain ⟨hqc, hqt⟩ := EffectSet.quiet_union.1 hq
    simp only [subexprsOfKind, List.mem_append] at hs
    have hc := exec_twin hhost hbc hqc fun s h => hs s (.inl h)
    have ht := exec_twin hhost hbt hqt fun s h => hs s (.inr (.inl h))
    have hf := exec_twin hhost hbf hqf fun s h => hs s (.inr (.inr h))
    rw [kindExec, kindExec, hty]
    exact branch_twin hhost hc (ht.bind fun _ => promote_twin hhost _ _)
      (hf.bind fun _ => promote_twin hhost _ _)
  | .field none name isStatic, .field none name' isStatic', hb, hq, _, _ => by
    obtain ⟨-, rfl, rfl⟩ := ExprKind.field.inj hb
    exact load_twin hhost (hq.writes_eq_false rfl) _
  | .field (some e) name isStatic, .field (some e') name' isStatic', hb, hq, _, hs => by
    obtain ⟨hbe, rfl, rfl⟩ := ExprKind.field.inj hb
    obtain ⟨hread, hqe⟩ := EffectSet.quiet_union.1 hq
    have he := exec_twin hhost (Option.some.inj hbe) hqe hs
    exact he.bind fun _ => load_twin hhost (hread.writes_eq_false rfl) _
  | .index a x, .index a' x', hb, hq, _, hs => by
    obtain ⟨hba, hbx⟩ := ExprKind.index.inj hb
    obtain ⟨hq, hqx⟩ := EffectSet.quiet_union.1 hq
    obtain ⟨hread, hqa⟩ := EffectSet.quiet_union.1 hq
    have ha := exec_twin hhost hba hqa fun s h => hs s (List.mem_append.2 (.inl h))
    have hx := exec_twin hhost hbx hqx fun s h => hs s (List.mem_append.2 (.inr h))
    exact ha.bind fun _ => hx.bind fun _ => load_twin hhost (hread.writes_eq_false rfl) _
  | .cast ty e, .cast ty' e', hb, hq, _, hs => by
    obtain ⟨rfl, hbe⟩ := ExprKind.cast.inj hb
    have hqe : (e.effects callees).Quiet writes := by
      rw [kindEffects] at hq
      split at hq
      · exact (EffectSet.quiet_union.1 hq).1
      · exact hq
    exact (exec_twin hhost hbe hqe hs).bind fun _ => apply_twin hhost _ _
  | .instanceOf e ty, .instanceOf e' ty', hb, hq, _, hs => by
    obtain ⟨hbe, rfl⟩ := ExprKind.instanceOf.inj hb
    exact (exec_twin hhost hbe hq hs).bind fun _ => apply_twin hhost _ _
  | .call none c args, .call none c' args', hb, hq, _, hs => by
    obtain ⟨-, rfl, hba⟩ := ExprKind.call.inj hb
    obtain ⟨hqa, hqc⟩ := EffectSet.quiet_union.1 hq
    exact (listExec_twin hhost hba hqa hs).bind fun _ => call_twin hhost hqc _ _
  | .call (some e) c args, .call (some e') c' args', hb, hq, _, hs => by
    obtain ⟨hbe, rfl, hba⟩ := ExprKind.call.inj hb
    obtain ⟨hq, hqc⟩ := EffectSet.quiet_union.1 hq
    obtain ⟨hqe, hqa⟩ := EffectSet.quiet_union.1 hq
    have he := exec_twin hhost (Option.some.inj hbe) hqe fun s h =>
      hs s (List.mem_append.2 (.inl h))
    have ha := listExec_twin hhost hba hqa fun s h => hs s (List.mem_append.2 (.inr h))
    exact he.bind fun _ => ha.bind fun _ => call_twin hhost hqc _ _

theorem listExec_twin (hhost : host.Respects callees) :
    ∀ {es es' : List Expr}, bareList es = bareList es' → (listEffects callees es).Quiet writes →
      (∀ s ∈ subexprsOfList es, Stable w s.kind) →
      Twin (Machine.Steady w writes) (listExec b host es) (listExec b host es')
  | [], [], _, _, _ => .pure
  | e :: es, e' :: es', hb, hq, hs => by
    obtain ⟨he, hes⟩ := List.cons_eq_cons.1 hb
    obtain ⟨hqe, hqes⟩ := EffectSet.quiet_union.1 hq
    have he := exec_twin hhost he hqe fun s h => hs s (List.mem_append.2 (.inl h))
    have hes := listExec_twin hhost hes hqes fun s h => hs s (List.mem_append.2 (.inr h))
    exact he.bind fun _ => hes.bind fun _ => .pure

end

end Expr

end Midend
