import Midend.Proofs.Effect.Evaluation
import Midend.Proofs.Eval.Course

/-!
# What evaluation records on its way

An expression records its value when it has been evaluated, so the recorded values
tell how far an evaluation has come. `Tracks final trees V W R x` says of an
evaluation `x` that it records nothing but what lies in `trees`, of which nothing has
been recorded before. If those values are still recorded in the end, in `final`, then
every expression that it has begun to evaluate satisfies `V`, its result satisfies
`R`, and `W` holds if it fails in a division by zero. Evaluations of trees that have
no node in common are composed (`Tracks.bind`): what the first has recorded, the
second leaves alone.
-/

namespace Midend

open Eval

/-! ## Divisions -/

/-- The divisor of a division or remainder. -/
def ExprKind.divisor? {ε : Type} : ExprKind ε → Option ε
  | .binary _ op r | .assign _ (some op) r => if op.isDivision then some r else none
  | _ => none

/-- The divisor of a layer is one of its children. -/
theorem ExprKind.mem_children_of_divisor? {ε : Type} {k : ExprKind ε} {r : ε}
    (h : k.divisor? = some r) : r ∈ k.children := by
  unfold divisor? at h
  split at h
  · obtain ⟨-, h⟩ := Option.ite_none_right_eq_some.1 h
    obtain rfl := Option.some.inj h
    simp [children]
  · obtain ⟨-, h⟩ := Option.ite_none_right_eq_some.1 h
    obtain rfl := Option.some.inj h
    simp [children]
  · cases h

/-- An integer zero. -/
def Value.IsZero (x : Value) : Prop :=
  ∃ l, x = .known l ∧ (l.num? = some (.int 0) ∨ l.num? = some (.long 0))

/-- Only a division by a zero fails so. -/
theorem Value.binary_divisionByZero {op : BinOp} {x y : Value}
    (h : Value.binary op x y = .error .divisionByZero) : op.isDivision = true ∧ y.IsZero := by
  obtain ⟨a, c, -, rfl, hac⟩ := Value.binary_eq_error h
  obtain ⟨hdiv, hzero⟩ := Literal.binary_divisionByZero hac
  exact ⟨hdiv, c, rfl, hzero⟩

namespace Expr

/-- The value of the divisor has been recorded, and is zero. -/
def ZeroDivisor (m : IdMap Value) (k : ExprKind Expr) : Prop :=
  ∃ r x, k.divisor? = some r ∧ m.get? r.id = some x ∧ x.IsZero

/-- An evaluation has come to divide by zero at the expression: it has recorded that the divisor is
zero, and nothing for the whole. -/
structure DividesByZero (m : IdMap Value) (e : Expr) : Prop where
  divisor : ZeroDivisor m e.kind
  unfinished : m.get? e.id = none

/-- An evaluation has come to divide by zero in one of the trees, at an expression in the given
place if it has a place in the text. -/
def Divides (b : Body) (m : IdMap Value) (trees : List Expr) (span : Span) : Prop :=
  ∃ p ∈ trees.flatMap subexprs, p.DividesByZero m ∧
    (b.exprSpan p.id ≠ .dummy → span = b.exprSpan p.id)

/-- The expression has been evaluated, or at least its divisor. -/
def Begun (m : IdMap Value) (e : Expr) : Prop :=
  m.get? e.id ≠ none ∨ ∃ r, e.kind.divisor? = some r ∧ m.get? r.id ≠ none

/-- No two of the nodes have the same name. -/
def Distinct (trees : List Expr) : Prop := ((trees.flatMap subexprs).map id).Nodup

/-- An expression that divides by zero was begun. -/
theorem DividesByZero.begun {m : IdMap Value} {e : Expr} (h : e.DividesByZero m) : e.Begun m := by
  obtain ⟨r, x, hr, hx, -⟩ := h.divisor
  exact .inr ⟨r, hr, by rw [hx]; exact nofun⟩

section

variable {b : Body} {m : IdMap Value} {trees others : List Expr} {span outer : Span} {i : ExprId}
  {k : ExprKind Expr}

theorem Divides.mono (h : Divides b m trees span) (hsub : trees ⊆ others) :
    Divides b m others span := by
  obtain ⟨p, hp, hzero⟩ := h
  obtain ⟨t, ht, hp⟩ := List.mem_flatMap.1 hp
  exact ⟨p, List.mem_flatMap.2 ⟨t, hsub ht, hp⟩, hzero⟩

/-- A division in the children is one in the layer. -/
theorem Divides.node (h : Divides b m k.children span) : Divides b m [.node i k] span := by
  obtain ⟨p, hp, hzero⟩ := h
  obtain ⟨c, hc, hp⟩ := List.mem_flatMap.1 hp
  exact ⟨p, List.mem_flatMap.2 ⟨_, List.mem_cons_self, subexprs_subset hc hp⟩, hzero⟩

/-- What has a place keeps it. -/
theorem Divides.locate (h : Divides b m trees span) : Divides b m trees (span.orElse outer) := by
  obtain ⟨p, hp, hzero, hspan⟩ := h
  refine ⟨p, hp, hzero, fun hne => ?_⟩
  have hplace := hspan hne
  rw [Span.orElse, if_neg (by simpa [Span.isDummy, hplace] using hne), hplace]

end

/-- Nothing has begun in trees of which nothing is recorded. -/
theorem not_begun {m : IdMap Value} {trees : List Expr}
    (h : ∀ p ∈ trees.flatMap subexprs, m.get? p.id = none) {p : Expr}
    (hp : p ∈ trees.flatMap subexprs) : ¬ p.Begun m := by
  rintro (hne | ⟨r, hr, hne⟩)
  · exact hne (h p hp)
  · obtain ⟨t, ht, hp⟩ := List.mem_flatMap.1 hp
    have hmem := mem_subexprs_child (ExprKind.mem_children_of_divisor? hr)
    exact hne (h r (List.mem_flatMap.2 ⟨t, ht, subexprs_trans hp hmem⟩))

theorem distinct_nil : Distinct [] := .nil

/-- Trees side by side are distinct when both parts are and share no node. -/
theorem distinct_append {trees others : List Expr} :
    Distinct (trees ++ others) ↔ Distinct trees ∧ Distinct others ∧
      ∀ p ∈ trees.flatMap subexprs, ∀ q ∈ others.flatMap subexprs, p.id ≠ q.id := by
  unfold Distinct
  rw [List.flatMap_append, List.map_append, List.nodup_append]
  simp only [List.mem_map, forall_exists_index, and_imp, forall_apply_eq_imp_iff₂]

/-- The first tree and the rest are distinct by themselves. -/
theorem distinct_cons {e : Expr} {es : List Expr} (h : Distinct (e :: es)) :
    Distinct [e] ∧ Distinct es := by
  have happend : Distinct ([e] ++ es) := h
  obtain ⟨he, hes, -⟩ := distinct_append.1 happend
  exact ⟨he, hes⟩

theorem Distinct.perm {trees others : List Expr} (h : Distinct trees) (hp : others.Perm trees) :
    Distinct others :=
  ((hp.flatMap_right _).map _).nodup_iff.2 h

/-- The children of a distinct tree are distinct and differ from its root. -/
theorem distinct_node {i : ExprId} {k : ExprKind Expr} (h : Distinct [.node i k]) :
    Distinct k.children ∧ ∀ p ∈ k.children.flatMap subexprs, p.id ≠ i := by
  unfold Distinct at h
  rw [List.flatMap_singleton, subexprs, subexprsOfKind_eq, List.map_cons, List.nodup_cons] at h
  exact ⟨h.2, fun p hp heq => h.1 (List.mem_map.2 ⟨p, hp, heq⟩)⟩

end Expr

/-! ## Evaluations -/

namespace Eval

variable {α β : Type} {final : IdMap Value} {trees others : List Expr} {V V' : Expr → Prop}
  {W W' : Span → Prop} {R R' : α → Prop} {Q : β → Prop} {x y : Eval α}

/-- The evaluation only records what lies in the trees. Provided that it is recorded in the end,
whatever has begun satisfies `V`, the result satisfies `R`, and `W` holds of the place of a
division by zero. -/
structure Tracks (final : IdMap Value) (trees : List Expr) (V : Expr → Prop) (W : Span → Prop)
    (R : α → Prop) (x : Eval α) : Prop where
  distinct : Expr.Distinct trees
  run : ∀ ⦃s m⦄, s.observed = some m → (∀ p ∈ trees.flatMap Expr.subexprs, m.get? p.id = none) →
    ∃ m', (x s).2.observed = some m' ∧
      (∀ i, (∀ p ∈ trees.flatMap Expr.subexprs, p.id ≠ i) → m'.get? i = m.get? i) ∧
      ((∀ p ∈ trees.flatMap Expr.subexprs, m'.get? p.id = final.get? p.id) →
        (∀ p ∈ trees.flatMap Expr.subexprs, p.Begun final → V p) ∧
          Outcome (fun e => e.fault = .divisionByZero → W e.span) R (x s).1)

namespace Tracks

/-! ### Evaluations that record nothing -/

/-- A step that records nothing tracks no trees. -/
theorem silent (h : ∀ s, (x s).2.observed = s.observed ∧
      Outcome (fun e => e.fault = .divisionByZero → W e.span) R (x s).1) :
    Tracks final [] V W R x where
  distinct := Expr.distinct_nil
  run s m hs _ := ⟨m, (h s).1.trans hs, fun _ _ => rfl, fun _ => ⟨by simp, (h s).2⟩⟩

theorem pure {a : α} (h : R a) : Tracks final [] V W R (Pure.pure a : Eval α) :=
  .silent fun _ => ⟨rfl, h⟩

theorem fail {f : Fault} (h : f = .divisionByZero → W .dummy) :
    Tracks final [] V W R (Eval.fail f : Eval α) := .silent fun _ => ⟨rfl, h⟩

theorem ofExcept {r : Except Fault α} (h : Outcome (fun f => f = .divisionByZero → W .dummy) R r) :
    Tracks final [] V W R (Eval.ofExcept r) := by
  cases r with
  | error f => exact .fail h
  | ok a => exact .pure h

theorem ofModify {f : EvalState → EvalState} (h : ∀ s, (f s).observed = s.observed) :
    Tracks final [] V W (fun _ => True) (modify f : Eval Unit) := .silent fun s => ⟨h s, trivial⟩

theorem warn (d : Diagnostic) : Tracks final [] V W (fun _ => True) (Eval.warn d) :=
  .ofModify fun _ => rfl

theorem setContext (c : Context) : Tracks final [] V W (fun _ => True) (Eval.setContext c) :=
  .ofModify fun _ => rfl

theorem forget (vs : IdSet) : Tracks final [] V W (fun _ => True) (Eval.forget vs) :=
  .ofModify fun _ => rfl

theorem meet (c : Context) : Tracks final [] V W (fun _ => True) (Eval.meet c) :=
  .ofModify fun _ => rfl

theorem continueLoop : Tracks final [] V W (fun _ => True) (modify EvalState.continueLoop) := by
  refine .ofModify fun s => ?_
  unfold EvalState.continueLoop
  split <;> rfl

/-- Storing in a local records nothing. -/
theorem assignLocal (b : Body) (v : VarId) (y : Value) :
    Tracks final [] V W (fun _ => True) (Eval.assignLocal b v y) :=
  .silent fun _ => ⟨rfl, trivial⟩

/-! ### Trees -/

theorem mono (h : Tracks final trees V W R x) (hV : ∀ p, V p → V' p) (hW : ∀ span, W span → W' span)
    (hR : ∀ a, R a → R' a) : Tracks final trees V' W' R' x where
  distinct := h.distinct
  run s m hs hm := by
    obtain ⟨m', hm', hframe, hend⟩ := h.run hs hm
    refine ⟨m', hm', hframe, fun hf => ?_⟩
    obtain ⟨hv, hr⟩ := hend hf
    refine ⟨fun p hp hb => hV p (hv p hp hb), ?_⟩
    cases hx : (x s).1 with
    | error e =>
      rw [hx] at hr
      exact fun he => hW _ (hr he)
    | ok a =>
      rw [hx] at hr
      exact hR a hr

theorem imp (h : Tracks final trees V W R x) (hW : ∀ span, W span → W' span) :
    Tracks final trees V W' R x :=
  h.mono (fun _ h => h) hW fun _ h => h

/-- The order of the trees plays no part. -/
theorem perm (h : Tracks final others V W R x) (hp : trees.Perm others) :
    Tracks final trees V W R x where
  distinct := h.distinct.perm hp
  run s m hs hm := by
    have hmem : ∀ p, p ∈ trees.flatMap Expr.subexprs ↔ p ∈ others.flatMap Expr.subexprs :=
      fun p => (hp.flatMap_right _).mem_iff
    simp only [hmem] at hm ⊢
    exact h.run hs hm

/-- Trees that are not evaluated. -/
theorem extend (h : Tracks final trees V W R x) (hd : Expr.Distinct (trees ++ others)) :
    Tracks final (trees ++ others) V W R x where
  distinct := hd
  run s m hs hm := by
    obtain ⟨-, -, hapart⟩ := Expr.distinct_append.1 hd
    simp only [List.flatMap_append, List.mem_append] at hm ⊢
    obtain ⟨m', hm', hframe, hend⟩ := h.run hs fun p hp => hm p (.inl hp)
    refine ⟨m', hm', fun i hi => hframe i fun p hp => hi p (.inl hp), fun hf => ?_⟩
    obtain ⟨hv, hr⟩ := hend fun p hp => hf p (.inl hp)
    refine ⟨fun p hp hb => ?_, hr⟩
    rcases hp with hp | hp
    · exact hv p hp hb
    · -- Nothing is recorded of the other trees, so nothing in them has begun.
      refine absurd hb (Expr.not_begun (fun q hq => ?_) hp)
      rw [← hf q (.inr hq), hframe q.id fun p hp => hapart p hp q hq]
      exact hm q (.inr hq)

/-- Trees that are not evaluated can be put in front. -/
theorem extend_left (h : Tracks final others V W R x) (hd : Expr.Distinct (trees ++ others)) :
    Tracks final (trees ++ others) V W R x :=
  (h.extend (hd.perm List.perm_append_comm)).perm List.perm_append_comm

/-- A step that records nothing tracks any distinct trees. -/
theorem unused (h : Tracks final [] V W R x) (hd : Expr.Distinct trees) :
    Tracks final trees V W R x := h.extend hd

/-! ### Composition -/

theorem ite {p : Prop} [Decidable p] (hx : Tracks final trees V W R x)
    (hy : Tracks final trees V W R y) : Tracks final trees V W R (if p then x else y) := by
  split
  · exact hx
  · exact hy

theorem context_bind {f : Context → Eval α} (h : ∀ c, Tracks final trees V W R (f c)) :
    Tracks final trees V W R (Eval.context >>= f) where
  distinct := (h ∅).distinct
  run s _ hs hm := (h s.context).run hs hm

/-- What the second evaluation does may depend on what holds of the result of the first. -/
theorem bind_of {f : α → Eval β} (hd : Expr.Distinct (trees ++ others))
    (hx : Tracks final trees V W R x)
    (hf : ∀ a, Tracks final others (fun p => R a → V p) (fun span => R a → W span)
      (fun c => R a → Q c) (f a)) :
    Tracks final (trees ++ others) V W Q (x >>= f) where
  distinct := hd
  run s m hs hm := by
    obtain ⟨-, -, hapart⟩ := Expr.distinct_append.1 hd
    simp only [List.flatMap_append, List.mem_append] at hm ⊢
    obtain ⟨m₁, hm₁, hframe₁, hend₁⟩ := hx.run hs fun p hp => hm p (.inl hp)
    have hfresh : ∀ q ∈ others.flatMap Expr.subexprs, m₁.get? q.id = none := by
      intro q hq
      rw [hframe₁ q.id fun p hp => hapart p hp q hq]
      exact hm q (.inr hq)
    rcases hrun : x s with ⟨e | a, s₁⟩
    · rw [hrun] at hm₁ hend₁
      rw [bind_of_error hrun]
      refine ⟨m₁, hm₁, fun i hi => hframe₁ i fun p hp => hi p (.inl hp), fun hfinal => ?_⟩
      obtain ⟨hv, hr⟩ := hend₁ fun p hp => hfinal p (.inl hp)
      refine ⟨fun p hp hb => ?_, hr⟩
      rcases hp with hp | hp
      · exact hv p hp hb
      · refine absurd hb (Expr.not_begun (fun q hq => ?_) hp)
        rw [← hfinal q (.inr hq)]
        exact hfresh q hq
    · rw [hrun] at hm₁ hend₁
      rw [bind_of_ok hrun]
      obtain ⟨m₂, hm₂, hframe₂, hend₂⟩ := (hf a).run hm₁ hfresh
      -- The second evaluation leaves alone what the first has recorded, so the values that are
      -- there in the end are those that the first has left.
      have hkept : ∀ p ∈ trees.flatMap Expr.subexprs, m₂.get? p.id = m₁.get? p.id :=
        fun p hp => hframe₂ p.id fun q hq => (hapart p hp q hq).symm
      refine ⟨m₂, hm₂, fun i hi => ?_, fun hfinal => ?_⟩
      · rw [hframe₂ i fun p hp => hi p (.inr hp), hframe₁ i fun p hp => hi p (.inl hp)]
      · obtain ⟨hv₁, hr₁⟩ := hend₁ fun p hp => (hkept p hp).symm.trans (hfinal p (.inl hp))
        obtain ⟨hv₂, hr₂⟩ := hend₂ fun p hp => hfinal p (.inr hp)
        refine ⟨fun p hp hb => hp.elim (fun hp => hv₁ p hp hb) fun hp => hv₂ p hp hb hr₁, ?_⟩
        cases hres : (f a s₁).1 with
        | error e =>
          rw [hres] at hr₂
          exact fun he => hr₂ he hr₁
        | ok c =>
          rw [hres] at hr₂
          exact hr₂ hr₁

theorem bind {f : α → Eval β} (hd : Expr.Distinct (trees ++ others))
    (hx : Tracks final trees V W R x) (hf : ∀ a, Tracks final others V W Q (f a)) :
    Tracks final (trees ++ others) V W Q (x >>= f) :=
  .bind_of hd hx fun a => (hf a).mono (fun _ h _ => h) (fun _ h _ => h) fun _ h _ => h

/-- An evaluation that records nothing comes first. -/
theorem after {f : α → Eval β} (hx : Tracks final [] V W R x)
    (hf : ∀ a, Tracks final trees V W Q (f a)) (hd : Expr.Distinct trees) :
    Tracks final trees V W Q (x >>= f) :=
  have hnil : Expr.Distinct ([] ++ trees) := hd
  hx.bind hnil hf

/-- An evaluation that records nothing comes last. -/
theorem before_of {f : α → Eval β} (hx : Tracks final trees V W R x)
    (hf : ∀ a, Tracks final [] V (fun span => R a → W span) (fun c => R a → Q c) (f a)) :
    Tracks final trees V W Q (x >>= f) := by
  have hd : Expr.Distinct (trees ++ []) := (List.append_nil trees).symm ▸ hx.distinct
  have hall := Tracks.bind_of hd hx fun a =>
    (hf a).mono (fun _ h _ => h) (fun _ h => h) fun _ h => h
  rwa [List.append_nil] at hall

/-- What follows may record nothing. -/
theorem before {f : α → Eval β} (hx : Tracks final trees V W R x)
    (hf : ∀ a, Tracks final [] V W Q (f a)) : Tracks final trees V W Q (x >>= f) :=
  hx.before_of fun a => (hf a).mono (fun _ h => h) (fun _ h _ => h) fun _ h _ => h

theorem locate {span : Span} (h : Tracks final trees V W R x)
    (hW : ∀ inner, W inner → W' (inner.orElse span)) :
    Tracks final trees V W' R (Eval.locate span x) where
  distinct := h.distinct
  run s m hs hm := by
    obtain ⟨m', hm', hframe, hend⟩ := h.run hs hm
    unfold Eval.locate
    rcases hrun : x s with ⟨e | a, t⟩
    · rw [hrun] at hm' hend
      exact ⟨m', hm', hframe, fun hf => (hend hf).imp (fun h => h) fun hr he => hW _ (hr he)⟩
    · rw [hrun] at hm' hend
      exact ⟨m', hm', hframe, hend⟩

/-- A part that may be skipped records as if it were run. -/
theorem maybe (h : Tracks final trees V W R x) :
    Tracks final trees V W (fun _ => True) (Eval.maybe x) :=
  .context_bind fun c => h.before fun _ => .meet c

theorem either {Q : α → Prop} (hd : Expr.Distinct (trees ++ others))
    (hx : Tracks final trees V W R x) (hy : Tracks final others V W Q y) :
    Tracks final (trees ++ others) V W (fun _ => True) (Eval.either x y) := by
  refine .context_bind fun c => hx.bind hd fun a => .context_bind fun d => ?_
  refine (Tracks.setContext c).after (fun _ => hy.before fun e => ?_) hy.distinct
  exact (Tracks.meet d).before fun _ => .pure trivial

/-- An iteration records what its body does. -/
theorem iteration {x : Eval Unit} {R : Unit → Prop} (h : Tracks final trees V W R x) :
    Tracks final trees V W (fun _ => True) (Eval.iteration x) where
  distinct := h.distinct
  run s m hs hm := by
    obtain ⟨m', hm', hframe, hend⟩ := h.run (s := { s with continues := none :: s.continues }) hs hm
    unfold Eval.iteration
    rcases hrun : x { s with continues := none :: s.continues } with ⟨e | ⟨⟩, t⟩
    · rw [hrun] at hm' hend
      exact ⟨m', hm', hframe, hend⟩
    · rw [hrun] at hm' hend
      exact ⟨m', hm', hframe, fun hf => ⟨(hend hf).1, trivial⟩⟩

/-! ### Layers of expressions -/

variable {b : Body} {id : ExprId} {k : ExprKind Expr}

/-- A layer whose operands are evaluated, but not the layer itself. -/
theorem place (hd : Expr.Distinct [.node id k]) (hk : k.divisor? = none)
    (hx : Tracks final k.children V (Expr.Divides b final k.children) R x) :
    Tracks final [.node id k] V (Expr.Divides b final [.node id k]) R x where
  distinct := hd
  run s m hs hm := by
    have hapart := (Expr.distinct_node hd).2
    rw [List.flatMap_singleton, Expr.subexprs, Expr.subexprsOfKind_eq] at hm ⊢
    rw [List.forall_mem_cons] at hm
    have hnode := hx.imp fun _ => Expr.Divides.node (i := id)
    obtain ⟨m', hm', hframe, hend⟩ := hnode.run hs hm.2
    refine ⟨m', hm', fun i hi => hframe i (List.forall_mem_cons.1 hi).2, fun hf => ?_⟩
    rw [List.forall_mem_cons] at hf ⊢
    obtain ⟨hv, hr⟩ := hend hf.2
    refine ⟨⟨?_, hv⟩, hr⟩
    rintro (hne | ⟨r, hr, -⟩)
    · exact absurd (hf.1.symm.trans ((hframe id hapart).trans hm.1)) hne
    · rw [Expr.kind, hk] at hr
      cases hr

/-- A layer that is evaluated and recorded. -/
theorem node {R : Value → Prop} {x : Eval Value} (hd : Expr.Distinct [.node id k])
    (hx : Tracks final k.children V W R x) (hV : V (.node id k)) :
    Tracks final [.node id k] V (fun span => W span ∧ final.get? id = none)
      (fun a => final.get? id = some a)
      (do
        let a ← x
        Eval.observe id a
        return a) where
  distinct := hd
  run s m hs hm := by
    have hapart := (Expr.distinct_node hd).2
    rw [List.flatMap_singleton, Expr.subexprs, Expr.subexprsOfKind_eq] at hm ⊢
    rw [List.forall_mem_cons] at hm
    obtain ⟨m₁, hm₁, hframe, hend⟩ := hx.run hs hm.2
    have hid : m₁.get? id = none := (hframe id hapart).trans hm.1
    rcases hrun : x s with ⟨e | a, s₁⟩
    · rw [hrun] at hm₁ hend
      rw [bind_of_error hrun]
      refine ⟨m₁, hm₁, fun i hi => hframe i (List.forall_mem_cons.1 hi).2, fun hf => ?_⟩
      rw [List.forall_mem_cons] at hf ⊢
      obtain ⟨hv, hr⟩ := hend hf.2
      exact ⟨⟨fun _ => hV, hv⟩, fun he => ⟨hr he, hf.1.symm.trans hid⟩⟩
    · rw [hrun] at hm₁ hend
      have hobserve : (s₁.observe id a).observed = some (m₁.insert id a) := by
        have hm₁ : s₁.observed = some m₁ := hm₁
        simp only [EvalState.observe, hm₁, hid]
      rw [bind_of_ok hrun]
      refine ⟨m₁.insert id a, hobserve, fun i hi => ?_, fun hf => ?_⟩
      · obtain ⟨hne, hi⟩ := List.forall_mem_cons.1 hi
        have hne : id ≠ i := hne
        rw [IdMap.get?_insert, if_neg hne.symm, hframe i hi]
      · rw [List.forall_mem_cons] at hf ⊢
        have hkept : ∀ p ∈ k.children.flatMap Expr.subexprs, m₁.get? p.id = final.get? p.id := by
          intro p hp
          rw [← hf.2 p hp, IdMap.get?_insert, if_neg (hapart p hp)]
        refine ⟨⟨fun _ => hV, (hend hkept).1⟩, ?_⟩
        have hself : (m₁.insert id a).get? id = final.get? id := hf.1
        rw [IdMap.get?_insert, if_pos rfl] at hself
        exact hself.symm

/-- An operator records nothing and fails where it stands. -/
theorem binary {R : Value → Prop} {op : BinOp} {span : Span} {a c : Value}
    (h : Outcome (fun f => f = .divisionByZero → W .dummy) R (Value.binary op a c)) :
    Tracks final [] V W R (Eval.binary op span a c) := by
  have hvalue : Tracks final [] V W R (Eval.ofExcept (Value.binary op a c)) := .ofExcept h
  cases op with
  | equality negated =>
    refine .ite ?_ hvalue
    exact (Tracks.warn _).after (fun _ => hvalue) Expr.distinct_nil
  | _ => exact hvalue

/-- A step of a local records nothing. -/
theorem step (b : Body) (st : Step) (v : VarId) :
    Tracks final [] V W (fun _ => True) (Eval.step b st v) := by
  refine .context_bind fun c => .ite (.fail nofun) ?_
  refine Tracks.after (R := fun _ => True) (.ofExcept ?_) (fun y => ?_) Expr.distinct_nil
  · refine .intro (fun _ _ => trivial) fun f hf he => ?_
    subst he
    exact absurd hf step_ne_divisionByZero
  · exact (Tracks.assignLocal b v y).after (fun _ => .pure trivial) Expr.distinct_nil

end Tracks

end Eval

end Midend
