import Midend.Proofs.Eval.Continue
import Midend.Proofs.Eval.Tracks

/-!
# What evaluation goes through

The evaluation of trees `Walks` along a course if whatever it has begun lies on the
course, with the choices that are decided by the values recorded in the end, and a
division by zero that it fails in is one of those that it has begun. The evaluation
of an expression walks along the courses through it (`Expr.eval_walks`), that of
statements along the trails (`Stmt.evalList_walks`).
-/

namespace Midend

open Eval

/-- What is recorded of a condition whose truth is known. -/
theorem IdMap.value_of_truth? {m : IdMap Value} {e : Expr} {x : Value} {v : Bool}
    (hx : m.get? e.id = some x) (h : m.truth? e = some v) : x = .known (.bool v) := by
  unfold truth? at h
  rw [hx] at h
  split at h
  · next w hw =>
    obtain rfl := Option.some.inj hw
    rw [Option.some.inj h]
  · cases h

/-! ## Rules -/

/-- Whatever the evaluation of the trees begins lies on the course through them, and a division by
zero that it fails in is one of those that it has begun. -/
abbrev Eval.Walks {α : Type} (b : Body) (final : IdMap Value) (trees : List Expr) (p : Course Unit)
    (R : α → Prop) (x : Eval α) : Prop :=
  Tracks final trees (Meets · () p) (Expr.Divides b final trees) R x

namespace Eval.Tracks

variable {α β : Type} {b : Body} {final : IdMap Value} {trees others : List Expr}
  {W : Span → Prop} {R : α → Prop} {Q : β → Prop} {x : Eval α} {c : Expr} {a : Value}
  {p q head tail : Course Unit}

/-- What lies on a part of a course lies on the whole. -/
theorem along {f : α → Eval β} {V V₁ V₂ : Expr → Prop} (hd : Expr.Distinct (trees ++ others))
    (hx : Tracks final trees V₁ (Expr.Divides b final trees) R x)
    (hf : ∀ a, Tracks final others V₂ (Expr.Divides b final others) Q (f a))
    (h₁ : ∀ e, V₁ e → V e) (h₂ : ∀ e, V₂ e → V e) :
    Tracks final (trees ++ others) V (Expr.Divides b final (trees ++ others)) Q (x >>= f) :=
  .bind hd (hx.mono h₁ (fun _ h => h.mono (List.subset_append_left _ _)) fun _ h => h)
    fun a => (hf a).mono h₂ (fun _ h => h.mono (List.subset_append_right _ _)) fun _ h => h

/-- Parts that always end are walked one after the other. -/
theorem seq {f : α → Eval β} (hd : Expr.Distinct (trees ++ others)) (hp : Ends () p)
    (hq : Ends () q) (hx : Walks b final trees p R x) (hf : ∀ a, Walks b final others q Q (f a)) :
    Walks b final (trees ++ others) (do p; q) Q (x >>= f) :=
  hx.along hd hf (fun _ he => he.bind_left hq) fun _ he => .bind_right hp he

/-- Courses only one of which is taken are evaluated one after the other. -/
theorem alternate {f : α → Eval β} (hd : Expr.Distinct (trees ++ others))
    (hx : Walks b final trees p R x) (hf : ∀ a, Walks b final others q Q (f a)) :
    Walks b final (trees ++ others) (Run.Either p q) Q (x >>= f) :=
  hx.along hd hf (fun _ he => he.left) fun _ he => he.right

/-- The first part always ends; the second may be left. -/
theorem rounds {f : α → Eval β} (hd : Expr.Distinct (trees ++ others)) (hh : Ends () head)
    (hx : Walks b final trees head R x) (hf : ∀ a, Walks b final others tail Q (f a)) :
    Walks b final (trees ++ others) (Stmt.rounds head tail) Q (x >>= f) :=
  hx.along hd hf (fun _ he => Stmt.meets_rounds_head he) fun _ he => Stmt.meets_rounds_tail hh he

/-- The order in which trees are listed plays no part. -/
theorem reorder {V : Expr → Prop} (h : Tracks final others V (Expr.Divides b final others) R x)
    (hp : trees.Perm others) : Tracks final trees V (Expr.Divides b final trees) R x :=
  (h.imp fun _ h => h.mono hp.symm.subset).perm hp

/-- The arm for a condition whose value is not known to be false. -/
theorem taken (ha : a ≠ .known (.bool false)) (hx : Tracks final trees (Meets · () p) W R x) :
    Tracks final trees
      (fun e => final.get? c.id = some a → Meets e () do
        c.course final.truth?
        if ← choose (final.truth? c) then p else q)
      (fun span => final.get? c.id = some a → W span) R x :=
  hx.mono (fun _ he hc => .bind_right (Expr.ends_course c)
    (.bind_right (Ends.choose (v := true) fun h => ha (IdMap.value_of_truth? hc h)) he))
    (fun _ h _ => h) fun _ h => h

/-- The arm for a condition whose value is not known to be true. -/
theorem passed (ha : a ≠ .known (.bool true)) (hx : Tracks final trees (Meets · () q) W R x) :
    Tracks final trees
      (fun e => final.get? c.id = some a → Meets e () do
        c.course final.truth?
        if ← choose (final.truth? c) then p else q)
      (fun span => final.get? c.id = some a → W span) R x :=
  hx.mono (fun _ he hc => .bind_right (Expr.ends_course c)
    (.bind_right (Ends.choose (v := false) fun h => ha (IdMap.value_of_truth? hc h)) he))
    (fun _ h _ => h) fun _ h => h

end Eval.Tracks

/-! ## Expressions -/

namespace Expr

variable {b : Body} {final : IdMap Value}

/-- An operator that fails in a division by zero has a divisor of zero. -/
theorem zeroDivisor_of_binary {k : ExprKind Expr} {r : Expr} {op : BinOp} {x y : Value}
    (hk : k.divisor? = if op.isDivision then some r else none) (hy : final.get? r.id = some y)
    (h : Value.binary op x y = .error .divisionByZero) : ZeroDivisor final k := by
  obtain ⟨hdiv, hzero⟩ := Value.binary_divisionByZero h
  exact ⟨r, y, hk.trans (if_pos hdiv), hy, hzero⟩

/-- The right operand of a logical operator may be gone through if the left one does not decide
the result. -/
theorem ends_choose_logic {l : Expr} {op : LogicOp} {x : Value} (hx : final.get? l.id = some x)
    (hv : x ≠ .known (.bool op.deciding)) :
    Ends false (choose ((final.truth? l).map (· == op.deciding))) := by
  refine .choose fun h => hv ?_
  obtain ⟨v, htruth, hdecides⟩ := Option.map_eq_some_iff.1 h
  rw [IdMap.value_of_truth? hx htruth, eq_of_beq hdecides]

/-- A division by zero in an operand of the layer, or the one of the layer itself, which has no
place yet. -/
inductive LayerDivides (b : Body) (m : IdMap Value) (k : ExprKind Expr) : Span → Prop
  | operand {span : Span} : Divides b m k.children span → LayerDivides b m k span
  | whole : ZeroDivisor m k → LayerDivides b m k .dummy

theorem LayerDivides.locate {k : ExprKind Expr} {id : ExprId} {span : Span}
    (h : LayerDivides b final k span) (hid : final.get? id = none) :
    Divides b final [.node id k] (span.orElse (b.exprSpan id)) := by
  cases h with
  | operand h => exact h.node.locate
  | whole h =>
    exact ⟨.node id k, by simp [subexprs], ⟨h, hid⟩, fun _ => rfl⟩

mutual

/-- What the evaluation of an expression begins lies on a course through it. -/
theorem eval_walks (depth : Nat) :
    ∀ {e : Expr}, Distinct [e] →
      Walks b final [e] (e.course final.truth?) (fun a => final.get? e.id = some a)
        (e.eval b depth)
  | node id kind, hd => by
    rw [eval]
    rw [course]
    split
    · exact .locate (W := fun _ => False) (.unused (.fail nofun) hd) fun _ h => h.elim
    · have hkind := evalKind_tracks (depth + 1) id (distinct_node hd).1
      refine .locate (.node hd (hkind.mono (fun p hp => ?_) (fun _ h => h) fun _ h => h) ?_)
        fun _ h => h.1.locate h.2
      · exact .hazardous (hp.bind_left Meets.emit.ends)
      · exact .hazardous (.bind_right (ends_kindCourse kind) .emit)

/-- One case for each form of expression: what it begins follows the known truth values. -/
theorem evalKind_tracks (depth : Nat) (id : ExprId) :
    ∀ {k : ExprKind Expr}, Distinct k.children →
      Tracks final k.children (Meets · () (kindCourse final.truth? k))
        (LayerDivides b final k) (fun _ => True) (evalKind b depth id k)
  | .lit _, _ => .pure trivial
  | .var _, _ => .context_bind fun _ => .pure trivial
  | .field none .., _ | .err, _ => .pure trivial
  | .paren inner, hd =>
    (eval_walks depth hd).mono (fun _ hp => hp) (fun _ h => .operand h) fun _ _ => trivial
  | .field (some e) .., hd | .cast _ e, hd | .instanceOf e _, hd => by
    have he : Tracks final [e] _ _ _ (e.eval b depth) := eval_walks depth hd
    exact (he.imp fun _ h => .operand h).before fun _ => .pure trivial
  | .assign target op value, hd => by
    obtain ⟨ht, hv⟩ := distinct_cons hd
    have hvalue : Tracks final [value]
        (Meets · () (kindCourse final.truth? (.assign target op value)))
        (LayerDivides b final (.assign target op value)) _
        (value.eval b depth) :=
      (eval_walks depth hv).mono (fun _ hp => .bind_right (ends_placeCourse target) hp)
        (fun _ h => .operand (h.mono (List.subset_cons_self target _))) fun _ h => h
    -- A target that is a local is not evaluated itself.
    cases hl : target.localTarget? with
    | none =>
      simp only [evalKind, hl]
      refine .imp (.seq hd (ends_placeCourse target) (ends_course value)
        (evalPlace_walks depth ht) fun _ => ?_)
        fun _ h => .operand h
      exact (eval_walks depth hv).before fun _ => .pure trivial
    | some v =>
      have hd : Distinct ([target] ++ [value]) := hd
      suffices h : Tracks final [value] _ _ (fun _ => True)
          (evalKind b depth id (.assign target op value)) from h.extend_left hd
      cases op with
      | none =>
        simp only [evalKind, hl]
        exact hvalue.before fun x => .assignLocal b v x
      | some op =>
        simp only [evalKind, hl]
        refine .context_bind fun c => hvalue.before_of fun y => ?_
        refine Tracks.after (R := fun _ => True) (.ofExcept ?_) (fun z => ?_) distinct_nil
        · exact .intro (fun _ _ => trivial) fun f hf he hy =>
            .whole (zeroDivisor_of_binary rfl hy (hf.trans (congrArg _ he)))
        · exact (Tracks.assignLocal b v z).mono (fun _ h => h) (fun _ h => h) fun _ _ _ => trivial
  | .binary l (.logic op) r, hd => by
    obtain ⟨hl, hr⟩ := distinct_cons hd
    have hright : ∀ x, x ≠ .known (.bool op.deciding) →
        Tracks final [r] (fun p => final.get? l.id = some x →
            Meets p () (kindCourse final.truth? (.binary l (.logic op) r)))
          (fun span => final.get? l.id = some x →
            LayerDivides b final (.binary l (.logic op) r) span) _
          (r.eval b depth) := fun x hx => (eval_walks depth hr).mono
      (fun p hp hl => .bind_right (ends_course l) (.bind_right (ends_choose_logic hl hx) hp))
      (fun _ h _ => .operand (h.mono (List.subset_cons_self l _))) fun _ h => h
    refine .bind_of hd ((eval_walks depth hl).mono (fun p hp => ?_) (fun _ h => ?_) fun _ h => h)
      fun x => ?_
    · exact hp.bind_left (.ite .pure (ends_course r))
    · exact .operand (h.mono (by simp [ExprKind.children]))
    · cases x with
      | unknown => exact (hright .unknown nofun).maybe.before fun _ => .pure fun _ => trivial
      | known a =>
        by_cases ha : a = .bool op.deciding
        · simp only [if_pos ha]
          exact (Tracks.pure fun _ => trivial).unused hr
        · simp only [if_neg ha]
          refine (hright _ fun h => ha (Value.known.inj h)).before_of fun y => .ofExcept ?_
          exact .intro (fun _ _ _ _ => trivial) fun f hf he hy _ =>
            .whole (zeroDivisor_of_binary rfl hy (hf.trans (congrArg _ he)))
  | .binary l (.arith op) r, hd | .binary l (.shift op) r, hd | .binary l (.bits op) r, hd
  | .binary l (.order op) r, hd | .binary l (.equality op) r, hd => by
    obtain ⟨hl, hr⟩ := distinct_cons hd
    refine .bind hd ((eval_walks depth hl).mono (fun p hp => ?_) (fun _ h => ?_) fun _ h => h)
      fun x => ((eval_walks depth hr).mono (fun p hp => ?_) (fun _ h => ?_) fun _ h => h).before_of
        fun y => .binary (.intro (fun _ _ _ => trivial) fun f hf he hy => ?_)
    · exact hp.bind_left (ends_course r)
    · exact .operand (h.mono (by simp [ExprKind.children]))
    · exact .bind_right (ends_course l) hp
    · exact .operand (h.mono (List.subset_cons_self l _))
    · exact .whole (zeroDivisor_of_binary rfl hy (hf.trans (congrArg _ he)))
  | .unary (.step st) operand, hd => by
    cases hl : operand.localTarget? with
    | none =>
      simp only [evalKind, hl]
      exact ((evalPlace_walks depth hd).imp fun _ h => .operand h).before fun _ => .pure trivial
    | some v =>
      simp only [evalKind, hl]
      exact (Tracks.step b st v).unused hd
  | .unary .not e, hd | .unary .neg e, hd | .unary .plus e, hd | .unary .bitNot e, hd => by
    have he : Tracks final [e] _ _ _ (e.eval b depth) := eval_walks depth hd
    refine (he.imp fun _ h => .operand h).before fun x => .ofExcept ?_
    refine .intro (fun _ _ => trivial) fun f hf hzero => ?_
    subst hzero
    exact absurd hf (Value.unary_ne_divisionByZero _ _)
  | .conditional c t f, hd => by
    obtain ⟨hc, harms⟩ := distinct_cons hd
    have harms : Distinct ([t] ++ [f]) := harms
    obtain ⟨ht, hf, -⟩ := distinct_append.1 harms
    have htrue : Tracks final [t] (Meets · () (t.course final.truth?))
        (LayerDivides b final (.conditional c t f)) _ (t.eval b depth) :=
      (eval_walks depth ht).imp fun _ h => .operand (h.mono (by simp [ExprKind.children]))
    have hfalse : Tracks final [f] (Meets · () (f.course final.truth?))
        (LayerDivides b final (.conditional c t f)) _ (f.eval b depth) :=
      (eval_walks depth hf).imp fun _ h => .operand (h.mono (by simp [ExprKind.children]))
    rw [evalKind]
    refine .bind_of hd ((eval_walks depth hc).mono (fun p hp => ?_) (fun _ h => ?_) fun _ h => h)
      fun x => ?_
    · exact hp.bind_left (.ite (ends_course t) (ends_course f))
    · exact .operand (h.mono (by simp [ExprKind.children]))
    · split
      · exact .before ((htrue.taken (by simp)).extend harms) fun _ => .pure fun _ => trivial
      · refine .before ((hfalse.passed (by simp)).extend_left harms) fun _ => .pure fun _ => trivial
      · refine .before (.either harms (htrue.taken ?_) (hfalse.passed ?_)) fun _ =>
          .pure fun _ => trivial
        · exact nofun
        · exact nofun
      · exact (Tracks.fail nofun).unused harms
  | .index a i, hd => by
    obtain ⟨ha, hi⟩ := distinct_cons hd
    refine .imp (.seq hd (ends_course a) (ends_course i) (eval_walks depth ha) fun _ => ?_)
        fun _ h => .operand h
    exact (eval_walks depth hi).before fun _ => .pure trivial
  | .call none _ args, hd | .create _ args, hd => by
    have hargs : Tracks final args _ _ _ (evalList b depth args) := evalList_walks depth hd
    exact (hargs.imp fun _ h => .operand h).before fun _ => .pure trivial
  | .call (some e) _ args, hd => by
    have hd : Distinct ([e] ++ args) := hd
    obtain ⟨he, hargs, -⟩ := distinct_append.1 hd
    refine .imp (.seq hd (ends_course e) (ends_listCourse args) (eval_walks depth he) fun _ => ?_)
        fun _ h => .operand h
    exact (evalList_walks depth hargs).before fun _ => .pure trivial

/-- An assignment target walks its parts and not itself. -/
theorem evalPlace_walks (depth : Nat) :
    ∀ {e : Expr}, Distinct [e] →
      Walks b final [e] (e.placeCourse final.truth?) (fun _ => True) (e.evalPlace b depth)
  | node id kind, hd => by
    obtain ⟨hkind, -⟩ := distinct_node hd
    cases kind with
    | paren inner =>
      rw [evalPlace, placeCourse]
      exact .place hd rfl (evalPlace_walks depth hkind)
    | field receiver name isStatic =>
      cases receiver with
      | none => exact (Tracks.pure trivial).unused hd
      | some e =>
        have he : Tracks final [e] _ _ _ (e.eval b depth) := eval_walks depth hkind
        exact .place hd rfl (he.before fun _ => .pure trivial)
    | index a i =>
      obtain ⟨ha, hi⟩ := distinct_cons hkind
      refine .place hd rfl (.seq hkind (ends_course a) (ends_course i) (eval_walks depth ha) ?_)
      exact fun _ => (eval_walks depth hi).before fun _ => .pure trivial
    | _ => exact (Tracks.fail nofun).unused hd

theorem evalList_walks (depth : Nat) :
    ∀ {es : List Expr}, Distinct es →
      Walks b final es (listCourse final.truth? es) (fun _ => True) (evalList b depth es)
  | [], _ => .pure trivial
  | e :: es, hd => by
    obtain ⟨he, hes⟩ := distinct_cons hd
    exact .seq hd (ends_course e) (ends_listCourse es) (eval_walks depth he) fun _ =>
      evalList_walks depth hes

end

end Expr

/-! ## Statements -/

namespace Expr

variable {b : Body} {final : IdMap Value}

/-- An expression of a statement is walked as one tree. -/
theorem run_walks {e : Expr} (hd : Distinct [e]) :
    Walks b final [e] (e.course final.truth?) (fun _ => True) (e.run b) :=
  (eval_walks 0 hd).before fun _ => .pure trivial

theorem listed {α : Type} {R : α → Prop} {x : Eval α} {e : Expr}
    (h : Walks b final [e] (e.course final.truth?) R x) :
    Walks b final [e] (listCourse final.truth? [e]) R x :=
  h.mono (fun _ he => he.bind_left .pure) (fun _ h => h) fun _ h => h

theorem runOption_walks :
    ∀ {e : Option Expr}, Distinct e.toList →
      Walks b final e.toList (listCourse final.truth? e.toList) (fun _ => True) (runOption b e)
  | none, _ => .pure trivial
  | some _, hd => listed (run_walks hd)

section

variable {known : Expr → Option Bool} {p : Expr} {others : List Expr}

theorem meets_listCourse_left :
    ∀ {es : List Expr}, Meets p () (listCourse known es) →
      Meets p () (listCourse known (es ++ others))
  | [], ⟨_, ⟨⟩, h⟩ => nomatch h
  | e :: _, h => h.of_bind.elim (fun he => he.bind_left (ends_listCourse _)) fun hes =>
      .bind_right (ends_course e) (meets_listCourse_left hes)

/-- Expressions put in front do not hide one that is met. -/
theorem meets_listCourse_right (h : Meets p () (listCourse known others)) (es : List Expr) :
    Meets p () (listCourse known (es ++ others)) := by
  induction es with
  | nil => exact h
  | cons e es ih => exact .bind_right (ends_course e) ih

end

end Expr

namespace Stmt

open Midend.Expr

variable {b : Body} {final : IdMap Value}

mutual

/-- What the evaluation of a statement begins lies on a trail through it. -/
theorem eval_walks :
    ∀ {s : Stmt}, Distinct (exprsOf s.substmts) →
      Walks b final (exprsOf s.substmts) (s.trail final.truth?) (fun _ => True) (s.eval b)
  | node id kind, hd => .locate (evalKind_walks (node id kind) hd) fun _ => Divides.locate

/-- One case for each form of statement. -/
theorem evalKind_walks (whole : Stmt) :
    ∀ {k : StmtKind Expr Stmt}, Distinct (k.exprChildren ++ exprsOf (substmtsOfKind k)) →
      Walks b final (k.exprChildren ++ exprsOf (substmtsOfKind k)) (kindTrail final.truth? k)
        (fun _ => True) (evalKind b whole k)
  | .decl v none, _ => (Tracks.assignLocal b v .unknown).before fun _ => .pure trivial
  | .decl v (some e), hd => by
    have he : Walks b final [e] _ _ (e.eval b 0) := listed (Expr.eval_walks 0 hd)
    exact he.before fun x => (Tracks.assignLocal b v x).before fun _ => .pure trivial
  | .expr e, hd | .throw e, hd => run_walks hd
  | .ret e, hd => by
    simp only [StmtKind.exprChildren, substmtsOfKind, exprsOf, List.flatMap_nil,
      List.append_nil] at hd ⊢
    exact runOption_walks hd
  | .block body, hd => evalList_walks hd
  | .branch c t f, hd => by
    have hsub : exprsOf (substmtsOfKind (.branch c t f)) =
        exprsOf t.substmts ++ exprsOf (f.elim [] substmts) := by
      cases f <;> simp [substmtsOfKind, exprsOf]
    rw [hsub] at hd ⊢
    let all := [c] ++ (exprsOf t.substmts ++ exprsOf (f.elim [] substmts))
    change Walks b final all _ _ _
    have hd : Distinct all := hd
    obtain ⟨hc, harms, -⟩ := distinct_append.1 hd
    obtain ⟨ht, hf, -⟩ := distinct_append.1 harms
    have htrue : Tracks final _ (Meets · () (t.trail final.truth?)) (Divides b final all) _
        (t.eval b) := (eval_walks ht).imp fun _ h => h.mono fun _ h => by simp [all, h]
    have hfalse : Tracks final _ (Meets · () (optionTrail final.truth? f)) (Divides b final all) _
        (evalOption b f) := (evalOption_walks hf).imp fun _ h => h.mono fun _ h => by simp [all, h]
    refine .bind_of hd ((Expr.eval_walks 0 hc).mono (fun p hp => ?_) (fun _ h => ?_) fun _ h => h)
      fun x => ?_
    · exact hp.bind_left (.ite (ends_trail t) (ends_optionTrail f))
    · exact h.mono (List.subset_append_left _ _)
    · split
      · exact ((htrue.taken (by simp)).extend harms).mono (fun _ h => h) (fun _ h => h)
          fun _ _ _ => trivial
      · exact ((hfalse.passed (by simp)).extend_left harms).mono (fun _ h => h) (fun _ h => h)
          fun _ _ _ => trivial
      · refine .before (.either harms (htrue.taken ?_) (hfalse.passed ?_)) fun _ =>
          .pure fun _ => trivial
        · exact nofun
        · exact nofun
      · exact (Tracks.fail nofun).unused harms
  | .assert c message, hd => by
    simp only [StmtKind.exprChildren, substmtsOfKind, exprsOf, List.flatMap_nil,
      List.append_nil] at hd ⊢
    change Walks b final ([c] ++ message.toList) _ _ _
    have hd : Distinct ([c] ++ message.toList) := hd
    obtain ⟨hc, hm, -⟩ := distinct_append.1 hd
    have hmessage : Walks b final message.toList
        (Run.Either (pure ()) (listCourse final.truth? message.toList)) _ (runOption b message) :=
      (runOption_walks hm).mono (fun _ he => he.right) (fun _ h => h) fun _ h => h
    exact .maybe (.seq hd (ends_course c) (.left .pure) (run_walks hc) fun _ =>
      .context_bind fun d => hmessage.before fun _ => .setContext d)
  | .whileLoop c body, hd => by
    obtain ⟨hc, hb⟩ := distinct_cons hd
    refine (Tracks.forget _).after (fun _ => ?_) hd
    refine .rounds hd (ends_course c) (run_walks hc) fun _ => ?_
    exact (eval_walks hb).iteration.before fun _ => .forget _
  | .doLoop body c, hd => by
    have hperm : ([c] ++ exprsOf body.substmts).Perm (exprsOf body.substmts ++ [c]) :=
      List.perm_append_comm
    refine Tracks.reorder ?_ hperm
    have hd := hd.perm hperm.symm
    obtain ⟨hb, hc, -⟩ := distinct_append.1 hd
    refine (Tracks.forget _).after (fun _ => ?_) hd
    refine .mono (.seq hd (ends_trail body) (ends_course c) (eval_walks hb).iteration fun _ => ?_)
      (fun _ he => meets_rounds_head he) (fun _ h => h) fun _ h => h
    exact (run_walks hc).before fun _ => .forget _
  | .forLoop init c update body, hd => by
    have hsub : exprsOf (substmtsOfKind (.forLoop init c update body)) =
        exprsOf (substmtsOfList init) ++ exprsOf body.substmts := exprsOf_append _ _
    rw [hsub] at hd ⊢
    have hperm :
        (c.toList ++ update ++ (exprsOf (substmtsOfList init) ++ exprsOf body.substmts)).Perm
          (exprsOf (substmtsOfList init) ++ (c.toList ++ (exprsOf body.substmts ++ update))) := by
      refine List.perm_append_comm.trans ?_
      rw [List.append_assoc]
      exact (List.perm_append_comm_assoc _ _ _).append_left _
    refine Tracks.reorder ?_ hperm
    have hd := hd.perm hperm.symm
    obtain ⟨hi, hloop, -⟩ := distinct_append.1 hd
    obtain ⟨hc, hrest, -⟩ := distinct_append.1 hloop
    obtain ⟨hb, hu, -⟩ := distinct_append.1 hrest
    refine .seq hd (ends_listTrail init) (ends_rounds (ends_listCourse _)) (evalList_walks hi)
      fun _ => (Tracks.forget _).after (fun _ => ?_) hloop
    refine .rounds hloop (ends_listCourse _) (runOption_walks hc) fun _ => ?_
    refine .seq hrest (ends_trail body) (ends_listCourse update) (eval_walks hb).iteration
      fun _ => ?_
    exact (Expr.evalList_walks 0 hu).before fun _ => .forget _
  | .forEach _ e body, hd => by
    obtain ⟨he, hb⟩ := distinct_cons hd
    refine .seq hd (ends_course e) (ends_rounds .pure) (run_walks he) fun _ => ?_
    refine (Tracks.forget _).after (fun _ => ?_) hb
    exact ((eval_walks hb).iteration.before fun _ => .forget _).mono
      (fun _ he => meets_rounds_tail .pure he) (fun _ h => h) fun _ h => h
  | .switch c cases, hd => by
    change Walks b final ([c] ++ (labels cases ++ exprsOf (substmtsOfCases cases))) _ _ _
    obtain ⟨hc, hcases⟩ := distinct_cons hd
    let skips := !cases.any SwitchCase.isDefault
    have hgroups : Ends () (casesTrail final.truth? skips cases) :=
      ends_casesTrail cases (by cases cases <;> simp [skips])
    refine .seq hd (ends_course c) ((ends_listCourse _).bind hgroups) (run_walks hc) fun _ => ?_
    refine (Tracks.forget _).after (fun _ => .context_bind fun d => ?_) hcases
    refine Tracks.before (R := fun _ => True) ?_ fun _ => .setContext d
    refine (evalCases_walks d skips hcases).mono (fun p hp => ?_) (fun _ h => h) fun _ h => h
    exact hp.elim (fun hp => hp.bind_left hgroups) fun hp => .bind_right (ends_listCourse _) hp
  | .guarded resources body catches none, hd => by
    simp only [StmtKind.exprChildren, substmtsOfKind, exprsOf_append, List.nil_append,
      List.append_assoc] at hd ⊢
    obtain ⟨hr, hrest, -⟩ := distinct_append.1 hd
    obtain ⟨hb, hcs, -⟩ := distinct_append.1 hrest
    refine (Tracks.forget _).after (fun _ => .context_bind fun d => ?_) hd
    refine .seq hd (ends_listTrail _) ((ends_listTrail _).bind (ends_catchesTrail _))
      (evalList_walks hr) fun _ => ?_
    refine .seq hrest (ends_listTrail _) (ends_catchesTrail _) (evalList_walks hb) fun _ => ?_
    exact (evalCatches_walks d hcs).before fun _ => .setContext d
  | .guarded resources body catches (some finalizer), hd => by
    simp only [StmtKind.exprChildren, substmtsOfKind, exprsOf_append, List.nil_append,
      List.append_assoc] at hd ⊢
    obtain ⟨hr, hrest, -⟩ := distinct_append.1 hd
    obtain ⟨hb, hhandlers, -⟩ := distinct_append.1 hrest
    obtain ⟨hcs, hf, -⟩ := distinct_append.1 hhandlers
    have hends : Ends () (do catchesTrail final.truth? catches; listTrail final.truth? finalizer) :=
      (ends_catchesTrail _).bind (ends_listTrail _)
    refine (Tracks.forget _).after (fun _ => .context_bind fun d => ?_) hd
    refine .seq hd (ends_listTrail _) ((ends_listTrail _).bind hends) (evalList_walks hr)
      fun _ => ?_
    refine .seq hrest (ends_listTrail _) hends (evalList_walks hb) fun _ => ?_
    refine .seq hhandlers (ends_catchesTrail _) (ends_listTrail _) (evalCatches_walks d hcs)
      fun _ => (Tracks.setContext d).after (fun _ => ?_) hf
    exact (evalList_walks hf).before fun _ => .setContext d
  | .continueLoop, _ => .continueLoop
  | .breakOut, _ | .empty, _ | .err, _ => .pure trivial

theorem evalOption_walks :
    ∀ {s : Option Stmt}, Distinct (exprsOf (s.elim [] substmts)) →
      Walks b final (exprsOf (s.elim [] substmts)) (optionTrail final.truth? s) (fun _ => True)
        (evalOption b s)
  | none, _ => .pure trivial
  | some _, hd => eval_walks hd

theorem evalList_walks :
    ∀ {ss : List Stmt}, Distinct (exprsOf (substmtsOfList ss)) →
      Walks b final (exprsOf (substmtsOfList ss)) (listTrail final.truth? ss) (fun _ => True)
        (evalList b ss)
  | [], _ => .pure trivial
  | s :: ss, hd => by
    rw [substmtsOfList, exprsOf_append] at hd ⊢
    obtain ⟨hs, hss, -⟩ := distinct_append.1 hd
    exact .seq hd (ends_trail s) (ends_listTrail ss) (eval_walks hs) fun _ => evalList_walks hss

/-- The labels of the groups are evaluated with them. -/
theorem evalCases_walks (entry : Context) (skips : Bool) :
    ∀ {cs : List (SwitchCase Expr Stmt)}, Distinct (labels cs ++ exprsOf (substmtsOfCases cs)) →
      Tracks final (labels cs ++ exprsOf (substmtsOfCases cs))
        (fun e => Meets e () (listCourse final.truth? (labels cs)) ∨
          Meets e () (casesTrail final.truth? skips cs))
        (Divides b final (labels cs ++ exprsOf (substmtsOfCases cs))) (fun _ => True)
        (evalCases b entry cs)
  | [], _ => .pure trivial
  | ⟨_, ls, body⟩ :: cs, hd => by
    -- The labels of the later groups are evaluated after the statements of this one, although they
    -- come before them on the trails.
    have hperm : (ls ++ labels cs ++
          (exprsOf (substmtsOfList body) ++ exprsOf (substmtsOfCases cs))).Perm
        (ls ++ (exprsOf (substmtsOfList body) ++ (labels cs ++ exprsOf (substmtsOfCases cs)))) := by
      rw [List.append_assoc]
      exact (List.perm_append_comm_assoc _ _ _).append_left ls
    rw [substmtsOfCases, exprsOf_append] at hd ⊢
    refine Tracks.reorder ?_ hperm
    have hd := hd.perm hperm.symm
    obtain ⟨hls, hrest, -⟩ := distinct_append.1 hd
    obtain ⟨hb, hcs, -⟩ := distinct_append.1 hrest
    refine .along hd (Expr.evalList_walks 0 hls) (fun _ => (Tracks.setContext entry).after
      (fun _ => .along hrest (evalList_walks hb) (fun _ => evalCases_walks entry skips hcs)
        (fun p hp => ?_) fun p hp => ?_) hrest) (fun p hp => ?_) fun p hp => hp
    · exact .inr (.left (hp.bind_left (ends_fallTrail cs)))
    · exact hp.imp (meets_listCourse_right · ls) .right
    · exact .inl (meets_listCourse_left hp)

theorem evalCatches_walks (entry : Context) :
    ∀ {cs : List (CatchClause Stmt)}, Distinct (exprsOf (substmtsOfCatches cs)) →
      Walks b final (exprsOf (substmtsOfCatches cs)) (catchesTrail final.truth? cs) (fun _ => True)
        (evalCatches b entry cs)
  | [], _ => .pure trivial
  | ⟨_, _, body⟩ :: cs, hd => by
    rw [substmtsOfCatches, exprsOf_append] at hd ⊢
    obtain ⟨hb, hcs, -⟩ := distinct_append.1 hd
    refine (Tracks.setContext entry).after (fun _ => ?_) hd
    exact .alternate hd (evalList_walks hb) fun _ => evalCatches_walks entry hcs

end

end Stmt

end Midend
