import Midend.Proofs.Eval.Steps
import Midend.Proofs.Tree.Operand

/-!
# Disciplines of evaluation

A discipline says what evaluation keeps: an invariant of states, the faults that
may be met, and what holds of the value of an expression. It asks something of
every expression and gives, for each form of expression, what the form makes of its
operands. Then every expression keeps the discipline, whether its evaluation succeeds
or fails (`Expr.eval_upholds`), and so does every statement (`Stmt.eval_upholds`) if
the invariant outlives loops and the discipline says what a declaration and a branch
make of a value.
-/

namespace Midend

open Eval

/-! ## Invariants of states -/

namespace EvalState

/-- The property outlives the meeting of paths: a state takes over the context of another, or joins
it to its own. What was reported plays no part. -/
structure Joinable (I : EvalState → Prop) : Prop where
  restore : ∀ {s t}, I s → I t → I { t with context := s.context }
  join : ∀ {s t}, I s → I t → I { t with context := t.context.join s.context }
  report : ∀ {s} d, I s → I (s.report d)

/-- The property outlives loops, too. -/
structure Loopable (I : EvalState → Prop) : Prop extends Joinable I where
  forget : ∀ {s} vs, I s → I { s with context := s.context.forget vs }
  enter : ∀ {s}, I s → I { s with continues := none :: s.continues }
  continueLoop : ∀ {s : EvalState}, I s → I s.continueLoop
  leave : ∀ {s}, I s → I { s with continues := s.continues.tail }
  finish : ∀ {s}, I s →
    I { s with context := endOf s.context s.continues, continues := s.continues.tail }

end EvalState

namespace Eval

variable {α : Type} {I : EvalState → Prop} {E : Fault → Prop} {R Q : α → Prop}

/-- What may be skipped upholds what holds of both ways. -/
theorem Upholds.maybe (hI : EvalState.Joinable I) {x : Eval α} (h : Upholds I E R x) :
    Upholds I E (fun _ => True) (Eval.maybe x) :=
  .context_bind fun _ hs => h.bind fun _ _ => .ofModify fun _ ht => hI.join hs ht

theorem Upholds.either (hI : EvalState.Joinable I) {x y : Eval α} (hx : Upholds I E R x)
    (hy : Upholds I E Q y) : Upholds I E (fun r => R r.1 ∧ Q r.2) (Eval.either x y) := by
  refine .context_bind fun s hs => hx.bind fun a ha => .context_bind fun t ht => ?_
  refine (Upholds.ofModify fun _ hu => hI.restore hs hu).bind fun _ _ => hy.bind fun c hc => ?_
  exact (Upholds.ofModify fun _ hu => hI.join ht hu).bind fun _ _ => .pure ⟨ha, hc⟩

/-- A warning leaves the context alone. -/
theorem Upholds.warn (hI : EvalState.Joinable I) (d : Diagnostic) :
    Upholds I E (fun _ => True) (Eval.warn d) :=
  .ofModify fun _ hs => hI.report d hs

/-- An operator upholds what is true of its outcome. -/
theorem Upholds.binary (hI : EvalState.Joinable I) {R : Value → Prop} {op : BinOp} {span : Span}
    {x y : Value} (h : Outcome E R (Value.binary op x y)) :
    Upholds I E R (Eval.binary op span x y) := by
  have h : Upholds I E R (Eval.ofExcept (Value.binary op x y)) := .ofExcept h
  unfold Eval.binary
  cases op with
  | equality negated =>
    refine .ite (fun _ => ?_) fun _ => h
    exact (Upholds.warn hI _).bind fun _ _ => h
  | _ => exact h

/-- What an assignment to a local leaves of a value. -/
def stored (b : Body) (v : VarId) (x : Value) : Value :=
  match primOf (b.varTy v) with
  | some p => x.convert p
  | none => x

/-- What is not known is stored as not known. -/
theorem stored_unknown (b : Body) (v : VarId) : stored b v .unknown = .unknown := by
  unfold stored
  split <;> rfl

/-- An assignment upholds what storing the value upholds. -/
theorem Upholds.assignLocal {R : Value → Prop} {b : Body} {v : VarId} {x : Value}
    (hI : ∀ s, I s → I { s with context := s.context.bind v (stored b v x) })
    (hR : R (stored b v x)) : Upholds I E R (Eval.assignLocal b v x) :=
  (Upholds.ofModify hI).bind fun _ _ => .pure hR

/-- A step gives the value before it or the one that it assigns. -/
theorem Upholds.step {R Q : Value → Prop} {b : Body} {st : Step} {v : VarId}
    (hold : ∀ s, I s → R (s.context.get v))
    (hfault : ∀ s, I s → ((s.context.get v).isKnown && !(s.context.get v).isNumeric) = true →
      E (.unaryMismatch (.step st) (s.context.get v).kind?))
    (hsum : ∀ s, I s → Outcome E Q (Value.binary
      (.arith (if st.increments then .add else .sub)) (s.context.get v) (.known (.int 1))))
    (hnew : ∀ y, Q y → Upholds I E R (Eval.assignLocal b v y)) :
    Upholds I E R (Eval.step b st v) := by
  refine .context_bind fun s hs => .ite (fun hx => .fail (hfault s hs hx)) fun _ => ?_
  refine (Upholds.ofExcept (hsum s hs)).bind fun y hy => (hnew y hy).bind fun z hz => .pure ?_
  split
  · exact hold s hs
  · exact hz

theorem Upholds.setContext (hI : EvalState.Joinable I) {s : EvalState} (hs : I s) :
    Upholds I E (fun _ => True) (Eval.setContext s.context) :=
  .ofModify fun _ ht => hI.restore hs ht

theorem Upholds.forget (hI : EvalState.Loopable I) (vs : IdSet) :
    Upholds I E (fun _ => True) (Eval.forget vs) :=
  .ofModify fun _ hs => hI.forget vs hs

/-- An iteration upholds what holds at its end and at every `continue`. -/
theorem Upholds.iteration (hI : EvalState.Loopable I) {R : Unit → Prop} {x : Eval Unit}
    (h : Upholds I E R x) : Upholds I E (fun _ => True) (Eval.iteration x) := by
  intro s hs
  unfold Eval.iteration
  rcases hx : x { s with continues := none :: s.continues } with ⟨e | ⟨⟩, t⟩
  · obtain ⟨ht, he⟩ := h.of_error (hI.enter hs) hx
    exact ⟨hI.leave ht, he⟩
  · obtain ⟨ht, -⟩ := h.of_ok (hI.enter hs) hx
    exact ⟨hI.finish ht, trivial⟩

end Eval

/-! ## Disciplines -/

/-- The value is that of the literal, where the expression is one. -/
def Expr.LiteralValue (e : Expr) (x : Value) : Prop := ∀ l, e.peel.kind = .lit l → x = .known l

/-- What the evaluation of expressions keeps. -/
structure Discipline (b : Body) where
  /-- Holds of every state. -/
  inv : EvalState → Prop
  /-- The faults that may be met. -/
  fault : Fault → Prop
  /-- Holds of the value of an expression. -/
  result : Expr → Value → Prop
  /-- Asked of every expression that is evaluated. -/
  layer : Expr → Prop
  paths : EvalState.Joinable inv
  observe : ∀ {e x s}, layer e → result e x → inv s → inv (s.observe e.id x)
  recursionLimit : fault .recursionLimit
  place : ∀ {e t}, layer e → e.target? = some t → t.isLvalue = true ∨ fault .notAnLvalue
  lit : ∀ {id l}, result (.node id (.lit l)) (.known l)
  var : ∀ {id v s}, inv s → result (.node id (.var v)) (s.context.get v)
  paren : ∀ {id e x}, result e x → result (.node id (.paren e)) x
  /-- Anything but a literal may be unknown. -/
  unknown : ∀ {e}, (∀ l, e.peel.kind ≠ .lit l) → result e .unknown
  assign : ∀ {id t e v x}, layer (.node id (.assign t none e)) → t.localTarget? = some v →
    result e x → Upholds inv fault (result (.node id (.assign t none e))) (assignLocal b v x)
  compound : ∀ {id t op e v s x}, layer (.node id (.assign t (some op) e)) →
    t.localTarget? = some v → inv s → result e x →
    Upholds inv fault (result (.node id (.assign t (some op) e)))
      (ofExcept (Value.binary op (s.context.get v) x) >>= assignLocal b v)
  step : ∀ {id st e v}, layer (.node id (.unary (.step st) e)) → e.localTarget? = some v →
    Upholds inv fault (result (.node id (.unary (.step st) e))) (Eval.step b st v)
  unary : ∀ {id op e x}, layer (.node id (.unary op e)) → op.isStep = false → result e x →
    Outcome fault (result (.node id (.unary op e))) (Value.unary op x)
  binary : ∀ {id l op r x y}, layer (.node id (.binary l op r)) → result l x → result r y →
    Outcome fault (result (.node id (.binary l op r))) (Value.binary op x y)
  decided : ∀ {id l op r}, result (.node id (.binary l (.logic op) r)) (.known (.bool op.deciding))
  condition : ∀ {id c t f l}, layer (.node id (.conditional c t f)) → result c (.known l) →
    (∃ p, l = .bool p) ∨ fault (.nonBooleanCondition (some l.kind))
  conditional : ∀ {id c t f x}, result t x ∨ result f x →
    result (.node id (.conditional c t f))
      (x.asConditional ((Expr.node id (.conditional c t f)).staticTy b.varTy))

/-- What the evaluation of statements keeps. -/
structure StmtDiscipline (b : Body) extends Discipline b where
  /-- Asked of every statement. -/
  stmtLayer : StmtKind Expr Stmt → Prop
  loops : EvalState.Loopable inv
  decl : ∀ {v}, Upholds inv fault (fun _ => True) (assignLocal b v .unknown)
  init : ∀ {v e x}, stmtLayer (.decl v (some e)) → result e x →
    Upholds inv fault (fun _ => True) (assignLocal b v x)
  branch : ∀ {c t f l}, stmtLayer (.branch c t f) → result c (.known l) →
    (∃ p, l = .bool p) ∨ fault (.nonBooleanCondition (some l.kind))

variable {b : Body}

/-- An evaluation keeps the discipline, with a result that satisfies `R`. -/
abbrev Discipline.Keeps {α : Type} (D : Discipline b) (R : α → Prop) (x : Eval α) : Prop :=
  Upholds D.inv D.fault R x

/-- The discipline's condition holds of the expression and of all in it. -/
def Discipline.Covers (D : Discipline b) (e : Expr) : Prop := ∀ s ∈ e.subexprs, D.layer s

/-- The operands of an expression under the discipline are under it. -/
theorem Discipline.Covers.child {D : Discipline b} {id : ExprId} {k : ExprKind Expr}
    (h : D.Covers (.node id k)) {c : Expr} (hc : c ∈ k.children) : D.Covers c :=
  fun s hs => h s (Expr.subexprs_subset hc hs)

/-- The conditions of the discipline hold of a statement itself and of its expressions. -/
structure StmtDiscipline.Covers (D : StmtDiscipline b) (k : StmtKind Expr Stmt) : Prop where
  layer : D.stmtLayer k
  exprs : ∀ e ∈ k.exprChildren, D.toDiscipline.Covers e

/-! ## Expressions -/

namespace Expr

variable (D : Discipline b)

mutual

/-- The evaluation of an expression under the discipline upholds it. -/
theorem eval_upholds (depth : Nat) :
    ∀ {e : Expr}, D.Covers e → D.Keeps (D.result e) (e.eval b depth)
  | node id kind, h => by
    have hlayer : D.layer (node id kind) := h _ (mem_subexprs_self _)
    rw [eval]
    refine .locate (.ite (fun _ => .fail D.recursionLimit) fun _ => ?_)
    refine (evalKind_upholds (depth + 1) id hlayer fun c hc => h.child hc).bind fun x hx => ?_
    exact (Upholds.ofModify fun _ hs => D.observe hlayer hx hs).bind fun _ _ => .pure hx

/-- The evaluation of a layer under the discipline upholds it. -/
theorem evalKind_upholds (depth : Nat) (id : ExprId) :
    ∀ {k : ExprKind Expr}, D.layer (node id k) → (∀ c ∈ k.children, D.Covers c) →
      D.Keeps (D.result (node id k)) (evalKind b depth id k)
  | .lit l, _, _ => .pure D.lit
  | .var v, _, _ => .context_bind fun _ hs => .pure (D.var hs)
  | .paren inner, _, h =>
    (eval_upholds depth (h inner (by simp [ExprKind.children]))).imp fun _ => D.paren
  | .assign target op value, hk, h => by
    have hv := eval_upholds depth (h value (by simp [ExprKind.children]))
    cases hl : target.localTarget? with
    | none =>
      have ht := evalPlace_upholds depth (h target (by simp [ExprKind.children])) hl
        (D.place hk rfl)
      simp only [evalKind, hl]
      exact ht.bind fun _ _ => hv.bind fun _ _ => .pure (D.unknown nofun)
    | some v =>
      cases op with
      | none =>
        simp only [evalKind, hl]
        exact hv.bind fun x hx => D.assign hk hl hx
      | some op =>
        simp only [evalKind, hl]
        exact .context_bind fun s hs => hv.bind fun x hx => D.compound hk hl hs hx
  | .binary l (.logic op) r, hk, h => by
    have hl := eval_upholds depth (h l (by simp [ExprKind.children]))
    have hr := eval_upholds depth (h r (by simp [ExprKind.children]))
    refine hl.bind fun x hx => ?_
    cases x with
    | unknown => exact (hr.maybe D.paths).bind fun _ _ => .pure (D.unknown nofun)
    | known a =>
      refine .ite (fun ha => .pure ?_) fun _ => ?_
      · rw [ha]
        exact D.decided
      · exact hr.bind fun y hy => .ofExcept (D.binary hk hx hy)
  | .binary l (.arith _) r, hk, h | .binary l (.shift _) r, hk, h | .binary l (.bits _) r, hk, h
  | .binary l (.order _) r, hk, h | .binary l (.equality _) r, hk, h => by
    have hl := eval_upholds depth (h l (by simp [ExprKind.children]))
    have hr := eval_upholds depth (h r (by simp [ExprKind.children]))
    exact hl.bind fun _ hx => hr.bind fun _ hy => .binary D.paths (D.binary hk hx hy)
  | .unary (.step st) operand, hk, h => by
    cases hl : operand.localTarget? with
    | none =>
      have hp := evalPlace_upholds depth (h operand (by simp [ExprKind.children])) hl
        (D.place hk rfl)
      simp only [evalKind, hl]
      exact hp.bind fun _ _ => .pure (D.unknown nofun)
    | some v =>
      simp only [evalKind, hl]
      exact D.step hk hl
  | .unary .not e, hk, h | .unary .neg e, hk, h | .unary .plus e, hk, h
  | .unary .bitNot e, hk, h => by
    have he := eval_upholds depth (h e (by simp [ExprKind.children]))
    exact he.bind fun _ hx => .ofExcept (D.unary hk rfl hx)
  | .conditional c t f, hk, h => by
    have hc := eval_upholds depth (h c (by simp [ExprKind.children]))
    have ht := eval_upholds depth (h t (by simp [ExprKind.children]))
    have hf := eval_upholds depth (h f (by simp [ExprKind.children]))
    rw [evalKind]
    refine hc.bind fun x hx => ?_
    split
    · exact ht.bind fun _ hx => .pure (D.conditional (.inl hx))
    · exact hf.bind fun _ hx => .pure (D.conditional (.inr hx))
    · -- Where both arms are evaluated, their values join to the first of them or to nothing known.
      refine (ht.either D.paths hf).bind fun r hr => .pure ?_
      change D.result _ ((r.1.join r.2).asConditional _)
      rcases Value.join_eq_or r.1 r.2 with hj | hj
      · rw [hj]
        exact D.conditional (.inl hr.1)
      · rw [hj, Value.asConditional_unknown]
        exact D.unknown nofun
    · next l htrue hfalse =>
      obtain ⟨p, rfl⟩ | hfault := D.condition hk hx
      · cases p
        · exact absurd rfl hfalse
        · exact absurd rfl htrue
      · exact .fail hfault
  | .field none .., _, _ | .err, _, _ => .pure (D.unknown nofun)
  | .field (some e) .., _, h | .cast _ e, _, h | .instanceOf e _, _, h =>
    (eval_upholds depth (h e (by simp [ExprKind.children]))).bind fun _ _ =>
      .pure (D.unknown nofun)
  | .index a i, _, h => by
    have ha := eval_upholds depth (h a (by simp [ExprKind.children]))
    have hi := eval_upholds depth (h i (by simp [ExprKind.children]))
    exact ha.bind fun _ _ => hi.bind fun _ _ => .pure (D.unknown nofun)
  | .call none _ args, _, h | .create _ args, _, h => by
    have hargs : D.Keeps (fun _ => True) (evalList b depth args) := evalList_upholds depth h
    exact hargs.bind fun _ _ => .pure (D.unknown nofun)
  | .call (some e) _ args, _, h => by
    have he := eval_upholds depth (h e List.mem_cons_self)
    have hargs := evalList_upholds depth fun x hx => h x (List.mem_cons_of_mem _ hx)
    exact he.bind fun _ _ => hargs.bind fun _ _ => .pure (D.unknown nofun)

/-- The evaluation of a place under the discipline upholds it. -/
theorem evalPlace_upholds (depth : Nat) :
    ∀ {e : Expr}, D.Covers e → e.localTarget? = none →
      e.isLvalue = true ∨ D.fault .notAnLvalue → D.Keeps (fun _ => True) (e.evalPlace b depth)
  | node _ kind, h, hl, hv => by
    cases kind with
    | paren inner =>
      rw [evalPlace]
      exact evalPlace_upholds depth (h.child (by simp [ExprKind.children])) hl hv
    | field receiver name isStatic =>
      cases receiver with
      | none => exact .pure trivial
      | some e =>
        exact (eval_upholds depth (h.child (by simp [ExprKind.children]))).bind fun _ _ =>
          .pure trivial
    | index a i =>
      have ha := eval_upholds depth (h.child (c := a) (by simp [ExprKind.children]))
      have hi := eval_upholds depth (h.child (c := i) (by simp [ExprKind.children]))
      exact ha.bind fun _ _ => hi.bind fun _ _ => .pure trivial
    | var v => cases hl
    | _ => exact .fail (hv.resolve_left nofun)

theorem evalList_upholds (depth : Nat) :
    ∀ {es : List Expr}, (∀ e ∈ es, D.Covers e) →
      D.Keeps (fun _ => True) (evalList b depth es)
  | [], _ => .pure trivial
  | _ :: _, h => (eval_upholds depth (h _ List.mem_cons_self)).bind fun _ _ =>
      evalList_upholds depth fun x hx => h x (List.mem_cons_of_mem _ hx)

end

theorem run_upholds {e : Expr} (h : D.Covers e) : D.Keeps (fun _ => True) (e.run b) :=
  (eval_upholds D 0 h).bind fun _ _ => .pure trivial

theorem runOption_upholds :
    ∀ {e : Option Expr}, (∀ x ∈ e, D.Covers x) → D.Keeps (fun _ => True) (runOption b e)
  | none, _ => .pure trivial
  | some e, h => run_upholds D (h e rfl)

end Expr

/-! ## Statements -/

namespace Stmt

variable (D : StmtDiscipline b)

mutual

/-- The evaluation of a statement under the discipline upholds it. -/
theorem eval_upholds :
    ∀ {s : Stmt}, (∀ t ∈ s.substmts, D.Covers t.kind) → D.Keeps (fun _ => True) (s.eval b)
  | node id kind, h => by
    have hk : D.Covers kind := h (node id kind) (by simp [substmts])
    exact .locate (evalKind_upholds hk fun t ht => h t (by simp [substmts, ht]))

/-- The evaluation of the layer of a statement upholds the discipline. -/
theorem evalKind_upholds {whole : Stmt} :
    ∀ {k : StmtKind Expr Stmt}, D.Covers k → (∀ t ∈ substmtsOfKind k, D.Covers t.kind) →
      D.Keeps (fun _ => True) (evalKind b whole k)
  | .decl v none, _, _ => D.decl.bind fun _ _ => .pure trivial
  | .decl v (some e), hk, _ => by
    have he := Expr.eval_upholds D.toDiscipline 0 (hk.exprs e (by simp [StmtKind.exprChildren]))
    exact he.bind fun x hx => (D.init hk.layer hx).bind fun _ _ => .pure trivial
  | .expr e, hk, _ | .throw e, hk, _ =>
    Expr.run_upholds D.toDiscipline (hk.exprs e (by simp [StmtKind.exprChildren]))
  | .ret e, hk, _ => Expr.runOption_upholds D.toDiscipline fun x hx =>
      hk.exprs x (by simp [StmtKind.exprChildren, Option.mem_def.1 hx])
  | .block body, _, h => evalList_upholds h
  | .branch x t f, hk, h => by
    have hx := Expr.eval_upholds D.toDiscipline 0 (hk.exprs x (by simp [StmtKind.exprChildren]))
    have ht : D.Keeps (fun _ => True) (t.eval b) := by
      refine eval_upholds fun s hs => h s ?_
      cases f <;> simp [substmtsOfKind, hs]
    have hf : D.Keeps (fun _ => True) (evalOption b f) := by
      refine evalOption_upholds fun s hs u hu => h u ?_
      cases hs
      simp [substmtsOfKind, hu]
    refine hx.bind fun a ha => ?_
    split
    · exact ht
    · exact hf
    · exact (ht.either D.paths hf).bind fun _ _ => .pure trivial
    · next l htrue hfalse =>
      obtain ⟨p, rfl⟩ | hfault := D.branch hk.layer ha
      · cases p
        · exact absurd rfl hfalse
        · exact absurd rfl htrue
      · exact .fail hfault
  | .assert x message, hk, _ => by
    have hx := Expr.run_upholds D.toDiscipline (hk.exprs x (by simp [StmtKind.exprChildren]))
    have hm := Expr.runOption_upholds D.toDiscipline (e := message) fun e he =>
      hk.exprs e (by simp [StmtKind.exprChildren, Option.mem_def.1 he])
    refine Upholds.maybe (R := fun _ => True) D.paths ?_
    refine hx.bind fun _ _ => .context_bind fun s hs => ?_
    exact hm.bind fun _ _ => .setContext D.paths hs
  | .whileLoop x body, hk, h => by
    have hx := Expr.run_upholds D.toDiscipline (hk.exprs x (by simp [StmtKind.exprChildren]))
    have hb : D.Keeps (fun _ => True) (body.eval b) := eval_upholds h
    refine (Upholds.forget D.loops _).bind fun _ _ => hx.bind fun _ _ => ?_
    exact (hb.iteration D.loops).bind fun _ _ => .forget D.loops _
  | .doLoop body x, hk, h => by
    have hx := Expr.run_upholds D.toDiscipline (hk.exprs x (by simp [StmtKind.exprChildren]))
    have hb : D.Keeps (fun _ => True) (body.eval b) := eval_upholds h
    refine (Upholds.forget D.loops _).bind fun _ _ => (hb.iteration D.loops).bind fun _ _ => ?_
    exact hx.bind fun _ _ => .forget D.loops _
  | .forLoop init x update body, hk, h => by
    simp only [substmtsOfKind, List.mem_append] at h
    have hi : D.Keeps (fun _ => True) (evalList b init) :=
      evalList_upholds fun s hs => h s (.inl hs)
    have hb : D.Keeps (fun _ => True) (body.eval b) := eval_upholds fun s hs => h s (.inr hs)
    have hx := Expr.runOption_upholds D.toDiscipline (e := x) fun e he =>
      hk.exprs e (by simp [StmtKind.exprChildren, Option.mem_def.1 he])
    have hu : D.Keeps (fun _ => True) (Expr.evalList b 0 update) :=
      Expr.evalList_upholds D.toDiscipline 0 fun e he =>
        hk.exprs e (by simp [StmtKind.exprChildren, he])
    refine hi.bind fun _ _ => (Upholds.forget D.loops _).bind fun _ _ => hx.bind fun _ _ => ?_
    exact (hb.iteration D.loops).bind fun _ _ => hu.bind fun _ _ => .forget D.loops _
  | .forEach v x body, hk, h => by
    have hx := Expr.run_upholds D.toDiscipline (hk.exprs x (by simp [StmtKind.exprChildren]))
    have hb : D.Keeps (fun _ => True) (body.eval b) := eval_upholds h
    refine hx.bind fun _ _ => (Upholds.forget D.loops _).bind fun _ _ => ?_
    exact (hb.iteration D.loops).bind fun _ _ => .forget D.loops _
  | .switch x cases, hk, h => by
    have hx := Expr.run_upholds D.toDiscipline (hk.exprs x (by simp [StmtKind.exprChildren]))
    refine hx.bind fun _ _ => (Upholds.forget D.loops _).bind fun _ _ => ?_
    refine .context_bind fun s hs => (evalCases_upholds hs ?_ h).bind fun _ _ =>
      .setContext D.paths hs
    exact fun k hc e he => hk.exprs e (List.mem_cons_of_mem _ (List.mem_flatMap.2 ⟨k, hc, he⟩))
  | .guarded resources body catches none, _, h => by
    simp only [substmtsOfKind, List.mem_append] at h
    refine (Upholds.forget D.loops _).bind fun _ _ => .context_bind fun s hs => ?_
    refine (evalList_upholds fun t ht => h t (.inl (.inl ht))).bind fun _ _ => ?_
    refine (evalList_upholds fun t ht => h t (.inl (.inr ht))).bind fun _ _ => ?_
    refine (evalCatches_upholds hs fun t ht => h t (.inr ht)).bind fun _ _ => ?_
    exact .setContext D.paths hs
  | .guarded resources body catches (some finalizer), _, h => by
    simp only [substmtsOfKind, List.mem_append] at h
    refine (Upholds.forget D.loops _).bind fun _ _ => .context_bind fun s hs => ?_
    refine (evalList_upholds fun t ht => h t (.inl (.inl (.inl ht)))).bind fun _ _ => ?_
    refine (evalList_upholds fun t ht => h t (.inl (.inl (.inr ht)))).bind fun _ _ => ?_
    refine (evalCatches_upholds hs fun t ht => h t (.inl (.inr ht))).bind fun _ _ => ?_
    refine (Upholds.setContext D.paths hs).bind fun _ _ => ?_
    exact (evalList_upholds fun t ht => h t (.inr ht)).bind fun _ _ => .setContext D.paths hs
  | .continueLoop, _, _ => .ofModify fun _ hs => D.loops.continueLoop hs
  | .breakOut, _, _ | .empty, _, _ | .err, _, _ => .pure trivial

theorem evalOption_upholds :
    ∀ {s : Option Stmt}, (∀ x ∈ s, ∀ t ∈ x.substmts, D.Covers t.kind) →
      D.Keeps (fun _ => True) (evalOption b s)
  | none, _ => .pure trivial
  | some s, h => eval_upholds (h s rfl)

theorem evalList_upholds :
    ∀ {ss : List Stmt}, (∀ t ∈ substmtsOfList ss, D.Covers t.kind) →
      D.Keeps (fun _ => True) (evalList b ss)
  | [], _ => .pure trivial
  | s :: ss, h => by
    simp only [substmtsOfList, List.mem_append] at h
    have hs : D.Keeps (fun _ => True) (s.eval b) := eval_upholds fun t ht => h t (.inl ht)
    exact hs.bind fun _ _ => evalList_upholds fun t ht => h t (.inr ht)

theorem evalCases_upholds {s : EvalState} (hs : D.inv s) :
    ∀ {cs : List (SwitchCase Expr Stmt)},
      (∀ k ∈ cs, ∀ e ∈ k.labels, D.toDiscipline.Covers e) →
      (∀ t ∈ substmtsOfCases cs, D.Covers t.kind) →
      D.Keeps (fun _ => True) (evalCases b s.context cs)
  | [], _, _ => .pure trivial
  | ⟨span, labels, body⟩ :: cs, hl, h => by
    simp only [substmtsOfCases, List.mem_append] at h
    have hls : D.Keeps (fun _ => True) (Expr.evalList b 0 labels) :=
      Expr.evalList_upholds D.toDiscipline 0 (hl _ List.mem_cons_self)
    refine hls.bind fun _ _ => (Upholds.setContext D.paths hs).bind fun _ _ => ?_
    refine (evalList_upholds fun t ht => h t (.inl ht)).bind fun _ _ => ?_
    exact evalCases_upholds hs (fun k hk => hl k (by simp [hk])) fun t ht => h t (.inr ht)

theorem evalCatches_upholds {s : EvalState} (hs : D.inv s) :
    ∀ {cs : List (CatchClause Stmt)}, (∀ t ∈ substmtsOfCatches cs, D.Covers t.kind) →
      D.Keeps (fun _ => True) (evalCatches b s.context cs)
  | [], _ => .pure trivial
  | ⟨_, _, body⟩ :: cs, h => by
    simp only [substmtsOfCatches, List.mem_append] at h
    refine (Upholds.setContext D.paths hs).bind fun _ _ => ?_
    refine (evalList_upholds fun t ht => h t (.inl ht)).bind fun _ _ => ?_
    exact evalCatches_upholds hs fun t ht => h t (.inr ht)

end

end Stmt

end Midend
