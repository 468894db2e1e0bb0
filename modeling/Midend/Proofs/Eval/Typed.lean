import Midend.Eval.Report
import Midend.Proofs.Eval.Discipline
import Midend.Proofs.Value.Typed

/-!
# Evaluation keeps types

The evaluator knows of a local of primitive type only constants of that type, as an
assignment converts. So the values of an expression have the expression's static
type, if that is primitive: those that it records (`Body.evalReporting_types`), and
those that it gives in any state that evaluations reach
(`Body.Evaluated.kind_of_staticTy`).

What a state must satisfy is stated for any `Typing`, which says what values a type
has.
-/

namespace Midend

open Eval

/-! ## Typed states -/

/-- Says which values a type has. All of them have the unknown value. -/
structure Typing where
  fits : Option Ty → Value → Prop
  unknown : ∀ ty, fits ty .unknown

/-- The constants of a primitive type. -/
def Typing.prim : Typing := ⟨Value.HasTy, Value.hasTy_unknown⟩

variable {T : Typing} {env : TyEnv} {ty : ExprId → Option Ty}

/-- A join has the type of its left part. -/
theorem Typing.join_left {t : Option Ty} {x : Value} (h : T.fits t x) (y : Value) :
    T.fits t (x.join y) := by
  rcases x.join_eq_or y with hj | hj
  · rw [hj]
    exact h
  · rw [hj]
    exact T.unknown t

namespace Context

variable {c d : Context}

/-- What is known of the locals has their types. -/
def HasTys (T : Typing) (env : TyEnv) (c : Context) : Prop := ∀ v, T.fits (env v) (c.get v)

theorem hasTys_empty : (∅ : Context).HasTys T env := fun _ => T.unknown _

/-- A joined context is typed as its left part is. -/
theorem HasTys.join_left (h : c.HasTys T env) (d : Context) : (c.join d).HasTys T env := by
  intro v
  rw [get_join]
  exact T.join_left (h v) (d.get v)

theorem HasTys.forget (h : c.HasTys T env) (vs : IdSet) : (c.forget vs).HasTys T env := by
  intro v
  rw [get_forget]
  split
  · exact T.unknown _
  · exact h v

theorem HasTys.bind (h : c.HasTys T env) {v : VarId} {x : Value} (hx : T.fits (env v) x) :
    (c.bind v x).HasTys T env := by
  intro w
  rw [get_bind]
  split
  · next hw => exact hw ▸ hx
  · exact h w

end Context

namespace EvalState

/-- Everything that a state knows has its type: of locals by their declarations, of recorded values
by `ty`. -/
structure Typed (T : Typing) (env : TyEnv) (ty : ExprId → Option Ty) (s : EvalState) : Prop where
  context : s.context.HasTys T env
  continues : ∀ c, some c ∈ s.continues → c.HasTys T env
  recorded : ∀ m, s.observed = some m → ∀ e x, m.get? e = some x → T.fits (ty e) x

variable {s : EvalState}

/-- The empty state is typed. -/
theorem typed_start : Typed T env ty {} :=
  ⟨Context.hasTys_empty, fun _ hc => (List.not_mem_nil hc).elim, fun _ hm => nomatch hm⟩

theorem Typed.withContext (h : s.Typed T env ty) {c : Context} (hc : c.HasTys T env) :
    Typed T env ty { s with context := c } :=
  ⟨hc, h.continues, h.recorded⟩

theorem Typed.startRecording (h : s.Typed T env ty) : s.startRecording.Typed T env ty := by
  refine ⟨h.context, h.continues, fun m hm e x hx => ?_⟩
  obtain rfl := Option.some.inj hm
  cases hx

theorem Typed.observe (h : s.Typed T env ty) {e : ExprId} {x : Value} (hx : T.fits (ty e) x) :
    (s.observe e x).Typed T env ty := by
  unfold EvalState.observe
  split
  · exact h
  · next old hold =>
    refine ⟨h.context, h.continues, fun m hm e' y hy => ?_⟩
    obtain rfl := Option.some.inj hm
    rw [IdMap.get?_insert] at hy
    split at hy
    · next he =>
      subst he
      obtain rfl := Option.some.inj hy
      split
      · next z hz => exact T.join_left (h.recorded old hold e' z hz) x
      · exact hx
    · exact h.recorded old hold e' y hy

theorem Typed.continueLoop (h : s.Typed T env ty) : s.continueLoop.Typed T env ty := by
  unfold EvalState.continueLoop
  split
  · exact h
  · next outer hs =>
    refine ⟨h.context, fun c hc => ?_, h.recorded⟩
    rcases List.mem_cons.1 hc with hc | hc
    · exact Option.some.inj hc ▸ h.context
    · exact h.continues c (hs ▸ List.mem_cons_of_mem _ hc)
  · next d outer hs =>
    refine ⟨h.context, fun c hc => ?_, h.recorded⟩
    rcases List.mem_cons.1 hc with hc | hc
    · have hd : d.HasTys T env := h.continues d (hs ▸ List.mem_cons_self)
      exact Option.some.inj hc ▸ hd.join_left s.context
    · exact h.continues c (hs ▸ List.mem_cons_of_mem _ hc)

/-- The end of a typed loop body is typed. -/
theorem Typed.endOf (h : s.Typed T env ty) : (endOf s.context s.continues).HasTys T env := by
  unfold Eval.endOf
  split
  · exact h.context.join_left _
  · exact h.context

theorem Typed.enter (h : s.Typed T env ty) :
    Typed T env ty { s with continues := none :: s.continues } := by
  refine ⟨h.context, fun c hc => ?_, h.recorded⟩
  rcases List.mem_cons.1 hc with hc | hc
  · cases hc
  · exact h.continues c hc

theorem Typed.leave (h : s.Typed T env ty) :
    Typed T env ty { s with continues := s.continues.tail } :=
  ⟨h.context, fun c hc => h.continues c (List.mem_of_mem_tail hc), h.recorded⟩

/-- The loops of the evaluator keep a state typed. -/
theorem typed_loopable (T : Typing) (env : TyEnv) (ty : ExprId → Option Ty) :
    Loopable (Typed T env ty) where
  restore hs ht := ht.withContext hs.context
  join _ ht := ht.withContext (ht.context.join_left _)
  report _ hs := ⟨hs.context, hs.continues, hs.recorded⟩
  forget vs hs := hs.withContext (hs.context.forget vs)
  enter := Typed.enter
  continueLoop := Typed.continueLoop
  leave := Typed.leave
  finish hs := hs.leave.withContext hs.endOf

end EvalState

/-- An assignment yields and stores a value of the local's type. -/
theorem Eval.assignLocal_typed {b : Body} {E : Fault → Prop} {v : VarId} {x : Value}
    (hx : T.fits (b.varTy v) (stored b v x)) :
    Upholds (EvalState.Typed T b.varTy ty) E (T.fits (b.varTy v)) (assignLocal b v x) :=
  .assignLocal (fun _ hs => hs.withContext (hs.context.bind hx)) hx

/-! ## Primitive types -/

namespace Expr

/-- Parentheses have the type of what they enclose. -/
theorem staticTy_peel {e : Expr} : e.peel.staticTy env = e.staticTy env := by
  induction e using ofChildren with
  | node id k ih =>
    cases k with
    | paren inner => exact ih inner (List.mem_singleton_self _)
    | _ => rfl

theorem staticTy_of_localTarget? {e : Expr} {v : VarId} (h : e.localTarget? = some v) :
    e.staticTy env = env v := by
  rw [← staticTy_peel]
  unfold localTarget? at h
  split at h
  · next w hw =>
    obtain rfl := Option.some.inj h
    cases hp : e.peel with
    | node id k =>
      rw [hp] at hw
      obtain rfl : k = .var w := hw
      rfl
  · cases h

end Expr

/-- What is stored in a local has the type of the local. -/
theorem Eval.stored_hasTy {b : Body} {v : VarId} (x : Value) :
    (stored b v x).HasTy (b.varTy v) := by
  unfold stored
  split
  · next p hp => exact primOf_eq_some.1 hp ▸ x.convert_hasTy p
  · next hp =>
    intro p l h
    rw [primOf_eq_some.2 h] at hp
    cases hp

/-- Values have the primitive types of their expressions; any fault may be met. The recorded values
have the types `ty`, which are those of their expressions where they are given. -/
def StmtDiscipline.primTypes (b : Body) (ty : ExprId → Option Ty) : StmtDiscipline b where
  inv := EvalState.Typed .prim b.varTy ty
  fault _ := True
  result e x := x.HasTy (e.staticTy b.varTy)
  layer e := ∀ t, ty e.id = some t → e.staticTy b.varTy = some t
  stmtLayer _ := True
  paths := (EvalState.typed_loopable ..).toJoinable
  loops := EvalState.typed_loopable ..
  observe hlayer hx hs := hs.observe fun p l hp hl => hx p l (hlayer _ hp) hl
  recursionLimit := trivial
  place _ _ := .inr trivial
  lit := Value.hasTy_literal _
  var hs := hs.context _
  paren hx := hx
  unknown _ := Value.hasTy_unknown _
  assign _ hv _ := by
    rw [Expr.staticTy, Expr.staticTy_of_localTarget? hv]
    exact assignLocal_typed (T := .prim) (stored_hasTy _)
  compound _ hv _ _ := by
    rw [Expr.staticTy, Expr.staticTy_of_localTarget? hv]
    exact (Upholds.ofExcept (.intro (fun _ _ => trivial) fun _ _ => trivial)).bind fun _ _ =>
      assignLocal_typed (T := .prim) (stored_hasTy _)
  step _ hv := by
    rw [Expr.staticTy_unary, UnOp.resultTy, Expr.staticTy_of_localTarget? hv]
    exact .step (Q := fun _ => True) (fun _ hs => hs.context _) (fun _ _ _ => trivial)
      (fun _ _ => .intro (fun _ _ => trivial) fun _ _ => trivial)
      fun _ _ => assignLocal_typed (T := .prim) (stored_hasTy _)
  unary _ _ hx := by
    rw [Expr.staticTy_unary]
    exact .intro (fun _ => Value.unary_hasTy hx) fun _ _ => trivial
  binary _ hx hy := by
    rw [Expr.staticTy_binary]
    exact .intro (fun _ => Value.binary_hasTy hx hy) fun _ _ => trivial
  decided := by
    intro id l op r
    rw [Expr.staticTy_binary]
    exact Value.hasTy_literal (.bool op.deciding)
  condition _ _ := .inr trivial
  conditional h := by
    rw [Expr.staticTy_conditional]
    exact Value.asConditional_hasTy h
  decl := (assignLocal_typed (T := .prim) (stored_hasTy _)).imp fun _ _ => trivial
  init _ _ := (assignLocal_typed (T := .prim) (stored_hasTy _)).imp fun _ _ => trivial
  branch _ _ := .inr trivial

/-! ## The root block -/

/-- Reporting an error does not change results. -/
theorem Eval.reporting_eq_ok {α : Type} {span : Span} {x : Eval α} {a : α} {s s' : EvalState} :
    x.reporting span s = (.ok a, s') ↔ x s = (.ok a, s') := by
  unfold reporting
  rcases x s with ⟨_ | _, s₁⟩
  · constructor <;> rintro ⟨⟩
  · constructor <;> rintro ⟨⟩ <;> rfl

/-- Where no fault is reported, there was none. -/
theorem Stmt.listReporting_eq_ok {b : Body} {s' : EvalState} :
    ∀ {ss : List Stmt} {s : EvalState}, listReporting b ss s = (.ok (), s') →
      evalList b ss s = (.ok (), s')
  | [], _, h => by
    cases h
    rfl
  | t :: ss, s, h => by
    change ((t.evalReporting b) s >>= fun p =>
      ExceptT.bindCont (fun _ => listReporting b ss) p.1 p.2) = _ at h
    rcases ht : t.evalReporting b s with ⟨_ | _, s₁⟩
    · rw [ht] at h
      cases h
    · rw [ht] at h
      exact Eval.bind_eq_ok.2 ⟨(), s₁, Eval.reporting_eq_ok.1 ht, listReporting_eq_ok h⟩

/-- The values recorded for expressions have their static types. -/
theorem Body.evalReporting_types {b : Body} (ty : ExprId → Option Ty)
    (h : ∀ e ∈ b.root.flatMap Stmt.allExprs, ty e.id = e.staticTy b.varTy) {s : EvalState}
    (hs : b.evalReporting (EvalState.startRecording {}) = (.ok (), s)) {i : ExprId} {x : Value}
    (hx : s.recorded.get? i = some x) : x.HasTy (ty i) := by
  have hstart : EvalState.Typed .prim b.varTy ty (EvalState.startRecording {}) :=
    EvalState.typed_start.startRecording
  have hcover : ∀ t ∈ Stmt.substmtsOfList b.root,
      (StmtDiscipline.primTypes b ty).Covers t.kind := by
    intro t ht
    refine ⟨trivial, fun x hx e he p hp => ?_⟩
    rw [Stmt.substmtsOfList_eq] at ht
    rw [← h e (mem_allExprs ht hx he)]
    exact hp
  obtain ⟨htyped, -⟩ :=
    (Stmt.evalList_upholds _ hcover).of_ok hstart (Stmt.listReporting_eq_ok hs)
  unfold EvalState.recorded at hx
  cases hm : s.observed with
  | none => simp [hm] at hx
  | some m =>
    rw [hm, Option.getD_some] at hx
    exact htyped.recorded m hm i x hx

/-! ## Evaluations one after the other -/

namespace Body

/-- The states of an evaluator of the body: it starts with nothing known and evaluates any
expressions and statements, some of which may fail, while values are recorded or not. -/
inductive Evaluated (b : Body) : EvalState → Prop
  | start : b.Evaluated {}
  | expr {s : EvalState} (i : ExprId) : b.Evaluated s → b.Evaluated ((b.exprTree i).eval b 0 s).2
  | stmt {s : EvalState} (i : StmtId) : b.Evaluated s → b.Evaluated ((b.stmtTree i).eval b s).2
  | report {s : EvalState} (d : Diagnostic) : b.Evaluated s → b.Evaluated (s.report d)
  | startRecording {s : EvalState} : b.Evaluated s → b.Evaluated s.startRecording
  | stopRecording {s : EvalState} : b.Evaluated s → b.Evaluated s.stopRecording

variable {b : Body} {s : EvalState}

/-- The discipline of primitive types covers every tree if nothing is said of recorded values. -/
theorem covers_primTypes (e : Expr) :
    (StmtDiscipline.primTypes b fun _ => none).toDiscipline.Covers e := fun _ _ _ h => nomatch h

/-- Every state reached from the empty one is typed. -/
theorem Evaluated.typed (h : b.Evaluated s) : s.Typed .prim b.varTy fun _ => none := by
  induction h with
  | start => exact EvalState.typed_start
  | expr i _ ih =>
    have he := Expr.eval_upholds (StmtDiscipline.primTypes b fun _ => none).toDiscipline 0
      (covers_primTypes (b.exprTree i))
    exact (he _ ih).1
  | stmt i _ ih =>
    have hs := Stmt.eval_upholds (StmtDiscipline.primTypes b fun _ => none) (s := b.stmtTree i)
      fun t _ => ⟨trivial, fun e _ => covers_primTypes e⟩
    exact (hs _ ih).1
  | report d _ ih => exact (EvalState.typed_loopable ..).report d ih
  | startRecording _ ih => exact ih.startRecording
  | stopRecording _ ih => exact ⟨ih.context, ih.continues, fun _ hm => nomatch hm⟩

/-- In every state that evaluations reach, a known value of an expression of primitive type is a
constant of that type, and so is what is known of a local of primitive type. -/
theorem Evaluated.kind_of_staticTy (h : b.Evaluated s) :
    (∀ i l t p, (b.exprTree i).eval b 0 s = (.ok (.known l), t) →
      (b.exprTree i).staticTy b.varTy = some (.prim p) → l.kind = .prim p) ∧
    ∀ v l p, s.context.get v = .known l → b.varTy v = some (.prim p) → l.kind = .prim p := by
  refine ⟨fun i l t p he hp => ?_, fun v l p hl hp => ?_⟩
  · have hkeeps := Expr.eval_upholds (StmtDiscipline.primTypes b fun _ => none).toDiscipline 0
      (covers_primTypes (b.exprTree i))
    obtain ⟨-, hl⟩ := hkeeps.of_ok h.typed he
    exact Literal.kind_eq_prim.2 (hl p l hp rfl)
  · exact Literal.kind_eq_prim.2 (h.typed.context v p l hp hl)

/-- The body `{ short k = 'a' + 1; return k + 1L; }`. -/
def widened : Body where
  name := "widened"
  vars := #[⟨"k", .prim .short, .localVar, .dummy⟩]
  exprs := #[⟨.dummy, .lit (.char 97)⟩, ⟨.dummy, .lit (.int 1)⟩,
    ⟨.dummy, .binary 0 (.arith .add) 1⟩, ⟨.dummy, .var 0⟩, ⟨.dummy, .lit (.long 1)⟩,
    ⟨.dummy, .binary 3 (.arith .add) 4⟩]
  stmts := #[⟨.dummy, .decl 0 (some 2)⟩, ⟨.dummy, .ret (some 5)⟩]
  block := [0, 1]

/-- An `int` that is widened by its declaration is a `long` from then on. -/
theorem Evaluated.kind_of_staticTy_widened :
    ∃ s t, widened.Evaluated s ∧
      (widened.exprTree 5).eval widened 0 s = (.ok (.known (.long 99)), t) ∧
      (widened.exprTree 5).staticTy widened.varTy = some (.prim .long) ∧
      (Literal.long 99).kind = .prim .long ∧
      s.context.get 0 = .known (.short 98) ∧ widened.varTy 0 = some (.prim .short) ∧
      (Literal.short 98).kind = .prim .short := by
  have hs : widened.Evaluated ((widened.stmtTree 0).eval widened {}).2 := .stmt 0 .start
  obtain ⟨hexpr, hlocal⟩ := hs.kind_of_staticTy
  exact ⟨_, _, hs, rfl, rfl, hexpr 5 _ _ _ rfl rfl, rfl, rfl, hlocal 0 _ _ rfl rfl⟩

end Body

end Midend
