import Midend.Proofs.Eval.Steps
import Midend.Proofs.Tree.Written

/-!
# Properties of every evaluation

A property of evaluations that every way to compose them keeps (`Eval.Closed`) holds of
the evaluation of every expression (`Expr.eval_closed`) and of every statement
(`Stmt.eval_closed`).

The property may depend on which locals change and on what their values are. It is
closed for a set of locals and a predicate of contexts: the evaluation of a tree that
writes only these locals binds or forgets no others, and goes back to, or joins with,
only a context that it has read before (`Context.Change`).
-/

namespace Midend

open Eval

/-- What an evaluation does to its context at once, if it writes the locals of `W` and has read
contexts that satisfy `K`. -/
inductive Context.Change (W : VarId → Prop) (K : Context → Prop) : (Context → Context) → Prop
  | goBack {c : Context} (hc : K c) : Change W K fun _ => c
  | meet {c : Context} (hc : K c) : Change W K (·.join c)
  | forget {vs : IdSet} (hvs : ∀ v ∈ vs, W v) : Change W K (·.forget vs)
  | bind {v : VarId} (hv : W v) (x : Value) : Change W K (·.bind v x)

namespace Eval

/-- The property is that of evaluations which look at the context, change it, warn or fail, one
after another. -/
structure Closed (W : VarId → Prop) (K : Context → Prop) (P : ∀ {α : Type}, Eval α → Prop) :
    Prop where
  pure : ∀ {α : Type} (a : α), P (Pure.pure a : Eval α)
  fail : ∀ {α : Type} (f : Fault), P (Eval.fail f : Eval α)
  bind : ∀ {α β : Type} {x : Eval α} {f : α → Eval β}, P x → (∀ a, P (f a)) → P (x >>= f)
  context_bind : ∀ {α : Type} {f : Context → Eval α},
    (∀ c, K c → P (f c)) → P (Eval.context >>= f)
  change : ∀ {f : Context → Context}, Context.Change W K f →
    P (modify fun s => { s with context := f s.context } : Eval Unit)
  warn : ∀ {d : Diagnostic}, d.level = .warning → P (Eval.warn d)

/-- It is also that of what only the layers of a tree do, which writes the locals of `w`. -/
structure TreeClosed (w : IdSet) (K : Context → Prop) (P : ∀ {α : Type}, Eval α → Prop) : Prop
    extends Closed (· ∈ w) K P where
  locate : ∀ {α : Type} {x : Eval α} (span : Span), P x → P (Eval.locate span x)
  observe : ∀ (e : ExprId) (v : Value), P (Eval.observe e v)
  iteration : ∀ {x : Eval Unit}, P x → P (Eval.iteration x)
  continueLoop : P (modify EvalState.continueLoop : Eval Unit)

namespace Closed

variable {W : VarId → Prop} {K : Context → Prop} {P : ∀ {α : Type}, Eval α → Prop}
  {α : Type} {x y : Eval α}

theorem ofExcept (hP : Closed W K P) (r : Except Fault α) : P (Eval.ofExcept r) := by
  cases r with
  | ok a => exact hP.pure a
  | error f => exact hP.fail f

theorem setContext (hP : Closed W K P) {c : Context} (hc : K c) : P (Eval.setContext c) :=
  hP.change (.goBack hc)

theorem forget (hP : Closed W K P) {vs : IdSet} (hvs : ∀ v ∈ vs, W v) : P (Eval.forget vs) :=
  hP.change (.forget hvs)

/-- Meeting a context that was read is a change that the tree may make. -/
theorem meet (hP : Closed W K P) {c : Context} (hc : K c) : P (Eval.meet c) :=
  hP.change (.meet hc)

/-- What may be skipped is met with the context that was read before it. -/
theorem maybe (hP : Closed W K P) (hx : P x) : P (Eval.maybe x) :=
  hP.context_bind fun _ hc => hP.bind hx fun _ => hP.meet hc

theorem either (hP : Closed W K P) (hx : P x) (hy : P y) : P (Eval.either x y) := by
  refine hP.context_bind fun c hc => hP.bind hx fun a => hP.context_bind fun d hd => ?_
  refine hP.bind (hP.setContext hc) fun _ => hP.bind hy fun e => ?_
  exact hP.bind (hP.meet hd) fun _ => hP.pure (a, e)

/-- An assignment binds a local that the tree writes. -/
theorem assignLocal (hP : Closed W K P) {b : Body} {v : VarId} (hv : W v) {x : Value} :
    P (Eval.assignLocal b v x) :=
  hP.bind (hP.change (.bind hv _)) fun _ => hP.pure _

/-- A step reads its local and binds it. -/
theorem step (hP : Closed W K P) {b : Body} {st : Step} {v : VarId} (hv : W v) :
    P (Eval.step b st v) := by
  refine hP.context_bind fun c _ => iteInduction (fun _ => hP.fail _) fun _ => ?_
  exact hP.bind (hP.ofExcept _) fun _ => hP.bind (hP.assignLocal hv) fun _ => hP.pure _

/-- An operator may warn, and fails or has a value. -/
theorem binary (hP : Closed W K P) {op : BinOp} {span : Span} {x y : Value} :
    P (Eval.binary op span x y) := by
  have h : P (Eval.ofExcept (Value.binary op x y)) := hP.ofExcept _
  unfold Eval.binary
  cases op with
  | equality negated =>
    have hwarn : P (Eval.warn (identityWarning (.equality negated) span)) := hP.warn rfl
    exact iteInduction (fun _ => hP.bind hwarn fun _ => h) fun _ => h
  | _ => exact h

end Closed

end Eval

variable {b : Body} {w : IdSet} {K : Context → Prop} {P : ∀ {α : Type}, Eval α → Prop}

/-! ## Expressions -/

namespace Expr

mutual

/-- The property holds of every expression that writes only the locals of `w`. -/
theorem eval_closed (hP : TreeClosed w K P) (depth : Nat) :
    ∀ {e : Expr}, (∀ s ∈ e.subexprs, AssignsIn w s.kind) → P (e.eval b depth)
  | node id kind, h => by
    have hk : AssignsIn w kind := h (node id kind) (by simp [subexprs])
    refine hP.locate _ (iteInduction (fun _ => hP.fail _) fun _ => ?_)
    refine hP.bind (evalKind_closed hP (depth + 1) hk fun s hs => ?_) fun x => ?_
    · exact h s (by simp [subexprs, hs])
    · exact hP.bind (hP.observe id x) fun _ => hP.pure x

/-- The property holds of a layer and of everything below it. -/
theorem evalKind_closed (hP : TreeClosed w K P) (depth : Nat) {id : ExprId} :
    ∀ {k : ExprKind Expr}, AssignsIn w k → (∀ s ∈ subexprsOfKind k, AssignsIn w s.kind) →
      P (evalKind b depth id k)
  | .lit _, _, _ | .field none .., _, _ | .err, _, _ => hP.pure _
  | .var v, _, _ => hP.context_bind fun c _ => hP.pure (c.get v)
  | .paren _, _, h => eval_closed hP depth h
  | .assign target op value, hw, h => by
    simp only [subexprsOfKind, List.mem_append] at h
    have ht : P (target.evalPlace b depth) := evalPlace_closed hP depth fun s hs => h s (.inl hs)
    have hv : P (value.eval b depth) := eval_closed hP depth fun s hs => h s (.inr hs)
    change ∀ v ∈ target.localTarget?, v ∈ w at hw
    cases hl : target.localTarget? with
    | none =>
      simp only [evalKind, hl]
      exact hP.bind ht fun _ => hP.bind hv fun _ => hP.pure _
    | some v =>
      have hm := hw v hl
      cases op with
      | none =>
        simp only [evalKind, hl]
        exact hP.bind hv fun _ => hP.assignLocal hm
      | some op =>
        simp only [evalKind, hl]
        refine hP.context_bind fun _ _ => hP.bind hv fun _ => ?_
        exact hP.bind (hP.ofExcept _) fun _ => hP.assignLocal hm
  | .binary l (.logic op) r, _, h => by
    simp only [subexprsOfKind, List.mem_append] at h
    have hr : P (r.eval b depth) := eval_closed hP depth fun s hs => h s (.inr hs)
    refine hP.bind (eval_closed hP depth fun s hs => h s (.inl hs)) fun x => ?_
    cases x with
    | unknown => exact hP.bind (hP.maybe hr) fun _ => hP.pure _
    | known a => exact iteInduction (fun _ => hP.pure _) fun _ => hP.bind hr fun _ => hP.ofExcept _
  | .binary l (.arith _) r, _, h | .binary l (.shift _) r, _, h | .binary l (.bits _) r, _, h
  | .binary l (.order _) r, _, h | .binary l (.equality _) r, _, h => by
    simp only [subexprsOfKind, List.mem_append] at h
    refine hP.bind (eval_closed hP depth fun s hs => h s (.inl hs)) fun _ => ?_
    exact hP.bind (eval_closed hP depth fun s hs => h s (.inr hs)) fun _ => hP.binary
  | .unary (.step st) operand, hw, h => by
    change ∀ v ∈ operand.localTarget?, v ∈ w at hw
    cases hl : operand.localTarget? with
    | none =>
      simp only [evalKind, hl]
      exact hP.bind (evalPlace_closed hP depth h) fun _ => hP.pure _
    | some v =>
      simp only [evalKind, hl]
      exact hP.step (hw v hl)
  | .unary .not _, _, h | .unary .neg _, _, h | .unary .plus _, _, h | .unary .bitNot _, _, h =>
    hP.bind (eval_closed hP depth h) fun _ => hP.ofExcept _
  | .conditional c t f, _, h => by
    simp only [subexprsOfKind, List.mem_append] at h
    have ht : P (t.eval b depth) := eval_closed hP depth fun s hs => h s (.inr (.inl hs))
    have hf : P (f.eval b depth) := eval_closed hP depth fun s hs => h s (.inr (.inr hs))
    rw [evalKind]
    refine hP.bind (eval_closed hP depth fun s hs => h s (.inl hs)) fun x => ?_
    split
    · exact hP.bind ht fun _ => hP.pure _
    · exact hP.bind hf fun _ => hP.pure _
    · exact hP.bind (hP.either ht hf) fun _ => hP.pure _
    · exact hP.fail _
  | .field (some _) .., _, h | .cast .., _, h | .instanceOf .., _, h =>
    hP.bind (eval_closed hP depth h) fun _ => hP.pure _
  | .index a i, _, h => by
    simp only [subexprsOfKind, List.mem_append] at h
    refine hP.bind (eval_closed hP depth fun s hs => h s (.inl hs)) fun _ => ?_
    exact hP.bind (eval_closed hP depth fun s hs => h s (.inr hs)) fun _ => hP.pure _
  | .call none .., _, h | .create .., _, h =>
    hP.bind (evalList_closed hP depth h) fun _ => hP.pure _
  | .call (some e) _ args, _, h => by
    simp only [subexprsOfKind, List.mem_append] at h
    refine hP.bind (eval_closed hP depth fun s hs => h s (.inl hs)) fun _ => ?_
    exact hP.bind (evalList_closed hP depth fun s hs => h s (.inr hs)) fun _ => hP.pure _

/-- The property holds of the operands of a place. -/
theorem evalPlace_closed (hP : TreeClosed w K P) (depth : Nat) :
    ∀ {e : Expr}, (∀ s ∈ e.subexprs, AssignsIn w s.kind) → P (e.evalPlace b depth)
  | node _ kind, h => by
    have hk := fun s hs => h s (List.mem_cons_of_mem _ hs)
    cases kind with
    | paren inner =>
      rw [evalPlace]
      exact evalPlace_closed hP depth hk
    | field receiver name isStatic =>
      cases receiver with
      | none => exact hP.pure _
      | some e => exact hP.bind (eval_closed hP depth hk) fun _ => hP.pure _
    | index a i =>
      simp only [subexprsOfKind, List.mem_append] at hk
      have hi : P (i.eval b depth) := eval_closed hP depth fun s hs => hk s (.inr hs)
      refine hP.bind (eval_closed hP depth fun s hs => hk s (.inl hs)) fun _ => ?_
      exact hP.bind hi fun _ => hP.pure _
    | _ => exact hP.fail _

theorem evalList_closed (hP : TreeClosed w K P) (depth : Nat) :
    ∀ {es : List Expr}, (∀ s ∈ subexprsOfList es, AssignsIn w s.kind) → P (evalList b depth es)
  | [], _ => hP.pure _
  | _ :: _, h => by
    simp only [subexprsOfList, List.mem_append] at h
    refine hP.bind (eval_closed hP depth fun s hs => h s (.inl hs)) fun _ => ?_
    exact evalList_closed hP depth fun s hs => h s (.inr hs)

end

/-- The property holds of an expression evaluated for its effects. -/
theorem run_closed (hP : TreeClosed w K P) {e : Expr} (hw : ∀ v ∈ e.written, v ∈ w) :
    P (e.run b) :=
  hP.bind (eval_closed hP 0 (assignsIn_of_written hw)) fun _ => hP.pure _

theorem runOption_closed (hP : TreeClosed w K P) :
    ∀ {e : Option Expr}, (∀ x ∈ e, ∀ v ∈ x.written, v ∈ w) → P (runOption b e)
  | none, _ => hP.pure _
  | some e, hw => run_closed hP (hw e rfl)

theorem evalAll_closed (hP : TreeClosed w K P) {es : List Expr}
    (hw : ∀ e ∈ es, ∀ v ∈ e.written, v ∈ w) : P (evalList b 0 es) := by
  induction es with
  | nil => exact hP.pure _
  | cons e es ih =>
    refine hP.bind (eval_closed hP 0 (assignsIn_of_written (hw e (by simp)))) fun _ => ?_
    exact ih fun x hx => hw x (by simp [hx])

end Expr

/-! ## Statements -/

namespace Stmt

mutual

/-- The property holds of every statement that writes only the locals of `w`. -/
theorem eval_closed (hP : TreeClosed w K P) :
    ∀ {s : Stmt}, (∀ t ∈ s.substmts, AssignsIn w t.kind) → P (s.eval b)
  | node id kind, h => by
    have hk : AssignsIn w kind := h (node id kind) (by simp [substmts])
    refine hP.locate _ (evalKind_closed hP (written_of_assignsIn h) hk fun t ht => ?_)
    exact h t (by simp [substmts, ht])

/-- A loop, switch or `try` forgets what the `whole` statement writes. -/
theorem evalKind_closed (hP : TreeClosed w K P) {whole : Stmt}
    (hwhole : ∀ v ∈ whole.written, v ∈ w) :
    ∀ {k : StmtKind Expr Stmt}, AssignsIn w k → (∀ t ∈ substmtsOfKind k, AssignsIn w t.kind) →
      P (evalKind b whole k)
  | .decl v none, hw, _ =>
    hP.bind (hP.assignLocal (hw.1 v (by simp [StmtKind.declared]))) fun _ => hP.pure _
  | .decl v (some e), hw, _ => by
    have he := Expr.assignsIn_of_written (hw.2 e (by simp [StmtKind.exprChildren]))
    refine hP.bind (Expr.eval_closed hP 0 he) fun x => ?_
    exact hP.bind (hP.assignLocal (hw.1 v (by simp [StmtKind.declared]))) fun _ => hP.pure _
  | .expr e, hw, _ | .throw e, hw, _ =>
    Expr.run_closed hP (hw.2 e (by simp [StmtKind.exprChildren]))
  | .ret e, hw, _ => Expr.runOption_closed hP fun x hx =>
    hw.2 x (by simp [StmtKind.exprChildren, Option.mem_def.1 hx])
  | .block _, _, h => evalList_closed hP h
  | .branch c t f, hw, h => by
    have hc := Expr.assignsIn_of_written (hw.2 c (by simp [StmtKind.exprChildren]))
    have ht : P (t.eval b) := by
      refine eval_closed hP fun s hs => h s ?_
      cases f <;> simp [substmtsOfKind, hs]
    have hf : P (evalOption b f) := by
      refine evalOption_closed hP fun s hs u hu => h u ?_
      cases hs
      simp [substmtsOfKind, hu]
    rw [evalKind]
    refine hP.bind (Expr.eval_closed hP 0 hc) fun x => ?_
    split
    · exact ht
    · exact hf
    · exact hP.bind (hP.either ht hf) fun _ => hP.pure _
    · exact hP.fail _
  | .assert c message, hw, _ => by
    have hc : P (c.run b) := Expr.run_closed hP (hw.2 c (by simp [StmtKind.exprChildren]))
    have hm : P (Expr.runOption b message) := Expr.runOption_closed hP fun e he =>
      hw.2 e (by simp [StmtKind.exprChildren, Option.mem_def.1 he])
    refine hP.maybe (hP.bind hc fun _ => hP.context_bind fun d hd => ?_)
    exact hP.bind hm fun _ => hP.setContext hd
  | .whileLoop c body, hw, h => by
    have hc : P (c.run b) := Expr.run_closed hP (hw.2 c (by simp [StmtKind.exprChildren]))
    have hb : P (body.eval b) := eval_closed hP h
    refine hP.bind (hP.forget hwhole) fun _ => hP.bind hc fun _ => ?_
    exact hP.bind (hP.iteration hb) fun _ => hP.forget hwhole
  | .doLoop body c, hw, h => by
    have hc : P (c.run b) := Expr.run_closed hP (hw.2 c (by simp [StmtKind.exprChildren]))
    have hb : P (body.eval b) := eval_closed hP h
    refine hP.bind (hP.forget hwhole) fun _ => hP.bind (hP.iteration hb) fun _ => ?_
    exact hP.bind hc fun _ => hP.forget hwhole
  | .forLoop init c update body, hw, h => by
    simp only [substmtsOfKind, List.mem_append] at h
    have hi : P (evalList b init) := evalList_closed hP fun s hs => h s (.inl hs)
    have hb : P (body.eval b) := eval_closed hP fun s hs => h s (.inr hs)
    have hc : P (Expr.runOption b c) := Expr.runOption_closed hP fun e he =>
      hw.2 e (by simp [StmtKind.exprChildren, Option.mem_def.1 he])
    have hu : P (Expr.evalList b 0 update) := Expr.evalAll_closed hP fun e he =>
      hw.2 e (by simp [StmtKind.exprChildren, he])
    refine hP.bind hi fun _ => hP.bind (hP.forget hwhole) fun _ => hP.bind hc fun _ => ?_
    exact hP.bind (hP.iteration hb) fun _ => hP.bind hu fun _ => hP.forget hwhole
  | .forEach _ iterable body, hw, h => by
    have hc : P (iterable.run b) :=
      Expr.run_closed hP (hw.2 iterable (by simp [StmtKind.exprChildren]))
    have hb : P (body.eval b) := eval_closed hP h
    refine hP.bind hc fun _ => hP.bind (hP.forget hwhole) fun _ => ?_
    exact hP.bind (hP.iteration hb) fun _ => hP.forget hwhole
  | .switch selector cases, hw, h => by
    have hc : P (selector.run b) :=
      Expr.run_closed hP (hw.2 selector (by simp [StmtKind.exprChildren]))
    have hl : ∀ k ∈ cases, ∀ e ∈ k.labels, ∀ v ∈ e.written, v ∈ w := fun k hk e he =>
      hw.2 e (List.mem_cons_of_mem _ (List.mem_flatMap.2 ⟨k, hk, he⟩))
    refine hP.bind hc fun _ => hP.bind (hP.forget hwhole) fun _ => ?_
    refine hP.context_bind fun entry hentry => ?_
    exact hP.bind (evalCases_closed hP hentry hl h) fun _ => hP.setContext hentry
  | .guarded resources body catches none, _, h => by
    simp only [substmtsOfKind, List.mem_append] at h
    refine hP.bind (hP.forget hwhole) fun _ => hP.context_bind fun entry hentry => ?_
    refine hP.bind (evalList_closed hP fun s hs => h s (.inl (.inl hs))) fun _ => ?_
    refine hP.bind (evalList_closed hP fun s hs => h s (.inl (.inr hs))) fun _ => ?_
    refine hP.bind (evalCatches_closed hP hentry fun s hs => h s (.inr hs)) fun _ => ?_
    exact hP.setContext hentry
  | .guarded resources body catches (some finalizer), _, h => by
    simp only [substmtsOfKind, List.mem_append] at h
    refine hP.bind (hP.forget hwhole) fun _ => hP.context_bind fun entry hentry => ?_
    refine hP.bind (evalList_closed hP fun s hs => h s (.inl (.inl (.inl hs)))) fun _ => ?_
    refine hP.bind (evalList_closed hP fun s hs => h s (.inl (.inl (.inr hs)))) fun _ => ?_
    refine hP.bind (evalCatches_closed hP hentry fun s hs => h s (.inl (.inr hs))) fun _ => ?_
    refine hP.bind (hP.setContext hentry) fun _ => ?_
    exact hP.bind (evalList_closed hP fun s hs => h s (.inr hs)) fun _ => hP.setContext hentry
  | .continueLoop, _, _ => hP.continueLoop
  | .breakOut, _, _ | .empty, _, _ | .err, _, _ => hP.pure _

theorem evalOption_closed (hP : TreeClosed w K P) :
    ∀ {s : Option Stmt}, (∀ x ∈ s, ∀ t ∈ x.substmts, AssignsIn w t.kind) → P (evalOption b s)
  | none, _ => hP.pure _
  | some s, h => eval_closed hP (h s rfl)

theorem evalList_closed (hP : TreeClosed w K P) :
    ∀ {ss : List Stmt}, (∀ t ∈ substmtsOfList ss, AssignsIn w t.kind) → P (evalList b ss)
  | [], _ => hP.pure _
  | _ :: _, h => by
    simp only [substmtsOfList, List.mem_append] at h
    refine hP.bind (eval_closed hP fun t ht => h t (.inl ht)) fun _ => ?_
    exact evalList_closed hP fun t ht => h t (.inr ht)

theorem evalCases_closed (hP : TreeClosed w K P) {entry : Context} (hentry : K entry) :
    ∀ {cs : List (SwitchCase Expr Stmt)},
      (∀ k ∈ cs, ∀ e ∈ k.labels, ∀ v ∈ e.written, v ∈ w) →
      (∀ t ∈ substmtsOfCases cs, AssignsIn w t.kind) → P (evalCases b entry cs)
  | [], _, _ => hP.pure _
  | ⟨_, labels, body⟩ :: cs, hl, h => by
    simp only [substmtsOfCases, List.mem_append] at h
    refine hP.bind (Expr.evalAll_closed hP (hl _ List.mem_cons_self)) fun _ => ?_
    refine hP.bind (hP.setContext hentry) fun _ => ?_
    refine hP.bind (evalList_closed hP fun t ht => h t (.inl ht)) fun _ => ?_
    exact evalCases_closed hP hentry (fun k hk => hl k (by simp [hk])) fun t ht => h t (.inr ht)

theorem evalCatches_closed (hP : TreeClosed w K P) {entry : Context} (hentry : K entry) :
    ∀ {cs : List (CatchClause Stmt)}, (∀ t ∈ substmtsOfCatches cs, AssignsIn w t.kind) →
      P (evalCatches b entry cs)
  | [], _ => hP.pure _
  | ⟨_, _, body⟩ :: cs, h => by
    simp only [substmtsOfCatches, List.mem_append] at h
    refine hP.bind (hP.setContext hentry) fun _ => ?_
    refine hP.bind (evalList_closed hP fun t ht => h t (.inl ht)) fun _ => ?_
    exact evalCatches_closed hP hentry fun t ht => h t (.inr ht)

end

end Stmt

end Midend
