import Midend.Proofs.Eval.Alike
import Midend.Proofs.Run.Stmt

/-!
# Where the evaluator comes by

`Stmt.contexts` lists the expressions of a statement and of those nested in it
with the contexts in which the evaluator evaluates them, but for the labels of a
switch. These are evaluated among the statements of the groups, the first from the
entry of the switch and those of any other group from where the statements of the
group before it end (`Stmt.labelContexts`).

The context that is saved at a `continue` joins the one at the end of the loop's
body, and what is known there is known of the condition of a `do` loop and the
update of a `for` loop, its `Stmt.ends`. But finalizers run on the way, and the
locals that they write (`Stmt.detours`) may hold something else by then.
-/

namespace Midend

/-- The state that an evaluation leaves. -/
def Eval.after {α : Type} (x : Eval α) (st : EvalState) : EvalState := (x st).2

theorem Eval.after_eq {α : Type} {x : Eval α} {r : Except EvalError α} {st st' : EvalState}
    (h : x st = (r, st')) : x.after st = st' := congrArg Prod.snd h

/-- From the same context an evaluation leaves the same one. -/
theorem Eval.Alike.after {α : Type} {x : Eval α} (hx : x.Alike) {st st' : EvalState}
    (h : st.context = st'.context) : (x.after st).context = (x.after st').context :=
  (hx (.of_context h)).2.context

/-- The state in which the body of a loop is evaluated. -/
def EvalState.enterLoop (st : EvalState) : EvalState :=
  { st with continues := none :: st.continues }

namespace Stmt

/-! ## The way of a `continue` -/

mutual

/-- For each `continue` that leaves the statement, the locals that may be written by the finalizers
it passes on the way. -/
def detours : Stmt → List IdSet
  | node _ kind => detoursOfKind kind

/-- The detours of each `continue` that leaves a layer. -/
def detoursOfKind : StmtKind Expr Stmt → List IdSet
  | .continueLoop => [∅]
  | .block body => detoursOfList body
  | .branch _ a none => a.detours
  | .branch _ a (some b) => a.detours ++ b.detours
  | .forLoop init .. => detoursOfList init
  | .switch _ cases => detoursOfCases cases
  | .guarded resources body catches none =>
    detoursOfList resources ++ detoursOfList body ++ detoursOfCatches catches
  | .guarded resources body catches (some finalizer) =>
    (detoursOfList resources ++ detoursOfList body ++ detoursOfCatches catches).map
        (· ∪ writtenByAll finalizer) ++
      detoursOfList finalizer
  | .decl .. | .expr _ | .whileLoop .. | .doLoop .. | .forEach .. | .throw _ | .assert .. | .ret _
  | .breakOut | .empty | .err => []

/-- The detours of statements, in order. -/
def detoursOfList : List Stmt → List IdSet
  | [] => []
  | s :: ss => s.detours ++ detoursOfList ss

/-- The detours of the groups of a switch, in order. -/
def detoursOfCases : List (SwitchCase Expr Stmt) → List IdSet
  | [] => []
  | ⟨_, _, body⟩ :: cs => detoursOfList body ++ detoursOfCases cs

/-- The detours of handlers, in order. -/
def detoursOfCatches : List (CatchClause Stmt) → List IdSet
  | [] => []
  | ⟨_, _, body⟩ :: cs => detoursOfList body ++ detoursOfCatches cs

end

mutual

/-- Without a `continue` there is no detour. -/
theorem detours_eq_nil :
    ∀ {s : Stmt}, (∀ t ∈ s.substmts, t.kind ≠ .continueLoop) → s.detours = []
  | node id kind, h => by
    have hk : kind ≠ .continueLoop := h (node id kind) List.mem_cons_self
    exact detoursOfKind_eq_nil hk fun t ht => h t (List.mem_cons_of_mem _ ht)

/-- Without a `continue` below it a layer has no detours. -/
theorem detoursOfKind_eq_nil :
    ∀ {k : StmtKind Expr Stmt}, k ≠ .continueLoop →
      (∀ t ∈ substmtsOfKind k, t.kind ≠ .continueLoop) → detoursOfKind k = []
  | .continueLoop, hk, _ => absurd rfl hk
  | .block _, _, h => detoursOfList_eq_nil h
  | .branch _ _ none, _, h => detours_eq_nil h
  | .branch _ _ (some _), _, h => by
    simp only [substmtsOfKind, List.mem_append] at h
    exact List.append_eq_nil_iff.2 ⟨detours_eq_nil fun t ht => h t (.inl ht),
      detours_eq_nil fun t ht => h t (.inr ht)⟩
  | .forLoop .., _, h => detoursOfList_eq_nil fun t ht => h t (List.mem_append.2 (.inl ht))
  | .switch _ _, _, h => detoursOfCases_eq_nil h
  | .guarded _ _ _ none, _, h => by
    simp only [substmtsOfKind, List.mem_append] at h
    rw [detoursOfKind, detoursOfList_eq_nil fun t ht => h t (.inl (.inl ht)),
      detoursOfList_eq_nil fun t ht => h t (.inl (.inr ht)),
      detoursOfCatches_eq_nil fun t ht => h t (.inr ht)]
    rfl
  | .guarded _ _ _ (some _), _, h => by
    simp only [substmtsOfKind, List.mem_append] at h
    rw [detoursOfKind, detoursOfList_eq_nil fun t ht => h t (.inl (.inl (.inl ht))),
      detoursOfList_eq_nil fun t ht => h t (.inl (.inl (.inr ht))),
      detoursOfCatches_eq_nil fun t ht => h t (.inl (.inr ht)),
      detoursOfList_eq_nil fun t ht => h t (.inr ht)]
    rfl
  | .decl .., _, _ | .expr _, _, _ | .whileLoop .., _, _ | .doLoop .., _, _ | .forEach .., _, _
  | .throw _, _, _ | .assert .., _, _ | .ret _, _, _ | .breakOut, _, _ | .empty, _, _
  | .err, _, _ => rfl

/-- Without a `continue` in them statements have no detours. -/
theorem detoursOfList_eq_nil :
    ∀ {ss : List Stmt}, (∀ t ∈ substmtsOfList ss, t.kind ≠ .continueLoop) →
      detoursOfList ss = []
  | [], _ => rfl
  | s :: ss, h => by
    simp only [substmtsOfList, List.mem_append] at h
    exact List.append_eq_nil_iff.2 ⟨detours_eq_nil fun t ht => h t (.inl ht),
      detoursOfList_eq_nil fun t ht => h t (.inr ht)⟩

theorem detoursOfCases_eq_nil :
    ∀ {cs : List (SwitchCase Expr Stmt)}, (∀ t ∈ substmtsOfCases cs, t.kind ≠ .continueLoop) →
      detoursOfCases cs = []
  | [], _ => rfl
  | ⟨_, _, body⟩ :: cs, h => by
    simp only [substmtsOfCases, List.mem_append] at h
    exact List.append_eq_nil_iff.2 ⟨detoursOfList_eq_nil fun t ht => h t (.inl ht),
      detoursOfCases_eq_nil fun t ht => h t (.inr ht)⟩

theorem detoursOfCatches_eq_nil :
    ∀ {cs : List (CatchClause Stmt)}, (∀ t ∈ substmtsOfCatches cs, t.kind ≠ .continueLoop) →
      detoursOfCatches cs = []
  | [], _ => rfl
  | ⟨_, _, body⟩ :: cs, h => by
    simp only [substmtsOfCatches, List.mem_append] at h
    exact List.append_eq_nil_iff.2 ⟨detoursOfList_eq_nil fun t ht => h t (.inl ht),
      detoursOfCatches_eq_nil fun t ht => h t (.inr ht)⟩

end

/-- The expressions that are evaluated after the body of a loop. -/
def ends : StmtKind Expr Stmt → List Expr
  | .doLoop _ c => [c]
  | .forLoop _ _ update _ => update
  | _ => []

/-- The detours on the way to the ends of a loop. -/
def endDetours : StmtKind Expr Stmt → List IdSet
  | .doLoop body _ | .forLoop _ _ _ body => body.detours
  | _ => []

/-! ## Contexts -/

/-- Expressions that are evaluated in order. -/
def exprContexts (b : Body) (whole : Stmt) : List Expr → EvalState → List (Stmt × Expr × Context)
  | [], _ => []
  | e :: es, st => (whole, e, st.context) :: exprContexts b whole es ((e.eval b 0).after st)

mutual

/-- The expressions of the statement and of those nested in it, each with the statement it belongs
to and the context in which an evaluation from `st` comes to it. -/
def contexts (b : Body) : Stmt → EvalState → List (Stmt × Expr × Context)
  | node id kind, st => kindContexts b (node id kind) kind st

/-- The contexts in which the expressions of a layer are evaluated. -/
def kindContexts (b : Body) (whole : Stmt) :
    StmtKind Expr Stmt → EvalState → List (Stmt × Expr × Context)
  | .decl _ e, st | .ret e, st => exprContexts b whole e.toList st
  | .expr e, st | .throw e, st => [(whole, e, st.context)]
  | .block body, st => listContexts b body st
  | .branch c onTrue onFalse, st =>
    (whole, c, st.context) ::
      match c.eval b 0 st with
      | (.ok (.known (.bool true)), st₁) => onTrue.contexts b st₁
      | (.ok (.known (.bool false)), st₁) => optionContexts b onFalse st₁
      | (.ok .unknown, st₁) =>
        onTrue.contexts b st₁ ++
          optionContexts b onFalse { (onTrue.eval b).after st₁ with context := st₁.context }
      | _ => []
  | .assert c message, st => exprContexts b whole (c :: message.toList) st
  | .whileLoop c body, st =>
    let st₀ := (Eval.forget whole.written).after st
    (whole, c, st₀.context) :: body.contexts b ((c.run b).after st₀).enterLoop
  | .doLoop body c, st =>
    let st₀ := (Eval.forget whole.written).after st
    body.contexts b st₀.enterLoop ++
      exprContexts b whole [c] ((Eval.iteration (body.eval b)).after st₀)
  | .forLoop init c update body, st =>
    let st₀ := (Eval.forget whole.written).after ((evalList b init).after st)
    let st₁ := (Expr.runOption b c).after st₀
    listContexts b init st ++ exprContexts b whole c.toList st₀ ++
      body.contexts b st₁.enterLoop ++
      exprContexts b whole update ((Eval.iteration (body.eval b)).after st₁)
  | .forEach _ iterable body, st =>
    let st₀ := (Eval.forget whole.written).after ((iterable.run b).after st)
    (whole, iterable, st.context) :: body.contexts b st₀.enterLoop
  | .switch selector cases, st =>
    let st₀ := (Eval.forget whole.written).after ((selector.run b).after st)
    (whole, selector, st.context) :: caseContexts b st₀.context cases st₀
  | .guarded resources body catches none, st =>
    let st₀ := (Eval.forget whole.written).after st
    let st₁ := (evalList b resources).after st₀
    listContexts b resources st₀ ++ listContexts b body st₁ ++
      catchContexts b st₀.context catches ((evalList b body).after st₁)
  | .guarded resources body catches (some finalizer), st =>
    let st₀ := (Eval.forget whole.written).after st
    let st₁ := (evalList b resources).after st₀
    let st₂ := (evalList b body).after st₁
    let st₃ := (evalCatches b st₀.context catches).after st₂
    listContexts b resources st₀ ++ listContexts b body st₁ ++
      catchContexts b st₀.context catches st₂ ++
      listContexts b finalizer { st₃ with context := st₀.context }
  | .breakOut, _ | .continueLoop, _ | .empty, _ | .err, _ => []

/-- The contexts of the expressions of a statement that may be absent. -/
def optionContexts (b : Body) : Option Stmt → EvalState → List (Stmt × Expr × Context)
  | none, _ => []
  | some s, st => s.contexts b st

/-- The contexts of the expressions of statements, from the state that the ones before leave. -/
def listContexts (b : Body) : List Stmt → EvalState → List (Stmt × Expr × Context)
  | [], _ => []
  | s :: ss, st => s.contexts b st ++ listContexts b ss ((s.eval b).after st)

/-- The contexts of the expressions of the groups of a switch. -/
def caseContexts (b : Body) (entry : Context) :
    List (SwitchCase Expr Stmt) → EvalState → List (Stmt × Expr × Context)
  | [], _ => []
  | ⟨_, labels, body⟩ :: cs, st =>
    let st₁ := { (Expr.evalList b 0 labels).after st with context := entry }
    listContexts b body st₁ ++ caseContexts b entry cs ((evalList b body).after st₁)

/-- The contexts of the expressions of handlers, each from the entry of their statement. -/
def catchContexts (b : Body) (entry : Context) :
    List (CatchClause Stmt) → EvalState → List (Stmt × Expr × Context)
  | [], _ => []
  | ⟨_, _, body⟩ :: cs, st =>
    let st₁ := { st with context := entry }
    listContexts b body st₁ ++ catchContexts b entry cs ((evalList b body).after st₁)

end

/-- The labels of a switch, each with the context in which it is evaluated. The statements of every
group are evaluated from the entry; the labels of the first group from `c`. -/
def groupContexts (b : Body) (whole : Stmt) (entry : Context) :
    List (SwitchCase Expr Stmt) → Context → List (Stmt × Expr × Context)
  | [], _ => []
  | ⟨_, labels, body⟩ :: cs, c =>
    exprContexts b whole labels { context := c } ++
      groupContexts b whole entry cs ((evalList b body).after { context := entry }).context

/-- The labels of a switch whose selector is evaluated in `c`. -/
def labelContexts (b : Body) (s : Stmt) (c : Context) : List (Stmt × Expr × Context) :=
  match s.kind with
  | .switch selector cases =>
    let entry := ((selector.run b).after { context := c }).context.forget s.written
    groupContexts b s entry cases entry
  | _ => []

/-! ## Statements of contexts -/

section

variable {b : Body} {t : Stmt} {e : Expr} {c : Context}

/-- The contexts of a statement's own expressions are about these. -/
theorem mem_exprContexts {whole : Stmt} :
    ∀ {es : List Expr} {st : EvalState}, (t, e, c) ∈ exprContexts b whole es st →
      t = whole ∧ e ∈ es
  | [], _, h => nomatch h
  | x :: xs, _, h => by
    rcases List.mem_cons.1 h with h | h
    · cases h
      exact ⟨rfl, List.mem_cons_self⟩
    · obtain ⟨ht, he⟩ := mem_exprContexts h
      exact ⟨ht, List.mem_cons_of_mem x he⟩

/-- The expression belongs to the statement `whole` of the given kind or to one nested in it. -/
def BelongsTo (whole : Stmt) (k : StmtKind Expr Stmt) (t : Stmt) (e : Expr) : Prop :=
  t = whole ∧ e ∈ k.exprChildren ∨ t ∈ substmtsOfKind k ∧ e ∈ t.kind.exprChildren

mutual

/-- The expressions of `contexts` are those of the statements they come with. -/
theorem mem_contexts :
    ∀ {s : Stmt} {st : EvalState}, (t, e, c) ∈ s.contexts b st →
      t ∈ s.substmts ∧ e ∈ t.kind.exprChildren
  | node id kind, _, h => by
    rcases mem_kindContexts h with ⟨rfl, he⟩ | ⟨ht, he⟩
    · exact ⟨List.mem_cons_self, he⟩
    · exact ⟨List.mem_cons_of_mem _ ht, he⟩

/-- The contexts of a layer are about its expressions and those of nested statements. -/
theorem mem_kindContexts {whole : Stmt} :
    ∀ {k : StmtKind Expr Stmt} {st : EvalState}, (t, e, c) ∈ kindContexts b whole k st →
      BelongsTo whole k t e
  | .decl .., _, h | .ret _, _, h | .assert .., _, h => .inl (mem_exprContexts h)
  | .expr _, _, h | .throw _, _, h => by
    cases List.mem_singleton.1 h
    exact .inl ⟨rfl, List.mem_cons_self⟩
  | .block _, _, h => .inr (mem_listContexts h)
  | .branch x onTrue onFalse, _, h => by
    have hT : ∀ {st}, (t, e, c) ∈ onTrue.contexts b st →
        BelongsTo whole (.branch x onTrue onFalse) t e := by
      intro st h
      obtain ⟨ht, he⟩ := mem_contexts h
      refine .inr ⟨?_, he⟩
      cases onFalse <;> simp [substmtsOfKind, ht]
    have hF : ∀ {st}, (t, e, c) ∈ optionContexts b onFalse st →
        BelongsTo whole (.branch x onTrue onFalse) t e := by
      intro st h
      obtain ⟨s, rfl, ht, he⟩ := mem_optionContexts h
      exact .inr ⟨by simp [substmtsOfKind, ht], he⟩
    rcases List.mem_cons.1 h with h | h
    · cases h
      exact .inl ⟨rfl, List.mem_cons_self⟩
    · split at h
      · exact hT h
      · exact hF h
      · rcases List.mem_append.1 h with h | h
        · exact hT h
        · exact hF h
      · cases h
  | .whileLoop .., _, h | .forEach .., _, h => by
    rcases List.mem_cons.1 h with h | h
    · cases h
      exact .inl ⟨rfl, List.mem_cons_self⟩
    · exact .inr (mem_contexts h)
  | .doLoop .., _, h => by
    rcases List.mem_append.1 h with h | h
    · exact .inr (mem_contexts h)
    · exact .inl (mem_exprContexts h)
  | .forLoop .., _, h => by
    simp only [kindContexts, List.mem_append] at h
    rcases h with ((h | h) | h) | h
    · obtain ⟨ht, he⟩ := mem_listContexts h
      exact .inr ⟨List.mem_append.2 (.inl ht), he⟩
    · obtain ⟨ht, he⟩ := mem_exprContexts h
      exact .inl ⟨ht, List.mem_append.2 (.inl he)⟩
    · obtain ⟨ht, he⟩ := mem_contexts h
      exact .inr ⟨List.mem_append.2 (.inr ht), he⟩
    · obtain ⟨ht, he⟩ := mem_exprContexts h
      exact .inl ⟨ht, List.mem_append.2 (.inr he)⟩
  | .switch .., _, h => by
    rcases List.mem_cons.1 h with h | h
    · cases h
      exact .inl ⟨rfl, List.mem_cons_self⟩
    · exact .inr (mem_caseContexts h)
  | .guarded _ _ _ none, _, h => by
    simp only [kindContexts, List.mem_append] at h
    rcases h with (h | h) | h
    · obtain ⟨ht, he⟩ := mem_listContexts h
      exact .inr ⟨by simp [substmtsOfKind, ht], he⟩
    · obtain ⟨ht, he⟩ := mem_listContexts h
      exact .inr ⟨by simp [substmtsOfKind, ht], he⟩
    · obtain ⟨ht, he⟩ := mem_catchContexts h
      exact .inr ⟨by simp [substmtsOfKind, ht], he⟩
  | .guarded _ _ _ (some _), _, h => by
    simp only [kindContexts, List.mem_append] at h
    rcases h with ((h | h) | h) | h
    · obtain ⟨ht, he⟩ := mem_listContexts h
      exact .inr ⟨by simp [substmtsOfKind, ht], he⟩
    · obtain ⟨ht, he⟩ := mem_listContexts h
      exact .inr ⟨by simp [substmtsOfKind, ht], he⟩
    · obtain ⟨ht, he⟩ := mem_catchContexts h
      exact .inr ⟨by simp [substmtsOfKind, ht], he⟩
    · obtain ⟨ht, he⟩ := mem_listContexts h
      exact .inr ⟨by simp [substmtsOfKind, ht], he⟩
  | .breakOut, _, h | .continueLoop, _, h | .empty, _, h | .err, _, h => nomatch h

theorem mem_optionContexts :
    ∀ {s : Option Stmt} {st : EvalState}, (t, e, c) ∈ optionContexts b s st →
      ∃ x, s = some x ∧ t ∈ x.substmts ∧ e ∈ t.kind.exprChildren
  | none, _, h => nomatch h
  | some s, _, h => ⟨s, rfl, mem_contexts h⟩

/-- The contexts of statements are about expressions in them. -/
theorem mem_listContexts :
    ∀ {ss : List Stmt} {st : EvalState}, (t, e, c) ∈ listContexts b ss st →
      t ∈ substmtsOfList ss ∧ e ∈ t.kind.exprChildren
  | [], _, h => nomatch h
  | s :: ss, _, h => by
    rcases List.mem_append.1 h with h | h
    · obtain ⟨ht, he⟩ := mem_contexts h
      exact ⟨List.mem_append.2 (.inl ht), he⟩
    · obtain ⟨ht, he⟩ := mem_listContexts h
      exact ⟨List.mem_append.2 (.inr ht), he⟩

theorem mem_caseContexts {entry : Context} :
    ∀ {cs : List (SwitchCase Expr Stmt)} {st : EvalState}, (t, e, c) ∈ caseContexts b entry cs st →
      t ∈ substmtsOfCases cs ∧ e ∈ t.kind.exprChildren
  | [], _, h => nomatch h
  | ⟨_, _, body⟩ :: cs, _, h => by
    rcases List.mem_append.1 h with h | h
    · obtain ⟨ht, he⟩ := mem_listContexts h
      exact ⟨List.mem_append.2 (.inl ht), he⟩
    · obtain ⟨ht, he⟩ := mem_caseContexts h
      exact ⟨List.mem_append.2 (.inr ht), he⟩

theorem mem_catchContexts {entry : Context} :
    ∀ {cs : List (CatchClause Stmt)} {st : EvalState}, (t, e, c) ∈ catchContexts b entry cs st →
      t ∈ substmtsOfCatches cs ∧ e ∈ t.kind.exprChildren
  | [], _, h => nomatch h
  | ⟨_, _, body⟩ :: cs, _, h => by
    rcases List.mem_append.1 h with h | h
    · obtain ⟨ht, he⟩ := mem_listContexts h
      exact ⟨List.mem_append.2 (.inl ht), he⟩
    · obtain ⟨ht, he⟩ := mem_catchContexts h
      exact ⟨List.mem_append.2 (.inr ht), he⟩

end

end

end Stmt

end Midend
