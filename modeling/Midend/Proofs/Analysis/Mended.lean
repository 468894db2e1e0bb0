import Midend.Eval.Stmt
import Midend.Liveness.Info
import Midend.Proofs.Tree.Subst

/-!
# Mended trees

A tree is mended where calls without operands replace erroneous expressions. It is
walked (`Stmt.Mends.sameWalks`) and evaluated (`Stmt.Mends.eval`) as before and
writes the same locals (`Stmt.Mends.written`). An erroneous statement can be
replaced by an empty one without a change to what is evaluated or written; a walk
for live variables tells the two apart.
-/

namespace Midend

/-! ## Mended expressions -/

/-- The bodies have the same types of variables and the same places in the text. -/
structure Body.SameText (b b' : Body) : Prop where
  varTy : b'.varTy = b.varTy
  exprSpan : b'.exprSpan = b.exprSpan
  stmtSpan : b'.stmtSpan = b.stmtSpan

namespace Expr

/-- The second expression, with a call of `c` without operands in the place of some expressions
that are erroneous. -/
inductive Mends (c : Callee) : Expr → Expr → Prop
  | layer {id : ExprId} {k : ExprKind Expr} {f : Expr → Expr} :
    (∀ e ∈ k.children, Mends c (f e) e) → Mends c (node id (k.map f)) (node id k)
  | err {id : ExprId} : Mends c (node id (.call none c [])) (node id .err)

/-- The target of a write is an operand. -/
theorem target?_mem_children {id : ExprId} {k : ExprKind Expr} {t : Expr}
    (h : (node id k).target? = some t) : t ∈ k.children := by
  cases k with
  | assign l op r =>
    obtain rfl : l = t := Option.some.inj h
    exact List.mem_cons_self
  | unary op e =>
    cases op with
    | step st =>
      obtain rfl : e = t := Option.some.inj h
      exact List.mem_cons_self
    | _ => cases h
  | _ => cases h

/-- Operands that stand for the same locals may be exchanged below a target. -/
theorem localTarget?_map {id : ExprId} {k : ExprKind Expr} {f : Expr → Expr}
    (h : ∀ e ∈ k.children, (f e).localTarget? = e.localTarget?) :
    (node id (k.map f)).localTarget? = (node id k).localTarget? := by
  cases k with
  | paren e => exact h e (List.mem_singleton_self _)
  | field receiver => cases receiver <;> rfl
  | call receiver => cases receiver <;> rfl
  | _ => rfl

/-- What a layer writes is its own target and what its operands write. -/
theorem written_node (id : ExprId) (k : ExprKind Expr) :
    (node id k).written =
      ((node id k).target?.bind localTarget?).toList ++ k.children.flatMap written := by
  rw [written, subexprs, subexprsOfKind_eq, List.filterMap_cons, List.filterMap_flatMap]
  cases (node id k).target?.bind localTarget? <;> rfl

/-- Walks over the two expressions find and record the same. -/
structure SameWalks (d e : Expr) : Prop where
  target : d.localTarget? = e.localTarget?
  chain : d.targetChain = e.targetChain
  liveIn : ∀ p o, d.liveIn p o = e.liveIn p o
  liveEntries : ∀ p o, d.liveEntries p o = e.liveEntries p o
  placeIn : ∀ p o, d.placeIn p o = e.placeIn p o
  placeEntries : ∀ p o, d.placeEntries p o = e.placeEntries p o

section SameWalks

variable {f : Expr → Expr} {p : IdSet}

theorem listIn_sameWalks :
    ∀ {es : List Expr} {o : IdSet}, (∀ e ∈ es, (f e).SameWalks e) →
      listIn p o (es.map f) = listIn p o es
  | [], _, _ => rfl
  | e :: es, _, h => by
    rw [List.forall_mem_cons] at h
    rw [List.map_cons, listIn, listIn, listIn_sameWalks h.2, h.1.liveIn]

theorem listEntries_sameWalks :
    ∀ {es : List Expr} {o : IdSet}, (∀ e ∈ es, (f e).SameWalks e) →
      listEntries p o (es.map f) = listEntries p o es
  | [], _, _ => rfl
  | e :: es, _, h => by
    rw [List.forall_mem_cons] at h
    rw [List.map_cons, listEntries, listEntries, listEntries_sameWalks h.2, h.1.liveEntries,
      listIn_sameWalks h.2]

theorem operandsIn_sameWalks {k : ExprKind Expr} (h : ∀ e ∈ k.children, (f e).SameWalks e)
    (p o : IdSet) :
    operandsIn p o (k.map f) = operandsIn p o k ∧
      operandEntries p o (k.map f) = operandEntries p o k := by
  cases k with
  | lit | var | err => exact ⟨rfl, rfl⟩
  | field receiver =>
    cases receiver with
    | none => exact ⟨rfl, rfl⟩
    | some e =>
      have he := h e (by simp [ExprKind.children])
      exact ⟨he.liveIn p o, he.liveEntries p o⟩
  | unary op e | paren e | cast ty e | instanceOf e ty =>
    have he := h e (by simp [ExprKind.children])
    exact ⟨he.liveIn p o, he.liveEntries p o⟩
  | assign l op r | binary l op r | index l r =>
    have hl := h l (by simp [ExprKind.children])
    have hr := h r (by simp [ExprKind.children])
    simp [ExprKind.map, operandsIn, operandEntries, hl.liveIn, hr.liveIn, hl.liveEntries,
      hr.liveEntries]
  | conditional x t e =>
    have hx := h x (by simp [ExprKind.children])
    have ht := h t (by simp [ExprKind.children])
    have he := h e (by simp [ExprKind.children])
    simp [ExprKind.map, operandsIn, operandEntries, hx.liveIn, ht.liveIn, he.liveIn,
      hx.liveEntries, ht.liveEntries, he.liveEntries]
  | create ty args => exact ⟨listIn_sameWalks h, listEntries_sameWalks h⟩
  | call receiver callee args =>
    cases receiver with
    | none => exact ⟨listIn_sameWalks h, listEntries_sameWalks h⟩
    | some e =>
      rw [ExprKind.children, Option.toList_some, List.singleton_append, List.forall_mem_cons] at h
      simp [ExprKind.map, operandsIn, operandEntries, h.1.liveIn, h.1.liveEntries,
        listIn_sameWalks h.2, listEntries_sameWalks h.2]

/-- Nothing else becomes live before an expression whose operands are walked alike. -/
theorem liveIn_sameWalks {id : ExprId} {k : ExprKind Expr}
    (h : ∀ e ∈ k.children, (f e).SameWalks e) (p o : IdSet) :
    (node id (k.map f)).liveIn p o = (node id k).liveIn p o := by
  obtain ⟨hk, -⟩ := operandsIn_sameWalks h p o
  cases k with
  | assign l op r =>
    have hl := h l (by simp [ExprKind.children])
    have hr := h r (by simp [ExprKind.children])
    simp only [ExprKind.map, liveIn, hl.target, hl.placeIn, hr.liveIn]
  | unary op e =>
    have he := h e (by simp [ExprKind.children])
    cases op with
    | step s => simp only [ExprKind.map, liveIn, he.target, he.placeIn]
    | _ => exact congrArg (· ∪ p) hk
  | binary l op r =>
    have hl := h l (by simp [ExprKind.children])
    have hr := h r (by simp [ExprKind.children])
    cases op with
    | logic op => simp only [ExprKind.map, liveIn, hl.liveIn, hr.liveIn]
    | _ => exact congrArg (· ∪ p) hk
  | conditional x t e =>
    have hx := h x (by simp [ExprKind.children])
    have ht := h t (by simp [ExprKind.children])
    have he := h e (by simp [ExprKind.children])
    simp only [ExprKind.map, liveIn, hx.liveIn, ht.liveIn, he.liveIn]
  | var v => rfl
  | field receiver => cases receiver <;> exact congrArg (· ∪ p) hk
  | call receiver => cases receiver <;> exact congrArg (· ∪ p) hk
  | _ => exact congrArg (· ∪ p) hk

/-- An expression whose operands are walked alike gives the same entries. -/
theorem liveEntries_sameWalks {id : ExprId} {k : ExprKind Expr}
    (h : ∀ e ∈ k.children, (f e).SameWalks e) (p o : IdSet) :
    (node id (k.map f)).liveEntries p o = (node id k).liveEntries p o := by
  have hlive : (node id (k.map f)).liveIn p o = (node id k).liveIn p o := liveIn_sameWalks h p o
  obtain ⟨-, hk⟩ := operandsIn_sameWalks h p o
  cases k with
  | lit | var | err => rfl
  | assign l op r =>
    have hl := h l (by simp [ExprKind.children])
    have hr := h r (by simp [ExprKind.children])
    simp only [ExprKind.map] at hlive ⊢
    simp only [liveEntries, targetEntries, hlive, hl.target, hl.chain, hl.placeEntries, hr.liveIn,
      hr.liveEntries]
  | unary op e =>
    have he := h e (by simp [ExprKind.children])
    simp only [ExprKind.map] at hlive hk ⊢
    cases op with
    | step s => simp only [liveEntries, targetEntries, hlive, he.target, he.chain, he.placeEntries]
    | _ => simp only [liveEntries, hlive, hk]
  | binary l op r =>
    have hl := h l (by simp [ExprKind.children])
    have hr := h r (by simp [ExprKind.children])
    simp only [ExprKind.map] at hlive hk ⊢
    cases op with
    | logic op => simp only [liveEntries, hlive, hl.liveEntries, hr.liveIn, hr.liveEntries]
    | _ => simp only [liveEntries, hlive, hk]
  | conditional x t e =>
    have hx := h x (by simp [ExprKind.children])
    have ht := h t (by simp [ExprKind.children])
    have he := h e (by simp [ExprKind.children])
    simp only [ExprKind.map] at hlive ⊢
    simp only [liveEntries, hlive, hx.liveEntries, ht.liveIn, ht.liveEntries, he.liveIn,
      he.liveEntries]
  | _ =>
    simp only [ExprKind.map] at hlive hk ⊢
    simp only [liveEntries, hlive, hk]

/-- A layer is walked as before if its operands are. -/
theorem sameWalks_map {id : ExprId} {k : ExprKind Expr}
    (h : ∀ e ∈ k.children, (f e).SameWalks e) :
    (node id (k.map f)).SameWalks (node id k) := by
  have hoperands := operandsIn_sameWalks h
  refine ⟨?_, ?_, liveIn_sameWalks h, liveEntries_sameWalks h, fun p o => ?_, fun p o => ?_⟩
  · exact localTarget?_map fun e he => (h e he).target
  · cases k with
    | paren e => exact congrArg (id :: ·) (h e (List.mem_singleton_self _)).chain
    | _ => rfl
  · cases k with
    | paren e => exact (h e (List.mem_singleton_self _)).placeIn p o
    | _ => exact (hoperands p o).1
  · obtain ⟨hin, hentries⟩ := hoperands p o
    cases k with
    | lit | var | err => rfl
    | paren e =>
      have he := h e (List.mem_singleton_self _)
      simp only [ExprKind.map, placeEntries, he.placeIn, he.placeEntries]
    | _ =>
      simp only [ExprKind.map] at hin hentries ⊢
      simp only [placeEntries, placeIn, hin, hentries]

end SameWalks

section Evaluation

variable {b b' : Body} {f : Expr → Expr}

theorem evalList_map {depth : Nat} :
    ∀ {es : List Expr}, (∀ e ∈ es, (f e).eval b' depth = e.eval b depth) →
      evalList b' depth (es.map f) = evalList b depth es
  | [], _ => rfl
  | e :: es, h => by
    rw [List.forall_mem_cons] at h
    rw [List.map_cons, evalList, evalList, h.1, evalList_map h.2]

/-- The two expressions are evaluated alike, for their values and as targets. -/
structure SameEval (b b' : Body) (d e : Expr) : Prop where
  target : d.localTarget? = e.localTarget?
  eval : ∀ depth, d.eval b' depth = e.eval b depth
  evalPlace : ∀ depth, d.evalPlace b' depth = e.evalPlace b depth

/-- A layer evaluates alike with operands that do, if its type stays the same. -/
theorem evalKind_map (hb : b.SameText b') {id : ExprId} {k : ExprKind Expr}
    (hty : (node id (k.map f)).staticTy b'.varTy = (node id k).staticTy b.varTy)
    (h : ∀ e ∈ k.children, SameEval b b' (f e) e) (depth : Nat) :
    evalKind b' depth id (k.map f) = evalKind b depth id k := by
  have hassign : Eval.assignLocal b' = Eval.assignLocal b := by
    unfold Eval.assignLocal
    rw [hb.varTy]
  cases k with
  | lit | var | err => rfl
  | paren e => exact (h e (by simp [ExprKind.children])).eval depth
  | assign l op r =>
    have hl := h l (by simp [ExprKind.children])
    have hr := h r (by simp [ExprKind.children])
    simp only [ExprKind.map, evalKind, hl.target, hl.evalPlace, hr.eval, hassign]
  | binary l op r =>
    have hl := h l (by simp [ExprKind.children])
    have hr := h r (by simp [ExprKind.children])
    cases op <;> simp only [ExprKind.map, evalKind, hl.eval, hr.eval, hb.exprSpan]
  | unary op e =>
    have he := h e (by simp [ExprKind.children])
    have hstep : Eval.step b' = Eval.step b := by
      unfold Eval.step
      rw [hassign]
    cases op <;> simp only [ExprKind.map, evalKind, he.target, he.eval, he.evalPlace, hstep]
  | conditional x t e =>
    have hx := h x (by simp [ExprKind.children])
    have ht := h t (by simp [ExprKind.children])
    have he := h e (by simp [ExprKind.children])
    simp only [ExprKind.map] at hty ⊢
    simp only [evalKind, hx.eval, ht.eval, he.eval, hty]
  | field receiver =>
    cases receiver with
    | none => rfl
    | some e =>
      have he := h e (by simp [ExprKind.children])
      simp only [ExprKind.map, Option.map_some, evalKind, he.eval]
  | cast ty e | instanceOf e ty =>
    have he := h e (by simp [ExprKind.children])
    simp only [ExprKind.map, evalKind, he.eval]
  | index a i =>
    have hl := h a (by simp [ExprKind.children])
    have hr := h i (by simp [ExprKind.children])
    simp only [ExprKind.map, evalKind, hl.eval, hr.eval]
  | create ty args =>
    have hargs : evalList b' depth (args.map f) = evalList b depth args :=
      evalList_map fun e he => (h e he).eval depth
    simp only [ExprKind.map, evalKind, hargs]
  | call receiver callee args =>
    cases receiver with
    | none =>
      have hargs : evalList b' depth (args.map f) = evalList b depth args :=
        evalList_map fun e he => (h e he).eval depth
      simp only [ExprKind.map, Option.map_none, evalKind, hargs]
    | some e =>
      rw [ExprKind.children, Option.toList_some, List.singleton_append, List.forall_mem_cons] at h
      have hargs : evalList b' depth (args.map f) = evalList b depth args :=
        evalList_map fun e he => (h.2 e he).eval depth
      simp only [ExprKind.map, Option.map_some, evalKind, h.1.eval, hargs]

/-- A place evaluates alike with operands that do. -/
theorem evalPlace_map {id : ExprId} {k : ExprKind Expr}
    (h : ∀ e ∈ k.children, SameEval b b' (f e) e) (depth : Nat) :
    (node id (k.map f)).evalPlace b' depth = (node id k).evalPlace b depth := by
  cases k with
  | paren e => exact (h e (by simp [ExprKind.children])).evalPlace depth
  | field receiver =>
    cases receiver with
    | none => rfl
    | some e =>
      have he := h e (by simp [ExprKind.children])
      simp only [ExprKind.map, Option.map_some, evalPlace, he.eval]
  | index a i =>
    have ha := h a (by simp [ExprKind.children])
    have hi := h i (by simp [ExprKind.children])
    simp only [ExprKind.map, evalPlace, ha.eval, hi.eval]
  | _ => rfl

end Evaluation

namespace Mends

variable {c : Callee} {d e : Expr}

/-- Mending touches no local variable. -/
theorem localTarget? (h : d.Mends c e) : d.localTarget? = e.localTarget? := by
  induction h with
  | err => rfl
  | layer h ih => exact localTarget?_map ih

theorem staticTy (h : d.Mends c e) (env : TyEnv) : d.staticTy env = e.staticTy env := by
  induction h with
  | err => rfl
  | @layer id k f h ih =>
    simp only [ExprKind.children] at ih
    cases k with
    | lit | var | err | field | call | create | cast | instanceOf => rfl
    | unary | binary | conditional =>
      simp_all [ExprKind.map, staticTy_unary, staticTy_binary, staticTy_conditional]
    | _ => simp_all [ExprKind.map, Expr.staticTy]

theorem written (h : d.Mends c e) : d.written = e.written := by
  induction h with
  | err => rfl
  | @layer id k f h ih =>
    have htarget : (node id (k.map f)).target?.bind Expr.localTarget? =
        (node id k).target?.bind Expr.localTarget? := by
      rw [target?_map]
      cases ht : (node id k).target? with
      | none => rfl
      | some t => exact (h t (target?_mem_children ht)).localTarget?
    rw [written_node, written_node, htarget, ExprKind.children_map, List.flatMap_map]
    exact congrArg _ (List.flatMap_congr ih)

/-- A mended expression evaluates like the erroneous one. -/
theorem sameEval {b b' : Body} (hb : b.SameText b') (h : d.Mends c e) : SameEval b b' d e := by
  induction h with
  | @err id =>
    have heval : ∀ depth, (node id (.call none c [])).eval b' depth =
        (node id .err).eval b depth := by
      intro depth
      simp only [eval, evalKind, evalList, hb.exprSpan, pure_bind]
    exact ⟨rfl, heval, fun _ => rfl⟩
  | @layer id k f h ih =>
    have hty : (node id (k.map f)).staticTy b'.varTy = (node id k).staticTy b.varTy := by
      rw [hb.varTy]
      exact (Mends.layer h).staticTy b.varTy
    refine ⟨(Mends.layer h).localTarget?, fun depth => ?_, evalPlace_map ih⟩
    simp only [eval, hb.exprSpan, evalKind_map hb hty ih]

/-- A mended expression is walked like the erroneous one. -/
theorem sameWalks (h : d.Mends c e) : d.SameWalks e := by
  induction h with
  | err => exact ⟨rfl, rfl, fun _ _ => rfl, fun _ _ => rfl, fun _ _ => rfl, fun _ _ => rfl⟩
  | layer h ih => exact sameWalks_map ih

end Mends

end Expr

/-! ## Mended statements -/

namespace Stmt

/-- The second statement, with some expressions mended and, if `skips`, an empty statement in the
place of some statements that are erroneous. -/
inductive Mends (c : Callee) (skips : Prop) : Stmt → Stmt → Prop
  | layer {id : StmtId} {k : StmtKind Expr Stmt} {f : Expr → Expr} {g : Stmt → Stmt} :
    (∀ e ∈ k.exprChildren, (f e).Mends c e) → (∀ s ∈ k.stmtChildren, Mends c skips (g s) s) →
    Mends c skips (node id (k.map f g)) (node id k)
  | err {id : StmtId} : skips → Mends c skips (node id .empty) (node id .err)

variable {b b' : Body} {f : Expr → Expr} {g : Stmt → Stmt}

theorem evalList_map : ∀ {ss : List Stmt}, (∀ s ∈ ss, (g s).eval b' = s.eval b) →
    evalList b' (ss.map g) = evalList b ss
  | [], _ => rfl
  | s :: ss, h => by
    rw [List.forall_mem_cons] at h
    rw [List.map_cons, evalList, evalList, h.1, evalList_map h.2]

theorem evalCases_map {entry : Context} :
    ∀ {cs : List (SwitchCase Expr Stmt)},
      (∀ e ∈ cs.flatMap (·.labels), (f e).eval b' 0 = e.eval b 0) →
      (∀ s ∈ cs.flatMap (·.body), (g s).eval b' = s.eval b) →
      evalCases b' entry (cs.map fun c => ⟨c.span, c.labels.map f, c.body.map g⟩) =
        evalCases b entry cs
  | [], _, _ => rfl
  | c :: cs, hf, hg => by
    rw [List.flatMap_cons, List.forall_mem_append] at hf hg
    rw [List.map_cons, evalCases, evalCases, Expr.evalList_map hf.1, evalList_map hg.1,
      evalCases_map hf.2 hg.2]

theorem evalCatches_map {entry : Context} :
    ∀ {cs : List (CatchClause Stmt)}, (∀ s ∈ cs.flatMap (·.body), (g s).eval b' = s.eval b) →
      evalCatches b' entry (cs.map fun c => ⟨c.span, c.param, c.body.map g⟩) =
        evalCatches b entry cs
  | [], _ => rfl
  | c :: cs, h => by
    rw [List.flatMap_cons, List.forall_mem_append] at h
    rw [List.map_cons, evalCatches, evalCatches, evalList_map h.1, evalCatches_map h.2]

theorem evalOption_map {s : Option Stmt} (h : ∀ t ∈ s, (g t).eval b' = t.eval b) :
    evalOption b' (s.map g) = evalOption b s := by
  cases s with
  | none => rfl
  | some s => exact h s rfl

theorem runOption_map {e : Option Expr} (h : ∀ x ∈ e, (f x).eval b' 0 = x.eval b 0) :
    Expr.runOption b' (e.map f) = Expr.runOption b e := by
  cases e with
  | none => rfl
  | some e => simp only [Option.map_some, Expr.runOption, Expr.run, h e rfl]

/-- A layer evaluates alike with parts that do, if it writes the same locals. -/
theorem evalKind_map (hb : b.SameText b') {whole whole' : Stmt}
    (hw : whole'.written = whole.written) {k : StmtKind Expr Stmt}
    (hf : ∀ e ∈ k.exprChildren, (f e).eval b' 0 = e.eval b 0)
    (hg : ∀ s ∈ k.stmtChildren, (g s).eval b' = s.eval b) :
    evalKind b' whole' (k.map f g) = evalKind b whole k := by
  have hassign : Eval.assignLocal b' = Eval.assignLocal b := by
    unfold Eval.assignLocal
    rw [hb.varTy]
  cases k with
  | decl v init =>
    cases init with
    | none => simp only [StmtKind.map, Option.map_none, evalKind, hassign]
    | some e =>
      have he := hf e (by simp [StmtKind.exprChildren])
      simp only [StmtKind.map, Option.map_some, evalKind, hassign, he]
  | expr e | throw e =>
    have he := hf e (by simp [StmtKind.exprChildren])
    simp only [StmtKind.map, evalKind, Expr.run, he]
  | ret e => exact runOption_map fun x hx => hf x (by simpa [StmtKind.exprChildren] using hx)
  | block body => exact evalList_map hg
  | branch x t e =>
    have hx := hf x (by simp [StmtKind.exprChildren])
    have ht := hg t (by simp [StmtKind.stmtChildren])
    have he : evalOption b' (e.map g) = evalOption b e :=
      evalOption_map fun s hs => hg s (by simp_all [StmtKind.stmtChildren])
    simp only [StmtKind.map, evalKind, hx, ht, he]
  | assert x message =>
    have hx := hf x (by simp [StmtKind.exprChildren])
    have hm : Expr.runOption b' (message.map f) = Expr.runOption b message :=
      runOption_map fun y hy => hf y (by simp_all [StmtKind.exprChildren])
    simp only [StmtKind.map, evalKind, Expr.run, hx, hm]
  | whileLoop x body | doLoop body x | forEach v x body =>
    have hx := hf x (by simp [StmtKind.exprChildren])
    have hbody := hg body (by simp [StmtKind.stmtChildren])
    simp only [StmtKind.map, evalKind, Expr.run, hx, hbody, hw]
  | forLoop init x update body =>
    have hinit : evalList b' (init.map g) = evalList b init :=
      evalList_map fun s hs => hg s (by simp [StmtKind.stmtChildren, hs])
    have hx : Expr.runOption b' (x.map f) = Expr.runOption b x :=
      runOption_map fun y hy => hf y (by simp_all [StmtKind.exprChildren])
    have hupdate : Expr.evalList b' 0 (update.map f) = Expr.evalList b 0 update :=
      Expr.evalList_map fun y hy => hf y (by simp [StmtKind.exprChildren, hy])
    have hbody := hg body (by simp [StmtKind.stmtChildren])
    simp only [StmtKind.map, evalKind, hinit, hx, hupdate, hbody, hw]
  | switch selector cases =>
    rw [StmtKind.exprChildren, List.forall_mem_cons] at hf
    have hcases : ∀ entry, evalCases b' entry
        (cases.map fun c => ⟨c.span, c.labels.map f, c.body.map g⟩) = evalCases b entry cases :=
      fun entry => evalCases_map hf.2 hg
    simp only [StmtKind.map, evalKind, Expr.run, hf.1, hcases, hw]
  | guarded resources body catches finalizer =>
    rw [StmtKind.stmtChildren, List.forall_mem_append, List.forall_mem_append,
      List.forall_mem_append] at hg
    obtain ⟨⟨⟨hresources, hbody⟩, hcatches⟩, hfinal⟩ := hg
    have hcatches : ∀ entry, evalCatches b' entry
        (catches.map fun c => ⟨c.span, c.param, c.body.map g⟩) = evalCatches b entry catches :=
      fun entry => evalCatches_map hcatches
    cases finalizer with
    | none =>
      simp only [StmtKind.map, Option.map_none, evalKind, evalList_map hresources,
        evalList_map hbody, hcatches, hw]
    | some finalizer =>
      have hfinal : evalList b' (finalizer.map g) = evalList b finalizer := evalList_map hfinal
      simp only [StmtKind.map, Option.map_some, evalKind, evalList_map hresources,
        evalList_map hbody, hcatches, hfinal, hw]
  | breakOut | continueLoop | empty | err => rfl

/-- Walks over the two statements find and record the same. -/
structure SameWalks (all : IdSet) (rounds : Nat) (s' s : Stmt) : Prop where
  declared : s'.declaredVar? = s.declaredVar?
  liveIn : ∀ t o, s'.liveIn all rounds t o = s.liveIn all rounds t o
  liveEntries : ∀ t o, s'.liveEntries all rounds t o = s.liveEntries all rounds t o

section SameWalks

variable {all : IdSet} {rounds : Nat} {t : Targets}

theorem listIn_sameWalks : ∀ {ss : List Stmt} {o : IdSet},
    (∀ s ∈ ss, (g s).SameWalks all rounds s) →
      listIn all rounds t o (ss.map g) = listIn all rounds t o ss
  | [], _, _ => rfl
  | s :: ss, _, h => by
    rw [List.forall_mem_cons] at h
    rw [List.map_cons, listIn, listIn, listIn_sameWalks h.2, h.1.liveIn]

theorem listEntries_sameWalks : ∀ {ss : List Stmt} {o : IdSet},
    (∀ s ∈ ss, (g s).SameWalks all rounds s) →
      listEntries all rounds t o (ss.map g) = listEntries all rounds t o ss
  | [], _, _ => rfl
  | s :: ss, _, h => by
    rw [List.forall_mem_cons] at h
    rw [List.map_cons, listEntries, listEntries, listEntries_sameWalks h.2, h.1.liveEntries,
      listIn_sameWalks h.2]

theorem casesIn_sameWalks {o : IdSet} : ∀ {cs : List (SwitchCase Expr Stmt)},
    (∀ s ∈ cs.flatMap (·.body), (g s).SameWalks all rounds s) →
      casesIn all rounds t o (cs.map fun c => ⟨c.span, c.labels.map f, c.body.map g⟩) =
        casesIn all rounds t o cs
  | [], _ => rfl
  | c :: cs, h => by
    rw [List.flatMap_cons, List.forall_mem_append] at h
    simp only [List.map_cons, casesIn, casesIn_sameWalks h.2, listIn_sameWalks h.1]

theorem caseEntries_sameWalks {o : IdSet} : ∀ {cs : List (SwitchCase Expr Stmt)},
    (∀ s ∈ cs.flatMap (·.body), (g s).SameWalks all rounds s) →
      caseEntries all rounds t o (cs.map fun c => ⟨c.span, c.labels.map f, c.body.map g⟩) =
        caseEntries all rounds t o cs
  | [], _ => rfl
  | c :: cs, h => by
    rw [List.flatMap_cons, List.forall_mem_append] at h
    rw [List.map_cons, caseEntries, caseEntries, caseEntries_sameWalks h.2,
      casesIn_sameWalks h.2, listEntries_sameWalks h.1]

theorem catchesIn_sameWalks {o : IdSet} : ∀ {cs : List (CatchClause Stmt)},
    (∀ s ∈ cs.flatMap (·.body), (g s).SameWalks all rounds s) →
      catchesIn all rounds t o (cs.map fun c => ⟨c.span, c.param, c.body.map g⟩) =
        catchesIn all rounds t o cs
  | [], _ => rfl
  | c :: cs, h => by
    rw [List.flatMap_cons, List.forall_mem_append] at h
    rw [List.map_cons, catchesIn, catchesIn, catchesIn_sameWalks h.2, listIn_sameWalks h.1]

theorem catchEntries_sameWalks {o : IdSet} : ∀ {cs : List (CatchClause Stmt)},
    (∀ s ∈ cs.flatMap (·.body), (g s).SameWalks all rounds s) →
      catchEntries all rounds t o (cs.map fun c => ⟨c.span, c.param, c.body.map g⟩) =
        catchEntries all rounds t o cs
  | [], _ => rfl
  | c :: cs, h => by
    rw [List.flatMap_cons, List.forall_mem_append] at h
    rw [List.map_cons, catchEntries, catchEntries, catchEntries_sameWalks h.2,
      listEntries_sameWalks h.1]

theorem resourceVars_sameWalks {rs : List Stmt} (h : ∀ s ∈ rs, (g s).SameWalks all rounds s) :
    resourceVars (rs.map g) = resourceVars rs := by
  rw [resourceVars, resourceVars, List.filterMap_map]
  exact congrArg _ (List.filterMap_congr fun s hs => (h s hs).declared)

theorem conditionIn_sameWalks {e : Option Expr} (h : ∀ x ∈ e, (f x).SameWalks x)
    (p o bodyIn : IdSet) : conditionIn p o (e.map f) bodyIn = conditionIn p o e bodyIn := by
  cases e with
  | none => rfl
  | some e => exact (h e rfl).liveIn p _

/-- A layer is walked alike with parts that are. -/
theorem kindIn_sameWalks {k : StmtKind Expr Stmt} (hf : ∀ e ∈ k.exprChildren, (f e).SameWalks e)
    (hg : ∀ s ∈ k.stmtChildren, (g s).SameWalks all rounds s) (o : IdSet) :
    kindIn all rounds t o (k.map f g) = kindIn all rounds t o k ∧
      kindEntries all rounds t o (k.map f g) = kindEntries all rounds t o k := by
  cases k with
  | decl v init =>
    cases init with
    | none => exact ⟨rfl, rfl⟩
    | some e =>
      have he := hf e (by simp [StmtKind.exprChildren])
      simp [StmtKind.map, kindIn, kindEntries, Expr.listEntries, Expr.listIn, he.liveIn,
        he.liveEntries]
  | expr e | throw e =>
    have he := hf e (by simp [StmtKind.exprChildren])
    simp [StmtKind.map, kindIn, kindEntries, he.liveIn, he.liveEntries]
  | ret e =>
    cases e with
    | none => exact ⟨rfl, rfl⟩
    | some e =>
      have he := hf e (by simp [StmtKind.exprChildren])
      simp [StmtKind.map, kindIn, kindEntries, Expr.listEntries, Expr.listIn, he.liveIn,
        he.liveEntries]
  | block body => exact ⟨listIn_sameWalks hg, listEntries_sameWalks hg⟩
  | branch x a e =>
    have hx := hf x (by simp [StmtKind.exprChildren])
    have ha := hg a (by simp [StmtKind.stmtChildren])
    cases e with
    | none =>
      simp [StmtKind.map, kindIn, kindEntries, hx.liveIn, hx.liveEntries, ha.liveIn, ha.liveEntries]
    | some e =>
      have he := hg e (by simp [StmtKind.stmtChildren])
      simp [StmtKind.map, kindIn, kindEntries, hx.liveIn, hx.liveEntries, ha.liveIn,
        ha.liveEntries, he.liveIn, he.liveEntries]
  | assert x message =>
    have hx := hf x (by simp [StmtKind.exprChildren])
    have hm : ∀ y ∈ message.toList, (f y).SameWalks y :=
      fun y hy => hf y (List.mem_cons_of_mem _ hy)
    simp [StmtKind.map, kindIn, kindEntries, Option.toList_map, hx.liveIn, hx.liveEntries,
      Expr.listIn_sameWalks hm, Expr.listEntries_sameWalks hm]
  | whileLoop x body | doLoop body x | forEach v x body =>
    have hx := hf x (by simp [StmtKind.exprChildren])
    have hbody := hg body (by simp [StmtKind.stmtChildren])
    simp [StmtKind.map, kindIn, kindEntries, hx.liveIn, hx.liveEntries, hbody.liveIn,
      hbody.liveEntries]
  | forLoop init x update body =>
    rw [StmtKind.exprChildren, List.forall_mem_append] at hf
    rw [StmtKind.stmtChildren, List.forall_mem_append, List.forall_mem_singleton] at hg
    have hx := conditionIn_sameWalks fun y hy => hf.1 y (Option.mem_toList.2 hy)
    simp [StmtKind.map, kindIn, kindEntries, hx, Option.toList_map, Expr.listIn_sameWalks hf.2,
      Expr.listEntries_sameWalks hf.1, Expr.listEntries_sameWalks hf.2, hg.2.liveIn,
      hg.2.liveEntries, listIn_sameWalks hg.1, listEntries_sameWalks hg.1]
  | switch selector cases =>
    rw [StmtKind.exprChildren, List.forall_mem_cons] at hf
    have hlabels : labels (cases.map fun c => ⟨c.span, c.labels.map f, c.body.map g⟩) =
        (labels cases).map f := by
      rw [labels, labels, List.flatMap_map, List.map_flatMap]
    have hentry : ∀ o x, switchEntry o
        (cases.map fun c => ⟨c.span, c.labels.map f, c.body.map g⟩) x = switchEntry o cases x := by
      intro o x
      have hdefault : (cases.map fun c => ⟨c.span, c.labels.map f, c.body.map g⟩).any
          SwitchCase.isDefault = cases.any SwitchCase.isDefault := by
        rw [List.any_map]
        congr 1
        ext c
        exact List.isEmpty_map
      rw [switchEntry, switchEntry, hdefault]
    have hl : ∀ e ∈ labels cases, (f e).SameWalks e := hf.2
    simp [StmtKind.map, kindIn, kindEntries, hlabels, hentry, hf.1.liveIn, hf.1.liveEntries,
      Expr.listIn_sameWalks hl, Expr.listEntries_sameWalks hl, casesIn_sameWalks hg,
      caseEntries_sameWalks hg]
  | guarded resources body catches finalizer =>
    rw [StmtKind.stmtChildren, List.forall_mem_append, List.forall_mem_append,
      List.forall_mem_append] at hg
    obtain ⟨⟨⟨hresources, hbody⟩, hcatches⟩, hfinal⟩ := hg
    cases finalizer with
    | none =>
      simp [StmtKind.map, kindIn, kindEntries, resourceVars_sameWalks hresources,
        listIn_sameWalks hresources, listEntries_sameWalks hresources, listIn_sameWalks hbody,
        listEntries_sameWalks hbody, catchesIn_sameWalks hcatches, catchEntries_sameWalks hcatches]
    | some finalizer =>
      rw [Option.getD_some] at hfinal
      simp [StmtKind.map, kindIn, kindEntries, resourceVars_sameWalks hresources,
        listIn_sameWalks hresources, listEntries_sameWalks hresources, listIn_sameWalks hbody,
        listEntries_sameWalks hbody, catchesIn_sameWalks hcatches, catchEntries_sameWalks hcatches,
        listIn_sameWalks hfinal, listEntries_sameWalks hfinal]
  | breakOut | continueLoop | empty | err => exact ⟨rfl, rfl⟩

end SameWalks

namespace Mends

variable {c : Callee} {skips : Prop} {s s' : Stmt}

/-- A mended statement writes the same locals. -/
theorem written (h : s'.Mends c skips s) : s'.written = s.written := by
  refine congrArg IdSet.ofList ?_
  induction h with
  | err => rfl
  | @layer id k f g hf _ ih =>
    have hdeclared : (k.map f g).declared = k.declared := by
      cases k with
      | guarded => simp only [StmtKind.map, StmtKind.declared, List.map_map, Function.comp_def]
      | _ => rfl
    simp only [substmts, substmtsOfKind_eq, List.flatMap_cons, kind, hdeclared,
      StmtKind.exprChildren_map, StmtKind.stmtChildren_map, List.flatMap_map, List.flatMap_assoc]
    rw [List.flatMap_congr fun e he => (hf e he).written]
    exact congrArg _ (List.flatMap_congr ih)

/-- A mended statement evaluates like the erroneous one. -/
theorem eval {b b' : Body} (hb : b.SameText b') (h : s'.Mends c skips s) :
    s'.eval b' = s.eval b := by
  induction h with
  | err => simp only [Stmt.eval, Stmt.evalKind, hb.stmtSpan]
  | @layer id k f g hf hg ih =>
    have hw : (node id (k.map f g)).written = (node id k).written := (Mends.layer hf hg).written
    simp only [Stmt.eval, hb.stmtSpan]
    rw [evalKind_map hb hw (fun e he => ((hf e he).sameEval hb).eval 0) ih]

/-- A statement with mended expressions is walked like the erroneous one. -/
theorem sameWalks (h : s'.Mends c False s) (all : IdSet) (rounds : Nat) :
    s'.SameWalks all rounds s := by
  induction h with
  | err hskips => exact hskips.elim
  | @layer id k f g hf hg ih =>
    have hk := @kindIn_sameWalks f g all rounds
    have hin : ∀ t o, (node id (k.map f g)).liveIn all rounds t o =
        (node id k).liveIn all rounds t o := fun t o =>
      congrArg (· ∪ t.protect) (hk (fun e he => (hf e he).sameWalks) ih o).1
    refine ⟨?_, hin, fun t o => ?_⟩
    · cases k <;> rfl
    · rw [liveEntries, liveEntries, hin, (hk (fun e he => (hf e he).sameWalks) ih o).2]

end Mends

end Stmt

end Midend
