import Midend.Proofs.Machine.Basic
import Midend.Proofs.Run.Keeps
import Midend.Proofs.Tree.Written

/-!
# Invariants of the machine

A run of a body keeps what each of its writes keeps: those to locals, and those of
the host to the heap (`Expr.exec_keeps`, `Stmt.KeepsOwn.keepsAt`). Among them is the invariant that
nothing changes outside the locals that are said to be written
(`Expr.exec_frame`, `Stmt.keepsOwn_frames`).
-/

namespace Midend

open Run Exec

variable {H : Type} {b : Body} {host : Host H} {J : Machine H → Prop} {E : Event → Prop}

/-! ## Steps -/

namespace Exec

variable {α : Type}

theorem asks_keeps {R : H → Option α → Prop} : Keeps J E (asks R) := by
  refine .step fun m r m' h hm => ?_
  rw [h.2]
  exact hm

/-- An act of the host keeps what its heap keeps. -/
theorem acts_keeps {R : H → Option α → H → Prop}
    (h : ∀ m r t, R m.heap r t → J m → J { m with heap := t }) : Keeps J E (acts R) := by
  refine .step fun m r m' hr hm => ?_
  obtain ⟨t, hr, rfl⟩ := hr
  exact h m r t hr hm

theorem readLocal_keeps {v : VarId} : Keeps J E (readLocal v) := by
  refine .step fun m r m' h hm => ?_
  rw [h.2]
  exact hm

/-- A write keeps what no write of the local breaks. -/
theorem writeLocal_keeps {v : VarId} {d : Concrete} (h : ∀ m d, J m → J (m.set v d)) :
    Keeps J E (writeLocal v d) := by
  refine .step fun m r m' hr hm => ?_
  rw [hr.2]
  exact h m d hm

theorem scramble_keeps {v : VarId} (h : ∀ m d, J m → J (m.set v d)) :
    Keeps J E (scramble v) := by
  refine .step fun m r m' hr hm => ?_
  obtain ⟨-, d, rfl⟩ := hr
  exact h m d hm

/-- Applying an operation changes nothing. -/
theorem apply_keeps {op : Operation} {ds : List Concrete} : Keeps J E (apply host op ds) := by
  unfold apply
  split
  · exact .pure
  · exact .throw
  · exact asks_keeps

theorem truth_keeps {d : Concrete} : Keeps J E (truth host d) := by
  refine apply_keeps.bind fun d => ?_
  split
  · exact .pure
  · exact .throw

/-- A conversion to the type of a local changes nothing. -/
theorem inTypeOf_keeps {v : VarId} {d : Concrete} : Keeps J E (inTypeOf b host v d) := by
  unfold inTypeOf
  split
  · exact apply_keeps
  · exact .pure

/-- An assignment of a local writes it and nothing else. -/
theorem assignLocal_keeps {v : VarId} {d : Concrete} (h : ∀ m d, J m → J (m.set v d)) :
    Keeps J E (assignLocal b host v d) :=
  inTypeOf_keeps.bind fun _ => (writeLocal_keeps h).bind fun _ => .pure

/-- Writing to a local, or else to any place, keeps the invariant. -/
def PreservesTarget (host : Host H) (J : Machine H → Prop) : Option VarId → Prop
  | some v => ∀ m d, J m → J (m.set v d)
  | none => ∀ place d m r h, host.store place d m.heap r h → J m → J { m with heap := h }

/-- An assignment keeps what its target and its parts keep. -/
theorem assign_keeps {place : Exec H Place} {value : Exec H Concrete} (hp : Keeps J E place)
    (hv : Keeps J E value) :
    ∀ {target : Option VarId} {op : Option BinOp}, PreservesTarget host J target →
      Keeps J E (assign b host target op place value)
  | some _, none, h => hv.bind fun _ => assignLocal_keeps h
  | some _, some _, h =>
    readLocal_keeps.bind fun _ => hv.bind fun _ => apply_keeps.bind fun _ => assignLocal_keeps h
  | none, none, h => hp.bind fun _ => hv.bind fun _ => acts_keeps (h _ _)
  | none, some _, h =>
    hp.bind fun _ => asks_keeps.bind fun _ => hv.bind fun _ => apply_keeps.bind fun _ =>
      acts_keeps (h _ _)

/-- A step keeps what its target and its place keep. -/
theorem step_keeps {place : Exec H Place} {st : Step} (hp : Keeps J E place) :
    ∀ {target : Option VarId}, PreservesTarget host J target →
      Keeps J E (step b host target st place)
  | some _, h =>
    readLocal_keeps.bind fun _ => apply_keeps.bind fun _ =>
      (assignLocal_keeps h).bind fun _ => .pure
  | none, h =>
    hp.bind fun _ => asks_keeps.bind fun _ => apply_keeps.bind fun _ =>
      (acts_keeps (h _ _)).bind fun _ => .pure

/-- A connective keeps what both operands keep. -/
theorem logic_keeps {op : LogicOp} {left right : Exec H Concrete} (hl : Keeps J E left)
    (hr : Keeps J E right) : Keeps J E (logic host op left right) :=
  hl.bind fun _ => truth_keeps.bind fun _ => .ite .pure (hr.bind fun _ => apply_keeps)

/-- A conditional keeps what its three parts keep. -/
theorem branch_keeps {cond : Exec H Concrete} {x y : Exec H α} (hc : Keeps J E cond)
    (hx : Keeps J E x) (hy : Keeps J E y) : Keeps J E (branch host cond x y) :=
  hc.bind fun _ => truth_keeps.bind fun _ => .ite hx hy

theorem promote_keeps {ty : Option Ty} {d : Concrete} : Keeps J E (promote host ty d) := by
  unfold promote
  split
  · exact .ite apply_keeps .pure
  · exact .pure

end Exec

/-! ## Expressions -/

/-- What a layer itself writes keeps the invariant. -/
def Host.Preserves (host : Host H) (J : Machine H → Prop) : ExprKind Expr → Prop
  | .assign target .. | .unary (.step _) target => PreservesTarget host J target.localTarget?
  | .call _ callee _ =>
    ∀ receiver ds m r h, host.call callee receiver ds m.heap r h → J m → J { m with heap := h }
  | .create ty args =>
    ∀ ds m r h, ds.length = args.length → host.create ty ds m.heap r h → J m →
      J { m with heap := h }
  | _ => True

namespace Expr

/-- What an expression itself writes keeps the invariant, and so does showing its value. -/
structure KeepsOwn (b : Body) (host : Host H) (J : Machine H → Prop) (E : Event → Prop)
    (e : Expr) : Prop where
  writes : host.Preserves J e.kind
  value : ∀ {m tr d m'}, J m → kindExec b host e.id e.kind m tr (.done d) m' → E (.value e d)

/-- Each argument gives one value. -/
theorem length_listExec :
    ∀ {es : List Expr} {m : Machine H} {tr : List Event} {ds : List Concrete} {m' : Machine H},
      listExec b host es m tr (.done ds) m' → ds.length = es.length
  | [], _, _, _, _, h => by
    cases h
    rfl
  | e :: es, _, _, _, _, h => by
    obtain ⟨_, ⟨h, ⟨⟩⟩⟩ := h
    exact congrArg Nat.succ (length_listExec h)

mutual

/-- An expression keeps what its writes and those of its operands keep. -/
theorem exec_keeps :
    ∀ {e : Expr}, (∀ s ∈ e.subexprs, s.KeepsOwn b host J E) → Keeps J E (e.exec b host)
  | node id kind, h => by
    have hk := h (node id kind) (by simp [subexprs])
    rw [exec]
    refine .hazardous (Keeps.bind_of ?_ fun hm hd => ?_)
    · exact kindExec_keeps id hk.writes fun s hs => h s (by simp [subexprs, hs])
    · exact (Keeps.emit (hk.value hm hd)).bind fun _ => .pure

/-- One case for each form of expression. -/
theorem kindExec_keeps (id : ExprId) :
    ∀ {k : ExprKind Expr}, host.Preserves J k →
      (∀ s ∈ subexprsOfKind k, s.KeepsOwn b host J E) → Keeps J E (kindExec b host id k)
  | .lit _, _, _ => .pure
  | .var _, _, _ => readLocal_keeps
  | .paren _, _, h => exec_keeps h
  | .assign target op value, hw, h => by
    simp only [subexprsOfKind, List.mem_append] at h
    have ht := placeExec_keeps fun s hs => h s (.inl hs)
    have hv := exec_keeps fun s hs => h s (.inr hs)
    exact assign_keeps ht hv hw
  | .binary l (.logic op) r, _, h => by
    simp only [subexprsOfKind, List.mem_append] at h
    have hl := exec_keeps fun s hs => h s (.inl hs)
    have hr := exec_keeps fun s hs => h s (.inr hs)
    exact logic_keeps hl hr
  | .binary l (.arith _) r, _, h | .binary l (.shift _) r, _, h | .binary l (.bits _) r, _, h
  | .binary l (.order _) r, _, h | .binary l (.equality _) r, _, h => by
    simp only [subexprsOfKind, List.mem_append] at h
    have hl := exec_keeps fun s hs => h s (.inl hs)
    have hr := exec_keeps fun s hs => h s (.inr hs)
    exact hl.bind fun _ => hr.bind fun _ => apply_keeps
  | .unary (.step st) operand, hw, h => step_keeps (placeExec_keeps h) hw
  | .unary .not _, _, h | .unary .neg _, _, h | .unary .plus _, _, h | .unary .bitNot _, _, h
  | .cast _ _, _, h | .instanceOf _ _, _, h => (exec_keeps h).bind fun _ => apply_keeps
  | .conditional c t f, _, h => by
    simp only [subexprsOfKind, List.mem_append] at h
    have hc := exec_keeps fun s hs => h s (.inl hs)
    have ht := exec_keeps fun s hs => h s (.inr (.inl hs))
    have hf := exec_keeps fun s hs => h s (.inr (.inr hs))
    exact branch_keeps hc (ht.bind fun _ => promote_keeps) (hf.bind fun _ => promote_keeps)
  | .field none .., _, _ => asks_keeps
  | .field (some _) .., _, h => (exec_keeps h).bind fun _ => asks_keeps
  | .index a i, _, h => by
    simp only [subexprsOfKind, List.mem_append] at h
    have ha := exec_keeps fun s hs => h s (.inl hs)
    have hi := exec_keeps fun s hs => h s (.inr hs)
    exact ha.bind fun _ => hi.bind fun _ => asks_keeps
  | .call none _ args, hw, h => (listExec_keeps h).bind fun _ => acts_keeps (hw _ _)
  | .call (some e) _ args, hw, h => by
    simp only [subexprsOfKind, List.mem_append] at h
    have he := exec_keeps fun s hs => h s (.inl hs)
    have ha := listExec_keeps fun s hs => h s (.inr hs)
    exact he.bind fun _ => ha.bind fun _ => acts_keeps (hw _ _)
  | .create ty args, hw, h =>
    (listExec_keeps h).bind_of fun _ hd =>
      acts_keeps fun m r t => hw _ m r t (length_listExec hd)
  | .err, _, _ => by
    rw [kindExec]
    exact asks_keeps

/-- The parts of a place are run like expressions. -/
theorem placeExec_keeps :
    ∀ {e : Expr}, (∀ s ∈ e.subexprs, s.KeepsOwn b host J E) → Keeps J E (e.placeExec b host)
  | node _ kind, h => by
    have hk := fun s hs => h s (List.mem_cons_of_mem _ hs)
    cases kind with
    | paren inner =>
      rw [placeExec]
      exact placeExec_keeps hk
    | field receiver name isStatic =>
      cases receiver with
      | none => exact .pure
      | some e => exact (exec_keeps hk).bind fun _ => .pure
    | index a i =>
      simp only [subexprsOfKind, List.mem_append] at hk
      have ha := exec_keeps fun s hs => hk s (.inl hs)
      have hi := exec_keeps fun s hs => hk s (.inr hs)
      exact ha.bind fun _ => hi.bind fun _ => .pure
    | _ => exact .throw

theorem listExec_keeps :
    ∀ {es : List Expr}, (∀ s ∈ subexprsOfList es, s.KeepsOwn b host J E) →
      Keeps J E (listExec b host es)
  | [], _ => .pure
  | e :: es, h => by
    simp only [subexprsOfList, List.mem_append] at h
    have he := exec_keeps fun s hs => h s (.inl hs)
    have hes := listExec_keeps fun s hs => h s (.inr hs)
    exact he.bind fun _ => hes.bind fun _ => .pure

end

/-- Entering an expression reports it and runs it. -/
theorem enter_keeps {e : Expr} (h : ∀ s ∈ e.subexprs, s.KeepsOwn b host J E)
    (he : ∀ m, J m → E (.enter e m.locals)) : Keeps J E (e.enter b host) :=
  (Keeps.report he).bind fun _ => exec_keeps h

end Expr

/-! ## Statements -/

namespace Stmt

/-- The next element advances the iterator and stores into the variable. -/
theorem next_keeps {v : VarId} {iterable : Expr}
    (ha : ∀ m r h, host.advance (iterable.staticTy b.varTy) m.heap r h → J m →
      J { m with heap := h })
    (hv : ∀ m d, J m → J (m.set v d)) : Keeps J E ((machine b host).next v iterable) := by
  refine .hazardous ((acts_keeps ha).bind fun d => ?_)
  cases d with
  | none => exact .pure
  | some d => exact (writeLocal_keeps hv).bind fun _ => .pure

/-- Closing a resource changes the heap at most. -/
theorem close_keeps {v : VarId}
    (h : ∀ d m r t, host.close (b.varTy v) d m.heap r t → J m → J { m with heap := t }) :
    Keeps J E ((machine b host).close v) :=
  .hazardous (readLocal_keeps.bind fun d => acts_keeps (h d))

/-- What a statement itself writes keeps the invariant, and so do the expressions it evaluates and
what it shows. -/
structure KeepsOwn (b : Body) (host : Host H) (J : Machine H → Prop) (E : Event → Prop)
    (k : StmtKind Expr Stmt) : Prop where
  exprs : ∀ e ∈ k.exprChildren, ∀ s ∈ e.subexprs, s.KeepsOwn b host J E
  enter : ∀ e ∈ k.exprChildren, ∀ m, J m → E (.enter e m.locals)
  declared : ∀ v ∈ k.declared, ∀ m d, J m → J (m.set v d)
  advance : ∀ {v iterable body}, k = .forEach v iterable body →
    ∀ m r h, host.advance (iterable.staticTy b.varTy) m.heap r h → J m → J { m with heap := h }
  close : ∀ {resources body catches finalizer}, k = .guarded resources body catches finalizer →
    ∀ v ∈ resources.filterMap declaredVar?, ∀ d m r h,
      host.close (b.varTy v) d m.heap r h → J m → J { m with heap := h }
  not_err : k ≠ .err

namespace KeepsOwn

variable {k : StmtKind Expr Stmt}

theorem eval (h : KeepsOwn b host J E k) {e : Expr} (he : e ∈ k.exprChildren) :
    Keeps J E ((machine b host).eval e) :=
  (Expr.enter_keeps (h.exprs e he) (h.enter e he)).bind fun _ => .pure

theorem test (h : KeepsOwn b host J E k) {e : Expr} (he : e ∈ k.exprChildren) :
    Keeps J E ((machine b host).test e) :=
  (Expr.enter_keeps (h.exprs e he) (h.enter e he)).bind fun _ => truth_keeps

/-- Whatever the own parts of a statement keep, its layer keeps. -/
theorem keepsAt : ∀ {k : StmtKind Expr Stmt}, KeepsOwn b host J E k →
    (machine b host).KeepsAt J E k
  | .decl v none, h => scramble_keeps (h.declared v (by simp [StmtKind.declared]))
  | .decl v (some e), h => by
    have he : e ∈ (.decl v (some e) : StmtKind Expr Stmt).exprChildren := by
      simp [StmtKind.exprChildren]
    have hv := h.declared v (by simp [StmtKind.declared])
    exact (Expr.enter_keeps (h.exprs e he) (h.enter e he)).bind fun _ =>
      (assignLocal_keeps hv).bind fun _ => .pure
  | .expr _, h | .throw _, h => h.eval (by simp [StmtKind.exprChildren])
  | .branch .., h | .whileLoop .., h | .doLoop .., h => h.test (by simp [StmtKind.exprChildren])
  | .forLoop _ c update _, h => by
    refine ⟨fun e he => h.test ?_, fun e he => h.eval ?_⟩
    · simp [StmtKind.exprChildren, Option.mem_def.1 he]
    · simp [StmtKind.exprChildren, he]
  | .forEach v iterable _, h => by
    refine ⟨h.eval (by simp [StmtKind.exprChildren]), next_keeps (h.advance rfl) ?_⟩
    exact h.declared v (by simp [StmtKind.declared])
  | .switch _ cases, h => by
    refine ⟨h.eval (by simp [StmtKind.exprChildren]), fun e he => h.eval ?_⟩
    exact List.mem_cons_of_mem _ he
  | .guarded resources _ catches _, h => by
    refine ⟨fun v hv => close_keeps (h.close rfl v hv), fun c hc => scramble_keeps ?_⟩
    exact h.declared c.param (List.mem_map_of_mem hc)
  | .assert _ message, h => by
    refine ⟨h.test (by simp [StmtKind.exprChildren]), fun e he => h.eval ?_⟩
    simp [StmtKind.exprChildren, Option.mem_def.1 he]
  | .ret e, h => fun x hx => h.eval (by simp [StmtKind.exprChildren, Option.mem_def.1 hx])
  | .block _, _ | .breakOut, _ | .continueLoop, _ | .empty, _ => trivial
  | .err, h => absurd rfl h.not_err

end KeepsOwn

end Stmt

/-! ## Locals that are not written -/

/-- Outside `w` the locals are those of `x`. -/
def Machine.Frames (w : IdSet) (x : Locals) (m : Machine H) : Prop :=
  ∀ v, v ∉ w → m.locals v = x v

/-- A machine whose locals are as they were is framed. -/
theorem Machine.frames_of_eq {w : IdSet} {x : Locals} (m : Machine H) (h : m.locals = x) :
    m.Frames w x := by
  intro v _
  rw [h]

/-- Writing a variable of the frame keeps the others. -/
theorem Machine.Frames.set {w : IdSet} {x : Locals} {m : Machine H} {v : VarId}
    (h : m.Frames w x) (hv : v ∈ w) (d : Concrete) : (m.set v d).Frames w x := by
  intro u hu
  have hne : u ≠ v := fun heq => hu (heq ▸ hv)
  rw [Machine.locals_set, if_neg hne]
  exact h u hu

section Frames

variable {w : IdSet} {x : Locals}

/-- An assignment to a variable of the frame keeps the others. -/
theorem preservesTarget_frames :
    ∀ {target : Option VarId}, (∀ v ∈ target, v ∈ w) →
      PreservesTarget host (Machine.Frames w x) target
  | some v, h => fun _ d hm => hm.set (h v rfl) d
  | none, _ => fun _ _ _ _ _ _ hm => hm

/-- An expression writes only the locals it is said to write. -/
theorem Expr.keepsOwn_frames {s : Expr} (hw : AssignsIn w s.kind) (hE : ∀ d, E (.value s d)) :
    s.KeepsOwn b host (Machine.Frames w x) E := by
  refine ⟨?_, fun _ _ => hE _⟩
  obtain ⟨id, kind⟩ := s
  change AssignsIn w kind at hw
  change host.Preserves _ kind
  cases kind with
  | assign t op r => exact preservesTarget_frames hw
  | unary op t =>
    cases op with
    | step st => exact preservesTarget_frames hw
    | _ => trivial
  | call receiver callee args => exact fun _ _ _ _ _ _ hm => hm
  | create ty args => exact fun _ _ _ _ _ _ hm => hm
  | _ => trivial

/-- An expression changes no local but those it writes. -/
theorem Expr.exec_frame {e : Expr} (hw : ∀ v ∈ e.written, v ∈ w)
    (hE : ∀ s ∈ e.subexprs, ∀ d, E (.value s d)) :
    Keeps (Machine.Frames w x) E (e.exec b host) :=
  exec_keeps fun s hs => keepsOwn_frames (assignsIn_of_written hw s hs) (hE s hs)

theorem Stmt.keepsOwn_frames {k : StmtKind Expr Stmt} (hw : AssignsIn w k) (hk : k ≠ .err) :
    KeepsOwn b host (Machine.Frames w x) (fun _ => True) k where
  exprs e he s hs :=
    Expr.keepsOwn_frames (Expr.assignsIn_of_written (hw.2 e he) s hs) fun _ => trivial
  enter _ _ _ _ := trivial
  declared v hv _ d hm := hm.set (hw.1 v hv) d
  advance _ _ _ _ _ hm := hm
  close _ _ _ _ _ _ _ _ hm := hm
  not_err := hk

end Frames

end Midend
