import Midend.Eval.Expr
import Midend.Proofs.Run.Stmt

/-!
# A machine for bodies

The machine runs a body on locals and a heap. Operators on constants are those of
`Literal.unary` and `Literal.binary`, an assignment to a local converts to its
declared primitive type, and a conditional expression to its static type if that
is a numeric primitive type. Whatever else there is, objects, the heap and other
methods, is left to a `Host`, which may answer in any way and may throw.

A run shows where the evaluation of an expression of a statement starts, with the
locals it finds (`Event.enter`), and every value that is computed
(`Event.value`). It may throw or be left at every point of an expression.
-/

namespace Midend

/-- What a variable holds when the program runs. -/
inductive Concrete where
  | const (l : Literal)
  /-- A reference to an object. -/
  | object (id : Nat)
deriving DecidableEq

instance : Inhabited Concrete := ⟨.const .null⟩

/-- A field or an array element. -/
inductive Place where
  | field (receiver : Option Concrete) (name : String) (isStatic : Bool)
  | element (array index : Concrete)
deriving Inhabited

/-- What is computed from values alone. -/
inductive Operation where
  | unary (op : UnOp)
  | binary (op : BinOp)
  /-- The conversion of an assignment or a conditional expression. -/
  | convert (p : PrimTy)
  /-- A condition is tested. -/
  | truth
  | cast (ty : Ty)
  | instanceOf (ty : Ty)

/-- The result of an operation on constants, none if it fails. Where constants do not decide it
there is no answer. -/
def Operation.onConstants : Operation → List Concrete → Option (Option Literal)
  | unary op, [.const a] => some (Literal.unary op a).toOption
  | binary op, [.const a, .const b] => some (Literal.binary op a b).toOption
  | convert p, [.const a] => (Literal.convert p a).map some
  | truth, [.const (.bool b)] => some (some (.bool b))
  | truth, [.const _] => some none
  | _, _ => none

/-- What objects, the heap and other methods do, as far as a body can see: the result, none if they
throw, and the heap that is left. -/
structure Host (H : Type) where
  compute : Operation → List Concrete → Option Concrete → Prop
  load : Place → H → Option Concrete → Prop
  /-- The result is the value that the place then holds. -/
  store : Place → Concrete → H → Option Concrete → H → Prop
  call : Callee → Option Concrete → List Concrete → H → Option Concrete → H → Prop
  create : Ty → List Concrete → H → Option Concrete → H → Prop
  /-- Steps through an iterable of the given static type to the next element, if there is one. -/
  advance : Option Ty → H → Option (Option Concrete) → H → Prop
  /-- Closes a resource of the given declared type. -/
  close : Option Ty → Concrete → H → Option Unit → H → Prop

/-- What each local holds. -/
abbrev Locals := VarId → Concrete

/-- A host that answers nothing. -/
def Host.absent : Host Unit where
  compute _ _ _ := False
  load _ _ _ := False
  store _ _ _ _ _ := False
  call _ _ _ _ _ _ := False
  create _ _ _ _ _ := False
  advance _ _ _ _ := False
  close _ _ _ _ _ := False

/-- The state of a run. -/
structure Machine (H : Type) where
  locals : Locals
  heap : H

namespace Machine

variable {H : Type}

/-- The state after an assignment to a local. -/
def set (m : Machine H) (v : VarId) (d : Concrete) : Machine H :=
  { m with locals := fun w => if w = v then d else m.locals w }

@[simp] theorem locals_set (m : Machine H) (v w : VarId) (d : Concrete) :
    (m.set v d).locals w = if w = v then d else m.locals w := rfl

@[simp] theorem heap_set (m : Machine H) (v : VarId) (d : Concrete) :
    (m.set v d).heap = m.heap := rfl

end Machine

/-- What a run shows. -/
inductive Event where
  /-- A statement comes to one of its expressions. -/
  | enter (e : Expr) (locals : Locals)
  /-- An expression has a value. -/
  | value (e : Expr) (d : Concrete)

/-- The runs of a part of a body. -/
abbrev Exec (H α : Type) := Run (Machine H) Event α

namespace Exec

variable {H α : Type} (b : Body) (host : Host H)

/-! ## Steps -/

/-- A step of the host that reads the heap. -/
def asks (R : H → Option α → Prop) : Exec H α :=
  Run.Step fun m r m' => R m.heap r ∧ m' = m

/-- A step of the host that may change the heap. -/
def acts (R : H → Option α → H → Prop) : Exec H α :=
  Run.Step fun m r m' => ∃ h, R m.heap r h ∧ m' = { m with heap := h }

/-- Reads a local. -/
def readLocal (v : VarId) : Exec H Concrete :=
  Run.Step fun m r m' => r = some (m.locals v) ∧ m' = m

/-- Reading a local has one outcome and changes nothing. -/
theorem readLocal_iff {v : VarId} {m m' : Machine H} {tr : List Event} {r : Ending Concrete} :
    readLocal v m tr r m' ↔ tr = [] ∧ r = .done (m.locals v) ∧ m' = m := by
  constructor
  · rintro (h | h)
    · obtain ⟨⟨⟩, rfl⟩ := h
      exact ⟨rfl, rfl, rfl⟩
    · exact nomatch h.1
  · rintro ⟨rfl, rfl, rfl⟩
    exact .done ⟨rfl, rfl⟩

/-- Assigns to a local. -/
def writeLocal (v : VarId) (d : Concrete) : Exec H Unit :=
  Run.Step fun m r m' => r = some () ∧ m' = m.set v d

/-- Writing a local has one outcome. -/
theorem writeLocal_iff {v : VarId} {d : Concrete} {m m' : Machine H} {tr : List Event}
    {r : Ending Unit} : writeLocal v d m tr r m' ↔ tr = [] ∧ r = .done () ∧ m' = m.set v d := by
  constructor
  · rintro (h | h)
    · exact ⟨rfl, rfl, h.2⟩
    · exact nomatch h.1
  · rintro ⟨rfl, rfl, rfl⟩
    exact .done ⟨rfl, rfl⟩

/-- Leaves any value in a local. -/
def scramble (v : VarId) : Exec H Unit :=
  Run.Step fun m r m' => r = some () ∧ ∃ d, m' = m.set v d

/-- Applies an operation. -/
def apply (op : Operation) (ds : List Concrete) : Exec H Concrete :=
  match op.onConstants ds with
  | some (some l) => pure (.const l)
  | some none => Run.Throw
  | none => asks fun _ r => host.compute op ds r

/-- Tests a condition. -/
def truth (d : Concrete) : Exec H Bool := do
  match ← apply host .truth [d] with
  | .const (.bool b) => return b
  | _ => Run.Throw

/-- What a local of the body holds after it is assigned: the value in its declared type. -/
def inTypeOf (v : VarId) (d : Concrete) : Exec H Concrete :=
  match primOf (b.varTy v) with
  | some p => apply host (.convert p) [d]
  | none => pure d

/-- Assigns to a local; the result is the value assigned. -/
def assignLocal (v : VarId) (d : Concrete) : Exec H Concrete := do
  let d ← inTypeOf b host v d
  writeLocal v d
  return d

/-- Assigns to a local, or else to the place where `place` leads. -/
def assign (target : Option VarId) (op : Option BinOp) (place : Exec H Place)
    (value : Exec H Concrete) : Exec H Concrete :=
  match target, op with
  | some v, none => do assignLocal b host v (← value)
  | some v, some op => do
    let old ← readLocal v
    let r ← value
    assignLocal b host v (← apply host (.binary op) [old, r])
  | none, none => do
    let place ← place
    let d ← value
    acts (host.store place d)
  | none, some op => do
    let place ← place
    let old ← asks (host.load place)
    let r ← value
    let d ← apply host (.binary op) [old, r]
    acts (host.store place d)

/-- What a step leaves in place of the value `old`. -/
def stepped (st : Step) (old : Concrete) : Exec H Concrete :=
  apply host (.binary (.arith (if st.increments then .add else .sub))) [old, .const (.int 1)]

/-- Increments or decrements a local, or else the place where `place` leads. -/
def step (target : Option VarId) (st : Step) (place : Exec H Place) : Exec H Concrete :=
  match target with
  | some v => do
    let old ← readLocal v
    let new ← assignLocal b host v (← stepped host st old)
    return if st.after then old else new
  | none => do
    let place ← place
    let old ← asks (host.load place)
    let d ← stepped host st old
    let new ← acts (host.store place d)
    return if st.after then old else new

/-- An operator that evaluates its right operand only where the left one does not decide. -/
def logic (op : LogicOp) (left right : Exec H Concrete) : Exec H Concrete := do
  let x ← left
  if (← truth host x) = op.deciding then return .const (.bool op.deciding)
  else apply host (.binary (.logic op)) [x, ← right]

/-- Goes one way or the other by a condition. -/
def branch {α : Type} (cond : Exec H Concrete) (onTrue onFalse : Exec H α) : Exec H α := do
  if ← truth host (← cond) then onTrue else onFalse

/-- Converts the result of a conditional expression of the given type. -/
def promote (ty : Option Ty) (d : Concrete) : Exec H Concrete :=
  match ty with
  | some (.prim p) => if p.isNumeric then apply host (.convert p) [d] else pure d
  | _ => pure d

end Exec

/-! ## Expressions -/

namespace Expr

variable {H : Type} (b : Body) (host : Host H)

open Exec

mutual

/-- The runs of an expression, whose results are its values. -/
def exec : Expr → Exec H Concrete
  | node id kind => Run.hazardous do
    let d ← kindExec id kind
    Run.Emit (.value (node id kind) d)
    return d

/-- The execution of a layer. -/
def kindExec (id : ExprId) : ExprKind Expr → Exec H Concrete
  | .lit l => pure (.const l)
  | .var v => readLocal v
  | .paren inner => inner.exec
  | .assign target op value =>
    assign b host target.localTarget? op target.placeExec value.exec
  | .binary l (.logic op) r => logic host op l.exec r.exec
  | .binary l op r => do
    let x ← l.exec
    let y ← r.exec
    apply host (.binary op) [x, y]
  | .unary (.step st) operand => step b host operand.localTarget? st operand.placeExec
  | .unary op operand => do apply host (.unary op) [← operand.exec]
  | .conditional c t f =>
    let ty := (node id (.conditional c t f)).staticTy b.varTy
    branch host c.exec (do promote host ty (← t.exec)) (do promote host ty (← f.exec))
  | .field none name isStatic => asks (host.load (.field none name isStatic))
  | .field (some e) name isStatic => do
    let receiver ← e.exec
    asks (host.load (.field (some receiver) name isStatic))
  | .index a i => do
    let array ← a.exec
    let index ← i.exec
    asks (host.load (.element array index))
  | .cast ty e => do apply host (.cast ty) [← e.exec]
  | .instanceOf e ty => do apply host (.instanceOf ty) [← e.exec]
  | .call none callee args => do
    let ds ← listExec args
    acts (host.call callee none ds)
  | .call (some e) callee args => do
    let receiver ← e.exec
    let ds ← listExec args
    acts (host.call callee (some receiver) ds)
  | .create ty args => do
    let ds ← listExec args
    acts (host.create ty ds)
  | .err => asks fun _ _ => True

/-- The runs of the operands of a target that is a field or an array element. -/
def placeExec : Expr → Exec H Place
  | node _ (.paren inner) => inner.placeExec
  | node _ (.field none name isStatic) => return .field none name isStatic
  | node _ (.field (some e) name isStatic) => do
    let receiver ← e.exec
    return .field (some receiver) name isStatic
  | node _ (.index a i) => do
    let array ← a.exec
    let index ← i.exec
    return .element array index
  | node .. => Run.Throw

/-- The execution of expressions in order; it gives all their values. -/
def listExec : List Expr → Exec H (List Concrete)
  | [] => return []
  | e :: es => do
    let d ← e.exec
    let ds ← listExec es
    return d :: ds

end

/-- An expression shows its value after what its operands show. -/
theorem exec_of_kindExec {id : ExprId} {kind : ExprKind Expr} {m m' : Machine H} {tr : List Event}
    {d : Concrete} (h : kindExec b host id kind m tr (.done d) m') :
    (node id kind).exec b host m (tr ++ [.value (node id kind) d]) (.done d) m' := by
  rw [exec]
  refine Run.bind_of_silent .pass (Run.bind_silent (.next h ?_) (Run.bind_of_silent .pass .intro))
  exact Run.bind_silent .intro .intro

/-- The same run, left right after the value. -/
theorem exec_cut_of_kindExec {id : ExprId} {kind : ExprKind Expr} {m m' : Machine H}
    {tr : List Event} {d : Concrete} (h : kindExec b host id kind m tr (.done d) m') :
    (node id kind).exec b host m (tr ++ [.value (node id kind) d]) .cut m' := by
  rw [exec]
  exact Run.bind_of_silent .pass
    (Run.bind_silent (.next h (Run.bind_silent .intro .intro)) (.cut .cut))

/-- The runs of an expression of a statement. -/
def enter (e : Expr) : Exec H Concrete := do
  Run.Report fun m => .enter e m.locals
  e.exec b host

end Expr

/-! ## Statements -/

open Exec in
/-- What the parts of statements do on the machine. An erroneous statement may do anything. -/
def machine {H : Type} (b : Body) (host : Host H) : Meaning (Machine H) Event where
  eval e := do
    let _ ← e.enter b host
  test e := do truth host (← e.enter b host)
  declare
    | v, none => scramble v
    | v, some init => do
      let _ ← assignLocal b host v (← init.enter b host)
  next v iterable := Run.hazardous do
    match ← acts (host.advance (iterable.staticTy b.varTy)) with
    | none => return false
    | some d => do
      writeLocal v d
      return true
  handle v := scramble v
  close v := Run.hazardous do
    let d ← readLocal v
    acts (host.close (b.varTy v) d)
  err := Run.Step fun _ _ _ => True

/-! ## Runs of simple statements -/

section Simple

open Run Exec

variable {H : Type} {b : Body} {host : Host H} {m : Machine H}

/-- A run of an expression of a statement that has a value without an effect. -/
theorem Expr.eval_run {i : ExprId} {k : ExprKind Expr} {d : Concrete}
    (h : kindExec b host i k m [] (.done d) m) :
    ∃ tr, .value (.node i k) d ∈ tr ∧ (machine b host).eval (.node i k) m tr (.done ()) m := by
  have hexec : (Expr.node i k).exec b host m _ (.done d) m := exec_of_kindExec b host h
  exact ⟨_, List.mem_append_right _ List.mem_concat_self,
    bind_silent (.next .intro hexec) .intro⟩

/-- A run of a condition that is a local. -/
theorem Expr.test_run {i : ExprId} {v : VarId} {t : Bool} (hv : m.locals v = .const (.bool t)) :
    ∃ tr, (machine b host).test (.node i (.var v)) m tr (.done t) m := by
  have hvar : (Expr.node i (.var v)).exec b host m _ (.done (.const (.bool t))) m :=
    exec_of_kindExec b host (readLocal_iff.2 ⟨rfl, by rw [hv], rfl⟩)
  exact ⟨_, bind_silent (.next .intro hvar) (bind_of_silent .intro .intro)⟩

/-- A run of an assignment of a constant that needs no conversion. It shows what the run of the
right side shows. -/
theorem Stmt.assign_run {s : StmtId} {i j : ExprId} {v : VarId} {value : Expr} {l : Literal}
    {p : PrimTy} {tr : List Event} (hvalue : value.exec b host m tr (.done (.const l)) m)
    (hty : primOf (b.varTy v) = some p) (hl : l.convert p = some l) :
    ∃ tr', tr ⊆ tr' ∧ (Stmt.node s (.expr (.node i (.assign (.node j (.var v)) none value)))).run
      (machine b host) m tr' (.done .normal) (m.set v (.const l)) := by
  have htype : inTypeOf b host v (.const l) m [] (.done (.const l)) m := by
    rw [inTypeOf, hty]
    simp only [apply, Operation.onConstants, hl, Option.map_some]
    exact .intro
  have hset : assignLocal b host v (.const l) m [] (.done (.const l)) (m.set v (.const l)) :=
    bind_of_silent htype (bind_of_silent (writeLocal_iff.2 ⟨rfl, rfl, rfl⟩) .intro)
  have hassign : (Expr.node i (.assign (.node j (.var v)) none value)).exec b host m _
      (.done (.const l)) (m.set v (.const l)) :=
    Expr.exec_of_kindExec b host (.next hvalue hset)
  have hshown : tr ⊆ tr ++ [] ++ [.value (.node i (.assign (.node j (.var v)) none value))
      (.const l)] := by simp
  exact ⟨_, List.subset_append_of_subset_right _ hshown,
    bind_of_silent .pass (bind_silent (bind_silent (.next .intro hassign) .intro) .intro)⟩

/-- A run of an assignment of a literal that needs no conversion. -/
theorem Stmt.assign_lit_run {s : StmtId} {i j k : ExprId} {v : VarId} {l : Literal} {p : PrimTy}
    (hty : primOf (b.varTy v) = some p) (hl : l.convert p = some l) :
    ∃ tr, (Stmt.node s (.expr (.node i (.assign (.node j (.var v)) none (.node k (.lit l)))))).run
      (machine b host) m tr (.done .normal) (m.set v (.const l)) := by
  have hlit : (Expr.node k (.lit l)).exec b host m _ (.done (.const l)) m :=
    Expr.exec_of_kindExec b host .intro
  obtain ⟨tr, -, h⟩ := assign_run hlit hty hl
  exact ⟨tr, h⟩

end Simple

end Midend
