import Midend.Eval.Stmt
import Midend.Proofs.Run.Triple

/-!
# Courses

A course through a body is followed by the expressions that it evaluates. A
condition whose value is known takes that branch, and any other may go either way.
There are two kinds of courses through statements. `courses` gives those of the
program, in which a known condition counts for loops, too, and a jump leaves the
statements that it stands among. `Stmt.trail` gives those that the evaluator
follows: it passes over jumps, leaves the number of iterations of every loop and the
outcome of every assertion open, and may go through a handler whatever the block
that it belongs to does. Only what a known condition of a branch or of an expression
rules out is left aside.

Every trail can be brought to its end (`Stmt.ends_trail`), so that a part of it that
shows an expression is part of a whole one (`Meets`).
-/

namespace Midend

open Run

/-- Courses through a part of a program. -/
abbrev Course (α : Type) := Run Unit Expr α

/-- Chooses, freely unless the choice is made already. -/
def choose : Option Bool → Course Bool
  | some v => return v
  | none => Either (return true) (return false)

/-- What is known of a condition by the recorded values. -/
def IdMap.truth? (m : IdMap Value) (e : Expr) : Option Bool :=
  match m.get? e.id with
  | some (.known (.bool v)) => some v
  | _ => none

variable (known : Expr → Option Bool)

/-! ## Expressions -/

namespace Expr

mutual

/-- The courses through an expression, which is shown after its operands. -/
def course : Expr → Course Unit
  | node id kind => hazardous do
    kindCourse kind
    Emit (node id kind)

/-- The courses through the operands of a layer. -/
def kindCourse : ExprKind Expr → Course Unit
  | .lit _ | .var _ | .err | .field none .. => pure ()
  | .assign l _ r => do
    l.placeCourse
    r.course
  | .unary (.step _) e => e.placeCourse
  | .field (some e) .. | .unary _ e | .paren e | .cast _ e | .instanceOf e _ => e.course
  | .binary l (.logic op) r => do
    l.course
    if ← choose ((known l).map (· == op.deciding)) then pure ()
    else r.course
  | .binary l _ r | .index l r => do
    l.course
    r.course
  | .conditional c t f => do
    c.course
    if ← choose (known c) then t.course
    else f.course
  | .call none _ args | .create _ args => listCourse args
  | .call (some e) _ args => do
    e.course
    listCourse args

/-- The courses through the operands of a target. -/
def placeCourse : Expr → Course Unit
  | node _ (.paren inner) => inner.placeCourse
  | node _ (.field (some e) ..) => e.course
  | node _ (.index a i) => do
    a.course
    i.course
  | node .. => pure ()

/-- The course of expressions that are evaluated in order. -/
def listCourse : List Expr → Course Unit
  | [] => pure ()
  | e :: es => do
    e.course
    listCourse es

end

end Expr

/-! ## Statements -/

/-- What statements do on a course of the program. -/
def courses : Meaning Unit Expr where
  eval e := e.course known
  test e := do
    e.course known
    choose (known e)
  declare _ init := Expr.listCourse known init.toList
  next _ _ := do
    Hazard
    Either (return true) (return false)
  handle _ := pure ()
  close _ := Hazard
  err := return .normal

namespace Stmt

/-- Goes through `head`, and any number of times through `tail` and `head` again. -/
def rounds (head tail : Course Unit) : Course Unit :=
  Iterate do
    head
    Either (return some ()) do
      tail
      return none

mutual

/-- The trails through a statement. -/
def trail : Stmt → Course Unit
  | node _ kind => kindTrail kind

/-- The trail of a layer. -/
def kindTrail : StmtKind Expr Stmt → Course Unit
  | .decl _ e | .ret e => Expr.listCourse known e.toList
  | .expr e | .throw e => e.course known
  | .block body => listTrail body
  | .branch c t f => do
    c.course known
    if ← choose (known c) then t.trail
    else optionTrail f
  | .assert c message => do
    c.course known
    Either (pure ()) (Expr.listCourse known message.toList)
  | .whileLoop c body => rounds (c.course known) body.trail
  | .doLoop body c =>
    rounds
      (do
        body.trail
        c.course known)
      (pure ())
  | .forLoop init c update body => do
    listTrail init
    rounds (Expr.listCourse known c.toList) do
      body.trail
      Expr.listCourse known update
  | .forEach _ e body => do
    e.course known
    rounds (pure ()) body.trail
  | .switch selector cases => do
    selector.course known
    Expr.listCourse known (labels cases)
    casesTrail (!cases.any SwitchCase.isDefault) cases
  | .guarded resources body catches none => do
    listTrail resources
    listTrail body
    catchesTrail catches
  | .guarded resources body catches (some finalizer) => do
    listTrail resources
    listTrail body
    catchesTrail catches
    listTrail finalizer
  | .breakOut | .continueLoop | .empty | .err => pure ()

/-- The trail of a statement that may be absent. -/
def optionTrail : Option Stmt → Course Unit
  | none => pure ()
  | some s => s.trail

/-- The trail of statements in order. -/
def listTrail : List Stmt → Course Unit
  | [] => pure ()
  | s :: ss => do
    s.trail
    listTrail ss

/-- The trails through groups that fall through into one another. -/
def fallTrail : List (SwitchCase Expr Stmt) → Course Unit
  | [] => pure ()
  | ⟨_, _, body⟩ :: cs => do
    listTrail body
    fallTrail cs

/-- The trails from any of the groups on, or past all of them if `skips`. -/
def casesTrail (skips : Bool) : List (SwitchCase Expr Stmt) → Course Unit
  | [] => if skips then pure () else never
  | ⟨_, _, body⟩ :: cs =>
    Either
      (do
        listTrail body
        fallTrail cs)
      (casesTrail skips cs)

/-- The trails through any of the handlers, or past all of them. -/
def catchesTrail : List (CatchClause Stmt) → Course Unit
  | [] => pure ()
  | ⟨_, _, body⟩ :: cs => Either (listTrail body) (catchesTrail cs)

end

end Stmt

/-! ## Bringing courses to an end -/

variable {known} {α β : Type}

/-- Some course comes to an end with the result. -/
def Ends (a : α) (p : Course α) : Prop := ∃ tr, p () tr (.done a) ()

/-- Some course that comes to an end with the result shows the expression. -/
def Meets (e : Expr) (a : α) (p : Course α) : Prop := ∃ tr, p () tr (.done a) () ∧ e ∈ tr

namespace Ends

variable {p q : Course α} {a : α}

theorem pure : Ends a (Pure.pure a : Course α) := ⟨[], .intro⟩

theorem bind {f : α → Course β} {c : β} (hp : Ends a p) (hf : Ends c (f a)) :
    Ends c (p >>= f) := by
  obtain ⟨tr, h⟩ := hp
  obtain ⟨tr', h'⟩ := hf
  exact ⟨tr ++ tr', .next h h'⟩

theorem left (hp : Ends a p) : Ends a (Either p q) := hp.imp fun _ => .left

theorem right (hq : Ends a q) : Ends a (Either p q) := hq.imp fun _ => .right

theorem hazardous (hp : Ends a p) : Ends a (Run.hazardous p) :=
  have hazard : Ends () (Hazard : Course Unit) := ⟨[], .pass⟩
  hazard.bind (hp.bind (hazard.bind .pure))

/-- A condition may have any value that is not excluded. -/
theorem choose {v : Bool} : ∀ {o : Option Bool}, o ≠ some !v → Ends v (choose o)
  | some w, h => by
    have hw : w = v := by
      cases w <;> cases v <;> first | rfl | exact absurd rfl h
    exact hw ▸ .pure
  | none, _ => by
    cases v with
    | true => exact .left .pure
    | false => exact .right .pure

/-- A choice between parts that both come to an end. -/
theorem ite {o : Option Bool} (hp : Ends a p) (hq : Ends a q) :
    Ends a (do if ← Midend.choose o then p else q) := by
  by_cases h : o = some false
  · have hv : Ends false (Midend.choose o) := .choose (h ▸ nofun)
    exact hv.bind hq
  · have hv : Ends true (Midend.choose o) := .choose h
    exact hv.bind hp

/-- A step that leaves the loop ends it. -/
theorem iterate {step : Course (Option α)} (h : Ends (some a) step) : Ends a (Iterate step) :=
  h.imp fun _ => .done

end Ends

namespace Meets

variable {p q : Course α} {a : α} {e : Expr}

/-- What is met is met on a course that ends. -/
theorem ends (h : Meets e a p) : Ends a p := h.imp fun _ h => h.1

/-- An event is met where it happens. -/
theorem emit : Meets e () (Emit e) := ⟨[e], .intro, List.mem_singleton_self e⟩

/-- What is met first is met. -/
theorem bind_left {f : α → Course β} {c : β} (hp : Meets e a p) (hf : Ends c (f a)) :
    Meets e c (p >>= f) := by
  obtain ⟨tr, h, he⟩ := hp
  obtain ⟨tr', h'⟩ := hf
  exact ⟨tr ++ tr', .next h h', List.mem_append_left _ he⟩

/-- What is met later is met. -/
theorem bind_right {f : α → Course β} {c : β} (hp : Ends a p) (hf : Meets e c (f a)) :
    Meets e c (p >>= f) := by
  obtain ⟨tr, h⟩ := hp
  obtain ⟨tr', h', he⟩ := hf
  exact ⟨tr ++ tr', .next h h', List.mem_append_right _ he⟩

/-- What is met is met in the first part or in the second. -/
theorem of_bind {p : Course Unit} {q : Course α} (h : Meets e a (do p; q)) :
    Meets e () p ∨ Meets e a q := by
  obtain ⟨tr, ⟨h₁, h₂⟩ | _, he⟩ := h
  exact (List.mem_append.1 he).imp (fun he => ⟨_, h₁, he⟩) fun he => ⟨_, h₂, he⟩

theorem left (hp : Meets e a p) : Meets e a (Either p q) := hp.imp fun _ h => h.imp .left id

theorem right (hq : Meets e a q) : Meets e a (Either p q) := hq.imp fun _ h => h.imp .right id

theorem hazardous (hp : Meets e a p) : Meets e a (Run.hazardous p) :=
  have hazard : Ends () (Hazard : Course Unit) := ⟨[], .pass⟩
  .bind_right hazard (hp.bind_left (hazard.bind .pure))

/-- What the last step meets is met. -/
theorem iterate {step : Course (Option α)} (h : Meets e (some a) step) : Meets e a (Iterate step) :=
  h.imp fun _ h => h.imp .done id

/-- What an earlier step meets is met, if the loop then ends. -/
theorem again {step : Course (Option α)} (h : Meets e none step) (h' : Ends a (Iterate step)) :
    Meets e a (Iterate step) := by
  obtain ⟨tr, h, he⟩ := h
  obtain ⟨tr', h'⟩ := h'
  exact ⟨tr ++ tr', .again h h', List.mem_append_left _ he⟩

end Meets

namespace Stmt

variable {head tail : Course Unit} {e : Expr}

/-- A loop may end at its first condition. -/
theorem ends_rounds (hh : Ends () head) : Ends () (rounds head tail) :=
  .iterate (hh.bind (.left .pure))

/-- The condition of a loop is always met. -/
theorem meets_rounds_head (hh : Meets e () head) : Meets e () (rounds head tail) :=
  .iterate (hh.bind_left (.left .pure))

/-- The body of a loop is met, if it may be entered. -/
theorem meets_rounds_tail (hh : Ends () head) (ht : Meets e () tail) :
    Meets e () (rounds head tail) :=
  .again (.bind_right hh (.right (ht.bind_left .pure))) (ends_rounds hh)

end Stmt

namespace Expr

mutual

/-- Every expression has a course that ends. -/
theorem ends_course : ∀ e : Expr, Ends () (e.course known)
  | node id kind => by
    rw [course]
    exact .hazardous ((ends_kindCourse kind).bind Meets.emit.ends)

theorem ends_kindCourse : ∀ k : ExprKind Expr, Ends () (kindCourse known k)
  | .lit _ | .var _ | .err | .field none .. => .pure
  | .assign l _ r => (ends_placeCourse l).bind (ends_course r)
  | .unary (.step _) e => ends_placeCourse e
  | .field (some e) .. | .paren e | .cast _ e | .instanceOf e _ => ends_course e
  | .unary .not e | .unary .neg e | .unary .plus e | .unary .bitNot e => ends_course e
  | .binary l (.logic _) r => (ends_course l).bind (.ite .pure (ends_course r))
  | .binary l (.arith _) r | .binary l (.shift _) r | .binary l (.bits _) r
  | .binary l (.order _) r | .binary l (.equality _) r | .index l r =>
    (ends_course l).bind (ends_course r)
  | .conditional c t f => (ends_course c).bind (.ite (ends_course t) (ends_course f))
  | .call none _ args | .create _ args => ends_listCourse args
  | .call (some e) _ args => (ends_course e).bind (ends_listCourse args)

theorem ends_placeCourse : ∀ e : Expr, Ends () (e.placeCourse known)
  | node _ kind => by
    cases kind with
    | paren inner => exact ends_placeCourse inner
    | field receiver =>
      cases receiver with
      | none => exact .pure
      | some e => exact ends_course e
    | index a i => exact (ends_course a).bind (ends_course i)
    | _ => exact .pure

theorem ends_listCourse : ∀ es : List Expr, Ends () (listCourse known es)
  | [] => .pure
  | e :: es => (ends_course e).bind (ends_listCourse es)

end

end Expr

namespace Stmt

mutual

/-- Every statement has a trail that ends. -/
theorem ends_trail : ∀ s : Stmt, Ends () (s.trail known)
  | node _ kind => ends_kindTrail kind

theorem ends_kindTrail : ∀ k : StmtKind Expr Stmt, Ends () (kindTrail known k)
  | .decl _ e | .ret e => Expr.ends_listCourse e.toList
  | .expr e | .throw e => Expr.ends_course e
  | .block body => ends_listTrail body
  | .branch c t f => (Expr.ends_course c).bind (.ite (ends_trail t) (ends_optionTrail f))
  | .assert c _ => (Expr.ends_course c).bind (.left .pure)
  | .whileLoop c _ => ends_rounds (Expr.ends_course c)
  | .doLoop body c => ends_rounds ((ends_trail body).bind (Expr.ends_course c))
  | .forLoop init c _ _ => (ends_listTrail init).bind (ends_rounds (Expr.ends_listCourse c.toList))
  | .forEach _ e _ => (Expr.ends_course e).bind (ends_rounds .pure)
  | .switch e cases =>
    (Expr.ends_course e).bind ((Expr.ends_listCourse (labels cases)).bind
      (ends_casesTrail cases (by cases cases <;> simp)))
  | .guarded resources body catches none =>
    (ends_listTrail resources).bind ((ends_listTrail body).bind (ends_catchesTrail catches))
  | .guarded resources body catches (some finalizer) =>
    (ends_listTrail resources).bind ((ends_listTrail body).bind
      ((ends_catchesTrail catches).bind (ends_listTrail finalizer)))
  | .breakOut | .continueLoop | .empty | .err => .pure

theorem ends_optionTrail : ∀ s : Option Stmt, Ends () (optionTrail known s)
  | none => .pure
  | some s => ends_trail s

/-- Statements have a trail that ends, one after the other. -/
theorem ends_listTrail : ∀ ss : List Stmt, Ends () (listTrail known ss)
  | [] => .pure
  | s :: ss => (ends_trail s).bind (ends_listTrail ss)

theorem ends_fallTrail : ∀ cs : List (SwitchCase Expr Stmt), Ends () (fallTrail known cs)
  | [] => .pure
  | ⟨_, _, body⟩ :: cs => (ends_listTrail body).bind (ends_fallTrail cs)

/-- Groups can be gone through or, where there are none, passed. -/
theorem ends_casesTrail {skips : Bool} :
    ∀ cs : List (SwitchCase Expr Stmt), skips = true ∨ cs ≠ [] → Ends () (casesTrail known skips cs)
  | [], h => by
    rw [casesTrail, if_pos (h.resolve_right fun hne => hne rfl)]
    exact .pure
  | ⟨_, _, body⟩ :: cs, _ => .left ((ends_listTrail body).bind (ends_fallTrail cs))

theorem ends_catchesTrail : ∀ cs : List (CatchClause Stmt), Ends () (catchesTrail known cs)
  | [] => .pure
  | ⟨_, _, body⟩ :: _ => .left (ends_listTrail body)

end

end Stmt

end Midend
