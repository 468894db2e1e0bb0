import Midend.Proofs.Eval.Alike
import Midend.Proofs.Eval.Walked
import Midend.Proofs.Run.Keeps

/-!
# Divisions that fail

If the evaluation of a body divides by zero, a trail through the body evaluates the
division (`Body.exists_trail_of_divisionByZero`). The values that decide the trail
are those that the evaluation records until it fails, and the division is one whose
divisor has been recorded as zero and which has no value itself.

The program need not come there. The evaluator goes on after a jump, enters a loop
whose condition is known to be false and leaves one whose condition is known to be
true, evaluates the message of an assertion that is known to hold, and goes through
the handlers of a block that throws nothing. No course of the program shows a
division in these places (`Body.dividing_not_reached`).
-/

namespace Midend

open Eval Run

namespace Stmt

/-- The expressions of statements with their operands are all that is in the statements. -/
theorem flatMap_subexprs_exprsOf (ss : List Stmt) :
    (exprsOf (substmtsOfList ss)).flatMap Expr.subexprs = ss.flatMap allExprs := by
  rw [substmtsOfList_eq, exprsOf, List.flatMap_assoc, List.flatMap_assoc]
  rfl

end Stmt

namespace Body

variable {b : Body}

/-- Where the evaluation of a body divides by zero, an expression in the place of the error has been
recorded with a divisor of zero and without a value, and every such expression is evaluated on a
trail through the body that takes the branches of the conditions that have recorded values. -/
theorem exists_trail_of_divisionByZero (hb : b.Accepted) {st : EvalState} {err : EvalError}
    (heval : (Stmt.evalList b b.root st).1 = .error err) (herr : err.fault = .divisionByZero) :
    let m := (Stmt.evalList b b.root st.startRecording).2.recorded
    (∃ d ∈ b.root.flatMap Stmt.allExprs, d.DividesByZero m ∧
      (b.exprSpan d.id ≠ .dummy → err.span = b.exprSpan d.id)) ∧
    ∀ d ∈ b.root.flatMap Stmt.allExprs, d.DividesByZero m →
      Meets d () (Stmt.listTrail m.truth? b.root) := by
  intro m
  have hdistinct : Expr.Distinct (Stmt.exprsOf (Stmt.substmtsOfList b.root)) := by
    unfold Expr.Distinct
    rw [Stmt.flatMap_subexprs_exprsOf]
    exact hb.nodup_exprIds
  -- What is recorded plays no part in the result.
  have hrecorded : (Stmt.evalList b b.root st.startRecording).1 = .error err :=
    (Stmt.evalList_alike b.root (.of_context (s := st.startRecording) (t := st) rfl)).1.trans heval
  have hwalks : Walks b m _ (Stmt.listTrail m.truth? b.root) _ (Stmt.evalList b b.root) :=
    Stmt.evalList_walks hdistinct
  obtain ⟨m', hm', -, hend⟩ := hwalks.run (s := st.startRecording) rfl fun _ _ =>
    IdMap.get?_empty _
  obtain rfl : m = m' := congrArg (·.getD ∅) hm'
  obtain ⟨hbegun, hresult⟩ := hend fun _ _ => rfl
  rw [hrecorded] at hresult
  rw [Stmt.flatMap_subexprs_exprsOf] at hbegun
  refine ⟨?_, fun d hd hzero => hbegun d hd hzero.begun⟩
  obtain ⟨d, hd, hzero⟩ := hresult herr
  rw [Stmt.flatMap_subexprs_exprsOf] at hd
  exact ⟨d, hd, hzero⟩

/-- A body around the division `1 / 0`, which is the expression 4. The statements `stmts` may have
the literal `holds` for a condition, the division itself and its assignment to `x`. -/
def dividing (holds : Bool) (stmts : Array (Node (StmtKind ExprId StmtId)))
    (block : List StmtId) : Body where
  name := "dividing"
  vars := #[⟨"x", .prim .int, .localVar, .dummy⟩, ⟨"e", .named "Exception", .catchParam, .dummy⟩]
  exprs := #[⟨.dummy, .lit (.bool holds)⟩, ⟨.dummy, .var 0⟩, ⟨.dummy, .lit (.int 1)⟩,
    ⟨.dummy, .lit (.int 0)⟩, ⟨.between 10 15, .binary 2 (.arith .div) 3⟩,
    ⟨.dummy, .assign 1 none 4⟩]
  stmts := stmts
  block := block

/-- The body `{ if (true) x = 1 / 0; }`. -/
def dividingBranch : Body := dividing true #[⟨.dummy, .branch 0 1 none⟩, ⟨.dummy, .expr 5⟩] [0]

theorem exists_trail_dividingBranch :
    (Stmt.evalList dividingBranch dividingBranch.root {}).1 =
        .error ⟨.divisionByZero, .between 10 15⟩ ∧
      let m := (Stmt.evalList dividingBranch dividingBranch.root
        (EvalState.startRecording {})).2.recorded
      (dividingBranch.exprTree 4).DividesByZero m ∧
        m.truth? (dividingBranch.exprTree 0) = some true ∧
        Meets (dividingBranch.exprTree 4) () (Stmt.listTrail m.truth? dividingBranch.root) := by
  have haccepted : dividingBranch.Accepted :=
    ⟨has_of_reaches _ (by decide) (by decide) (by decide), by decide⟩
  have heval : (Stmt.evalList dividingBranch dividingBranch.root {}).1 =
      .error ⟨.divisionByZero, .between 10 15⟩ := rfl
  have hassign : dividingBranch.exprTree 5 ∈ dividingBranch.root.flatMap Stmt.allExprs :=
    mem_allExprs (s := dividingBranch.stmtTree 1)
      (List.mem_flatMap.2 ⟨dividingBranch.stmtTree 0, List.mem_cons_self, .tail _ (.head _)⟩)
      List.mem_cons_self (Expr.mem_subexprs_self _)
  have hmem := mem_allExprs_trans hassign (Expr.mem_subexprs_child (.tail _ (.head _)))
  have hzero := (⟨⟨_, .known (.int 0), rfl, rfl, .int 0, rfl, .inl rfl⟩, rfl⟩ :
    (dividingBranch.exprTree 4).DividesByZero
      (Stmt.evalList dividingBranch dividingBranch.root (EvalState.startRecording {})).2.recorded)
  exact ⟨heval, hzero, rfl, (exists_trail_of_divisionByZero haccepted heval rfl).2 _ hmem hzero⟩

end Body

/-! ## Where no course comes -/

section

variable {known : Expr → Option Bool} {E : Expr → Prop} {i : ExprId} {l : Literal} {k j : StmtId}
  {body : Stmt} {ss : List Stmt}

/-- Courses show only what satisfies `E`, and their results satisfy `R`. -/
abbrev Confined {α : Type} (E : Expr → Prop) (R : α → Prop) (p : Course α) : Prop :=
  Triple E (fun _ => True) p (fun a _ => R a) fun _ => True

namespace Confined

theorem hazard : Confined E (fun _ => True) (Hazard : Course Unit) := Triple.hazard fun _ h => h

theorem test {v : Bool} (hv : known (.node i (.lit l)) = some v) (hE : E (.node i (.lit l))) :
    Confined E (· = v) ((courses known).test (.node i (.lit l))) := by
  have hcourse : Confined E (fun _ => True) ((courses known).eval (.node i (.lit l))) :=
    .hazardous ((Triple.pure fun _ h => h).bind fun _ => .emit hE) (fun _ h => h) fun _ _ h => h
  refine hcourse.bind fun _ => ?_
  rw [hv]
  exact .pure fun _ _ => rfl

theorem listRun_singleton {s : Stmt} (h : Confined E (fun _ => True) (s.run (courses known))) :
    Confined E (fun _ => True) (Stmt.listRun (courses known) [s]) :=
  andThen_triple h (.pure fun _ _ => trivial) fun _ _ _ _ => trivial

/-- Nothing is evaluated after a `return`. -/
theorem ret :
    Confined E (fun _ => True) (Stmt.listRun (courses known) (.node k (.ret none) :: ss)) := by
  have hnone : Confined E (fun _ => True) ((courses known).evalList []) := .pure fun _ h => h
  have hret : Confined E (· = .ret) ((Stmt.node k (.ret none)).run (courses known)) :=
    hazard.bind fun _ => hnone.bind fun _ => .pure fun _ _ => rfl
  exact andThen_triple hret (.of_false fun _ => nofun) fun _ _ _ _ => trivial

/-- A loop whose condition is false is not entered. -/
theorem falseLoop (hv : known (.node i (.lit l)) = some false) (hE : E (.node i (.lit l))) :
    Confined E (fun _ => True)
      ((Stmt.node k (.whileLoop (.node i (.lit l)) body)).run (courses known)) := by
  refine hazard.bind fun _ => .iterate ((test hv hE).bind fun v => ?_)
  cases v with
  | true => exact .of_false fun _ => nofun
  | false => exact .pure fun _ _ => trivial

/-- Nothing is evaluated after an empty loop whose condition is true. -/
theorem endlessLoop (hv : known (.node i (.lit l)) = some true) (hE : E (.node i (.lit l))) :
    Confined E (fun _ => True) (Stmt.listRun (courses known)
      (.node k (.whileLoop (.node i (.lit l)) (.node j (.block []))) :: ss)) := by
  have hbody : Confined E (· = .normal) ((Stmt.node j (.block [])).run (courses known)) :=
    hazard.bind fun _ => .pure fun _ _ => rfl
  have hloop : Confined E (fun _ => False) (Stmt.run (courses known)
      (.node k (.whileLoop (.node i (.lit l)) (.node j (.block []))))) := by
    refine hazard.bind fun _ => .iterate ((test hv hE).bind fun v => ?_)
    cases v with
    | true =>
      refine (hbody.strengthen fun _ _ => trivial).bind fun e => .pure fun _ he => ?_
      rw [he]
      trivial
    | false => exact .of_false fun _ => nofun
  exact andThen_triple hloop (.of_false fun _ h => h) fun _ _ _ _ => trivial

/-- The message of an assertion that holds is not evaluated. -/
theorem assertion {message : Option Expr} (hv : known (.node i (.lit l)) = some true)
    (hE : E (.node i (.lit l))) :
    Confined E (fun _ => True)
      ((Stmt.node k (.assert (.node i (.lit l)) message)).run (courses known)) := by
  refine hazard.bind fun _ => .either (.pure fun _ _ => trivial) ((test hv hE).bind fun v => ?_)
  cases v with
  | true => exact .pure fun _ _ => trivial
  | false => exact .of_false fun _ => nofun

/-- The handlers of a block that is empty catch nothing. -/
theorem handlers {catches : List (CatchClause Stmt)} :
    Confined E (fun _ => True)
      ((Stmt.node k (.guarded [] [] catches none)).run (courses known)) := by
  have hnil : Triple E (fun _ => True) (Stmt.listRun (courses known) []) (fun _ _ => True)
      (fun _ => False) := .pure fun _ h => h
  have hclose : Triple E (fun _ => True) ((courses known).closeAll []) (fun _ _ => True)
      (fun _ => False) := .pure fun _ h => h
  have hblock : Triple E (fun _ => True)
      (Stmt.closing (courses known) [] (Stmt.listRun (courses known) [])) (fun _ _ => True)
      (fun _ => False) := by
    refine ensuring_triple hnil (fun e => ?_) (.of_false fun _ h => h)
    have hclosed : Triple E (fun _ => True) (do (courses known).closeAll []; return Exit.normal)
        (fun _ _ => True) (fun _ => False) := hclose.bind fun _ => .pure fun _ h => h
    exact andThen_triple hclosed (.pure fun _ h => h) fun _ _ _ h => h
  refine hazard.bind fun _ => handledBy_triple (andThen_triple hnil hblock fun _ _ _ h => h)
    (.of_false fun _ h => h) fun _ h => h.elim

end Confined

end

namespace Body

/-- The body `{ return; x = 1 / 0; }`. -/
def afterReturn : Body := dividing true #[⟨.dummy, .ret none⟩, ⟨.dummy, .expr 5⟩] [0, 1]

/-- The body `{ while (false) x = 1 / 0; }`. -/
def inFalseLoop : Body := dividing false #[⟨.dummy, .whileLoop 0 1⟩, ⟨.dummy, .expr 5⟩] [0]

/-- The body `{ while (true) {} x = 1 / 0; }`. -/
def afterEndlessLoop : Body :=
  dividing true #[⟨.dummy, .whileLoop 0 1⟩, ⟨.dummy, .block []⟩, ⟨.dummy, .expr 5⟩] [0, 2]

/-- The body `{ assert true : 1 / 0; }`. -/
def inMessage : Body := dividing true #[⟨.dummy, .assert 0 (some 4)⟩] [0]

/-- The body `{ try {} catch (Exception e) { x = 1 / 0; } }`. -/
def inHandler : Body :=
  dividing true #[⟨.dummy, .guarded [] [] [⟨.dummy, 1, [1]⟩] none⟩, ⟨.dummy, .expr 5⟩] [0]

/-- The evaluation of the body divides by zero at the expression 4, and no course of the program
evaluates this expression. -/
def DividesAstray (b : Body) : Prop :=
  b.Accepted ∧ (Stmt.evalList b b.root {}).1 = .error ⟨.divisionByZero, b.exprSpan 4⟩ ∧
    let m := (Stmt.evalList b b.root (EvalState.startRecording {})).2.recorded
    (b.exprTree 4).DividesByZero m ∧
      ∀ tr r, Stmt.listRun (courses m.truth?) b.root () tr r () → b.exprTree 4 ∉ tr

/-- In each of these bodies the division is evaluated where no course comes. -/
theorem dividing_not_reached :
    afterReturn.DividesAstray ∧ inFalseLoop.DividesAstray ∧ afterEndlessLoop.DividesAstray ∧
      inMessage.DividesAstray ∧ inHandler.DividesAstray := by
  have hnever : ∀ {b : Body} {known : Expr → Option Bool},
      Confined (· ≠ b.exprTree 4) (fun _ => True) (Stmt.listRun (courses known) b.root) →
      ∀ tr r, Stmt.listRun (courses known) b.root () tr r () → b.exprTree 4 ∉ tr :=
    fun h _ _ hrun hmem => (h hrun trivial).1 _ hmem rfl
  have hzero : ∀ {b : Body} {m : IdMap Value},
      (b.exprTree 4).kind.divisor? = some (b.exprTree 3) →
      m.get? (b.exprTree 3).id = some (.known (.int 0)) → m.get? (b.exprTree 4).id = none →
      (b.exprTree 4).DividesByZero m :=
    fun hdiv hdivisor hwhole => ⟨⟨_, _, hdiv, hdivisor, .int 0, rfl, .inl rfl⟩, hwhole⟩
  refine ⟨⟨?_, rfl, hzero rfl rfl rfl, hnever .ret⟩,
    ⟨?_, rfl, hzero rfl rfl rfl, hnever (.listRun_singleton (.falseLoop rfl nofun))⟩,
    ⟨?_, rfl, hzero rfl rfl rfl, hnever (.endlessLoop rfl nofun)⟩,
    ⟨?_, rfl, hzero rfl rfl rfl, hnever (.listRun_singleton (.assertion rfl nofun))⟩,
    ⟨?_, rfl, hzero rfl rfl rfl, hnever (.listRun_singleton .handlers)⟩⟩
  all_goals exact ⟨has_of_reaches _ (by decide) (by decide) (by decide), by decide⟩

end Body

end Midend
