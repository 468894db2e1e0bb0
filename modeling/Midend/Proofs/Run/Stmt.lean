import Midend.Liveness.Transfer
import Midend.Proofs.Run.Basic

/-!
# Runs of statements

What control flow does is the same whatever expressions mean, so the runs of a
statement are given for any `Meaning` of its expressions and declarations.
`Stmt.run` starts at the entry of a statement, and `Stmt.starts` lists, for every
statement nested in it, the runs that start at the entry of that one and go on
with the rest of the whole.

A switch evaluates its selector and all its labels and enters any group, or none
if it has no default group. The initialiser of a loop runs before the loop, so a
jump in it is one of the surrounding statement. Resources are closed on every way
out of the block they protect, and a finalizer runs on every way out of the rest
of its statement: if it completes, that way out is taken after all.
-/

namespace Midend

/-- How a statement that throws nothing ends. -/
inductive Exit where
  | normal | brk | cont | ret
deriving DecidableEq

/-- What the end of its body means for a loop; none if the loop goes on. -/
def Exit.ofBody : Exit → Option Exit
  | normal | cont => none
  | brk => some normal
  | ret => some ret

/-- What the end of its groups means for a switch. -/
def Exit.ofSwitch : Exit → Exit
  | brk => normal
  | e => e

/-- What the parts of statements do. -/
structure Meaning (σ ε : Type) where
  /-- Evaluates an expression for its effects. -/
  eval : Expr → Run σ ε Unit
  /-- Evaluates a condition. -/
  test : Expr → Run σ ε Bool
  declare : VarId → Option Expr → Run σ ε Unit
  /-- Steps through the elements of an iterable, the variable holding the next if there is one. -/
  next : VarId → Expr → Run σ ε Bool
  /-- Catches an exception in a variable. -/
  handle : VarId → Run σ ε Unit
  close : VarId → Run σ ε Unit
  /-- An erroneous statement. -/
  err : Run σ ε Exit

namespace Meaning

variable {σ ε : Type} (M : Meaning σ ε)

/-- Evaluates expressions in order. -/
def evalList : List Expr → Run σ ε Unit
  | [] => pure ()
  | e :: es => do
    M.eval e
    evalList es

/-- Evaluates the condition of a loop, which holds if there is none. -/
def testOption : Option Expr → Run σ ε Bool
  | none => pure true
  | some c => M.test c

/-- Closes resources. -/
def closeAll : List VarId → Run σ ε Unit
  | [] => pure ()
  | v :: vs => do
    M.close v
    closeAll vs

end Meaning

namespace Run

variable {σ ε : Type}

/-- Runs `q` after `p` has completed. -/
def andThen (p q : Run σ ε Exit) : Run σ ε Exit := do
  match ← p with
  | .normal => q
  | e => return e

/-- Leaves by `way`, or by an exception if that is none. -/
def leave : Option Exit → Run σ ε Exit
  | some e => return e
  | none => Throw

/-- Leaves in any way. -/
inductive LeaveAny : Run σ ε Exit
  | intro {s t : σ} {tr : List ε} {r : Ending Exit} (way : Option Exit) :
      leave way s tr r t → LeaveAny s tr r t

/-- Runs `q` on every way out of `p`. -/
def ensuring (p q : Run σ ε Exit) : Run σ ε Exit := do
  let way ← Attempt p
  q.andThen (leave way)

/-- Where `p` throws, runs `handler` unless it does not catch the exception. -/
def handledBy (p handler : Run σ ε Exit) : Run σ ε Exit := do
  match ← Attempt p with
  | some e => return e
  | none => Either Throw handler

end Run

namespace Stmt

variable {σ ε : Type} (M : Meaning σ ε)

open Run

/-! ## Parts of statements -/

/-- The rest of an iteration after the start `p` of its body. -/
def restOfBody (p : Run σ ε Exit) : Run σ ε (Option Exit) := do
  return (← p).ofBody

/-- The same in a `do` loop, which then evaluates its condition. -/
def restOfDo (c : Expr) (p : Run σ ε Exit) : Run σ ε (Option Exit) := do
  match (← p).ofBody with
  | some e => return some e
  | none =>
    if ← M.test c then return none
    else return some .normal

/-- The same in a `for` loop, which then updates. -/
def restOfFor (update : List Expr) (p : Run σ ε Exit) : Run σ ε (Option Exit) := do
  match (← p).ofBody with
  | some e => return some e
  | none =>
    M.evalList update
    return none

/-- An iteration that takes place if `test` holds. -/
def iteration (test : Run σ ε Bool) (rest : Run σ ε (Option Exit)) : Run σ ε (Option Exit) := do
  if ← test then rest
  else return some .normal

/-- A protected block that may have been entered inside. -/
def closing (resources : List Stmt) (p : Run σ ε Exit) : Run σ ε Exit :=
  p.ensuring do
    M.closeAll (resources.filterMap declaredVar?)
    return .normal

/-- An assertion, which may be disabled. -/
def assertion (c : Expr) (message : Option Expr) : Run σ ε Exit :=
  Either (return .normal) do
    if ← M.test c then return .normal
    else
      M.evalList message.toList
      Throw

/-! ## Runs from the entry -/

mutual

/-- The runs of a statement. -/
def run : Stmt → Run σ ε Exit
  | node _ kind => do
    Hazard
    kindRun kind

/-- The runs of a layer. -/
def kindRun : StmtKind Expr Stmt → Run σ ε Exit
  | .decl v init => do
    M.declare v init
    return .normal
  | .expr e => do
    M.eval e
    return .normal
  | .block body => listRun body
  | .branch c a none => do
    if ← M.test c then a.run
    else return .normal
  | .branch c a (some b) => do
    if ← M.test c then a.run
    else b.run
  | .whileLoop c body => Iterate (iteration (M.test c) (restOfBody body.run))
  | .doLoop body c => Iterate (restOfDo M c body.run)
  | .forLoop init c update body =>
    (listRun init).andThen (Iterate (iteration (M.testOption c) (restOfFor M update body.run)))
  | .forEach v iterable body => do
    M.eval iterable
    Iterate (iteration (M.next v iterable) (restOfBody body.run))
  | .switch selector cases => do
    M.eval selector
    M.evalList (labels cases)
    return (← casesRun (!cases.any SwitchCase.isDefault) cases).ofSwitch
  | .guarded resources body catches none =>
    ((listRun resources).andThen (closing M resources (listRun body))).handledBy
      (catchesRun catches)
  | .guarded resources body catches (some finalizer) =>
    (((listRun resources).andThen (closing M resources (listRun body))).handledBy
      (catchesRun catches)).ensuring (listRun finalizer)
  | .throw e => do
    M.eval e
    Throw
  | .assert c message => assertion M c message
  | .ret e => do
    M.evalList e.toList
    return .ret
  | .breakOut => return .brk
  | .continueLoop => return .cont
  | .empty => return .normal
  | .err => M.err

/-- The runs of statements in order. -/
def listRun : List Stmt → Run σ ε Exit
  | [] => return .normal
  | s :: ss => s.run.andThen (listRun ss)

/-- The runs of groups that fall through into one another. -/
def fallRun : List (SwitchCase Expr Stmt) → Run σ ε Exit
  | [] => return .normal
  | ⟨_, _, body⟩ :: cs => (listRun body).andThen (fallRun cs)

/-- The runs from any of the groups on, or past all of them if `skips`. -/
def casesRun (skips : Bool) : List (SwitchCase Expr Stmt) → Run σ ε Exit
  | [] => if skips then return .normal else never
  | ⟨_, _, body⟩ :: cs => Either ((listRun body).andThen (fallRun cs)) (casesRun skips cs)

/-- The runs of any of the handlers. -/
def catchesRun : List (CatchClause Stmt) → Run σ ε Exit
  | [] => never
  | ⟨_, param, body⟩ :: cs =>
    Either
      (do
        M.handle param
        listRun body)
      (catchesRun cs)

end

/-! ## Runs from inside -/

/-- Goes on with `f` from each of the given starts. -/
def thenEach (f : Run σ ε Exit → Run σ ε Exit) (starts : List (Stmt × Run σ ε Exit)) :
    List (Stmt × Run σ ε Exit) :=
  starts.map fun (s, p) => (s, f p)

mutual

/-- The statement and those nested in it, each with the runs that start at its entry. -/
def starts : Stmt → List (Stmt × Run σ ε Exit)
  | node id kind => (node id kind, (node id kind).run M) :: kindStarts kind

/-- The statements below a layer, each with the runs that start at its entry. -/
def kindStarts : StmtKind Expr Stmt → List (Stmt × Run σ ε Exit)
  | .block body => listStarts body
  | .branch _ a none => a.starts
  | .branch _ a (some b) => a.starts ++ b.starts
  | .whileLoop c body =>
    thenEach (fun p => (restOfBody p).resume (kindRun M (.whileLoop c body))) body.starts
  | .doLoop body c =>
    thenEach (fun p => (restOfDo M c p).resume (kindRun M (.doLoop body c))) body.starts
  | .forLoop init c update body =>
    let loop := Iterate (iteration (M.testOption c) (restOfFor M update (body.run M)))
    thenEach (·.andThen loop) (listStarts init) ++
      thenEach (fun p => (restOfFor M update p).resume loop) body.starts
  | .forEach v iterable body =>
    let loop := Iterate (iteration (M.next v iterable) (restOfBody (body.run M)))
    thenEach (fun p => (restOfBody p).resume loop) body.starts
  | .switch _ cases => thenEach (fun p => do return (← p).ofSwitch) (caseStarts cases)
  | .guarded resources body catches none =>
    let outside := fun p : Run σ ε Exit => p.handledBy (catchesRun M catches)
    thenEach (fun p => outside (p.andThen (closing M resources (listRun M body))))
        (listStarts resources) ++
      thenEach (fun p => outside (closing M resources p)) (listStarts body) ++
      catchStarts catches
  | .guarded resources body catches (some finalizer) =>
    let final := listRun M finalizer
    let outside := fun p : Run σ ε Exit => (p.handledBy (catchesRun M catches)).ensuring final
    thenEach (fun p => outside (p.andThen (closing M resources (listRun M body))))
        (listStarts resources) ++
      thenEach (fun p => outside (closing M resources p)) (listStarts body) ++
      thenEach (·.ensuring final) (catchStarts catches) ++
      thenEach (·.andThen LeaveAny) (listStarts finalizer)
  | .decl .. | .expr _ | .throw _ | .assert .. | .ret _ | .breakOut | .continueLoop | .empty
  | .err => []

/-- The statements of a list and those nested in them, each with its runs. -/
def listStarts : List Stmt → List (Stmt × Run σ ε Exit)
  | [] => []
  | s :: ss => thenEach (·.andThen (listRun M ss)) s.starts ++ listStarts ss

/-- The statements in the groups of a switch; a run goes on with the next groups. -/
def caseStarts : List (SwitchCase Expr Stmt) → List (Stmt × Run σ ε Exit)
  | [] => []
  | ⟨_, _, body⟩ :: cs => thenEach (·.andThen (fallRun M cs)) (listStarts body) ++ caseStarts cs

/-- The statements of handlers, each with its runs. -/
def catchStarts : List (CatchClause Stmt) → List (Stmt × Run σ ε Exit)
  | [] => []
  | ⟨_, _, body⟩ :: cs => listStarts body ++ catchStarts cs

end

@[simp] theorem map_fst_thenEach (f : Run σ ε Exit → Run σ ε Exit)
    (starts : List (Stmt × Run σ ε Exit)) :
    (thenEach f starts).map Prod.fst = starts.map Prod.fst := by
  simp [thenEach, Function.comp_def]

mutual

/-- Every statement of a tree has its starts. -/
theorem map_fst_starts : ∀ s : Stmt, (s.starts M).map Prod.fst = s.substmts
  | node _ kind => by rw [starts, substmts, List.map_cons, map_fst_kindStarts kind]

/-- The starts of a layer are those of its nested statements, in order. -/
theorem map_fst_kindStarts :
    ∀ k : StmtKind Expr Stmt, (kindStarts M k).map Prod.fst = substmtsOfKind k
  | .block body => map_fst_listStarts body
  | .branch _ a none => map_fst_starts a
  | .branch _ a (some b) => by
    rw [kindStarts, substmtsOfKind, List.map_append, map_fst_starts a, map_fst_starts b]
  | .whileLoop _ body | .doLoop body _ | .forEach _ _ body => by
    rw [kindStarts, substmtsOfKind, map_fst_thenEach, map_fst_starts body]
  | .forLoop init _ _ body => by
    simp [kindStarts, substmtsOfKind, map_fst_listStarts init, map_fst_starts body]
  | .switch _ cases => by
    rw [kindStarts, substmtsOfKind, map_fst_thenEach, map_fst_caseStarts cases]
  | .guarded resources body catches none => by
    simp [kindStarts, substmtsOfKind, map_fst_listStarts resources, map_fst_listStarts body,
      map_fst_catchStarts catches]
  | .guarded resources body catches (some finalizer) => by
    simp [kindStarts, substmtsOfKind, map_fst_listStarts resources, map_fst_listStarts body,
      map_fst_catchStarts catches, map_fst_listStarts finalizer]
  | .decl .. | .expr _ | .throw _ | .assert .. | .ret _ | .breakOut | .continueLoop | .empty
  | .err => rfl

theorem map_fst_listStarts :
    ∀ ss : List Stmt, (listStarts M ss).map Prod.fst = substmtsOfList ss
  | [] => rfl
  | s :: ss => by
    rw [listStarts, substmtsOfList, List.map_append, map_fst_thenEach, map_fst_starts s,
      map_fst_listStarts ss]

theorem map_fst_caseStarts :
    ∀ cs : List (SwitchCase Expr Stmt), (caseStarts M cs).map Prod.fst = substmtsOfCases cs
  | [] => rfl
  | ⟨_, _, body⟩ :: cs => by
    rw [caseStarts, substmtsOfCases, List.map_append, map_fst_thenEach, map_fst_listStarts body,
      map_fst_caseStarts cs]

theorem map_fst_catchStarts :
    ∀ cs : List (CatchClause Stmt), (catchStarts M cs).map Prod.fst = substmtsOfCatches cs
  | [] => rfl
  | ⟨_, _, body⟩ :: cs => by
    rw [catchStarts, substmtsOfCatches, List.map_append, map_fst_listStarts body,
      map_fst_catchStarts cs]

end

end Stmt

end Midend
