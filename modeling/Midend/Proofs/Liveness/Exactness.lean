import Midend.Proofs.Liveness.Exhibits
import Midend.Proofs.Liveness.Recorded
import Midend.Proofs.Liveness.Transfer

/-!
# Exactness of liveness

Without `try` statements nothing is live that no path reads: for every variable
that is live before a statement some path from there reads it before writing it
(`LivenessInfo.exists_readsFirst`). Each transfer function gives back a path for
every member of its result (`Expr.path_exhibits`, `Stmt.run_exhibits`). What is
live at the head of a loop after `n` walks is read on a path of at most `n`
iterations, so the number of walks does not matter.

A `try` statement keeps what its handlers need live at every point inside, also
where no exception can arise, so there the same does not hold.
-/

namespace Midend

open Run IdSet

variable {v : VarId}

/-- Whether the layer is a `try` statement. -/
def StmtKind.isTry {ε σ : Type} : StmtKind ε σ → Bool
  | guarded .. => true
  | _ => false

/-! ## Expressions -/

namespace Expr

variable {p : IdSet}

theorem mem_of_mem_union_protect {s : IdSet} (hp : v ∉ p) (h : v ∈ s ∪ p) : v ∈ s :=
  (mem_union.1 h).resolve_right hp

mutual

/-- What is live before an expression is read on some path through it, or needed after it. -/
theorem path_exhibits (hp : v ∉ p) :
    ∀ (e : Expr) (o : IdSet), Exhibits v e.path (fun _ => v ∈ o) (v ∈ e.liveIn p o)
  | node _ (.var w), o => by
    rw [path, liveIn]
    refine .hazardous (.read fun h => ?_)
    exact (mem_insert.1 (mem_of_mem_union_protect hp h)).symm
  | node _ (.assign l op r), o => by
    rw [path, liveIn]
    refine .hazardous (.mono ?_ (mem_of_mem_union_protect hp))
    cases l.localTarget? with
    | none => exact (placePath_exhibits hp l _).bind fun _ => path_exhibits hp r o
    | some w =>
      have hw : Exhibits v (Emit (.write w)) (fun _ => v ∈ o) (v ∈ o.erase w) :=
        .write fun h => (mem_erase.1 h).symm
      have hr := (path_exhibits hp r _).bind fun _ => hw
      cases op with
      | none => exact hr
      | some op =>
        refine Exhibits.bind (.read fun h => ?_) fun _ => hr
        exact (mem_insert.1 h).symm
  | node _ (.unary (.step _) e), o => by
    rw [path, liveIn]
    refine .hazardous (.mono ?_ (mem_of_mem_union_protect hp))
    cases e.localTarget? with
    | none => exact placePath_exhibits hp e o
    | some w =>
      have hw : Exhibits v (Emit (.write w)) (fun _ => v ∈ o) (v ≠ w ∧ v ∈ o) := .write fun h => h
      refine Exhibits.bind (.read fun h => ?_) fun _ => hw
      by_cases heq : v = w
      · exact .inl heq
      · exact .inr ⟨heq, (mem_insert.1 h).resolve_right heq⟩
  | node _ (.binary l (.logic _) r), o => by
    rw [path, liveIn]
    refine .hazardous (.mono ?_ (mem_of_mem_union_protect hp))
    refine (path_exhibits hp l _).bind fun _ => ?_
    exact (Exhibits.either (.pure fun h => h) (path_exhibits hp r o)).mono mem_union.1
  | node _ (.conditional c t f), o => by
    rw [path, liveIn]
    refine .hazardous (.mono ?_ (mem_of_mem_union_protect hp))
    refine (path_exhibits hp c _).bind fun _ => ?_
    exact ((path_exhibits hp t o).either (path_exhibits hp f o)).mono mem_union.1
  | node _ (.lit _), o | node _ .err, o | node _ (.field none ..), o =>
    .hazardous (.pure (mem_of_mem_union_protect hp))
  | node _ (.field (some e) ..), o | node _ (.paren e), o | node _ (.cast _ e), o
  | node _ (.instanceOf e _), o | node _ (.unary .not e), o | node _ (.unary .neg e), o
  | node _ (.unary .plus e), o | node _ (.unary .bitNot e), o =>
    .hazardous ((path_exhibits hp e o).mono (mem_of_mem_union_protect hp))
  | node _ (.binary l (.arith _) r), o | node _ (.binary l (.shift _) r), o
  | node _ (.binary l (.bits _) r), o | node _ (.binary l (.order _) r), o
  | node _ (.binary l (.equality _) r), o | node _ (.index l r), o =>
    .hazardous (((path_exhibits hp l _).bind fun _ => path_exhibits hp r o).mono
      (mem_of_mem_union_protect hp))
  | node _ (.call none _ args), o | node _ (.create _ args), o =>
    .hazardous ((listPath_exhibits hp args o).mono (mem_of_mem_union_protect hp))
  | node _ (.call (some e) _ args), o =>
    .hazardous (((path_exhibits hp e _).bind fun _ => listPath_exhibits hp args o).mono
      (mem_of_mem_union_protect hp))

/-- A place that makes a variable live has a path that needs it. -/
theorem placePath_exhibits (hp : v ∉ p) :
    ∀ (e : Expr) (o : IdSet), Exhibits v e.placePath (fun _ => v ∈ o) (v ∈ e.placeIn p o)
  | node _ kind, o => by
    cases kind with
    | paren inner => exact placePath_exhibits hp inner o
    | _ => exact operandsPath_exhibits hp _ o

theorem operandsPath_exhibits (hp : v ∉ p) :
    ∀ (k : ExprKind Expr) (o : IdSet),
      Exhibits v (operandsPath k) (fun _ => v ∈ o) (v ∈ operandsIn p o k)
  | .lit _, _ | .var _, _ | .err, _ | .field none .., _ => .pure fun h => h
  | .field (some e) .., o | .unary _ e, o | .paren e, o | .cast _ e, o | .instanceOf e _, o =>
    path_exhibits hp e o
  | .assign l _ r, o | .binary l _ r, o | .index l r, o =>
    (path_exhibits hp l _).bind fun _ => path_exhibits hp r o
  | .conditional c t f, o =>
    (path_exhibits hp c _).bind fun _ => (path_exhibits hp t _).bind fun _ => path_exhibits hp f o
  | .call none _ args, o | .create _ args, o => listPath_exhibits hp args o
  | .call (some e) _ args, o => (path_exhibits hp e _).bind fun _ => listPath_exhibits hp args o

theorem listPath_exhibits (hp : v ∉ p) :
    ∀ (es : List Expr) (o : IdSet),
      Exhibits v (listPath es) (fun _ => v ∈ o) (v ∈ listIn p o es)
  | [], _ => .pure fun h => h
  | e :: es, o => (path_exhibits hp e _).bind fun _ => listPath_exhibits hp es o

end

/-- An expression may be left at once. -/
theorem path_cut (e : Expr) : e.path () [] .cut () := by
  obtain ⟨_, kind⟩ := e
  cases kind with
  | assign l op r => exact .cut .cut
  | unary op e => cases op <;> exact .cut .cut
  | binary l op r => cases op <;> exact .cut .cut
  | _ => exact .cut .cut

end Expr

/-! ## Parts of statements -/

variable {all : IdSet} {t : Targets} {o : IdSet} {rounds : Nat}

namespace Exhibits

/-- The paths of expressions, as the meaning of a statement uses them. -/
theorem evalList (hp : v ∉ t.protect) (es : List Expr) :
    Exhibits v ((paths all).evalList es) (fun _ => v ∈ o) (v ∈ Expr.listIn t.protect o es) := by
  induction es with
  | nil => exact .pure fun h => h
  | cons e es ih => exact (e.path_exhibits hp _).bind fun _ => ih

/-- A condition may go the way on which something is needed. -/
theorem test (hp : v ∉ t.protect) (c : Expr) {s : IdSet} {live₁ live₂ : Prop}
    (h : v ∈ s → live₁ ∨ live₂) :
    Exhibits v ((paths all).test c) (fun b => if b then live₁ else live₂)
      (v ∈ c.liveIn t.protect s) :=
  (c.path_exhibits hp s).bind fun _ => (either (.pure fun h => h) (.pure fun h => h)).mono h

/-- Reading variables one after another exhibits each of them. -/
theorem readAll : ∀ vs : List VarId, Exhibits v (Midend.readAll vs) (fun _ => False) (v ∈ vs)
  | [] => .pure fun h => nomatch h
  | _ :: vs => bind (.read List.mem_cons.1) fun _ => readAll vs

end Exhibits

namespace Stmt

/-- A declaration needs what its initialiser needs. -/
theorem declare_exhibits (hp : v ∉ t.protect) (w : VarId) (init : Option Expr) :
    Exhibits v ((paths all).declare w init) (fun _ => v ∈ o)
      (v ∈ Expr.listIn t.protect (o.erase w) init.toList) := by
  refine (Expr.listPath_exhibits hp init.toList _).bind fun _ => ?_
  have hw : Exhibits v (Emit (.write w)) (fun _ => v ∈ o) (v ∈ o.erase w) :=
    .write fun h => (mem_erase.1 h).symm
  exact hw.bind fun _ => .hazard fun h => h

/-- An assertion may be skipped, so what follows it is exhibited as well. -/
theorem assertion_exhibits (hp : v ∉ t.protect) (c : Expr) (message : Option Expr) :
    Exhibits v (assertion (paths all) c message) (fun e => v ∈ t.after o e)
      (v ∈ kindIn all rounds t o (.assert c message)) := by
  have hfail : Exhibits v (do (paths all).evalList message.toList; Throw)
      (fun e => v ∈ t.after o e) (v ∈ Expr.listIn t.protect t.protect message.toList) :=
    (Exhibits.evalList hp message.toList).bind fun _ => .throw hp
  refine Exhibits.mono (.either (.pure fun h => h) ?_) fun h => (mem_union.1 h).symm
  exact (Exhibits.test hp c fun h => (mem_union.1 h).symm).ite (.pure fun h => h) hfail

/-! ### Loops -/

variable {p : Path Exit} {head : IdSet} {live again : Prop}

/-- What the end of the body needs is what the loop needs then. -/
theorem loopNeed_ofBody :
    ∀ {e : Exit}, v ∈ (t.breakable o head).after head e → loopNeed v t o (v ∈ head) e.ofBody
  | .normal, h | .brk, h | .cont, h | .ret, h => h

theorem restOfBody_exhibits
    (hp : Exhibits v p (fun e => v ∈ (t.breakable o head).after head e) live) :
    Exhibits v (restOfBody p) (loopNeed v t o (v ∈ head)) live :=
  hp.bind fun _ => .pure loopNeed_ofBody

theorem restOfDo_exhibits (hv : v ∉ t.protect) {c : Expr} {s : IdSet}
    (hp : Exhibits v p
      (fun e => v ∈ (t.breakable o (c.liveIn t.protect s)).after (c.liveIn t.protect s) e) live)
    (hs : v ∈ s → again ∨ v ∈ o) :
    Exhibits v (restOfDo (paths all) c p) (loopNeed v t o again) live := by
  refine hp.bind fun e => ?_
  have ht : Exhibits v (do if ← (paths all).test c then return none else return some .normal)
      (loopNeed v t o again) (v ∈ c.liveIn t.protect s) :=
    (Exhibits.test hv c hs).ite (.pure fun h => h) (.pure fun h => h)
  cases e with
  | normal => exact ht
  | brk => exact .pure fun h => h
  | cont => exact ht
  | ret => exact .pure fun h => h

theorem restOfFor_exhibits (hv : v ∉ t.protect) {update : List Expr}
    (hp : Exhibits v p
      (fun e => v ∈ (t.breakable o (Expr.listIn t.protect head update)).after
        (Expr.listIn t.protect head update) e) live) :
    Exhibits v (restOfFor (paths all) update p) (loopNeed v t o (v ∈ head)) live := by
  refine hp.bind fun e => ?_
  have hu : Exhibits v (do (paths all).evalList update; return none)
      (loopNeed v t o (v ∈ head)) (v ∈ Expr.listIn t.protect head update) :=
    (Exhibits.evalList hv update).bind fun _ => .pure fun h => h
  cases e with
  | normal => exact hu
  | brk => exact .pure fun h => h
  | cont => exact hu
  | ret => exact .pure fun h => h

/-- One iteration is its test and its rest. -/
theorem iteration_exhibits {test : Path Bool} {rest : Path (Option Exit)} {more : Prop}
    (ht : Exhibits v test (fun b => if b then more else v ∈ o) live)
    (hr : Exhibits v rest (loopNeed v t o again) more) :
    Exhibits v (iteration test rest) (loopNeed v t o again) live :=
  ht.ite hr (.pure fun h => h)

theorem testOption_exhibits (hv : v ∉ t.protect) {bodyIn : IdSet} :
    ∀ c : Option Expr, Exhibits v ((paths all).testOption c)
      (fun b => if b then v ∈ bodyIn else v ∈ o) (v ∈ conditionIn t.protect o c bodyIn)
  | none => .pure fun h => h
  | some c => .test hv c fun h => (mem_union.1 h).symm

theorem next_exhibits (w : VarId) (iterable : Expr) (bodyIn : IdSet) :
    Exhibits v ((paths all).next w iterable) (fun b => if b then v ∈ bodyIn else v ∈ o)
      (v ∈ o ∪ bodyIn.erase w) := by
  have hw : Exhibits v (Emit (.write w)) (fun _ => v ∈ bodyIn) (v ∈ bodyIn.erase w) :=
    .write fun h => (mem_erase.1 h).symm
  refine .hazard_bind (.mono (.either (.pure fun h => h) (hw.bind fun _ => .pure fun h => h)) ?_)
  exact fun h => mem_union.1 h

/-! ### Loops as a whole -/

/-- What is live before a statement is read on some path through it, or needed where the path
leads. -/
def Attains (v : VarId) (p : Path Exit) (live : Targets → IdSet → IdSet) : Prop :=
  ∀ t o, v ∉ t.protect → Exhibits v p (fun e => v ∈ t.after o e) (v ∈ live t o)

/-- Every run can be cut at once. -/
theorem run_cut {σ ε : Type} {M : Meaning σ ε} {s : σ} (u : Stmt) : u.run M s [] .cut s := by
  cases u
  exact .cut .cut

theorem test_cut (c : Expr) : (paths all).test c () [] .cut () := .cut c.path_cut

section Loops

variable {c : Expr} {body : Stmt}

/-- A variable that is live before a `while` loop is needed on some path through it. -/
theorem whileLoop_exhibits (hv : v ∉ t.protect)
    (hb : Attains v (body.run (paths all)) (body.liveIn all rounds)) :
    Exhibits v (Iterate (iteration ((paths all).test c) (restOfBody (body.run (paths all)))))
      (fun e => v ∈ t.after o e)
      (∃ n, v ∈ walkedHead n (walk all rounds t o (some c) [] body) (c.liveIn t.protect o)) := by
  have hrest : Runs (restOfBody (body.run (paths all))) := .of_cut (.cut (run_cut body))
  refine .iterate_chain (.of_cut (.cut (.cut (test_cut c)))) ?_ fun n => ?_
  · exact iteration_exhibits (.test hv c .inr) (.idle hrest not_false)
  · exact iteration_exhibits (testOption_exhibits hv (some c)) (restOfBody_exhibits (hb _ _ hv))

/-- What is live before the condition of a `do` loop after `n` walks. -/
abbrev walkedDo (all : IdSet) (rounds : Nat) (t : Targets) (o : IdSet) (c : Expr) (body : Stmt)
    (n : Nat) : IdSet :=
  walkedHead n (walk all rounds t o (some c) [] body) (c.liveIn t.protect o)

/-- What is live before the body of the loop then. -/
abbrev walkedDoBody (all : IdSet) (rounds : Nat) (t : Targets) (o : IdSet) (c : Expr) (body : Stmt)
    (n : Nat) : IdSet :=
  body.liveIn all rounds (t.breakable o (walkedDo all rounds t o c body n))
    (walkedDo all rounds t o c body n)

theorem doLoop_exhibits (hv : v ∉ t.protect)
    (hb : Attains v (body.run (paths all)) (body.liveIn all rounds)) :
    Exhibits v (Iterate (restOfDo (paths all) c (body.run (paths all))))
      (fun e => v ∈ t.after o e) (∃ n, v ∈ walkedDoBody all rounds t o c body n) := by
  refine .iterate_chain (.of_cut (.cut (.cut (run_cut body)))) ?_ fun n => ?_
  · exact restOfDo_exhibits hv (hb _ _ hv) .inr
  · exact restOfDo_exhibits hv (hb _ _ hv) fun h => (mem_union.1 h).symm

/-- The rest of an iteration of a `do` loop whose walks have reached its condition. -/
theorem restOfDo_walked_exhibits (hv : v ∉ t.protect) :
    ∀ n, Exhibits v p
        (fun e => v ∈ (t.breakable o (walkedDo all rounds t o c body n)).after
          (walkedDo all rounds t o c body n) e) live →
      Exhibits v (restOfDo (paths all) c p)
        (loopNeed v t o (∃ m, v ∈ walkedDoBody all rounds t o c body m)) live
  | 0, hp => restOfDo_exhibits hv hp .inr
  | n + 1, hp => restOfDo_exhibits hv hp fun h =>
    (mem_union.1 h).symm.imp_left fun h => ⟨n, h⟩

theorem forLoop_exhibits (hv : v ∉ t.protect) {c : Option Expr} {update : List Expr}
    (hb : Attains v (body.run (paths all)) (body.liveIn all rounds)) :
    Exhibits v (Iterate (iteration ((paths all).testOption c)
        (restOfFor (paths all) update (body.run (paths all)))))
      (fun e => v ∈ t.after o e)
      (∃ n, v ∈ walkedHead n (walk all rounds t o c update body)
        (conditionIn t.protect o c ∅)) := by
  have hrest : Runs (restOfFor (paths all) update (body.run (paths all))) :=
    .of_cut (.cut (run_cut body))
  refine .iterate_chain (.of_cut (.cut ?_)) ?_ fun n => ?_
  · cases c with
    | none => exact bind_of_silent .intro (.cut (run_cut body))
    | some c => exact .cut (test_cut c)
  · exact iteration_exhibits (testOption_exhibits hv c) (.idle hrest (not_mem_empty v))
  · exact iteration_exhibits (testOption_exhibits hv c) (restOfFor_exhibits hv (hb _ _ hv))

theorem forEach_exhibits (hv : v ∉ t.protect) {w : VarId} {iterable : Expr}
    (hb : Attains v (body.run (paths all)) (body.liveIn all rounds)) :
    Exhibits v (Iterate (iteration ((paths all).next w iterable)
        (restOfBody (body.run (paths all)))))
      (fun e => v ∈ t.after o e)
      (∃ n, v ∈ walkedHead n (walkEach all rounds t o w body) o) := by
  have hrest : Runs (restOfBody (body.run (paths all))) := .of_cut (.cut (run_cut body))
  refine .iterate_chain (.of_cut (.cut (.cut (.cut .cut)))) ?_ fun n => ?_
  · refine iteration_exhibits ?_ (.idle hrest (not_mem_empty v))
    exact (next_exhibits w iterable ∅).mono fun h => mem_union.2 (.inl h)
  · exact iteration_exhibits (next_exhibits w iterable _) (restOfBody_exhibits (hb _ _ hv))

end Loops

/-! ### Whole statements -/

theorem mem_after_ofSwitch_of :
    ∀ {e : Exit}, v ∈ (t.breakable o t.cont).after o e → v ∈ t.after o e.ofSwitch
  | .normal, h | .brk, h | .cont, h | .ret, h => h

theorem mem_of_mem_switchEntry {cases : List (SwitchCase Expr Stmt)} {entry : IdSet}
    (h : v ∈ switchEntry o cases entry) :
    v ∈ entry ∨ (!cases.any SwitchCase.isDefault) = true ∧ v ∈ o := by
  unfold switchEntry at h
  split at h
  · exact .inl h
  · next hd => exact (mem_union.1 h).imp_right fun h => ⟨by simpa using hd, h⟩

theorem listRun_runs (ss : List Stmt) : Runs (listRun (paths all) ss) := by
  cases ss with
  | nil => exact ⟨_, _, .intro⟩
  | cons s ss => exact .of_cut (.cut (run_cut s))

theorem fallRun_runs (cs : List (SwitchCase Expr Stmt)) : Runs (fallRun (paths all) cs) := by
  induction cs with
  | nil => exact ⟨_, _, .intro⟩
  | cons c cs ih => exact (listRun_runs c.body).andThen ih

/-- The groups have a path if there is a group to enter or all may be passed by. -/
theorem casesRun_runs {skips : Bool} :
    ∀ {cs : List (SwitchCase Expr Stmt)}, (cs = [] → skips = true) →
      Runs (casesRun (paths all) skips cs)
  | [], h => by
    rw [casesRun, if_pos (h rfl)]
    exact ⟨_, _, .intro⟩
  | ⟨_, _, body⟩ :: cs, _ => ((listRun_runs body).andThen (fallRun_runs cs)).left

mutual

/-- Each member of the set before a statement without `try` statements is read on some path through
it, or needed where the path leads. -/
theorem run_exhibits :
    ∀ {s : Stmt}, (∀ u ∈ s.substmts, u.kind.isTry = false) →
      Attains v (s.run (paths all)) (s.liveIn all rounds)
  | node id kind, h, t, o, hp => by
    have hk : kind.isTry = false := h (node id kind) List.mem_cons_self
    refine .hazard_bind ((kindRun_exhibits hk (fun u hu => ?_) t o hp).mono fun hv => ?_)
    · exact h u (List.mem_cons_of_mem _ hu)
    · exact (mem_union.1 hv).resolve_right hp

/-- One case for each form of statement that is no `try`. -/
theorem kindRun_exhibits :
    ∀ {k : StmtKind Expr Stmt}, k.isTry = false → (∀ u ∈ substmtsOfKind k, u.kind.isTry = false) →
      Attains v (kindRun (paths all) k) (kindIn all rounds · · k)
  | .decl w none, _, _, _, _, hp => (declare_exhibits hp w none).bind fun _ => .pure fun h => h
  | .decl w (some e), _, _, _, _, hp =>
    (declare_exhibits hp w (some e)).bind fun _ => .pure fun h => h
  | .expr e, _, _, _, o, hp => (e.path_exhibits hp o).bind fun _ => .pure fun h => h
  | .block _, _, h, t, o, hp => listRun_exhibits h t o hp
  | .branch c _ none, _, h, t, o, hp =>
    (Exhibits.test hp c mem_union.1).ite (run_exhibits h t o hp) (.pure fun h => h)
  | .branch c _ (some _), _, h, t, o, hp => by
    simp only [substmtsOfKind, List.mem_append] at h
    refine (Exhibits.test hp c mem_union.1).ite ?_ ?_
    · exact run_exhibits (fun u hu => h u (.inl hu)) t o hp
    · exact run_exhibits (fun u hu => h u (.inr hu)) t o hp
  | .whileLoop _ _, _, h, _, _, hp =>
    (whileLoop_exhibits hp (run_exhibits h)).mono fun hv => ⟨_, hv⟩
  | .doLoop _ _, _, h, _, _, hp => (doLoop_exhibits hp (run_exhibits h)).mono fun hv => ⟨_, hv⟩
  | .forLoop _ _ _ _, _, h, _, _, hp => by
    simp only [substmtsOfKind, List.mem_append] at h
    refine (listRun_exhibits (fun u hu => h u (.inl hu)) _ _ hp).andThen ?_ fun _ => mem_after_of_ne
    exact (forLoop_exhibits hp (run_exhibits fun u hu => h u (.inr hu))).mono fun hv => ⟨_, hv⟩
  | .forEach _ iterable _, _, h, _, _, hp =>
    (iterable.path_exhibits hp _).bind fun _ =>
      (forEach_exhibits hp (run_exhibits h)).mono fun hv => ⟨_, hv⟩
  | .switch selector cases, _, h, t, o, hp => by
    refine (selector.path_exhibits hp _).bind fun _ => ?_
    refine (Exhibits.evalList hp (labels cases)).bind fun _ => ?_
    have hcases : Exhibits v (casesRun (paths all) (!cases.any SwitchCase.isDefault) cases)
        (fun e => v ∈ (t.breakable o t.cont).after o e) _ :=
      ⟨casesRun_runs fun hnil => by simp [hnil], casesRun_shows h _ o hp⟩
    exact (hcases.bind fun _ => .pure mem_after_ofSwitch_of).mono mem_of_mem_switchEntry
  | .throw e, _, _, t, _, hp => (e.path_exhibits hp t.protect).bind fun _ => .throw hp
  | .assert c message, _, _, _, _, hp => assertion_exhibits hp c message
  | .ret none, _, _, _, _, hp => (Exhibits.evalList hp []).bind fun _ => .pure fun h => h
  | .ret (some e), _, _, _, _, hp => (Exhibits.evalList hp [e]).bind fun _ => .pure fun h => h
  | .breakOut, _, _, _, _, _ | .continueLoop, _, _, _, _, _ | .empty, _, _, _, _, _ =>
    .pure fun h => h
  | .err, _, _, _, _, _ =>
    ((Exhibits.readAll all.toList).bind fun _ => .pure False.elim).mono mem_toList.2

theorem listRun_exhibits :
    ∀ {ss : List Stmt}, (∀ u ∈ substmtsOfList ss, u.kind.isTry = false) →
      Attains v (listRun (paths all) ss) (listIn all rounds · · ss)
  | [], _, _, _, _ => .pure fun h => h
  | _ :: _, h, _, _, hp => by
    simp only [substmtsOfList, List.mem_append] at h
    refine (run_exhibits (fun u hu => h u (.inl hu)) _ _ hp).andThen ?_ fun _ => mem_after_of_ne
    exact listRun_exhibits (fun u hu => h u (.inr hu)) _ _ hp

theorem fallRun_exhibits :
    ∀ {cs : List (SwitchCase Expr Stmt)}, (∀ u ∈ substmtsOfCases cs, u.kind.isTry = false) →
      Attains v (fallRun (paths all) cs) fun t o => (casesIn all rounds t o cs).1
  | [], _, _, _, _ => .pure fun h => h
  | ⟨_, _, _⟩ :: _, h, _, _, hp => by
    simp only [substmtsOfCases, List.mem_append] at h
    refine (listRun_exhibits (fun u hu => h u (.inl hu)) _ _ hp).andThen ?_ fun _ => mem_after_of_ne
    exact fallRun_exhibits (fun u hu => h u (.inr hu)) _ _ hp

theorem casesRun_shows {skips : Bool} :
    ∀ {cs : List (SwitchCase Expr Stmt)}, (∀ u ∈ substmtsOfCases cs, u.kind.isTry = false) →
      ∀ (t : Targets) (o : IdSet), v ∉ t.protect →
        v ∈ (casesIn all rounds t o cs).2 ∨ skips = true ∧ v ∈ o →
        Shows v (casesRun (paths all) skips cs) fun e => v ∈ t.after o e
  | [], _, _, _, _, .inl hv => absurd hv (not_mem_empty v)
  | [], _, _, _, _, .inr ⟨hs, hv⟩ => by
    rw [casesRun, if_pos hs]
    exact (Exhibits.pure fun h => h).shows hv
  | ⟨_, _, _⟩ :: _, h, t, o, hp, hv => by
    have hrest := fun u hu => h u (List.mem_append.2 (.inr hu))
    rw [casesIn, mem_union, or_right_comm] at hv
    rcases hv with hv | hv
    · exact (casesRun_shows hrest t o hp hv).right
    · have hbody := fun u hu => h u (List.mem_append.2 (.inl hu))
      have hfirst := (listRun_exhibits hbody _ _ hp).andThen (fallRun_exhibits hrest t o hp)
        fun _ => mem_after_of_ne
      exact (hfirst.shows hv).left

end

end Stmt

/-! ## Paths from inside a statement -/

/-- Every start is recorded with a live set each member of which some path from there shows. -/
def Attained (v : VarId) (t : Targets) (o : IdSet) (starts : List (Stmt × Path Exit))
    (entries : List LiveEntry) : Prop :=
  ∀ s p, (s, p) ∈ starts → ∃ live out, .stmt s.id live out ∈ entries ∧
    Exhibits v p (fun e => v ∈ t.after o e) (v ∈ live)

namespace Attained

variable {starts starts' : List (Stmt × Path Exit)} {entries entries' : List LiveEntry}

theorem nil : Attained v t o [] entries := by
  intro s p h
  cases h

theorem append (h : Attained v t o starts entries) (h' : Attained v t o starts' entries) :
    Attained v t o (starts ++ starts') entries := by
  intro s p hm
  rcases List.mem_append.1 hm with hm | hm
  · exact h s p hm
  · exact h' s p hm

theorem left (h : Attained v t o starts entries) :
    Attained v t o starts (entries ++ entries') := by
  intro s p hm
  obtain ⟨live, out, he, hl⟩ := h s p hm
  exact ⟨live, out, List.mem_append.2 (.inl he), hl⟩

theorem right (h : Attained v t o starts entries') :
    Attained v t o starts (entries ++ entries') := by
  intro s p hm
  obtain ⟨live, out, he, hl⟩ := h s p hm
  exact ⟨live, out, List.mem_append.2 (.inr he), hl⟩

/-- Goes on from every start in the same way. -/
theorem thenEach {u : Targets} {o' : IdSet} {f : Path Exit → Path Exit}
    (h : Attained v t o starts entries)
    (hf : ∀ {p live}, Exhibits v p (fun e => v ∈ t.after o e) live →
      Exhibits v (f p) (fun e => v ∈ u.after o' e) live) :
    Attained v u o' (Stmt.thenEach f starts) entries := by
  intro s p hm
  obtain ⟨⟨s, p⟩, hs, heq⟩ := List.mem_map.1 hm
  cases heq
  obtain ⟨live, out, he, hl⟩ := h s p hs
  exact ⟨live, out, he, hf hl⟩

end Attained

namespace Stmt

mutual

/-- Each member of the set recorded for a statement is read on some path from its entry, or needed
where that path leads. -/
theorem starts_attained :
    ∀ {s : Stmt}, (∀ u ∈ s.substmts, u.kind.isTry = false) →
      ∀ (t : Targets) (o : IdSet), v ∉ t.protect →
        Attained v t o (s.starts (paths all)) (s.liveEntries all rounds t o)
  | node id kind, h, t, o, hp => by
    have hk : kind.isTry = false := h (node id kind) List.mem_cons_self
    intro s p hm
    rcases List.mem_cons.1 hm with heq | hm
    · cases heq
      exact ⟨_, _, List.mem_append.2 (.inr (List.mem_singleton.2 rfl)), run_exhibits h t o hp⟩
    · refine (kindStarts_attained hk (fun u hu => ?_) t o hp).left s p hm
      exact h u (List.mem_cons_of_mem _ hu)

/-- Every nested statement is started with the sets its entry holds. -/
theorem kindStarts_attained :
    ∀ {k : StmtKind Expr Stmt}, k.isTry = false → (∀ u ∈ substmtsOfKind k, u.kind.isTry = false) →
      ∀ (t : Targets) (o : IdSet), v ∉ t.protect →
        Attained v t o (kindStarts (paths all) k) (kindEntries all rounds t o k)
  | .block _, _, h, t, o, hp => listStarts_attained h t o hp
  | .branch _ _ none, _, h, t, o, hp => (starts_attained h t o hp).left
  | .branch _ _ (some _), _, h, t, o, hp => by
    simp only [substmtsOfKind, List.mem_append] at h
    refine .append (.left (.left ?_)) (.left (.right ?_))
    · exact starts_attained (fun u hu => h u (.inl hu)) t o hp
    · exact starts_attained (fun u hu => h u (.inr hu)) t o hp
  | .whileLoop _ _, _, h, _, _, hp => by
    rw [kindStarts]
    refine .left ((starts_attained h _ _ (by exact hp)).thenEach fun hr => ?_)
    refine (restOfBody_exhibits hr).resume ?_
    exact (whileLoop_exhibits hp (run_exhibits h)).mono fun hv => ⟨_, hv⟩
  | .doLoop _ _, _, h, _, _, hp => by
    rw [kindStarts]
    refine .left ((starts_attained h _ _ (by exact hp)).thenEach fun hr => ?_)
    exact (restOfDo_walked_exhibits hp _ hr).resume (doLoop_exhibits hp (run_exhibits h))
  | .forLoop _ _ _ _, _, h, _, _, hp => by
    simp only [substmtsOfKind, List.mem_append] at h
    have hbody := fun u hu => h u (.inr hu)
    refine .append (.right ?_) (.left (.left (.right ?_)))
    · refine (listStarts_attained (fun u hu => h u (.inl hu)) _ _ hp).thenEach fun hr => ?_
      refine hr.andThen ?_ fun _ => mem_after_of_ne
      exact (forLoop_exhibits hp (run_exhibits hbody)).mono fun hv => ⟨rounds + 1, hv⟩
    · refine (starts_attained hbody _ _ (by exact hp)).thenEach fun hr => ?_
      refine (restOfFor_exhibits hp hr).resume ?_
      exact (forLoop_exhibits hp (run_exhibits hbody)).mono fun hv => ⟨_, hv⟩
  | .forEach _ _ _, _, h, _, _, hp => by
    rw [kindStarts]
    refine .left ((starts_attained h _ _ (by exact hp)).thenEach fun hr => ?_)
    refine (restOfBody_exhibits hr).resume ?_
    exact (forEach_exhibits hp (run_exhibits h)).mono fun hv => ⟨_, hv⟩
  | .switch _ _, _, h, _, _, hp => by
    rw [kindStarts]
    refine .left (.left ((caseStarts_attained h _ _ (by exact hp)).thenEach fun hr => ?_))
    exact hr.bind fun _ => .pure mem_after_ofSwitch_of
  | .decl .., _, _, _, _, _ | .expr _, _, _, _, _, _ | .throw _, _, _, _, _, _
  | .assert .., _, _, _, _, _ | .ret _, _, _, _, _, _ | .breakOut, _, _, _, _, _
  | .continueLoop, _, _, _, _, _ | .empty, _, _, _, _, _ | .err, _, _, _, _, _ => .nil

theorem listStarts_attained :
    ∀ {ss : List Stmt}, (∀ u ∈ substmtsOfList ss, u.kind.isTry = false) →
      ∀ (t : Targets) (o : IdSet), v ∉ t.protect →
        Attained v t o (listStarts (paths all) ss) (listEntries all rounds t o ss)
  | [], _, _, _, _ => .nil
  | _ :: _, h, t, o, hp => by
    simp only [substmtsOfList, List.mem_append] at h
    have hrest := fun u hu => h u (.inr hu)
    refine .append (.right ?_) (listStarts_attained hrest t o hp).left
    refine (starts_attained (fun u hu => h u (.inl hu)) t _ hp).thenEach fun hr => ?_
    exact hr.andThen (listRun_exhibits hrest t o hp) fun _ => mem_after_of_ne

theorem caseStarts_attained :
    ∀ {cs : List (SwitchCase Expr Stmt)}, (∀ u ∈ substmtsOfCases cs, u.kind.isTry = false) →
      ∀ (t : Targets) (o : IdSet), v ∉ t.protect →
        Attained v t o (caseStarts (paths all) cs) (caseEntries all rounds t o cs)
  | [], _, _, _, _ => .nil
  | ⟨_, _, _⟩ :: _, h, t, o, hp => by
    simp only [substmtsOfCases, List.mem_append] at h
    have hrest := fun u hu => h u (.inr hu)
    refine .append (.right ?_) (caseStarts_attained hrest t o hp).left
    refine (listStarts_attained (fun u hu => h u (.inl hu)) t _ hp).thenEach fun hr => ?_
    exact hr.andThen (fallRun_exhibits hrest t o hp) fun _ => mem_after_of_ne

end

end Stmt

/-! ## Bodies -/

/-- Some path from the start of the body has the accesses `path` up to some point. -/
def Body.HasEntryPath (b : Body) (path : List Access) : Prop :=
  ∃ r, Stmt.listRun (paths b.allVars) b.root () path r ()

/-- Nothing is needed after a body, so what a path shows is that it reads. -/
theorem Shows.reads {p : Path Exit}
    (h : Shows v p fun e => v ∈ Targets.after {} ∅ e) :
    ∃ path, (∃ r, p () path r ()) ∧ ReadsFirst v path := by
  obtain ⟨path, r, hr, hs⟩ := h
  refine ⟨path, ⟨r, hr⟩, hs.resolve_right ?_⟩
  rintro ⟨-, e, -, he⟩
  cases e <;> exact not_mem_empty v he

namespace LivenessInfo

/-- In a body without `try` statements, what is live before a statement, or where the body starts,
is read before it is written on some path from there. -/
theorem exists_readsFirst {b : Body} (hb : b.Accepted)
    (htry : ∀ s ∈ b.root.flatMap Stmt.substmts, s.kind.isTry = false) :
    (∀ s ∈ b.root.flatMap Stmt.substmts, ∀ v ∈ (compute b).liveIn s.id,
      ∃ path, b.HasPath s path ∧ ReadsFirst v path) ∧
    ∀ v ∈ (compute b).entry, ∃ path, b.HasEntryPath path ∧ ReadsFirst v path := by
  have htry' : ∀ s ∈ Stmt.substmtsOfList b.root, s.kind.isTry = false := by
    rw [Stmt.substmtsOfList_eq]
    exact htry
  constructor
  · intro s hs v hv
    obtain ⟨⟨s, p⟩, hp, rfl⟩ : ∃ start ∈ b.starts, start.1 = s := by
      rw [← Stmt.substmtsOfList_eq, ← Stmt.map_fst_listStarts (paths b.allVars)] at hs
      exact List.mem_map.1 hs
    obtain ⟨live, out, hentry, hshows⟩ :=
      Stmt.listStarts_attained htry' {} ∅ (not_mem_empty v) s p hp
    rw [(compute_of_entry hb hs hentry).1] at hv
    obtain ⟨path, hr, hread⟩ := (hshows.shows hv).reads
    exact ⟨path, ⟨p, hp, hr⟩, hread⟩
  · intro v hv
    rw [compute, computeWith, entry_foldl_put] at hv
    exact ((Stmt.listRun_exhibits htry' {} ∅ (not_mem_empty v)).shows hv).reads

/-- A switch whose first group writes what the second reads. -/
def fallingThrough : Body where
  name := "fallingThrough"
  vars := #[⟨"x", .prim .int, .param, .dummy⟩, ⟨"y", .prim .int, .param, .dummy⟩]
  exprs := #[⟨.dummy, .var 0⟩, ⟨.dummy, .lit (.int 1)⟩, ⟨.dummy, .var 1⟩, ⟨.dummy, .lit (.int 2)⟩,
    ⟨.dummy, .assign 2 none 3⟩, ⟨.dummy, .var 1⟩]
  stmts := #[⟨.dummy, .expr 4⟩, ⟨.dummy, .ret (some 5)⟩,
    ⟨.dummy, .switch 0 [⟨.dummy, [1], [0]⟩, ⟨.dummy, [], [1]⟩]⟩]
  params := [0, 1]
  block := [2]

theorem exists_readsFirst_fallingThrough :
    1 ∈ (compute fallingThrough).liveIn 2 ∧
      (∃ path, fallingThrough.HasPath (fallingThrough.stmtTree 2) path ∧ ReadsFirst 1 path) ∧
      ∃ path, fallingThrough.HasEntryPath path ∧ ReadsFirst 1 path := by
  have hb : fallingThrough.Accepted :=
    ⟨fallingThrough.has_of_reaches (by decide) (by decide) (by decide), by decide⟩
  have hlive : 1 ∈ (compute fallingThrough).liveIn 2 := by decide
  obtain ⟨hstmts, hentry⟩ := exists_readsFirst hb (by decide)
  exact ⟨hlive, hstmts _ (.head _) 1 hlive, hentry 1 (by decide)⟩

end LivenessInfo

end Midend
