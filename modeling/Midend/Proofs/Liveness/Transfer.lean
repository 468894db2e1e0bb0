import Midend.Proofs.Liveness.Needs
import Midend.Proofs.Liveness.Pointwise

/-!
# The transfer functions cover the paths

The live sets before an expression or statement follow its paths backward:
whatever a path needs is live before it (`Expr.path_needs`, `Stmt.run_needs`). A
node inside a `try` statement keeps everything its handlers need, so only
variables that no handler needs are followed through it.
-/

namespace Midend

open Run IdSet

variable {v : VarId}

/-! ## Expressions -/

namespace Expr

variable {p : IdSet}

mutual

/-- Every path through an expression needs only what is live before it. -/
theorem path_needs (hp : v ∉ p) :
    ∀ (e : Expr) (o : IdSet), Needs v e.path (v ∈ p) (fun _ => v ∈ o) (v ∈ e.liveIn p o)
  | node _ (.var w), o => by
    rw [path, liveIn]
    refine .hazardous hp (.read (fun h => ?_) fun h => ?_)
    · simp [h]
    · simp [h]
  | node _ (.assign l op r), o => by
    rw [path, liveIn]
    refine .hazardous hp (.mono ?_ fun h => mem_union.2 (.inl h))
    cases l.localTarget? with
    | none => exact (placePath_needs hp l _).bind fun _ => path_needs hp r o
    | some w =>
      have hw : Needs v (Emit (.write w)) (v ∈ p) (fun _ => v ∈ o) (v ∈ o.erase w) :=
        .write fun hw h => mem_erase.2 ⟨h, hw⟩
      have hr := (path_needs hp r _).bind fun _ => hw
      cases op with
      | none => exact hr
      | some op =>
        refine Needs.bind (.read (fun h => ?_) fun h => ?_) fun _ => hr
        · simp [h]
        · exact mem_insert.2 (.inl h)
  | node _ (.unary (.step _) e), o => by
    rw [path, liveIn]
    refine .hazardous hp (.mono ?_ fun h => mem_union.2 (.inl h))
    cases e.localTarget? with
    | none => exact placePath_needs hp e o
    | some w =>
      have hw : Needs v (Emit (.write w)) (v ∈ p) (fun _ => v ∈ o) (v ∈ o) := .write fun _ h => h
      refine Needs.bind (.read (fun h => ?_) fun h => ?_) fun _ => hw
      · simp [h]
      · exact mem_insert.2 (.inl h)
  | node _ (.binary l (.logic _) r), o => by
    rw [path, liveIn]
    refine .hazardous hp (.mono ?_ fun h => mem_union.2 (.inl h))
    refine (path_needs hp l _).bind fun _ => .either (.pure fun h => mem_union.2 (.inl h)) ?_
    exact (path_needs hp r o).mono fun h => mem_union.2 (.inr h)
  | node _ (.conditional c t f), o => by
    rw [path, liveIn]
    refine .hazardous hp (.mono ?_ fun h => mem_union.2 (.inl h))
    refine (path_needs hp c _).bind fun _ => .either ?_ ?_
    · exact (path_needs hp t o).mono fun h => mem_union.2 (.inl h)
    · exact (path_needs hp f o).mono fun h => mem_union.2 (.inr h)
  | node _ (.lit _), o | node _ .err, o | node _ (.field none ..), o =>
    .hazardous hp (.pure fun h => mem_union.2 (.inl h))
  | node _ (.field (some e) ..), o | node _ (.paren e), o | node _ (.cast _ e), o
  | node _ (.instanceOf e _), o | node _ (.unary .not e), o | node _ (.unary .neg e), o
  | node _ (.unary .plus e), o | node _ (.unary .bitNot e), o =>
    .hazardous hp ((path_needs hp e o).mono fun h => mem_union.2 (.inl h))
  | node _ (.binary l (.arith _) r), o | node _ (.binary l (.shift _) r), o
  | node _ (.binary l (.bits _) r), o | node _ (.binary l (.order _) r), o
  | node _ (.binary l (.equality _) r), o | node _ (.index l r), o =>
    .hazardous hp (((path_needs hp l _).bind fun _ => path_needs hp r o).mono
      fun h => mem_union.2 (.inl h))
  | node _ (.call none _ args), o | node _ (.create _ args), o =>
    .hazardous hp ((listPath_needs hp args o).mono fun h => mem_union.2 (.inl h))
  | node _ (.call (some e) _ args), o =>
    .hazardous hp (((path_needs hp e _).bind fun _ => listPath_needs hp args o).mono
      fun h => mem_union.2 (.inl h))

/-- What a path through a place needs is live before it. -/
theorem placePath_needs (hp : v ∉ p) :
    ∀ (e : Expr) (o : IdSet), Needs v e.placePath (v ∈ p) (fun _ => v ∈ o) (v ∈ e.placeIn p o)
  | node _ kind, o => by
    cases kind with
    | paren inner => exact placePath_needs hp inner o
    | _ => exact operandsPath_needs hp _ o

theorem operandsPath_needs (hp : v ∉ p) :
    ∀ (k : ExprKind Expr) (o : IdSet),
      Needs v (operandsPath k) (v ∈ p) (fun _ => v ∈ o) (v ∈ operandsIn p o k)
  | .lit _, _ | .var _, _ | .err, _ | .field none .., _ => .pure fun h => h
  | .field (some e) .., o | .unary _ e, o | .paren e, o | .cast _ e, o | .instanceOf e _, o =>
    path_needs hp e o
  | .assign l _ r, o | .binary l _ r, o | .index l r, o =>
    (path_needs hp l _).bind fun _ => path_needs hp r o
  | .conditional c t f, o =>
    (path_needs hp c _).bind fun _ => (path_needs hp t _).bind fun _ => path_needs hp f o
  | .call none _ args, o | .create _ args, o => listPath_needs hp args o
  | .call (some e) _ args, o => (path_needs hp e _).bind fun _ => listPath_needs hp args o

theorem listPath_needs (hp : v ∉ p) :
    ∀ (es : List Expr) (o : IdSet),
      Needs v (listPath es) (v ∈ p) (fun _ => v ∈ o) (v ∈ listIn p o es)
  | [], _ => .pure fun h => h
  | e :: es, o => (path_needs hp e _).bind fun _ => listPath_needs hp es o

end

end Expr

/-! ## Statements -/

/-- The variables live where a statement leads, given those live after it. -/
def Targets.after (t : Targets) (out : IdSet) : Exit → IdSet
  | .normal => out
  | .brk => t.brk
  | .cont => t.cont
  | .ret => t.ret

variable {all : IdSet} {t : Targets} {o : IdSet}

namespace Needs

variable {p q : Path Exit} {thrown live : Prop}

/-- What follows a statement is needed where it ends normally. -/
theorem andThen {need : Exit → Prop} {mid : Exit → Prop} (hp : Needs v p thrown mid live)
    (hq : Needs v q thrown need (mid .normal)) (hn : ∀ e, e ≠ .normal → need e → mid e) :
    Needs v (p.andThen q) thrown need live := by
  refine hp.bind fun e => ?_
  cases e with
  | normal => exact hq
  | brk => exact .pure (hn _ (by decide))
  | cont => exact .pure (hn _ (by decide))
  | ret => exact .pure (hn _ (by decide))

theorem test (hp : v ∉ t.protect) (c : Expr) (s : IdSet) :
    Needs v ((paths all).test c) (v ∈ t.protect) (fun _ => v ∈ s) (v ∈ c.liveIn t.protect s) :=
  (c.path_needs hp s).bind fun _ => .either (.pure fun h => h) (.pure fun h => h)

/-- Before a condition is tested, what either way needs is live. -/
theorem ite {α : Type} {need : α → Prop} {test : Path Bool} {x y : Path α} {s : Prop}
    (ht : Needs v test thrown (fun _ => s) live) (hx : Needs v x thrown need s)
    (hy : Needs v y thrown need s) :
    Needs v (do if ← test then x else y) thrown need live := by
  refine ht.bind fun b => ?_
  cases b with
  | false => exact hy
  | true => exact hx

/-- Expressions, as the meaning of a statement uses them. -/
theorem evalList (hp : v ∉ t.protect) (es : List Expr) :
    Needs v ((paths all).evalList es) (v ∈ t.protect) (fun _ => v ∈ o)
      (v ∈ Expr.listIn t.protect o es) := by
  induction es with
  | nil => exact .pure fun h => h
  | cons e es ih => exact (e.path_needs hp _).bind fun _ => ih

end Needs

namespace Stmt

/-! ### Loops -/

/-- What a loop needs where an iteration ends: `again` if another follows. -/
abbrev loopNeed (v : VarId) (t : Targets) (o : IdSet) (again : Prop) (e : Option Exit) : Prop :=
  e.elim again fun e => v ∈ t.after o e

variable {p : Path Exit} {head : IdSet} {thrown live : Prop}

/-- What the loop needs after its body is what the end of the body needs. -/
theorem of_loopNeed_ofBody :
    ∀ {e : Exit}, loopNeed v t o (v ∈ head) e.ofBody → v ∈ (t.breakable o head).after head e
  | .normal, h | .brk, h | .cont, h | .ret, h => h

theorem restOfBody_needs
    (hp : Needs v p thrown (fun e => v ∈ (t.breakable o head).after head e) live) :
    Needs v (restOfBody p) thrown (loopNeed v t o (v ∈ head)) live :=
  hp.bind fun _ => .pure of_loopNeed_ofBody

theorem restOfDo_needs (hv : v ∉ t.protect) {c : Expr} {bodyIn : IdSet}
    (hp : Needs v p (v ∈ t.protect) (fun e => v ∈ (t.breakable o head).after head e) live)
    (hc : v ∈ c.liveIn t.protect (o ∪ bodyIn) → v ∈ head) :
    Needs v (restOfDo (paths all) c p) (v ∈ t.protect) (loopNeed v t o (v ∈ bodyIn)) live := by
  refine hp.bind fun e => ?_
  have ht : Needs v (do if ← (paths all).test c then return none else return some .normal)
      (v ∈ t.protect) (loopNeed v t o (v ∈ bodyIn)) (v ∈ c.liveIn t.protect (o ∪ bodyIn)) :=
    (Needs.test hv c _).ite (.pure fun h => mem_union.2 (.inr h))
      (.pure fun h => mem_union.2 (.inl h))
  cases e with
  | normal => exact ht.mono hc
  | brk => exact .pure fun h => h
  | cont => exact ht.mono hc
  | ret => exact .pure fun h => h

theorem restOfFor_needs (hv : v ∉ t.protect) {update : List Expr}
    (hp : Needs v p (v ∈ t.protect)
      (fun e => v ∈ (t.breakable o (Expr.listIn t.protect head update)).after
        (Expr.listIn t.protect head update) e) live) :
    Needs v (restOfFor (paths all) update p) (v ∈ t.protect) (loopNeed v t o (v ∈ head)) live := by
  refine hp.bind fun e => ?_
  have hu : Needs v (do (paths all).evalList update; return none) (v ∈ t.protect)
      (loopNeed v t o (v ∈ head)) (v ∈ Expr.listIn t.protect head update) :=
    (Needs.evalList hv update).bind fun _ => .pure fun h => h
  cases e with
  | normal => exact hu
  | brk => exact .pure fun h => h
  | cont => exact hu
  | ret => exact .pure fun h => h

/-- One iteration is its test and its rest. -/
theorem iteration_needs {test : Path Bool} {rest : Path (Option Exit)} {bodyIn : IdSet}
    (ht : Needs v test thrown (fun b => if b then v ∈ bodyIn else v ∈ o) live)
    (hr : Needs v rest thrown (loopNeed v t o (v ∈ head)) (v ∈ bodyIn)) :
    Needs v (iteration test rest) thrown (loopNeed v t o (v ∈ head)) live := by
  refine ht.bind fun b => ?_
  cases b with
  | false => exact .pure fun h => h
  | true => exact hr

theorem testOption_needs (hv : v ∉ t.protect) {bodyIn : IdSet} :
    ∀ c : Option Expr, Needs v ((paths all).testOption c) (v ∈ t.protect)
      (fun b => if b then v ∈ bodyIn else v ∈ o) (v ∈ conditionIn t.protect o c bodyIn)
  | none => .pure fun h => h
  | some c => by
    refine (Needs.test hv c _).weaken (fun h => h) fun b h => ?_
    cases b with
    | false => exact mem_union.2 (.inl h)
    | true => exact mem_union.2 (.inr h)

/-- The next element is stored in the variable before the body. -/
theorem next_needs (hv : v ∉ t.protect) (w : VarId) (iterable : Expr) {bodyIn : IdSet} :
    Needs v ((paths all).next w iterable) (v ∈ t.protect)
      (fun b => if b then v ∈ bodyIn else v ∈ o) (v ∈ o ∪ bodyIn.erase w) := by
  refine .hazard_bind (fun h => absurd h hv) (.either (.pure fun h => mem_union.2 (.inl h)) ?_)
  have hw : Needs v (Emit (.write w)) (v ∈ t.protect) (fun _ => v ∈ bodyIn)
      (v ∈ o ∪ bodyIn.erase w) :=
    .write fun hw h => mem_union.2 (.inr (mem_erase.2 ⟨h, hw⟩))
  exact hw.bind fun _ => .pure fun h => h

/-! ### Protected blocks -/

/-- Closing the resources reads each of them. -/
theorem closeAll_needs {need : Unit → Prop} (hn : need () → live) :
    ∀ {vs : List VarId}, (vs ≠ [] → thrown → live) → (v ∈ vs → live) →
      Needs v ((paths all).closeAll vs) thrown need live
  | [], _, _ => .pure hn
  | w :: vs, ht, h => by
    have hc : Needs v ((paths all).close w) thrown (fun _ => live) live :=
      (Needs.read (fun hw => h (by simp [hw])) fun h => h).bind fun _ =>
        .hazard (ht (by simp)) fun h => h
    exact hc.bind fun _ => closeAll_needs hn (fun _ => ht (by simp)) fun hv => h (by simp [hv])

/-- Leaving by a way needs what is needed there. -/
theorem leave_needs {need : Exit → Prop} :
    ∀ {way : Option Exit}, (way.elim thrown need → live) → Needs v (leave way) thrown need live
  | some _, h => .pure h
  | none, h => .throw h

/-- What is live on a way out through what needs `extra`. -/
theorem mem_after_through {extra : IdSet} :
    ∀ {e : Exit}, v ∈ t.after o e → v ∈ (t.through extra).after o e
  | .normal, h => h
  | .brk, h | .cont, h | .ret, h => mem_union.2 (.inl h)

/-- The ways out of a protected block need its resources and what is needed after they are
closed. -/
theorem mem_of_resourceVars {resources : List Stmt} {handlers : IdSet} :
    ∀ {way : Option Exit},
      v ∈ resourceVars resources ∨
        way.elim (v ∈ (t.through handlers).protect) (v ∈ (t.through handlers).after o ·) →
      way.elim (v ∈ (t.through (resourceVars resources ∪ handlers)).protect)
        (v ∈ (t.through (resourceVars resources ∪ handlers)).after
          (o ∪ resourceVars resources) ·)
  | some .normal => fun h => mem_union.2 h.symm
  | none | some .brk | some .cont | some .ret => by
    simp only [Option.elim, Targets.through, Targets.after, mem_union]
    rintro (h | h | h) <;> simp [h]

/-- Closing resources may throw, so where there are any, what the handlers need is live before. -/
theorem closing_needs {resources : List Stmt} {handlers : IdSet}
    (hl : resources.filterMap declaredVar? ≠ [] → v ∈ (t.through handlers).protect → live)
    (hp : Needs v p (v ∈ (t.through (resourceVars resources ∪ handlers)).protect)
      (fun e => v ∈ (t.through (resourceVars resources ∪ handlers)).after
        (o ∪ resourceVars resources) e) live) :
    Needs v (closing (paths all) resources p) (v ∈ (t.through handlers).protect)
      (fun e => v ∈ (t.through handlers).after o e) live := by
  by_cases hc : resources.filterMap declaredVar? ≠ [] ∧ v ∈ (t.through handlers).protect
  · exact .of_live _ _ _ (hl hc.1 hc.2)
  · have hp' : Needs v (Attempt p) (v ∈ (t.through handlers).protect)
        (fun way => way.elim (v ∈ (t.through (resourceVars resources ∪ handlers)).protect)
          fun e => v ∈ (t.through (resourceVars resources ∪ handlers)).after
            (o ∪ resourceVars resources) e) live := .attempt hp
    refine hp'.bind fun way => ?_
    have hclose : Needs v ((paths all).closeAll (resources.filterMap declaredVar?))
        (v ∈ (t.through handlers).protect)
        (fun _ => way.elim (v ∈ (t.through handlers).protect)
          (v ∈ (t.through handlers).after o ·)) _ :=
      closeAll_needs (fun h => mem_of_resourceVars (.inr h))
        (fun hne ht => absurd ⟨hne, ht⟩ hc)
        fun hv => mem_of_resourceVars (.inl (IdSet.mem_ofList.2 hv))
    have hnormal : Needs v
        (do (paths all).closeAll (resources.filterMap declaredVar?); return Exit.normal)
        (v ∈ (t.through handlers).protect)
        (fun e => e = Exit.normal → way.elim (v ∈ (t.through handlers).protect)
          (v ∈ (t.through handlers).after o ·)) _ :=
      hclose.bind fun _ => .pure fun h => h rfl
    exact hnormal.andThen (leave_needs fun h _ => h) fun _ hne _ h => absurd h hne

/-- A protected part needs what its handlers need. -/
theorem handledBy_needs {handler : Path Exit} {handlers : IdSet}
    (hp : Needs v p (v ∈ (t.through handlers).protect)
      (fun e => v ∈ (t.through handlers).after o e) live)
    (hh : Needs v handler (v ∈ t.protect) (fun e => v ∈ t.after o e) (v ∈ handlers)) :
    Needs v (p.handledBy handler) (v ∈ t.protect) (fun e => v ∈ t.after o e) live := by
  have hp' : Needs v (Attempt p) (v ∈ t.protect)
      (fun way => way.elim (v ∈ (t.through handlers).protect)
        fun e => v ∈ (t.through handlers).after o e) live := .attempt hp
  refine hp'.bind fun way => ?_
  cases way with
  | some e => exact .pure mem_after_through
  | none =>
    refine .either (.throw fun h => mem_union.2 (.inl h)) ?_
    exact hh.mono fun h => mem_union.2 (.inr h)

/-- What is needed before a finalizer is needed on every way out to it. -/
theorem mem_of_final {final : IdSet} (h : v ∈ final) :
    ∀ {way : Option Exit},
      way.elim (v ∈ (t.through final).protect) (v ∈ (t.through final).after final ·)
  | some .normal => h
  | none | some .brk | some .cont | some .ret => mem_union.2 (.inr h)

/-- What is needed on some way out is needed after a finalizer. -/
theorem mem_of_way :
    ∀ {way : Option Exit}, way.elim (v ∈ t.protect) (v ∈ t.after o ·) → v ∈ o ∪ t.anyExit
  | some .normal, h => mem_union.2 (.inl h)
  | none, h => by
    change v ∈ t.protect at h
    simp [Targets.anyExit, h]
  | some .brk, h => by
    change v ∈ t.brk at h
    simp [Targets.anyExit, h]
  | some .cont, h => by
    change v ∈ t.cont at h
    simp [Targets.anyExit, h]
  | some .ret, h => by
    change v ∈ t.ret at h
    simp [Targets.anyExit, h]

/-- A finalizer runs on every way out, and where it completes that way is taken after all. -/
theorem ensuring_needs {q : Path Exit} {final : IdSet}
    (hp : Needs v p (v ∈ (t.through final).protect)
      (fun e => v ∈ (t.through final).after final e) live)
    (hq : Needs v q (v ∈ t.protect) (fun e => v ∈ t.after (o ∪ t.anyExit) e) (v ∈ final)) :
    Needs v (p.ensuring q) (v ∈ t.protect) (fun e => v ∈ t.after o e) live := by
  have hp' : Needs v (Attempt p) (v ∈ t.protect)
      (fun way => way.elim (v ∈ (t.through final).protect)
        fun e => v ∈ (t.through final).after final e) live := .attempt hp
  refine hp'.bind fun way => ?_
  have hq' : Needs v q (v ∈ t.protect) (fun e => v ∈ t.after (o ∪ t.anyExit) e)
      (way.elim (v ∈ (t.through final).protect) fun e => v ∈ (t.through final).after final e) :=
    hq.mono fun h => mem_of_final h
  refine hq'.andThen (leave_needs mem_of_way) fun e hne h => ?_
  cases e with
  | normal => exact absurd rfl hne
  | brk => exact h
  | cont => exact h
  | ret => exact h

/-! ### Loops as a whole -/

variable {rounds : Nat}

theorem mem_after_of_ne {o' : IdSet} :
    ∀ {e : Exit}, e ≠ .normal → v ∈ t.after o e → v ∈ t.after o' e
  | .normal, hne, _ => absurd rfl hne
  | .brk, _, h | .cont, _, h | .ret, _, h => h

/-- One walk over a loop with a condition and updates, from its head to its head. -/
abbrev walk (all : IdSet) (rounds : Nat) (t : Targets) (o : IdSet) (c : Option Expr)
    (update : List Expr) (body : Stmt) (head : IdSet) : IdSet :=
  conditionIn t.protect o c
    (body.liveIn all rounds (t.breakable o (Expr.listIn t.protect head update))
      (Expr.listIn t.protect head update))

/-- One walk over a loop through the elements of an iterable. -/
abbrev walkEach (all : IdSet) (rounds : Nat) (t : Targets) (o : IdSet) (w : VarId) (body : Stmt)
    (head : IdSet) : IdSet :=
  o ∪ (body.liveIn all rounds (t.breakable o head) head).erase w

/-- A larger head makes a larger walk. -/
theorem walk_mono {c : Option Expr} {update : List Expr} {body : Stmt} {x y : IdSet}
    (h : v ∈ x → v ∈ y) :
    v ∈ walk all rounds t o c update body x → v ∈ walk all rounds t o c update body y := by
  have hu := Expr.listIn_mono (fun h : v ∈ t.protect => h) update h
  have ht := (Targets.LeAt.refl v t).breakable (fun h : v ∈ o => h) hu
  exact conditionIn_mono (fun h => h) (fun h => h) (body.liveIn_mono ht hu) c

theorem walkEach_mono {w : VarId} {body : Stmt} {x y : IdSet} (h : v ∈ x → v ∈ y) :
    v ∈ walkEach all rounds t o w body x → v ∈ walkEach all rounds t o w body y := by
  have ht := (Targets.LeAt.refl v t).breakable (fun h : v ∈ o => h) h
  exact mem_union_imp (fun h => h) (mem_erase_imp (body.liveIn_mono ht h) w)

/-- What a further walk would find at the head of a loop is live there. -/
theorem mem_of_walk {c : Option Expr} {update : List Expr} {body : Stmt} {n : Nat} {x : IdSet}
    (h : v ∈ walk all rounds t o c update body
      (walkedHead (n + 1) (walk all rounds t o c update body) x)) :
    v ∈ walkedHead (n + 1) (walk all rounds t o c update body) x :=
  (mem_walk_walkedHead walk_mono x n).1 h

/-- After the walks the head holds what one more walk would add. -/
theorem mem_of_walkEach {w : VarId} {body : Stmt} {n : Nat} {x : IdSet}
    (h : v ∈ walkEach all rounds t o w body
      (walkedHead (n + 1) (walkEach all rounds t o w body) x)) :
    v ∈ walkedHead (n + 1) (walkEach all rounds t o w body) x :=
  (mem_walk_walkedHead walkEach_mono x n).1 h

/-- Every path through a statement needs only what is live before it. -/
def Covers (v : VarId) (p : Path Exit) (live : Targets → IdSet → IdSet) : Prop :=
  ∀ t o, Needs v p (v ∈ t.protect) (fun e => v ∈ t.after o e) (v ∈ live t o)

section Loops

variable {c : Expr} {body : Stmt} {x : IdSet}

/-- What a path through a `while` loop needs is live before it. -/
theorem whileLoop_needs (hv : v ∉ t.protect)
    (hb : Covers v (body.run (paths all)) (body.liveIn all rounds)) (n : Nat) :
    Needs v (Iterate (iteration ((paths all).test c) (restOfBody (body.run (paths all)))))
      (v ∈ t.protect) (fun e => v ∈ t.after o e)
      (v ∈ walkedHead (n + 1) (walk all rounds t o (some c) [] body) x) := by
  refine .iterate (iteration_needs ?_ (restOfBody_needs (hb _ _)))
  exact (testOption_needs hv (some c)).mono fun h => mem_of_walk h

/-- The rest of an iteration of a `do` loop whose walks have reached its condition. -/
theorem restOfDo_walked_needs (hv : v ∉ t.protect) {n : Nat}
    (hp : Needs v p (v ∈ t.protect)
      (fun e => v ∈ (t.breakable o
          (walkedHead (n + 1) (walk all rounds t o (some c) [] body) x)).after
        (walkedHead (n + 1) (walk all rounds t o (some c) [] body) x) e) live) :
    Needs v (restOfDo (paths all) c p) (v ∈ t.protect)
      (loopNeed v t o (v ∈ body.liveIn all rounds
        (t.breakable o (walkedHead (n + 1) (walk all rounds t o (some c) [] body) x))
        (walkedHead (n + 1) (walk all rounds t o (some c) [] body) x))) live :=
  restOfDo_needs hv hp fun h => mem_of_walk h

theorem doLoop_needs (hv : v ∉ t.protect)
    (hb : Covers v (body.run (paths all)) (body.liveIn all rounds)) (n : Nat) :
    Needs v (Iterate (restOfDo (paths all) c (body.run (paths all))))
      (v ∈ t.protect) (fun e => v ∈ t.after o e)
      (v ∈ body.liveIn all rounds
        (t.breakable o (walkedHead (n + 1) (walk all rounds t o (some c) [] body) x))
        (walkedHead (n + 1) (walk all rounds t o (some c) [] body) x)) :=
  .iterate (restOfDo_walked_needs hv (hb _ _))

theorem forLoop_needs (hv : v ∉ t.protect) {c : Option Expr} {update : List Expr}
    (hb : Covers v (body.run (paths all)) (body.liveIn all rounds)) (n : Nat) :
    Needs v (Iterate (iteration ((paths all).testOption c)
        (restOfFor (paths all) update (body.run (paths all)))))
      (v ∈ t.protect) (fun e => v ∈ t.after o e)
      (v ∈ walkedHead (n + 1) (walk all rounds t o c update body) x) := by
  refine .iterate (iteration_needs ?_ (restOfFor_needs hv (hb _ _)))
  exact (testOption_needs hv c).mono mem_of_walk

theorem forEach_needs (hv : v ∉ t.protect) {w : VarId} {iterable : Expr}
    (hb : Covers v (body.run (paths all)) (body.liveIn all rounds)) (n : Nat) :
    Needs v (Iterate (iteration ((paths all).next w iterable) (restOfBody (body.run (paths all)))))
      (v ∈ t.protect) (fun e => v ∈ t.after o e)
      (v ∈ walkedHead (n + 1) (walkEach all rounds t o w body) x) := by
  refine .iterate (iteration_needs ?_ (restOfBody_needs (hb _ _)))
  exact (next_needs hv w iterable).mono mem_of_walkEach

end Loops

/-! ### Whole statements -/

/-- A protected variable is live before every statement. -/
theorem mem_listIn_of_protect (h : v ∈ t.protect) :
    ∀ {ss : List Stmt}, ss ≠ [] → v ∈ listIn all rounds t o ss
  | [], hne => absurd rfl hne
  | node _ _ :: _, _ => mem_union.2 (.inr h)

/-- A protected block with its handlers. -/
theorem protected_needs {resources body : List Stmt} {catches : List (CatchClause Stmt)}
    (hr : Covers v (listRun (paths all) resources) (listIn all rounds · · resources))
    (hb : Covers v (listRun (paths all) body) (listIn all rounds · · body))
    (hc : Covers v (catchesRun (paths all) catches) (catchesIn all rounds · · catches)) :
    Covers v (((listRun (paths all) resources).andThen
        (closing (paths all) resources (listRun (paths all) body))).handledBy
          (catchesRun (paths all) catches))
      fun t o => kindIn all rounds t o (.guarded resources body catches none) := by
  intro t o
  refine handledBy_needs ?_ (hc t o)
  by_cases hp : resources.filterMap declaredVar? ≠ [] ∧
      v ∈ (t.through (catchesIn all rounds t o catches)).protect
  · refine .of_live _ _ _ (mem_listIn_of_protect hp.2 ?_)
    rintro rfl
    exact hp.1 rfl
  · refine (hr _ _).andThen (closing_needs ?_ (hb _ _)) fun _ => mem_after_of_ne
    exact fun h₁ h₂ => absurd ⟨h₁, h₂⟩ hp

theorem through_through (t : Targets) (s s' : IdSet) :
    (t.through s).through s' = t.through (s ∪ s') := by
  simp only [Targets.through, IdSet.union_assoc]

/-- A `try` statement is one without its finalizer, seen from where the finalizer starts. -/
theorem kindIn_guarded_some (resources body : List Stmt) (catches : List (CatchClause Stmt))
    (finalizer : List Stmt) (t : Targets) (o : IdSet) :
    kindIn all rounds t o (.guarded resources body catches (some finalizer)) =
      kindIn all rounds (t.through (listIn all rounds t (o ∪ t.anyExit) finalizer))
        (listIn all rounds t (o ∪ t.anyExit) finalizer)
        (.guarded resources body catches none) := by
  simp only [kindIn, through_through]
  rw [IdSet.union_left_comm]

/-- A declaration needs what its initialiser needs. -/
theorem declare_needs (hp : v ∉ t.protect) (w : VarId) (init : Option Expr) :
    Needs v ((paths all).declare w init) (v ∈ t.protect) (fun _ => v ∈ o)
      (v ∈ Expr.listIn t.protect (o.erase w) init.toList) := by
  refine (Expr.listPath_needs hp init.toList _).bind fun _ => ?_
  have hw : Needs v (Emit (.write w)) (v ∈ t.protect) (fun _ => v ∈ o) (v ∈ o.erase w) :=
    .write fun hw h => mem_erase.2 ⟨h, hw⟩
  exact hw.bind fun _ => .hazard (fun h => absurd h hp) fun h => h

/-- An assertion that is skipped needs what follows it. -/
theorem assertion_needs (hp : v ∉ t.protect) (c : Expr) (message : Option Expr) :
    Needs v (assertion (paths all) c message) (v ∈ t.protect) (fun e => v ∈ t.after o e)
      (v ∈ kindIn all rounds t o (.assert c message)) := by
  refine .either (.pure fun h => mem_union.2 (.inr h)) ?_
  refine Needs.mono ?_ fun h => mem_union.2 (.inl h)
  refine (Needs.test hp c _).ite (.pure fun h => mem_union.2 (.inr h)) ?_
  refine Needs.mono ?_ fun h => mem_union.2 (.inl h)
  exact (Needs.evalList hp message.toList).bind fun _ => .throw fun h => h

theorem mem_after_ofSwitch :
    ∀ {e : Exit}, v ∈ t.after o e.ofSwitch → v ∈ (t.breakable o t.cont).after o e
  | .normal, h | .brk, h | .cont, h | .ret, h => h

/-- A `switch` without default may skip all of its cases. -/
theorem mem_switchEntry {cases : List (SwitchCase Expr Stmt)} {entry : IdSet}
    (h : v ∈ entry ∨ (!cases.any SwitchCase.isDefault) = true ∧ v ∈ o) :
    v ∈ switchEntry o cases entry := by
  unfold switchEntry
  split
  · next hd => simpa [hd] using h
  · exact mem_union.2 (h.imp_right fun h => h.2)

mutual

/-- Every path through a statement needs only what is live before it. -/
theorem run_needs (hv : v ∈ all) (n : Nat) :
    ∀ s : Stmt, Covers v (s.run (paths all)) (s.liveIn all (n + 1))
  | node _ kind, t, o => by
    by_cases hp : v ∈ t.protect
    · exact .of_live _ _ _ (mem_union.2 (.inr hp))
    · refine .hazard_bind (fun h => absurd h hp) ?_
      exact (kindRun_needs hv n kind hp).mono fun h => mem_union.2 (.inl h)

/-- One case for each form of statement. -/
theorem kindRun_needs (hv : v ∈ all) (n : Nat) :
    ∀ (k : StmtKind Expr Stmt) {t : Targets} {o : IdSet}, v ∉ t.protect →
      Needs v (kindRun (paths all) k) (v ∈ t.protect) (fun e => v ∈ t.after o e)
        (v ∈ kindIn all (n + 1) t o k)
  | .decl w none, _, _, hp => (declare_needs hp w none).bind fun _ => .pure fun h => h
  | .decl w (some e), _, _, hp => (declare_needs hp w (some e)).bind fun _ => .pure fun h => h
  | .expr e, _, o, hp => (e.path_needs hp o).bind fun _ => .pure fun h => h
  | .block body, _, _, _ => listRun_needs hv n body _ _
  | .branch c a none, _, _, hp =>
    (Needs.test hp c _).ite ((run_needs hv n a _ _).mono fun h => mem_union.2 (.inl h))
      (.pure fun h => mem_union.2 (.inr h))
  | .branch c a (some b), _, _, hp =>
    (Needs.test hp c _).ite ((run_needs hv n a _ _).mono fun h => mem_union.2 (.inl h))
      ((run_needs hv n b _ _).mono fun h => mem_union.2 (.inr h))
  | .whileLoop _ body, _, _, hp => whileLoop_needs hp (run_needs hv n body) (n + 1)
  | .doLoop body _, _, _, hp => doLoop_needs hp (run_needs hv n body) n
  | .forLoop init _ _ body, _, _, hp =>
    (listRun_needs hv n init _ _).andThen (forLoop_needs hp (run_needs hv n body) (n + 1))
      fun _ => mem_after_of_ne
  | .forEach _ iterable body, _, _, hp =>
    (iterable.path_needs hp _).bind fun _ => forEach_needs hp (run_needs hv n body) (n + 1)
  | .switch selector cases, _, _, hp => by
    refine (selector.path_needs hp _).bind fun _ => ?_
    refine (Needs.evalList hp (labels cases)).bind fun _ => ?_
    refine Needs.mono ?_ mem_switchEntry
    exact (casesRun_needs hv n _ cases).bind fun _ => .pure mem_after_ofSwitch
  | .guarded resources body catches none, _, _, _ =>
    protected_needs (listRun_needs hv n resources) (listRun_needs hv n body)
      (catchesRun_needs hv n catches) _ _
  | .guarded resources body catches (some finalizer), _, _, _ => by
    rw [kindIn_guarded_some]
    refine ensuring_needs ?_ (listRun_needs hv n finalizer _ _)
    exact protected_needs (listRun_needs hv n resources) (listRun_needs hv n body)
      (catchesRun_needs hv n catches) _ _
  | .throw e, t, _, hp => (e.path_needs hp t.protect).bind fun _ => .throw fun h => h
  | .assert c message, _, _, hp => assertion_needs hp c message
  | .ret none, _, _, hp => (Needs.evalList hp []).bind fun _ => .pure fun h => h
  | .ret (some e), t, _, hp => (Needs.evalList hp [e]).bind fun _ => .pure fun h => h
  | .breakOut, _, _, _ | .continueLoop, _, _, _ | .empty, _, _, _ => .pure fun h => h
  | .err, _, _, _ => .of_live _ _ _ hv

theorem listRun_needs (hv : v ∈ all) (n : Nat) :
    ∀ ss : List Stmt, Covers v (listRun (paths all) ss) (listIn all (n + 1) · · ss)
  | [], _, _ => .pure fun h => h
  | s :: ss, _, _ =>
    (run_needs hv n s _ _).andThen (listRun_needs hv n ss _ _) fun _ => mem_after_of_ne

theorem fallRun_needs (hv : v ∈ all) (n : Nat) :
    ∀ cs : List (SwitchCase Expr Stmt),
      Covers v (fallRun (paths all) cs) fun t o => (casesIn all (n + 1) t o cs).1
  | [], _, _ => .pure fun h => h
  | ⟨_, _, body⟩ :: cs, _, _ =>
    (listRun_needs hv n body _ _).andThen (fallRun_needs hv n cs _ _) fun _ => mem_after_of_ne

theorem casesRun_needs (hv : v ∈ all) (n : Nat) (skips : Bool) :
    ∀ (cs : List (SwitchCase Expr Stmt)) {t : Targets} {o : IdSet},
      Needs v (casesRun (paths all) skips cs) (v ∈ t.protect) (fun e => v ∈ t.after o e)
        (v ∈ (casesIn all (n + 1) t o cs).2 ∨ skips = true ∧ v ∈ o)
  | [], _, _ => by
    cases skips with
    | false => exact .never
    | true => exact .pure fun h => .inr ⟨rfl, h⟩
  | ⟨_, _, body⟩ :: cs, _, _ => by
    refine .either ?_ ?_
    · refine Needs.mono ?_ fun h => .inl (mem_union.2 (.inr h))
      exact (listRun_needs hv n body _ _).andThen (fallRun_needs hv n cs _ _) fun _ =>
        mem_after_of_ne
    · exact (casesRun_needs hv n skips cs).mono fun h => h.imp_left fun h => mem_union.2 (.inl h)

theorem catchesRun_needs (hv : v ∈ all) (n : Nat) :
    ∀ cs : List (CatchClause Stmt),
      Covers v (catchesRun (paths all) cs) (catchesIn all (n + 1) · · cs)
  | [], _, _ => .never
  | ⟨_, param, body⟩ :: cs, t, o => by
    refine .either ?_ ((catchesRun_needs hv n cs _ _).mono fun h => mem_union.2 (.inr h))
    have hw : Needs v (Emit (.write param)) (v ∈ t.protect)
        (fun _ => v ∈ listIn all (n + 1) t o body)
        (v ∈ (listIn all (n + 1) t o body).erase param) :=
      .write fun hw h => mem_erase.2 ⟨h, hw⟩
    exact (hw.bind fun _ => listRun_needs hv n body _ _).mono fun h => mem_union.2 (.inl h)

end

end Stmt

end Midend
