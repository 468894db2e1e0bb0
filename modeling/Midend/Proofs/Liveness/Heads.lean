import Midend.Proofs.Liveness.Recorded
import Midend.Proofs.Liveness.Transfer

/-!
# Heads of loops

Two walks over each loop are enough. For one variable a walk over a loop is a
monotone function of a truth value, so its head has its final value after the
first walk (`Stmt.walkedHead_loopWalk`), and the last walk starts from that head.
More walks at every nesting level therefore give the same sets
(`Stmt.listIn_rounds`) and record the same entries (`Stmt.listEntries_rounds`).
The head is the least set that a walk over the loop keeps
(`Stmt.leastFixed_loopHead`), whatever is live at the targets of the loop and
after it. `LivenessInfo.two_walks_suffice` says this of the liveness of a body.
-/

namespace Midend

open IdSet

variable {v : VarId} {all : IdSet} {t : Targets} {o : IdSet}

/-! ## Least solutions -/

/-- Each member of the result depends on the same member of the argument alone, and grows with
it. -/
def IdSet.Pointwise (f : IdSet → IdSet) : Prop :=
  ∀ v x y, (v ∈ x → v ∈ y) → v ∈ f x → v ∈ f y

/-- The set solves an equation, and every solution holds all of its members. -/
structure IdSet.LeastFixed (f : IdSet → IdSet) (x : IdSet) : Prop where
  fixed : f x = x
  least : ∀ y, f y = y → ∀ v ∈ x, v ∈ y

namespace Stmt

section Walks

variable {rounds : Nat} {f : IdSet → IdSet}

/-- After one walk the head does not change any more. -/
theorem walkedHead_succ_eq (hf : Pointwise f) (x : IdSet) (n m : Nat) :
    walkedHead (n + 1) f x = walkedHead (m + 1) f x := by
  ext v
  exact (mem_walkedHead (hf v _ _) x n).trans (mem_walkedHead (hf v _ _) x m).symm

/-- The head is the least set that the walk keeps. -/
theorem leastFixed_walkedHead (hf : Pointwise f) {x : IdSet} (hx : ∀ y, ∀ v ∈ x, v ∈ f y)
    (n : Nat) : LeastFixed f (walkedHead (n + 1) f x) where
  fixed := by
    ext v
    exact mem_walk_walkedHead (hf v _ _) x n
  least y hy v hv := by
    have hxy : v ∈ x → v ∈ y := fun h => hy ▸ hx y v h
    rw [← hy]
    exact hf v x y hxy ((mem_walkedHead (hf v _ _) x n).1 hv)

/-! ## Walks over a loop -/

/-- One walk over a loop, from its head to its head. A loop's head solves the equation that a walk
changes nothing. -/
def loopWalk (all : IdSet) (rounds : Nat) (t : Targets) (out : IdSet) :
    StmtKind Expr Stmt → IdSet → IdSet
  | .whileLoop c body | .doLoop body c => fun head =>
    c.liveIn t.protect (out ∪ body.liveIn all rounds (t.breakable out head) head)
  | .forLoop _ c update body => fun head =>
    let updateIn := Expr.listIn t.protect head update
    conditionIn t.protect out c (body.liveIn all rounds (t.breakable out updateIn) updateIn)
  | .forEach v _ body => fun head =>
    out ∪ (body.liveIn all rounds (t.breakable out head) head).erase v
  | _ => fun head => head

/-- The head from which the first walk over a loop starts. -/
def loopStart (t : Targets) (out : IdSet) : StmtKind Expr Stmt → IdSet
  | .whileLoop c _ | .doLoop _ c => c.liveIn t.protect out
  | .forLoop _ c .. => conditionIn t.protect out c ∅
  | .forEach .. => out
  | _ => ∅

/-- The head of a loop after all walks. -/
def loopHead (all : IdSet) (rounds : Nat) (t : Targets) (out : IdSet) (k : StmtKind Expr Stmt) :
    IdSet :=
  walkedHead (rounds + 1) (loopWalk all rounds t out k) (loopStart t out k)

/-- What is live before a loop with the given head. -/
def beforeHead (all : IdSet) (rounds : Nat) (t : Targets) (out : IdSet) :
    StmtKind Expr Stmt → IdSet → IdSet
  | .doLoop body _, head => body.liveIn all rounds (t.breakable out head) head
  | .forLoop init .., head => listIn all rounds t head init
  | .forEach _ iterable _, head => iterable.liveIn t.protect head
  | _, head => head

/-- The walk of a loop treats each variable by itself. -/
theorem pointwise_loopWalk (k : StmtKind Expr Stmt) : Pointwise (loopWalk all rounds t o k) := by
  intro v x y h
  cases k with
  | whileLoop c body | doLoop body c =>
    change v ∈ walk all rounds t o (some c) [] body x → v ∈ walk all rounds t o (some c) [] body y
    exact walk_mono h
  | forLoop init c update body => exact walk_mono h
  | forEach w iterable body => exact walkEach_mono h
  | _ => exact h

/-- The walk keeps what is live at the start. -/
theorem mem_loopWalk_of_loopStart {k : StmtKind Expr Stmt} (y : IdSet) (h : v ∈ loopStart t o k) :
    v ∈ loopWalk all rounds t o k y := by
  cases k with
  | whileLoop c body | doLoop body c =>
    exact c.liveIn_mono (fun h => h) (fun h => mem_union.2 (.inl h)) h
  | forLoop init c update body =>
    exact conditionIn_mono (fun h => h) (fun h => h) (fun h => absurd h (not_mem_empty v)) c h
  | forEach w iterable body => exact mem_union.2 (.inl h)
  | _ => exact absurd h (not_mem_empty v)

/-- The head of a loop is the least set that a walk over the loop keeps. -/
theorem leastFixed_loopHead (k : StmtKind Expr Stmt) :
    LeastFixed (loopWalk all rounds t o k) (loopHead all rounds t o k) :=
  leastFixed_walkedHead (pointwise_loopWalk k) (fun y _ => mem_loopWalk_of_loopStart y) rounds

/-- After the first walk over a loop its head has its final value. -/
theorem walkedHead_loopWalk (all : IdSet) (rounds : Nat) (t : Targets) (o : IdSet)
    (k : StmtKind Expr Stmt) (n m : Nat) :
    walkedHead (n + 1) (loopWalk all rounds t o k) (loopStart t o k) =
      walkedHead (m + 1) (loopWalk all rounds t o k) (loopStart t o k) :=
  walkedHead_succ_eq (pointwise_loopWalk k) _ n m

end Walks

/-! ## More walks -/

mutual

/-- Walks after the second change nothing. -/
theorem liveIn_rounds (n : Nat) :
    ∀ (s : Stmt) (t : Targets) (o : IdSet), s.liveIn all (n + 1) t o = s.liveIn all 1 t o
  | node _ kind, t, o => by rw [liveIn, liveIn, kindIn_rounds n kind t o]

/-- More walks do not change what is live before a statement. -/
theorem kindIn_rounds (n : Nat) :
    ∀ (k : StmtKind Expr Stmt) (t : Targets) (o : IdSet),
      kindIn all (n + 1) t o k = kindIn all 1 t o k
  | .decl _ none, _, _ | .decl _ (some _), _, _ | .expr _, _, _ | .throw _, _, _
  | .assert .., _, _ | .ret none, _, _ | .ret (some _), _, _ | .breakOut, _, _
  | .continueLoop, _, _ | .empty, _, _ | .err, _, _ => rfl
  | .block body, t, o => listIn_rounds n body t o
  | .branch _ a none, _, _ => by simp only [kindIn, liveIn_rounds n a]
  | .branch _ a (some b), _, _ => by simp only [kindIn, liveIn_rounds n a, liveIn_rounds n b]
  | .whileLoop c body, t, o => by
    simp only [kindIn, liveIn_rounds n body]
    exact walkedHead_loopWalk all 1 t o (.whileLoop c body) (n + 1) 1
  | .doLoop body c, t, o => by
    simp only [kindIn, liveIn_rounds n body]
    exact congrArg (beforeHead all 1 t o (.doLoop body c))
      (walkedHead_loopWalk all 1 t o (.doLoop body c) n 0)
  | .forLoop init c update body, t, o => by
    simp only [kindIn, liveIn_rounds n body, listIn_rounds n init]
    exact congrArg (beforeHead all 1 t o (.forLoop init c update body))
      (walkedHead_loopWalk all 1 t o (.forLoop init c update body) (n + 1) 1)
  | .forEach w iterable body, t, o => by
    simp only [kindIn, liveIn_rounds n body]
    exact congrArg (beforeHead all 1 t o (.forEach w iterable body))
      (walkedHead_loopWalk all 1 t o (.forEach w iterable body) (n + 1) 1)
  | .switch selector cases, _, _ => by simp only [kindIn, casesIn_rounds n cases]
  | .guarded resources body catches none, _, _ => by
    simp only [kindIn, listIn_rounds n resources, listIn_rounds n body, catchesIn_rounds n catches]
  | .guarded resources body catches (some finalizer), _, _ => by
    simp only [kindIn, listIn_rounds n resources, listIn_rounds n body, catchesIn_rounds n catches,
      listIn_rounds n finalizer]

theorem listIn_rounds (n : Nat) :
    ∀ (ss : List Stmt) (t : Targets) (o : IdSet),
      listIn all (n + 1) t o ss = listIn all 1 t o ss
  | [], _, _ => rfl
  | s :: ss, t, o => by rw [listIn, listIn, listIn_rounds n ss, liveIn_rounds n s]

theorem casesIn_rounds (n : Nat) :
    ∀ (cs : List (SwitchCase Expr Stmt)) (t : Targets) (o : IdSet),
      casesIn all (n + 1) t o cs = casesIn all 1 t o cs
  | [], _, _ => rfl
  | ⟨_, _, body⟩ :: cs, t, o => by
    simp only [casesIn, casesIn_rounds n cs, listIn_rounds n body]

theorem catchesIn_rounds (n : Nat) :
    ∀ (cs : List (CatchClause Stmt)) (t : Targets) (o : IdSet),
      catchesIn all (n + 1) t o cs = catchesIn all 1 t o cs
  | [], _, _ => rfl
  | ⟨_, _, body⟩ :: cs, t, o => by
    simp only [catchesIn, catchesIn_rounds n cs, listIn_rounds n body]

end

mutual

/-- The last walk over a loop starts from the final head, so it records the same sets. -/
theorem liveEntries_rounds (n : Nat) :
    ∀ (s : Stmt) (t : Targets) (o : IdSet),
      s.liveEntries all (n + 1) t o = s.liveEntries all 1 t o
  | node id kind, t, o => by
    rw [liveEntries, liveEntries, kindEntries_rounds n kind t o, liveIn_rounds n (node id kind)]

/-- More walks do not change what is recorded in a statement. -/
theorem kindEntries_rounds (n : Nat) :
    ∀ (k : StmtKind Expr Stmt) (t : Targets) (o : IdSet),
      kindEntries all (n + 1) t o k = kindEntries all 1 t o k
  | .decl .., _, _ | .expr _, _, _ | .throw _, _, _ | .assert .., _, _ | .ret _, _, _
  | .breakOut, _, _ | .continueLoop, _, _ | .empty, _, _ | .err, _, _ => rfl
  | .block body, t, o => listEntries_rounds n body t o
  | .branch _ a none, _, _ => by simp only [kindEntries, liveIn_rounds n a, liveEntries_rounds n a]
  | .branch _ a (some b), _, _ => by
    simp only [kindEntries, liveIn_rounds n a, liveIn_rounds n b, liveEntries_rounds n a,
      liveEntries_rounds n b]
  | .whileLoop c body, t, o => by
    have hhead := walkedHead_loopWalk all 1 t o (.whileLoop c body) n 0
    simp only [loopWalk, loopStart] at hhead
    simp only [kindEntries, liveIn_rounds n body, liveEntries_rounds n body, hhead]
  | .doLoop body c, t, o => by
    have hhead := walkedHead_loopWalk all 1 t o (.doLoop body c) n 0
    simp only [loopWalk, loopStart] at hhead
    simp only [kindEntries, liveIn_rounds n body, liveEntries_rounds n body, hhead]
  | .forLoop init c update body, t, o => by
    have hhead := walkedHead_loopWalk all 1 t o (.forLoop init c update body) n 0
    simp only [loopWalk, loopStart] at hhead
    simp only [kindEntries, liveIn_rounds n body, liveEntries_rounds n body,
      listEntries_rounds n init, hhead]
  | .forEach w iterable body, t, o => by
    have hhead := walkedHead_loopWalk all 1 t o (.forEach w iterable body) n 0
    simp only [loopWalk, loopStart] at hhead
    simp only [kindEntries, liveIn_rounds n body, liveEntries_rounds n body, hhead]
  | .switch selector cases, _, _ => by
    simp only [kindEntries, casesIn_rounds n cases, caseEntries_rounds n cases]
  | .guarded resources body catches none, _, _ => by
    simp only [kindEntries, listIn_rounds n body, catchesIn_rounds n catches,
      listEntries_rounds n resources, listEntries_rounds n body, catchEntries_rounds n catches]
  | .guarded resources body catches (some finalizer), _, _ => by
    simp only [kindEntries, listIn_rounds n body, catchesIn_rounds n catches,
      listIn_rounds n finalizer, listEntries_rounds n resources, listEntries_rounds n body,
      catchEntries_rounds n catches, listEntries_rounds n finalizer]

theorem listEntries_rounds (n : Nat) :
    ∀ (ss : List Stmt) (t : Targets) (o : IdSet),
      listEntries all (n + 1) t o ss = listEntries all 1 t o ss
  | [], _, _ => rfl
  | s :: ss, t, o => by
    simp only [listEntries, listIn_rounds n ss, listEntries_rounds n ss, liveEntries_rounds n s]

theorem caseEntries_rounds (n : Nat) :
    ∀ (cs : List (SwitchCase Expr Stmt)) (t : Targets) (o : IdSet),
      caseEntries all (n + 1) t o cs = caseEntries all 1 t o cs
  | [], _, _ => rfl
  | ⟨_, _, body⟩ :: cs, t, o => by
    simp only [caseEntries, casesIn_rounds n cs, caseEntries_rounds n cs,
      listEntries_rounds n body]

theorem catchEntries_rounds (n : Nat) :
    ∀ (cs : List (CatchClause Stmt)) (t : Targets) (o : IdSet),
      catchEntries all (n + 1) t o cs = catchEntries all 1 t o cs
  | [], _, _ => rfl
  | ⟨_, _, body⟩ :: cs, t, o => by
    simp only [catchEntries, catchEntries_rounds n cs, listEntries_rounds n body]

end

/-- What is live before a loop is read off its head. -/
theorem kindIn_eq_beforeHead {k : StmtKind Expr Stmt} (hk : k.isLoop = true) (n : Nat) :
    kindIn all (n + 1) t o k =
      beforeHead all (n + 1) t o k (loopHead all (n + 1) t o k) := by
  cases k with
  | whileLoop | forLoop | forEach => rfl
  | doLoop body c =>
    -- The body is walked last from the head before the last.
    simp only [kindIn]
    exact congrArg (beforeHead all (n + 1) t o (.doLoop body c))
      (walkedHead_loopWalk all (n + 1) t o (.doLoop body c) n (n + 1))
  | _ => cases hk

/-- What is live before a loop follows from its head. -/
theorem liveIn_eq_beforeHead {s : Stmt} (hs : s.kind.isLoop = true) (n : Nat) :
    s.liveIn all (n + 1) t o =
      beforeHead all (n + 1) t o s.kind (loopHead all (n + 1) t o s.kind) ∪ t.protect := by
  obtain ⟨id, k⟩ := s
  exact congrArg (· ∪ t.protect) (kindIn_eq_beforeHead hs n)

/-! ## Recorded walks -/

/-- The entries hold what a walk finds that comes to `s` with some targets and some set live after
it. -/
def WalkedIn (all : IdSet) (rounds : Nat) (entries : List LiveEntry) (s : Stmt) : Prop :=
  ∃ t o, s.liveEntries all rounds t o ⊆ entries

/-- A statement is recorded with the set it is left with. -/
theorem mem_liveEntries_self {rounds : Nat} (s : Stmt) :
    .stmt s.id (s.liveIn all rounds t o) (o ∪ t.protect) ∈ s.liveEntries all rounds t o := by
  cases s
  exact List.mem_append_right _ (List.mem_singleton_self _)

section WalkedIn

variable {rounds : Nat} {s : Stmt} {entries entries' : List LiveEntry}

theorem WalkedIn.left (h : WalkedIn all rounds entries s) :
    WalkedIn all rounds (entries ++ entries') s := by
  obtain ⟨t, o, hm⟩ := h
  exact ⟨t, o, List.subset_append_of_subset_left _ hm⟩

theorem WalkedIn.right (h : WalkedIn all rounds entries' s) :
    WalkedIn all rounds (entries ++ entries') s := by
  obtain ⟨t, o, hm⟩ := h
  exact ⟨t, o, List.subset_append_of_subset_right _ hm⟩

end WalkedIn

variable {rounds : Nat}

mutual

/-- A walk over a statement records what it finds for each statement in it. -/
theorem liveEntries_walkedIn :
    ∀ (s : Stmt) (t : Targets) (o : IdSet) {u : Stmt}, u ∈ s.substmts →
      WalkedIn all rounds (s.liveEntries all rounds t o) u
  | node id kind, t, o, u, hu => by
    rcases List.mem_cons.1 hu with rfl | hu
    · exact ⟨t, o, List.Subset.refl _⟩
    · exact (kindEntries_walkedIn kind t o hu).left
termination_by structural s => s

/-- Every nested statement is walked with some targets. -/
theorem kindEntries_walkedIn :
    ∀ (k : StmtKind Expr Stmt) (t : Targets) (o : IdSet) {u : Stmt}, u ∈ substmtsOfKind k →
      WalkedIn all rounds (kindEntries all rounds t o k) u
  | .block body, t, o, _, hu => listEntries_walkedIn body t o hu
  | .branch _ a none, t, o, _, hu => (liveEntries_walkedIn a t o hu).left
  | .branch _ a (some b), t, o, _, hu => by
    rcases List.mem_append.1 hu with hu | hu
    · exact (liveEntries_walkedIn a t o hu).left.left
    · exact (liveEntries_walkedIn b t o hu).right.left
  | .whileLoop _ body, _, _, _, hu | .doLoop body _, _, _, _, hu
  | .forEach _ _ body, _, _, _, hu => (liveEntries_walkedIn body _ _ hu).left
  | .forLoop init _ _ body, _, _, _, hu => by
    rcases List.mem_append.1 hu with hu | hu
    · exact (listEntries_walkedIn init _ _ hu).right
    · exact (liveEntries_walkedIn body _ _ hu).right.left.left
  | .switch _ cases, _, _, _, hu => (caseEntries_walkedIn cases _ _ hu).left.left
  | .guarded resources body catches none, _, _, _, hu => by
    simp only [substmtsOfKind, List.mem_append] at hu
    rcases hu with (hu | hu) | hu
    · exact (listEntries_walkedIn resources _ _ hu).right
    · exact (listEntries_walkedIn body _ _ hu).right.left
    · exact (catchEntries_walkedIn catches _ _ hu).left.left
  | .guarded resources body catches (some finalizer), _, _, _, hu => by
    simp only [substmtsOfKind, List.mem_append] at hu
    rcases hu with ((hu | hu) | hu) | hu
    · exact (listEntries_walkedIn resources _ _ hu).right
    · exact (listEntries_walkedIn body _ _ hu).right.left
    · exact (catchEntries_walkedIn catches _ _ hu).right.left.left
    · exact (listEntries_walkedIn finalizer _ _ hu).left.left.left
  | .decl .., _, _, _, hu | .expr _, _, _, _, hu | .throw _, _, _, _, hu | .assert .., _, _, _, hu
  | .ret _, _, _, _, hu | .breakOut, _, _, _, hu | .continueLoop, _, _, _, hu
  | .empty, _, _, _, hu | .err, _, _, _, hu => nomatch hu
termination_by structural k => k

theorem listEntries_walkedIn :
    ∀ (ss : List Stmt) (t : Targets) (o : IdSet) {u : Stmt}, u ∈ substmtsOfList ss →
      WalkedIn all rounds (listEntries all rounds t o ss) u
  | [], _, _, _, hu => nomatch hu
  | s :: ss, t, o, _, hu => by
    rcases List.mem_append.1 hu with hu | hu
    · exact (liveEntries_walkedIn s t _ hu).right
    · exact (listEntries_walkedIn ss t o hu).left
termination_by structural ss => ss

theorem caseEntries_walkedIn :
    ∀ (cs : List (SwitchCase Expr Stmt)) (t : Targets) (o : IdSet) {u : Stmt},
      u ∈ substmtsOfCases cs → WalkedIn all rounds (caseEntries all rounds t o cs) u
  | [], _, _, _, hu => nomatch hu
  | ⟨_, _, body⟩ :: cs, t, o, _, hu => by
    rcases List.mem_append.1 hu with hu | hu
    · exact (listEntries_walkedIn body t _ hu).right
    · exact (caseEntries_walkedIn cs t o hu).left
termination_by structural cs => cs

theorem catchEntries_walkedIn :
    ∀ (cs : List (CatchClause Stmt)) (t : Targets) (o : IdSet) {u : Stmt},
      u ∈ substmtsOfCatches cs → WalkedIn all rounds (catchEntries all rounds t o cs) u
  | [], _, _, _, hu => nomatch hu
  | ⟨_, _, body⟩ :: cs, t, o, _, hu => by
    rcases List.mem_append.1 hu with hu | hu
    · exact (listEntries_walkedIn body t o hu).left
    · exact (catchEntries_walkedIn cs t o hu).right
termination_by structural cs => cs

end

/-- Every entry for a statement holds what a walk finds that comes to one of `ss`. -/
def WalksOver (all : IdSet) (rounds : Nat) (ss : List Stmt) (entries : List LiveEntry) : Prop :=
  ∀ id live out, .stmt id live out ∈ entries →
    ∃ s ∈ ss, s.id = id ∧ ∃ t o, live = s.liveIn all rounds t o

section WalksOver

variable {ss ss' : List Stmt} {entries entries' : List LiveEntry}

theorem WalksOver.append (h : WalksOver all rounds ss entries)
    (h' : WalksOver all rounds ss' entries') :
    WalksOver all rounds (ss' ++ ss) (entries ++ entries') := by
  intro id live out hm
  rcases List.mem_append.1 hm with hm | hm
  · obtain ⟨s, hs, hw⟩ := h id live out hm
    exact ⟨s, List.mem_append_right _ hs, hw⟩
  · obtain ⟨s, hs, hw⟩ := h' id live out hm
    exact ⟨s, List.mem_append_left _ hs, hw⟩

theorem WalksOver.mono (h : WalksOver all rounds ss entries) (hss : ss ⊆ ss') :
    WalksOver all rounds ss' entries := by
  intro id live out hm
  obtain ⟨s, hs, hw⟩ := h id live out hm
  exact ⟨s, hss hs, hw⟩

/-- Entries for expressions alone. -/
theorem walksOver_nil (h : entries.filterMap LiveEntry.stmtId? = []) :
    WalksOver all rounds [] entries := by
  intro id live out hm
  have hid : id ∈ entries.filterMap LiveEntry.stmtId? := List.mem_filterMap.2 ⟨_, hm, rfl⟩
  rw [h] at hid
  exact nomatch hid

end WalksOver

mutual

/-- A walk over a statement records nothing but what it finds for the statements in it. -/
theorem liveEntries_walksOver :
    ∀ (s : Stmt) (t : Targets) (o : IdSet),
      WalksOver all rounds s.substmts (s.liveEntries all rounds t o)
  | node id kind, t, o => by
    have hself : WalksOver all rounds [node id kind]
        [.stmt id ((node id kind).liveIn all rounds t o) (o ∪ t.protect)] := by
      intro i live out hm
      cases List.mem_singleton.1 hm
      exact ⟨node id kind, List.mem_singleton_self _, rfl, t, o, rfl⟩
    exact (kindEntries_walksOver kind t o).append hself

/-- Whatever is recorded of a loop is recorded with its head. -/
theorem kindEntries_walksOver :
    ∀ (k : StmtKind Expr Stmt) (t : Targets) (o : IdSet),
      WalksOver all rounds (substmtsOfKind k) (kindEntries all rounds t o k)
  | .block body, t, o => listEntries_walksOver body t o
  | .branch c a none, t, o =>
    (liveEntries_walksOver a t o).append (walksOver_nil (Expr.liveEntries_stmtIds c _))
  | .branch c a (some b), t, o => by
    refine (((liveEntries_walksOver a t o).append (liveEntries_walksOver b t o)).append
      (walksOver_nil (Expr.liveEntries_stmtIds c _))).mono ?_
    rw [List.nil_append]
    exact List.append_subset.2 ⟨List.subset_append_right .., List.subset_append_left ..⟩
  | .whileLoop c body, _, _ | .doLoop body c, _, _ | .forEach _ c body, _, _ =>
    (liveEntries_walksOver body _ _).append (walksOver_nil (Expr.liveEntries_stmtIds c _))
  | .forLoop init c update body, _, _ => by
    refine ((((walksOver_nil (Expr.listEntries_stmtIds update _)).append
      (liveEntries_walksOver body _ _)).append
        (walksOver_nil (Expr.listEntries_stmtIds c.toList _))).append
          (listEntries_walksOver init _ _)).mono ?_
    rw [List.nil_append, List.append_nil]
    exact fun _ h => h
  | .switch selector cases, _, _ =>
    ((caseEntries_walksOver cases _ _).append
      (walksOver_nil (Expr.listEntries_stmtIds (labels cases) _))).append
        (walksOver_nil (Expr.liveEntries_stmtIds selector _))
  | .guarded resources body catches none, _, _ => by
    refine (((catchEntries_walksOver catches _ _).append (listEntries_walksOver body _ _)).append
      (listEntries_walksOver resources _ _)).mono ?_
    rw [substmtsOfKind, List.append_assoc]
    exact fun _ h => h
  | .guarded resources body catches (some finalizer), _, _ => by
    refine ((((listEntries_walksOver finalizer _ _).append
      (catchEntries_walksOver catches _ _)).append (listEntries_walksOver body _ _)).append
        (listEntries_walksOver resources _ _)).mono ?_
    rw [substmtsOfKind, List.append_assoc, List.append_assoc]
    exact fun _ h => h
  | .decl _ init, _, _ => walksOver_nil (Expr.listEntries_stmtIds init.toList _)
  | .ret e, _, _ => walksOver_nil (Expr.listEntries_stmtIds e.toList _)
  | .expr e, _, _ | .throw e, _, _ => walksOver_nil (Expr.liveEntries_stmtIds e _)
  | .assert c message, _, _ =>
    (walksOver_nil (Expr.listEntries_stmtIds message.toList _)).append
      (walksOver_nil (Expr.liveEntries_stmtIds c _))
  | .breakOut, _, _ | .continueLoop, _, _ | .empty, _, _ | .err, _, _ => walksOver_nil rfl

theorem listEntries_walksOver :
    ∀ (ss : List Stmt) (t : Targets) (o : IdSet),
      WalksOver all rounds (substmtsOfList ss) (listEntries all rounds t o ss)
  | [], _, _ => walksOver_nil rfl
  | s :: ss, t, o => (listEntries_walksOver ss t o).append (liveEntries_walksOver s t _)

theorem caseEntries_walksOver :
    ∀ (cs : List (SwitchCase Expr Stmt)) (t : Targets) (o : IdSet),
      WalksOver all rounds (substmtsOfCases cs) (caseEntries all rounds t o cs)
  | [], _, _ => walksOver_nil rfl
  | ⟨_, _, body⟩ :: cs, t, o =>
    (caseEntries_walksOver cs t o).append (listEntries_walksOver body t _)

theorem catchEntries_walksOver :
    ∀ (cs : List (CatchClause Stmt)) (t : Targets) (o : IdSet),
      WalksOver all rounds (substmtsOfCatches cs) (catchEntries all rounds t o cs)
  | [], _, _ => walksOver_nil rfl
  | ⟨_, _, body⟩ :: cs, t, o => by
    refine ((listEntries_walksOver body t o).append (catchEntries_walksOver cs t o)).mono ?_
    exact List.append_subset.2 ⟨List.subset_append_right .., List.subset_append_left ..⟩

end

end Stmt

/-! ## Bodies -/

namespace LivenessInfo

/-- Any number of walks above one computes the same. -/
theorem computeWith_rounds (b : Body) (n : Nat) (t : Targets) :
    computeWith b (n + 1) t = computeWith b 1 t := by
  simp only [computeWith, Stmt.listIn_rounds n, Stmt.listEntries_rounds n]

/-- What is recorded of a statement is what a walk finds that comes to it with some targets and some
set live after it. -/
theorem exists_walk {b : Body} (hb : b.Accepted) {s : Stmt}
    (hs : s ∈ b.root.flatMap Stmt.substmts) :
    ∃ t o, (compute b).liveOut s.id = o ∪ t.protect ∧
      (compute b).liveIn s.id = s.liveIn b.allVars 1 t o := by
  obtain ⟨t, o, h⟩ := Stmt.listEntries_walkedIn b.root {} ∅ (Stmt.substmtsOfList_eq b.root ▸ hs)
  have hself := compute_of_entry hb hs (h (Stmt.mem_liveEntries_self s))
  exact ⟨t, o, hself.2, hself.1⟩

/-- More than two walks over each loop give the same liveness, and the head of a loop is the least
set that a walk over it keeps, for the targets and the set after the loop with which it is recorded
as for all others. -/
theorem two_walks_suffice {b : Body} (hb : b.Accepted) :
    (∀ n, 1 ≤ n → computeWith b n {} = compute b) ∧
      ∀ s ∈ b.root.flatMap Stmt.substmts, s.kind.isLoop = true →
        (∀ t o,
          LeastFixed (Stmt.loopWalk b.allVars 1 t o s.kind) (Stmt.loopHead b.allVars 1 t o s.kind) ∧
          s.liveIn b.allVars 1 t o =
            Stmt.beforeHead b.allVars 1 t o s.kind (Stmt.loopHead b.allVars 1 t o s.kind) ∪
              t.protect) ∧
        ∃ t o, (compute b).liveOut s.id = o ∪ t.protect ∧
          (compute b).liveIn s.id = s.liveIn b.allVars 1 t o := by
  refine ⟨fun n hn => ?_, fun s hs hloop => ⟨fun t o => ?_, exists_walk hb hs⟩⟩
  · obtain ⟨m, rfl⟩ := Nat.exists_eq_add_of_le' hn
    exact computeWith_rounds b m {}
  · exact ⟨Stmt.leastFixed_loopHead s.kind, Stmt.liveIn_eq_beforeHead hloop 0⟩

/-- A loop in a loop, the outer one carrying what the inner one reads. -/
def carriedAround : Body where
  name := "carriedAround"
  vars := #[⟨"c", .prim .boolean, .param, .dummy⟩, ⟨"x", .prim .int, .param, .dummy⟩,
    ⟨"y", .prim .int, .param, .dummy⟩]
  exprs := #[⟨.dummy, .var 2⟩, ⟨.dummy, .var 1⟩, ⟨.dummy, .assign 0 none 1⟩, ⟨.dummy, .var 0⟩,
    ⟨.dummy, .var 1⟩, ⟨.dummy, .var 2⟩, ⟨.dummy, .assign 4 none 5⟩, ⟨.dummy, .var 0⟩]
  stmts := #[⟨.dummy, .expr 2⟩, ⟨.dummy, .doLoop 0 3⟩, ⟨.dummy, .expr 6⟩, ⟨.dummy, .block [1, 2]⟩,
    ⟨.dummy, .whileLoop 7 3⟩]
  params := [0, 1, 2]
  block := [4]

theorem two_walks_suffice_carriedAround :
    carriedAround.Accepted ∧ computeWith carriedAround 7 {} = compute carriedAround ∧
      LeastFixed (Stmt.loopWalk carriedAround.allVars 1 {} ∅ (carriedAround.stmtTree 1).kind)
        (Stmt.loopHead carriedAround.allVars 1 {} ∅ (carriedAround.stmtTree 1).kind) := by
  have hb : carriedAround.Accepted :=
    ⟨carriedAround.has_of_reaches (by decide) (by decide) (by decide), by decide⟩
  obtain ⟨hrounds, hloops⟩ := two_walks_suffice hb
  have hloop : carriedAround.stmtTree 1 ∈ carriedAround.root.flatMap Stmt.substmts :=
    .tail _ (.tail _ (.head _))
  exact ⟨hb, hrounds 7 (by decide), ((hloops _ hloop rfl).1 {} ∅).1⟩

end LivenessInfo

end Midend
