import Midend.Proofs.Body.Fault
import Midend.Proofs.Liveness.Heads

/-!
# Targets of jumps

A jump in an accepted body that does not pass out of the initialiser of a `for` loop
is in the body of a loop, or in a group of a switch, with nothing in between that it
could go to (`Body.Accepted.exists_home`). A walk comes to it with the set that this
statement installs, and adds only what the `try` statements in between need
(`LivenessInfo.takes_of_holds`).
-/

namespace Midend

open IdSet

/-! ## Jumps and the statements they stay in -/

namespace StmtKind

variable {ε σ : Type}

/-- The statements whose jumps the layer takes: the body of a loop or the groups of a switch. -/
def held : StmtKind ε σ → List σ
  | whileLoop _ body | doLoop body _ | forLoop _ _ _ body | forEach _ _ body => [body]
  | switch _ cases => cases.flatMap (·.body)
  | _ => []

/-- The initialiser of a `for` loop. -/
def initial : StmtKind ε σ → List σ
  | forLoop init .. => init
  | _ => []

/-- Whether the statement has handlers or a finalizer. -/
def isGuarded : StmtKind ε σ → Bool
  | guarded .. => true
  | _ => false

/-- A `break` may leave any loop. -/
theorem isBreakable_of_isLoop {k : StmtKind ε σ} (h : k.isLoop = true) : k.isBreakable = true := by
  cases k with
  | whileLoop | doLoop | forLoop | forEach => rfl
  | _ => cases h

/-- What is nested in a loop or switch is held by it or is its initialiser. -/
theorem mem_held_or_initial {k : StmtKind ε σ} {c : σ} (hk : k.isBreakable = true)
    (hc : c ∈ k.stmtChildren) : c ∈ k.held ∨ c ∈ k.initial := by
  cases k with
  | whileLoop | doLoop | forEach | switch => exact .inl hc
  | forLoop init cond update body => exact (List.mem_append.1 hc).symm
  | _ => cases hk

end StmtKind

/-- A jump to a statement around it. -/
inductive Jump where
  | brk | cont

namespace Jump

variable {ε σ : Type}

/-- The statement that jumps like this. -/
def kind : Jump → StmtKind ε σ
  | brk => .breakOut
  | cont => .continueLoop

/-- Whether the jump goes no further than the layer. -/
def stops : Jump → StmtKind ε σ → Bool
  | brk, k => k.isBreakable
  | cont, k => k.isLoop

/-- What is live where the jump goes. -/
def taken : Jump → Targets → IdSet
  | brk, t => t.brk
  | cont, t => t.cont

/-- Whether a statement around the jump takes it, given whether a loop and something to break out of
are around it. -/
def allowed (inLoop inBreakable : Bool) : Jump → Bool
  | brk => inBreakable
  | cont => inLoop

/-- A jump is stopped only by what can be left. -/
theorem isBreakable_of_stops {j : Jump} {k : StmtKind ε σ} (h : j.stops k = true) :
    k.isBreakable = true := by
  cases j with
  | brk => exact h
  | cont => exact StmtKind.isBreakable_of_isLoop h

end Jump

/-- The jump at `u` passes out of a statement, through a `try` statement or not. -/
inductive Stmt.Passes (u : Stmt) (j : Jump) : Bool → Stmt → Prop
  | self : Passes u j false u
  | out {tried : Bool} {id : StmtId} {k : StmtKind Expr Stmt} {c : Stmt} :
    j.stops k = false → c ∈ k.stmtChildren → Passes u j tried c →
      Passes u j (tried || k.isGuarded) (.node id k)

namespace Stmt

variable {j : Jump} {inLoop inBreakable : Bool}

/-- A jump that passes out of a statement without faults has something around it to go to. -/
theorem allowed_of_passes {tried : Bool} {s u : Stmt} (h : u.Passes j tried s)
    (hu : u.kind = j.kind) (hs : s.shapeFault? inLoop inBreakable = none) :
    j.allowed inLoop inBreakable = true := by
  induction h generalizing inLoop inBreakable with
  | self =>
    obtain ⟨id, k⟩ := u
    obtain rfl : k = j.kind := hu
    have hown := (shapeFault?_node.1 hs).1
    cases j with
    | brk => cases inBreakable <;> simp_all [ownFault?, Jump.kind, Jump.allowed]
    | cont => cases inLoop <;> simp_all [ownFault?, Jump.kind, Jump.allowed]
  | @out tried id k c hk hc _ ih =>
    have hinner := ih ((shapeFault?_node.1 hs).2 c hc)
    cases j with
    | brk =>
      have hk : k.isBreakable = false := hk
      simpa [Jump.allowed, hk] using hinner
    | cont =>
      have hk : k.isLoop = false := hk
      simpa [Jump.allowed, hk] using hinner

/-- A jump in a statement passes out of it, or it stays in a statement there that takes it or in
the initialiser of a `for` loop there. -/
theorem passes_or_stays {s u : Stmt} (hu : u ∈ s.substmts) :
    (∃ tried, u.Passes j tried s) ∨
      ∃ L ∈ s.substmts, ∃ c, (c ∈ L.kind.held ∧ j.stops L.kind = true ∨ c ∈ L.kind.initial) ∧
        ∃ tried, u.Passes j tried c := by
  induction s using ofChildren with
  | node id k ih =>
    rw [substmts, substmtsOfKind_eq] at hu
    rcases List.mem_cons.1 hu with rfl | hu
    · exact .inl ⟨false, .self⟩
    · obtain ⟨c, hc, hu⟩ := List.mem_flatMap.1 hu
      rcases ih c hc hu with ⟨tried, h⟩ | ⟨L, hL, h⟩
      · cases hk : j.stops k with
        | false => exact .inl ⟨_, .out hk hc h⟩
        | true =>
          refine .inr ⟨node id k, mem_substmts_self _, c, ?_, tried, h⟩
          exact (StmtKind.mem_held_or_initial (Jump.isBreakable_of_stops hk) hc).imp_left (⟨·, hk⟩)
      · exact .inr ⟨L, substmts_subset hc hL, h⟩

end Stmt

/-! ## Walks to a jump -/

namespace Targets

variable {j : Jump} {e e' : IdSet} {t t' t'' : Targets}

/-- The set that a jump takes is kept, but for what `try` statements in between need. -/
structure Leads (j : Jump) (e : IdSet) (t t' : Targets) : Prop where
  taken : j.taken t' = j.taken t ∪ e
  protect : t'.protect = t.protect ∪ e

theorem Leads.refl : Leads j ∅ t t := ⟨(union_empty _).symm, (union_empty _).symm⟩

/-- A finalizer adds what is live in it. -/
theorem Leads.through : Leads j e t (t.through e) := by
  cases j <;> exact ⟨rfl, rfl⟩

theorem Leads.trans (h : Leads j e t t') (h' : Leads j e' t' t'') : Leads j (e ∪ e') t t'' where
  taken := by rw [h'.taken, h.taken, union_assoc]
  protect := by rw [h'.protect, h.protect, union_assoc]

end Targets

namespace Stmt

/-- The entries hold what a walk finds that comes to `s` with what the jump takes in `t`, but for
what `try` statements in between need, if there are any. -/
def WalkedFrom (all : IdSet) (rounds : Nat) (j : Jump) (t : Targets) (tried : Bool)
    (entries : List LiveEntry) (s : Stmt) : Prop :=
  ∃ e t' o, t.Leads j e t' ∧ (tried = false → e = ∅) ∧ s.liveEntries all rounds t' o ⊆ entries

variable {all : IdSet} {rounds : Nat} {j : Jump} {t t' : Targets} {e : IdSet} {tried : Bool}
  {entries entries' : List LiveEntry} {s c : Stmt}

section WalkedFrom

theorem WalkedFrom.mono (h : WalkedFrom all rounds j t tried entries s)
    (hsub : entries ⊆ entries') : WalkedFrom all rounds j t tried entries' s := by
  obtain ⟨e, t', o, hleads, he, hm⟩ := h
  exact ⟨e, t', o, hleads, he, List.Subset.trans hm hsub⟩

theorem WalkedFrom.left (h : WalkedFrom all rounds j t tried entries s) :
    WalkedFrom all rounds j t tried (entries ++ entries') s :=
  h.mono (List.subset_append_left _ _)

theorem WalkedFrom.right (h : WalkedFrom all rounds j t tried entries' s) :
    WalkedFrom all rounds j t tried (entries ++ entries') s :=
  h.mono (List.subset_append_right _ _)

theorem WalkedFrom.self (o : IdSet) (h : t.Leads j e t') (he : tried = false → e = ∅) :
    WalkedFrom all rounds j t tried (s.liveEntries all rounds t' o) s :=
  ⟨e, t', o, h, he, List.Subset.refl _⟩

theorem WalkedFrom.trans {tried' : Bool} {u : Stmt} (h : WalkedFrom all rounds j t tried entries c)
    (hu : ∀ t' o, WalkedFrom all rounds j t' tried' (c.liveEntries all rounds t' o) u) :
    WalkedFrom all rounds j t (tried' || tried) entries u := by
  obtain ⟨e, t', o, hleads, he, hm⟩ := h
  obtain ⟨e', t'', o', hleads', he', hm'⟩ := hu t' o
  refine ⟨e ∪ e', t'', o', hleads.trans hleads', fun htried => ?_, List.Subset.trans hm' hm⟩
  rw [Bool.or_eq_false_iff] at htried
  rw [he htried.2, he' htried.1, union_empty]

/-- Each of some statements is walked from the same targets. -/
theorem WalkedFrom.list (h : t.Leads j e t') (he : tried = false → e = ∅) :
    ∀ {ss : List Stmt} (o : IdSet), c ∈ ss →
      WalkedFrom all rounds j t tried (listEntries all rounds t' o ss) c
  | s :: ss, o, hc => by
    rcases List.mem_cons.1 hc with rfl | hc
    · exact (WalkedFrom.self _ h he).right
    · exact (WalkedFrom.list h he o hc).left

theorem WalkedFrom.cases (h : t.Leads j e t') (he : tried = false → e = ∅) :
    ∀ {cs : List (SwitchCase Expr Stmt)} (o : IdSet), c ∈ cs.flatMap (·.body) →
      WalkedFrom all rounds j t tried (caseEntries all rounds t' o cs) c
  | ⟨_, _, body⟩ :: cs, o, hc => by
    rcases List.mem_append.1 hc with hc | hc
    · exact (WalkedFrom.list h he _ hc).right
    · exact (WalkedFrom.cases h he o hc).left

theorem WalkedFrom.catches (h : t.Leads j e t') (he : tried = false → e = ∅) :
    ∀ {cs : List (CatchClause Stmt)} (o : IdSet), c ∈ cs.flatMap (·.body) →
      WalkedFrom all rounds j t tried (catchEntries all rounds t' o cs) c
  | ⟨_, _, body⟩ :: cs, o, hc => by
    rcases List.mem_append.1 hc with hc | hc
    · exact (WalkedFrom.list h he o hc).left
    · exact (WalkedFrom.catches h he o hc).right

end WalkedFrom

/-- A walk comes from a layer that does not stop the jump to the statements nested there with what
the jump takes. -/
theorem kindEntries_walkedFrom {k : StmtKind Expr Stmt} (hk : j.stops k = false)
    (hc : c ∈ k.stmtChildren) (o : IdSet) :
    WalkedFrom all rounds j t k.isGuarded (kindEntries all rounds t o k) c := by
  have hself : t.Leads j ∅ t := .refl
  cases k with
  | block body => exact .list hself (fun _ => rfl) o hc
  | branch cond a other =>
    cases other with
    | none =>
      obtain rfl := List.mem_singleton.1 hc
      exact (WalkedFrom.self o hself fun _ => rfl).left
    | some b =>
      rcases List.mem_pair.1 hc with rfl | rfl
      · exact (WalkedFrom.self o hself fun _ => rfl).left.left
      · exact (WalkedFrom.self o hself fun _ => rfl).right.left
  | switch selector cases =>
    cases j with
    | brk => cases hk
    | cont =>
      -- Only the set that a `break` takes is new in the groups.
      have hinner : t.Leads .cont ∅ (t.breakable o t.cont) :=
        ⟨(union_empty _).symm, (union_empty _).symm⟩
      exact (WalkedFrom.cases hinner (fun _ => rfl) o hc).left.left
  | guarded resources body catches finalizer =>
    have htry : ∀ {e : IdSet}, true = false → e = ∅ := nofun
    cases finalizer with
    | none =>
      simp only [StmtKind.stmtChildren, Option.getD_none, List.append_nil, List.mem_append] at hc
      obtain (hc | hc) | hc := hc
      · exact (WalkedFrom.list .through htry _ hc).right
      · exact (WalkedFrom.list .through htry _ hc).right.left
      · exact (WalkedFrom.catches hself htry o hc).left.left
    | some finalizer =>
      simp only [StmtKind.stmtChildren, Option.getD_some, List.mem_append] at hc
      obtain ((hc | hc) | hc) | hc := hc
      · exact (WalkedFrom.list .through htry _ hc).right
      · exact (WalkedFrom.list .through htry _ hc).right.left
      · exact (WalkedFrom.catches .through htry _ hc).right.left.left
      · exact (WalkedFrom.list hself htry _ hc).left.left.left
  | whileLoop | doLoop | forLoop | forEach => cases j <;> cases hk
  | _ => cases hc

/-- A walk over a statement that a jump passes out of comes to the jump with what it takes. -/
theorem liveEntries_walkedFrom {u : Stmt} (h : u.Passes j tried s) (t : Targets) (o : IdSet) :
    WalkedFrom all rounds j t tried (s.liveEntries all rounds t o) u := by
  induction h generalizing t o with
  | self => exact .self o .refl fun _ => rfl
  | out hk hc _ ih => exact (kindEntries_walkedFrom hk hc o).left.trans ih

/-! ## What loops and switches install -/

/-- The targets in the body of a loop or in the groups of a switch. -/
def heldTargets (all : IdSet) (rounds : Nat) (t : Targets) (out : IdSet) (k : StmtKind Expr Stmt) :
    Targets :=
  t.breakable out <|
    match k with
    | .switch .. => t.cont
    | .forLoop _ _ update _ => Expr.listIn t.protect (loopHead all rounds t out k) update
    | _ => loopHead all rounds t out k

/-- A walk comes from a loop or switch to the statements whose jumps it takes with the targets that
it installs. -/
theorem kindEntries_walkedFrom_held {k : StmtKind Expr Stmt} (hc : c ∈ k.held) (n : Nat)
    (o : IdSet) :
    WalkedFrom all (n + 1) j (heldTargets all (n + 1) t o k) false
      (kindEntries all (n + 1) t o k) c := by
  -- The last walk over a loop starts from its final head.
  have hhead := walkedHead_loopWalk all (n + 1) t o k (n + 1) n
  cases k with
  | switch selector cases => exact (WalkedFrom.cases .refl (fun _ => rfl) o hc).left.left
  | whileLoop | doLoop | forEach =>
    obtain rfl := List.mem_singleton.1 hc
    simp only [heldTargets, loopHead, hhead]
    exact (WalkedFrom.self _ .refl fun _ => rfl).left
  | forLoop init cond update body =>
    obtain rfl := List.mem_singleton.1 hc
    simp only [heldTargets, loopHead, hhead]
    exact (WalkedFrom.self _ .refl fun _ => rfl).right.left.left
  | _ => cases hc

/-- Before a jump its target is live. -/
theorem liveIn_of_kind {u : Stmt} (hu : u.kind = j.kind) (o : IdSet) :
    u.liveIn all rounds t o = j.taken t ∪ t.protect := by
  obtain ⟨id, k⟩ := u
  obtain rfl : k = j.kind := hu
  cases j <;> rfl

end Stmt

/-- The jump at `u` stays in the body of a loop, or in a group of a switch, and goes to it. -/
structure Stmt.Holds (L u : Stmt) (j : Jump) (tried : Bool) : Prop where
  stops : j.stops L.kind = true
  passes : ∃ c ∈ L.kind.held, u.Passes j tried c

variable {b : Body} {j : Jump} {u : Stmt}

/-- Every jump of an accepted body that does not pass out of an initialiser has a loop or switch
that it goes to. -/
theorem Body.Accepted.exists_home (hb : b.Accepted) (hu : u ∈ b.root.flatMap Stmt.substmts)
    (hj : u.kind = j.kind) :
    ∃ L ∈ b.root.flatMap Stmt.substmts,
      ∃ tried, L.Holds u j tried ∨ ∃ c ∈ L.kind.initial, u.Passes j tried c := by
  obtain ⟨s, hs, hu⟩ := List.mem_flatMap.1 hu
  rcases Stmt.passes_or_stays (j := j) hu with ⟨tried, hpasses⟩ | ⟨L, hL, c, hc, tried, hpasses⟩
  · -- Nothing around the root block takes a jump.
    have := Stmt.allowed_of_passes hpasses hj (Stmt.listFault?_eq_none.1 hb.listFault? s hs)
    cases j <;> cases this
  · refine ⟨L, List.mem_flatMap.2 ⟨s, hs, hL⟩, tried, ?_⟩
    rcases hc with ⟨hc, hstops⟩ | hc
    · exact .inl ⟨hstops, c, hc, hpasses⟩
    · exact .inr ⟨c, hc, hpasses⟩

/-- In the liveness of a body that is walked from `start`, the walk recorded of `L` has targets `t`
and `o` live after it, and the jump at `u` is recorded with what `L` installs and with `e`, which
`try` statements in between need. -/
structure LivenessInfo.Takes (b : Body) (start : Targets) (L u : Stmt) (j : Jump) (tried : Bool)
    (t : Targets) (o e : IdSet) : Prop where
  walk : L.liveEntries b.allVars 1 t o ⊆ Stmt.listEntries b.allVars 1 start ∅ b.root
  liveIn : (computeWith b 1 start).liveIn L.id = L.liveIn b.allVars 1 t o
  liveOut : (computeWith b 1 start).liveOut L.id = o ∪ t.protect
  jump : (computeWith b 1 start).liveIn u.id =
    j.taken (Stmt.heldTargets b.allVars 1 t o L.kind) ∪ (t.protect ∪ e)
  protect : ∃ o', (computeWith b 1 start).liveOut u.id = o' ∪ (t.protect ∪ e)
  extra : tried = false → e = ∅

/-- A jump takes the set that its loop or switch installs, whatever the targets from which the body
is walked. -/
theorem LivenessInfo.takes_of_holds (hb : b.Accepted) (start : Targets)
    (hu : u ∈ b.root.flatMap Stmt.substmts) (hj : u.kind = j.kind) {L : Stmt}
    (hL : L ∈ b.root.flatMap Stmt.substmts) {tried : Bool} (h : L.Holds u j tried) :
    ∃ t o e, Takes b start L u j tried t o e := by
  obtain ⟨c, hc, hpasses⟩ := h.passes
  obtain ⟨t, o, hsub⟩ :=
    Stmt.listEntries_walkedIn b.root start ∅ (Stmt.substmtsOfList_eq b.root ▸ hL)
  have hkind : Stmt.kindEntries b.allVars 1 t o L.kind ⊆ L.liveEntries b.allVars 1 t o := by
    obtain ⟨id, k⟩ := L
    exact List.subset_append_left _ _
  obtain ⟨e, t', o', hleads, he, hwalk⟩ := (Stmt.kindEntries_walkedFrom_held hc 0 o).trans
    (Stmt.liveEntries_walkedFrom hpasses)
  have hwalk := List.Subset.trans hwalk (List.Subset.trans hkind hsub)
  have hL := computeWith_of_entry hb hL (hsub (Stmt.mem_liveEntries_self L))
  have hu := computeWith_of_entry hb hu (hwalk (Stmt.mem_liveEntries_self u))
  refine ⟨t, o, e, hsub, hL.1, hL.2, ?_, ⟨o', ?_⟩, by simpa using he⟩
  · rw [hu.1, Stmt.liveIn_of_kind hj, hleads.taken, hleads.protect]
    ext i
    simp only [mem_union, Stmt.heldTargets, Targets.breakable]
    tauto
  · rw [hu.2, hleads.protect]
    rfl

end Midend
