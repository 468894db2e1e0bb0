import Midend.Proofs.Liveness.Jumps

/-!
# Independence of the starting targets

Walks over the root block that start from different targets of jumps find the same
(`LivenessInfo.computeWith_eq_of_sameExits`). The body of a loop is walked with
targets of its own, and outside of the bodies of loops no jump goes further than a
switch there. Only a `finally` block is live before every way out, so for one that is
outside of the bodies of loops the exits have to be the same, all together.
`LivenessInfo.jumps_have_targets` adds which targets the jumps take instead. It is
about jumps that do not pass out of the initialiser of a `for` loop: an accepted body
may break out of one, and the walk then takes the target outside of the loop.
-/

namespace Midend

open IdSet

namespace StmtKind

variable {ε σ : Type}

/-- The nested statements that are walked with jumps to outside of the layer: all but the body of a
loop. -/
def outer (k : StmtKind ε σ) : List σ := if k.isLoop then k.initial else k.stmtChildren

/-- Parts that share the outer targets are parts. -/
theorem outer_subset {k : StmtKind ε σ} : k.outer ⊆ k.stmtChildren := by
  intro c hc
  cases k with
  | whileLoop | doLoop | forEach => cases hc
  | forLoop => exact List.mem_append_left _ hc
  | _ => exact hc

/-- Whether something runs on every way out of the layer. -/
def isFinalized : StmtKind ε σ → Bool
  | guarded _ _ _ (some _) => true
  | _ => false

end StmtKind

namespace Stmt

/-- `F` is in a statement outside of the bodies of loops there. There is a switch around `F` if
`inSwitch`, given whether there is one around the statement. -/
inductive Outside (F : Stmt) (inSwitch : Bool) : Bool → Stmt → Prop
  | self : Outside F inSwitch inSwitch F
  | nested {q : Bool} {id : StmtId} {k : StmtKind Expr Stmt} {c : Stmt} :
    c ∈ k.outer → Outside F inSwitch (q || k.isBreakable && !k.isLoop) c →
      Outside F inSwitch q (.node id k)

/-- A part of a switch stays in it. -/
theorem Outside.inSwitch {F s : Stmt} {q r : Bool} (h : F.Outside r q s) (hq : q = true) :
    r = true := by
  induction h with
  | self => exact hq
  | nested _ _ ih => exact ih (by rw [hq, Bool.true_or])

/-- Whatever stands outside of the inner targets is nested in the statement. -/
theorem Outside.mem_substmts {F s : Stmt} {q r : Bool} (h : F.Outside r q s) : F ∈ s.substmts := by
  induction h with
  | self => exact mem_substmts_self F
  | nested hc _ ih => exact substmts_subset (StmtKind.outer_subset hc) ih

/-- A part that shares the targets passes them on. -/
theorem Outside.of_outer {F c : Stmt} {q q' r : Bool} {id : StmtId} {k : StmtKind Expr Stmt}
    (h : F.Outside r q' c) (hc : c ∈ k.outer) (hq : (q || k.isBreakable && !k.isLoop) = q') :
    F.Outside r q (node id k) := .nested hc (hq ▸ h)

/-- Every jump that passes out of the statement has a switch around it to go to. -/
def Settled (inSwitch : Bool) (s : Stmt) : Prop :=
  ∀ (u : Stmt) (j : Jump) (tried : Bool), u.kind = j.kind → u.Passes j tried s →
    j.allowed false inSwitch = true

/-- A statement without a shape fault jumps only to targets it has. -/
theorem settled_of_shapeFault? {inSwitch : Bool} {s : Stmt}
    (h : s.shapeFault? false inSwitch = none) : s.Settled inSwitch :=
  fun _ _ _ hu hpasses => allowed_of_passes hpasses hu h

end Stmt

/-- Everything that is live on some way out by a jump, but for a `break` that a switch takes. -/
def Targets.exits (inSwitch : Bool) (t : Targets) : IdSet :=
  (if inSwitch then ∅ else t.brk) ∪ t.cont ∪ t.ret ∪ t.protect

theorem Targets.exits_through {r : Bool} {t t' : Targets} (h : t.exits r = t'.exits r)
    (e : IdSet) : (t.through e).exits r = (t'.through e).exits r := by
  have hthrough : ∀ t : Targets, (t.through e).exits r = t.exits r ∪ e := by
    intro t
    ext v
    cases r <;> simp [exits, through] <;> tauto
  rw [hthrough, hthrough, h]

namespace Stmt

/-! ## Walks that find the same -/

section WalksAlike

variable {all : IdSet} {rounds : Nat} {t t' : Targets}

/-- Walks that come to the statement with `t` and `t'` find the same. -/
structure WalksAlike (all : IdSet) (rounds : Nat) (t t' : Targets) (s : Stmt) : Prop where
  liveIn : ∀ o, s.liveIn all rounds t o = s.liveIn all rounds t' o
  entries : ∀ o, s.liveEntries all rounds t o = s.liveEntries all rounds t' o

/-- Statements that are walked alike one after another. -/
theorem WalksAlike.list : ∀ {ss : List Stmt}, (∀ s ∈ ss, s.WalksAlike all rounds t t') →
    (∀ o, listIn all rounds t o ss = listIn all rounds t' o ss) ∧
      ∀ o, listEntries all rounds t o ss = listEntries all rounds t' o ss
  | [], _ => ⟨fun _ => rfl, fun _ => rfl⟩
  | s :: ss, h => by
    rw [List.forall_mem_cons] at h
    obtain ⟨hin, hentries⟩ := WalksAlike.list h.2
    refine ⟨fun o => ?_, fun o => ?_⟩
    · rw [listIn, listIn, hin, h.1.liveIn]
    · rw [listEntries, listEntries, hin, hentries, h.1.entries]

theorem WalksAlike.cases : ∀ {cs : List (SwitchCase Expr Stmt)},
    (∀ s ∈ cs.flatMap (·.body), s.WalksAlike all rounds t t') →
      (∀ o, casesIn all rounds t o cs = casesIn all rounds t' o cs) ∧
        ∀ o, caseEntries all rounds t o cs = caseEntries all rounds t' o cs
  | [], _ => ⟨fun _ => rfl, fun _ => rfl⟩
  | ⟨_, _, body⟩ :: cs, h => by
    rw [List.flatMap_cons, List.forall_mem_append] at h
    obtain ⟨hin, hentries⟩ := WalksAlike.cases h.2
    obtain ⟨hbody, hbodyEntries⟩ := WalksAlike.list h.1
    refine ⟨fun o => ?_, fun o => ?_⟩
    · simp only [casesIn, hin, hbody]
    · rw [caseEntries, caseEntries, hin, hentries, hbodyEntries]

theorem WalksAlike.catches : ∀ {cs : List (CatchClause Stmt)},
    (∀ s ∈ cs.flatMap (·.body), s.WalksAlike all rounds t t') →
      (∀ o, catchesIn all rounds t o cs = catchesIn all rounds t' o cs) ∧
        ∀ o, catchEntries all rounds t o cs = catchEntries all rounds t' o cs
  | [], _ => ⟨fun _ => rfl, fun _ => rfl⟩
  | ⟨_, _, body⟩ :: cs, h => by
    rw [List.flatMap_cons, List.forall_mem_append] at h
    obtain ⟨hin, hentries⟩ := WalksAlike.catches h.2
    obtain ⟨hbody, hbodyEntries⟩ := WalksAlike.list h.1
    refine ⟨fun o => ?_, fun o => ?_⟩
    · rw [catchesIn, catchesIn, hin, hbody]
    · rw [catchEntries, catchEntries, hentries, hbodyEntries]

/-- A statement whose layer is walked alike is. -/
theorem WalksAlike.node {id : StmtId} {k : StmtKind Expr Stmt} (hprotect : t.protect = t'.protect)
    (hin : ∀ o, kindIn all rounds t o k = kindIn all rounds t' o k)
    (hentries : ∀ o, kindEntries all rounds t o k = kindEntries all rounds t' o k) :
    (node id k).WalksAlike all rounds t t' := by
  have hlive : ∀ o, (Stmt.node id k).liveIn all rounds t o =
      (Stmt.node id k).liveIn all rounds t' o := by
    intro o
    rw [Stmt.liveIn, Stmt.liveIn, hin, hprotect]
  refine ⟨hlive, fun o => ?_⟩
  rw [liveEntries, liveEntries, hentries, hlive, hprotect]

end WalksAlike

/-! ## Statements for which targets make no difference -/

/-- The targets differ only in what no jump or `finally` block in the statement leads to. There is
something to break out of around it if `q`. -/
structure Indifferent (q : Bool) (t t' : Targets) (s : Stmt) : Prop where
  ret : t.ret = t'.ret
  protect : t.protect = t'.protect
  brk : q = true → t.brk = t'.brk
  settled : s.Settled q
  initial : ∀ (F : Stmt) (r : Bool), F.Outside r q s → ∀ c ∈ F.kind.initial, c.Settled r
  exits : ∀ (F : Stmt) (r : Bool), F.Outside r q s → F.kind.isFinalized = true →
    t.exits r = t'.exits r

namespace Indifferent

variable {q : Bool} {t t' : Targets} {s c : Stmt} {id : StmtId} {k : StmtKind Expr Stmt}

/-- Indifference to the targets is kept through a finalizer. -/
theorem through (h : s.Indifferent q t t') (e : IdSet) :
    s.Indifferent q (t.through e) (t'.through e) where
  ret := congrArg (· ∪ e) h.ret
  protect := congrArg (· ∪ e) h.protect
  brk hq := congrArg (· ∪ e) (h.brk hq)
  settled := h.settled
  initial := h.initial
  exits F r hF hfinal := Targets.exits_through (h.exits F r hF hfinal) e

/-- The body of a loop and the groups of a switch are walked with targets that hold nothing else of
the outer ones. -/
theorem breakable (h : s.Indifferent q t t') (brk cont : IdSet) :
    t.breakable brk cont = t'.breakable brk cont := by
  simp only [Targets.breakable, h.ret, h.protect]

/-- What is nested in a layer that takes no jumps is indifferent as well. -/
theorem child (h : (node id k).Indifferent q t t') (hk : k.isBreakable = false)
    (hc : c ∈ k.stmtChildren) : c.Indifferent q t t' := by
  have hloop : k.isLoop = false := by
    cases k <;> first | rfl | cases hk
  have houter : c ∈ k.outer := by simpa [StmtKind.outer, hloop] using hc
  have hq : (q || k.isBreakable && !k.isLoop) = q := by simp [hk]
  refine ⟨h.ret, h.protect, h.brk, fun u j tried hu hpasses => ?_, fun F r hF => ?_,
    fun F r hF => ?_⟩
  · refine h.settled u j _ hu (.out ?_ hc hpasses)
    cases j with
    | brk => exact hk
    | cont => exact hloop
  · exact h.initial F r (hF.of_outer houter hq)
  · exact h.exits F r (hF.of_outer houter hq)

/-- A group of a switch is walked with a `break` of its own. -/
theorem group {selector : Expr} {cases : List (SwitchCase Expr Stmt)}
    (h : (node id (.switch selector cases)).Indifferent q t t') (hc : c ∈ cases.flatMap (·.body))
    (o : IdSet) : c.Indifferent true (t.breakable o t.cont) (t'.breakable o t'.cont) := by
  have hq : (q || true) = true := Bool.or_true q
  refine ⟨h.ret, h.protect, fun _ => rfl, fun u j tried hu hpasses => ?_, fun F r hF => ?_,
    fun F r hF hfinal => ?_⟩
  · cases j with
    | brk => rfl
    | cont => exact h.settled u .cont _ hu (.out rfl hc hpasses)
  · exact h.initial F r (hF.of_outer hc hq)
  · have hexits := h.exits F r (hF.of_outer hc hq) hfinal
    obtain rfl := hF.inSwitch rfl
    exact hexits

/-- The initialiser of a `for` loop is walked with the targets of the loop. -/
theorem init {init : List Stmt} {cond : Option Expr} {update : List Expr} {body : Stmt}
    (h : (node id (.forLoop init cond update body)).Indifferent q t t') (hc : c ∈ init) :
    c.Indifferent q t t' := by
  have hq : (q || false) = q := Bool.or_false q
  refine ⟨h.ret, h.protect, h.brk, h.initial _ q .self c hc, fun F r hF => ?_, fun F r hF => ?_⟩
  · exact h.initial F r (hF.of_outer hc hq)
  · exact h.exits F r (hF.of_outer hc hq)

/-- Under a finalizer the targets agree at every exit together. -/
theorem anyExit (h : (node id k).Indifferent q t t') (hk : k.isFinalized = true) :
    t.anyExit = t'.anyExit := by
  have hexits := h.exits _ q .self hk
  cases q with
  | false => exact hexits
  | true =>
    have hsplit : ∀ t : Targets, t.anyExit = t.brk ∪ t.exits true := by
      intro t
      ext v
      simp [Targets.anyExit, Targets.exits, or_assoc]
    rw [hsplit, hsplit, h.brk rfl, hexits]

/-- A jump at the statement itself is one that a switch around it takes. -/
theorem taken {j : Jump} (h : (node id j.kind).Indifferent q t t') : j.taken t = j.taken t' := by
  have hallowed := h.settled _ j false rfl .self
  cases j with
  | brk => exact h.brk hallowed
  | cont => cases hallowed

end Indifferent

/-- All parts of a `try` statement but its `finally` block are walked through what they need, and
the block is walked from everything that is live on a way out. -/
theorem Indifferent.guarded {all : IdSet} {rounds : Nat} {q : Bool} {t t' : Targets} {id : StmtId}
    {resources body : List Stmt} {catches : List (CatchClause Stmt)}
    {finalizer : Option (List Stmt)}
    (h : (node id (.guarded resources body catches finalizer)).Indifferent q t t')
    (ih : ∀ c ∈ (node id (.guarded resources body catches finalizer)).kind.stmtChildren,
      ∀ {q t t'}, c.Indifferent q t t' → c.WalksAlike all rounds t t') :
    (node id (.guarded resources body catches finalizer)).WalksAlike all rounds t t' := by
  have hself := fun c hc => ih c hc (h.child rfl hc)
  have hthrough := fun e c hc => ih c hc ((h.child rfl hc).through e)
  simp only [kind, StmtKind.stmtChildren, List.forall_mem_append] at hself hthrough
  have hresources := fun e => WalksAlike.list (hthrough e).1.1.1
  have hbody := fun e => WalksAlike.list (hthrough e).1.1.2
  cases finalizer with
  | none =>
    have hcatches := WalksAlike.catches hself.1.2
    refine .node h.protect (fun o => ?_) fun o => ?_
    · simp only [kindIn, hcatches.1, hbody, hresources]
    · simp only [kindEntries, hcatches.1, hcatches.2, hbody, hresources]
  | some finalizer =>
    have hcatches := fun e => WalksAlike.catches (hthrough e).1.2
    have hlast : ∀ c ∈ finalizer, c.WalksAlike all rounds t t' := hself.2
    have hfinalizer := WalksAlike.list hlast
    refine .node h.protect (fun o => ?_) fun o => ?_
    · simp only [kindIn, h.anyExit rfl, hfinalizer.1, hcatches, hbody, hresources]
    · simp only [kindEntries, h.anyExit rfl, hfinalizer.1, hfinalizer.2, hcatches, hbody,
        hresources]

/-- Walks that come to an indifferent statement find the same. -/
theorem Indifferent.walksAlike {all : IdSet} {rounds : Nat} {q : Bool} {t t' : Targets} {s : Stmt}
    (h : s.Indifferent q t t') : s.WalksAlike all rounds t t' := by
  induction s using ofChildren generalizing q t t' with
  | node id k ih =>
    have hprotect := h.protect
    cases k with
    | decl v init =>
      refine .node hprotect (fun o => ?_) fun o => ?_
      · cases init <;> simp only [kindIn, hprotect]
      · simp only [kindEntries, hprotect]
    | expr e | throw e | assert c message =>
      refine .node hprotect (fun o => ?_) fun o => ?_
      · simp only [kindIn, hprotect]
      · simp only [kindEntries, hprotect]
    | ret e =>
      refine .node hprotect (fun o => ?_) fun o => ?_
      · cases e <;> simp only [kindIn, hprotect, h.ret]
      · simp only [kindEntries, hprotect, h.ret]
    | empty | err => exact .node hprotect (fun _ => rfl) fun _ => rfl
    | breakOut => exact .node hprotect (fun _ => h.taken (j := .brk)) fun _ => rfl
    | continueLoop => exact .node hprotect (fun _ => h.taken (j := .cont)) fun _ => rfl
    | block body =>
      obtain ⟨hin, hentries⟩ := WalksAlike.list fun c hc => ih c hc (h.child rfl hc)
      exact .node hprotect hin hentries
    | branch c a other =>
      have ha := ih a List.mem_cons_self (h.child rfl List.mem_cons_self)
      cases other with
      | none =>
        refine .node hprotect (fun o => ?_) fun o => ?_
        · simp only [kindIn, hprotect, ha.liveIn]
        · simp only [kindEntries, hprotect, ha.liveIn, ha.entries]
      | some b =>
        have hmem : b ∈ (StmtKind.branch c a (some b)).stmtChildren := .tail _ (.head _)
        have hb := ih b hmem (h.child rfl hmem)
        refine .node hprotect (fun o => ?_) fun o => ?_
        · simp only [kindIn, hprotect, ha.liveIn, hb.liveIn]
        · simp only [kindEntries, hprotect, ha.liveIn, hb.liveIn, ha.entries, hb.entries]
    | whileLoop c body | doLoop body c | forEach v c body =>
      refine .node hprotect (fun o => ?_) fun o => ?_
      · simp only [kindIn, hprotect, h.breakable]
      · simp only [kindEntries, hprotect, h.breakable]
    | forLoop init cond update body =>
      obtain ⟨hin, hentries⟩ := WalksAlike.list fun c hc =>
        ih c (List.mem_append_left _ hc) (h.init hc)
      refine .node hprotect (fun o => ?_) fun o => ?_
      · simp only [kindIn, hprotect, h.breakable, hin]
      · simp only [kindEntries, hprotect, h.breakable, hentries]
    | switch selector cases =>
      have hcases := fun o => WalksAlike.cases fun c hc => ih c hc (h.group hc o)
      refine .node hprotect (fun o => ?_) fun o => ?_
      · simp only [kindIn, hprotect, (hcases o).1]
      · simp only [kindEntries, hprotect, (hcases o).1, (hcases o).2]
    | guarded resources body catches finalizer => exact h.guarded fun c hc => ih c hc

end Stmt

/-! ## Bodies -/

namespace Body

/-- Every jump that passes out of an initialiser outside of the bodies of loops has a switch around
it to go to. -/
def InitialSettled (b : Body) : Prop :=
  ∀ s ∈ b.root, ∀ (F : Stmt) (r : Bool), F.Outside r false s → ∀ c ∈ F.kind.initial, c.Settled r

/-- The targets have the same exits for every `finally` block outside of the bodies of loops. -/
def SameExits (b : Body) (t t' : Targets) : Prop :=
  ∀ s ∈ b.root, ∀ (F : Stmt) (r : Bool), F.Outside r false s → F.kind.isFinalized = true →
    t.exits r = t'.exits r

/-- A body without initialisers. -/
theorem initialSettled_of_forall {b : Body}
    (h : ∀ F ∈ b.root.flatMap Stmt.substmts, F.kind.initial = []) : b.InitialSettled := by
  intro s hs F r hF c hc
  rw [h F (List.mem_flatMap.2 ⟨s, hs, hF.mem_substmts⟩)] at hc
  cases hc

end Body

namespace LivenessInfo

variable {b : Body}

/-- The liveness of an accepted body does not depend on where a `break` or `continue` around it
would go, but for the exits of `finally` blocks. -/
theorem computeWith_eq_of_sameExits (hb : b.Accepted) (rounds : Nat) {t t' : Targets}
    (hret : t.ret = t'.ret) (hprotect : t.protect = t'.protect) (hinitial : b.InitialSettled)
    (hexits : b.SameExits t t') : computeWith b rounds t = computeWith b rounds t' := by
  have hwalks : ∀ s ∈ b.root, s.WalksAlike b.allVars rounds t t' := by
    intro s hs
    have hsettled := Stmt.settled_of_shapeFault? (Stmt.listFault?_eq_none.1 hb.listFault? s hs)
    have hs : s.Indifferent false t t' :=
      ⟨hret, hprotect, nofun, hsettled, hinitial s hs, hexits s hs⟩
    exact hs.walksAlike
  obtain ⟨hin, hentries⟩ := Stmt.WalksAlike.list hwalks
  simp only [computeWith, hin, hentries]

/-- A `try` statement with nothing but a `finally` block. -/
def finishes : Body where
  name := "finishes"
  vars := #[⟨"x", .prim .int, .param, .dummy⟩]
  stmts := #[⟨.dummy, .guarded [] [] [] (some [])⟩]
  params := [0]
  block := [0]

/-- Without `SameExits` the walks may differ: a `finally` block outside of all loops is live before
every way out, to wherever a jump around the body would go. -/
theorem computeWith_finishes_ne :
    finishes.Accepted ∧ computeWith finishes 1 { brk := .ofList [0] } ≠ compute finishes :=
  ⟨⟨finishes.has_of_reaches (by decide) (by decide) (by decide), by decide⟩,
    fun h => absurd (congrArg entry h) (by decide)⟩

/-- Two walks over an accepted body whose targets differ in the places of a `break` and a `continue`
find the same if `finally` blocks outside of the bodies of loops have the same exits, unless a jump
passes out of an initialiser there. In every walk, a jump that does not pass out of an initialiser
takes the set installed by the loop or switch around it that it goes to. -/
theorem jumps_have_targets (hb : b.Accepted) (start : Targets) :
    (∀ t, start.ret = t.ret → start.protect = t.protect → b.InitialSettled →
      b.SameExits start t → computeWith b 1 start = computeWith b 1 t) ∧
    ∀ u ∈ b.root.flatMap Stmt.substmts, ∀ j : Jump, u.kind = j.kind →
      ∃ L ∈ b.root.flatMap Stmt.substmts, ∃ tried,
        (L.Holds u j tried ∧ ∃ t o e, Takes b start L u j tried t o e) ∨
          ∃ c ∈ L.kind.initial, u.Passes j tried c := by
  refine ⟨fun t hret hprotect => computeWith_eq_of_sameExits hb 1 hret hprotect,
    fun u hu j hj => ?_⟩
  obtain ⟨L, hL, tried, hholds | hinitial⟩ := hb.exists_home hu hj
  · exact ⟨L, hL, tried, .inl ⟨hholds, takes_of_holds hb start hu hj hL hholds⟩⟩
  · exact ⟨L, hL, tried, .inr hinitial⟩

/-- A `break` of a switch and a `continue` of a loop, both through a `finally` block. -/
def leftThrough : Body where
  name := "leftThrough"
  vars := #[⟨"c", .prim .boolean, .param, .dummy⟩, ⟨"x", .prim .int, .param, .dummy⟩,
    ⟨"y", .prim .int, .param, .dummy⟩]
  exprs := #[⟨.dummy, .var 1⟩, ⟨.dummy, .lit (.int 1)⟩, ⟨.dummy, .var 0⟩, ⟨.dummy, .var 2⟩,
    ⟨.dummy, .var 1⟩, ⟨.dummy, .assign 3 none 4⟩, ⟨.dummy, .var 2⟩]
  stmts := #[⟨.dummy, .breakOut⟩, ⟨.dummy, .continueLoop⟩,
    ⟨.dummy, .switch 0 [⟨.dummy, [1], [0]⟩, ⟨.dummy, [], [1]⟩]⟩, ⟨.dummy, .whileLoop 2 2⟩,
    ⟨.dummy, .expr 5⟩, ⟨.dummy, .guarded [] [3] [] (some [4])⟩, ⟨.dummy, .ret (some 6)⟩]
  params := [0, 1, 2]
  block := [5, 6]

/-- A loop that is left through a finalizer, walked from two different targets. -/
theorem jumps_have_targets_leftThrough :
    leftThrough.Accepted ∧
      computeWith leftThrough 1 ⟨.ofList [0], .ofList [1], .ofList [0, 1], ∅⟩ =
        computeWith leftThrough 1 ⟨.ofList [1], .ofList [0], .ofList [0, 1], ∅⟩ ∧
      ∃ L ∈ leftThrough.root.flatMap Stmt.substmts, ∃ tried,
        (L.Holds (leftThrough.stmtTree 1) .cont tried ∧ ∃ t o e,
          Takes leftThrough ⟨.ofList [0], .ofList [1], .ofList [0, 1], ∅⟩ L
            (leftThrough.stmtTree 1) .cont tried t o e) ∨
          ∃ c ∈ L.kind.initial, (leftThrough.stmtTree 1).Passes .cont tried c := by
  have hb : leftThrough.Accepted :=
    ⟨leftThrough.has_of_reaches (by decide) (by decide) (by decide), by decide⟩
  obtain ⟨hsame, htargets⟩ :=
    jumps_have_targets hb ⟨.ofList [0], .ofList [1], .ofList [0, 1], ∅⟩
  have hinitial : leftThrough.InitialSettled := Body.initialSettled_of_forall (by decide)
  have hjump : leftThrough.stmtTree 1 ∈ leftThrough.root.flatMap Stmt.substmts :=
    .tail _ (.tail _ (.tail _ (.tail _ (.head _))))
  refine ⟨hb, hsame _ rfl rfl hinitial fun s _ F r _ _ => ?_, htargets _ hjump .cont rfl⟩
  cases r <;> rfl

/-- `for (break; ; ) ; return x;` -/
def breaksInitial : Body where
  name := "breaksInitial"
  vars := #[⟨"x", .prim .int, .param, .dummy⟩]
  exprs := #[⟨.dummy, .var 0⟩]
  stmts := #[⟨.dummy, .breakOut⟩, ⟨.dummy, .empty⟩, ⟨.dummy, .forLoop [0] none [] 1⟩,
    ⟨.dummy, .ret (some 0)⟩]
  params := [0]
  block := [2, 3]

/-- A `break` out of an initialiser goes to what is live after its loop, and the walk takes what it
starts with instead: `x` is live after the loop and not before the `break`, unless the walk starts
with it. -/
theorem not_independent_of_targets :
    breaksInitial.Accepted ∧ (compute breaksInitial).liveOut 2 = .ofList [0] ∧
      (compute breaksInitial).liveIn 0 = ∅ ∧
      computeWith breaksInitial 1 { brk := .ofList [0] } ≠ compute breaksInitial := by
  have hb : breaksInitial.Accepted :=
    ⟨breaksInitial.has_of_reaches (by decide) (by decide) (by decide), by decide⟩
  exact ⟨hb, by decide, by decide, fun h => absurd (congrArg entry h) (by decide)⟩

end LivenessInfo

end Midend
