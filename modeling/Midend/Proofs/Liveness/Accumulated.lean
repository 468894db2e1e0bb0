import Midend.Proofs.Body.Trees
import Midend.Proofs.Liveness.Definite
import Midend.Proofs.Liveness.Finds

/-!
# The recording walk finds the liveness

The walk that records everything as it goes comes to what the transfer functions
give and records the entries of the last walk over each loop (`Expr.recordLive_finds`,
`Stmt.recordLive_finds`). In an accepted body the identifiers tell its statements apart,
so the overwrites that the walk looks up are those it recorded, and the walk ends
with the liveness that `computeWith` gathers from the tree
(`LivenessInfo.accumulateWith_eq`).
-/

namespace Midend

open IdSet Recording

/-! ## Expressions -/

/-- The variables that expressions in their roles read. -/
def readsOf (us : List (Role × Expr)) : List VarId := us.filterMap fun (role, e) => e.readAs role

@[simp] theorem readsOf_append (us us' : List (Role × Expr)) :
    readsOf (us ++ us') = readsOf us ++ readsOf us' := List.filterMap_append

@[simp] theorem readsOf_roles (e : Expr) : readsOf e.roles = e.reads := rfl

/-- A role that is no read adds none. -/
theorem readsOf_cons_of_none {role : Role} {e : Expr} {us : List (Role × Expr)}
    (h : e.readAs role = none) : readsOf ((role, e) :: us) = readsOf us :=
  List.filterMap_cons_none h

namespace Expr

variable {W : List Stmt} {p : IdSet}

/-- An assignment target puts its entries and reads nothing itself. -/
theorem recordTarget_finds (e : Expr) (live : IdSet) :
    Finds W (e.recordTarget live) () (e.targetEntries live) [] [] := by
  fun_induction e.recordTarget live with
  | case1 id inner ih => exact (Finds.put (.expr id live)).bind ih
  | case2 id kind hparen =>
    rw [targetEntries, targetChain]
    · exact .put (.expr id live)
    · exact hparen

/-- What is read at a target that is a local. -/
theorem readsOf_targetRoles {v : VarId} {reads : Bool} :
    ∀ {e : Expr}, e.localTarget? = some v →
      readsOf (e.targetRoles reads) = if reads then [v] else []
  | node id kind, h => by
    cases kind with
    | paren inner =>
      rw [targetRoles, readsOf_cons_of_none (by cases reads <;> rfl)]
      exact readsOf_targetRoles h
    | var u =>
      cases h
      cases reads <;> rfl
    | _ => cases h

mutual

/-- The recording walk of an expression finds its set, its entries and its reads. -/
theorem recordLive_finds : ∀ (e : Expr) (o : IdSet),
    Finds W (e.recordLive p o) (e.liveIn p o) (e.liveEntries p o) [] (readsOf e.roles)
  | node id kind, o => by
    have hk := (recordOperands_finds kind o).leave id p
    cases kind with
    | var v => exact (Finds.noteRead v).returning.leave id p
    | assign l op r =>
      rw [recordLive, liveEntries, roles, liveIn, readsOf_cons_of_none rfl, readsOf_append]
      cases hl : l.localTarget? with
      | none =>
        have hl := recordPlace_finds l (r.liveIn p o) op.isSome hl
        exact (((recordLive_finds r o).bind hl).leave id p).reading (by simp [or_comm])
      | some v =>
        rw [readsOf_targetRoles hl]
        have hr := recordLive_finds r (o.erase v)
        cases op with
        | none =>
          refine ((hr.bind (recordTarget_finds l _).returning).leave id p).reading ?_
          simp
        | some op =>
          have htarget := recordTarget_finds (W := W) l ((r.liveIn p (o.erase v)).insert v ∪ p)
          have htarget := htarget.returning (c := (r.liveIn p (o.erase v)).insert v)
          refine ((hr.bind ((Finds.noteRead v).bind htarget)).leave id p).reading ?_
          simp [or_comm]
    | unary op e =>
      cases op with
      | step s =>
        rw [recordLive, liveEntries, roles, liveIn, readsOf_cons_of_none rfl]
        cases he : e.localTarget? with
        | none => exact (recordPlace_finds e o true he).leave id p
        | some v =>
          rw [readsOf_targetRoles he]
          exact ((Finds.noteRead v).bind (recordTarget_finds e _).returning).leave id p
      | _ => exact hk
    | binary l op r =>
      cases op with
      | logic op =>
        have hroles : readsOf (node id (.binary l (.logic op) r)).roles =
            readsOf l.roles ++ readsOf r.roles := readsOf_append l.roles r.roles
        rw [hroles]
        have hl := recordLive_finds l (o ∪ r.liveIn p o)
        exact (((recordLive_finds r o).bind hl).leave id p).reading (by simp [or_comm])
      | _ => exact hk
    | conditional c t f =>
      have hroles : readsOf (node id (.conditional c t f)).roles =
          readsOf c.roles ++ readsOf (t.roles ++ f.roles) := readsOf_append c.roles _
      have harms : Finds W (do
          let onTrue ← t.recordLive p o
          let onFalse ← f.recordLive p o
          c.recordLive p (onTrue ∪ onFalse)) _ _ _ _ :=
        (recordLive_finds t o).bind ((recordLive_finds f o).bind (recordLive_finds c _))
      rw [← List.append_assoc] at harms
      rw [hroles]
      exact (harms.leave id p).reading fun v => by simp; tauto
    | _ => exact hk

/-- The parts of a place are walked with what the place reads. -/
theorem recordPlace_finds : ∀ (e : Expr) (o : IdSet) (reads : Bool), e.localTarget? = none →
    Finds W (e.recordPlace p o) (e.placeIn p o) (e.placeEntries p o) []
      (readsOf (e.targetRoles reads))
  | node id kind, o, reads, h => by
    have hk := (recordOperands_finds kind o).place id p
    cases kind with
    | paren inner =>
      rw [targetRoles, readsOf_cons_of_none (by cases reads <;> rfl)]
      exact (recordPlace_finds inner o reads h).place id p
    | var v => cases h
    | _ =>
      rw [targetRoles, readsOf_cons_of_none (by cases reads <;> rfl)]
      · exact hk
      · nofun

/-- The operands are walked from the last to the first. -/
theorem recordOperands_finds : ∀ (k : ExprKind Expr) (o : IdSet),
    Finds W (recordOperands p o k) (operandsIn p o k) (operandEntries p o k) []
      (readsOf (operandRoles k))
  | .lit _, o | .var _, o | .err, o | .field none .., o => .pure
  | .field (some e) .., o | .unary _ e, o | .paren e, o | .cast _ e, o | .instanceOf e _, o =>
    recordLive_finds e o
  | .assign l _ r, o | .binary l _ r, o | .index l r, o => by
    rw [recordOperands, operandsIn, operandEntries, operandRoles, readsOf_append]
    exact ((recordLive_finds r o).bind (recordLive_finds l _)).reading (by simp [or_comm])
  | .conditional c t f, o => by
    rw [recordOperands, operandsIn, operandEntries, operandRoles]
    have harms : Finds W (do
        let live ← f.recordLive p o
        let live ← t.recordLive p live
        c.recordLive p live) _ _ _ _ :=
      (recordLive_finds f o).bind ((recordLive_finds t _).bind (recordLive_finds c _))
    rw [← List.append_assoc] at harms
    exact harms.reading fun v => by simp; tauto
  | .call none _ args, o | .create _ args, o => recordList_finds args o
  | .call (some e) _ args, o => by
    rw [recordOperands, operandsIn, operandEntries, operandRoles, readsOf_append]
    exact ((recordList_finds args o).bind (recordLive_finds e _)).reading (by simp [or_comm])

theorem recordList_finds : ∀ (es : List Expr) (o : IdSet),
    Finds W (recordList p o es) (listIn p o es) (listEntries p o es) [] (readsOf (listRoles es))
  | [], _ => .pure
  | e :: es, o => by
    rw [recordList, listIn, listEntries, listRoles, readsOf_append]
    exact ((recordList_finds es o).bind (recordLive_finds e _)).reading (by simp [or_comm])

end

/-- The reads of expressions are those of each one in order. -/
theorem readsOf_listRoles (es : List Expr) : readsOf (listRoles es) = es.flatMap reads := by
  rw [listRoles_eq, readsOf, List.filterMap_flatMap]
  rfl

theorem listIn_append (o : IdSet) (es es' : List Expr) :
    listIn p o (es ++ es') = listIn p (listIn p o es') es := by
  induction es with
  | nil => rfl
  | cons e es ih => rw [List.cons_append, listIn, listIn, ih]

theorem listEntries_append (o : IdSet) (es es' : List Expr) :
    listEntries p o (es ++ es') = listEntries p o es' ++ listEntries p (listIn p o es') es := by
  induction es with
  | nil => rw [listEntries, List.append_nil, List.nil_append]
  | cons e es ih =>
    rw [List.cons_append, listEntries, listEntries, ih, listIn_append, List.append_assoc]

end Expr

/-! ## Statements -/

namespace Stmt

variable {W : List Stmt} {all : IdSet} {rounds : Nat}

/-- The labels are walked as one list, in front of the cases. -/
theorem recordLabels_finds (p o : IdSet) : ∀ cs : List (SwitchCase Expr Stmt),
    Finds W (recordLabels p o cs) (Expr.listIn p o (labels cs))
      (Expr.listEntries p o (labels cs)) [] ((labels cs).flatMap Expr.reads)
  | [] => .pure
  | c :: cs => by
    have hlabels : labels (c :: cs) = c.labels ++ labels cs := List.flatMap_cons
    have hc := Expr.recordList_finds (W := W) (p := p) c.labels (Expr.listIn p o (labels cs))
    rw [Expr.readsOf_listRoles] at hc
    rw [recordLabels, hlabels, Expr.listIn_append, Expr.listEntries_append, List.flatMap_append]
    exact ((recordLabels_finds p o cs).bind hc).reading (by simp [or_comm])

/-- A missing condition reads nothing. -/
theorem recordCondition_finds (p o bodyIn : IdSet) : ∀ cond : Option Expr,
    Finds W (recordCondition p o cond bodyIn) (conditionIn p o cond bodyIn)
      (Expr.listEntries p (o ∪ bodyIn) cond.toList) [] (cond.toList.flatMap Expr.reads)
  | none => .pure
  | some c => (Expr.recordLive_finds c (o ∪ bodyIn)).reading (by simp)

/-- A statement's own reads are those of its expressions and what it closes. -/
theorem ownReads_node (id : StmtId) (k : StmtKind Expr Stmt) :
    (node id k).ownReads = k.exprChildren.flatMap Expr.reads ++ (node id k).closedVars := rfl

theorem subset_substmtsOfList (ss : List Stmt) : ss ⊆ substmtsOfList ss := by
  intro s hs
  rw [substmtsOfList_eq]
  exact List.mem_flatMap.2 ⟨s, hs, mem_substmts_self s⟩

theorem subset_substmtsOfCases (cs : List (SwitchCase Expr Stmt)) :
    cs.flatMap (·.body) ⊆ substmtsOfCases cs := by
  rw [substmtsOfCases_eq, ← substmtsOfList_eq]
  exact subset_substmtsOfList _

variable (W all rounds)

/-- A walk over a statement finds what is live before it and what it overwrites. -/
abbrev Found (s : Stmt) : Prop :=
  ∀ t o, Finds W (s.recordLive all rounds t o) (s.liveIn all rounds t o, s.kills)
    (s.liveEntries all rounds t o) s.substmts (s.substmts.flatMap ownReads)

/-- The same of a walk over statements, which looks nothing up. -/
abbrev ListFound (ss : List Stmt) : Prop :=
  ∀ t o, Finds W (recordList all rounds t o ss) (listIn all rounds t o ss)
    (listEntries all rounds t o ss) (substmtsOfList ss) ((substmtsOfList ss).flatMap ownReads)

/-- The same of a walk over a block, which looks up what the statements overwrite. -/
abbrev BlockFound (ss : List Stmt) : Prop :=
  ∀ t o, Finds W (block (recordList all rounds t o ss) ss)
    (listIn all rounds t o ss, (pathKills ss).1) (listEntries all rounds t o ss)
    (substmtsOfList ss) ((substmtsOfList ss).flatMap ownReads)

/-- The same of a walk over what the statement with the identifier is made of. -/
abbrev KindFound (id : StmtId) (k : StmtKind Expr Stmt) : Prop :=
  ∀ t o, Finds W (recordKind all rounds t o k) (kindIn all rounds t o k, kindKills k)
    (kindEntries all rounds t o k) (substmtsOfKind k)
    ((node id k).ownReads ++ (substmtsOfKind k).flatMap ownReads)

/-- The same of a walk over handlers. -/
abbrev CatchesFound (cs : List (CatchClause Stmt)) : Prop :=
  ∀ t o, Finds W (recordCatches all rounds t o cs) (catchesIn all rounds t o cs, catchKills cs)
    (catchEntries all rounds t o cs) (substmtsOfCatches cs)
    ((substmtsOfCatches cs).flatMap ownReads)

variable {W all rounds} {id : StmtId} {c : Expr} {body : Stmt}

/-- At the end of a block its statements are known by their identifiers. -/
theorem block_found {ss : List Stmt} (hss : ListFound W all rounds ss) (h : substmtsOfList ss ⊆ W) :
    BlockFound W all rounds ss :=
  fun t o => (hss t o).block h (subset_substmtsOfList ss)

/-! ### Loops -/

/-- What a walk over the body of a loop and over its condition records. -/
def roundEntries (all : IdSet) (rounds : Nat) (t : Targets) (o : IdSet) (c : Expr) (body : Stmt)
    (head : IdSet) : List LiveEntry :=
  body.liveEntries all rounds (t.breakable o head) head ++
    c.liveEntries t.protect (o ∪ body.liveIn all rounds (t.breakable o head) head)

/-- The walks over a loop record the same nodes. -/
theorem roundEntries_nodes (t : Targets) (o x y : IdSet) :
    (roundEntries all rounds t o c body x).map LiveEntry.node =
      (roundEntries all rounds t o c body y).map LiveEntry.node := by
  simp only [roundEntries, List.map_append]
  exact congrArg₂ _ (liveEntries_nodes body ..) (Expr.liveEntries_nodes c _ _)

/-- Every walk over a loop records the condition again. -/
theorem condition_nodes_subset (t : Targets) (o x : IdSet) :
    (c.liveEntries t.protect o).map LiveEntry.node ⊆
      (roundEntries all rounds t o c body x).map LiveEntry.node := by
  rw [roundEntries, List.map_append,
    Expr.liveEntries_nodes c o (o ∪ body.liveIn all rounds (t.breakable o x) x)]
  exact List.subset_append_right ..

theorem whileLoop_found (hb : Found W all rounds body) :
    KindFound W all rounds id (.whileLoop c body) := by
  intro t o
  have hstep : ∀ head, Finds W (do
      let before ← body.recordLive all rounds (t.breakable o head) head
      c.recordLive t.protect (o ∪ before.1)) _ (roundEntries all rounds t o c body head) _ _ :=
    fun head => (hb _ _).bind (Expr.recordLive_finds c _)
  have hloop := (Expr.recordLive_finds c o).loop (n := rounds)
    (k := fun head => return (head, c.kills)) hstep (roundEntries_nodes t o)
    (condition_nodes_subset t o) .pure
  rw [recordKind, kindIn, kindKills]
  refine hloop.arrange ?_ ?_ ?_
  · simp [kindEntries, roundEntries, walkedHead]
  · simp [substmtsOfKind]
  · simp [ownReads_node, closedVars, kind, StmtKind.exprChildren, substmtsOfKind, or_comm]

/-- Where each step computes both parts of a pair from the second part, the second parts go on by
themselves. -/
theorem snd_repeat {α β : Type} (f : β → α) (g : β → β) (n : Nat) (p : α × β) :
    (Nat.repeat (fun p => (f p.2, g p.2)) n p).2 = Nat.repeat g n p.2 := by
  induction n with
  | zero => rfl
  | succ n ih => exact congrArg g ih

theorem doLoop_found (hb : Found W all rounds body) :
    KindFound W all rounds id (.doLoop body c) := by
  intro t o
  let bodyIn := fun condIn => body.liveIn all rounds (t.breakable o condIn) condIn
  let next := fun condIn => c.liveIn t.protect (o ∪ bodyIn condIn)
  -- A walk hands on what is live before the body with what is live before the condition.
  have hstep : ∀ p : IdSet × IdSet, Finds W (do
      let before ← body.recordLive all rounds (t.breakable o p.2) p.2
      let condIn ← c.recordLive t.protect (o ∪ before.1)
      return (before.1, condIn)) (bodyIn p.2, next p.2) (roundEntries all rounds t o c body p.2)
      _ _ :=
    fun p => (hb _ _).bind (Expr.recordLive_finds c _).map
  have hwalks := (Finds.iterate hstep (fun _ _ => roundEntries_nodes t o _ _) rounds
    (∅, c.liveIn t.protect o)).map (f := fun p => (p.1, (∅ : IdSet)))
  have hfst : (Nat.repeat (fun p : IdSet × IdSet => (bodyIn p.2, next p.2)) (rounds + 1)
      (∅, c.liveIn t.protect o)).1 = bodyIn (Nat.repeat next rounds (c.liveIn t.protect o)) :=
    congrArg bodyIn (snd_repeat bodyIn next rounds _)
  rw [hfst, snd_repeat] at hwalks
  rw [recordKind, kindIn, kindKills]
  refine (((Expr.recordLive_finds c o).bind hwalks).absorb
    (condition_nodes_subset t o _)).arrange ?_ ?_ ?_
  · rw [kindEntries]
    rfl
  · simp [substmtsOfKind]
  · simp [ownReads_node, closedVars, kind, StmtKind.exprChildren, substmtsOfKind, or_comm]

theorem forEach_found {v : VarId} (hb : Found W all rounds body) :
    KindFound W all rounds id (.forEach v c body) := by
  intro t o
  have hstep : ∀ head, Finds W (do
      let before ← body.recordLive all rounds (t.breakable o head) head
      return o ∪ before.1.erase v) _ (body.liveEntries all rounds (t.breakable o head) head) _ _ :=
    fun head => (hb _ _).map
  have hloop := Finds.iterate hstep (fun x y => liveEntries_nodes body ..) rounds o
  rw [recordKind, kindIn, kindKills, kindEntries]
  refine (hloop.bind (Expr.recordLive_finds c _).map).arrange rfl ?_ ?_
  · simp [substmtsOfKind]
  · simp [ownReads_node, closedVars, kind, StmtKind.exprChildren, substmtsOfKind, or_comm]

/-- What a walk over the updates of a `for` loop, over its body and over its condition records. -/
def forEntries (all : IdSet) (rounds : Nat) (t : Targets) (o : IdSet) (cond : Option Expr)
    (update : List Expr) (body : Stmt) (head : IdSet) : List LiveEntry :=
  let updateIn := Expr.listIn t.protect head update
  let bodyIn := body.liveIn all rounds (t.breakable o updateIn) updateIn
  Expr.listEntries t.protect head update ++
    (body.liveEntries all rounds (t.breakable o updateIn) updateIn ++
      Expr.listEntries t.protect (o ∪ bodyIn) cond.toList)

section ForLoop

variable {init : List Stmt} {cond : Option Expr} {update : List Expr}

/-- The walks over a `for` loop record the same nodes. -/
theorem forEntries_nodes (t : Targets) (o x y : IdSet) :
    (forEntries all rounds t o cond update body x).map LiveEntry.node =
      (forEntries all rounds t o cond update body y).map LiveEntry.node := by
  simp only [forEntries, List.map_append]
  exact congrArg₂ _ (Expr.listEntries_nodes update _ _)
    (congrArg₂ _ (liveEntries_nodes body ..) (Expr.listEntries_nodes cond.toList _ _))

/-- Every walk over a `for` loop records the condition again. -/
theorem forCondition_nodes_subset (t : Targets) (o o' x : IdSet) :
    (Expr.listEntries t.protect o' cond.toList).map LiveEntry.node ⊆
      (forEntries all rounds t o cond update body x).map LiveEntry.node := by
  simp only [forEntries, List.map_append]
  rw [Expr.listEntries_nodes cond.toList]
  exact List.subset_append_of_subset_right _ (List.subset_append_right ..)

theorem forLoop_found (hinit : BlockFound W all rounds init) (hb : Found W all rounds body) :
    KindFound W all rounds id (.forLoop init cond update body) := by
  intro t o
  have hstep : ∀ head, Finds W (do
      let updateIn ← Expr.recordList t.protect head update
      let before ← body.recordLive all rounds (t.breakable o updateIn) updateIn
      recordCondition t.protect o cond before.1) _ (forEntries all rounds t o cond update body head)
      _ _ :=
    fun head => (Expr.recordList_finds update head).bind
      ((hb _ _).bind (recordCondition_finds t.protect o _ cond))
  have hloop := (recordCondition_finds t.protect o ∅ cond).loop (n := rounds) (k := fun head => do
    let before ← block (recordList all rounds t head init) init
    return (before.1, before.2 ∪ Expr.killsOf? cond)) hstep (forEntries_nodes t o)
    (forCondition_nodes_subset t o _) (hinit t _).map
  rw [recordKind, kindIn, kindKills]
  refine hloop.arrange ?_ ?_ ?_
  · simp only [kindEntries, forEntries, walkedHead, Nat.repeat, List.append_assoc]
  · simp [substmtsOfKind, or_comm]
  · simp [ownReads_node, closedVars, kind, StmtKind.exprChildren, substmtsOfKind,
      Expr.readsOf_listRoles, or_comm, or_left_comm]

end ForLoop

/-! ### Protected blocks -/

section Guarded

variable {resources block : List Stmt} {catches : List (CatchClause Stmt)}

theorem guarded_found (hr : BlockFound W all rounds resources) (hb : BlockFound W all rounds block)
    (hc : CatchesFound W all rounds catches) :
    KindFound W all rounds id (.guarded resources block catches none) := by
  intro t o
  rw [recordKind, kindIn, kindKills, kindEntries]
  refine ((hc t o).bind ((Finds.noteReads _).bind ((hb _ _).bind (hr _ _).map))).arrange
    (List.append_assoc ..).symm ?_ ?_
  · simp [substmtsOfKind, or_comm, or_left_comm]
  · simp [ownReads_node, closedVars, kind, StmtKind.exprChildren, substmtsOfKind, or_comm,
      or_left_comm]

/-- The finalizer is walked first, from all exits, and what it finds is added to all other walks. -/
theorem guarded_some_found {finalizer : List Stmt} (hr : BlockFound W all rounds resources)
    (hb : BlockFound W all rounds block) (hc : CatchesFound W all rounds catches)
    (hf : BlockFound W all rounds finalizer) :
    KindFound W all rounds id (.guarded resources block catches (some finalizer)) := by
  intro t o
  rw [recordKind, kindIn, kindKills, kindEntries]
  refine ((hf t _).bind ((hc _ _).bind ((Finds.noteReads _).bind
    ((hb _ _).bind (hr _ _).map)))).arrange ?_ ?_ ?_
  · simp only [List.append_assoc, List.nil_append]
  · simp [substmtsOfKind, or_assoc, or_comm, or_left_comm]
  · simp [ownReads_node, closedVars, kind, StmtKind.exprChildren, substmtsOfKind, or_assoc,
      or_comm, or_left_comm]

end Guarded

/-! ### All statements -/

mutual

theorem recordLive_finds : ∀ s : Stmt, s.substmts ⊆ W → Found W all rounds s
  | node id kind, h, t, o => by
    rw [substmts] at h
    have hk := recordKind_finds id kind (fun u hu => h (.tail _ hu)) t o
    rw [recordLive, liveIn, kills, liveEntries, substmts, liveIn]
    refine (hk.bind ((Finds.put _).bind (Finds.overwrite (node id kind)).returning)).arrange
      rfl (by simp [or_comm]) (by simp)

/-- One case for each form of statement. -/
theorem recordKind_finds (id : StmtId) : ∀ k : StmtKind Expr Stmt, substmtsOfKind k ⊆ W →
    KindFound W all rounds id k
  | .decl v none, _, _, _ => .pure
  | .decl v (some e), _, t, o => (Expr.recordLive_finds e (o.erase v)).map.reading
      (by simp [ownReads_node, closedVars, kind, StmtKind.exprChildren, substmtsOfKind])
  | .expr e, _, t, o => (Expr.recordLive_finds e o).map.reading
      (by simp [ownReads_node, closedVars, kind, StmtKind.exprChildren, substmtsOfKind])
  | .throw e, _, t, _ => (Expr.recordLive_finds e t.protect).map.reading
      (by simp [ownReads_node, closedVars, kind, StmtKind.exprChildren, substmtsOfKind])
  | .ret (some e), _, t, _ => (Expr.recordLive_finds e t.ret).map.reading
      (by simp [ownReads_node, closedVars, kind, StmtKind.exprChildren, substmtsOfKind])
  | .assert c message, _, t, o => by
    rw [recordKind, kindIn, kindKills, kindEntries]
    have hmessage := Expr.recordList_finds (W := W) message.toList (p := t.protect) t.protect
    refine (hmessage.bind (Expr.recordLive_finds c _).map).reading ?_
    simp [ownReads_node, closedVars, kind, StmtKind.exprChildren, substmtsOfKind,
      Expr.readsOf_listRoles, or_comm]
  | .block body, h, t, o => block_found (recordList_finds body h) h t o
  | .branch c a none, h, t, o => by
    rw [recordKind, kindIn, kindKills, kindEntries]
    refine ((recordLive_finds a h t o).bind (Expr.recordLive_finds c _).map).arrange rfl ?_ ?_
    · simp [substmtsOfKind]
    · simp [ownReads_node, closedVars, kind, StmtKind.exprChildren, substmtsOfKind, or_comm]
  | .branch c a (some b), h, t, o => by
    rw [substmtsOfKind, List.append_subset] at h
    rw [recordKind, kindIn, kindKills, kindEntries]
    have ha := recordLive_finds a h.1 t o
    refine (ha.bind ((recordLive_finds b h.2 t o).bind (Expr.recordLive_finds c _).map)).arrange
      (List.append_assoc ..).symm ?_ ?_
    · simp [substmtsOfKind]
    · simp [ownReads_node, closedVars, kind, StmtKind.exprChildren, substmtsOfKind, or_comm,
        or_left_comm]
  | .whileLoop c body, h, t, o => whileLoop_found (recordLive_finds body h) t o
  | .doLoop body c, h, t, o => doLoop_found (recordLive_finds body h) t o
  | .forEach v iterable body, h, t, o => forEach_found (recordLive_finds body h) t o
  | .forLoop init cond update body, h, t, o => by
    rw [substmtsOfKind, List.append_subset] at h
    have hinit := block_found (recordList_finds init h.1) h.1
    exact forLoop_found hinit (recordLive_finds body h.2) t o
  | .switch selector cases, h, t, o => by
    rw [substmtsOfKind] at h
    have hwalk : Finds W (do
        let (_, entry) ← recordCases all rounds (t.breakable o t.cont) o cases
        recordLabels t.protect (switchEntry o cases entry) cases) _ _
        (substmtsOfCases cases ++ []) _ :=
      (recordCases_finds cases h _ o).bind (recordLabels_finds t.protect _ cases)
    rw [List.append_nil] at hwalk
    have hgroups := hwalk.groups h (subset_substmtsOfCases cases)
    rw [recordKind, kindIn, kindKills, kindEntries]
    refine (hgroups.bind (Expr.recordLive_finds selector _).map).arrange rfl ?_ ?_
    · simp [substmtsOfKind]
    · simp [ownReads_node, closedVars, kind, StmtKind.exprChildren, substmtsOfKind, labels, or_comm,
        or_left_comm]
  | .guarded resources body catches none, h, t, o => by
    rw [substmtsOfKind, List.append_subset, List.append_subset] at h
    have hresources := block_found (recordList_finds resources h.1.1) h.1.1
    have hbody := block_found (recordList_finds body h.1.2) h.1.2
    exact guarded_found hresources hbody (recordCatches_finds catches h.2) t o
  | .guarded resources body catches (some finalizer), h, t, o => by
    rw [substmtsOfKind, List.append_subset, List.append_subset, List.append_subset] at h
    have hresources := block_found (recordList_finds resources h.1.1.1) h.1.1.1
    have hbody := block_found (recordList_finds body h.1.1.2) h.1.1.2
    have hfinalizer := block_found (recordList_finds finalizer h.2) h.2
    exact guarded_some_found hresources hbody (recordCatches_finds catches h.1.2) hfinalizer t o
  | .ret none, _, _, _ => .pure
  | .breakOut, _, _, _ | .continueLoop, _, _, _ | .empty, _, _, _
  | .err, _, _, _ => .pure

/-- Statements are walked from the last to the first. -/
theorem recordList_finds : ∀ ss : List Stmt, substmtsOfList ss ⊆ W → ListFound W all rounds ss
  | [], _, _, _ => .pure
  | s :: ss, h, t, o => by
    rw [substmtsOfList, List.append_subset] at h
    rw [recordList, listIn, listEntries, substmtsOfList]
    refine ((recordList_finds ss h.2 t o).bind (recordLive_finds s h.1 t _).map).arrange rfl ?_ ?_
    · simp [or_comm]
    · simp [or_comm]

/-- The cases are walked from the last to the first, each falling into the next. -/
theorem recordCases_finds : ∀ cs : List (SwitchCase Expr Stmt), substmtsOfCases cs ⊆ W → ∀ t o,
    Finds W (recordCases all rounds t o cs) (casesIn all rounds t o cs)
      (caseEntries all rounds t o cs) (substmtsOfCases cs)
      ((substmtsOfCases cs).flatMap ownReads)
  | [], _, _, _ => .pure
  | ⟨_, _, body⟩ :: cs, h, t, o => by
    rw [substmtsOfCases, List.append_subset] at h
    rw [recordCases, casesIn, caseEntries, substmtsOfCases]
    refine ((recordCases_finds cs h.2 t o).bind (recordList_finds body h.1 t _).map).arrange rfl
      ?_ ?_
    · simp [or_comm]
    · simp [or_comm]

/-- The handlers are walked one after another, each from the same set. -/
theorem recordCatches_finds : ∀ cs : List (CatchClause Stmt), substmtsOfCatches cs ⊆ W →
    CatchesFound W all rounds cs
  | [], _, _, _ => .pure
  | ⟨_, _, body⟩ :: cs, h, t, o => by
    rw [substmtsOfCatches, List.append_subset] at h
    rw [recordCatches, catchesIn, catchKills, catchEntries, substmtsOfCatches, List.flatMap_append]
    have hbody := block_found (recordList_finds body h.1) h.1
    exact (hbody t o).bind (recordCatches_finds cs h.2 t o).map

end

end Stmt

/-! ## Bodies -/

namespace LivenessInfo

variable {b : Body}

/-- Putting the kills of statements keeps the number of slots. -/
theorem size_foldl_kills (ss : List Stmt) (kills : Array IdSet) :
    (ss.foldl (fun kills s => kills.setIfInBounds s.id s.kills) kills).size = kills.size := by
  induction ss generalizing kills with
  | nil => rfl
  | cons s ss ih => rw [List.foldl_cons, ih, Array.size_setIfInBounds]

/-- In a body without any records, the recorded overwrites are those gathered from the tree. -/
theorem kills_eq_of_records {info : LivenessInfo} {es : List LiveEntry} {ss : List Stmt}
    {rs : List VarId} (hss : (ss.map Stmt.id).Nodup)
    (h : (unrecorded b).Records info es ss rs) :
    info.kills = ss.foldl (fun kills s => kills.setIfInBounds s.id s.kills)
      (Array.replicate b.stmts.size ∅) := by
  have hsize : info.kills.size = b.stmts.size := by
    rw [h.size]
    simp [unrecorded]
  refine Array.ext (by rw [hsize, size_foldl_kills, Array.size_replicate]) fun i hi hi' => ?_
  have hget : ∀ {kills : Array IdSet} (hk : i < kills.size), kills[i] = kills.getD i ∅ := by
    intro kills hk
    simp [Array.getD_eq_getD_getElem?, hk]
  rw [hget hi, hget hi']
  have hlt : i < (unrecorded b).kills.size := by rwa [← h.size]
  obtain ⟨s, hs, rfl, hkills⟩ | ⟨hno, hkept⟩ := h.kills i hlt
  · rw [getD_foldl_kills hss hs (by simpa [unrecorded] using hlt)]
    exact hkills
  · rw [getD_foldl_kills_of_not_mem hno]
    exact hkept

/-- The liveness recorded along a walk over an accepted body is the one gathered from its tree. -/
theorem accumulateWith_eq (hb : b.Accepted) (rounds : Nat) (t : Targets) :
    accumulateWith b rounds t = computeWith b rounds t := by
  have hplaces : (unrecorded b).Places (Stmt.substmtsOfList b.root) := by
    rw [Stmt.substmtsOfList_eq]
    refine ⟨fun s hs => by simpa [unrecorded] using hb.stmt_lt hs, fun s hs s' hs' hid => ?_⟩
    rw [← hb.spans.stmtTree hs, ← hb.spans.stmtTree hs', hid]
  have hwalk : Finds _ (Stmt.recordList b.allVars rounds t ∅ b.root) _ _ _ _ :=
    Stmt.recordList_finds b.root (List.Subset.refl _) t ∅
  obtain ⟨info, hrun, hrec⟩ := hwalk.block (List.Subset.refl _)
    (Stmt.subset_substmtsOfList b.root) (unrecorded b) hplaces
  rw [Stmt.substmtsOfList_eq] at hrec
  have hever : info.everLive = .ofList ((b.root.flatMap Stmt.substmts).flatMap Stmt.ownReads) := by
    ext v
    rw [hrec.everLive, mem_ofList]
    simp [unrecorded]
  have hinfo : info = { (Stmt.listEntries b.allVars rounds t ∅ b.root).foldl put (unrecorded b) with
      kills := info.kills, everLive := info.everLive } := by
    rw [← hrec.entries]
  rw [accumulateWith, hrun, hinfo, hever, kills_eq_of_records hb.nodup_stmtIds hrec, computeWith,
    ← foldl_put_with]
  exact (foldl_put_with_entry ..).symm

end LivenessInfo

end Midend
