import Midend.Liveness.Info
import Midend.Proofs.Body.Shape

/-!
# Recorded live sets

A walk ends with one entry for every statement of the tree
(`Stmt.listEntries_stmtIds`). If no two statements have the same identifier, as
in an accepted body, the sets found under an identifier are those of its entry
(`LivenessInfo.liveIn_foldl_put`, `LivenessInfo.compute_of_entry`). Which nodes a walk
records, and in which order, does not depend on what is live where it starts
(`Stmt.liveEntries_nodes`).
-/

namespace Midend

/-- The statement that an entry is about. -/
def LiveEntry.stmtId? : LiveEntry → Option StmtId
  | expr .. => none
  | stmt id .. => some id

namespace Expr

variable {p : IdSet}

/-- The entry of a target is none of a statement. -/
theorem targetEntries_stmtIds (e : Expr) (live : IdSet) :
    (e.targetEntries live).filterMap LiveEntry.stmtId? = [] := by
  simp [targetEntries, List.filterMap_map, LiveEntry.stmtId?]

mutual

/-- No entry of an expression is one of a statement. -/
theorem liveEntries_stmtIds :
    ∀ (e : Expr) (o : IdSet), (e.liveEntries p o).filterMap LiveEntry.stmtId? = []
  | node _ kind, o => by
    have hk := operandEntries_stmtIds kind o
    cases kind with
    | assign l op r =>
      rw [liveEntries]
      cases l.localTarget? <;>
        simp [liveEntries_stmtIds r, placeEntries_stmtIds l, targetEntries_stmtIds,
          LiveEntry.stmtId?]
    | unary op e =>
      cases op with
      | step s =>
        rw [liveEntries]
        cases e.localTarget? <;>
          simp [placeEntries_stmtIds e, targetEntries_stmtIds, LiveEntry.stmtId?]
      | _ => simp [liveEntries, hk, LiveEntry.stmtId?]
    | binary l op r =>
      cases op with
      | logic op =>
        simp [liveEntries, liveEntries_stmtIds l, liveEntries_stmtIds r, LiveEntry.stmtId?]
      | _ => simp [liveEntries, hk, LiveEntry.stmtId?]
    | conditional c t f =>
      simp [liveEntries, liveEntries_stmtIds c, liveEntries_stmtIds t, liveEntries_stmtIds f,
        LiveEntry.stmtId?]
    | _ => simp [liveEntries, hk, LiveEntry.stmtId?]

theorem placeEntries_stmtIds :
    ∀ (e : Expr) (o : IdSet), (e.placeEntries p o).filterMap LiveEntry.stmtId? = []
  | node _ kind, o => by
    have hk := operandEntries_stmtIds kind o
    cases kind with
    | paren inner => simp [placeEntries, placeEntries_stmtIds inner, LiveEntry.stmtId?]
    | _ => simp [placeEntries, hk, LiveEntry.stmtId?]

theorem operandEntries_stmtIds :
    ∀ (k : ExprKind Expr) (o : IdSet), (operandEntries p o k).filterMap LiveEntry.stmtId? = []
  | .lit _, _ | .var _, _ | .err, _ | .field none .., _ => rfl
  | .field (some e) .., o | .unary _ e, o | .paren e, o | .cast _ e, o | .instanceOf e _, o =>
    liveEntries_stmtIds e o
  | .assign l _ r, o | .binary l _ r, o | .index l r, o => by
    simp [operandEntries, liveEntries_stmtIds l, liveEntries_stmtIds r]
  | .conditional c t f, o => by
    simp [operandEntries, liveEntries_stmtIds c, liveEntries_stmtIds t, liveEntries_stmtIds f]
  | .call none _ args, o | .create _ args, o => listEntries_stmtIds args o
  | .call (some e) _ args, o => by
    simp [operandEntries, liveEntries_stmtIds e, listEntries_stmtIds args]

theorem listEntries_stmtIds :
    ∀ (es : List Expr) (o : IdSet), (listEntries p o es).filterMap LiveEntry.stmtId? = []
  | [], _ => rfl
  | e :: es, o => by simp [listEntries, liveEntries_stmtIds e, listEntries_stmtIds es]

end

end Expr

namespace Stmt

variable {all : IdSet} {rounds : Nat}

mutual

/-- A walk over a statement records each statement in it once. -/
theorem liveEntries_stmtIds :
    ∀ (s : Stmt) (t : Targets) (o : IdSet),
      ((s.liveEntries all rounds t o).filterMap LiveEntry.stmtId?).Perm (s.substmts.map Stmt.id)
  | node id kind, t, o => by
    rw [liveEntries, substmts, List.filterMap_append, List.map_cons]
    exact ((kindEntries_stmtIds kind t o).append_right [id]).trans List.perm_append_comm

/-- Each nested statement has one entry, in some order. -/
theorem kindEntries_stmtIds :
    ∀ (k : StmtKind Expr Stmt) (t : Targets) (o : IdSet),
      ((kindEntries all rounds t o k).filterMap LiveEntry.stmtId?).Perm
        ((substmtsOfKind k).map Stmt.id)
  | .block body, t, o => listEntries_stmtIds body t o
  | .branch c a none, t, o => by
    simpa [kindEntries, substmtsOfKind, Expr.liveEntries_stmtIds] using liveEntries_stmtIds a t o
  | .branch c a (some b), t, o => by
    simpa [kindEntries, substmtsOfKind, Expr.liveEntries_stmtIds] using
      (liveEntries_stmtIds a t o).append (liveEntries_stmtIds b t o)
  | .whileLoop c body, t, o | .doLoop body c, t, o | .forEach _ c body, t, o => by
    simpa [kindEntries, substmtsOfKind, Expr.liveEntries_stmtIds] using liveEntries_stmtIds body _ _
  | .forLoop init c update body, t, o => by
    simpa [kindEntries, substmtsOfKind, Expr.listEntries_stmtIds] using
      ((liveEntries_stmtIds body _ _).append (listEntries_stmtIds init t _)).trans
        List.perm_append_comm
  | .switch selector cases, t, o => by
    simpa [kindEntries, substmtsOfKind, Expr.liveEntries_stmtIds, Expr.listEntries_stmtIds] using
      caseEntries_stmtIds cases _ _
  | .guarded resources body catches none, t, o => by
    simp only [kindEntries, substmtsOfKind, List.filterMap_append, List.map_append]
    refine (((catchEntries_stmtIds catches t o).append (listEntries_stmtIds body _ _)).append
      (listEntries_stmtIds resources _ _)).trans (List.perm_append_comm.trans ?_)
    rw [List.append_assoc]
    exact List.perm_append_comm.append_left _
  | .guarded resources body catches (some finalizer), t, o => by
    simp only [kindEntries, substmtsOfKind, List.filterMap_append, List.map_append]
    refine ((((listEntries_stmtIds finalizer t _).append (catchEntries_stmtIds catches _ _)).append
      (listEntries_stmtIds body _ _)).append (listEntries_stmtIds resources _ _)).trans
        (List.perm_append_comm.trans ?_)
    simp only [List.append_assoc]
    refine List.Perm.append_left _ (List.perm_append_comm.trans ?_)
    rw [List.append_assoc]
    exact List.perm_append_comm_assoc ..
  | .decl _ init, t, o => by simp [kindEntries, substmtsOfKind, Expr.listEntries_stmtIds]
  | .ret e, t, o => by simp [kindEntries, substmtsOfKind, Expr.listEntries_stmtIds]
  | .expr e, t, o | .throw e, t, o => by
    simp [kindEntries, substmtsOfKind, Expr.liveEntries_stmtIds]
  | .assert c message, t, o => by
    simp [kindEntries, substmtsOfKind, Expr.liveEntries_stmtIds, Expr.listEntries_stmtIds]
  | .breakOut, _, _ | .continueLoop, _, _ | .empty, _, _ | .err, _, _ => .nil

theorem listEntries_stmtIds :
    ∀ (ss : List Stmt) (t : Targets) (o : IdSet),
      ((listEntries all rounds t o ss).filterMap LiveEntry.stmtId?).Perm
        ((substmtsOfList ss).map Stmt.id)
  | [], _, _ => .nil
  | s :: ss, t, o => by
    rw [listEntries, substmtsOfList, List.filterMap_append, List.map_append]
    exact ((listEntries_stmtIds ss t o).append (liveEntries_stmtIds s t _)).trans
      List.perm_append_comm

theorem caseEntries_stmtIds :
    ∀ (cs : List (SwitchCase Expr Stmt)) (t : Targets) (o : IdSet),
      ((caseEntries all rounds t o cs).filterMap LiveEntry.stmtId?).Perm
        ((substmtsOfCases cs).map Stmt.id)
  | [], _, _ => .nil
  | ⟨_, _, body⟩ :: cs, t, o => by
    rw [caseEntries, substmtsOfCases, List.filterMap_append, List.map_append]
    exact ((caseEntries_stmtIds cs t o).append (listEntries_stmtIds body t _)).trans
      List.perm_append_comm

theorem catchEntries_stmtIds :
    ∀ (cs : List (CatchClause Stmt)) (t : Targets) (o : IdSet),
      ((catchEntries all rounds t o cs).filterMap LiveEntry.stmtId?).Perm
        ((substmtsOfCatches cs).map Stmt.id)
  | [], _, _ => .nil
  | ⟨_, _, body⟩ :: cs, t, o => by
    rw [catchEntries, substmtsOfCatches, List.filterMap_append, List.map_append]
    exact (listEntries_stmtIds body t o).append (catchEntries_stmtIds cs t o)

end

/-- The resources that a `try` statement closes. -/
def closedVars (s : Stmt) : List VarId :=
  match s.kind with
  | .guarded resources .. => resources.filterMap declaredVar?
  | _ => []

/-- What a statement reads itself is read by its expressions or closed at its end. -/
theorem ownReads_eq (s : Stmt) :
    s.ownReads = s.kind.exprChildren.flatMap Expr.reads ++ s.closedVars := rfl

end Stmt

/-! ## Lookup -/

namespace LivenessInfo

/-- An entry does not change the number of slots. -/
theorem size_put (info : LivenessInfo) (entry : LiveEntry) :
    (info.put entry).stmtIn.size = info.stmtIn.size := by
  cases entry <;> simp [put]

theorem size_stmtOut_put (info : LivenessInfo) (entry : LiveEntry) :
    (info.put entry).stmtOut.size = info.stmtOut.size := by
  cases entry <;> simp [put]

/-- The entry of a statement is what is looked up for it. -/
theorem liveIn_put_stmt {info : LivenessInfo} {id : StmtId} {live out : IdSet}
    (hid : id < info.stmtIn.size) : (info.put (.stmt id live out)).liveIn id = live := by
  simp [put, liveIn, Array.getD_eq_getD_getElem?, hid]

theorem liveOut_put_stmt {info : LivenessInfo} {id : StmtId} {live out : IdSet}
    (hid : id < info.stmtOut.size) : (info.put (.stmt id live out)).liveOut id = out := by
  simp [put, liveOut, Array.getD_eq_getD_getElem?, hid]

/-- Entries of other nodes are not looked up. -/
theorem liveIn_put_of_ne {info : LivenessInfo} {entry : LiveEntry} {id : StmtId}
    (h : entry.stmtId? ≠ some id) : (info.put entry).liveIn id = info.liveIn id := by
  cases entry with
  | expr id' live => rfl
  | stmt id' live out =>
    have hne : id' ≠ id := fun heq => h (congrArg some heq)
    simp [put, liveIn, Array.getD_eq_getD_getElem?, Array.getElem?_setIfInBounds_ne hne]

theorem liveOut_put_of_ne {info : LivenessInfo} {entry : LiveEntry} {id : StmtId}
    (h : entry.stmtId? ≠ some id) : (info.put entry).liveOut id = info.liveOut id := by
  cases entry with
  | expr id' live => rfl
  | stmt id' live out =>
    have hne : id' ≠ id := fun heq => h (congrArg some heq)
    simp [put, liveOut, Array.getD_eq_getD_getElem?, Array.getElem?_setIfInBounds_ne hne]

section Lookup

variable (get : LivenessInfo → IdSet) {id : StmtId}

/-- Without an entry the slot keeps what it holds. -/
theorem get_foldl_put_of_not_mem
    (hkeep : ∀ {info entry}, entry.stmtId? ≠ some id → get (info.put entry) = get info) :
    ∀ {entries : List LiveEntry} {info : LivenessInfo},
      id ∉ entries.filterMap LiveEntry.stmtId? → get (entries.foldl put info) = get info
  | [], _, _ => rfl
  | entry :: entries, info, h => by
    have hne : entry.stmtId? ≠ some id := fun heq => h (List.mem_filterMap.2 ⟨entry, by simp, heq⟩)
    have hrest : id ∉ entries.filterMap LiveEntry.stmtId? := by
      intro hm
      obtain ⟨e, he, heq⟩ := List.mem_filterMap.1 hm
      exact h (List.mem_filterMap.2 ⟨e, by simp [he], heq⟩)
    rw [List.foldl_cons, get_foldl_put_of_not_mem hkeep hrest, hkeep hne]

/-- Where entries are about different statements and `get` finds what was put for one of them, what
it finds in the end is what the entry of that one holds. -/
theorem get_foldl_put (size : LivenessInfo → Nat) {live out set : IdSet}
    (hkeep : ∀ {info entry}, entry.stmtId? ≠ some id → get (info.put entry) = get info)
    (hput : ∀ {info}, id < size info → get (info.put (.stmt id live out)) = set)
    (hsize : ∀ info entry, size (info.put entry) = size info) :
    ∀ {entries : List LiveEntry} {info : LivenessInfo},
      (entries.filterMap LiveEntry.stmtId?).Nodup → .stmt id live out ∈ entries →
      id < size info → get (entries.foldl put info) = set
  | [], _, _, h, _ => by simp at h
  | entry :: entries, info, hn, h, hid => by
    rw [List.foldl_cons]
    rcases List.mem_cons.1 h with rfl | h
    · rw [List.filterMap_cons, LiveEntry.stmtId?, List.nodup_cons] at hn
      rw [get_foldl_put_of_not_mem get hkeep hn.1, hput hid]
    · refine get_foldl_put size hkeep hput hsize ?_ h (by rw [hsize]; exact hid)
      exact (List.sublist_cons_self entry entries).filterMap _ |>.nodup hn

end Lookup

/-- Where entries are about different statements, what is found for one is what its entry holds. -/
theorem liveIn_foldl_put {id : StmtId} {live out : IdSet} {entries : List LiveEntry}
    {info : LivenessInfo} (hn : (entries.filterMap LiveEntry.stmtId?).Nodup)
    (h : .stmt id live out ∈ entries) (hid : id < info.stmtIn.size) :
    (entries.foldl put info).liveIn id = live :=
  get_foldl_put (·.liveIn id) (·.stmtIn.size) liveIn_put_of_ne liveIn_put_stmt size_put hn h hid

/-- The only entry of a statement is the one that is looked up. -/
theorem liveOut_foldl_put {id : StmtId} {live out : IdSet} {entries : List LiveEntry}
    {info : LivenessInfo} (hn : (entries.filterMap LiveEntry.stmtId?).Nodup)
    (h : .stmt id live out ∈ entries) (hid : id < info.stmtOut.size) :
    (entries.foldl put info).liveOut id = out :=
  get_foldl_put (·.liveOut id) (·.stmtOut.size) liveOut_put_of_ne liveOut_put_stmt
    size_stmtOut_put hn h hid

/-- What holds of all sets put for a statement holds of what is found. -/
theorem liveIn_foldl_put_of_forall {P : IdSet → Prop} {id : StmtId} :
    ∀ {entries : List LiveEntry} {info : LivenessInfo},
      (∀ live out, .stmt id live out ∈ entries → P live) →
      id ∈ entries.filterMap LiveEntry.stmtId? → id < info.stmtIn.size →
      P ((entries.foldl put info).liveIn id)
  | [], _, _, h, _ => nomatch h
  | entry :: entries, info, hall, hmem, hid => by
    rw [List.foldl_cons]
    by_cases hrest : id ∈ entries.filterMap LiveEntry.stmtId?
    · exact liveIn_foldl_put_of_forall (fun live out h => hall live out (.tail _ h)) hrest
        (by rwa [size_put])
    · rw [get_foldl_put_of_not_mem (·.liveIn id) liveIn_put_of_ne hrest]
      cases entry with
      | expr => exact absurd hmem hrest
      | stmt id' live out =>
        rw [List.filterMap_cons, LiveEntry.stmtId?] at hmem
        obtain rfl : id = id' := (List.mem_cons.1 hmem).resolve_right hrest
        rw [liveIn_put_stmt hid]
        exact hall live out List.mem_cons_self

/-- Entries do not change the kills. -/
theorem kills_foldl_put (entries : List LiveEntry) (info : LivenessInfo) :
    (entries.foldl put info).kills = info.kills := by
  induction entries generalizing info with
  | nil => rfl
  | cons entry entries ih =>
    rw [List.foldl_cons, ih]
    cases entry <;> rfl

theorem entry_foldl_put (entries : List LiveEntry) (info : LivenessInfo) :
    (entries.foldl put info).entry = info.entry := by
  induction entries generalizing info with
  | nil => rfl
  | cons entry entries ih =>
    rw [List.foldl_cons, ih]
    cases entry <;> rfl

theorem everLive_foldl_put (entries : List LiveEntry) (info : LivenessInfo) :
    (entries.foldl put info).everLive = info.everLive := by
  induction entries generalizing info with
  | nil => rfl
  | cons entry entries ih =>
    rw [List.foldl_cons, ih]
    cases entry <;> rfl

/-- In an accepted body, what is found for a statement is what its entry holds. -/
theorem computeWith_of_entry {b : Body} (hb : b.Accepted) {rounds : Nat} {t : Targets} {s : Stmt}
    (hs : s ∈ b.root.flatMap Stmt.substmts) {live out : IdSet}
    (h : .stmt s.id live out ∈ Stmt.listEntries b.allVars rounds t ∅ b.root) :
    (computeWith b rounds t).liveIn s.id = live ∧
      (computeWith b rounds t).liveOut s.id = out := by
  have hnodup :
      ((Stmt.listEntries b.allVars rounds t ∅ b.root).filterMap LiveEntry.stmtId?).Nodup := by
    rw [(Stmt.listEntries_stmtIds b.root t ∅).nodup_iff, Stmt.substmtsOfList_eq]
    exact hb.nodup_stmtIds
  have hid := hb.stmt_lt hs
  refine ⟨liveIn_foldl_put hnodup h ?_, liveOut_foldl_put hnodup h ?_⟩
  · simpa using hid
  · simpa using hid

/-- The analysis holds what its walk recorded for a statement. -/
theorem compute_of_entry {b : Body} (hb : b.Accepted) {s : Stmt}
    (hs : s ∈ b.root.flatMap Stmt.substmts) {live out : IdSet}
    (h : .stmt s.id live out ∈ Stmt.listEntries b.allVars 1 {} ∅ b.root) :
    (compute b).liveIn s.id = live ∧ (compute b).liveOut s.id = out :=
  computeWith_of_entry hb hs h

/-- Every recorded entry of a statement is the one that is looked up. -/
theorem compute_of_mem {b : Body} (hb : b.Accepted) {id : StmtId} {live out : IdSet}
    (h : .stmt id live out ∈ Stmt.listEntries b.allVars 1 {} ∅ b.root) :
    (compute b).liveIn id = live ∧ (compute b).liveOut id = out := by
  have hid : id ∈ (Stmt.listEntries b.allVars 1 {} ∅ b.root).filterMap LiveEntry.stmtId? :=
    List.mem_filterMap.2 ⟨_, h, rfl⟩
  rw [(Stmt.listEntries_stmtIds b.root {} ∅).mem_iff, Stmt.substmtsOfList_eq] at hid
  obtain ⟨s, hs, rfl⟩ := List.mem_map.1 hid
  exact compute_of_entry hb hs h

end LivenessInfo

/-! ## Nodes that a walk comes to

Every walk records the same nodes, whatever is live where it starts. -/

/-- The node that an entry is about. -/
def LiveEntry.node : LiveEntry → NodeId
  | expr id _ => .expr id
  | stmt id .. => .stmt id

theorem LiveEntry.map_node_expr (id : ExprId) (live live' : IdSet) :
    [expr id live].map node = [expr id live'].map node := rfl

theorem LiveEntry.map_node_stmt (id : StmtId) (live live' out out' : IdSet) :
    [stmt id live out].map node = [stmt id live' out'].map node := rfl

namespace Expr

variable {p p' : IdSet}

theorem targetEntries_nodes (e : Expr) (live live' : IdSet) :
    (e.targetEntries live).map LiveEntry.node = (e.targetEntries live').map LiveEntry.node := by
  simp [targetEntries, LiveEntry.node]

mutual

/-- Which nodes are recorded does not depend on what is live. -/
theorem liveEntries_nodes : ∀ (e : Expr) (o o' : IdSet),
    (e.liveEntries p o).map LiveEntry.node = (e.liveEntries p' o').map LiveEntry.node
  | node _ kind, o, o' => by
    have hk := operandEntries_nodes kind o o'
    cases kind with
    | assign l op r =>
      rw [liveEntries, liveEntries]
      cases l.localTarget? with
      | none =>
        simp only [List.map_append]
        exact congrArg₂ _ (congrArg₂ _ (liveEntries_nodes r _ _) (placeEntries_nodes l _ _))
          (LiveEntry.map_node_expr ..)
      | some v =>
        simp only [List.map_append]
        exact congrArg₂ _ (congrArg₂ _ (liveEntries_nodes r _ _) (targetEntries_nodes l _ _))
          (LiveEntry.map_node_expr ..)
    | unary op e =>
      cases op with
      | step s =>
        rw [liveEntries, liveEntries]
        cases e.localTarget? with
        | none =>
          rw [List.map_append, List.map_append]
          exact congrArg₂ _ (placeEntries_nodes e _ _) (LiveEntry.map_node_expr ..)
        | some v =>
          rw [List.map_append, List.map_append]
          exact congrArg₂ _ (targetEntries_nodes e _ _) (LiveEntry.map_node_expr ..)
      | _ =>
        simp only [liveEntries, List.map_append]
        exact congrArg₂ _ hk (LiveEntry.map_node_expr ..)
    | binary l op r =>
      cases op with
      | logic op =>
        simp only [liveEntries, List.map_append]
        exact congrArg₂ _ (congrArg₂ _ (liveEntries_nodes r _ _) (liveEntries_nodes l _ _))
          (LiveEntry.map_node_expr ..)
      | _ =>
        simp only [liveEntries, List.map_append]
        exact congrArg₂ _ hk (LiveEntry.map_node_expr ..)
    | conditional c t f =>
      simp only [liveEntries, List.map_append]
      refine congrArg₂ _ (congrArg₂ _ (congrArg₂ _ ?_ ?_) (liveEntries_nodes c _ _))
        (LiveEntry.map_node_expr ..)
      · exact liveEntries_nodes t _ _
      · exact liveEntries_nodes f _ _
    | _ =>
      simp only [liveEntries, List.map_append]
      exact congrArg₂ _ hk (LiveEntry.map_node_expr ..)

theorem placeEntries_nodes : ∀ (e : Expr) (o o' : IdSet),
    (e.placeEntries p o).map LiveEntry.node = (e.placeEntries p' o').map LiveEntry.node
  | node _ kind, o, o' => by
    have hk := operandEntries_nodes kind o o'
    cases kind with
    | paren inner =>
      rw [placeEntries, placeEntries, List.map_append, List.map_append]
      exact congrArg₂ _ (placeEntries_nodes inner _ _) (LiveEntry.map_node_expr ..)
    | _ =>
      simp only [placeEntries, List.map_append]
      exact congrArg₂ _ hk (LiveEntry.map_node_expr ..)

theorem operandEntries_nodes : ∀ (k : ExprKind Expr) (o o' : IdSet),
    (operandEntries p o k).map LiveEntry.node = (operandEntries p' o' k).map LiveEntry.node
  | .lit _, _, _ | .var _, _, _ | .err, _, _ | .field none .., _, _ => rfl
  | .field (some e) .., o, o' | .unary _ e, o, o' | .paren e, o, o' | .cast _ e, o, o'
  | .instanceOf e _, o, o' => liveEntries_nodes e o o'
  | .assign l _ r, o, o' | .binary l _ r, o, o' | .index l r, o, o' => by
    simp only [operandEntries, List.map_append]
    exact congrArg₂ _ (liveEntries_nodes r _ _) (liveEntries_nodes l _ _)
  | .conditional c t f, o, o' => by
    simp only [operandEntries, List.map_append]
    refine congrArg₂ _ (congrArg₂ _ ?_ ?_) (liveEntries_nodes c _ _)
    · exact liveEntries_nodes f _ _
    · exact liveEntries_nodes t _ _
  | .call none _ args, o, o' | .create _ args, o, o' => listEntries_nodes args o o'
  | .call (some e) _ args, o, o' => by
    simp only [operandEntries, List.map_append]
    exact congrArg₂ _ (listEntries_nodes args _ _) (liveEntries_nodes e _ _)

theorem listEntries_nodes : ∀ (es : List Expr) (o o' : IdSet),
    (listEntries p o es).map LiveEntry.node = (listEntries p' o' es).map LiveEntry.node
  | [], _, _ => rfl
  | e :: es, o, o' => by
    rw [listEntries, listEntries, List.map_append, List.map_append]
    exact congrArg₂ _ (listEntries_nodes es o o') (liveEntries_nodes e _ _)

end

end Expr

namespace Stmt

variable {all : IdSet} {rounds : Nat}

mutual

theorem liveEntries_nodes : ∀ (s : Stmt) (t t' : Targets) (o o' : IdSet),
    (s.liveEntries all rounds t o).map LiveEntry.node =
      (s.liveEntries all rounds t' o').map LiveEntry.node
  | node _ kind, t, t', o, o' => by
    rw [liveEntries, liveEntries, List.map_append, List.map_append]
    exact congrArg₂ _ (kindEntries_nodes kind t t' o o') (LiveEntry.map_node_stmt ..)

theorem kindEntries_nodes : ∀ (k : StmtKind Expr Stmt) (t t' : Targets) (o o' : IdSet),
    (kindEntries all rounds t o k).map LiveEntry.node =
      (kindEntries all rounds t' o' k).map LiveEntry.node
  | .decl _ init, _, _, _, _ => Expr.listEntries_nodes init.toList _ _
  | .ret e, _, _, _, _ => Expr.listEntries_nodes e.toList _ _
  | .expr e, _, _, _, _ | .throw e, _, _, _, _ => Expr.liveEntries_nodes e _ _
  | .block body, t, t', o, o' => listEntries_nodes body t t' o o'
  | .branch c a none, t, t', o, o' => by
    rw [kindEntries, kindEntries, List.map_append, List.map_append]
    exact congrArg₂ _ (liveEntries_nodes a t t' o o') (Expr.liveEntries_nodes c _ _)
  | .branch c a (some b), t, t', o, o' => by
    rw [kindEntries, kindEntries, List.map_append, List.map_append, List.map_append,
      List.map_append]
    refine congrArg₂ _ (congrArg₂ _ ?_ ?_) (Expr.liveEntries_nodes c _ _)
    · exact liveEntries_nodes a t t' o o'
    · exact liveEntries_nodes b t t' o o'
  | .whileLoop c body, _, _, _, _ | .doLoop body c, _, _, _, _ | .forEach _ c body, _, _, _, _ => by
    simp only [kindEntries, List.map_append]
    exact congrArg₂ _ (liveEntries_nodes body _ _ _ _) (Expr.liveEntries_nodes c _ _)
  | .forLoop init cond update body, t, t', _, _ => by
    simp only [kindEntries, List.map_append]
    refine congrArg₂ _ (congrArg₂ _ (congrArg₂ _ ?_ ?_) ?_) (listEntries_nodes init t t' _ _)
    · exact Expr.listEntries_nodes update _ _
    · exact liveEntries_nodes body _ _ _ _
    · exact Expr.listEntries_nodes cond.toList _ _
  | .switch selector cases, _, _, _, _ => by
    simp only [kindEntries, List.map_append]
    refine congrArg₂ _ (congrArg₂ _ ?_ ?_) (Expr.liveEntries_nodes selector _ _)
    · exact caseEntries_nodes cases _ _ _ _
    · exact Expr.listEntries_nodes (labels cases) _ _
  | .guarded resources body catches none, t, t', o, o' => by
    simp only [kindEntries, List.map_append]
    refine congrArg₂ _ (congrArg₂ _ ?_ ?_) (listEntries_nodes resources _ _ _ _)
    · exact catchEntries_nodes catches t t' o o'
    · exact listEntries_nodes body _ _ _ _
  | .guarded resources body catches (some finalizer), t, t', _, _ => by
    simp only [kindEntries, List.map_append]
    refine congrArg₂ _ (congrArg₂ _ (congrArg₂ _ ?_ ?_) ?_) (listEntries_nodes resources _ _ _ _)
    · exact listEntries_nodes finalizer t t' _ _
    · exact catchEntries_nodes catches _ _ _ _
    · exact listEntries_nodes body _ _ _ _
  | .assert c message, _, _, _, _ => by
    simp only [kindEntries, List.map_append]
    exact congrArg₂ _ (Expr.listEntries_nodes message.toList _ _) (Expr.liveEntries_nodes c _ _)
  | .breakOut, _, _, _, _ | .continueLoop, _, _, _, _ | .empty, _, _, _, _ | .err, _, _, _, _ =>
    rfl

theorem listEntries_nodes : ∀ (ss : List Stmt) (t t' : Targets) (o o' : IdSet),
    (listEntries all rounds t o ss).map LiveEntry.node =
      (listEntries all rounds t' o' ss).map LiveEntry.node
  | [], _, _, _, _ => rfl
  | s :: ss, t, t', o, o' => by
    rw [listEntries, listEntries, List.map_append, List.map_append]
    exact congrArg₂ _ (listEntries_nodes ss t t' o o') (liveEntries_nodes s t t' _ _)

theorem caseEntries_nodes : ∀ (cs : List (SwitchCase Expr Stmt)) (t t' : Targets) (o o' : IdSet),
    (caseEntries all rounds t o cs).map LiveEntry.node =
      (caseEntries all rounds t' o' cs).map LiveEntry.node
  | [], _, _, _, _ => rfl
  | ⟨_, _, body⟩ :: cs, t, t', o, o' => by
    rw [caseEntries, caseEntries, List.map_append, List.map_append]
    exact congrArg₂ _ (caseEntries_nodes cs t t' o o') (listEntries_nodes body t t' _ _)

theorem catchEntries_nodes : ∀ (cs : List (CatchClause Stmt)) (t t' : Targets) (o o' : IdSet),
    (catchEntries all rounds t o cs).map LiveEntry.node =
      (catchEntries all rounds t' o' cs).map LiveEntry.node
  | [], _, _, _, _ => rfl
  | ⟨_, _, body⟩ :: cs, t, t', o, o' => by
    rw [catchEntries, catchEntries, List.map_append, List.map_append]
    exact congrArg₂ _ (listEntries_nodes body t t' o o') (catchEntries_nodes cs t t' o o')

end

end Stmt

end Midend
