import Midend.Proofs.Body.Shape
import Midend.Proofs.Liveness.Recorded
import Midend.Proofs.Liveness.Transfer

/-!
# Soundness of liveness

What a path from the entry of a statement reads first is live there
(`LivenessInfo.mem_liveIn_of_readsFirst`). The set recorded for a statement is
the one of the last walk over it; by then the heads of the loops around it no
longer change, so it covers the paths through any number of iterations
(`Stmt.starts_covered`). An accepted body names each statement once, so the set
that is found by identifier is the one recorded for that statement.
-/

namespace Midend

open Run IdSet

variable {v : VarId} {all : IdSet} {t : Targets} {o : IdSet}

/-! ## Paths from inside a statement -/

/-- Every start is recorded with a live set that covers the paths from it. -/
def Covered (v : VarId) (t : Targets) (o : IdSet) (starts : List (Stmt × Path Exit))
    (entries : List LiveEntry) : Prop :=
  ∀ s p, (s, p) ∈ starts → ∃ live out, .stmt s.id live out ∈ entries ∧
    (v ∈ t.protect → v ∈ live) ∧
    Needs v p (v ∈ t.protect) (fun e => v ∈ t.after o e) (v ∈ live)

namespace Covered

variable {starts starts' : List (Stmt × Path Exit)} {entries entries' : List LiveEntry}

theorem nil : Covered v t o [] entries := by
  intro s p h
  cases h

theorem append (h : Covered v t o starts entries) (h' : Covered v t o starts' entries) :
    Covered v t o (starts ++ starts') entries := by
  intro s p hm
  rcases List.mem_append.1 hm with hm | hm
  · exact h s p hm
  · exact h' s p hm

theorem left (h : Covered v t o starts entries) : Covered v t o starts (entries ++ entries') := by
  intro s p hm
  obtain ⟨live, out, he, hl⟩ := h s p hm
  exact ⟨live, out, List.mem_append.2 (.inl he), hl⟩

theorem right (h : Covered v t o starts entries') :
    Covered v t o starts (entries ++ entries') := by
  intro s p hm
  obtain ⟨live, out, he, hl⟩ := h s p hm
  exact ⟨live, out, List.mem_append.2 (.inr he), hl⟩

/-- Goes on from every start in the same way. Where `v` is needed by the handlers around, there is
nothing to show. -/
theorem thenEach {u : Targets} {o' : IdSet} {f : Path Exit → Path Exit}
    (h : Covered v t o starts entries) (ht : v ∈ u.protect → v ∈ t.protect)
    (hf : v ∉ u.protect → ∀ {p live}, (v ∈ t.protect → live) →
      Needs v p (v ∈ t.protect) (fun e => v ∈ t.after o e) live →
      Needs v (f p) (v ∈ u.protect) (fun e => v ∈ u.after o' e) live) :
    Covered v u o' (Stmt.thenEach f starts) entries := by
  intro s p hm
  obtain ⟨⟨s, p⟩, hs, heq⟩ := List.mem_map.1 hm
  cases heq
  obtain ⟨live, out, he, hl, hn⟩ := h s p hs
  refine ⟨live, out, he, fun hv => hl (ht hv), ?_⟩
  by_cases hv : v ∈ u.protect
  · exact .of_live _ _ _ (hl (ht hv))
  · exact hf hv hl hn

end Covered

namespace Stmt

/-- Leaving by any exit needs what is live at some exit. -/
theorem leaveAny_needs :
    Needs v LeaveAny (v ∈ t.protect) (fun e => v ∈ t.after o e) (v ∈ o ∪ t.anyExit) := by
  rintro s u tr r ⟨way, h⟩
  exact leave_needs mem_of_way h

variable {rounds : Nat}

/-- The starts in a `try` statement without a finalizer. -/
theorem protectedStarts_covered {resources body : List Stmt} {catches : List (CatchClause Stmt)}
    (hb : Covers v (listRun (paths all) body) (listIn all rounds · · body))
    (hc : Covers v (catchesRun (paths all) catches) (catchesIn all rounds · · catches))
    (hrs : ∀ t o, Covered v t o (listStarts (paths all) resources)
      (listEntries all rounds t o resources))
    (hbs : ∀ t o, Covered v t o (listStarts (paths all) body) (listEntries all rounds t o body))
    (hcs : ∀ t o, Covered v t o (catchStarts (paths all) catches)
      (catchEntries all rounds t o catches)) (t : Targets) (o : IdSet) :
    Covered v t o (kindStarts (paths all) (.guarded resources body catches none))
      (kindEntries all rounds t o (.guarded resources body catches none)) := by
  refine .append (.append (.right ?_) (.left (.right ?_))) (.left (.left (hcs t o)))
  · refine (hrs _ _).thenEach (fun h => mem_union.2 (.inl h)) fun _ p live hl hp => ?_
    refine handledBy_needs ?_ (hc t o)
    by_cases hv : v ∈ (t.through (catchesIn all rounds t o catches)).protect
    · exact .of_live _ _ _ (hl hv)
    · exact hp.andThen (closing_needs (fun _ h => absurd h hv) (hb _ _)) fun _ => mem_after_of_ne
  · refine (hbs _ _).thenEach (fun h => mem_union.2 (.inl h)) fun _ p live hl hp => ?_
    refine handledBy_needs (closing_needs (fun _ h => hl ?_) hp) (hc t o)
    exact mem_union_imp (fun h => h) (fun h => mem_union.2 (.inr h)) h

/-- The starts outside the finalizer are those of the statement without it. -/
theorem kindStarts_guarded_some (resources body : List Stmt) (catches : List (CatchClause Stmt))
    (finalizer : List Stmt) :
    kindStarts (paths all) (.guarded resources body catches (some finalizer)) =
      thenEach (·.ensuring (listRun (paths all) finalizer))
          (kindStarts (paths all) (.guarded resources body catches none)) ++
        thenEach (·.andThen LeaveAny) (listStarts (paths all) finalizer) := by
  simp [kindStarts, thenEach, Function.comp_def]

/-- With a finalizer the protected part is walked through it. -/
theorem kindEntries_guarded_some (resources body : List Stmt) (catches : List (CatchClause Stmt))
    (finalizer : List Stmt) (t : Targets) (o : IdSet) :
    kindEntries all rounds t o (.guarded resources body catches (some finalizer)) =
      listEntries all rounds t (o ∪ t.anyExit) finalizer ++
        kindEntries all rounds (t.through (listIn all rounds t (o ∪ t.anyExit) finalizer))
          (listIn all rounds t (o ∪ t.anyExit) finalizer)
          (.guarded resources body catches none) := by
  simp only [kindEntries, through_through, List.append_assoc]
  rw [IdSet.union_left_comm]

mutual

/-- The set recorded for a statement covers all paths from its entry. -/
theorem starts_covered (hv : v ∈ all) (n : Nat) :
    ∀ (s : Stmt) (t : Targets) (o : IdSet),
      Covered v t o (s.starts (paths all)) (s.liveEntries all (n + 1) t o)
  | node id kind, t, o => by
    intro s p hm
    rcases List.mem_cons.1 hm with heq | hm
    · cases heq
      refine ⟨_, _, List.mem_append.2 (.inr (List.mem_singleton.2 rfl)), ?_, ?_⟩
      · exact fun h => mem_union.2 (.inr h)
      · exact run_needs hv n _ t o
    · exact (kindStarts_covered hv n kind t o).left s p hm

/-- Every nested statement is covered by an entry of the walk. -/
theorem kindStarts_covered (hv : v ∈ all) (n : Nat) :
    ∀ (k : StmtKind Expr Stmt) (t : Targets) (o : IdSet),
      Covered v t o (kindStarts (paths all) k) (kindEntries all (n + 1) t o k)
  | .block body, t, o => listStarts_covered hv n body t o
  | .branch _ a none, t, o => (starts_covered hv n a t o).left
  | .branch _ a (some b), t, o =>
    .append (starts_covered hv n a t o).left.left (starts_covered hv n b t o).right.left
  | .whileLoop _ body, _, _ => by
    rw [kindStarts]
    refine .left ?_
    refine (starts_covered hv n body _ _).thenEach (fun h => h) fun hp p live _ h => ?_
    exact (restOfBody_needs h).resume (whileLoop_needs hp (run_needs hv n body) n)
  | .doLoop body _, _, _ => by
    rw [kindStarts]
    refine .left ?_
    refine (starts_covered hv n body _ _).thenEach (fun h => h) fun hp p live _ h => ?_
    exact (restOfDo_walked_needs hp h).resume (doLoop_needs hp (run_needs hv n body) n)
  | .forLoop init _ _ body, _, _ => by
    refine .append (.right ?_) (.left (.left (.right ?_)))
    · refine (listStarts_covered hv n init _ _).thenEach (fun h => h) fun hp p live _ h => ?_
      exact h.andThen (forLoop_needs hp (run_needs hv n body) (n + 1)) fun _ => mem_after_of_ne
    · refine (starts_covered hv n body _ _).thenEach (fun h => h) fun hp p live _ h => ?_
      exact (restOfFor_needs hp h).resume (forLoop_needs hp (run_needs hv n body) n)
  | .forEach _ _ body, _, _ => by
    rw [kindStarts]
    refine .left ?_
    refine (starts_covered hv n body _ _).thenEach (fun h => h) fun hp p live _ h => ?_
    exact (restOfBody_needs h).resume (forEach_needs hp (run_needs hv n body) n)
  | .switch _ cases, _, _ => by
    rw [kindStarts]
    refine .left (.left ?_)
    refine (caseStarts_covered hv n cases _ _).thenEach (fun h => h) fun _ p live _ h => ?_
    exact h.bind fun _ => .pure mem_after_ofSwitch
  | .guarded resources body catches none, t, o =>
    protectedStarts_covered (listRun_needs hv n body) (catchesRun_needs hv n catches)
      (listStarts_covered hv n resources) (listStarts_covered hv n body)
      (catchStarts_covered hv n catches) t o
  | .guarded resources body catches (some finalizer), t, o => by
    rw [kindStarts_guarded_some, kindEntries_guarded_some]
    refine .append (.right ?_) (.left ?_)
    · refine (protectedStarts_covered (listRun_needs hv n body) (catchesRun_needs hv n catches)
        (listStarts_covered hv n resources) (listStarts_covered hv n body)
        (catchStarts_covered hv n catches) _ _).thenEach (fun h => mem_union.2 (.inl h)) ?_
      exact fun _ _ _ _ h => ensuring_needs h (listRun_needs hv n finalizer _ _)
    · refine (listStarts_covered hv n finalizer _ _).thenEach (fun h => h) ?_
      exact fun _ _ _ _ h => h.andThen leaveAny_needs fun _ => mem_after_of_ne
  | .decl .., _, _ | .expr _, _, _ | .throw _, _, _ | .assert .., _, _ | .ret _, _, _
  | .breakOut, _, _ | .continueLoop, _, _ | .empty, _, _ | .err, _, _ => .nil

theorem listStarts_covered (hv : v ∈ all) (n : Nat) :
    ∀ (ss : List Stmt) (t : Targets) (o : IdSet),
      Covered v t o (listStarts (paths all) ss) (listEntries all (n + 1) t o ss)
  | [], _, _ => .nil
  | s :: ss, t, o => by
    refine .append (.right ?_) (listStarts_covered hv n ss t o).left
    refine (starts_covered hv n s t _).thenEach (fun h => h) fun _ _ _ _ h => ?_
    exact h.andThen (listRun_needs hv n ss t o) fun _ => mem_after_of_ne

theorem caseStarts_covered (hv : v ∈ all) (n : Nat) :
    ∀ (cs : List (SwitchCase Expr Stmt)) (t : Targets) (o : IdSet),
      Covered v t o (caseStarts (paths all) cs) (caseEntries all (n + 1) t o cs)
  | [], _, _ => .nil
  | ⟨_, _, body⟩ :: cs, t, o => by
    refine .append (.right ?_) (caseStarts_covered hv n cs t o).left
    refine (listStarts_covered hv n body t _).thenEach (fun h => h) fun _ _ _ _ h => ?_
    exact h.andThen (fallRun_needs hv n cs t o) fun _ => mem_after_of_ne

theorem catchStarts_covered (hv : v ∈ all) (n : Nat) :
    ∀ (cs : List (CatchClause Stmt)) (t : Targets) (o : IdSet),
      Covered v t o (catchStarts (paths all) cs) (catchEntries all (n + 1) t o cs)
  | [], _, _ => .nil
  | ⟨_, _, body⟩ :: cs, t, o =>
    .append (listStarts_covered hv n body t o).left (catchStarts_covered hv n cs t o).right

end

end Stmt

/-! ## Bodies -/

namespace LivenessInfo

/-- What a path from the entry of a statement reads before declaring or assigning it is live
there. -/
theorem mem_liveIn_of_readsFirst {b : Body} (hb : b.Accepted) {s : Stmt} {path : List Access}
    (hp : b.HasPath s path) (hv : v < b.vars.size) (hr : ReadsFirst v path) :
    v ∈ (compute b).liveIn s.id := by
  obtain ⟨p, hs, r, h⟩ := hp
  have hall : v ∈ b.allVars := mem_below.2 hv
  obtain ⟨live, out, hentry, -, hneeds⟩ := Stmt.listStarts_covered hall 0 b.root {} ∅ s p hs
  have hstmt : s ∈ b.root.flatMap Stmt.substmts := by
    rw [← Stmt.substmtsOfList_eq, ← Stmt.map_fst_listStarts (paths b.allVars)]
    exact List.mem_map_of_mem hs
  have hnodup : ((Stmt.listEntries b.allVars 1 {} ∅ b.root).filterMap LiveEntry.stmtId?).Nodup := by
    rw [(Stmt.listEntries_stmtIds b.root {} ∅).nodup_iff, Stmt.substmtsOfList_eq]
    exact hb.nodup_stmtIds
  have hlive : (compute b).liveIn s.id = live :=
    liveIn_foldl_put hnodup hentry (by simpa using hb.stmt_lt hstmt)
  rw [hlive]
  exact (hneeds h).1 hr

/-- A loop that reads a variable again and again. -/
def readingLoop : Body where
  name := "readingLoop"
  vars := #[⟨"x", .prim .int, .param, .dummy⟩]
  exprs := #[⟨.dummy, .lit (.bool true)⟩, ⟨.dummy, .var 0⟩]
  stmts := #[⟨.dummy, .expr 1⟩, ⟨.dummy, .whileLoop 0 0⟩]
  params := [0]
  block := [1]

/-- The path into the body of the loop. -/
theorem readingLoop_hasPath :
    readingLoop.HasPath (readingLoop.stmtTree 1) [.read 0] := by
  refine ⟨_, List.mem_cons_self, .cut, ?_⟩
  have htest : (paths readingLoop.allVars).test (readingLoop.exprTree 0) () [] (.done true) () :=
    bind_of_silent (bind_of_silent .pass (bind_of_silent .intro (bind_of_silent .pass .intro)))
      (.left .intro)
  have hread : (readingLoop.exprTree 1).path () [.read 0] .cut () :=
    bind_of_silent .pass (bind_silent .intro (.cut .cut))
  have hbody : (readingLoop.stmtTree 0).run (paths readingLoop.allVars) () [.read 0] .cut () :=
    bind_of_silent .pass (.cut hread)
  refine .cut (bind_of_silent .pass (.cut ?_))
  exact bind_of_silent htest (.cut hbody)

/-- The parameter is live before the loop that reads it. -/
theorem mem_liveIn_of_readsFirst_readingLoop : 0 ∈ (compute readingLoop).liveIn 1 :=
  mem_liveIn_of_readsFirst
    ⟨readingLoop.has_of_reaches (by decide) (by decide) (by decide), by decide⟩
    readingLoop_hasPath (by decide) ⟨[], [], rfl, by simp⟩

end LivenessInfo

end Midend
