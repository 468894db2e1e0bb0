import Mathlib.Algebra.BigOperators.Group.List.Basic
import Mathlib.Algebra.Ring.Nat
import Midend.Proofs.Fold.Replaced

/-!
# Rounds of folding

A round that succeeds changes as many slots as it reports and leaves an accepted
body; one that fails leaves the body as it is. So folding an accepted body, whether
it succeeds or not, ends with an accepted body that has the same statements, and
reports the number of slots that its rounds changed (`Body.fold_keeps`).
-/

namespace Midend

/-! ## Changed slots -/

/-- At how many places two lists differ. -/
def differing (xs ys : List ExprId) : Nat := (xs.zip ys).countP fun p => p.1 ≠ p.2

/-- The slots that differ from a renaming are those it moves. -/
theorem differing_map (f : ExprId → ExprId) (xs : List ExprId) :
    differing xs (xs.map f) = xs.countP fun x => x ≠ f x := by
  rw [differing, List.zip_map_right, List.countP_map]
  induction xs with
  | nil => rfl
  | cons x xs ih => simp_all [List.countP_cons]

/-- Elements that occur once each are counted as often as there are of them. -/
theorem countP_mem {xs : List ExprId} :
    ∀ {ys : List ExprId}, ys.Nodup → (∀ y ∈ ys, xs.count y = 1) →
      xs.countP (fun x => x ∈ ys) = ys.length
  | [], _, _ => by simp
  | y :: ys, hn, h => by
    obtain ⟨hy, hn⟩ := List.nodup_cons.1 hn
    have hsplit : ∀ zs : List ExprId, zs.countP (fun x => x ∈ y :: ys) =
        zs.count y + zs.countP (fun x => x ∈ ys) := by
      intro zs
      induction zs with
      | nil => rfl
      | cons z zs ih =>
        rw [List.countP_cons, List.countP_cons, List.count_cons, ih]
        by_cases hz : z = y
        · subst hz
          simp [hy]
          omega
        · simp [hz]
          omega
    rw [hsplit, h y List.mem_cons_self, countP_mem hn fun z hz => h z (List.mem_cons_of_mem _ hz),
      List.length_cons, Nat.add_comm]

theorem sum_ite_eq {β : Type} [DecidableEq β] (b : β) (keys : List β) :
    (keys.map fun k => if b = k then 1 else 0).sum = keys.count b := by
  induction keys with
  | nil => rfl
  | cons k keys ih =>
    rw [List.map_cons, List.sum_cons, ih, List.count_cons, Nat.add_comm]
    by_cases h : b = k
    · simp [h]
    · simp [h, Ne.symm h]

/-- Every member is counted once under its key. -/
theorem sum_countP {α β : Type} [DecidableEq β] {keys : List β} (hn : keys.Nodup) (f : α → β) :
    ∀ {l : List α}, (∀ a ∈ l, f a ∈ keys) →
      (keys.map fun k => l.countP fun a => f a = k).sum = l.length
  | [], _ => by simp
  | a :: l, h => by
    have hone : (keys.map fun k => if f a = k then 1 else 0).sum = 1 := by
      rw [sum_ite_eq, List.count_eq_one_of_mem hn (h a List.mem_cons_self)]
    simp only [List.countP_cons, List.sum_map_add, decide_eq_true_eq, hone]
    rw [sum_countP hn f fun x hx => h x (List.mem_cons_of_mem _ hx), List.length_cons]

/-- The layer without its expressions: what is nested in it, and where it has expressions. -/
def StmtKind.nesting {ε σ : Type} (k : StmtKind ε σ) : StmtKind Unit σ := k.map (fun _ => ()) id

namespace Body

variable {b c : Body} {callees : CalleeEffects}

/-- The nodes of both arenas. -/
def nodeIds (b : Body) : List NodeId := b.exprIds.map .expr ++ b.stmtIds.map .stmt

theorem mem_nodeIds {n : NodeId} : n ∈ b.nodeIds ↔ b.Has n := by
  cases n <;> simp [nodeIds, exprIds, stmtIds, Has]

/-- Each node is listed once. -/
theorem nodup_nodeIds : b.nodeIds.Nodup := by
  refine List.nodup_append.2 ⟨?_, ?_, ?_⟩
  · exact List.nodup_range.map fun _ _ h => NodeId.expr.inj h
  · exact List.nodup_range.map fun _ _ h => NodeId.stmt.inj h
  · intro n hn m hm
    obtain ⟨i, -, rfl⟩ := List.mem_map.1 hn
    obtain ⟨j, -, rfl⟩ := List.mem_map.1 hm
    exact nofun

/-- How many slots of the nodes of `b` name another expression in `c`. -/
def changedSlots (b c : Body) : Nat :=
  (b.nodeIds.map fun n => differing (b.slots n) (c.slots n)).sum

variable {es : List Edit} {σ origin : ExprId → ExprId}

/-- The slots after the edits are those before them, moved. -/
theorem Applied.slots (ha : b.Applied es σ origin c) {n : NodeId} (hn : b.Has n) :
    c.slots n = (b.slots n).map (Edit.moved es σ n) := by
  cases n with
  | expr i => rw [Body.slots, Body.slots, ha.expr i hn, ExprKind.children_map]
  | stmt i => rw [Body.slots, Body.slots, ha.stmt i, StmtKind.exprChildren_map]

/-- What an edit puts in a slot is not what was there. -/
theorem Applied.ne_old (ha : b.Applied es σ origin c) (hr : b.Ready es) {d : Edit} (hd : d ∈ es) :
    d.old ≠ σ d.old := by
  intro heq
  cases hrewrite : d.rewrite with
  | literal l =>
    have hle := (ha.literal d hd l hrewrite).1
    exact Nat.lt_irrefl _ (Nat.lt_of_lt_of_le (hr.old_lt d hd) (heq ▸ hle))
  | operand x =>
    have hx := ha.operand d hd x hrewrite
    exact hr.operand_kept d hd x hrewrite (hx ▸ heq ▸ List.mem_map_of_mem hd)

/-- Every edit changes one slot. -/
theorem Applied.changedSlots (ha : b.Applied es σ origin c) (hr : b.Ready es) :
    b.changedSlots c = es.length := by
  have hnode : ∀ n ∈ b.nodeIds, differing (b.slots n) (c.slots n) =
      es.countP fun d => d.parent = n := by
    intro n hn
    have hsub : ((es.filter fun d => d.parent = n).map Edit.old).Sublist (es.map Edit.old) :=
      List.filter_sublist.map _
    rw [ha.slots (mem_nodeIds.1 hn), differing_map, List.countP_eq_length_filter (l := es),
      ← List.length_map Edit.old, ← countP_mem (hsub.nodup hr.nodup)]
    · refine List.countP_congr fun x _ => ?_
      rw [decide_eq_true_eq, decide_eq_true_eq, List.mem_map, Edit.moved]
      constructor
      · intro hne
        split at hne
        · next hany =>
          obtain ⟨d, hd, hp⟩ := List.any_eq_true.1 hany
          obtain ⟨hparent, hold⟩ := of_decide_eq_true hp
          exact ⟨d, List.mem_filter.2 ⟨hd, decide_eq_true hparent⟩, hold⟩
        · exact absurd rfl hne
      · rintro ⟨d, hd, rfl⟩
        obtain ⟨hd, hp⟩ := List.mem_filter.1 hd
        rw [if_pos (List.any_eq_true.2 ⟨d, hd, by simpa using hp⟩)]
        exact ha.ne_old hr hd
    · intro x hx
      obtain ⟨d, hd, rfl⟩ := List.mem_map.1 hx
      obtain ⟨hd, hp⟩ := List.mem_filter.1 hd
      rw [← of_decide_eq_true hp]
      exact hr.slot d hd
  rw [Body.changedSlots, List.map_congr_left hnode]
  exact sum_countP nodup_nodeIds Edit.parent fun d hd => mem_nodeIds.2 (hr.has d hd)

/-! ## One round -/

/-- The values that the evaluation of a round records. -/
def roundValues (b : Body) : IdMap Value :=
  (b.evalReporting (EvalState.startRecording {})).2.recorded

/-- The edits that a round collects. -/
def roundEdits (b : Body) (callees : CalleeEffects) : List Edit := b.edits callees b.roundValues

/-- A round that succeeds counts its edits and applies them all. -/
theorem foldRound_of_ok {n : Nat} (h : (b.foldRound callees).result = .ok n) :
    (b.evalReporting (EvalState.startRecording {})).1 = .ok () ∧ n = (b.roundEdits callees).length ∧
      (b.foldRound callees).body = b.applyEdits (b.roundEdits callees) := by
  unfold foldRound at h ⊢
  unfold roundEdits roundValues
  split at h
  · cases h
  · next s heval =>
    rw [heval]
    exact ⟨rfl, (Except.ok.inj h).symm, rfl⟩

/-- A round that fails leaves the body as it was. -/
theorem foldRound_of_error {e : Reported} (h : (b.foldRound callees).result = .error e) :
    (b.foldRound callees).body = b := by
  unfold foldRound at h ⊢
  split at h
  · rfl
  · cases h

/-- The edits keep how statements are nested. -/
theorem Applied.nesting (ha : b.Applied es σ origin c) (s : StmtId) :
    (c.stmtKind s).nesting = (b.stmtKind s).nesting := by
  rw [ha.stmt, StmtKind.nesting, StmtKind.map_map]
  rfl

/-- What a round that succeeds does: it applies the edits it collected, each of which finds the
expression to replace and changes one slot. -/
structure RoundKeeps (b : Body) (callees : CalleeEffects) (n : Nat) : Prop where
  accepted : (b.foldRound callees).body.Accepted
  frame : b.SameFrame (b.foldRound callees).body
  nesting : ∀ s, ((b.foldRound callees).body.stmtKind s).nesting = (b.stmtKind s).nesting
  applies : (b.foldRound callees).body = b.applyEdits (b.roundEdits callees)
  found : ∀ done e rest, b.roundEdits callees = done ++ e :: rest → e.Found (b.applyEdits done)
  changed : b.changedSlots (b.foldRound callees).body = n

/-- A round keeps an accepted body accepted and rewrites one slot for each edit. -/
theorem Accepted.roundKeeps (h : b.Accepted) {n : Nat} (hn : (b.foldRound callees).result = .ok n) :
    b.RoundKeeps callees n := by
  obtain ⟨-, rfl, hbody⟩ := foldRound_of_ok hn
  have hready : b.Ready (b.roundEdits callees) := h.ready callees b.roundValues
  obtain ⟨σ, origin, ha⟩ := hready.applied
  rw [← hbody] at ha
  exact ⟨accepted_applied h ha, ha.frame, ha.nesting, hbody, fun _ _ _ heq => hready.found heq,
    ha.changedSlots hready⟩

/-! ## All rounds -/

/-- Rounds that succeed lead from one body to another, and change so many slots. -/
inductive Rounds (callees : CalleeEffects) : Body → Nat → Body → Prop
  | none (b : Body) : Rounds callees b 0 b
  | next {b c : Body} {n k : Nat} : (b.foldRound callees).result = .ok n →
    Rounds callees (b.foldRound callees).body k c →
    Rounds callees b (b.changedSlots (b.foldRound callees).body + k) c

theorem SameFrame.refl (b : Body) : b.SameFrame b := ⟨rfl, rfl, rfl, rfl, Nat.le_refl _⟩

theorem Rounds.keeps {k : Nat} (hr : Rounds callees b k c) (h : b.Accepted) :
    c.Accepted ∧ b.SameFrame c ∧ ∀ s, (c.stmtKind s).nesting = (b.stmtKind s).nesting := by
  induction hr with
  | none b => exact ⟨h, .refl b, fun _ => rfl⟩
  | next hn _ ih =>
    have hround := h.roundKeeps hn
    obtain ⟨haccepted, hframe, hnesting⟩ := ih hround.accepted
    exact ⟨haccepted, hround.frame.trans hframe, fun s => (hnesting s).trans (hround.nesting s)⟩

/-- Folding is rounds that succeed, until one changes nothing, fails or is the last. -/
theorem foldFrom_rounds :
    ∀ (bound : Nat) {b : Body} (stats : FoldStats), b.Accepted →
      ∃ k, Rounds callees b k (foldFrom callees stats bound b).body ∧
        (∀ s, (foldFrom callees stats bound b).result = .ok s → s.rewrites = stats.rewrites + k) ∧
        ∀ e, (foldFrom callees stats bound b).result = .error e →
          ((foldFrom callees stats bound b).body.foldRound callees).result = .error e
  | 0, b, stats, _ => by
    refine ⟨0, .none b, fun s hs => ?_, fun e he => nomatch he⟩
    rw [← Except.ok.inj hs]
    rfl
  | bound + 1, b, stats, h => by
    rw [foldFrom]
    cases hr : (b.foldRound callees).result with
    | error e =>
      simp only
      rw [foldRound_of_error hr]
      exact ⟨0, .none b, nofun, fun _ _ => hr⟩
    | ok n =>
      have hround := h.roundKeeps hr
      cases n with
      | zero =>
        simp only
        refine ⟨_, .next hr (.none _), fun s hs => ?_, nofun⟩
        rw [← Except.ok.inj hs, hround.changed]
        rfl
      | succ n =>
        simp only
        obtain ⟨k, hk, hok, herror⟩ := foldFrom_rounds bound
          { stats with rounds := stats.rounds + 1, rewrites := stats.rewrites + (n + 1) }
          hround.accepted
        refine ⟨_, .next hr hk, fun s hs => ?_, herror⟩
        rw [hok s hs, hround.changed, Nat.add_assoc]

/-- Folding an accepted body ends with an accepted body, with the same variables, parameters, root
block and nesting of statements. It is a number of rounds, in each of which every edit finds the
expression to replace, and the edits that are reported are the slots changed. A round that fails
leaves the body as it is. -/
theorem fold_keeps (h : b.Accepted) (callees : CalleeEffects) (bound : Nat) :
    (b.fold callees bound).body.Accepted ∧ b.SameFrame (b.fold callees bound).body ∧
      (∀ s, ((b.fold callees bound).body.stmtKind s).nesting = (b.stmtKind s).nesting) ∧
      (∃ k, Rounds callees b k (b.fold callees bound).body ∧
        (∀ stats, (b.fold callees bound).result = .ok stats → stats.rewrites = k) ∧
        ∀ e, (b.fold callees bound).result = .error e →
          ((b.fold callees bound).body.foldRound callees).result = .error e) ∧
      ∀ k c, Rounds callees b k c →
        (∀ n, (c.foldRound callees).result = .ok n → c.RoundKeeps callees n) ∧
        ∀ e, (c.foldRound callees).result = .error e → (c.foldRound callees).body = c := by
  obtain ⟨k, hk, hok, herror⟩ := @foldFrom_rounds callees bound b {} h
  obtain ⟨haccepted, hframe, hnesting⟩ := hk.keeps h
  refine ⟨haccepted, hframe, hnesting, ⟨k, hk, fun s hs => ?_, herror⟩, fun j c hc => ?_⟩
  · rw [hok s hs, Nat.zero_add]
  · exact ⟨fun n hn => (hc.keeps h).1.roundKeeps hn, fun e he => foldRound_of_error he⟩

/-- A declaration whose initial value is a conditional expression with a literal condition, and a
sum that is known after it. -/
def chosenArm : Body where
  name := "chosenArm"
  vars := #[⟨"x", .prim .int, .localVar, .dummy⟩, ⟨"y", .prim .int, .localVar, .dummy⟩]
  exprs := #[⟨.dummy, .lit (.bool true)⟩, ⟨.dummy, .lit (.int 3)⟩, ⟨.dummy, .paren 1⟩,
    ⟨.dummy, .var 1⟩, ⟨.dummy, .lit (.int 4)⟩, ⟨.dummy, .assign 3 none 4⟩,
    ⟨.dummy, .conditional 0 2 5⟩, ⟨.dummy, .var 0⟩, ⟨.dummy, .lit (.int 1)⟩,
    ⟨.dummy, .binary 7 (.arith .add) 8⟩]
  stmts := #[⟨.dummy, .decl 0 (some 6)⟩, ⟨.dummy, .ret (some 9)⟩]
  block := [0, 1]

theorem chosenArm_accepted : chosenArm.Accepted :=
  ⟨chosenArm.has_of_reaches (by decide) (by decide) (by decide), by decide⟩

/-- Three rounds reach the fixpoint, and the bound of five is not used up. -/
theorem fold_keeps_chosenArm :
    chosenArm.Accepted ∧ (chosenArm.fold noSignatures 5).result = .ok ⟨3, 3, true⟩ ∧
      (chosenArm.fold noSignatures 5).body.Accepted ∧
      Rounds noSignatures chosenArm 3 (chosenArm.fold noSignatures 5).body := by
  have hresult : (chosenArm.fold noSignatures 5).result = .ok ⟨3, 3, true⟩ := by rfl
  obtain ⟨haccepted, -, -, ⟨k, hk, hok, -⟩, -⟩ := fold_keeps chosenArm_accepted noSignatures 5
  rw [← hok _ hresult] at hk
  exact ⟨chosenArm_accepted, hresult, haccepted, hk⟩

end Body

end Midend
