import Midend.Liveness.Accumulate
import Midend.Proofs.Liveness.Recorded

/-!
# Parts of a recording walk

A part of the walk comes to a result and leaves records behind that do not depend
on the state it starts in (`Finds`). Parts are put together as their records are
(`Finds.bind`). The records of a repeated walk replace all earlier ones
(`Finds.absorb`, `Finds.iterate`), and what is looked up of statements that have
places of their own is what was recorded of them (`Finds.bind_get`).
-/

namespace Midend

/-! ## What a part of the walk records -/

/-- From `info` a part of the walk has come to `info'`: it has recorded the entries `es`, what the
statements `ss` overwrite and that the variables `rs` are read. -/
structure LivenessInfo.Records (info info' : LivenessInfo) (es : List LiveEntry) (ss : List Stmt)
    (rs : List VarId) : Prop where
  entries : { info' with kills := info.kills, everLive := info.everLive } = es.foldl put info
  size : info'.kills.size = info.kills.size
  kills : ∀ id < info.kills.size, (∃ s ∈ ss, s.id = id ∧ info'.killsOf id = s.kills) ∨
    id ∉ ss.map Stmt.id ∧ info'.killsOf id = info.killsOf id
  everLive : ∀ v, v ∈ info'.everLive ↔ v ∈ info.everLive ∨ v ∈ rs

namespace LivenessInfo

variable {info info₁ info₂ : LivenessInfo} {es es' : List LiveEntry} {ss ss' : List Stmt}
  {rs rs' : List VarId}

/-- Entries are recorded beside what is overwritten and read. -/
theorem foldl_put_with (es : List LiveEntry) (info : LivenessInfo) (kills : Array IdSet)
    (everLive : IdSet) :
    es.foldl put { info with kills, everLive } = { es.foldl put info with kills, everLive } := by
  induction es generalizing info with
  | nil => rfl
  | cons e es ih =>
    rw [List.foldl_cons, List.foldl_cons, ← ih (info.put e)]
    cases e <;> rfl

/-- Entries of nodes leave the set before the body alone. -/
theorem foldl_put_with_entry (es : List LiveEntry) (info : LivenessInfo) (entry : IdSet) :
    es.foldl put { info with entry } = { es.foldl put info with entry } := by
  induction es generalizing info with
  | nil => rfl
  | cons e es ih =>
    rw [List.foldl_cons, List.foldl_cons, ← ih (info.put e)]
    cases e <;> rfl

namespace Records

theorem refl (info : LivenessInfo) : info.Records info [] [] [] where
  entries := rfl
  size := rfl
  kills _ _ := .inr ⟨List.not_mem_nil, rfl⟩
  everLive v := by simp

theorem trans (h : info.Records info₁ es ss rs) (h' : info₁.Records info₂ es' ss' rs') :
    info.Records info₂ (es ++ es') (ss ++ ss') (rs ++ rs') where
  entries := by
    rw [List.foldl_append, ← h.entries, foldl_put_with, ← h'.entries]
  size := h'.size.trans h.size
  kills id hid := by
    simp only [List.mem_append, List.map_append]
    obtain ⟨s, hs, heq, hkills⟩ | ⟨hno', hkept'⟩ := h'.kills id (h.size ▸ hid)
    · exact .inl ⟨s, .inr hs, heq, hkills⟩
    · rw [hkept']
      obtain ⟨s, hs, heq, hkills⟩ | ⟨hno, hkept⟩ := h.kills id hid
      · exact .inl ⟨s, .inl hs, heq, hkills⟩
      · exact .inr ⟨fun h => h.elim hno hno', hkept⟩
  everLive v := by
    rw [h'.everLive, h.everLive, List.mem_append, or_assoc]

/-- Overwrites and reads count by what they are, and entries by what they leave. -/
theorem congr (h : info.Records info₁ es ss rs) (hes : es.foldl put info = es'.foldl put info)
    (hss : ∀ s, s ∈ ss ↔ s ∈ ss') (hrs : ∀ v, v ∈ rs ↔ v ∈ rs') :
    info.Records info₁ es' ss' rs' where
  entries := h.entries.trans hes
  size := h.size
  kills id hid := by
    have hkills := h.kills id hid
    simp only [List.mem_map, hss] at hkills ⊢
    exact hkills
  everLive v := by rw [h.everLive, hrs]

end Records

/-! ## Entries of a repeated walk -/

/-- The second entry of a node replaces the first. -/
theorem put_put_of_eq {e e' : LiveEntry} (h : e.node = e'.node) (info : LivenessInfo) :
    (info.put e).put e' = info.put e' := by
  cases e <;> cases e' <;> cases h <;> simp [put]

/-- Entries of different nodes can be put in either order. -/
theorem put_put_of_ne {e e' : LiveEntry} (h : e.node ≠ e'.node) (info : LivenessInfo) :
    (info.put e).put e' = (info.put e').put e := by
  cases e with
  | expr id live =>
    cases e' with
    | expr id' live' =>
      have hne : id ≠ id' := fun heq => h (congrArg NodeId.expr heq)
      simp [put, Array.setIfInBounds_comm _ _ hne]
    | stmt id' live' out' => rfl
  | stmt id live out =>
    cases e' with
    | expr id' live' => rfl
    | stmt id' live' out' =>
      have hne : id ≠ id' := fun heq => h (congrArg NodeId.stmt heq)
      simp [put, Array.setIfInBounds_comm _ _ hne]

/-- An entry is lost where a later one is about the same node. -/
theorem foldl_put_cons_of_mem {e : LiveEntry} :
    ∀ {es : List LiveEntry} {info : LivenessInfo}, e.node ∈ es.map LiveEntry.node →
      (e :: es).foldl put info = es.foldl put info
  | e' :: es, info, h => by
    by_cases heq : e.node = e'.node
    · rw [List.foldl_cons, List.foldl_cons, put_put_of_eq heq, List.foldl_cons]
    · have hrest : e.node ∈ es.map LiveEntry.node := (List.mem_cons.1 h).resolve_left heq
      rw [List.foldl_cons, List.foldl_cons, put_put_of_ne heq, ← List.foldl_cons (f := put),
        foldl_put_cons_of_mem hrest, List.foldl_cons]

/-- Entries are lost where later ones are about the same nodes. -/
theorem foldl_put_append_of_subset {es es' : List LiveEntry}
    (h : es.map LiveEntry.node ⊆ es'.map LiveEntry.node) (info : LivenessInfo) :
    (es ++ es').foldl put info = es'.foldl put info := by
  induction es generalizing info with
  | nil => rfl
  | cons e es ih =>
    rw [List.map_cons, List.cons_subset] at h
    have hmem : e.node ∈ (es ++ es').map LiveEntry.node := by
      rw [List.map_append]
      exact List.mem_append_right _ h.1
    rw [List.cons_append, foldl_put_cons_of_mem hmem, ih h.2]

end LivenessInfo

/-! ## Parts of the walk -/

/-- Each of the statements has a place of its own. -/
structure LivenessInfo.Places (info : LivenessInfo) (W : List Stmt) : Prop where
  lt : ∀ s ∈ W, s.id < info.kills.size
  inj : ∀ s ∈ W, ∀ s' ∈ W, s.id = s'.id → s = s'

/-- Where the statements `W` have their places, the part `x` of the walk comes to `a` and records
the entries `es`, what the statements `ss` overwrite and that the variables `rs` are read. -/
def Finds {α : Type} (W : List Stmt) (x : Recording α) (a : α) (es : List LiveEntry)
    (ss : List Stmt) (rs : List VarId) : Prop :=
  ∀ info : LivenessInfo, info.Places W →
    ∃ info', x.run info = (a, info') ∧ info.Records info' es ss rs

/-- Recording keeps the number of slots. -/
theorem LivenessInfo.Records.places {info info' : LivenessInfo} {es : List LiveEntry}
    {ss W : List Stmt} {rs : List VarId} (h : info.Records info' es ss rs) (hW : info.Places W) :
    info'.Places W where
  lt s hs := h.size ▸ hW.lt s hs
  inj := hW.inj

namespace Finds

open LivenessInfo

variable {α β : Type} {W : List Stmt} {x : Recording α} {a : α} {es es' : List LiveEntry}
  {ss ss' : List Stmt} {rs rs' : List VarId}

theorem pure : Finds W (Pure.pure a : Recording α) a [] [] [] :=
  fun info _ => ⟨info, rfl, .refl info⟩

theorem bind {f : α → Recording β} {c : β} (hx : Finds W x a es ss rs)
    (hf : Finds W (f a) c es' ss' rs') :
    Finds W (x >>= f) c (es ++ es') (ss ++ ss') (rs ++ rs') := by
  intro info hW
  obtain ⟨info₁, hrun, hrec⟩ := hx info hW
  obtain ⟨info₂, hrun', hrec'⟩ := hf info₁ (hrec.places hW)
  refine ⟨info₂, ?_, hrec.trans hrec'⟩
  rw [StateT.run_bind, hrun]
  exact hrun'

/-- Only the result is changed. -/
theorem map {f : α → β} (hx : Finds W x a es ss rs) :
    Finds W (x >>= fun a => Pure.pure (f a)) (f a) es ss rs := by
  have h := hx.bind (f := fun a => (Pure.pure (f a) : Recording β)) .pure
  simpa using h

/-- Only what is recorded counts. -/
theorem returning {c : β} (hx : Finds W x a es ss rs) :
    Finds W (x >>= fun _ => Pure.pure c) c es ss rs := hx.map

theorem congr (hx : Finds W x a es ss rs) (hes : ∀ info, es.foldl put info = es'.foldl put info)
    (hss : ∀ s, s ∈ ss ↔ s ∈ ss') (hrs : ∀ v, v ∈ rs ↔ v ∈ rs') : Finds W x a es' ss' rs' := by
  intro info hW
  obtain ⟨info', hrun, hrec⟩ := hx info hW
  exact ⟨info', hrun, hrec.congr (hes info) hss hrs⟩

/-- It does not matter in which order statements and reads are recorded, or how often. -/
theorem arrange (hx : Finds W x a es ss rs) (hes : es = es') (hss : ∀ s, s ∈ ss ↔ s ∈ ss')
    (hrs : ∀ v, v ∈ rs ↔ v ∈ rs') : Finds W x a es' ss' rs' := hx.congr (fun _ => hes ▸ rfl) hss hrs

/-- The reads can be described as another list of the same variables. -/
theorem reading (hx : Finds W x a es ss rs) (hrs : ∀ v, v ∈ rs ↔ v ∈ rs') :
    Finds W x a es ss rs' := hx.arrange rfl (fun _ => .rfl) hrs

/-- What is recorded of the same nodes later replaces what is recorded first. -/
theorem absorb (hx : Finds W x a (es ++ es') ss rs)
    (h : es.map LiveEntry.node ⊆ es'.map LiveEntry.node) : Finds W x a es' ss rs :=
  hx.congr (foldl_put_append_of_subset h) (fun _ => .rfl) fun _ => .rfl

/-- Putting an entry finds it. -/
theorem put (e : LiveEntry) : Finds W (Recording.put e) () [e] [] [] := by
  refine fun info _ => ⟨info.put e, rfl, ?_, ?_, fun id _ => .inr ⟨List.not_mem_nil, ?_⟩, ?_⟩
  all_goals cases e <;> simp [LivenessInfo.put, killsOf]

/-- Noting a read finds it. -/
theorem noteRead (v : VarId) : Finds W (Recording.noteRead v) () [] [] [v] := by
  refine fun info _ => ⟨info.read v, rfl, rfl, rfl, fun id _ => .inr ⟨List.not_mem_nil, rfl⟩, ?_⟩
  intro u
  simp [LivenessInfo.read]

theorem noteReads : ∀ vs : List VarId, Finds W (Recording.noteReads vs) () [] [] vs
  | [] => .pure
  | v :: vs => (noteRead v).bind (noteReads vs)

/-- Overwriting a slot finds its statement. -/
theorem overwrite (s : Stmt) : Finds W (Recording.overwrite s.id s.kills) () [] [s] [] := by
  refine fun info _ => ⟨info.overwrite s.id s.kills, rfl, rfl, ?_, fun id hid => ?_, fun v => ?_⟩
  · simp [LivenessInfo.overwrite]
  · by_cases heq : s.id = id
    · subst heq
      refine .inl ⟨s, List.mem_singleton_self s, rfl, ?_⟩
      simp [LivenessInfo.overwrite, killsOf, Array.getD_eq_getD_getElem?, hid]
    · refine .inr ⟨by simpa using Ne.symm heq, ?_⟩
      simp [LivenessInfo.overwrite, killsOf, Array.getD_eq_getD_getElem?,
        Array.getElem?_setIfInBounds_ne heq]
  · simp [LivenessInfo.overwrite]

/-- Repeated walks over the same nodes leave what the last of them records. -/
theorem iterate {step : α → Recording α} {f : α → α} {E : α → List LiveEntry}
    (hstep : ∀ a, Finds W (step a) (f a) (E a) ss rs)
    (hE : ∀ a c, (E a).map LiveEntry.node = (E c).map LiveEntry.node) (n : Nat) (a : α) :
    Finds W (Recording.iterate step (n + 1) a) (Nat.repeat f (n + 1) a) (E (Nat.repeat f n a))
      ss rs := by
  have hcomm : ∀ n a, Nat.repeat f n (f a) = Nat.repeat f (n + 1) a := by
    intro n a
    induction n with
    | zero => rfl
    | succ n ih => exact congrArg f ih
  induction n generalizing a with
  | zero => exact (hstep a).map (f := fun a => a)
  | succ n ih =>
    have hrest := ih (f a)
    rw [hcomm, hcomm] at hrest
    have hlast : (E a).map LiveEntry.node ⊆ (E (Nat.repeat f (n + 1) a)).map LiveEntry.node := by
      rw [hE a (Nat.repeat f (n + 1) a)]
      exact List.Subset.refl _
    have hall := ((hstep a).bind hrest).absorb hlast
    exact hall.congr (fun _ => rfl) (by simp) (by simp)

/-- A loop that is walked from what `x` comes to, and what follows it. -/
theorem loop {step : α → Recording α} {f : α → α} {E : α → List LiveEntry} {k : α → Recording β}
    {c : β} {ss'' : List Stmt} {rs'' : List VarId} {es'' : List LiveEntry} {n : Nat}
    (hx : Finds W x a es ss rs) (hstep : ∀ a, Finds W (step a) (f a) (E a) ss' rs')
    (hE : ∀ a c, (E a).map LiveEntry.node = (E c).map LiveEntry.node)
    (hes : ∀ c, es.map LiveEntry.node ⊆ (E c).map LiveEntry.node)
    (hk : Finds W (k (Nat.repeat f (n + 1) a)) c es'' ss'' rs'') :
    Finds W (x >>= fun a => Recording.iterate step (n + 1) a >>= k) c
      (E (Nat.repeat f n a) ++ es'') (ss ++ (ss' ++ ss'')) (rs ++ (rs' ++ rs'')) := by
  refine (hx.bind (f := fun a => Recording.iterate step (n + 1) a >>= k)
    ((iterate hstep hE n a).bind hk)).absorb ?_
  rw [List.map_append]
  exact List.Subset.trans (hes _) (List.subset_append_left ..)

/-- A walk that looks up what is recorded by then. -/
theorem bind_get {k : α → LivenessInfo → Recording β} {y : Recording β} {c : β}
    (hx : Finds W x a es ss rs) (hss : ss ⊆ W)
    (hk : ∀ info, (∀ s ∈ ss, info.killsOf s.id = s.kills) → k a info = y)
    (hy : Finds W y c es' ss' rs') :
    Finds W (x >>= fun a => get >>= k a) c (es ++ es') (ss ++ ss') (rs ++ rs') := by
  intro info hW
  obtain ⟨info₁, hrun, hrec⟩ := hx info hW
  have hknown : ∀ s ∈ ss, info₁.killsOf s.id = s.kills := by
    intro s hs
    obtain ⟨s', hs', hid, hkills⟩ | ⟨hno, -⟩ := hrec.kills s.id (hW.lt s (hss hs))
    · rw [hkills, hW.inj s' (hss hs') s (hss hs) hid]
    · exact absurd (List.mem_map_of_mem hs) hno
  obtain ⟨info₂, hrun', hrec'⟩ := hy info₁ (hrec.places hW)
  refine ⟨info₂, ?_, hrec.trans hrec'⟩
  rw [StateT.run_bind, hrun]
  refine Eq.trans ?_ hrun'
  rw [← hk info₁ hknown]
  rfl

end Finds

/-! ## Ends of walks -/

namespace LivenessInfo

variable {info : LivenessInfo}

/-- Kills read back from the slots are those of the statements. -/
theorem pathKills_eq : ∀ {ss : List Stmt}, (∀ s ∈ ss, info.killsOf s.id = s.kills) →
    info.pathKills ss = Stmt.pathKills ss
  | [], _ => rfl
  | s :: ss, h => by
    rw [List.forall_mem_cons] at h
    rw [pathKills, Stmt.pathKills, h.1, pathKills_eq h.2]

theorem caseKills_eq : ∀ {cs : List (SwitchCase Expr Stmt)},
    (∀ s ∈ cs.flatMap (·.body), info.killsOf s.id = s.kills) →
      info.caseKills cs = Stmt.caseKills cs
  | [], _ => rfl
  | ⟨_, _, body⟩ :: cs, h => by
    rw [List.flatMap_cons, List.forall_mem_append] at h
    rw [caseKills, Stmt.caseKills, pathKills_eq h.1, caseKills_eq h.2]

end LivenessInfo

namespace Finds

variable {W : List Stmt} {x : Recording IdSet} {live : IdSet} {es : List LiveEntry}
  {ss body : List Stmt} {rs : List VarId}

theorem leave (hx : Finds W x live es ss rs) (id : ExprId) (protect : IdSet) :
    Finds W (Recording.leave id protect x) (live ∪ protect) (es ++ [.expr id (live ∪ protect)]) ss
      rs := by
  have h : Finds W (Recording.leave id protect x) (live ∪ protect)
      (es ++ [.expr id (live ∪ protect)]) (ss ++ []) (rs ++ []) := hx.bind (put _).returning
  simpa using h

theorem place (hx : Finds W x live es ss rs) (id : ExprId) (protect : IdSet) :
    Finds W (do
      let live ← x
      Recording.put (.expr id (live ∪ protect))
      return live) live (es ++ [.expr id (live ∪ protect)]) ss rs := by
  have h : Finds W (do
      let live ← x
      Recording.put (.expr id (live ∪ protect))
      return live) live (es ++ [.expr id (live ∪ protect)]) (ss ++ []) (rs ++ []) :=
    hx.bind (put _).returning
  simpa using h

/-- A walk over a block whose statements are known by their identifiers. -/
theorem block (hx : Finds W x live es ss rs) (hss : ss ⊆ W) (hbody : body ⊆ ss) :
    Finds W (Recording.block x body) (live, (Stmt.pathKills body).1) es ss rs := by
  have h : Finds W (Recording.block x body) (live, (Stmt.pathKills body).1) (es ++ []) (ss ++ [])
      (rs ++ []) := by
    refine bind_get hx hss (fun info hinfo => ?_) pure
    rw [LivenessInfo.pathKills_eq fun s hs => hinfo s (hbody hs)]
  simpa using h

/-- A walk over the groups of a switch whose statements are known by their identifiers. -/
theorem groups {cs : List (SwitchCase Expr Stmt)} (hx : Finds W x live es ss rs) (hss : ss ⊆ W)
    (hcs : cs.flatMap (·.body) ⊆ ss) :
    Finds W (Recording.groups x cs) (live, (Stmt.caseKills cs).2.getD ∅) es ss rs := by
  have h : Finds W (Recording.groups x cs) (live, (Stmt.caseKills cs).2.getD ∅) (es ++ [])
      (ss ++ []) (rs ++ []) := by
    refine bind_get hx hss (fun info hinfo => ?_) pure
    rw [LivenessInfo.caseKills_eq fun s hs => hinfo s (hcs hs)]
  simpa using h

end Finds

end Midend
