import Mathlib.Data.List.NodupEquivFin
import Midend.Proofs.Body.Shape

/-!
# The search for a second parent

`Body.sharedNode?` is a search with an explicit stack through a graph that need
not be a tree: nodes can be shared, and a node can lie below itself. `Searches` is
that search without a bound on its steps. As long as whatever is reached is in the
arenas it ends, and the bound of `sharedNode?` is never what ends it
(`searches_findShared`), as every step but the last marks a new node.

What the search preserves is an account of slots (`Searched.perm`): the nodes met
and the nodes on the stack are, with their multiplicities, those that the root
block and the nodes met refer to. A node found marked is thus counted twice, and
a stack that runs empty leaves every reachable node counted once. The main result
is `Body.sharedNode_decides_slots`.
-/

namespace Midend

namespace Body

/-! ## Slots of nodes -/

/-- A place that refers to a node: a position in the root block, or among the children of a
node. -/
inductive Slot where
  | root (index : Nat)
  | child (parent : NodeId) (index : Nat)

variable (b : Body)

/-- The slot is in the root block or in a reachable node, and refers to the node. -/
def Refers : Slot → NodeId → Prop
  | .root i, n => (b.block.map NodeId.stmt)[i]? = some n
  | .child m i, n => b.Reaches m ∧ (b.nodeChildren m)[i]? = some n

/-- The slots of the root block and of some nodes, with what they refer to. -/
def slotsOf (seen : List NodeId) : List (Slot × NodeId) :=
  (b.block.map NodeId.stmt).zipIdx.map (fun x => (.root x.2, x.1)) ++
    seen.flatMap fun m => (b.nodeChildren m).zipIdx.map fun x => (.child m x.2, x.1)

variable {b}

/-- The slots hold the root block and the children of the nodes. -/
theorem map_snd_slotsOf (seen : List NodeId) :
    (b.slotsOf seen).map Prod.snd = b.block.map .stmt ++ seen.flatMap b.nodeChildren := by
  have hfst : ∀ l : List NodeId, (l.zipIdx.map fun x => x.1) = l := List.zipIdx_map_fst 0
  simp only [slotsOf, List.map_append, List.map_map, List.map_flatMap, Function.comp_def, hfst]

/-- A slot is listed once if its node is. -/
theorem nodup_map_fst_slotsOf {seen : List NodeId} (h : seen.Nodup) :
    ((b.slotsOf seen).map Prod.fst).Nodup := by
  have hpos : ∀ (f : Nat → Slot), f.Injective → ∀ l : List NodeId,
      (l.zipIdx.map fun x => f x.2).Nodup := by
    intro f hf l
    have hmap : (l.zipIdx.map fun x => f x.2) = (l.zipIdx.map Prod.snd).map f := by
      rw [List.map_map]
      rfl
    rw [hmap, List.zipIdx_map_snd]
    exact List.Nodup.map hf (List.nodup_range' _)
  simp only [slotsOf, List.map_append, List.map_map, List.map_flatMap, Function.comp_def]
  refine List.Nodup.append (hpos _ (fun _ _ => Slot.root.inj) _) ?_ ?_
  · refine List.nodup_flatMap.2 ⟨fun m _ => hpos _ (fun _ _ hij => (Slot.child.inj hij).2) _, ?_⟩
    refine h.imp fun hne => ?_
    intro s hs ht
    obtain ⟨_, _, rfl⟩ := List.mem_map.1 hs
    obtain ⟨_, _, heq⟩ := List.mem_map.1 ht
    exact hne (Slot.child.inj heq).1.symm
  · intro s hs ht
    obtain ⟨_, _, rfl⟩ := List.mem_map.1 hs
    obtain ⟨_, _, ht⟩ := List.mem_flatMap.1 ht
    obtain ⟨_, _, heq⟩ := List.mem_map.1 ht
    cases heq

/-- The slots of reachable nodes refer to what they hold. -/
theorem Refers.of_mem_slotsOf {seen : List NodeId} (hseen : ∀ n ∈ seen, b.Reaches n) {s : Slot}
    {n : NodeId} (h : (s, n) ∈ b.slotsOf seen) : b.Refers s n := by
  rcases List.mem_append.1 h with h | h
  · obtain ⟨⟨m, i⟩, hx, heq⟩ := List.mem_map.1 h
    obtain ⟨rfl, rfl⟩ := Prod.mk.inj heq
    exact List.mk_mem_zipIdx_iff_getElem?.1 hx
  · obtain ⟨p, hp, h⟩ := List.mem_flatMap.1 h
    obtain ⟨⟨m, i⟩, hx, heq⟩ := List.mem_map.1 h
    obtain ⟨rfl, rfl⟩ := Prod.mk.inj heq
    exact ⟨hseen p hp, List.mk_mem_zipIdx_iff_getElem?.1 hx⟩

/-- Every reference to a node is one of the slots, once all reachable nodes were seen. -/
theorem Refers.mem_slotsOf {seen : List NodeId} (hseen : ∀ n, b.Reaches n → n ∈ seen) {n : NodeId} :
    ∀ {s : Slot}, b.Refers s n → (s, n) ∈ b.slotsOf seen
  | .root i, h =>
    List.mem_append_left _ (List.mem_map.2 ⟨(n, i), List.mk_mem_zipIdx_iff_getElem?.2 h, rfl⟩)
  | .child m i, ⟨hm, h⟩ => by
    refine List.mem_append_right _ (List.mem_flatMap.2 ⟨m, hseen m hm, ?_⟩)
    exact List.mem_map.2 ⟨(n, i), List.mk_mem_zipIdx_iff_getElem?.2 h, rfl⟩

/-- A node that is reached is in some slot. -/
theorem Reaches.exists_refers {n : NodeId} (h : b.Reaches n) : ∃ s, b.Refers s n := by
  cases h with
  | root hs =>
    obtain ⟨i, hi⟩ := List.mem_iff_getElem?.1 (List.mem_map_of_mem (f := NodeId.stmt) hs)
    exact ⟨.root i, hi⟩
  | @child m _ hm hn =>
    obtain ⟨i, hi⟩ := List.mem_iff_getElem?.1 hn
    exact ⟨.child m i, hm, hi⟩

/-- If no node is in two slots, none lies below itself. A cycle through a node of the root block
would give it a second slot, and a cycle through a child runs through its only parent. -/
theorem not_below_itself (hone : ∀ n, b.Reaches n → ∃! s, b.Refers s n) {n : NodeId}
    (h : b.Reaches n) : ¬ Relation.TransGen (fun m c => c ∈ b.nodeChildren m) n n := by
  have hlast : ∀ {m : NodeId}, b.Reaches m →
      Relation.TransGen (fun m c => c ∈ b.nodeChildren m) m m →
      ∃ p i, b.Refers (.child p i) m ∧
        Relation.ReflTransGen (fun m c => c ∈ b.nodeChildren m) m p := by
    intro m hm hcycle
    obtain ⟨p, hp, hedge⟩ := Relation.TransGen.tail'_iff.1 hcycle
    obtain ⟨i, hi⟩ := List.mem_iff_getElem?.1 hedge
    exact ⟨p, i, ⟨hm.leadsTo hp, hi⟩, hp⟩
  induction h with
  | @root s hs =>
    intro hcycle
    obtain ⟨p, i, hpi, -⟩ := hlast (.root hs) hcycle
    obtain ⟨j, hj⟩ := List.mem_iff_getElem?.1 (List.mem_map_of_mem (f := NodeId.stmt) hs)
    have hroot : b.Refers (.root j) (.stmt s) := hj
    cases (hone _ (.root hs)).unique hpi hroot
  | @child n m hn hm ih =>
    intro hcycle
    obtain ⟨p, i, hpi, hp⟩ := hlast (.child hn hm) hcycle
    obtain ⟨j, hj⟩ := List.mem_iff_getElem?.1 hm
    have hchild : b.Refers (.child n j) m := ⟨hn, hj⟩
    obtain ⟨rfl, -⟩ := Slot.child.inj ((hone _ (.child hn hm)).unique hpi hchild)
    exact ih (.head' hm hp)

variable (b)

/-! ## The search -/

/-- The search from a stack, with no bound on its steps, and the result that it ends with. -/
inductive Searches : Visited → List NodeId → Option NodeId → Prop
  | done {visited : Visited} : Searches visited [] none
  | shared {visited : Visited} {n : NodeId} {stack : List NodeId} :
      visited.contains n = true → Searches visited (n :: stack) (some n)
  | visit {visited : Visited} {n : NodeId} {stack : List NodeId} {r : Option NodeId} :
      visited.contains n = false →
      Searches (visited.insert n) ((b.nodeChildren n).reverse ++ stack) r →
      Searches visited (n :: stack) r

variable {b}

/-- A search has at most one result. -/
theorem Searches.eq {visited : Visited} {stack : List NodeId} {r r' : Option NodeId}
    (h : b.Searches visited stack r) (h' : b.Searches visited stack r') : r = r' := by
  induction h with
  | done =>
    cases h'
    rfl
  | shared hc =>
    cases h' with
    | shared => rfl
    | visit hc' => simp [hc] at hc'
  | visit hc _ ih =>
    cases h' with
    | shared hc' => simp [hc] at hc'
    | visit _ h' => exact ih h'

variable (b) in
/-- A search that has met the nodes `seen`, all of them reachable, and goes on from those on
`stack`: the nodes of both are those that the slots of the root block and of `seen` refer to. -/
structure Searched (visited : Visited) (seen stack : List NodeId) : Prop
    extends b.Walked visited seen stack where
  reached : ∀ n ∈ seen, b.Reaches n
  perm : (seen ++ stack).Perm ((b.slotsOf seen).map Prod.snd)

variable (b) in
/-- At the start the root block is to be searched and nothing was seen. -/
theorem Searched.start : b.Searched {} [] (b.block.map .stmt) where
  nodup := .nil
  has := by simp
  visited_iff n := by cases n <;> simp [Visited.contains, IdSet.contains_iff]
  reaches n hn := by
    obtain ⟨s, hs, rfl⟩ := List.mem_map.1 hn
    exact .root hs
  reached := by simp
  perm := by rw [map_snd_slotsOf, List.flatMap_nil, List.append_nil, List.nil_append]

/-- The search goes on from a node to its children. -/
theorem Searched.step {visited : Visited} {seen stack : List NodeId} {n : NodeId}
    (h : b.Searched visited seen (n :: stack)) (hb : b.Has n) (hc : visited.contains n = false) :
    b.Searched (visited.insert n) (n :: seen) ((b.nodeChildren n).reverse ++ stack) where
  toWalked := by
    refine h.toWalked.step hb fun hn => ?_
    rw [(h.visited_iff n).2 hn] at hc
    cases hc
  reached := List.forall_mem_cons.2 ⟨h.reaches n List.mem_cons_self, h.reached⟩
  perm := by
    have hperm := h.perm
    rw [map_snd_slotsOf] at hperm ⊢
    calc (n :: seen ++ ((b.nodeChildren n).reverse ++ stack)).Perm
          (b.nodeChildren n ++ (seen ++ n :: stack)) := by
          have hrev := List.reverse_perm (b.nodeChildren n)
          grind
      _ |>.Perm (b.nodeChildren n ++ (b.block.map .stmt ++ seen.flatMap b.nodeChildren)) :=
        hperm.append_left _
      _ |>.Perm (b.block.map .stmt ++ (n :: seen).flatMap b.nodeChildren) := by
        rw [List.flatMap_cons]
        exact List.perm_append_comm_assoc ..

/-- A search sees no more nodes than the arenas have room for. -/
theorem Searched.length_le {visited : Visited} {seen stack : List NodeId}
    (h : b.Searched visited seen stack) : seen.length ≤ b.exprs.size + b.stmts.size :=
  b.length_le_of_has h.nodup h.has

/-- A bound with a step for every node not met yet, and one more, never ends the search. -/
theorem searches_findShared (hb : ∀ n, b.Reaches n → b.Has n) :
    ∀ {steps : Nat} {visited : Visited} {seen stack : List NodeId},
      b.Searched visited seen stack → b.exprs.size + b.stmts.size < steps + seen.length →
      b.Searches visited stack (b.findShared steps visited stack)
  | _, _, _, [], _, _ => by
    rw [findShared]
    exact .done
  | 0, _, seen, _ :: _, h, hlt => by
    have hle := h.length_le
    omega
  | steps + 1, visited, seen, n :: stack, h, hlt => by
    rw [findShared]
    split
    · next hc => exact .shared hc
    · next hc =>
      rw [Bool.not_eq_true] at hc
      have hstep := h.step (hb n (h.reaches n List.mem_cons_self)) hc
      exact .visit hc (searches_findShared hb hstep (by rw [List.length_cons]; omega))

/-- A search ends with an empty stack, or with a node on top of it that it has met. -/
theorem Searches.ends (hb : ∀ n, b.Reaches n → b.Has n) {visited : Visited} {stack : List NodeId}
    {r : Option NodeId} (h : b.Searches visited stack r) :
    ∀ {seen : List NodeId}, b.Searched visited seen stack →
      ∃ visited' seen' stack', b.Searched visited' seen' stack' ∧ stack'.head? = r ∧
        ∀ n, r = some n → n ∈ seen' := by
  induction h with
  | done => exact fun hs => ⟨_, _, _, hs, rfl, by simp⟩
  | @shared _ n _ hc =>
    intro seen hs
    refine ⟨_, _, _, hs, rfl, fun m hm => ?_⟩
    obtain rfl := Option.some.inj hm
    exact (hs.visited_iff n).1 hc
  | @visit _ n _ _ hc _ ih =>
    exact fun hs => ih (hs.step (hb n (hs.reaches n List.mem_cons_self)) hc)

/-! ## What it decides -/

/-- Once the stack is empty, whatever is reached has been met. -/
theorem Searched.mem_of_reaches {visited : Visited} {seen : List NodeId}
    (h : b.Searched visited seen []) {n : NodeId} (hn : b.Reaches n) : n ∈ seen := by
  have hperm := h.perm
  rw [List.append_nil, map_snd_slotsOf] at hperm
  induction hn with
  | root hs => exact hperm.mem_iff.2 (List.mem_append_left _ (List.mem_map_of_mem hs))
  | child _ hm ih =>
    exact hperm.mem_iff.2 (List.mem_append_right _ (List.mem_flatMap.2 ⟨_, ih, hm⟩))

/-- If the search ends without a finding, every node has one slot. -/
theorem Searched.existsUnique_refers {visited : Visited} {seen : List NodeId}
    (h : b.Searched visited seen []) {n : NodeId} (hn : b.Reaches n) : ∃! s, b.Refers s n := by
  have hall : ∀ m, b.Reaches m → m ∈ seen := fun m hm => h.mem_of_reaches hm
  have hnodup : ((b.slotsOf seen).map Prod.snd).Nodup := by
    have hperm := h.perm
    rw [List.append_nil] at hperm
    exact hperm.nodup_iff.1 h.nodup
  obtain ⟨s, hs⟩ := hn.exists_refers
  refine ⟨s, hs, fun t ht => ?_⟩
  have heq := List.inj_on_of_nodup_map hnodup (ht.mem_slotsOf hall) (hs.mem_slotsOf hall) rfl
  exact (Prod.mk.inj heq).1

/-- A node that the search meets again is in two slots. -/
theorem Searched.exists_two_refers {visited : Visited} {seen stack : List NodeId} {n : NodeId}
    (h : b.Searched visited seen (n :: stack)) (hn : n ∈ seen) :
    ∃ s t, s ≠ t ∧ b.Refers s n ∧ b.Refers t n := by
  have hdup : ((b.slotsOf seen).map Prod.snd).Duplicate n := by
    rw [List.duplicate_iff_two_le_count, ← h.perm.count_eq, List.count_append,
      List.count_cons_self]
    have hpos := List.count_pos_iff.2 hn
    omega
  obtain ⟨i, j, hij, hi, hj⟩ := List.duplicate_iff_exists_distinct_get.1 hdup
  simp only [List.get_eq_getElem, List.getElem_map] at hi hj
  have hilt : i.val < (b.slotsOf seen).length := by simpa using i.isLt
  have hjlt : j.val < (b.slotsOf seen).length := by simpa using j.isLt
  refine ⟨(b.slotsOf seen)[i.val].1, (b.slotsOf seen)[j.val].1, fun heq => ?_, ?_, ?_⟩
  · have hfst := nodup_map_fst_slotsOf (b := b) h.nodup
    have hi' : i.val < ((b.slotsOf seen).map Prod.fst).length := by simpa using hilt
    have hj' : j.val < ((b.slotsOf seen).map Prod.fst).length := by simpa using hjlt
    have hslot : ((b.slotsOf seen).map Prod.fst)[i.val] =
        ((b.slotsOf seen).map Prod.fst)[j.val] := by simpa using heq
    exact Nat.ne_of_lt hij (hfst.getElem_inj_iff.1 hslot)
  · refine .of_mem_slotsOf h.reached ?_
    rw [hi]
    exact List.getElem_mem hilt
  · refine .of_mem_slotsOf h.reached ?_
    rw [hj]
    exact List.getElem_mem hjlt

/-- The search ends, with `sharedNode?` as its only result. It finds no node if and only if every
reachable node is in exactly one slot, and then none lies below itself. A node that it finds is
reachable and in two slots. -/
theorem sharedNode_decides_slots (b : Body) (hb : ∀ n, b.Reaches n → b.Has n) :
    (∀ r, b.Searches {} (b.block.map .stmt) r ↔ r = b.sharedNode?) ∧
      (b.sharedNode? = none ↔ ∀ n, b.Reaches n → ∃! s, b.Refers s n) ∧
      (b.sharedNode? = none → ∀ n, b.Reaches n →
        ¬ Relation.TransGen (fun m c => c ∈ b.nodeChildren m) n n) ∧
      ∀ n, b.sharedNode? = some n →
        b.Reaches n ∧ ∃ s t, s ≠ t ∧ b.Refers s n ∧ b.Refers t n := by
  have hsearch : b.Searches {} (b.block.map .stmt) b.sharedNode? :=
    searches_findShared hb (.start b) (Nat.lt_succ_self _)
  obtain ⟨_, seen, stack, hend, hhead, hmet⟩ := hsearch.ends hb (.start b)
  have hnone : b.sharedNode? = none → ∀ n, b.Reaches n → ∃! s, b.Refers s n := by
    intro h n hn
    rw [h, List.head?_eq_none_iff] at hhead
    subst hhead
    exact hend.existsUnique_refers hn
  have hsome : ∀ n, b.sharedNode? = some n →
      b.Reaches n ∧ ∃ s t, s ≠ t ∧ b.Refers s n ∧ b.Refers t n := by
    intro n h
    obtain ⟨rest, rfl⟩ := List.head?_eq_some_iff.1 (hhead.trans h)
    exact ⟨hend.reaches n List.mem_cons_self, hend.exists_two_refers (hmet n h)⟩
  refine ⟨fun r => ⟨fun h => h.eq hsearch, fun h => h ▸ hsearch⟩, ⟨hnone, fun hone => ?_⟩,
    fun h n hn => not_below_itself (hnone h) hn, hsome⟩
  by_contra hne
  obtain ⟨n, h⟩ := Option.ne_none_iff_exists'.1 hne
  obtain ⟨hn, s, t, hst, hs, ht⟩ := hsome n h
  exact hst ((hone n hn).unique hs ht)

/-- A loop that is its own body. -/
def ownBody : Body where
  name := "ownBody"
  exprs := #[⟨.dummy, .lit (.bool true)⟩]
  stmts := #[⟨.dummy, .whileLoop 0 0⟩]
  block := [0]

theorem sharedNode_ownBody :
    (∀ n, ownBody.Reaches n → ownBody.Has n) ∧ ownBody.sharedNode? = some (.stmt 0) ∧
      ownBody.Searches {} [.stmt 0] (some (.stmt 0)) ∧ ownBody.Reaches (.stmt 0) ∧
      ∃ s t, s ≠ t ∧ ownBody.Refers s (.stmt 0) ∧ ownBody.Refers t (.stmt 0) := by
  have hhas : ∀ n, ownBody.Reaches n → ownBody.Has n :=
    ownBody.has_of_reaches (by decide) (by decide) (by decide)
  have hshared : ownBody.sharedNode? = some (.stmt 0) := by decide
  obtain ⟨hsearch, -, -, hsome⟩ := sharedNode_decides_slots ownBody hhas
  exact ⟨hhas, hshared, (hsearch _).2 hshared.symm, hsome _ hshared⟩

end Body

end Midend
