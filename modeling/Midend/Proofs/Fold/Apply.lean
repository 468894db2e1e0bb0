import Midend.Fold.Edit
import Midend.Proofs.Body.Trees

/-!
# Applying edits

Edits are applied one after the other to the same arenas. If every edit names a
slot of its parent, no two replace the same expression and none puts one back that
another replaces (`Ready`), then every edit finds the expression it replaces
(`Ready.found`), and afterwards each node names for each child what its edit put
there (`Ready.applied`).
-/

namespace Midend

/-! ## Slots of one layer -/

/-- `new` for `old`. -/
def swap {ε : Type} [DecidableEq ε] (old new e : ε) : ε := if e = old then new else e

section

variable {ε σ : Type} [DecidableEq ε] {old new : ε}

@[simp] theorem swap_self : swap old new old = new := if_pos rfl

theorem swap_of_ne {e : ε} (h : e ≠ old) : swap old new e = e := if_neg h

/-- A swap of what does not occur changes nothing. -/
theorem map_swap_of_not_mem {es : List ε} (h : old ∉ es) : es.map (swap old new) = es := by
  refine (List.map_congr_left fun e he => ?_).trans (List.map_id es)
  exact swap_of_ne (ne_of_mem_of_not_mem he h)

/-- A swap keeps how often any third element occurs. -/
theorem count_map_swap {e : ε} (ho : e ≠ old) (hn : e ≠ new) (es : List ε) :
    (es.map (swap old new)).count e = es.count e := by
  induction es with
  | nil => rfl
  | cons x es ih =>
    rw [List.map_cons, List.count_cons, List.count_cons, ih]
    congr 2
    by_cases hx : x = old
    · simp [hx, hn.symm, ho.symm]
    · rw [swap_of_ne hx]

/-- There is no first occurrence to swap. -/
theorem swapFirst_of_not_mem : ∀ {es : List ε}, old ∉ es → swapFirst old new es = none
  | [], _ => rfl
  | e :: es, h => by
    rw [List.mem_cons, not_or] at h
    rw [swapFirst, if_neg (Ne.symm h.1), swapFirst_of_not_mem h.2]
    rfl

/-- With one occurrence swapping the first one swaps them all. -/
theorem swapFirst_of_count :
    ∀ {es : List ε}, es.count old = 1 → swapFirst old new es = some (es.map (swap old new))
  | [], h => by simp at h
  | e :: es, h => by
    by_cases he : e = old
    · subst he
      rw [List.count_cons_self, Nat.add_eq_right] at h
      have hmem : e ∉ es := List.count_eq_zero.1 h
      rw [swapFirst, if_pos rfl, List.map_cons, swap_self, map_swap_of_not_mem hmem]
    · rw [List.count_cons_of_ne he] at h
      rw [swapFirst, if_neg he, swapFirst_of_count h, List.map_cons, swap_of_ne he]
      rfl

/-- An operand that occurs once is replaced by replacing it everywhere. -/
theorem ExprKind.replaceChild_of_count {k : ExprKind ε} (h : k.children.count old = 1) :
    k.replaceChild old new = some (k.map (swap old new)) := by
  cases k with
  | lit _ | var _ | err => simp [children] at h
  | field receiver name isStatic =>
    cases receiver with
    | none => simp [children] at h
    | some e => grind [children, replaceChild, map, swapSlot, swap]
  | call receiver callee args =>
    cases receiver with
    | none =>
      have hargs : args.count old = 1 := h
      simp [replaceChild, map, swapFirst_of_count hargs]
    | some e =>
      by_cases he : e = old
      · have hargs : old ∉ args := by
          simpa [children, he, List.count_eq_zero] using h
        simp [replaceChild, map, swapSlot, he, map_swap_of_not_mem hargs]
      · have hargs : args.count old = 1 := by
          simpa [children, he] using h
        simp [replaceChild, map, swapSlot, he, swap_of_ne he, swapFirst_of_count hargs]
  | create ty args =>
    have hargs : args.count old = 1 := h
    simp [replaceChild, map, swapFirst_of_count hargs]
  | _ => grind [children, replaceChild, map, swapSlot, swap]

/-- A swap of what is no label changes no case. -/
theorem map_swap_labels {cs : List (SwitchCase ε σ)} (h : old ∉ cs.flatMap (·.labels)) :
    cs.map (fun c => SwitchCase.mk c.span (c.labels.map (swap old new)) (c.body.map id)) = cs := by
  refine (List.map_congr_left fun c hc => ?_).trans (List.map_id cs)
  have hlabels : old ∉ c.labels := fun hm => h (List.mem_flatMap.2 ⟨c, hc, hm⟩)
  rw [map_swap_of_not_mem hlabels, List.map_id]
  rfl

/-- With one occurrence among the labels swapping the first one swaps them all. -/
theorem swapLabel_of_count :
    ∀ {cs : List (SwitchCase ε σ)}, (cs.flatMap (·.labels)).count old = 1 →
      swapLabel old new cs =
        some (cs.map fun c => ⟨c.span, c.labels.map (swap old new), c.body.map id⟩)
  | [], h => by simp at h
  | c :: cs, h => by
    rw [List.flatMap_cons, List.count_append] at h
    by_cases hc : old ∈ c.labels
    · have hpos := List.count_pos_iff.2 hc
      have hrest : old ∉ cs.flatMap (·.labels) := List.count_eq_zero.1 (by omega)
      rw [swapLabel, swapFirst_of_count (by omega), List.map_cons, map_swap_labels hrest]
      simp
    · have hzero := List.count_eq_zero.2 hc
      rw [swapLabel, swapFirst_of_not_mem hc, swapLabel_of_count (by omega), List.map_cons,
        map_swap_of_not_mem hc, List.map_id]
      rfl

/-- An expression that occurs once is replaced by replacing it everywhere. -/
theorem StmtKind.replaceChild_of_count {k : StmtKind ε σ} (h : k.exprChildren.count old = 1) :
    k.replaceChild old new = some (k.map (swap old new) id) := by
  cases k with
  | decl v init => cases init <;> grind [exprChildren, replaceChild, map, swapSlot, swap]
  | ret e => cases e <;> grind [exprChildren, replaceChild, map, swapSlot, swap]
  | assert cond message =>
    cases message <;> grind [exprChildren, replaceChild, map, swapSlot, swap]
  | branch cond onTrue onFalse =>
    cases onFalse <;> grind [exprChildren, replaceChild, map, swapSlot, swap]
  | forLoop init cond update body =>
    cases cond with
    | none =>
      have hupdate : update.count old = 1 := h
      simp [replaceChild, map, swapFirst_of_count hupdate]
    | some c =>
      by_cases hc : c = old
      · have hupdate : old ∉ update := by
          simpa [exprChildren, hc, List.count_eq_zero] using h
        simp [replaceChild, map, swapSlot, hc, map_swap_of_not_mem hupdate]
      · have hupdate : update.count old = 1 := by
          simpa [exprChildren, hc] using h
        simp [replaceChild, map, swapSlot, hc, swap_of_ne hc, swapFirst_of_count hupdate]
  | switch selector cases =>
    rw [exprChildren, List.count_cons] at h
    by_cases hs : selector = old
    · have hcases : old ∉ cases.flatMap (·.labels) := by
        simpa [hs, List.count_eq_zero] using h
      rw [map, map_swap_labels hcases]
      simp [replaceChild, swapSlot, hs]
    · have hcases : (cases.flatMap (·.labels)).count old = 1 := by
        simpa [hs] using h
      rw [replaceChild, swapLabel_of_count hcases, map, swapSlot, if_neg hs, swap_of_ne hs]
      rfl
  | block | guarded | breakOut | continueLoop | empty | err => simp [exprChildren] at h
  | _ => grind [exprChildren, replaceChild, map, swapSlot, swap]

end

/-! ## One edit -/

namespace Body

variable {b : Body}

/-- An expression that is added changes no other one. -/
theorem exprKind_push (n : Node (ExprKind ExprId)) (e : ExprId) :
    { b with exprs := b.exprs.push n }.exprKind e =
      if e = b.exprs.size then n.kind else b.exprKind e := by
  by_cases h : e = b.exprs.size <;> simp [exprKind, Array.getElem?_push, h]

/-- Setting one expression changes no other one. -/
theorem exprKind_set {n : Node (ExprKind ExprId)} {i : ExprId} (hi : i < b.exprs.size)
    (e : ExprId) :
    { b with exprs := b.exprs.setIfInBounds i n }.exprKind e =
      if e = i then n.kind else b.exprKind e := by
  by_cases h : e = i
  · simp [exprKind, h, hi]
  · simp [exprKind, Array.getElem?_setIfInBounds_ne (Ne.symm h), h]

/-- Setting one statement changes no other one. -/
theorem stmtKind_set {n : Node (StmtKind ExprId StmtId)} {i : StmtId} (hi : i < b.stmts.size)
    (s : StmtId) :
    { b with stmts := b.stmts.setIfInBounds i n }.stmtKind s =
      if s = i then n.kind else b.stmtKind s := by
  by_cases h : s = i
  · simp [stmtKind, h, hi]
  · simp [stmtKind, Array.getElem?_setIfInBounds_ne (Ne.symm h), h]

/-- The bodies have the same variables, parameters and root block, and as many statements. The
second has the expressions of the first, and may have more. -/
structure SameFrame (b c : Body) : Prop where
  vars : c.vars = b.vars
  params : c.params = b.params
  block : c.block = b.block
  stmts : c.stmts.size = b.stmts.size
  exprs : b.exprs.size ≤ c.exprs.size

theorem SameFrame.trans {c d : Body} (h : b.SameFrame c) (h' : c.SameFrame d) : b.SameFrame d where
  vars := h'.vars.trans h.vars
  params := h'.params.trans h.params
  block := h'.block.trans h.block
  stmts := h'.stmts.trans h.stmts
  exprs := Nat.le_trans h.exprs h'.exprs

/-- A body with the same frame has the same nodes. -/
theorem SameFrame.has {c : Body} (h : b.SameFrame c) : ∀ {n : NodeId}, b.Has n → c.Has n
  | .expr _, hn => Nat.lt_of_lt_of_le hn h.exprs
  | .stmt _, hn => Nat.lt_of_lt_of_eq hn h.stmts.symm

/-- The expressions that one node names are renamed. -/
structure Renamed (b : Body) (n : NodeId) (f : ExprId → ExprId) (c : Body) : Prop where
  frame : b.SameFrame c
  size : c.exprs.size = b.exprs.size
  expr : ∀ e, c.exprKind e = if .expr e = n then (b.exprKind e).map f else b.exprKind e
  stmt : ∀ s, c.stmtKind s = if .stmt s = n then (b.stmtKind s).map f id else b.stmtKind s

/-- Replacing the only occurrence renames it in that node and nowhere else. -/
theorem replaceExprIn_renamed {n : NodeId} {old : ExprId} (hhas : b.Has n)
    (hcount : (b.slots n).count old = 1) (new : ExprId) :
    ∃ c, b.replaceExprIn n old new = some c ∧ b.Renamed n (swap old new) c := by
  cases n with
  | expr i =>
    refine ⟨_, by rw [replaceExprIn, ExprKind.replaceChild_of_count hcount]; rfl, ?_⟩
    refine ⟨⟨rfl, rfl, rfl, rfl, by simp⟩, by simp, fun e => ?_, fun s => by simp [stmtKind]⟩
    rw [exprKind_set hhas]
    by_cases he : e = i <;> simp [he]
  | stmt i =>
    refine ⟨_, by rw [replaceExprIn, StmtKind.replaceChild_of_count hcount]; rfl, ?_⟩
    refine ⟨⟨rfl, rfl, rfl, by simp, by simp⟩, rfl, fun e => by simp [exprKind], fun s => ?_⟩
    rw [stmtKind_set hhas]
    by_cases hs : s = i <;> simp [hs]

end Body

namespace Edit

variable {b : Body} {e : Edit}

/-- What an edit puts in its slot, and the body to which a new literal has been added. -/
def placed (b : Body) (e : Edit) : ExprId × Body :=
  match e.rewrite with
  | .literal l => b.addExpr (b.exprSpan e.old) (.lit l)
  | .operand new => (new, b)

/-- The parent has the expression to replace in one of its slots. -/
def Found (b : Body) (e : Edit) : Prop :=
  ((e.placed b).2.replaceExprIn e.parent e.old (e.placed b).1).isSome = true

/-- An edit places its replacement and then puts it into the slot. -/
theorem applyEdit_eq (b : Body) (e : Edit) :
    b.applyEdit e =
      ((e.placed b).2.replaceExprIn e.parent e.old (e.placed b).1).getD (e.placed b).2 := by
  unfold Body.applyEdit placed
  cases e.rewrite <;> rfl

/-- Placing a replacement keeps the frame. -/
theorem frame_placed (b : Body) (e : Edit) : b.SameFrame (e.placed b).2 := by
  unfold placed
  cases e.rewrite with
  | literal l => exact ⟨rfl, rfl, rfl, rfl, by simp [Body.addExpr]⟩
  | operand x => exact ⟨rfl, rfl, rfl, rfl, Nat.le_refl _⟩

/-- Placing a replacement keeps the expressions that exist. -/
theorem exprKind_placed {i : ExprId} (hi : i < b.exprs.size) :
    (e.placed b).2.exprKind i = b.exprKind i := by
  unfold placed
  cases e.rewrite with
  | literal l =>
    refine (Body.exprKind_push ..).trans (if_neg ?_)
    exact Nat.ne_of_lt hi
  | operand x => rfl

theorem stmtKind_placed (i : StmtId) : (e.placed b).2.stmtKind i = b.stmtKind i := by
  unfold placed
  cases e.rewrite <;> rfl

/-- Placing a replacement keeps every slot. -/
theorem slots_placed {n : NodeId} (hn : b.Has n) : (e.placed b).2.slots n = b.slots n := by
  cases n with
  | expr i => rw [Body.slots, Body.slots, exprKind_placed hn]
  | stmt i => rw [Body.slots, Body.slots, stmtKind_placed]

/-- An edit that names a slot finds it. -/
theorem found_renamed (hhas : b.Has e.parent) (hcount : (b.slots e.parent).count e.old = 1) :
    e.Found b ∧
      (e.placed b).2.Renamed e.parent (swap e.old (e.placed b).1) (b.applyEdit e) := by
  rw [← slots_placed (e := e) hhas] at hcount
  obtain ⟨c, hc, hr⟩ :=
    Body.replaceExprIn_renamed ((frame_placed b e).has hhas) hcount (e.placed b).1
  rw [applyEdit_eq, Found, hc]
  exact ⟨rfl, hr⟩

end Edit

/-! ## All edits -/

/-- What an edit of the list puts in the slot of `n` that names `c`, if there is one. -/
def Edit.moved (es : List Edit) (σ : ExprId → ExprId) (n : NodeId) (c : ExprId) : ExprId :=
  if es.any fun e => e.parent = n ∧ e.old = c then σ c else c

/-- What no edit replaces is not moved. -/
theorem Edit.moved_of_not_mem {es : List Edit} {σ : ExprId → ExprId} {n : NodeId} {c : ExprId}
    (h : c ∉ es.map Edit.old) : moved es σ n c = c := by
  refine if_neg fun hany => ?_
  obtain ⟨e, he, hc⟩ := List.any_eq_true.1 hany
  exact h (List.mem_map.2 ⟨e, he, (of_decide_eq_true hc).2⟩)

/-- The first edit moves its slot, and the others those that they replace. -/
theorem Edit.moved_cons {e : Edit} {es : List Edit} {σ σ' : ExprId → ExprId} {new : ExprId}
    (hold : e.old ∉ es.map Edit.old) (hnew : new ∉ es.map Edit.old)
    (hσ : ∀ c, σ c = if c = e.old then new else σ' c) (n : NodeId) (c : ExprId) :
    moved (e :: es) σ n c = moved es σ' n (if n = e.parent then swap e.old new c else c) := by
  by_cases hc : c = e.old
  · subst hc
    by_cases hn : n = e.parent
    · rw [if_pos hn, swap_self, moved_of_not_mem hnew, moved, hσ]
      simp [hn]
    · have hskip : moved (e :: es) σ n e.old = moved es σ n e.old := by simp [moved, Ne.symm hn]
      rw [if_neg hn, hskip, moved_of_not_mem hold, moved_of_not_mem hold]
  · rw [swap_of_ne hc, ite_self, moved, moved, hσ, if_neg hc]
    simp [Ne.symm hc]

/-- What stands for an expression after an edit and then others, after which `σ` does. -/
def Edit.standing (b : Body) (e : Edit) (σ : ExprId → ExprId) (i : ExprId) : ExprId :=
  if i = e.old then (e.placed b).1 else σ i

/-- What an expression stood for before an edit and then others, where `origin` says it for the
others. -/
def Edit.originBefore (b : Body) (e : Edit) (origin : ExprId → ExprId) (i : ExprId) : ExprId :=
  if i = (e.placed b).1 ∧ b.exprs.size ≤ i then e.old else origin i

namespace Body

variable {b : Body} {es : List Edit}

/-- The edits can be applied in order. -/
structure Ready (b : Body) (es : List Edit) : Prop where
  nodup : (es.map Edit.old).Nodup
  has : ∀ e ∈ es, b.Has e.parent
  slot : ∀ e ∈ es, (b.slots e.parent).count e.old = 1
  old_lt : ∀ e ∈ es, e.old < b.exprs.size
  operand_lt : ∀ e ∈ es, ∀ x, e.rewrite = .operand x → x < b.exprs.size
  operand_kept : ∀ e ∈ es, ∀ x, e.rewrite = .operand x → x ∉ es.map Edit.old

/-- The edits have been applied: `σ` is what stands for an expression now, and `origin` is what a
new literal stands for. -/
structure Applied (b : Body) (es : List Edit) (σ origin : ExprId → ExprId) (c : Body) : Prop where
  frame : b.SameFrame c
  expr : ∀ i < b.exprs.size, c.exprKind i = (b.exprKind i).map (Edit.moved es σ (.expr i))
  stmt : ∀ i, c.stmtKind i = (b.stmtKind i).map (Edit.moved es σ (.stmt i)) id
  kept : ∀ i, i ∉ es.map Edit.old → σ i = i
  operand : ∀ e ∈ es, ∀ x, e.rewrite = .operand x → σ e.old = x
  literal : ∀ e ∈ es, ∀ l, e.rewrite = .literal l →
    b.exprs.size ≤ σ e.old ∧ σ e.old < c.exprs.size ∧ c.exprKind (σ e.old) = .lit l ∧
      origin (σ e.old) = e.old
  origin_of_lt : ∀ i < b.exprs.size, origin i = i

/-- What an edit puts in its slot is not replaced later. -/
theorem Ready.placed_not_mem {e : Edit} (h : b.Ready (e :: es)) :
    (e.placed b).1 ∉ (e :: es).map Edit.old := by
  unfold Edit.placed
  cases hr : e.rewrite with
  | literal l =>
    intro hm
    obtain ⟨d, hd, heq⟩ := List.mem_map.1 hm
    exact Nat.ne_of_lt (h.old_lt d hd) heq
  | operand x => exact h.operand_kept e List.mem_cons_self x hr

section

variable {e : Edit} (h : b.Ready (e :: es))

include h

/-- The first edit of a ready list finds its slot. -/
theorem Ready.renamed :
    (e.placed b).2.Renamed e.parent (swap e.old (e.placed b).1) (b.applyEdit e) :=
  (Edit.found_renamed (h.has e List.mem_cons_self) (h.slot e List.mem_cons_self)).2

theorem Ready.frame : b.SameFrame (b.applyEdit e) := (Edit.frame_placed b e).trans h.renamed.frame

/-- The later edits replace other expressions than the first. -/
theorem Ready.old_ne {d : Edit} (hd : d ∈ es) : d.old ≠ e.old := fun heq =>
  (List.nodup_cons.1 h.nodup).1 (heq ▸ List.mem_map_of_mem hd)

/-- After the first edit the others can be applied. -/
theorem Ready.tail : (b.applyEdit e).Ready es := by
  have hframe := h.frame
  have hr := h.renamed
  refine ⟨(List.nodup_cons.1 h.nodup).2,
    fun d hd => hframe.has (h.has d (List.mem_cons_of_mem _ hd)), fun d hd => ?_,
    fun d hd => Nat.lt_of_lt_of_le (h.old_lt d (List.mem_cons_of_mem _ hd)) hframe.exprs,
    fun d hd x hx => Nat.lt_of_lt_of_le (h.operand_lt d (List.mem_cons_of_mem _ hd) x hx)
      hframe.exprs,
    fun d hd x hx hm => h.operand_kept d (List.mem_cons_of_mem _ hd) x hx
      (List.mem_cons_of_mem _ hm)⟩
  have hslot := h.slot d (List.mem_cons_of_mem _ hd)
  have hhas := h.has d (List.mem_cons_of_mem _ hd)
  have hne := h.old_ne hd
  have hne' : d.old ≠ (e.placed b).1 := fun heq =>
    h.placed_not_mem (List.mem_cons_of_mem _ (heq ▸ List.mem_map_of_mem hd))
  rw [← Edit.slots_placed (e := e) hhas] at hslot
  rw [← hslot]
  cases hp : d.parent with
  | expr i =>
    rw [slots, slots, hr.expr]
    split
    · rw [ExprKind.children_map, count_map_swap hne hne']
    · rfl
  | stmt i =>
    rw [slots, slots, hr.stmt]
    split
    · rw [StmtKind.exprChildren_map, count_map_swap hne hne']
    · rfl

end

/-- Every edit finds the expression that it replaces. -/
theorem Ready.found :
    ∀ {es : List Edit} {b : Body}, b.Ready es →
      ∀ {done rest : List Edit} {e : Edit}, es = done ++ e :: rest → e.Found (b.applyEdits done)
  | [], _, _, done, _, _, heq => by simp at heq
  | d :: es, b, h, [], rest, e, heq => by
    obtain ⟨rfl, -⟩ := List.cons.inj heq
    exact (Edit.found_renamed (h.has d List.mem_cons_self) (h.slot d List.mem_cons_self)).1
  | d :: es, b, h, d' :: done, rest, e, heq => by
    obtain ⟨rfl, hrest⟩ := List.cons.inj heq
    exact h.tail.found hrest

section

variable {c : Body} {e : Edit} {σ origin : ExprId → ExprId} (h : b.Ready (e :: es))
  (ha : (b.applyEdit e).Applied es σ origin c)

theorem Ready.placed_lt (h : b.Ready (e :: es)) :
    (e.placed b).1 < (b.applyEdit e).exprs.size := by
  rw [h.renamed.size]
  unfold Edit.placed
  cases hr : e.rewrite with
  | literal l => simp [addExpr]
  | operand x => exact h.operand_lt e List.mem_cons_self x hr

/-- What the whole list moves is what its tail moves after the first edit. -/
theorem Ready.moved_cons (h : b.Ready (e :: es)) (n : NodeId) (i : ExprId) :
    Edit.moved (e :: es) (e.standing b σ) n i =
      Edit.moved es σ n (if n = e.parent then swap e.old (e.placed b).1 i else i) :=
  Edit.moved_cons (List.nodup_cons.1 h.nodup).1
    (fun hm => h.placed_not_mem (List.mem_cons_of_mem _ hm)) (fun _ => rfl) n i

include h ha

/-- The expressions after the whole list are those before it with their children moved. -/
theorem Ready.exprKind_cons {i : ExprId} (hi : i < b.exprs.size) :
    c.exprKind i = (b.exprKind i).map (Edit.moved (e :: es) (e.standing b σ) (.expr i)) := by
  rw [ha.expr i (Nat.lt_of_lt_of_le hi h.frame.exprs), h.renamed.expr, Edit.exprKind_placed hi]
  split
  · next hp =>
    rw [ExprKind.map_map]
    refine ExprKind.map_congr fun x _ => ?_
    rw [h.moved_cons, if_pos hp]
    rfl
  · next hp =>
    refine ExprKind.map_congr fun x _ => ?_
    rw [h.moved_cons, if_neg hp]

/-- The statements after the whole list are those before it with their expressions moved. -/
theorem Ready.stmtKind_cons (i : StmtId) :
    c.stmtKind i = (b.stmtKind i).map (Edit.moved (e :: es) (e.standing b σ) (.stmt i)) id := by
  rw [ha.stmt, h.renamed.stmt, Edit.stmtKind_placed]
  split
  · next hp =>
    rw [StmtKind.map_map]
    refine StmtKind.map_congr_exprs fun x _ => ?_
    rw [h.moved_cons, if_pos hp]
    rfl
  · next hp =>
    refine StmtKind.map_congr_exprs fun x _ => ?_
    rw [h.moved_cons, if_neg hp]

/-- The literal that the first edit adds is the next expression of the arena. -/
theorem Ready.literal_first {l : Literal} (hl : e.rewrite = .literal l) :
    (e.placed b).1 = b.exprs.size ∧ b.exprs.size < c.exprs.size ∧
      c.exprKind b.exprs.size = .lit l := by
  have hnext : (e.placed b).1 = b.exprs.size := by
    rw [Edit.placed, hl]
    rfl
  have hlt : b.exprs.size < (b.applyEdit e).exprs.size := hnext ▸ h.placed_lt
  have hkind : (e.placed b).2.exprKind b.exprs.size = .lit l := by
    rw [Edit.placed, hl]
    exact (exprKind_push ..).trans (if_pos rfl)
  have hparent : NodeId.expr b.exprs.size ≠ e.parent := by
    intro hp
    have hhas := h.has e List.mem_cons_self
    rw [← hp] at hhas
    exact Nat.lt_irrefl _ hhas
  refine ⟨hnext, Nat.lt_of_lt_of_le hlt ha.frame.exprs, ?_⟩
  rw [ha.expr _ hlt, h.renamed.expr, if_neg hparent, hkind]
  rfl

/-- One edit, and then the others. -/
theorem Ready.applied_cons :
    b.Applied (e :: es) (e.standing b σ) (e.originBefore b origin) c where
  frame := h.frame.trans ha.frame
  expr _ hi := h.exprKind_cons ha hi
  stmt i := h.stmtKind_cons ha i
  kept i hi := by
    rw [List.map_cons, List.mem_cons, not_or] at hi
    rw [Edit.standing, if_neg hi.1]
    exact ha.kept i hi.2
  operand d hd x hx := by
    unfold Edit.standing
    rcases List.mem_cons.1 hd with rfl | hd
    · rw [if_pos rfl, Edit.placed, hx]
    · rw [if_neg (h.old_ne hd)]
      exact ha.operand d hd x hx
  literal d hd l hl := by
    unfold Edit.standing Edit.originBefore
    rcases List.mem_cons.1 hd with rfl | hd
    · obtain ⟨hnext, hlt, hkind⟩ := h.literal_first ha hl
      simp only [if_pos, hnext]
      exact ⟨Nat.le_refl _, hlt, hkind, by simp⟩
    · obtain ⟨hle, hlt, hkind, horigin⟩ := ha.literal d hd l hl
      simp only [if_neg (h.old_ne hd)]
      refine ⟨Nat.le_trans h.frame.exprs hle, hlt, hkind, ?_⟩
      rw [if_neg fun hc => ?_]
      · exact horigin
      · exact Nat.lt_irrefl _ (Nat.lt_of_lt_of_le h.placed_lt (hc.1 ▸ hle))
  origin_of_lt i hi := by
    rw [Edit.originBefore, if_neg fun hc => Nat.lt_irrefl _ (Nat.lt_of_lt_of_le hi hc.2)]
    exact ha.origin_of_lt i (Nat.lt_of_lt_of_le hi h.frame.exprs)

end

/-- Without edits the body stands as it is. -/
theorem applied_nil (b : Body) : b.Applied [] id id b where
  frame := ⟨rfl, rfl, rfl, rfl, Nat.le_refl _⟩
  expr _ _ := (ExprKind.map_eq_self fun _ _ => Edit.moved_of_not_mem (by simp)).symm
  stmt _ := (StmtKind.map_eq_self (fun _ _ => Edit.moved_of_not_mem (by simp)) fun _ _ => rfl).symm
  kept _ _ := rfl
  operand := by simp
  literal := by simp
  origin_of_lt _ _ := rfl

/-- After the edits each node names what they put in its slots. -/
theorem Ready.applied :
    ∀ {es : List Edit} {b : Body}, b.Ready es →
      ∃ σ origin, b.Applied es σ origin (b.applyEdits es)
  | [], b, _ => ⟨id, id, b.applied_nil⟩
  | e :: es, b, h => by
    obtain ⟨σ, origin, ha⟩ := h.tail.applied
    exact ⟨_, _, h.applied_cons ha⟩

end Body

end Midend
