import Mathlib.Data.List.Basic
import Midend.Proofs.Body.Shape

/-!
# Slots of a layer

The operands of a layer of an expression, and the expressions of a layer of a
statement, are what its slots hold. Two enumerations of the slots have to agree: the
list of what they hold, and the replacement of the first one that holds a given
operand. `Swaps` says of one part of a layer that they do. A part is a slot, a slot
that may be absent, a list of slots or the labels of a switch (`Swaps.slot`,
`Swaps.option`, `Swaps.list`, `Swaps.labels`), and parts are put together in the order
in which their slots are listed (`Swaps.ofPart`, `Swaps.orElse`).

A layer without what its slots hold is its shape, and it is known from its shape and
its slots (`ExprKind.ext_children`, `StmtKind.ext_exprChildren`): there is no slot that
the list leaves out. So a replacement succeeds exactly where a slot holds the operand,
and then it changes the first such slot and nothing else (`replaceChild_swaps_first`).
-/

namespace Midend

/-! ## Shapes -/

section

variable {ε σ : Type}

/-- A slot, with what it holds left out. -/
def unitOf (_ : ε) : Unit := ()

/-- The group with its labels left blank. -/
def SwitchCase.shape (c : SwitchCase ε σ) : SwitchCase Unit σ :=
  ⟨c.span, c.labels.map unitOf, c.body⟩

/-- The layer without what its slots hold. -/
def ExprKind.shape (k : ExprKind ε) : ExprKind Unit := k.map unitOf

/-- The layer without what its slots for expressions hold. Nested statements are kept. -/
def StmtKind.shape (k : StmtKind ε σ) : StmtKind Unit σ := k.map unitOf id

theorem StmtKind.shape_switch (selector : ε) (cases : List (SwitchCase ε σ)) :
    (switch selector cases).shape = switch () (cases.map SwitchCase.shape) := by
  simp [shape, map, SwitchCase.shape, unitOf]

/-- The shape determines the nested statements. -/
theorem StmtKind.stmtChildren_of_shape {k k' : StmtKind ε σ} (h : k'.shape = k.shape) :
    k'.stmtChildren = k.stmtChildren := by
  have hchildren := congrArg stmtChildren h
  rwa [shape, shape, stmtChildren_map, stmtChildren_map, List.map_id, List.map_id] at hchildren

theorem eq_of_toList {o o' : Option ε} (h : o.toList = o'.toList) : o = o' := by
  cases o <;> cases o' <;> simp_all

/-- Whether there is the first slot decides which of the two lists the next slot begins. -/
theorem eq_of_toList_append {o o' : Option ε} {es es' : List ε}
    (hs : o.map unitOf = o'.map unitOf) (h : o.toList ++ es = o'.toList ++ es') :
    o = o' ∧ es = es' := by
  cases o <;> cases o' <;> simp_all

/-- Cases of one shape with the same labels are the same. -/
theorem eq_of_flatMap_labels :
    ∀ {cs cs' : List (SwitchCase ε σ)}, cs.map SwitchCase.shape = cs'.map SwitchCase.shape →
      cs.flatMap (·.labels) = cs'.flatMap (·.labels) → cs = cs'
  | [], [], _, _ => rfl
  | ⟨span, ls, body⟩ :: cs, ⟨span', ls', body'⟩ :: cs', hs, h => by
    simp only [List.map_cons, SwitchCase.shape, List.cons.injEq, SwitchCase.mk.injEq] at hs
    obtain ⟨⟨rfl, hlabels, rfl⟩, hs⟩ := hs
    have hlength : ls.length = ls'.length := by
      simpa using congrArg List.length hlabels
    rw [List.flatMap_cons, List.flatMap_cons] at h
    obtain ⟨hls, hrest⟩ := List.append_inj h hlength
    obtain rfl : ls = ls' := hls
    rw [eq_of_flatMap_labels hs hrest]

/-- A layer is known from its shape and its operands. -/
theorem ExprKind.ext_children {k k' : ExprKind ε} (hs : k.shape = k'.shape)
    (h : k.children = k'.children) : k = k' := by
  cases k <;> cases k' <;> simp only [shape, map, children] at hs h <;> simp_all
  case field.field => exact eq_of_toList h
  case call.call => exact eq_of_toList_append hs.1 h

/-- A layer is known from its shape and its expressions. -/
theorem StmtKind.ext_exprChildren {k k' : StmtKind ε σ} (hs : k.shape = k'.shape)
    (h : k.exprChildren = k'.exprChildren) : k = k' := by
  cases k <;> cases k'
  case switch.switch selector cs selector' cs' =>
    rw [shape_switch, shape_switch, switch.injEq] at hs
    obtain ⟨rfl, hlabels⟩ := List.cons.inj h
    rw [eq_of_flatMap_labels hs.2 hlabels]
  all_goals simp only [shape, map, exprChildren] at hs h
  all_goals simp_all
  case decl.decl => exact eq_of_toList h
  case forLoop.forLoop => exact eq_of_toList_append hs.2.1 h
  case assert.assert => exact eq_of_toList h.2
  case ret.ret => exact eq_of_toList h

end

/-! ## Parts of a layer -/

section

variable {ε σ κ α β τ υ : Type} [DecidableEq ε] {old new : ε}

/-- `r` is the part `k` after `new` is put into the first of its slots that holds `old`, if there is
one. -/
structure Swaps (old new : ε) (slots : κ → List ε) (shape : κ → τ) (k : κ) (r : Option κ) :
    Prop where
  isSome_iff : r.isSome = true ↔ old ∈ slots k
  slots_eq : ∀ k', r = some k' → slots k' = (slots k).replace old new
  shape_eq : ∀ k', r = some k' → shape k' = shape k

namespace Swaps

variable {slots : κ → List ε} {shape : κ → τ} {slotsA : α → List ε} {shapeA : α → υ}
  {slotsB : β → List ε} {shapeB : β → σ}

theorem none {k : κ} (h : slots k = []) : Swaps old new slots shape k none :=
  ⟨by simp [h], nofun, nofun⟩

/-- One slot is swapped when it holds the old child. -/
theorem slot (e : ε) : Swaps old new (fun e => [e]) unitOf e (swapSlot old new e) := by
  unfold swapSlot
  by_cases he : e = old
  · subst he
    rw [if_pos rfl]
    exact ⟨by simp, fun k' h => by simp [Option.some.inj h], fun _ _ => rfl⟩
  · rw [if_neg he]
    exact ⟨by simp [Ne.symm he], nofun, nofun⟩

/-- An optional slot is swapped when it is filled with the old child. -/
theorem option (o : Option ε) :
    Swaps old new Option.toList (Option.map unitOf) o ((o.bind (swapSlot old new)).map some) := by
  cases o with
  | none => exact .none rfl
  | some e =>
    have h : Swaps old new (fun e => [e]) unitOf e (swapSlot old new e) := slot e
    refine ⟨by simpa using h.isSome_iff, fun k' hk => ?_, fun k' hk => ?_⟩
    · obtain ⟨e', he', rfl⟩ := Option.map_eq_some_iff.1 hk
      exact h.slots_eq e' he'
    · obtain ⟨e', -, rfl⟩ := Option.map_eq_some_iff.1 hk
      rfl

/-- In a list the first slot that holds the old child is swapped. -/
theorem list (es : List ε) :
    Swaps old new id (List.map unitOf) es (swapFirst old new es) := by
  induction es with
  | nil => exact .none rfl
  | cons e es ih =>
    by_cases he : e = old
    · subst he
      rw [swapFirst, if_pos rfl]
      exact ⟨by simp, fun k' h => by simp [← Option.some.inj h],
        fun k' h => by simp [← Option.some.inj h, unitOf]⟩
    · rw [swapFirst, if_neg he]
      refine ⟨?_, fun k' hk => ?_, fun k' hk => ?_⟩
      · rw [Option.isSome_map, ih.isSome_iff, id, id, List.mem_cons]
        exact (or_iff_right (Ne.symm he)).symm
      · obtain ⟨es', hes, rfl⟩ := Option.map_eq_some_iff.1 hk
        have hrest : es' = es.replace old new := ih.slots_eq es' hes
        rw [id, id, hrest, List.replace_cons, beq_eq_false_iff_ne.2 (Ne.symm he)]
      · obtain ⟨es', hes, rfl⟩ := Option.map_eq_some_iff.1 hk
        rw [List.map_cons, ih.shape_eq es' hes, List.map_cons]

/-- The only part of `k` that has slots. -/
theorem ofPart {a : α} {r : Option α} (h : Swaps old new slotsA shapeA a r) {f : α → κ}
    (hslots : ∀ a, slots (f a) = slotsA a)
    (hshape : ∀ a', shapeA a' = shapeA a → shape (f a') = shape (f a)) :
    Swaps old new slots shape (f a) (r.map f) := by
  refine ⟨?_, fun k' hk => ?_, fun k' hk => ?_⟩
  · rw [Option.isSome_map, h.isSome_iff, hslots]
  · obtain ⟨a', ha, rfl⟩ := Option.map_eq_some_iff.1 hk
    rw [hslots, hslots, h.slots_eq a' ha]
  · obtain ⟨a', ha, rfl⟩ := Option.map_eq_some_iff.1 hk
    exact hshape a' (h.shape_eq a' ha)

/-- Two parts, the second of which is changed only if the first is not. -/
theorem orElse {a : α} {r : Option α} (ha : Swaps old new slotsA shapeA a r)
    {b : β} {q : Option β} (hb : Swaps old new slotsB shapeB b q) {f : α → β → κ}
    (hslots : ∀ a b, slots (f a b) = slotsA a ++ slotsB b)
    (hshape : ∀ a' b', shapeA a' = shapeA a → shapeB b' = shapeB b →
      shape (f a' b') = shape (f a b)) :
    Swaps old new slots shape (f a b) ((r.map fun a => f a b) <|> q.map (f a)) := by
  cases r with
  | some a' =>
    have hmem : old ∈ slotsA a := ha.isSome_iff.1 rfl
    refine ⟨by simp [hslots, hmem], ?_, ?_⟩
    · rintro _ ⟨⟩
      rw [hslots, hslots, List.replace_append_left hmem, ha.slots_eq a' rfl]
    · rintro _ ⟨⟩
      exact hshape a' b (ha.shape_eq a' rfl) rfl
  | none =>
    have hmem : old ∉ slotsA a := fun h => nomatch ha.isSome_iff.2 h
    refine ⟨?_, ?_, ?_⟩
    · change (q.map (f a)).isSome = true ↔ _
      rw [Option.isSome_map, hb.isSome_iff, hslots, List.mem_append, or_iff_right hmem]
    · intro k' hk
      obtain ⟨b', hb', rfl⟩ := Option.map_eq_some_iff.1 hk
      rw [hslots, hslots, List.replace_append_right hmem, hb.slots_eq b' hb']
    · intro k' hk
      obtain ⟨b', hb', rfl⟩ := Option.map_eq_some_iff.1 hk
      exact hshape a b' rfl (hb.shape_eq b' hb')

/-- Among the labels of cases it is the first of all of them. -/
theorem labels (cs : List (SwitchCase ε σ)) :
    Swaps old new (List.flatMap (·.labels)) (List.map SwitchCase.shape) cs
      (swapLabel old new cs) := by
  induction cs with
  | nil => exact .none rfl
  | cons c cs ih =>
    have hlabels : Swaps old new id (List.map unitOf) c.labels (swapFirst old new c.labels) :=
      list c.labels
    have h : Swaps old new (List.flatMap (·.labels)) (List.map SwitchCase.shape) (c :: cs)
        (((swapFirst old new c.labels).map fun ls => ⟨c.span, ls, c.body⟩ :: cs) <|>
          (swapLabel old new cs).map (c :: ·)) :=
      hlabels.orElse ih (f := fun ls cs => ⟨c.span, ls, c.body⟩ :: cs) (fun _ _ => rfl)
        fun ls cs' hls hcs => by
          rw [List.map_cons, List.map_cons, hcs, SwitchCase.shape, hls, SwitchCase.shape]
    have hswap : swapLabel old new (c :: cs) =
        (((swapFirst old new c.labels).map fun ls => ⟨c.span, ls, c.body⟩ :: cs) <|>
          (swapLabel old new cs).map (c :: ·)) := by
      rw [swapLabel]
      cases swapFirst old new c.labels <;> rfl
    rw [hswap]
    exact h

end Swaps

/-! ## Layers -/

namespace ExprKind

/-- One case for each form of expression. -/
theorem replaceChild_swaps (k : ExprKind ε) :
    Swaps old new children shape k (k.replaceChild old new) := by
  cases k with
  | lit _ | var _ | err => exact .none rfl
  | field receiver name isStatic =>
    have h : Swaps old new children shape (field receiver name isStatic)
        (((receiver.bind (swapSlot old new)).map some).map fun r => field r name isStatic) :=
      (Swaps.option receiver).ofPart (f := fun r => field r name isStatic) (fun _ => rfl)
        fun r hr => by rw [shape, map, hr, shape, map]
    rwa [Option.map_map] at h
  | assign l op r =>
    exact (Swaps.slot l).orElse (Swaps.slot r) (f := fun l r => assign l op r) (fun _ _ => rfl)
      fun _ _ _ _ => rfl
  | binary l op r =>
    exact (Swaps.slot l).orElse (Swaps.slot r) (f := fun l r => binary l op r) (fun _ _ => rfl)
      fun _ _ _ _ => rfl
  | index l r =>
    exact (Swaps.slot l).orElse (Swaps.slot r) (f := index) (fun _ _ => rfl) fun _ _ _ _ => rfl
  | unary op e => exact (Swaps.slot e).ofPart (fun _ => rfl) fun _ _ => rfl
  | paren e => exact (Swaps.slot e).ofPart (fun _ => rfl) fun _ _ => rfl
  | cast ty e => exact (Swaps.slot e).ofPart (fun _ => rfl) fun _ _ => rfl
  | instanceOf e ty =>
    exact (Swaps.slot e).ofPart (f := fun e => instanceOf e ty) (fun _ => rfl) fun _ _ => rfl
  | conditional c t f =>
    have harms : Swaps old new (fun p : ε × ε => [p.1, p.2]) unitOf (t, f)
        (((swapSlot old new t).map fun t => (t, f)) <|> (swapSlot old new f).map (Prod.mk t)) :=
      (Swaps.slot t).orElse (Swaps.slot f) (fun _ _ => rfl) fun _ _ _ _ => rfl
    have h : Swaps old new children shape (conditional c t f) _ :=
      (Swaps.slot c).orElse harms (f := fun c p => conditional c p.1 p.2) (fun _ _ => rfl)
        fun _ _ _ _ => rfl
    simpa [replaceChild, Option.map_or, Function.comp_def] using h
  | call receiver callee args =>
    have h : Swaps old new children shape (call receiver callee args)
        ((((receiver.bind (swapSlot old new)).map some).map fun r => call r callee args) <|>
          (swapFirst old new args).map (call receiver callee)) :=
      (Swaps.option receiver).orElse (Swaps.list args) (f := fun r => call r callee)
        (fun _ _ => rfl) fun r es hr hes => by rw [shape, map, hr, hes, shape, map]
    rwa [Option.map_map] at h
  | create ty args =>
    exact (Swaps.list args).ofPart (fun _ => rfl) fun es hes => by rw [shape, map, hes, shape, map]

/-- The layer after a replacement: the same where no slot holds the operand. -/
def replaced (old new : ε) (k : ExprKind ε) : ExprKind ε := (k.replaceChild old new).getD k

end ExprKind

namespace StmtKind

/-- One case for each form of statement. -/
theorem replaceChild_swaps (k : StmtKind ε σ) :
    Swaps old new exprChildren shape k (k.replaceChild old new) := by
  cases k with
  | block _ | guarded _ _ _ _ | breakOut | continueLoop | empty | err => exact .none rfl
  | decl v init =>
    have h : Swaps old new exprChildren shape (decl v init : StmtKind ε σ)
        (((init.bind (swapSlot old new)).map some).map (decl v)) :=
      (Swaps.option init).ofPart (f := decl v) (fun _ => rfl)
        fun e he => by rw [shape, map, he, shape, map]
    rwa [Option.map_map] at h
  | ret e =>
    have h : Swaps old new exprChildren shape (ret e : StmtKind ε σ)
        (((e.bind (swapSlot old new)).map some).map ret) :=
      (Swaps.option e).ofPart (f := ret) (fun _ => rfl)
        fun e he => by rw [shape, map, he, shape, map]
    rwa [Option.map_map] at h
  | expr e => exact (Swaps.slot e).ofPart (fun _ => rfl) fun _ _ => rfl
  | throw e => exact (Swaps.slot e).ofPart (fun _ => rfl) fun _ _ => rfl
  | branch cond t f =>
    exact (Swaps.slot cond).ofPart (f := fun c => branch c t f) (fun _ => rfl) fun _ _ => rfl
  | whileLoop cond body =>
    exact (Swaps.slot cond).ofPart (f := fun c => whileLoop c body) (fun _ => rfl) fun _ _ => rfl
  | doLoop body cond => exact (Swaps.slot cond).ofPart (fun _ => rfl) fun _ _ => rfl
  | forEach v iterable body =>
    exact (Swaps.slot iterable).ofPart (f := fun e => forEach v e body) (fun _ => rfl)
      fun _ _ => rfl
  | forLoop init cond update body =>
    have h : Swaps old new exprChildren shape (forLoop init cond update body)
        ((((cond.bind (swapSlot old new)).map some).map fun c => forLoop init c update body) <|>
          (swapFirst old new update).map fun es => forLoop init cond es body) :=
      (Swaps.option cond).orElse (Swaps.list update) (f := fun c es => forLoop init c es body)
        (fun _ _ => rfl) fun c es hc hes => by rw [shape, map, hc, hes, shape, map]
    rwa [Option.map_map] at h
  | switch selector cases =>
    exact (Swaps.slot selector).orElse (Swaps.labels cases) (fun _ _ => rfl)
      fun _ cs _ hcs => by rw [shape_switch, hcs, shape_switch]
  | assert cond message =>
    have h : Swaps old new exprChildren shape (assert cond message : StmtKind ε σ)
        (((swapSlot old new cond).map fun cond => assert cond message) <|>
          ((message.bind (swapSlot old new)).map some).map (assert cond)) :=
      (Swaps.slot cond).orElse (Swaps.option message) (fun _ _ => rfl)
        fun c m _ hm => by rw [shape, map, hm, shape, map]
    rwa [Option.map_map] at h

/-- The layer after a replacement: the same where no slot holds the expression. -/
def replaced (old new : ε) (k : StmtKind ε σ) : StmtKind ε σ := (k.replaceChild old new).getD k

end StmtKind

/-! ## Replacements -/

namespace Swaps

variable {slots : κ → List ε} {shape : κ → τ} {k : κ} {r : Option κ}

/-- Without the old child nothing is changed. -/
theorem getD_of_not_mem (h : Swaps old new slots shape k r) (hmem : old ∉ slots k) :
    r.getD k = k := by
  cases r with
  | none => rfl
  | some k' => exact absurd (h.isSome_iff.1 rfl) hmem

/-- The first occurrence of the old child is replaced and no other slot. -/
theorem slots_getD (h : Swaps old new slots shape k r) :
    slots (r.getD k) = (slots k).replace old new := by
  cases r with
  | none =>
    have hmem : old ∉ slots k := fun hm => nomatch h.isSome_iff.2 hm
    exact (List.replace_of_not_mem hmem).symm
  | some k' => exact h.slots_eq k' rfl

/-- The shape is kept. -/
theorem shape_getD (h : Swaps old new slots shape k r) : shape (r.getD k) = shape k := by
  cases r with
  | none => rfl
  | some k' => exact h.shape_eq k' rfl

end Swaps

/-- In every layer a replacement succeeds exactly where a slot holds `old`. The layer afterwards has
the same shape, and in the list of its slots the first `old` is replaced by `new`; it is the only
such layer. A layer without a slot that holds `old` is left as it is. -/
theorem replaceChild_swaps_first (old new : ε) :
    (∀ k : ExprKind ε,
      ((k.replaceChild old new).isSome = true ↔ old ∈ k.children) ∧
      (k.replaced old new).children = k.children.replace old new ∧
      (k.replaced old new).shape = k.shape ∧
      (old ∉ k.children → k.replaced old new = k) ∧
      ∀ k' : ExprKind ε, k'.shape = k.shape → k'.children = k.children.replace old new →
        k' = k.replaced old new) ∧
    ∀ k : StmtKind ε σ,
      ((k.replaceChild old new).isSome = true ↔ old ∈ k.exprChildren) ∧
      (k.replaced old new).exprChildren = k.exprChildren.replace old new ∧
      (k.replaced old new).stmtChildren = k.stmtChildren ∧
      (k.replaced old new).shape = k.shape ∧
      (old ∉ k.exprChildren → k.replaced old new = k) ∧
      ∀ k' : StmtKind ε σ, k'.shape = k.shape → k'.exprChildren = k.exprChildren.replace old new →
        k' = k.replaced old new := by
  constructor
  · intro k
    have h : Swaps old new ExprKind.children ExprKind.shape k (k.replaceChild old new) :=
      k.replaceChild_swaps
    refine ⟨h.isSome_iff, h.slots_getD, h.shape_getD, h.getD_of_not_mem, fun k' hs hc => ?_⟩
    exact ExprKind.ext_children (hs.trans h.shape_getD.symm) (hc.trans h.slots_getD.symm)
  · intro k
    have h : Swaps old new StmtKind.exprChildren StmtKind.shape k (k.replaceChild old new) :=
      k.replaceChild_swaps
    have hstmts := StmtKind.stmtChildren_of_shape h.shape_getD
    refine ⟨h.isSome_iff, h.slots_getD, hstmts, h.shape_getD, h.getD_of_not_mem,
      fun k' hs hc => ?_⟩
    exact StmtKind.ext_exprChildren (hs.trans h.shape_getD.symm) (hc.trans h.slots_getD.symm)

/-- A call `e0.f(e1, e0, e1)`, in which `e2` replaces `e1` once and nothing replaces `e7`, and a
switch over `e0` with the labels `e1, e4` and `e4`, in which `e5` replaces the first `e4`. -/
theorem replaceChild_swaps_first_repeated :
    ((ExprKind.call (some 0) ⟨"A", "f", 3⟩ [1, 0, 1]).replaced 1 2 =
        .call (some 0) ⟨"A", "f", 3⟩ [2, 0, 1] ∧
      (ExprKind.call (some 0) ⟨"A", "f", 3⟩ [1, 0, 1]).replaced 7 2 =
        .call (some 0) ⟨"A", "f", 3⟩ [1, 0, 1]) ∧
    (StmtKind.switch 0 [⟨.dummy, [1, 4], [6]⟩, ⟨.dummy, [4], [7]⟩]).replaced 4 5 =
        StmtKind.switch 0 [⟨.dummy, [1, 5], [6]⟩, ⟨.dummy, [4], [7]⟩] ∧
      (StmtKind.switch 0 [⟨.dummy, [1, 4], [6]⟩, ⟨.dummy, [4], [7]⟩]).replaced 3 5 =
        StmtKind.switch 0 [⟨.dummy, [1, 4], [6]⟩, ⟨.dummy, [4], [7]⟩] := by
  obtain ⟨-, -, -, -, hcall⟩ :=
    (@replaceChild_swaps_first ℕ ℕ _ 1 2).1 (.call (some 0) ⟨"A", "f", 3⟩ [1, 0, 1])
  obtain ⟨-, -, -, hcall', -⟩ :=
    (@replaceChild_swaps_first ℕ ℕ _ 7 2).1 (.call (some 0) ⟨"A", "f", 3⟩ [1, 0, 1])
  obtain ⟨-, -, -, -, -, hswitch⟩ := (@replaceChild_swaps_first ℕ ℕ _ 4 5).2
    (.switch 0 [⟨.dummy, [1, 4], [6]⟩, ⟨.dummy, [4], [7]⟩])
  obtain ⟨-, -, -, -, hswitch', -⟩ := (@replaceChild_swaps_first ℕ ℕ _ 3 5).2
    (.switch 0 [⟨.dummy, [1, 4], [6]⟩, ⟨.dummy, [4], [7]⟩])
  exact ⟨⟨(hcall _ (by rfl) (by rfl)).symm, hcall' (by decide)⟩, (hswitch _ (by rfl) (by rfl)).symm,
    hswitch' (by decide)⟩

end

end Midend
