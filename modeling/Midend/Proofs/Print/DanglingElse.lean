import Midend.Body.Basic
import Midend.Proofs.Body.Shape
import Midend.Proofs.Print.Statements

/-!
# Where an `else` goes

The body of a branch or loop that is not a block is printed without braces, so an
`else` after it may be taken by an `if` in that body. Every `else` of the text of a
body belongs to its own `if` exactly where no body of an `if` with an `else` leaves an
`if` open at its end (`Body.attached_iff`).
-/

namespace Midend

open Nesting
open Text (Piece)

namespace Stmt

/-- An `else` goes to an open branch if there is one, and to its own otherwise. -/
theorem takeElse_cases (own : StmtId) : ∀ fs : List Frame,
    (∀ i, .branch i ∉ fs) ∧ (takeElse own fs).1 = own ∧ (takeElse own fs).2 = [] ∨
      .branch (takeElse own fs).1 ∈ fs ∧ .branch own ∈ (takeElse own fs).2
  | [] => .inl ⟨nofun, rfl, rfl⟩
  | .branch i :: fs =>
    .inr ⟨List.mem_cons_self, List.mem_append_right _ (List.mem_singleton_self _)⟩
  | .body :: fs | .group :: fs | .doBody :: fs => by
    rcases takeElse_cases own fs with ⟨hnone, htake, hrest⟩ | ⟨hmem, hown⟩
    · exact .inl ⟨fun i hi => hnone i ((List.mem_cons.1 hi).resolve_left nofun), htake, hrest⟩
    · exact .inr ⟨List.mem_cons_of_mem _ hmem, hown⟩

/-- What an `else` does not take stays open. -/
theorem mem_takeElse {own i : StmtId} : ∀ fs : List Frame,
    .branch i ∈ (takeElse own fs).2 → i = own ∨ .branch i ∈ fs
  | .branch j :: fs, h => by
    rcases List.mem_append.1 h with h | h
    · exact .inr (List.mem_cons_of_mem _ h)
    · exact .inl (Frame.branch.inj (List.mem_singleton.1 h))
  | .body :: fs, h | .group :: fs, h | .doBody :: fs, h =>
    (mem_takeElse fs h).imp_right (List.mem_cons_of_mem _)

theorem mem_openFrames_loop {fs : List Frame} {i : StmtId} :
    .branch i ∈ fs ++ [.body] ↔ .branch i ∈ fs := by simp

theorem mem_of_mem_cons_body {fs : List Frame} {i : StmtId} (h : .branch i ∈ Frame.body :: fs) :
    .branch i ∈ fs := by simpa using h

/-- The frames of `if`s that a statement leaves open are of statements in it. -/
theorem mem_ids_of_openFrames {s : Stmt} {i : StmtId} (h : .branch i ∈ s.openFrames) :
    i ∈ s.substmts.map Stmt.id := by
  induction s using ofChildren with
  | node id k ih =>
    have hchild : ∀ c ∈ k.stmtChildren, .branch i ∈ c.openFrames →
        i ∈ (node id k).substmts.map Stmt.id := by
      intro c hc hi
      obtain ⟨t, ht, rfl⟩ := List.mem_map.1 (ih c hc hi)
      exact List.mem_map_of_mem (substmts_subset hc ht)
    have hself : id ∈ (node id k).substmts.map Stmt.id := List.mem_map_of_mem (mem_substmts_self _)
    cases k with
    | branch c t f =>
      cases f with
      | none =>
        rcases List.mem_append.1 h with h | h
        · exact hchild t List.mem_cons_self h
        · exact Frame.branch.inj (List.mem_singleton.1 h) ▸ hself
      | some f =>
        rcases List.mem_append.1 h with h | h
        · exact hchild f (List.mem_cons_of_mem _ (List.mem_singleton_self _)) h
        · rcases mem_takeElse _ (mem_of_mem_cons_body h) with rfl | h
          · exact hself
          · exact hchild t List.mem_cons_self h
    | whileLoop c body | forEach v c body =>
      exact hchild body (List.mem_singleton_self _) (mem_openFrames_loop.1 h)
    | forLoop init c update body =>
      exact hchild body (List.mem_append_right _ (List.mem_singleton_self _))
        (mem_openFrames_loop.1 h)
    | _ => cases h

/-- A statement is left open when a branch is open at its end. -/
theorem leavesOpen_iff (s : Stmt) : s.leavesOpen = true ↔ ∃ i, .branch i ∈ s.openFrames := by
  induction s using ofChildren with
  | node id k ih =>
    have hnil : ¬∃ i, Frame.branch i ∈ [] := by simp
    cases k with
    | branch c t f =>
      cases f with
      | none => exact iff_of_true rfl ⟨id, List.mem_append_right _ (List.mem_singleton_self _)⟩
      | some f =>
        have ht := ih t List.mem_cons_self
        have hf := ih f (List.mem_cons_of_mem _ (List.mem_singleton_self _))
        rw [leavesOpen, Bool.or_eq_true, ht, hf, openFrames]
        constructor
        · rintro (⟨i, hi⟩ | ⟨i, hi⟩)
          · rcases takeElse_cases id t.openFrames with ⟨hnone, -⟩ | ⟨-, hown⟩
            · exact absurd hi (hnone i)
            · exact ⟨id, List.mem_append_right _ (List.mem_cons_of_mem _ hown)⟩
          · exact ⟨i, List.mem_append_left _ hi⟩
        · rintro ⟨i, hi⟩
          rcases List.mem_append.1 hi with hi | hi
          · exact .inr ⟨i, hi⟩
          · have hi := mem_of_mem_cons_body hi
            rcases takeElse_cases id t.openFrames with ⟨-, -, hrest⟩ | ⟨hmem, -⟩
            · rw [hrest] at hi
              cases hi
            · exact .inl ⟨_, hmem⟩
    | whileLoop c body | forEach v c body =>
      rw [leavesOpen, ih body (List.mem_singleton_self _), openFrames]
      exact exists_congr fun i => mem_openFrames_loop.symm
    | forLoop init c update body =>
      rw [leavesOpen, ih body (List.mem_append_right _ (List.mem_singleton_self _)), openFrames]
      exact exists_congr fun i => mem_openFrames_loop.symm
    | _ => exact iff_of_false Bool.false_ne_true hnil

/-- Where statements have different identifiers, an `else` is taken by its own `if` unless the body
before it leaves one open. -/
theorem taker_eq_iff {id : StmtId} {c : Expr} {t f : Stmt}
    (hn : ((node id (.branch c t (some f))).substmts.map Stmt.id).Nodup) :
    taker (node id (.branch c t (some f))) = id ↔ t.leavesOpen = false := by
  rw [taker, ← Bool.not_eq_true, leavesOpen_iff]
  rcases takeElse_cases id t.openFrames with ⟨hnone, htake, -⟩ | ⟨hmem, -⟩
  · exact iff_of_true htake fun ⟨i, hi⟩ => hnone i hi
  · refine iff_of_false (fun heq => ?_) fun h => h ⟨_, hmem⟩
    rw [substmts, List.map_cons, List.nodup_cons, substmtsOfKind, List.map_append] at hn
    rw [heq] at hmem
    exact hn.1 (List.mem_append_left _ (mem_ids_of_openFrames hmem))

/-- The branches with an `else` are those of the tree. -/
theorem mem_elseBranches {s x : Stmt} : x ∈ s.elseBranches ↔
    x ∈ s.substmts ∧ ∃ c t f, x.kind = .branch c t (some f) := by
  induction s using ofChildren with
  | node id k ih =>
    have hchildren : (∃ c ∈ k.stmtChildren, x ∈ c.elseBranches) ↔
        (∃ c ∈ k.stmtChildren, x ∈ c.substmts) ∧ ∃ c t f, x.kind = .branch c t (some f) := by
      constructor
      · rintro ⟨c, hc, hx⟩
        obtain ⟨hx, hk⟩ := (ih c hc).1 hx
        exact ⟨⟨c, hc, hx⟩, hk⟩
      · rintro ⟨⟨c, hc, hx⟩, hk⟩
        exact ⟨c, hc, (ih c hc).2 ⟨hx, hk⟩⟩
    rw [substmts, substmtsOfKind_eq, List.mem_cons, List.mem_flatMap, or_and_right, ← hchildren]
    by_cases hk : ∃ c t f, k = .branch c t (some f)
    · obtain ⟨c, t, f, rfl⟩ := hk
      have hself : (x = node id (.branch c t (some f)) ∧ ∃ c t f, x.kind = .branch c t (some f)) ↔
          x = node id (.branch c t (some f)) :=
        and_iff_left_of_imp fun h => ⟨c, t, f, h ▸ rfl⟩
      rw [hself, elseBranches]
      simp only [List.mem_append, List.mem_cons, StmtKind.stmtChildren, Option.toList,
        List.not_mem_nil, or_false, exists_eq_or_imp, exists_eq_left]
      tauto
    · have hnot : ¬(x = node id k ∧ ∃ c t f, x.kind = .branch c t (some f)) := by
        rintro ⟨rfl, h⟩
        exact hk h
      rw [elseBranches, elseBranchesOfKind_eq, List.mem_flatMap]
      · exact (or_iff_right hnot).symm
      · exact fun c t f h => hk ⟨c, t, f, h⟩

end Stmt

/-! ## Bodies -/

namespace Body

/-- The pieces of the source text of the root block. -/
def pieces (b : Body) : List Piece := Stmt.braced 0 (Stmt.lines b.scope 1 b.root)

/-- The source text is what the pieces are written as. -/
theorem text_eq (b : Body) : b.text = Piece.renderAll b.pieces := rfl

variable {b : Body}

/-- The `if` statements to which the `else`s of the text belong. -/
theorem attached_eq (hnames : ∀ s ∈ b.root.flatMap Stmt.substmts, s.Unreserved b.scope) :
    attached (b.root.flatMap Stmt.ifs) b.pieces =
      (b.root.flatMap Stmt.elseBranches).map Stmt.taker := by
  have hroot : ∀ s ∈ b.root, s.Scanned b.scope ∧ s.Unreserved b.scope := by
    intro s hs
    have hsub : ∀ t ∈ s.substmts, t.Unreserved b.scope :=
      fun t ht => hnames t (List.mem_flatMap.2 ⟨s, hs, ht⟩)
    exact ⟨Stmt.scanned hsub, hsub s (Stmt.mem_substmts_self s)⟩
  have hscans := Stmt.scans_braced hroot 0 1 [] [] []
  rw [List.append_nil] at hscans
  rw [attached, pieces, hscans, List.map_flatMap]
  rfl

/-- In a body that is a tree and has no reserved words for names, every `else` of the text belongs
to the statement whose it is if and only if no body before an `else` leaves an `if` open at its
end. -/
theorem attached_iff (hb : ∀ n, b.Reaches n → b.Has n) (htree : b.sharedNode? = none)
    (hnames : ∀ s ∈ b.root.flatMap Stmt.substmts, s.Unreserved b.scope) :
    attached (b.root.flatMap Stmt.ifs) b.pieces =
        (b.root.flatMap Stmt.elseBranches).map Stmt.id ↔
      ∀ s ∈ b.root.flatMap Stmt.substmts, ∀ c t f, s.kind = .branch c t (some f) →
        t.leavesOpen = false := by
  have hmem : ∀ {s : Stmt}, s ∈ b.root.flatMap Stmt.elseBranches ↔
      s ∈ b.root.flatMap Stmt.substmts ∧ ∃ c t f, s.kind = .branch c t (some f) := by
    intro s
    simp only [List.mem_flatMap, Stmt.mem_elseBranches]
    exact ⟨fun ⟨r, hr, hs, hk⟩ => ⟨⟨r, hr, hs⟩, hk⟩, fun ⟨⟨r, hr, hs⟩, hk⟩ => ⟨r, hr, hs, hk⟩⟩
  have hnodup : ∀ s ∈ b.root.flatMap Stmt.substmts, (s.substmts.map Stmt.id).Nodup := by
    intro s hs
    obtain ⟨r, hr, hs⟩ := List.mem_flatMap.1 hs
    have hsub := (Stmt.substmts_sublist hs).trans (sublist_flatMap hr)
    exact (hsub.map Stmt.id).nodup (Stmt.nodup_stmtIds (nodup_nodes hb htree))
  rw [attached_eq hnames, List.map_inj_left]
  constructor
  · intro h s hs c t f hk
    have htaker := h s (hmem.2 ⟨hs, c, t, f, hk⟩)
    have hn := hnodup s hs
    obtain ⟨id, k⟩ := s
    obtain rfl : k = .branch c t (some f) := hk
    exact (Stmt.taker_eq_iff hn).1 htaker
  · intro h s hs
    obtain ⟨hs, c, t, f, hk⟩ := hmem.1 hs
    have hopen := h s hs c t f hk
    have hn := hnodup s hs
    obtain ⟨id, k⟩ := s
    obtain rfl : k = .branch c t (some f) := hk
    exact (Stmt.taker_eq_iff hn).2 hopen

/-- `if (a) if (b) return 1;`, in braces or not, with `else return 2;` for the outer `if`. -/
def choosing (inBraces : Bool) : Body where
  name := "choosing"
  vars := #[⟨"a", .prim .boolean, .param, .dummy⟩, ⟨"b", .prim .boolean, .param, .dummy⟩]
  exprs := #[⟨.dummy, .var 0⟩, ⟨.dummy, .var 1⟩, ⟨.dummy, .lit (.int 1)⟩, ⟨.dummy, .lit (.int 2)⟩]
  stmts := #[⟨.dummy, .ret (some 2)⟩, ⟨.dummy, .branch 1 0 none⟩, ⟨.dummy, .block [1]⟩,
    ⟨.dummy, .ret (some 3)⟩, ⟨.dummy, .branch 0 (if inBraces then 2 else 1) (some 3)⟩]
  params := [0, 1]
  block := [4]

/-- With the unbraced inner branch the `else` goes astray. -/
theorem attached_iff_choosing :
    (∀ n, (choosing true).Reaches n → (choosing true).Has n) ∧
      (choosing true).sharedNode? = none ∧
      (∀ s ∈ (choosing true).root.flatMap Stmt.substmts, s.Unreserved (choosing true).scope) ∧
      attached ((choosing true).root.flatMap Stmt.ifs) (choosing true).pieces =
        ((choosing true).root.flatMap Stmt.elseBranches).map Stmt.id ∧
      ∀ s ∈ (choosing true).root.flatMap Stmt.substmts, ∀ c t f,
        s.kind = .branch c t (some f) → t.leavesOpen = false := by
  have hb := (choosing true).has_of_reaches (by decide) (by decide) (by decide)
  have htree : (choosing true).sharedNode? = none := by decide
  have hnames : ∀ s ∈ (choosing true).root.flatMap Stmt.substmts,
      s.Unreserved (choosing true).scope := by decide
  have hattached : attached ((choosing true).root.flatMap Stmt.ifs) (choosing true).pieces =
      ((choosing true).root.flatMap Stmt.elseBranches).map Stmt.id := by decide
  exact ⟨hb, htree, hnames, hattached, (attached_iff hb htree hnames).1 hattached⟩

/-- Without the braces, the `else` of the outer `if` belongs to the inner one. -/
theorem else_of_inner_if :
    (choosing false).Accepted ∧
      (∀ s ∈ (choosing false).root.flatMap Stmt.substmts, s.Unreserved (choosing false).scope) ∧
      (choosing false).text = "\x7b\n    if (a)\n        if (b)\n            return 1;\n" ++
        "    else\n        return 2;\n\x7d" ∧
      attached ((choosing false).root.flatMap Stmt.ifs) (choosing false).pieces = [1] ∧
      ((choosing false).root.flatMap Stmt.elseBranches).map Stmt.id = [4] := by
  have hb : (choosing false).Accepted :=
    ⟨(choosing false).has_of_reaches (by decide) (by decide) (by decide), by decide⟩
  exact ⟨hb, by decide, by decide, by decide, by decide⟩

end Body

end Midend
