import Midend.Proofs.Eval.Continue

/-!
# Labels

A run evaluates all the labels of a switch where it enters it. The evaluator comes
to the labels of a group in the context that the statements of the group before it
leave, which may know what these assign. The value that is recorded for a label is
right if nothing is known there of the locals that the label mentions and the
switch writes (`Body.labels_sound`), and may be wrong if something is
(`Body.labels_unsound_fallen`).
-/

namespace Midend

open Run Exec

variable {H : Type} {b : Body} {host : Host H} {V : VarId → Prop} {st st' : EvalState} {L : Stmt}
  {e selector : Expr} {cases : List (SwitchCase Expr Stmt)}

namespace Stmt

/-- The context in which an evaluation from `st` comes to a label of a switch. -/
def LabelContext (b : Body) (ss : List Stmt) (st : EvalState) (L : Stmt) (e : Expr)
    (c : Context) : Prop :=
  ∃ s d, (L, s, d) ∈ listContexts b ss st ∧ (L, e, c) ∈ labelContexts b L d

/-- What is claimed of one label, and of no other expression. -/
theorem welcomes_of_label (hb : b.Accepted) (hL : L ∈ b.root.flatMap substmts)
    (hk : L.kind = .switch selector cases) (he : e ∈ labels cases) (hreads : e.ReadsOnly V)
    (hknown : ∀ c, LabelContext b b.root st L e c → ∀ v ∈ L.written, V v → c.get v = .unknown) :
    Welcomes b (· ∉ e.subexprs) (fun _ _ => True) V (listContexts b b.root st) := by
  have hchild : e ∈ L.kind.exprChildren := hk ▸ mem_exprChildren_of_labels he
  have helsewhere : ∀ t ∈ b.root.flatMap substmts, ∀ x ∈ t.kind.exprChildren, x ≠ e →
      ∀ u ∈ x.subexprs, u ∉ e.subexprs := by
    intro t ht x hx hne u hu hue
    obtain rfl : t = L := hb.eq_of_mem_subexprs ht hL (List.mem_flatMap.2 ⟨x, hx, hu⟩)
      (List.mem_flatMap.2 ⟨e, hchild, hue⟩)
    exact hne (hb.eq_of_mem_exprChildren ht hx hchild hu hue)
  have honly : ∀ t ∈ b.root.flatMap substmts, e ∈ t.kind.exprChildren → t = L :=
    fun t ht hx => hb.eq_of_mem_subexprs ht hL
      (List.mem_flatMap.2 ⟨e, hx, e.mem_subexprs_self⟩)
      (List.mem_flatMap.2 ⟨e, hchild, e.mem_subexprs_self⟩)
  constructor
  · exact fun _ _ _ _ _ _ => trivial
  · intro t _ c hm _
    obtain ⟨ht, -⟩ := mem_listContexts hm
    rw [substmtsOfList_eq] at ht
    refine .inr fun x hx => ⟨helsewhere t ht x (mem_exprChildren_of_ends hx) ?_, fun _ => trivial⟩
    -- The ends of a loop are not labels of `L`, which is none.
    rintro rfl
    obtain rfl : t = L := honly t ht (mem_exprChildren_of_ends hx)
    exact ne_switch_of_ends hx selector cases hk
  · intro t s c hm selector' cases' hk' x hx
    obtain ⟨ht, -⟩ := mem_listContexts hm
    rw [substmtsOfList_eq] at ht
    have hx' : x ∈ t.kind.exprChildren := hk' ▸ mem_exprChildren_of_labels hx
    by_cases hne : x = e
    · subst hne
      obtain rfl : t = L := honly t ht hx'
      exact .inl ⟨V, hreads, fun d hd => hknown d ⟨s, c, hm, hd⟩⟩
    · exact .inr (helsewhere t ht x hx' hne)

end Stmt

namespace Body

/-- A label has its recorded value whenever a run comes to its switch, if the evaluator knows
nothing, where it evaluates the label, of the locals that the switch may write. What the label does
not mention may be left out. -/
theorem labels_sound {m m' : Machine H} {tr : List Event} {r : Ending Exit} (hb : b.Accepted)
    (herr : ∀ s ∈ b.root.flatMap Stmt.substmts, s.kind ≠ .err)
    (hL : L ∈ b.root.flatMap Stmt.substmts) (hk : L.kind = .switch selector cases)
    (he : e ∈ Stmt.labels cases) (hreads : e.ReadsOnly V)
    (hknown : ∀ c, Stmt.LabelContext b b.root st L e c →
      ∀ v ∈ L.written, V v → c.get v = .unknown)
    (heval : Stmt.evalList b b.root st = (.ok (), st')) (hm : st.context.Agrees m.locals)
    (hrun : Stmt.listRun (machine b host) b.root m tr r m') :
    ∀ d l, .value e d ∈ tr → st'.recorded.get? e.id = some (.known l) → d = .const l := by
  rw [← Stmt.substmtsOfList_eq] at herr
  have hfollows : Follows st' (· ∉ e.subexprs) (fun _ _ => True) st.context
      (Stmt.listRun (machine b host) b.root) _ st' :=
    Stmt.list_foretold (fun t ht => ⟨herr t ht, fun _ _ _ _ _ _ => trivial⟩)
      (Stmt.welcomes_of_label hb hL hk he hreads hknown) heval (.refl _)
  obtain ⟨hev, -⟩ := hfollows hrun hm
  intro d l hd hl
  exact (hev _ hd).eq_const (fun h => h e.mem_subexprs_self) hl

/-- A switch after the assignment of 2 to `x`. Its first group assigns 1 to `x` if `clash` and to
`y` if not, and `x` is the label of the second. -/
def fallen (clash : Bool) : Body where
  name := "fallen"
  vars := #[⟨"x", .prim .int, .param, .dummy⟩, ⟨"y", .prim .int, .param, .dummy⟩,
    ⟨"s", .prim .int, .param, .dummy⟩]
  exprs := #[⟨.dummy, .var 0⟩, ⟨.dummy, .lit (.int 2)⟩, ⟨.dummy, .assign 0 none 1⟩,
    ⟨.dummy, .var 2⟩, ⟨.dummy, .lit (.int 0)⟩, ⟨.dummy, .var (if clash then 0 else 1)⟩,
    ⟨.dummy, .lit (.int 1)⟩, ⟨.dummy, .assign 5 none 6⟩, ⟨.dummy, .var 0⟩]
  stmts := #[⟨.dummy, .expr 2⟩, ⟨.dummy, .expr 7⟩,
    ⟨.dummy, .switch 3 [⟨.dummy, [4], [1]⟩, ⟨.dummy, [8], []⟩]⟩]
  params := [0, 1, 2]
  block := [0, 2]

/-- A run that enters no group. The second label has the value 2. -/
theorem fallen_run (clash : Bool) (m : Machine H) :
    ∃ tr m', .value ((fallen clash).exprTree 8) (.const (.int 2)) ∈ tr ∧
      Stmt.listRun (machine (fallen clash) host) (fallen clash).root m tr (.done .normal) m' := by
  let M := machine (fallen clash) host
  let m₁ := m.set 0 (.const (.int 2))
  obtain ⟨tr₀, h₀⟩ : ∃ tr, ((fallen clash).stmtTree 0).run M m tr (.done .normal) m₁ := by
    cases clash <;> exact Stmt.assign_lit_run rfl rfl
  obtain ⟨tr₁, -, h₁⟩ : ∃ tr, .value ((fallen clash).exprTree 3) (m.locals 2) ∈ tr ∧
      M.eval ((fallen clash).exprTree 3) m₁ tr (.done ()) m₁ := by
    cases clash <;> exact Expr.eval_run (readLocal_iff.2 ⟨rfl, rfl, rfl⟩)
  obtain ⟨tr₂, -, h₂⟩ : ∃ tr, .value ((fallen clash).exprTree 4) (.const (.int 0)) ∈ tr ∧
      M.eval ((fallen clash).exprTree 4) m₁ tr (.done ()) m₁ := by
    cases clash <;> exact Expr.eval_run .intro
  obtain ⟨tr₃, hmem, h₃⟩ : ∃ tr, .value ((fallen clash).exprTree 8) (.const (.int 2)) ∈ tr ∧
      M.eval ((fallen clash).exprTree 8) m₁ tr (.done ()) m₁ := by
    cases clash <;> exact Expr.eval_run (readLocal_iff.2 ⟨rfl, rfl, rfl⟩)
  have hlabels : M.evalList [(fallen clash).exprTree 4, (fallen clash).exprTree 8] m₁ (tr₂ ++ tr₃)
      (.done ()) m₁ := .next h₂ (bind_silent h₃ .intro)
  have hswitch : ((fallen clash).stmtTree 2).run M m₁ (tr₁ ++ (tr₂ ++ tr₃)) (.done .normal) m₁ := by
    cases clash <;>
      exact bind_of_silent .pass (.next h₁ (bind_silent hlabels
        (bind_of_silent (.right (.right .intro)) .intro)))
  exact ⟨tr₀ ++ (tr₁ ++ (tr₂ ++ tr₃)), m₁, by simp [hmem], .next h₀ (bind_silent hswitch .intro)⟩

/-- The evaluation of the switch. -/
def fallenEval (clash : Bool) : Except EvalError Unit × EvalState :=
  Stmt.evalList (fallen clash) (fallen clash).root { observed := some ∅ }

theorem labels_sound_fallen :
    ∃ tr m', Stmt.listRun (machine (fallen false) .absent) (fallen false).root
        ⟨fun _ => .const .null, ()⟩ tr (.done .normal) m' ∧
      .value ((fallen false).exprTree 8) (.const (.int 2)) ∈ tr ∧
      ∀ d, .value ((fallen false).exprTree 8) d ∈ tr → d = .const (.int 2) := by
  obtain ⟨tr, m', hmem, hrun⟩ := fallen_run false ⟨fun _ => .const .null, ()⟩
  have hwritten : ∀ v ∈ ((fallen false).stmtTree 2).written.toList, v ≠ 0 := by decide
  have hreads : ((fallen false).exprTree 8).ReadsOnly (· = 0) := by
    intro s hs
    rw [List.mem_singleton.1 (hs : s ∈ [(fallen false).exprTree 8])]
    rfl
  have hvalue := @labels_sound Unit (fallen false) .absent (· = 0) { observed := some ∅ }
    (fallenEval false).2 ((fallen false).stmtTree 2) ((fallen false).exprTree 8)
    ((fallen false).exprTree 3) _ _ _ _ _
    ⟨has_of_reaches _ (by decide) (by decide) (by decide), by decide⟩ (by decide)
    (.tail _ (.head _)) rfl (.tail _ (.head _)) hreads
    (fun c _ v hv h => absurd h (hwritten v (IdSet.mem_toList.2 hv))) rfl
    (fun _ _ _ h => nomatch h) hrun
  exact ⟨tr, m', hrun, hmem, fun d hd => hvalue d _ hd rfl⟩

/-- The evaluator records that the second label has the value 1, which the first group assigns. -/
theorem labels_unsound_fallen :
    (fallen true).Accepted ∧ (fallenEval true).1 = .ok () ∧
      (fallenEval true).2.recorded.get? 8 = some (.known (.int 1)) ∧
      ∃ tr m', Stmt.listRun (machine (fallen true) .absent) (fallen true).root
          ⟨fun _ => .const .null, ()⟩ tr (.done .normal) m' ∧
        .value ((fallen true).exprTree 8) (.const (.int 2)) ∈ tr := by
  obtain ⟨tr, m', hmem, hrun⟩ := fallen_run true ⟨fun _ => .const .null, ()⟩
  exact ⟨⟨has_of_reaches _ (by decide) (by decide) (by decide), by decide⟩, rfl, rfl, tr, m', hrun,
    hmem⟩

end Body

end Midend
