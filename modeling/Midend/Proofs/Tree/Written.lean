import Midend.Tree.Stmt

/-!
# Locals that are written

A local that is assigned or declared somewhere in a tree is among those that the
tree is said to write, so what holds of those holds of every single write.
-/

namespace Midend

variable {w : IdSet}

/-- The local that an expression itself assigns is in `w`. -/
def Expr.AssignsIn (w : IdSet) : ExprKind Expr → Prop
  | .assign target .. | .unary (.step _) target => ∀ v ∈ target.localTarget?, v ∈ w
  | _ => True

/-- Every node of an expression assigns variables of the written set only. -/
theorem Expr.assignsIn_of_written {e : Expr} (hw : ∀ v ∈ e.written, v ∈ w) :
    ∀ s ∈ e.subexprs, AssignsIn w s.kind := by
  intro s hs
  have ht : ∀ t, s.target? = some t → ∀ v ∈ t.localTarget?, v ∈ w := by
    intro t ht v hv
    refine hw v (List.mem_filterMap.2 ⟨s, hs, ?_⟩)
    rw [ht]
    exact hv
  obtain ⟨id, kind⟩ := s
  change AssignsIn w kind
  cases kind with
  | assign t op r => exact ht t rfl
  | unary op t =>
    cases op with
    | step st => exact ht t rfl
    | _ => trivial
  | _ => trivial

/-- The locals that a statement itself declares or assigns are in `w`. -/
def Stmt.AssignsIn (w : IdSet) (k : StmtKind Expr Stmt) : Prop :=
  (∀ v ∈ k.declared, v ∈ w) ∧ ∀ e ∈ k.exprChildren, ∀ v ∈ e.written, v ∈ w

theorem Stmt.assignsIn_of_written {s : Stmt} (hw : ∀ v ∈ s.written, v ∈ w) :
    ∀ t ∈ s.substmts, AssignsIn w t.kind := by
  intro t ht
  refine ⟨fun v hv => hw v ?_, fun e he v hv => hw v ?_⟩
  · exact IdSet.mem_ofList.2 (List.mem_flatMap.2 ⟨t, ht, List.mem_append.2 (.inl hv)⟩)
  · refine IdSet.mem_ofList.2 (List.mem_flatMap.2 ⟨t, ht, List.mem_append.2 (.inr ?_)⟩)
    exact List.mem_flatMap.2 ⟨e, he, hv⟩

/-- The written set is the smallest that covers the assignments. -/
theorem Stmt.written_of_assignsIn {s : Stmt} (h : ∀ t ∈ s.substmts, AssignsIn w t.kind) :
    ∀ v ∈ s.written, v ∈ w := by
  intro v hv
  obtain ⟨t, ht, hv⟩ := List.mem_flatMap.1 (IdSet.mem_ofList.1 hv)
  rcases List.mem_append.1 hv with hv | hv
  · exact (h t ht).1 v hv
  · obtain ⟨e, he, hv⟩ := List.mem_flatMap.1 hv
    exact (h t ht).2 e he v hv

/-- The locals that any of the statements may write. -/
def Stmt.writtenByAll : List Stmt → IdSet
  | [] => ∅
  | s :: ss => s.written ∪ writtenByAll ss

/-- Statements assign variables of their common written set only. -/
theorem Stmt.assignsIn_writtenByAll {ss : List Stmt} (hw : ∀ v ∈ writtenByAll ss, v ∈ w) :
    ∀ t ∈ substmtsOfList ss, AssignsIn w t.kind := by
  induction ss with
  | nil => exact fun _ ht => absurd ht List.not_mem_nil
  | cons s ss ih =>
    intro t ht
    rcases List.mem_append.1 ht with ht | ht
    · exact assignsIn_of_written (fun v hv => hw v (IdSet.mem_union.2 (.inl hv))) t ht
    · exact ih (fun v hv => hw v (IdSet.mem_union.2 (.inr hv))) t ht

end Midend
