import Midend.Proofs.Analysis.Mended
import Midend.Proofs.Body.Trees
import Midend.Proofs.Effect.Recorded
import Midend.Proofs.Liveness.Heads

/-!
# Erroneous nodes

The passes do not agree on what an erroneous node may do. The effects of one are
all effects, and all variables are live before an erroneous statement. Everywhere
else an erroneous expression is a call without operands, and an erroneous
statement an empty one: what is live before the nodes of a body stays the same
when its erroneous expressions are replaced, and what it writes and how it is
evaluated when the statements are replaced too (`Body.passes_on_erroneous`). So a
local keeps its known value, and is not live, where such a node may read and write
it (`Body.erroneous_nodes_skipped`).
-/

namespace Midend

namespace Body

variable {b : Body}

/-! ## Kinds in trees -/

/-- A node of a tree that is erroneous in the arena is erroneous in the tree. -/
theorem kind_of_mem_exprTo :
    ∀ {d : Nat} {id : ExprId} {e : Expr}, e ∈ (b.exprTo d id).subexprs → b.exprKind e.id = .err →
      e.kind = .err
  | 0, _, _, he, _ => by rw [List.mem_singleton.1 he]; rfl
  | d + 1, id, e, he, hk => by
    rw [exprTo, Expr.subexprs, Expr.subexprsOfKind_eq, ExprKind.children_map] at he
    rcases List.mem_cons.1 he with rfl | he
    · rw [Expr.id] at hk
      rw [Expr.kind, hk]
      rfl
    · obtain ⟨c, hc, he⟩ := List.mem_flatMap.1 he
      obtain ⟨i, -, rfl⟩ := List.mem_map.1 hc
      exact kind_of_mem_exprTo he hk

/-- An erroneous statement of the arena is one in the tree, however deep it is unfolded. -/
theorem kind_of_mem_stmtTo :
    ∀ {d : Nat} {id : StmtId} {s : Stmt}, s ∈ (b.stmtTo d id).substmts → b.stmtKind s.id = .err →
      s.kind = .err
  | 0, _, _, hs, _ => by rw [List.mem_singleton.1 hs]; rfl
  | d + 1, id, s, hs, hk => by
    rw [stmtTo, Stmt.substmts, Stmt.substmtsOfKind_eq, StmtKind.stmtChildren_map] at hs
    rcases List.mem_cons.1 hs with rfl | hs
    · rw [Stmt.id] at hk
      rw [Stmt.kind, hk]
      rfl
    · obtain ⟨c, hc, hs⟩ := List.mem_flatMap.1 hs
      obtain ⟨i, -, rfl⟩ := List.mem_map.1 hc
      exact kind_of_mem_stmtTo hs hk

/-- A reachable statement that the arena holds as erroneous is erroneous in the tree. -/
theorem kind_of_mem_substmts {s : Stmt} (hs : s ∈ b.root.flatMap Stmt.substmts)
    (hk : b.stmtKind s.id = .err) : s.kind = .err := by
  obtain ⟨r, hr, hs⟩ := List.mem_flatMap.1 hs
  obtain ⟨i, -, rfl⟩ := List.mem_map.1 hr
  rw [stmtTree_eq_stmtTo] at hs
  exact kind_of_mem_stmtTo hs hk

/-- A reachable expression that the arena holds as erroneous is erroneous in the tree. -/
theorem kind_of_mem_allExprs {e : Expr} (he : e ∈ b.root.flatMap Stmt.allExprs)
    (hk : b.exprKind e.id = .err) : e.kind = .err := by
  obtain ⟨r, hr, he⟩ := List.mem_flatMap.1 he
  obtain ⟨t, ht, he⟩ := List.mem_flatMap.1 he
  obtain ⟨x, hx, he⟩ := List.mem_flatMap.1 he
  obtain ⟨i, -, rfl⟩ := List.mem_map.1 hr
  rw [stmtTree_eq_stmtTo] at ht
  obtain ⟨j, rfl⟩ := exists_eq_exprTree ht hx
  rw [exprTree_eq_exprTo] at he
  exact kind_of_mem_exprTo he hk

/-! ## Erroneous nodes in tables -/

/-- A reachable erroneous expression gets every effect. -/
theorem expr_effects_of_err (callees : CalleeEffects) {e : Expr}
    (he : e ∈ b.root.flatMap Stmt.allExprs) (hlt : e.id < b.exprs.size)
    (hk : b.exprKind e.id = .err) : (Effects.compute b callees).expr e.id = .all := by
  have hroles : ((b.root.flatMap Stmt.substmts).flatMap
      fun s => s.kind.exprChildren.flatMap Expr.roles).map Prod.snd =
        b.root.flatMap Stmt.allExprs := by
    simp only [List.map_flatMap, Expr.map_snd_roles]
    exact List.flatMap_assoc
  refine Effects.getD_record_of_forall ?_ ?_ (by simpa using hlt)
  · rintro entry hentry hid
    obtain ⟨⟨role, x⟩, hx, rfl⟩ := List.mem_map.1 hentry
    have hx : x ∈ b.root.flatMap Stmt.allExprs := hroles ▸ List.mem_map_of_mem hx
    have hkx : x.kind = .err := kind_of_mem_allExprs hx (by rw [show x.id = e.id from hid, hk])
    obtain ⟨i, k⟩ := x
    obtain rfl : k = .err := hkx
    cases role <;> rfl
  · rw [List.map_map]
    rw [← hroles] at he
    obtain ⟨p, hp, rfl⟩ := List.mem_map.1 he
    exact List.mem_map.2 ⟨p, hp, rfl⟩

/-- A reachable erroneous statement gets every effect. -/
theorem stmt_effects_of_err (callees : CalleeEffects) {s : Stmt}
    (hs : s ∈ b.root.flatMap Stmt.substmts) (hlt : s.id < b.stmts.size)
    (hk : b.stmtKind s.id = .err) : (Effects.compute b callees).stmt s.id = .all := by
  refine Effects.getD_record_of_forall ?_ ?_ (by simpa using hlt)
  · rintro entry hentry hid
    obtain ⟨u, hu, rfl⟩ := List.mem_map.1 hentry
    have hku : u.kind = .err := kind_of_mem_substmts hu (by rw [show u.id = s.id from hid, hk])
    obtain ⟨i, k⟩ := u
    obtain rfl : k = .err := hku
    rfl
  · rw [List.map_map]
    exact List.mem_map.2 ⟨s, hs, rfl⟩

/-- Every variable is live before an erroneous statement. -/
theorem live_of_err {s : Stmt} (hs : s ∈ b.root.flatMap Stmt.substmts) (hlt : s.id < b.stmts.size)
    (hk : b.stmtKind s.id = .err) {v : VarId} (hv : v < b.vars.size) :
    v ∈ (LivenessInfo.compute b).liveIn s.id := by
  rw [← Stmt.substmtsOfList_eq] at hs
  refine @LivenessInfo.liveIn_foldl_put_of_forall (v ∈ ·) s.id _ _ (fun live out hentry => ?_) ?_
    (by simpa using hlt)
  · obtain ⟨u, hu, hid, t, o, rfl⟩ := Stmt.listEntries_walksOver b.root {} ∅ s.id live out hentry
    rw [Stmt.substmtsOfList_eq] at hu
    have hku : u.kind = .err := kind_of_mem_substmts hu (by rw [hid, hk])
    obtain ⟨i, k⟩ := u
    obtain rfl : k = .err := hku
    exact IdSet.mem_union.2 (.inl (IdSet.mem_below.2 hv))
  · exact (Stmt.listEntries_stmtIds b.root {} ∅).mem_iff.2 (List.mem_map_of_mem hs)

/-! ## Mended bodies -/

end Body

/-- The layer with a call of `c` in the place of an erroneous expression. -/
def ExprKind.mended (c : Callee) : ExprKind ExprId → ExprKind ExprId
  | .err => .call none c []
  | k => k

/-- The layer with an empty statement in the place of an erroneous one. -/
def StmtKind.mended : StmtKind ExprId StmtId → StmtKind ExprId StmtId
  | .err => .empty
  | k => k

namespace Body

/-- The body with a call of `c` in the place of every erroneous expression and, if `skips`, an
empty statement in the place of every erroneous one. -/
def mended (b : Body) (c : Callee) (skips : Bool) : Body :=
  { b with
    exprs := b.exprs.map fun n => ⟨n.span, n.kind.mended c⟩
    stmts := b.stmts.map fun n => ⟨n.span, if skips then n.kind.mended else n.kind⟩ }

variable {b : Body} {c : Callee} {skips : Bool}

/-- Mending keeps the variables and the places of all nodes. -/
theorem sameText_mended : b.SameText (b.mended c skips) where
  varTy := rfl
  exprSpan := by
    funext id
    simp only [exprSpan, mended, Array.getElem?_map]
    cases b.exprs[id]? <;> rfl
  stmtSpan := by
    funext id
    simp only [stmtSpan, mended, Array.getElem?_map]
    cases b.stmts[id]? <;> rfl

/-- Only erroneous layers are mended, by the call of a method without arguments. -/
theorem exprKind_mended (id : ExprId) :
    (b.mended c skips).exprKind id = b.exprKind id ∨
      b.exprKind id = .err ∧ (b.mended c skips).exprKind id = .call none c [] := by
  simp only [exprKind, mended, Array.getElem?_map]
  cases b.exprs[id]? with
  | none => exact .inl rfl
  | some n =>
    obtain ⟨span, kind⟩ := n
    cases kind with
    | err => exact .inr ⟨rfl, rfl⟩
    | _ => exact .inl rfl

/-- Erroneous statements become empty ones, if they are to be skipped; others stay. -/
theorem stmtKind_mended (id : StmtId) :
    (b.mended c skips).stmtKind id = b.stmtKind id ∨
      skips = true ∧ b.stmtKind id = .err ∧ (b.mended c skips).stmtKind id = .empty := by
  simp only [stmtKind, mended, Array.getElem?_map]
  cases b.stmts[id]? with
  | none => exact .inl rfl
  | some n =>
    obtain ⟨span, kind⟩ := n
    cases skips with
    | false => exact .inl rfl
    | true =>
      cases kind with
      | err => exact .inr ⟨rfl, rfl, rfl⟩
      | _ => exact .inl rfl

/-- The unfolded expression is mended where it is erroneous. -/
theorem exprTo_mended : ∀ (d : Nat) (id : ExprId),
    ((b.mended c skips).exprTo d id).Mends c (b.exprTo d id)
  | 0, id => @Expr.Mends.layer c id .err (fun e => e) fun _ h => nomatch h
  | d + 1, id => by
    rw [exprTo, exprTo]
    rcases @exprKind_mended b c skips id with heq | ⟨herr, hcall⟩
    · have hmap : (b.exprKind id).map ((b.mended c skips).exprTo d) =
          ((b.exprKind id).map (b.exprTo d)).map fun t => (b.mended c skips).exprTo d t.id := by
        rw [ExprKind.map_map]
        exact ExprKind.map_congr fun e _ => by rw [Function.comp, id_exprTo]
      rw [heq, hmap]
      refine .layer fun e he => ?_
      rw [ExprKind.children_map] at he
      obtain ⟨i, -, rfl⟩ := List.mem_map.1 he
      rw [id_exprTo]
      exact exprTo_mended d i
    · rw [herr, hcall]
      exact .err

/-- The tree of an expression is mended where it is erroneous. -/
theorem exprTree_mended (id : ExprId) :
    ((b.mended c skips).exprTree id).Mends c (b.exprTree id) := by
  have hdepth : (b.mended c skips).treeDepth = b.treeDepth := by
    simp [treeDepth, mended]
  rw [exprTree_eq_exprTo, exprTree_eq_exprTo, hdepth]
  exact exprTo_mended _ id

/-- The unfolded statement is mended where it is erroneous. -/
theorem stmtTo_mended : ∀ (d : Nat) (id : StmtId),
    ((b.mended c skips).stmtTo d id).Mends c (skips = true) (b.stmtTo d id)
  | 0, id => @Stmt.Mends.layer c _ id .err (fun e => e) (fun s => s) (fun _ h => nomatch h)
      fun _ h => nomatch h
  | d + 1, id => by
    rw [stmtTo, stmtTo]
    rcases @stmtKind_mended b c skips id with heq | ⟨hskips, herr, hempty⟩
    · have hmap : (b.stmtKind id).map (b.mended c skips).exprTree ((b.mended c skips).stmtTo d) =
          ((b.stmtKind id).map b.exprTree (b.stmtTo d)).map
            (fun t => (b.mended c skips).exprTree t.id)
            fun t => (b.mended c skips).stmtTo d t.id := by
        rw [StmtKind.map_map]
        simp only [Function.comp_def, id_exprTree, id_stmtTo]
      rw [heq, hmap]
      refine .layer (fun e he => ?_) fun s hs => ?_
      · rw [StmtKind.exprChildren_map] at he
        obtain ⟨i, -, rfl⟩ := List.mem_map.1 he
        rw [id_exprTree]
        exact exprTree_mended i
      · rw [StmtKind.stmtChildren_map] at hs
        obtain ⟨i, -, rfl⟩ := List.mem_map.1 hs
        rw [id_stmtTo]
        exact stmtTo_mended d i
    · rw [herr, hempty]
      exact .err hskips

/-- The tree of a statement is mended where it is erroneous. -/
theorem stmtTree_mended (id : StmtId) :
    ((b.mended c skips).stmtTree id).Mends c (skips = true) (b.stmtTree id) := by
  have hsize : (b.mended c skips).stmts.size = b.stmts.size := by
    simp [mended]
  rw [stmtTree_eq_stmtTo, stmtTree_eq_stmtTo, hsize]
  exact stmtTo_mended _ id

/-- The root block of the mended body has the same statements, mended. -/
theorem root_mended :
    (b.mended c skips).root = b.root.map fun s => (b.mended c skips).stmtTree s.id := by
  rw [root, root, List.map_map]
  refine List.map_congr_left fun i _ => ?_
  rw [Function.comp, stmtTree_eq_stmtTo b, id_stmtTo]

/-- Each statement of the root block is mended where it is erroneous. -/
theorem mends_of_mem_root {s : Stmt} (hs : s ∈ b.root) :
    ((b.mended c skips).stmtTree s.id).Mends c (skips = true) s := by
  obtain ⟨i, -, rfl⟩ := List.mem_map.1 hs
  rw [stmtTree_eq_stmtTo b, id_stmtTo, ← stmtTree_eq_stmtTo]
  exact stmtTree_mended i

/-- The evaluator takes an erroneous expression for a call and an erroneous statement for an empty
one. -/
theorem evalList_mended :
    Stmt.evalList (b.mended c skips) (b.mended c skips).root = Stmt.evalList b b.root := by
  rw [root_mended]
  exact Stmt.evalList_map fun s hs => (mends_of_mem_root hs).eval sameText_mended

/-- Liveness walks over a call without arguments as over an erroneous expression. -/
theorem walks_mended (t : Targets) (o : IdSet) :
    Stmt.listIn b.allVars 1 t o (b.mended c false).root = Stmt.listIn b.allVars 1 t o b.root ∧
      Stmt.listEntries b.allVars 1 t o (b.mended c false).root =
        Stmt.listEntries b.allVars 1 t o b.root := by
  have h : ∀ s ∈ b.root, ((b.mended c false).stmtTree s.id).SameWalks b.allVars 1 s := by
    intro s hs
    have hm : ((b.mended c false).stmtTree s.id).Mends c (false = true) s := mends_of_mem_root hs
    rw [Bool.false_eq_true] at hm
    exact hm.sameWalks b.allVars 1
  rw [root_mended]
  exact ⟨Stmt.listIn_sameWalks h, Stmt.listEntries_sameWalks h⟩

end Body

namespace LivenessInfo

/-- The same variables are recorded as live before and after the same nodes. -/
structure SameLive (i j : LivenessInfo) : Prop where
  stmtIn : i.stmtIn = j.stmtIn
  stmtOut : i.stmtOut = j.stmtOut
  exprIn : i.exprIn = j.exprIn
  entry : i.entry = j.entry

theorem SameLive.foldl_put {i j : LivenessInfo} (h : i.SameLive j) (entries : List LiveEntry) :
    (entries.foldl put i).SameLive (entries.foldl put j) := by
  induction entries generalizing i j with
  | nil => exact h
  | cons entry entries ih =>
    refine ih ?_
    obtain ⟨hin, hout, hexpr, hentry⟩ := h
    cases entry with
    | expr id live => exact ⟨hin, hout, by simp only [put, hexpr], hentry⟩
    | stmt id live out => exact ⟨by simp only [put, hin], by simp only [put, hout], hexpr, hentry⟩

/-- The walk for live variables takes an erroneous expression for a call. -/
theorem sameLive_mended (b : Body) (c : Callee) :
    (compute (b.mended c false)).SameLive (compute b) := by
  have hentries := (b.walks_mended (c := c) {} ∅).2
  have hvars : (b.mended c false).allVars = b.allVars := rfl
  rw [compute, compute, computeWith, computeWith, hvars, hentries]
  refine SameLive.foldl_put ⟨?_, ?_, ?_, (Body.walks_mended {} ∅).1⟩ _
  · simp [Body.mended]
  · simp [Body.mended]
  · simp [Body.mended]

end LivenessInfo

namespace Body

/-- What each pass makes of the erroneous nodes of a body. Those that can be reached have all
effects, and before such a statement all variables are live. For everything that is found live, an
erroneous expression might as well call some routine without operands. For what is written and for
the evaluator an erroneous statement might as well be empty, too. -/
theorem passes_on_erroneous (b : Body) (callees : CalleeEffects) (c : Callee) :
    (∀ e ∈ b.root.flatMap Stmt.allExprs, e.id < b.exprs.size → b.exprKind e.id = .err →
      (Effects.compute b callees).expr e.id = .all) ∧
    (∀ s ∈ b.root.flatMap Stmt.substmts, s.id < b.stmts.size → b.stmtKind s.id = .err →
      (Effects.compute b callees).stmt s.id = .all ∧
        ∀ v < b.vars.size, v ∈ (LivenessInfo.compute b).liveIn s.id) ∧
    (LivenessInfo.compute (b.mended c false)).SameLive (LivenessInfo.compute b) ∧
    (∀ id, ((b.mended c true).stmtTree id).written = (b.stmtTree id).written) ∧
    Stmt.evalList (b.mended c true) (b.mended c true).root = Stmt.evalList b b.root := by
  refine ⟨fun e he hlt hk => expr_effects_of_err callees he hlt hk, fun s hs hlt hk => ?_,
    LivenessInfo.sameLive_mended b c, fun id => (stmtTree_mended id).written, evalList_mended⟩
  exact ⟨stmt_effects_of_err callees hs hlt hk, fun v hv => live_of_err hs hlt hk hv⟩

/-- A local with a known value, and after it an erroneous statement and an erroneous expression. -/
def skipped : Body where
  name := "skipped"
  vars := #[⟨"x", .prim .int, .localVar, .dummy⟩]
  exprs := #[⟨.dummy, .lit (.int 1)⟩, ⟨.dummy, .err⟩]
  stmts := #[⟨.dummy, .decl 0 (some 0)⟩, ⟨.dummy, .err⟩, ⟨.dummy, .expr 1⟩]
  block := [0, 1, 2]

/-- An erroneous statement gets every effect and writes nothing in this body. -/
theorem passes_on_erroneous_skipped :
    (Effects.compute skipped noSignatures).expr 1 = .all ∧
      (Effects.compute skipped noSignatures).stmt 1 = .all ∧
      0 ∈ (LivenessInfo.compute skipped).liveIn 1 ∧
      Stmt.evalList (skipped.mended ⟨"A", "f", 0⟩ true) (skipped.mended ⟨"A", "f", 0⟩ true).root =
        Stmt.evalList skipped skipped.root := by
  obtain ⟨hexprs, hstmts, -, -, heval⟩ := skipped.passes_on_erroneous noSignatures ⟨"A", "f", 0⟩
  have he : skipped.exprTree 1 ∈ skipped.root.flatMap Stmt.allExprs := .tail _ (.head _)
  have hs : skipped.stmtTree 1 ∈ skipped.root.flatMap Stmt.substmts := .tail _ (.head _)
  obtain ⟨heffects, hlive⟩ := hstmts _ hs (by decide) rfl
  exact ⟨hexprs _ he (by decide) rfl, heffects, hlive 0 (by decide), heval⟩

/-- An accepted body in which a local is not live before an erroneous expression, not among those
that an erroneous statement may write, and known after both. -/
theorem erroneous_nodes_skipped :
    skipped.Accepted ∧ (skipped.exprTree 1).kind = .err ∧ (skipped.stmtTree 1).kind = .err ∧
      0 ∉ (LivenessInfo.compute skipped).liveInExpr 1 ∧ 0 ∉ (skipped.stmtTree 1).written ∧
      ∃ st, Stmt.evalList skipped skipped.root {} = (.ok (), st) ∧
        st.context.get 0 = .known (.int 1) :=
  ⟨⟨has_of_reaches _ (by decide) (by decide) (by decide), by decide⟩, rfl, rfl, by decide,
    by decide, _, rfl, rfl⟩

end Body

end Midend
