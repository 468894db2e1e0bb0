import Midend.Proofs.Eval.Simulation

/-!
# Values of expressions

Operators, conversions and assignments give on the machine what the evaluator
says they give, and so does every expression built from them
(`Expr.eval_simulates`): a value that is known is the value of every run from a
state that agrees with the context.
-/

namespace Midend

open Run

variable {H : Type} {b : Body} {host : Host H} {V : VarId → Prop} {D : Expr → Prop}
  {P : Expr → Locals → Prop} {st : EvalState}

/-! ## Operations -/

namespace Exec

variable {a c : Value} {d e : Concrete}

/-- An operation gives what its abstract result allows. -/
theorem apply_gives {op : Operation} {ds : List Concrete} {z : Value}
    (h : ∀ l, z = .known l → op.onConstants ds = some (some l)) :
    (apply host op ds).Gives z.Holds := by
  unfold apply
  cases z with
  | unknown =>
    refine .unknown ?_
    split
    · exact .pure trivial
    · exact .throw
    · exact .asks
  | known l =>
    rw [h l rfl]
    exact .pure (Value.holds_known l)

/-- Applying an operation has no event. -/
theorem apply_silent {op : Operation} {ds : List Concrete} : (apply host op ds).Silent :=
  (apply_gives (z := .unknown) fun _ h => nomatch h).mono fun _ _ => trivial

/-- The machine's unary operators are described by the abstract ones. -/
theorem unary_gives {op : UnOp} {z : Value} (ha : a.Holds d) (hz : Value.unary op a = .ok z) :
    (apply host (.unary op) [d]).Gives z.Holds := by
  refine apply_gives fun l hl => ?_
  subst hl
  cases a with
  | unknown =>
    rw [Value.unary] at hz
    split at hz <;> cases hz
  | known x =>
    rw [ha x rfl, Operation.onConstants]
    rw [Value.unary] at hz
    cases hx : x.unary op with
    | error f =>
      rw [hx] at hz
      cases hz
    | ok y =>
      rw [hx] at hz
      cases hz
      rfl

/-- The machine's binary operators are described by the abstract ones. -/
theorem binary_gives {op : BinOp} {z : Value} (ha : a.Holds d) (hc : c.Holds e)
    (hz : Value.binary op a c = .ok z) : (apply host (.binary op) [d, e]).Gives z.Holds := by
  refine apply_gives fun l hl => ?_
  subst hl
  cases a with
  | unknown => cases hz
  | known x =>
    cases c with
    | unknown => cases hz
    | known y =>
      rw [ha x rfl, hc y rfl, Operation.onConstants]
      rw [Value.binary] at hz
      cases hx : x.binary op y with
      | error f =>
        rw [hx] at hz
        cases hz
      | ok l =>
        rw [hx] at hz
        cases hz
        rfl

/-- The machine's conversions are described by the abstract ones. -/
theorem convert_gives {p : PrimTy} (ha : a.Holds d) :
    (apply host (.convert p) [d]).Gives (a.convert p).Holds := by
  refine apply_gives fun l hl => ?_
  cases a with
  | unknown => cases hl
  | known x =>
    rw [ha x rfl, Operation.onConstants]
    rw [Value.convert] at hl
    cases hx : x.convert p with
    | none =>
      rw [hx] at hl
      cases hl
    | some y =>
      rw [hx] at hl
      cases hl
      rfl

/-- The promotion of a conditional's result is described by the abstract one. -/
theorem promote_gives {ty : Option Ty} (ha : a.Holds d) :
    (promote host ty d).Gives (a.asConditional ty).Holds := by
  cases ty with
  | none =>
    refine .pure ?_
    rw [Value.asConditional]
    split
    · exact Value.holds_unknown d
    · exact ha
  | some ty =>
    cases ty with
    | prim p =>
      rw [promote, Value.asConditional]
      split
      · exact convert_gives ha
      · exact .pure ha
    | _ => exact .pure ha

/-- A condition that is known goes only one way. -/
theorem truth_gives (ha : a.Holds d) :
    (truth host d).Gives fun t => ∀ l, a = .known l → l = .bool t := by
  cases a with
  | unknown =>
    refine apply_silent.bind fun d _ => ?_
    split
    · exact .pure fun _ h => nomatch h
    · exact .throw
  | known x =>
    rw [ha x rfl]
    unfold truth apply
    cases x with
    | bool t =>
      refine Gives.bind (R := (· = .const (.bool t))) (.pure rfl) ?_
      rintro _ rfl
      refine .pure ?_
      rintro _ ⟨⟩
      rfl
    | _ => exact Gives.bind (R := fun _ => False) .throw fun _ h => h.elim

theorem truth_silent : (truth host d).Silent :=
  (truth_gives (Value.holds_unknown d)).mono fun _ _ => trivial

end Exec

/-! ## Composition -/

/-- What is recorded of an expression holds of the value just recorded. -/
theorem EvalState.admits_observe {e : Expr} {a : Value} {d : Concrete} (ha : a.Holds d) :
    (st.observe e.id a).Admits D P (.value e d) := by
  refine .inr fun values hv => ?_
  unfold observe at hv
  cases hs : st.observed with
  | none =>
    rw [hs] at hv
    rw [hs] at hv
    cases hv
  | some old =>
    rw [hs] at hv
    obtain rfl := Option.some.inj hv
    rw [IdMap.get?_insert, if_pos rfl]
    refine ⟨_, rfl, ?_⟩
    split
    · exact (Value.weakens_join_right _ a).holds ha
    · exact ha

namespace Simulates

variable {a c : Value} {d : Concrete}

theorem ofExcept {r : Except Fault Value} {q : Exec H Concrete}
    (h : ∀ z, r = .ok z → q.Gives z.Holds) :
    Simulates V D P (Eval.ofExcept r) q (Matches V) st := by
  cases r with
  | ok z => exact .gives (h z rfl)
  | error f => exact .fail

/-- Reading a local gives a value its context describes. -/
theorem readLocal {v : VarId} (hv : V v) :
    Simulates V D P (do return (← Eval.context).get v) (Exec.readLocal v : Exec H Concrete)
      (Matches V) st := by
  rintro _ st' ⟨⟩
  refine ⟨.refl _, fun m tr r m' hm hr => ?_⟩
  obtain ⟨rfl, rfl, rfl⟩ := Exec.readLocal_iff.1 hr
  refine ⟨by simp, ?_⟩
  rintro _ ⟨⟩
  exact ⟨hm, hm v hv⟩

/-- A value is recorded where the run shows it. -/
theorem observe {e : Expr} (ha : a.Holds d) :
    Simulates V D P
      (do
        Eval.observe e.id a
        return a)
      (do
        Emit (.value e d)
        return d : Exec H Concrete) (Matches V) st := by
  rintro _ st' ⟨⟩
  refine ⟨st.later_observe e.id a, ?_⟩
  rintro m tr r m' hm (⟨⟨⟩, ⟨⟩⟩ | ⟨⟨⟩⟩ | ⟨⟨⟩⟩)
  refine ⟨fun ev hev => ?_, ?_⟩
  · have heq : ev = .value e d := by simpa using hev
    rw [heq]
    exact EvalState.admits_observe ha
  · rintro _ ⟨⟩
    refine ⟨?_, ha⟩
    rw [EvalState.context_observe]
    exact hm

/-- An operator is simulated where both operands are described. -/
theorem binary {op : BinOp} {span : Span} {e : Concrete} (ha : a.Holds d) (hc : c.Holds e) :
    Simulates V D P (Eval.binary op span a c) (Exec.apply host (.binary op) [d, e]) (Matches V)
      st := by
  have h : ∀ st, Simulates V D P (Eval.ofExcept (Value.binary op a c))
      (Exec.apply host (.binary op) [d, e]) (Matches V) st :=
    fun _ => .ofExcept fun _ hz => Exec.binary_gives ha hc hz
  unfold Eval.binary
  cases op with
  | equality negated =>
    simp only
    split
    · refine eval_bind ?_ fun _ => h _
      rintro _ _ ⟨⟩
      exact ⟨st.later_report _, fun _ hy => hy⟩
    · exact h st
  | _ => exact h st

/-- Storing a described value keeps the context in agreement. -/
theorem assignLocal {v : VarId} (ha : a.Holds d) :
    Simulates V D P (Eval.assignLocal b v a) (Exec.assignLocal b host v d) (Matches V) st := by
  have h : ∀ {a d st}, a.Holds d → Simulates V D P
      (do
        modify fun s => { s with context := s.context.bind v a }
        return a)
      (do
        Exec.writeLocal v d
        return d : Exec H Concrete) (Matches V) st := fun ha =>
    (writeLocal ha).inStep_bind fun _ => .pure fun _ hx => ⟨hx, ha⟩
  unfold Eval.assignLocal Exec.assignLocal Exec.inTypeOf
  cases primOf (b.varTy v) with
  | none => exact run_bind (.pure ha) (h ha).later fun _ hd => h hd
  | some p =>
    obtain ⟨d₀, hd₀⟩ := (a.convert p).exists_holds
    exact run_bind (Exec.convert_gives ha) (h hd₀).later fun _ hd => h hd

/-- A step gives the old or the new value of its local. -/
theorem step {v : VarId} {s : Step} (hv : V v) :
    Simulates V D P (Eval.step b s v)
      (do
        let old ← Exec.readLocal v
        let new ← Exec.assignLocal b host v (← Exec.stepped host s old)
        return if s.after then old else new) (Matches V) st := by
  refine readLocal_bind hv fun {old} hold => ?_
  simp only
  split
  · exact .fail
  · refine value_bind (.ofExcept fun z hz => ?_) fun _ hd => ?_
    · exact Exec.binary_gives hold (Value.holds_known _) hz
    · refine (assignLocal hd).value_bind fun _ hnew => .pure fun _ hx => ⟨hx, ?_⟩
      split
      · exact hold
      · exact hnew

/-- The right operand of a connective is evaluated and run unless the left one decides. -/
theorem logic {op : LogicOp} {x y : Eval Value} {p q : Exec H Concrete}
    (hx : Simulates V D P x p (Matches V) st) (hy : ∀ st, Simulates V D P y q (Matches V) st) :
    Simulates V D P
      (do
        match ← x with
        | .unknown =>
          Eval.maybe y
          return .unknown
        | .known a =>
          if a = .bool op.deciding then return .known a
          else Eval.ofExcept (Value.binary (.logic op) (.known a) (← y)))
      (Exec.logic host op p q) (Matches V) st := by
  refine hx.value_bind fun {a d st₁} _ ha => ?_
  have hm : ∀ {st} (a : Literal) {d : Concrete}, (Value.known a).Holds d →
      Simulates V D P (y >>= fun c => Eval.ofExcept (Value.binary (.logic op) (.known a) c))
        (q >>= fun e => Exec.apply host (.binary (.logic op)) [d, e]) (Matches V) st :=
      fun a _ ha =>
    (hy _).value_bind fun _ hc => .ofExcept fun z hz => Exec.binary_gives ha hc hz
  cases a with
  | unknown =>
    refine silent_bind Exec.truth_silent fun t => ?_
    by_cases ht : t = op.deciding
    · rw [if_pos ht]
      refine eval_bind (maybe_skip (hy st₁).later) fun _ => .pure fun _ hx => ⟨hx, ?_⟩
      exact Value.holds_unknown _
    · rw [if_neg ht]
      have hy' : Simulates V D P y q (InStep V) st₁ := (hy st₁).mono fun _ h => h.1
      exact hy'.maybe.inStep_bind fun _ => .gives (.unknown Exec.apply_silent)
  | known a =>
    simp only
    split
    · next hd =>
      subst hd
      refine run_bind (Exec.truth_gives ha) (fun h => ?_) fun t ht => ?_
      · obtain ⟨-, rfl⟩ := Eval.pure_eq_ok.1 h
        exact .refl _
      · have heq : t = op.deciding := by cases ht _ rfl; rfl
        rw [if_pos heq]
        exact .pure fun _ hx => ⟨hx, Value.holds_known _⟩
    · next hd =>
      refine run_bind (Exec.truth_gives ha) (hm a ha).later fun t ht => ?_
      have hne : t ≠ op.deciding := fun heq => hd (heq ▸ ht a rfl)
      rw [if_neg hne]
      exact hm a ha

/-- A condition that is known takes one arm, and the result is that of either arm otherwise. -/
theorem conditional {ty : Option Ty} {x y z : Eval Value} {p q r : Exec H Concrete}
    (hx : Simulates V D P x p (Matches V) st) (hy : ∀ st, Simulates V D P y q (Matches V) st)
    (hz : ∀ st, Simulates V D P z r (Matches V) st) :
    Simulates V D P
      (do
        match ← x with
        | .known (.bool true) => return (← y).asConditional ty
        | .known (.bool false) => return (← z).asConditional ty
        | .unknown =>
          let (a, c) ← Eval.either y z
          return (a.join c).asConditional ty
        | .known l => Eval.fail (.nonBooleanCondition (some l.kind)))
      (Exec.branch host p (do Exec.promote host ty (← q)) (do Exec.promote host ty (← r)))
      (Matches V) st := by
  have arm : ∀ {y : Eval Value} {q : Exec H Concrete}, (∀ st, Simulates V D P y q (Matches V) st) →
      ∀ st, Simulates V D P (y >>= fun a => Pure.pure (a.asConditional ty))
        (q >>= fun d => Exec.promote host ty d) (Matches V) st := fun h st =>
    (h st).value_bind fun _ hd => .gives (Exec.promote_gives hd)
  refine hx.value_bind fun {a d st₁} _ ha => ?_
  split
  · refine run_bind (Exec.truth_gives ha) (arm hy st₁).later fun t ht => ?_
    cases ht _ rfl
    exact arm hy st₁
  · refine run_bind (Exec.truth_gives ha) (arm hz st₁).later fun t ht => ?_
    cases ht _ rfl
    exact arm hz st₁
  · refine silent_bind Exec.truth_silent fun t => ?_
    cases t with
    | true =>
      refine bind (R := fun x d => (x.1.join x.2).Holds d) ?_ ?_ fun _ hd => ?_
      · refine either_left (hy st₁) (hz _).later fun h _ => ⟨h.1.join_right _, ?_⟩
        exact (Value.weakens_join_left _ _).holds h.2
      · exact fun x => Value.exists_holds _
      · exact .gives (Exec.promote_gives hd)
    | false =>
      refine bind (R := fun x d => (x.1.join x.2).Holds d) ?_ ?_ fun _ hd => ?_
      · refine either_right (hy st₁).later hz fun h => ⟨h.1.join_left _, ?_⟩
        exact (Value.weakens_join_right _ _).holds h.2
      · exact fun x => Value.exists_holds _
      · exact .gives (Exec.promote_gives hd)
  · exact .fail

end Simulates

/-! ## Expressions -/

namespace Expr

open Simulates

/-- If an expression itself is a local, it is in `V`. -/
def ReadsIn (V : VarId → Prop) : ExprKind Expr → Prop
  | .var v => V v
  | _ => True

/-- A local that is read in an expression is one of the variables in view. -/
theorem of_localTarget :
    ∀ {e : Expr} {v : VarId}, (∀ s ∈ e.subexprs, ReadsIn V s.kind) → e.localTarget? = some v → V v
  | node id kind, v, h, hl => by
    have hk : ReadsIn V kind := h (node id kind) (by simp [subexprs])
    cases kind with
    | var u =>
      cases hl
      exact hk
    | paren inner => exact of_localTarget (fun s hs => h s (List.mem_cons_of_mem _ hs)) hl
    | _ => cases hl

mutual

/-- An expression of locals in `V` has the value that the evaluator knows, and so have all its
operands. -/
theorem eval_simulates {depth : Nat} :
    ∀ {e : Expr}, (∀ s ∈ e.subexprs, ReadsIn V s.kind) →
      ∀ st, Simulates V D P (e.eval b depth) (e.exec b host) (Matches V) st
  | node id kind, h, st => by
    have hk : ReadsIn V kind := h (node id kind) (by simp [subexprs])
    have hs := fun s hs => h s (List.mem_cons_of_mem _ hs)
    rw [eval, exec]
    refine .hazardous (.locate ?_)
    split
    · exact .fail
    · exact (evalKind_simulates id hk hs st).value_bind fun _ hd => .observe (e := node id kind) hd

/-- One case for each form of expression. -/
theorem evalKind_simulates {depth : Nat} (id : ExprId) :
    ∀ {k : ExprKind Expr}, ReadsIn V k → (∀ s ∈ subexprsOfKind k, ReadsIn V s.kind) →
      ∀ st, Simulates V D P (evalKind b depth id k) (kindExec b host id k) (Matches V) st
  | .lit l, _, _, st => .pure fun _ hx => ⟨hx, Value.holds_known l⟩
  | .var v, hv, _, st => .readLocal hv
  | .paren inner, _, h, st => eval_simulates h st
  | .assign target op value, _, h, st => by
    simp only [subexprsOfKind, List.mem_append] at h
    have hr := fun s hs => h s (.inl hs)
    have ht : ∀ st, Simulates V D P (target.evalPlace b depth) (target.placeExec b host)
        (InStep V) st := evalPlace_simulates hr
    have hv : ∀ st, Simulates V D P (value.eval b depth) (value.exec b host) (Matches V) st :=
      eval_simulates fun s hs => h s (.inr hs)
    cases hl : target.localTarget? with
    | none =>
      simp only [evalKind, kindExec, hl]
      cases op with
      | none =>
        exact (ht st).inStep_bind fun _ => (hv _).value_bind fun _ _ => .gives (.unknown .acts)
      | some op =>
        refine (ht st).inStep_bind fun _ => silent_bind .asks fun _ => ?_
        refine (hv _).value_bind fun _ _ => .gives (.unknown ?_)
        exact Exec.apply_silent.bind fun _ _ => .acts
    | some v =>
      cases op with
      | none =>
        simp only [evalKind, kindExec, hl]
        exact (hv st).value_bind fun _ hd => .assignLocal hd
      | some op =>
        simp only [evalKind, kindExec, hl]
        refine readLocal_bind (of_localTarget hr hl) fun hold => ?_
        refine (hv st).value_bind fun _ hd => ?_
        refine value_bind (.ofExcept fun z hz => Exec.binary_gives hold hd hz) fun _ hd => ?_
        exact .assignLocal hd
  | .binary l (.logic op) r, _, h, st => by
    simp only [subexprsOfKind, List.mem_append] at h
    exact .logic (eval_simulates (fun s hs => h s (.inl hs)) st)
      (eval_simulates fun s hs => h s (.inr hs))
  | .binary l (.arith _) r, _, h, st | .binary l (.shift _) r, _, h, st
  | .binary l (.bits _) r, _, h, st | .binary l (.order _) r, _, h, st
  | .binary l (.equality _) r, _, h, st => by
    simp only [subexprsOfKind, List.mem_append] at h
    refine (eval_simulates (fun s hs => h s (.inl hs)) st).value_bind fun _ hx => ?_
    refine (eval_simulates (fun s hs => h s (.inr hs)) _).value_bind fun _ hy => ?_
    exact .binary hx hy
  | .unary (.step s) operand, _, h, st => by
    cases hl : operand.localTarget? with
    | none =>
      simp only [evalKind, kindExec, hl]
      refine (evalPlace_simulates h st).inStep_bind fun _ => .gives (.unknown ?_)
      refine Exec.Gives.asks.bind fun _ _ => Exec.apply_silent.bind fun _ _ => ?_
      exact Exec.Gives.acts.bind fun _ _ => .pure trivial
    | some v =>
      simp only [evalKind, kindExec, hl]
      exact .step (of_localTarget h hl)
  | .unary .not e, _, h, st | .unary .neg e, _, h, st | .unary .plus e, _, h, st
  | .unary .bitNot e, _, h, st =>
    (eval_simulates h st).value_bind fun _ hd => .ofExcept fun _ hz => Exec.unary_gives hd hz
  | .conditional c t f, _, h, st => by
    simp only [subexprsOfKind, List.mem_append] at h
    exact .conditional (eval_simulates (fun s hs => h s (.inl hs)) st)
      (eval_simulates fun s hs => h s (.inr (.inl hs)))
      (eval_simulates fun s hs => h s (.inr (.inr hs)))
  | .field none .., _, _, st => .gives (.unknown .asks)
  | .err, _, _, st => by
    rw [evalKind, kindExec]
    exact .gives (.unknown .asks)
  | .field (some e) .., _, h, st =>
    (eval_simulates h st).value_bind fun _ _ => .gives (.unknown .asks)
  | .cast _ e, _, h, st | .instanceOf e _, _, h, st =>
    (eval_simulates h st).value_bind fun _ _ => .gives (.unknown Exec.apply_silent)
  | .index a i, _, h, st => by
    simp only [subexprsOfKind, List.mem_append] at h
    refine (eval_simulates (fun s hs => h s (.inl hs)) st).value_bind fun _ _ => ?_
    refine (eval_simulates (fun s hs => h s (.inr hs)) _).value_bind fun _ _ => ?_
    exact .gives (.unknown .asks)
  | .call none _ args, _, h, st | .create _ args, _, h, st =>
    (evalList_simulates h st).inStep_bind fun _ => .gives (.unknown .acts)
  | .call (some e) _ args, _, h, st => by
    simp only [subexprsOfKind, List.mem_append] at h
    refine (eval_simulates (fun s hs => h s (.inl hs)) st).value_bind fun _ _ => ?_
    refine (evalList_simulates (fun s hs => h s (.inr hs)) _).inStep_bind fun _ => ?_
    exact .gives (.unknown .acts)

/-- The parts of an assignment target are simulated from left to right. -/
theorem evalPlace_simulates {depth : Nat} :
    ∀ {e : Expr}, (∀ s ∈ e.subexprs, ReadsIn V s.kind) →
      ∀ st, Simulates V D P (e.evalPlace b depth) (e.placeExec b host) (InStep V) st
  | node _ kind, h, st => by
    have hk := fun s hs => h s (List.mem_cons_of_mem _ hs)
    cases kind with
    | paren inner =>
      rw [evalPlace, placeExec]
      exact evalPlace_simulates hk st
    | field receiver name isStatic =>
      cases receiver with
      | none => exact .pure fun _ hx => hx
      | some e => exact (eval_simulates hk st).value_bind fun _ _ => .pure fun _ hx => hx
    | index a i =>
      simp only [subexprsOfKind, List.mem_append] at hk
      refine (eval_simulates (fun s hs => hk s (.inl hs)) st).value_bind fun _ _ => ?_
      refine (eval_simulates (fun s hs => hk s (.inr hs)) _).value_bind fun _ _ => ?_
      exact .pure fun _ hx => hx
    | _ => exact .fail

theorem evalList_simulates {depth : Nat} :
    ∀ {es : List Expr}, (∀ s ∈ subexprsOfList es, ReadsIn V s.kind) →
      ∀ st, Simulates V D P (evalList b depth es) (listExec b host es) (InStep V) st
  | [], _, st => .pure fun _ hx => hx
  | e :: es, h, st => by
    simp only [subexprsOfList, List.mem_append] at h
    refine (eval_simulates (fun s hs => h s (.inl hs)) st).value_bind fun _ _ => ?_
    exact (evalList_simulates (fun s hs => h s (.inr hs)) _).map fun h => h

end

end Expr

end Midend
