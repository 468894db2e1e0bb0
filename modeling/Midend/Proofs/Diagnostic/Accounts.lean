import Mathlib.Data.List.Nodup
import Mathlib.Data.List.Pairwise
import Midend.Diagnostic.Reporter

/-!
# What a reporter accounts for

Clients emit diagnostics and turn warnings on and off, in any order
(`Reporter.Call`). A reporter passes on the first of equal diagnostics among those
that it is to report (`Reporter.reportable`), and counts all of them
(`Reporter.Accounts`). Each diagnostic keeps the account, with what is remembered for
the next one (`Reporter.Ledger.emit`), so every run does (`Reporter.run_accounts`).

The order of the calls decides which diagnostic shows a sub-diagnostic that is shown
once, but not the counts (`Reporter.counts_perm`).
-/

namespace Midend

/-- Whether the diagnostic is a warning. -/
def Diagnostic.isWarning (d : Diagnostic) : Bool := d.level == .warning

namespace Reporter

/-! ## Calls -/

/-- What a client asks of a reporter. -/
inductive Call where
  | emit (d : Diagnostic)
  | setWarnings (on : Bool)

/-- Answers a call; the first component is what is passed on. -/
def call (r : Reporter) : Call → Option Diagnostic × Reporter
  | .emit d => r.emit d
  | .setWarnings on => (none, { r with emitsWarnings := on })

/-- Answers calls in order. -/
def run (r : Reporter) : List Call → List Diagnostic × Reporter
  | [] => ([], r)
  | c :: cs =>
    let (passed, r) := r.call c
    let (rest, r) := r.run cs
    (passed.toList ++ rest, r)

/-- The emitted diagnostics that are neither at level `allow` nor warnings emitted while these are
off, in order. -/
def reportable (on : Bool) : List Call → List Diagnostic
  | [] => []
  | .setWarnings on :: cs => reportable on cs
  | .emit d :: cs =>
    if d.level = .allow ∨ d.level = .warning ∧ on = false then reportable on cs
    else d :: reportable on cs

/-! ## Accounts -/

/-- How a diagnostic is passed on after others: as it was given, but of the sub-diagnostics that are
shown once, only with those that none of the others carries, and each of them once. -/
structure Shown (earlier : List Diagnostic) (d p : Diagnostic) : Prop where
  same : p = { d with children := p.children }
  order : p.children.Sublist d.children
  plain : p.children.filter (!·.level.isOnce) = d.children.filter (!·.level.isOnce)
  once : ∀ c, c.level.isOnce = true →
    (c ∈ p.children ↔ c ∈ d.children ∧ ∀ e ∈ earlier, c ∉ e.children)
  nodup : (p.children.filter (·.level.isOnce)).Nodup

/-- Every diagnostic of the first list is passed on, in order, after those before it. -/
structure Received (firsts passed : List Diagnostic) : Prop where
  length : passed.length = firsts.length
  shown : ∀ (i : Nat) d p, firsts[i]? = some d → passed[i]? = some p →
    Shown (firsts.take i) d p

/-- The reporter was to report the first list and passed on the second. -/
structure Accounts (given passed : List Diagnostic) (r : Reporter) : Prop where
  received : Received given.eraseDups passed
  errors : r.errors = given.countP Diagnostic.isError
  warnings : r.warnings = given.countP Diagnostic.isWarning
  distinctErrors : r.distinctErrors = passed.countP Diagnostic.isError
  distinctWarnings : r.distinctWarnings = passed.countP Diagnostic.isWarning

/-- An account, and what the reporter remembers for the next diagnostic. -/
structure Ledger (given passed : List Diagnostic) (r : Reporter) : Prop
    extends Accounts given passed r where
  seen : ∀ d, d ∈ r.seen ↔ d ∈ given
  seenOnce : ∀ c, c ∈ r.seenOnce ↔ c.level.isOnce = true ∧ ∃ d ∈ given, c ∈ d.children

/-! ## Sub-diagnostics -/

/-- What `freshChildren` makes of sub-diagnostics, given those that were shown. -/
structure Fresh (shown cs kept later : List SubDiagnostic) : Prop where
  order : kept.Sublist cs
  plain : kept.filter (!·.level.isOnce) = cs.filter (!·.level.isOnce)
  once : ∀ c, c.level.isOnce = true → (c ∈ kept ↔ c ∈ cs ∧ c ∉ shown)
  nodup : (kept.filter (·.level.isOnce)).Nodup
  later : ∀ c, c ∈ later ↔ c ∈ shown ∨ c.level.isOnce = true ∧ c ∈ cs

namespace Fresh

variable {shown cs kept later : List SubDiagnostic} {c : SubDiagnostic}

/-- A sub-diagnostic that was shown once is dropped. -/
theorem drop (hc : c.level.isOnce = true) (hs : c ∈ shown) (h : Fresh shown cs kept later) :
    Fresh shown (c :: cs) kept later where
  order := h.order.cons c
  plain := by rw [h.plain, List.filter_cons_of_neg (by simp [hc])]
  once e he := by
    rw [h.once e he, List.mem_cons]
    grind
  nodup := h.nodup
  later e := by
    rw [h.later, List.mem_cons]
    grind

/-- A sub-diagnostic to be shown once is kept, and not shown again. -/
theorem first (hc : c.level.isOnce = true) (hs : c ∉ shown) (h : Fresh (c :: shown) cs kept later) :
    Fresh shown (c :: cs) (c :: kept) later where
  order := h.order.cons_cons c
  plain := by
    rw [List.filter_cons_of_neg (by simp [hc]), h.plain, List.filter_cons_of_neg (by simp [hc])]
  once e he := by
    rw [List.mem_cons, h.once e he, List.mem_cons, List.mem_cons]
    grind
  nodup := by
    rw [List.filter_cons_of_pos (by exact hc), List.nodup_cons, List.mem_filter, h.once c hc]
    exact ⟨fun hmem => hmem.1.2 List.mem_cons_self, h.nodup⟩
  later e := by
    rw [h.later, List.mem_cons, List.mem_cons]
    grind

/-- Any other sub-diagnostic is kept. -/
theorem keep (hc : ¬c.level.isOnce = true) (h : Fresh shown cs kept later) :
    Fresh shown (c :: cs) (c :: kept) later where
  order := h.order.cons_cons c
  plain := by
    rw [List.filter_cons_of_pos (by simp [hc]), h.plain, List.filter_cons_of_pos (by simp [hc])]
  once e he := by
    rw [List.mem_cons, h.once e he, List.mem_cons]
    grind
  nodup := by
    rw [List.filter_cons_of_neg (by exact hc)]
    exact h.nodup
  later e := by
    rw [h.later, List.mem_cons]
    grind

end Fresh

/-- What is kept of a list, and what is shown from then on. -/
theorem freshChildren_fresh (cs : List SubDiagnostic) :
    ∀ shown, Fresh shown cs (freshChildren shown cs).1 (freshChildren shown cs).2 := by
  induction cs with
  | nil => exact fun shown => ⟨.slnil, rfl, by simp [freshChildren], .nil, by simp [freshChildren]⟩
  | cons c cs ih =>
    intro shown
    unfold freshChildren
    split
    · next hc =>
      split
      · next hs => exact (ih shown).drop hc (List.contains_iff_mem.1 hs)
      · next hs => exact (ih (c :: shown)).first hc (mt List.contains_iff_mem.2 hs)
    · next hc => exact (ih shown).keep hc

/-! ## First occurrences -/

/-- A last element is kept if it is the first of its kind. -/
theorem eraseDups_concat (ds : List Diagnostic) (d : Diagnostic) :
    (ds ++ [d]).eraseDups = if d ∈ ds then ds.eraseDups else ds.eraseDups ++ [d] := by
  rw [List.eraseDups_append, List.removeAll]
  split <;> simp_all [List.eraseDups_cons]

/-- First occurrences are all different. -/
theorem nodup_eraseDups (ds : List Diagnostic) : ds.eraseDups.Nodup := by
  induction hn : ds.length using Nat.strongRecOn generalizing ds with
  | _ n ih =>
    cases ds with
    | nil => exact .nil
    | cons d ds =>
      rw [List.eraseDups_cons, List.nodup_cons, List.mem_eraseDups, List.mem_filter]
      refine ⟨by simp, ih _ ?_ _ rfl⟩
      rw [← hn]
      exact Nat.lt_succ_of_le (List.length_filter_le _ _)

variable {firsts passed given : List Diagnostic} {d p : Diagnostic} {r : Reporter}

/-- One more first occurrence is passed on. -/
theorem Received.snoc (h : Received firsts passed) (hp : Shown firsts d p) :
    Received (firsts ++ [d]) (passed ++ [p]) := by
  refine ⟨by simp [h.length], fun i e q he hq => ?_⟩
  rcases Nat.lt_or_ge i firsts.length with hi | hi
  · rw [List.getElem?_append_left hi] at he
    rw [List.getElem?_append_left (h.length ▸ hi)] at hq
    rw [List.take_append_of_le_length (Nat.le_of_lt hi)]
    exact h.shown i e q he hq
  · have hi : i = firsts.length := by
      have hlt := (List.getElem?_eq_some_iff.1 he).1
      rw [List.length_append, List.length_singleton] at hlt
      omega
    subst hi
    rw [List.getElem?_concat_length] at he
    rw [← h.length, List.getElem?_concat_length] at hq
    obtain rfl := Option.some.inj he
    obtain rfl := Option.some.inj hq
    rwa [List.take_left]

/-- What is passed on has the levels of the first occurrences. -/
theorem Received.map_level (h : Received firsts passed) :
    passed.map (·.level) = firsts.map (·.level) := by
  refine List.ext_getElem (by simp [h.length]) fun i hp hf => ?_
  rw [List.length_map] at hp hf
  rw [List.getElem_map, List.getElem_map,
    (h.shown i _ _ (List.getElem?_eq_getElem hf) (List.getElem?_eq_getElem hp)).same]

/-- What is passed on has the levels of what was given. -/
theorem Received.countP_eq (h : Received firsts passed) (q : Level → Bool) :
    passed.countP (q ·.level) = firsts.countP (q ·.level) := by
  have hcount := congrArg (List.countP q) h.map_level
  rwa [List.countP_map, List.countP_map] at hcount

/-! ## Steps -/

/-- Only errors and warnings are counted. -/
theorem count_eq (r : Reporter) (d : Diagnostic) :
    r.count d = { r with
      errors := r.errors + if d.isError then 1 else 0
      warnings := r.warnings + if d.isWarning then 1 else 0 } := by
  obtain ⟨level, messages, code, span, children⟩ := d
  cases level <;> rfl

/-- Only errors and warnings are counted as distinct. -/
theorem countDistinct_eq (r : Reporter) (d : Diagnostic) :
    r.countDistinct d = { r with
      distinctErrors := r.distinctErrors + if d.isError then 1 else 0
      distinctWarnings := r.distinctWarnings + if d.isWarning then 1 else 0 } := by
  obtain ⟨level, messages, code, span, children⟩ := d
  cases level <;> rfl

namespace Ledger

/-- A repeat is counted and not passed on. -/
theorem repeated (h : Ledger given passed r) (hd : d ∈ given) :
    Ledger (given ++ [d]) passed (r.count d) where
  received := by
    rw [eraseDups_concat, if_pos hd]
    exact h.received
  errors := by rw [count_eq, List.countP_append, List.countP_singleton, h.errors]
  warnings := by rw [count_eq, List.countP_append, List.countP_singleton, h.warnings]
  distinctErrors := by rw [count_eq, h.distinctErrors]
  distinctWarnings := by rw [count_eq, h.distinctWarnings]
  seen e := by
    rw [count_eq, h.seen, List.mem_append, List.mem_singleton]
    grind
  seenOnce c := by
    rw [count_eq, h.seenOnce]
    grind

/-- A first occurrence is counted and passed on without what was shown. -/
theorem first (h : Ledger given passed r) (hd : d ∉ given) {kept later : List SubDiagnostic}
    (hf : Fresh r.seenOnce d.children kept later) :
    Ledger (given ++ [d]) (passed ++ [{ d with children := kept }])
      ((countDistinct { r with seen := d :: r.seen, seenOnce := later } d).count d) where
  received := by
    rw [eraseDups_concat, if_neg hd]
    refine h.received.snoc ⟨rfl, hf.order, hf.plain, fun c hc => ?_, hf.nodup⟩
    rw [hf.once c hc, h.seenOnce]
    simp only [List.mem_eraseDups]
    grind
  errors := by rw [count_eq, countDistinct_eq, List.countP_append, List.countP_singleton, h.errors]
  warnings := by
    rw [count_eq, countDistinct_eq, List.countP_append, List.countP_singleton, h.warnings]
  distinctErrors := by
    rw [count_eq, countDistinct_eq, List.countP_append, List.countP_singleton, h.distinctErrors]
    rfl
  distinctWarnings := by
    rw [count_eq, countDistinct_eq, List.countP_append, List.countP_singleton, h.distinctWarnings]
    rfl
  seen e := by
    rw [count_eq, countDistinct_eq, List.mem_append, List.mem_singleton, ← h.seen, List.mem_cons]
    grind
  seenOnce c := by
    rw [count_eq, countDistinct_eq, hf.later, h.seenOnce]
    grind

/-- One diagnostic that is reported keeps the ledger. -/
theorem emit (h : Ledger given passed r) (hd : r.suppresses d = false) :
    Ledger (given ++ [d]) (passed ++ (r.emit d).1.toList) (r.emit d).2 := by
  unfold Reporter.emit
  rw [if_neg (by simp [hd])]
  split
  · next hs =>
    rw [Option.toList_none, List.append_nil]
    exact h.repeated ((h.seen d).1 (List.contains_iff_mem.1 hs))
  · next hs =>
    have hnew : d ∉ given := fun hmem => hs (List.contains_iff_mem.2 ((h.seen d).2 hmem))
    exact h.first hnew (freshChildren_fresh d.children r.seenOnce)

end Ledger

/-- What is allowed is suppressed, and warnings are while they are off. -/
theorem suppresses_iff {r : Reporter} {d : Diagnostic} :
    r.suppresses d = true ↔ d.level = .allow ∨ d.level = .warning ∧ r.emitsWarnings = false := by
  simp [suppresses]

theorem emit_of_suppresses (h : r.suppresses d = true) : r.emit d = (none, r) := if_pos h

/-- Reporting turns warnings neither on nor off. -/
theorem emitsWarnings_emit (r : Reporter) (d : Diagnostic) :
    (r.emit d).2.emitsWarnings = r.emitsWarnings := by
  unfold emit
  split
  · rfl
  · split
    · rw [count_eq]
    · simp only [count_eq, countDistinct_eq]

/-! ## Runs -/

/-- At the start nothing was given. -/
theorem ledger_start (on : Bool) : Ledger [] [] { emitsWarnings := on } where
  received := ⟨rfl, fun _ _ _ h => nomatch h⟩
  errors := rfl
  warnings := rfl
  distinctErrors := rfl
  distinctWarnings := rfl
  seen _ := Iff.rfl
  seenOnce _ := by simp

/-- A run reports what is to be reported where it is emitted. -/
theorem Ledger.run (calls : List Call) :
    ∀ {given passed : List Diagnostic} {r : Reporter}, Ledger given passed r →
      Ledger (given ++ reportable r.emitsWarnings calls) (passed ++ (r.run calls).1)
        (r.run calls).2 := by
  induction calls with
  | nil =>
    intro given passed r h
    rw [reportable, List.append_nil, Reporter.run, List.append_nil]
    exact h
  | cons c calls ih =>
    intro given passed r h
    cases c with
    | setWarnings on =>
      have haccounts : Accounts given passed { r with emitsWarnings := on } :=
        ⟨h.received, h.errors, h.warnings, h.distinctErrors, h.distinctWarnings⟩
      exact ih ⟨haccounts, h.seen, h.seenOnce⟩
    | emit d =>
      change Ledger _ (passed ++ ((r.emit d).1.toList ++ ((r.emit d).2.run calls).1))
        ((r.emit d).2.run calls).2
      rw [reportable]
      split
      · next hd =>
        rw [emit_of_suppresses (suppresses_iff.2 hd)]
        exact ih h
      · next hd =>
        have hemit := ih (h.emit (Bool.eq_false_iff.2 (mt suppresses_iff.1 hd)))
        rwa [emitsWarnings_emit, List.append_assoc, List.append_assoc] at hemit

/-- After any calls the reporter accounts for what it was given. -/
theorem run_accounts (on : Bool) (calls : List Call) :
    Accounts (reportable on calls) (run { emitsWarnings := on } calls).1
      (run { emitsWarnings := on } calls).2 := ((ledger_start on).run calls).toAccounts

/-! ## What follows -/

/-- No sub-diagnostic that is shown once is shown twice. -/
theorem Received.nodup_once (h : Received firsts passed) :
    ((passed.flatMap (·.children)).filter (·.level.isOnce)).Nodup := by
  have hshown : ∀ (i : Nat) (hi : i < passed.length),
      ∃ d, firsts[i]? = some d ∧ Shown (firsts.take i) d passed[i] := by
    intro i hi
    have hi' : i < firsts.length := h.length ▸ hi
    exact ⟨firsts[i], List.getElem?_eq_getElem hi',
      h.shown i _ _ (List.getElem?_eq_getElem hi') (List.getElem?_eq_getElem hi)⟩
  rw [List.filter_flatMap, List.nodup_flatMap]
  refine ⟨fun p hp => ?_, List.pairwise_iff_getElem.2 fun i j hi hj hij c hci hcj => ?_⟩
  · obtain ⟨i, hi, rfl⟩ := List.getElem_of_mem hp
    obtain ⟨d, -, hd⟩ := hshown i hi
    exact hd.nodup
  · -- The earlier of two diagnostics that show it was given with it.
    obtain ⟨d, hd, hdi⟩ := hshown i hi
    obtain ⟨e, -, hej⟩ := hshown j hj
    obtain ⟨hci, hc⟩ := List.mem_filter.1 hci
    obtain ⟨hcj, -⟩ := List.mem_filter.1 hcj
    have hmem : d ∈ firsts.take j := by
      refine List.mem_of_getElem? (i := i) ?_
      rw [List.getElem?_take_of_lt hij, hd]
    exact ((hej.once c hc).1 hcj).2 d hmem (hdi.order.subset hci)

/-- There are errors if an error was passed on. -/
theorem Accounts.hasErrors_iff (h : Accounts given passed r) :
    r.hasErrors = true ↔ ∃ p ∈ passed, p.isError = true := by
  have hcount : passed.countP Diagnostic.isError = given.eraseDups.countP Diagnostic.isError :=
    h.received.countP_eq (· == .error)
  rw [hasErrors, decide_eq_true_iff, h.errors, gt_iff_lt, ← List.countP_pos_iff, hcount,
    List.countP_pos_iff, List.countP_pos_iff]
  simp only [List.mem_eraseDups]

/-- The numbers that a reporter gives. -/
def counts (r : Reporter) : Nat × Nat × Nat × Nat :=
  (r.errors, r.warnings, r.distinctErrors, r.distinctWarnings)

/-- The counts are those of what was given and of its first occurrences. -/
theorem Accounts.counts_eq (h : Accounts given passed r) :
    r.counts = (given.countP Diagnostic.isError, given.countP Diagnostic.isWarning,
      given.eraseDups.countP Diagnostic.isError, given.eraseDups.countP Diagnostic.isWarning) := by
  have herrors := h.received.countP_eq (· == .error)
  have hwarnings := h.received.countP_eq (· == .warning)
  rw [counts, h.errors, h.warnings, h.distinctErrors, h.distinctWarnings]
  exact congrArg₂ (_, _, ·, ·) herrors hwarnings

/-- Of diagnostics that are all emitted, those that are not suppressed are reported. -/
theorem reportable_emits (on : Bool) (ds : List Diagnostic) :
    reportable on (ds.map .emit) =
      ds.filter fun d => !(d.level = .allow ∨ d.level = .warning ∧ on = false) := by
  induction ds with
  | nil => rfl
  | cons d ds ih =>
    rw [List.map_cons, reportable, ih, List.filter_cons]
    split <;> simp_all

/-- The order of the diagnostics does not change the counts. -/
theorem counts_perm (on : Bool) {ds es : List Diagnostic} (h : ds.Perm es) :
    (run { emitsWarnings := on } (ds.map .emit)).2.counts =
      (run { emitsWarnings := on } (es.map .emit)).2.counts := by
  have hgiven : (reportable on (ds.map .emit)).Perm (reportable on (es.map .emit)) := by
    rw [reportable_emits, reportable_emits]
    exact h.filter _
  have hfirsts : (reportable on (ds.map .emit)).eraseDups.Perm
      (reportable on (es.map .emit)).eraseDups := by
    refine (List.perm_ext_iff_of_nodup (nodup_eraseDups _) (nodup_eraseDups _)).2 fun d => ?_
    rw [List.mem_eraseDups, List.mem_eraseDups]
    exact hgiven.mem_iff
  rw [(run_accounts on _).counts_eq, (run_accounts on _).counts_eq, hgiven.countP_eq,
    hgiven.countP_eq, hfirsts.countP_eq, hfirsts.countP_eq]

end Reporter

end Midend
