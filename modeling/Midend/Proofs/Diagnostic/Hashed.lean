import Mathlib.Data.Set.Function
import Midend.Proofs.Diagnostic.Accounts

/-!
# Reporters that remember hashes

A reporter need not keep the diagnostics that it passed on. `HashedReporter` keeps
one set of hashes, of these diagnostics and of the sub-diagnostics that are not to be
shown again. If no two of those that it meets have the same hash it passes on and
counts what a `Reporter` does (`HashedReporter.Mirrors.run`), and so it keeps the same
account (`HashedReporter.run_reports`).
-/

namespace Midend

/-- What is hashed: a diagnostic or a sub-diagnostic. -/
abbrev Reportable := Diagnostic ⊕ SubDiagnostic

/-- A reporter that remembers hashes. -/
structure HashedReporter where
  /-- Counts, and remembers nothing. -/
  tally : Reporter := {}
  hashes : List UInt64 := []

namespace HashedReporter

open Reporter (Call)

variable (hash : Reportable → UInt64)

/-- Drops the sub-diagnostics whose hashes are known, and gives the hashes that are known from now
on. -/
def freshChildren (hashes : List UInt64) :
    List SubDiagnostic → List SubDiagnostic × List UInt64
  | [] => ([], hashes)
  | c :: cs =>
    if c.level.isOnce then
      if hashes.contains (hash (.inr c)) then freshChildren hashes cs
      else
        let (kept, hashes) := freshChildren (hash (.inr c) :: hashes) cs
        (c :: kept, hashes)
    else
      let (kept, hashes) := freshChildren hashes cs
      (c :: kept, hashes)

/-- Reports a diagnostic; the first component is what is passed on. -/
def emit (r : HashedReporter) (d : Diagnostic) : Option Diagnostic × HashedReporter :=
  if r.tally.suppresses d then (none, r)
  else if r.hashes.contains (hash (.inl d)) then (none, { r with tally := r.tally.count d })
  else
    let (children, hashes) := freshChildren hash (hash (.inl d) :: r.hashes) d.children
    (some { d with children }, ⟨(r.tally.countDistinct d).count d, hashes⟩)

/-- Answers a call; the first component is what is passed on. -/
def call (r : HashedReporter) : Call → Option Diagnostic × HashedReporter
  | .emit d => r.emit hash d
  | .setWarnings on => (none, { r with tally := { r.tally with emitsWarnings := on } })

/-- Answers calls in order. -/
def run (r : HashedReporter) : List Call → List Diagnostic × HashedReporter
  | [] => ([], r)
  | c :: cs =>
    let (passed, r) := r.call hash c
    let (rest, r) := r.run cs
    (passed.toList ++ rest, r)

/-- What is hashed to answer a call. -/
def hashed : Call → List Reportable
  | .emit d => .inl d :: d.children.map .inr
  | .setWarnings _ => []

/-! ## Hashes in place of what they are of -/

/-- Of what is in `U`, the hashes are those of the given diagnostics and sub-diagnostics. -/
structure Reflects (U : Set Reportable) (seen : List Diagnostic) (shown : List SubDiagnostic)
    (hashes : List UInt64) : Prop where
  seen : ∀ d, .inl d ∈ U → (hash (.inl d) ∈ hashes ↔ d ∈ seen)
  shown : ∀ c, .inr c ∈ U → (hash (.inr c) ∈ hashes ↔ c ∈ shown)

variable {hash} {U : Set Reportable} {seen : List Diagnostic} {shown : List SubDiagnostic}
  {hashes : List UInt64}

/-- A diagnostic is added to the list and its hash to the hashes. -/
theorem Reflects.insertSeen (h : Reflects hash U seen shown hashes) (hU : U.InjOn hash)
    {d : Diagnostic} (hd : .inl d ∈ U) :
    Reflects hash U (d :: seen) shown (hash (.inl d) :: hashes) where
  seen e he := by
    rw [List.mem_cons, List.mem_cons, h.seen e he, hU.eq_iff he hd, Sum.inl.injEq]
  shown c hc := by
    rw [List.mem_cons, h.shown c hc, hU.eq_iff hc hd]
    simp

/-- A sub-diagnostic is added to the list and its hash to the hashes. -/
theorem Reflects.insertShown (h : Reflects hash U seen shown hashes) (hU : U.InjOn hash)
    {c : SubDiagnostic} (hc : .inr c ∈ U) :
    Reflects hash U seen (c :: shown) (hash (.inr c) :: hashes) where
  seen d hd := by
    rw [List.mem_cons, h.seen d hd, hU.eq_iff hd hc]
    simp
  shown e he := by
    rw [List.mem_cons, List.mem_cons, h.shown e he, hU.eq_iff he hc, Sum.inr.injEq]

/-- By hashes the same sub-diagnostics are dropped. -/
theorem Reflects.freshChildren (hU : U.InjOn hash) :
    ∀ {cs : List SubDiagnostic} {shown : List SubDiagnostic} {hashes : List UInt64},
      (∀ c ∈ cs, .inr c ∈ U) → Reflects hash U seen shown hashes →
      (HashedReporter.freshChildren hash hashes cs).1 = (Reporter.freshChildren shown cs).1 ∧
        Reflects hash U seen (Reporter.freshChildren shown cs).2
          (HashedReporter.freshChildren hash hashes cs).2
  | [], _, _, _, h => ⟨rfl, h⟩
  | c :: cs, shown, hashes, hcs, h => by
    have hc : .inr c ∈ U := hcs c List.mem_cons_self
    have hcs : ∀ c ∈ cs, .inr c ∈ U := fun c hc => hcs c (List.mem_cons_of_mem _ hc)
    have hknown : hashes.contains (hash (.inr c)) = shown.contains c := by
      rw [Bool.eq_iff_iff, List.contains_iff_mem, List.contains_iff_mem]
      exact h.shown c hc
    unfold HashedReporter.freshChildren Reporter.freshChildren
    rw [hknown]
    split
    · split
      · exact Reflects.freshChildren hU hcs h
      · obtain ⟨hkept, hlater⟩ := Reflects.freshChildren hU hcs (h.insertShown hU hc)
        exact ⟨congrArg (c :: ·) hkept, hlater⟩
    · obtain ⟨hkept, hlater⟩ := Reflects.freshChildren hU hcs h
      exact ⟨congrArg (c :: ·) hkept, hlater⟩

/-- The counts and the switch of a reporter, without what it remembers. -/
def tallied (r : Reporter) : Reporter := { r with seen := [], seenOnce := [] }

/-- The second reporter is the first one with hashes in place of what it remembers. -/
structure Mirrors (hash : Reportable → UInt64) (U : Set Reportable) (r : Reporter)
    (s : HashedReporter) : Prop where
  tally : s.tally = tallied r
  reflects : Reflects hash U r.seen r.seenOnce s.hashes

variable {r : Reporter} {s : HashedReporter}

/-- A reporter that keeps hashes passes on what one that keeps diagnostics does. -/
theorem Mirrors.emit (h : Mirrors hash U r s) (hU : U.InjOn hash) {d : Diagnostic}
    (hd : ∀ x ∈ hashed (.emit d), x ∈ U) :
    (s.emit hash d).1 = (r.emit d).1 ∧ Mirrors hash U (r.emit d).2 (s.emit hash d).2 := by
  have hself : .inl d ∈ U := hd _ List.mem_cons_self
  have hchildren : ∀ c ∈ d.children, .inr c ∈ U := fun c hc =>
    hd _ (List.mem_cons_of_mem _ (List.mem_map_of_mem hc))
  have hsuppresses : s.tally.suppresses d = r.suppresses d := by
    rw [h.tally]
    rfl
  have hknown : s.hashes.contains (hash (.inl d)) = r.seen.contains d := by
    rw [Bool.eq_iff_iff, List.contains_iff_mem, List.contains_iff_mem]
    exact h.reflects.seen d hself
  unfold HashedReporter.emit Reporter.emit
  rw [hsuppresses, hknown]
  split
  · exact ⟨rfl, h⟩
  · split
    · refine ⟨rfl, ?_, ?_⟩
      · simp only [h.tally, Reporter.count_eq, tallied]
      · rw [Reporter.count_eq]
        exact h.reflects
    · -- The hash of the diagnostic is known before those of its children are looked up.
      obtain ⟨hkept, hlater⟩ :=
        Reflects.freshChildren hU hchildren (h.reflects.insertSeen hU hself)
      refine ⟨congrArg (fun cs => some { d with children := cs }) hkept, ?_, ?_⟩
      · simp only [h.tally, Reporter.count_eq, Reporter.countDistinct_eq, tallied]
      · simp only [Reporter.count_eq, Reporter.countDistinct_eq]
        exact hlater

/-- The two reporters answer calls alike. -/
theorem Mirrors.run (hU : U.InjOn hash) (calls : List Call) :
    ∀ {r : Reporter} {s : HashedReporter}, Mirrors hash U r s →
      (∀ c ∈ calls, ∀ x ∈ hashed c, x ∈ U) →
      (s.run hash calls).1 = (r.run calls).1 ∧
        Mirrors hash U (r.run calls).2 (s.run hash calls).2 := by
  induction calls with
  | nil => exact fun h _ => ⟨rfl, h⟩
  | cons c calls ih =>
    intro r s h hcalls
    have hrest : ∀ c ∈ calls, ∀ x ∈ hashed c, x ∈ U := fun c hc =>
      hcalls c (List.mem_cons_of_mem _ hc)
    cases c with
    | setWarnings on =>
      refine ih ⟨?_, h.reflects⟩ hrest
      rw [h.tally]
      rfl
    | emit d =>
      obtain ⟨hpassed, hnext⟩ := h.emit hU (hcalls _ List.mem_cons_self)
      obtain ⟨hrun, hend⟩ := ih hnext hrest
      refine ⟨?_, hend⟩
      change (s.emit hash d).1.toList ++ _ = (r.emit d).1.toList ++ _
      rw [hpassed]
      exact congrArg _ hrun

/-- The reporter that was given nothing yet. -/
def start (on : Bool) : HashedReporter := { tally := { emitsWarnings := on } }

/-- Over all calls a reporter that keeps hashes passes on and counts the same. -/
theorem run_eq (on : Bool) {calls : List Call} (h : Set.InjOn hash {x | x ∈ calls.flatMap hashed}) :
    ((start on).run hash calls).1 = (Reporter.run { emitsWarnings := on } calls).1 ∧
      ((start on).run hash calls).2.tally =
        tallied (Reporter.run { emitsWarnings := on } calls).2 := by
  have hstart : Mirrors hash {x | x ∈ calls.flatMap hashed} { emitsWarnings := on } (start on) :=
    ⟨rfl, fun _ _ => by simp [start], fun _ _ => by simp [start]⟩
  obtain ⟨hpassed, hend⟩ := hstart.run h calls fun c hc x hx => List.mem_flatMap.2 ⟨c, hc, hx⟩
  exact ⟨hpassed, hend.tally⟩

/-! ## What is reported -/

/-- What is emitted in another order has the same counts. -/
theorem counts_perm (on : Bool) {ds es : List Diagnostic} (hperm : ds.Perm es)
    (h : Set.InjOn hash {x | x ∈ (ds.map Call.emit).flatMap hashed}) :
    ((start on).run hash (es.map .emit)).2.tally.counts =
      ((start on).run hash (ds.map .emit)).2.tally.counts := by
  have hes : Set.InjOn hash {x | x ∈ (es.map Call.emit).flatMap hashed} :=
    h.mono fun x hx => ((hperm.map Call.emit).flatMap_right hashed).mem_iff.2 hx
  rw [(run_eq on h).2, (run_eq on hes).2]
  exact (Reporter.counts_perm on hperm).symm

/-- Of what it is to report, a reporter passes on the first of equal diagnostics, in order. It
counts all of them, and those that it passes on. A sub-diagnostic that is shown once is shown by the
first diagnostic that carries it. There are errors if one was passed on. A diagnostic that is not to
be reported changes nothing, and the order of the diagnostics does not change the counts. -/
theorem run_reports (on : Bool) (calls : List Call) {hash : Reportable → UInt64}
    (hhash : Set.InjOn hash {x | x ∈ calls.flatMap hashed}) :
    let out := (start on).run hash calls
    (out.1, out.2.tally) = (Reporter.run { emitsWarnings := on } calls).map id tallied ∧
      Reporter.Accounts (Reporter.reportable on calls) out.1 out.2.tally ∧
      ((out.1.flatMap (·.children)).filter (·.level.isOnce)).Nodup ∧
      (out.2.tally.hasErrors = true ↔ ∃ p ∈ out.1, p.isError = true) ∧
      (∀ (s : HashedReporter) d, d.level = .allow ∨ d.level = .warning ∧
        s.tally.emitsWarnings = false → s.emit hash d = (none, s)) ∧
      ∀ ds es : List Diagnostic, calls = ds.map .emit → ds.Perm es →
        ((start on).run hash (es.map .emit)).2.tally.counts = out.2.tally.counts := by
  obtain ⟨hpassed, htally⟩ := run_eq on hhash
  have hplain := Reporter.run_accounts on calls
  have haccounts : Reporter.Accounts (Reporter.reportable on calls)
      ((start on).run hash calls).1 ((start on).run hash calls).2.tally := by
    rw [hpassed, htally]
    exact ⟨hplain.received, hplain.errors, hplain.warnings, hplain.distinctErrors,
      hplain.distinctWarnings⟩
  refine ⟨Prod.ext hpassed htally, haccounts, haccounts.received.nodup_once,
    haccounts.hasErrors_iff, fun s d hd => if_pos (Reporter.suppresses_iff.2 hd), ?_⟩
  rintro ds es rfl hperm
  exact counts_perm on hperm hhash

/-- A hash by the lengths of messages. -/
def lengthHash : Reportable → UInt64
  | .inl d => 2 * UInt64.ofNat d.message.length
  | .inr c => 2 * UInt64.ofNat c.message.length + 1

/-- A note that is shown with the first diagnostic that carries it. -/
def sharedNote : SubDiagnostic := .of .onceNote "shown once"

/-- An error with a note that is shown once. -/
def zeroError : Diagnostic :=
  { level := .error, messages := ["division by zero"], children := [sharedNote] }

/-- A warning with the same note. -/
def comparisonWarning : Diagnostic :=
  { level := .warning, messages := ["suspicious comparison"], children := [sharedNote] }

/-- An error and a warning that carry the same note, and both again while warnings are off. -/
def repeatedCalls : List Call :=
  [.emit zeroError, .emit comparisonWarning, .setWarnings false, .emit comparisonWarning,
    .emit zeroError]

/-- The lengths tell apart whatever these calls report. -/
theorem lengthHash_injOn : Set.InjOn lengthHash {x | x ∈ repeatedCalls.flatMap hashed} := by
  have h : ∀ x ∈ repeatedCalls.flatMap hashed, ∀ y ∈ repeatedCalls.flatMap hashed,
      lengthHash x = lengthHash y → x = y := by decide
  exact fun x hx y hy => h x hx y hy

theorem run_reports_repeatedCalls :
    let out := (start true).run lengthHash repeatedCalls
    out.1 = [zeroError, { comparisonWarning with children := [] }] ∧
      out.2.tally.counts = (2, 1, 1, 1) ∧
      Reporter.Accounts [zeroError, comparisonWarning, zeroError] out.1 out.2.tally ∧
      ((out.1.flatMap (·.children)).filter (·.level.isOnce)).Nodup ∧
      (out.2.tally.hasErrors = true ↔ ∃ p ∈ out.1, p.isError = true) := by
  obtain ⟨-, haccounts, hnodup, herrors, -⟩ := run_reports true repeatedCalls lengthHash_injOn
  exact ⟨by decide, by decide, haccounts, hnodup, herrors⟩

end HashedReporter

end Midend
