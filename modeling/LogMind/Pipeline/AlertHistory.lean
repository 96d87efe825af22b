import LogMind.Pipeline.Alerts

/-!
# Alerts and their history

An `AlertHistory` keeps every selection there has been and decides by looking through
them. The pipeline decides by a table that it purges and by a counter that it resets, and
selects the same entries as long as it does not clear the table and the window is not so
long that its nanoseconds overflow.
-/

namespace LogMind

open Pipeline

/-- All selections so far: a time and a fingerprint each. -/
structure AlertHistory where
  windowStart : Int
  /-- The selections before the current window. -/
  earlier : List (Int × Bytes) := []
  /-- The selections in the current window. -/
  current : List (Int × Bytes) := []

namespace AlertHistory

variable (rule : AlertRule)

def selections (h : AlertHistory) : List (Int × Bytes) := h.earlier ++ h.current

/-- The entry is worth an alert: its level is high enough, the budget of the window is not
used up, and its fingerprint was not selected within the last `dedup_window`. -/
def Due (h : AlertHistory) (now : Int) (entry : LogEntry) : Prop :=
  levelAtLeast entry.level rule.minLevel = true ∧
    (0 < rule.maxAlertsPerMinute → h.current.length < rule.maxAlertsPerMinute) ∧
    ∀ alert ∈ h.selections, alert.2 = alertKey entry → ¬ now - alert.1 < rule.dedupNanos

instance (h : AlertHistory) (now : Int) (entry : LogEntry) : Decidable (h.Due rule now entry) :=
  inferInstanceAs (Decidable (_ ∧ _ ∧ _))

def record (h : AlertHistory) (now : Int) (entry : LogEntry) : AlertHistory :=
  { h with current := h.current ++ [(now, alertKey entry)] }

def turn (h : AlertHistory) (now : Int) : AlertHistory :=
  if rateWindow ≤ now - h.windowStart then { windowStart := now, earlier := h.selections } else h

/-- The entries that are due, each at its place in the batch. -/
def selectFrom (now : Int) : AlertHistory → List LogEntry → List LogEntry × AlertHistory
  | h, [] => ([], h)
  | h, entry :: entries =>
      if h.Due rule now entry then
        (entry :: (selectFrom now (h.record now entry) entries).1,
          (selectFrom now (h.record now entry) entries).2)
      else selectFrom now h entries

def select (h : AlertHistory) (now : Int) (entries : List LogEntry) :
    List LogEntry × AlertHistory := selectFrom rule now (h.turn now) entries

/-- The history after some calls. -/
def after (h : AlertHistory) (calls : List (Int × List LogEntry)) : AlertHistory :=
  calls.foldl (fun h call => (h.select rule call.1 call.2).2) h

/-- Two selections of one fingerprint are the window apart. -/
def Apart (h : AlertHistory) : Prop :=
  h.selections.Pairwise fun a b => a.2 = b.2 → rule.dedupNanos ≤ b.1 - a.1

variable {rule} {h : AlertHistory}

theorem turn_selections (now : Int) : (h.turn now).selections = h.selections := by
  unfold turn
  split
  · exact List.append_nil _
  · rfl

/-- A call adds what it selects. -/
theorem selectFrom_selections (now : Int) (entries : List LogEntry) :
    (h.selectFrom rule now entries).2.selections =
      h.selections ++ (h.selectFrom rule now entries).1.map fun entry => (now, alertKey entry) := by
  induction entries generalizing h with
  | nil => exact (List.append_nil _).symm
  | cons entry entries ih =>
      rw [selectFrom]
      split
      · rw [ih, List.map_cons]
        unfold record selections
        simp
      · exact ih

theorem selectFrom_apart (happart : h.Apart rule) (now : Int) (entries : List LogEntry) :
    (h.selectFrom rule now entries).2.Apart rule := by
  induction entries generalizing h with
  | nil => exact happart
  | cons entry entries ih =>
      rw [selectFrom]
      split
      case isTrue hdue =>
        apply ih
        unfold Apart record selections
        rw [← List.append_assoc]
        apply List.pairwise_append.mpr
        refine ⟨happart, List.pairwise_singleton _ _, ?_⟩
        intro alert halert new hnew hkey
        rw [List.mem_singleton.mp hnew] at hkey ⊢
        exact Int.not_lt.mp (hdue.2.2 alert halert hkey)
      case isFalse => exact ih happart

theorem select_apart (happart : h.Apart rule) (now : Int) (entries : List LogEntry) :
    (h.select rule now entries).2.Apart rule := by
  apply selectFrom_apart
  unfold Apart
  rw [turn_selections]
  exact happart

theorem after_apart (happart : h.Apart rule) (calls : List (Int × List LogEntry)) :
    (h.after rule calls).Apart rule := by
  induction calls generalizing h with
  | nil => exact happart
  | cons call calls ih => exact ih (select_apart happart call.1 call.2)

end AlertHistory

namespace Alerting

/-- The state after some calls of `select_alerting`. -/
def after (s : Alerting) (calls : List (Int × List LogEntry)) : Alerting :=
  calls.foldl (fun s call => (s.selectAlerting call.1 call.2).1) s

/-- What the calls have selected. -/
def selections (s : Alerting) : List (Int × List LogEntry) → List (Int × Bytes)
  | [] => []
  | call :: calls =>
      ((s.selectAlerting call.1 call.2).2.map fun entry => (call.1, alertKey entry)) ++
        (s.selectAlerting call.1 call.2).1.selections calls

/-- No call clears the table as a whole. -/
def Uncleared (s : Alerting) : List (Int × List LogEntry) → Prop
  | [] => True
  | call :: calls =>
      ¬ s.Clears call.1 call.2 ∧ (s.selectAlerting call.1 call.2).1.Uncleared calls

/-- The clock does not go back. -/
def InOrder (calls : List (Int × List LogEntry)) : Prop :=
  calls.Pairwise fun a b => a.1 ≤ b.1

instance (calls : List (Int × List LogEntry)) : Decidable (InOrder calls) :=
  inferInstanceAs (Decidable (List.Pairwise _ _))

/-- The pipeline decides as the history does, from `last` on. -/
structure Refines (rule : AlertRule) (s : Alerting) (h : AlertHistory) (last : Int) : Prop where
  rule_eq : s.rule = rule
  dedup : rule.dedupTicks = rule.dedupNanos
  windowStart : s.rateWindowStart = h.windowStart
  rateCount : s.rateCount = h.current.length
  remembers : Throttle.Remembers rule.dedupTicks s.recentAlerts h.selections last

variable {rule : AlertRule} {s : Alerting} {h : AlertHistory} {last now : Int}

/-! ## One call -/

theorem Refines.turnWindow (hr : Refines rule s h last) (hle : last ≤ now) :
    Refines rule (s.turnWindow now) (h.turn now) now := by
  unfold Alerting.turnWindow AlertHistory.turn
  rw [hr.windowStart]
  split
  · refine ⟨hr.rule_eq, hr.dedup, rfl, rfl, ?_⟩
    unfold AlertHistory.selections
    rw [List.append_nil]
    exact hr.remembers.later hle
  · exact ⟨hr.rule_eq, hr.dedup, hr.windowStart, hr.rateCount, hr.remembers.later hle⟩

/-- The three tests of the loop are the condition on the history. -/
theorem Refines.due_iff (hr : Refines rule s h now) (entry : LogEntry) :
    h.Due rule now entry ↔ levelAtLeast entry.level s.rule.minLevel = true ∧
      s.rateExceeded = false ∧ s.duplicate now (alertKey entry) = false := by
  unfold AlertHistory.Due
  rw [hr.rule_eq]
  have hrate : s.rateExceeded = false ↔
      (0 < rule.maxAlertsPerMinute → h.current.length < rule.maxAlertsPerMinute) := by
    unfold rateExceeded
    rw [hr.rule_eq, hr.rateCount, Bool.and_eq_false_imp, decide_eq_true_eq, decide_eq_false_iff_not,
      Nat.not_le]
  have hdup : s.duplicate now (alertKey entry) = false ↔
      ∀ alert ∈ h.selections, alert.2 = alertKey entry → ¬ now - alert.1 < rule.dedupNanos := by
    have hblocks := hr.remembers.blocks now (Int.le_refl now) (alertKey entry)
    rw [← Bool.not_eq_true, duplicate, hr.rule_eq, Option.any_eq_true, ← hr.dedup]
    constructor
    · intro hnone alert halert hkey hrecent
      obtain ⟨t, ht, hlt⟩ := hblocks.mpr ⟨alert, halert, hkey, hrecent⟩
      exact hnone ⟨t, ht, decide_eq_true hlt⟩
    · rintro hall ⟨t, ht, hlt⟩
      obtain ⟨alert, halert, hkey, hrecent⟩ := hblocks.mp ⟨t, ht, of_decide_eq_true hlt⟩
      exact hall alert halert hkey hrecent
  rw [hrate, hdup]

theorem Refines.record (hr : Refines rule s h now) (entry : LogEntry) :
    Refines rule (s.remember now (alertKey entry)) (h.record now entry) now := by
  refine ⟨hr.rule_eq, hr.dedup, hr.windowStart, ?_, ?_⟩
  · unfold AlertHistory.record Alerting.remember
    rw [List.length_append, List.length_singleton, hr.rateCount]
  · unfold AlertHistory.record AlertHistory.selections
    rw [← List.append_assoc]
    exact hr.remembers.insert (alertKey entry)

/-- The loop over the entries selects what the history selects. -/
theorem Refines.select (entries : List LogEntry) (done : Selecting)
    (hr : Refines rule done.alerting h now) :
    (entries.foldl (visit now) done).selected =
        done.selected ++ (h.selectFrom rule now entries).1 ∧
      Refines rule (entries.foldl (visit now) done).alerting (h.selectFrom rule now entries).2
        now := by
  induction entries generalizing done h with
  | nil => exact ⟨(List.append_nil _).symm, hr⟩
  | cons entry entries ih =>
      rw [List.foldl_cons, AlertHistory.selectFrom]
      rcases visit_cases now done entry with
        ⟨hlevel, hrate, hdup, hvisit⟩ | ⟨hlevel, hor, hvisit⟩ | ⟨hlevel, hvisit⟩
      · rw [if_pos ((hr.due_iff entry).mpr ⟨hlevel, hrate, hdup⟩), hvisit]
        obtain ⟨hselected, hrest⟩ := ih { done with
          alerting := done.alerting.remember now (alertKey entry)
          selected := done.selected ++ [entry] } (hr.record entry)
        refine ⟨hselected.trans ?_, hrest⟩
        rw [List.append_assoc, List.singleton_append]
      · rw [if_neg, hvisit]
        · exact ih { done with suppressed := done.suppressed + 1 } hr
        · rw [hr.due_iff entry]
          rintro ⟨-, hrate, hdup⟩
          rcases hor with hor | hor
          · exact Bool.false_ne_true (hrate.symm.trans hor)
          · exact Bool.false_ne_true (hdup.symm.trans hor)
      · rw [if_neg, hvisit]
        · exact ih done hr
        · rw [hr.due_iff entry]
          rintro ⟨hlevel', -⟩
          exact Bool.false_ne_true (hlevel.symm.trans hlevel')

/-- Purging changes no later decision. -/
theorem Refines.limitRecent (hr : Refines rule s h now)
    (hclear : ¬ s.rule.dedupCacheSize < (s.purged now).remembered) :
    Refines rule (s.limitRecent now) h now := by
  unfold Alerting.limitRecent
  rw [if_neg hclear]
  split
  · refine ⟨hr.rule_eq, hr.dedup, hr.windowStart, hr.rateCount, ?_⟩
    show Throttle.Remembers _ (Throttle.purge s.rule.dedupTicks now s.recentAlerts) _ _
    rw [hr.rule_eq]
    exact hr.remembers.purge
  · exact hr

/-- The entries of the loop do not change the rule. -/
theorem select_rule (entries : List LogEntry) (done : Selecting) :
    (entries.foldl (visit now) done).alerting.rule = done.alerting.rule := by
  induction entries generalizing done with
  | nil => rfl
  | cons entry entries ih =>
      rw [List.foldl_cons, ih]
      rcases visit_cases now done entry with ⟨-, -, -, hvisit⟩ | ⟨-, -, hvisit⟩ | ⟨-, hvisit⟩
      · rw [hvisit, remember]
      · rw [hvisit]
      · rw [hvisit]

theorem Refines.selectAlerting (hr : Refines rule s h last) (hle : last ≤ now)
    (entries : List LogEntry) :
    (s.selectAlerting now entries).2 = (h.select rule now entries).1 ∧
      (¬ s.Clears now entries →
        Refines rule (s.selectAlerting now entries).1 (h.select rule now entries).2 now) := by
  obtain ⟨hselected, hrest⟩ := Refines.select entries { alerting := s.turnWindow now }
    (hr.turnWindow hle)
  refine ⟨hselected, fun hclear => ?_⟩
  have hlimited := hrest.limitRecent (fun hlarge => hclear ?_)
  · exact ⟨hlimited.rule_eq, hlimited.dedup, hlimited.windowStart, hlimited.rateCount,
      hlimited.remembers⟩
  · have hrule : (s.select now entries).alerting.rule = s.rule := by
      rw [Alerting.select, select_rule]
      exact (hr.turnWindow hle).rule_eq.trans hr.rule_eq.symm
    unfold Clears
    rw [← hrule]
    exact hlarge

/-! ## Runs -/

/-- As long as the table is not cleared, the pipeline goes along with the history, which
holds what the pipeline has selected. -/
theorem Refines.after (hr : Refines rule s h last) (calls : List (Int × List LogEntry))
    (hlast : ∀ call ∈ calls, last ≤ call.1) (horder : InOrder calls) (hclear : s.Uncleared calls)
    (hle : last ≤ now) (hnow : ∀ call ∈ calls, call.1 ≤ now) :
    Refines rule (s.after calls) (h.after rule calls) now ∧
      (h.after rule calls).selections = h.selections ++ s.selections calls := by
  induction calls generalizing s h last with
  | nil =>
      exact ⟨⟨hr.rule_eq, hr.dedup, hr.windowStart, hr.rateCount, hr.remembers.later hle⟩,
        (List.append_nil _).symm⟩
  | cons call calls ih =>
      obtain ⟨hfirst, horder⟩ := List.pairwise_cons.mp horder
      obtain ⟨hselected, hgoes⟩ := hr.selectAlerting (hlast call List.mem_cons_self) call.2
      obtain ⟨hrest, hselections⟩ := ih (hgoes hclear.1) hfirst horder hclear.2
        (hnow call List.mem_cons_self)
        fun other hother => hnow other (List.mem_cons_of_mem _ hother)
      refine ⟨hrest, hselections.trans ?_⟩
      have hadded : (h.select rule call.1 call.2).2.selections =
          h.selections ++ (s.selectAlerting call.1 call.2).2.map
            fun entry => (call.1, alertKey entry) := by
        rw [hselected, AlertHistory.select, AlertHistory.selectFrom_selections,
          AlertHistory.turn_selections]
      rw [hadded, selections, List.append_assoc]

/-- The table is at most as large as the rule says. -/
theorem limitRecent_remembered (s : Alerting) (now : Int) :
    (s.limitRecent now).remembered ≤ s.rule.dedupCacheSize := by
  unfold limitRecent
  split
  case isTrue =>
    split
    case isTrue => exact Nat.zero_le _
    case isFalse hsmall => exact Nat.not_lt.mp hsmall
  case isFalse hsmall => exact Nat.not_lt.mp hsmall

theorem limitRecent_rule (s : Alerting) (now : Int) : (s.limitRecent now).rule = s.rule := by
  unfold limitRecent
  split
  · split <;> rfl
  · rfl

theorem turnWindow_rule (s : Alerting) (now : Int) : (s.turnWindow now).rule = s.rule := by
  unfold turnWindow
  split <;> rfl

theorem selectAlerting_rule (s : Alerting) (now : Int) (entries : List LogEntry) :
    (s.selectAlerting now entries).1.rule = s.rule := by
  show ((s.select now entries).alerting.limitRecent now).rule = s.rule
  rw [limitRecent_rule, select, select_rule, turnWindow_rule]

theorem selectAlerting_remembered (s : Alerting) (now : Int) (entries : List LogEntry) :
    (s.selectAlerting now entries).1.remembered ≤ s.rule.dedupCacheSize := by
  have hle := limitRecent_remembered (s.select now entries).alerting now
  rw [select, select_rule, turnWindow_rule] at hle
  exact hle

theorem after_remembered (hs : s.remembered ≤ s.rule.dedupCacheSize)
    (calls : List (Int × List LogEntry)) : (s.after calls).remembered ≤ s.rule.dedupCacheSize := by
  induction calls generalizing s with
  | nil => exact hs
  | cons call calls ih =>
      have hrule := selectAlerting_rule s call.1 call.2
      have hfirst := selectAlerting_remembered s call.1 call.2
      rw [← hrule] at hfirst ⊢
      exact ih hfirst

/-- Only selections start a window of their fingerprint. -/
def Selected (s : Alerting) (past : List (Int × Bytes)) : Prop :=
  ∀ key, ∀ t ∈ s.recentAlerts.lookup key, (t, key) ∈ past

theorem Selected.visits (now : Int) (past : List (Int × Bytes)) (entries : List LogEntry)
    (done : Selecting) (hs : done.alerting.Selected
      (past ++ done.selected.map fun entry => (now, alertKey entry))) :
    (entries.foldl (visit now) done).alerting.Selected
      (past ++
        (entries.foldl (visit now) done).selected.map fun entry => (now, alertKey entry)) := by
  induction entries generalizing done with
  | nil => exact hs
  | cons entry entries ih =>
      rw [List.foldl_cons]
      apply ih
      rcases visit_cases now done entry with ⟨-, -, -, hvisit⟩ | ⟨-, -, hvisit⟩ | ⟨-, hvisit⟩
      · rw [hvisit]
        intro key t ht
        rw [List.map_append, ← List.append_assoc]
        change t ∈ (done.alerting.recentAlerts.insert (alertKey entry) now).lookup key at ht
        by_cases hsame : key = alertKey entry
        · subst hsame
          rw [AList.lookup_insert] at ht
          obtain rfl := Option.some.inj ht
          exact List.mem_append_right _ List.mem_cons_self
        · rw [AList.lookup_insert_ne hsame] at ht
          exact List.mem_append_left _ (hs key t ht)
      · rw [hvisit]
        exact hs
      · rw [hvisit]
        exact hs

theorem Selected.limitRecent {past : List (Int × Bytes)} (hs : s.Selected past) (now : Int) :
    (s.limitRecent now).Selected past := by
  unfold Alerting.limitRecent
  split
  · split
    · intro key t ht
      exact absurd ht (by simp)
    · intro key t ht
      exact hs key t (Throttle.mem_lookup_purge.mp ht).1
  · exact hs

theorem Selected.after {past : List (Int × Bytes)} (hs : s.Selected past)
    (calls : List (Int × List LogEntry)) :
    (s.after calls).Selected (past ++ s.selections calls) := by
  induction calls generalizing s past with
  | nil =>
      rw [selections, List.append_nil]
      exact hs
  | cons call calls ih =>
      rw [selections, ← List.append_assoc]
      apply ih
      have hturned : (s.turnWindow call.1).Selected past := by
        unfold Alerting.turnWindow
        split <;> exact hs
      have hvisited := Selected.visits call.1 past call.2 { alerting := s.turnWindow call.1 } (by
          rw [List.map_nil, List.append_nil]
          exact hturned)
      exact hvisited.limitRecent call.1

theorem selections_concat (s : Alerting) (calls : List (Int × List LogEntry))
    (call : Int × List LogEntry) :
    s.selections (calls ++ [call]) = s.selections calls ++
      ((s.after calls).selectAlerting call.1 call.2).2.map
        fun entry => (call.1, alertKey entry) := by
  induction calls generalizing s with
  | nil => exact List.append_nil _
  | cons first calls ih =>
      rw [List.cons_append, selections, ih, selections, List.append_assoc]
      rfl

/-- The alert state before the first call. -/
def start (rule : AlertRule) (rateWindowStart : Int) : Alerting :=
  { rule := rule, rateWindowStart := rateWindowStart }

theorem start_refines (hdedup : rule.dedupTicks = rule.dedupNanos) (rateWindowStart last : Int) :
    Refines rule (start rule rateWindowStart) { windowStart := rateWindowStart } last :=
  ⟨rfl, hdedup, rfl, rfl, Throttle.Remembers.empty⟩

/-- De-duplication and its history. In every run the table keeps at most as many keys as
the rule says and only selections are in it. As long as no call clears the table and the
window is at most 9223372036 seconds, the history holds what was selected, the selections
of one fingerprint are apart, and the next call selects what is due by the history. -/
theorem run_selectAlerting (rule : AlertRule) (rateWindowStart : Int)
    (calls : List (Int × List LogEntry)) :
    ((start rule rateWindowStart).after calls).remembered ≤ rule.dedupCacheSize ∧
      ((start rule rateWindowStart).after calls).Selected
        ((start rule rateWindowStart).selections calls) ∧
      ∀ (now : Int) (entries : List LogEntry),
        -9223372036 ≤ rule.dedupWindow → rule.dedupWindow ≤ 9223372036 →
        InOrder (calls ++ [(now, entries)]) → (start rule rateWindowStart).Uncleared calls →
        ((start rule rateWindowStart).selections (calls ++ [(now, entries)])).Pairwise
            (fun a b => a.2 = b.2 → rule.dedupWindow * 1000000000 ≤ b.1 - a.1) ∧
          (AlertHistory.after rule { windowStart := rateWindowStart } calls).selections =
            (start rule rateWindowStart).selections calls ∧
          (((start rule rateWindowStart).after calls).selectAlerting now entries).2 =
            (AlertHistory.select rule
              (AlertHistory.after rule { windowStart := rateWindowStart } calls) now
              entries).1 := by
  refine ⟨after_remembered (Nat.zero_le _) calls, ?_, ?_⟩
  · have hempty : (start rule rateWindowStart).Selected [] := by
      intro key t ht
      exact absurd ht (by simp [start])
    exact hempty.after calls
  · intro now entries hlow hhigh horder hclear
    obtain ⟨hcalls, -, hnow⟩ := List.pairwise_append.mp horder
    have hnow : ∀ call ∈ calls, call.1 ≤ now :=
      fun call hcall => hnow call hcall _ (List.mem_singleton_self _)
    obtain ⟨last, hlast, hle⟩ : ∃ last, (∀ call ∈ calls, last ≤ call.1) ∧ last ≤ now := by
      cases calls with
      | nil => exact ⟨now, fun _ hcall => absurd hcall List.not_mem_nil, Int.le_refl now⟩
      | cons first calls =>
          refine ⟨first.1, fun call hcall => ?_, hnow first List.mem_cons_self⟩
          rcases List.mem_cons.mp hcall with rfl | hcall
          · exact Int.le_refl _
          · exact (List.pairwise_cons.mp hcalls).1 call hcall
    obtain ⟨hrefines, hselections⟩ := (start_refines (AlertRule.dedupTicks_eq hlow hhigh)
      rateWindowStart last).after calls hlast hcalls hclear hle hnow
    have hselected := (hrefines.selectAlerting (Int.le_refl now) entries).1
    have hempty : AlertHistory.Apart rule { windowStart := rateWindowStart } := List.Pairwise.nil
    have happart := AlertHistory.select_apart (AlertHistory.after_apart hempty calls) now entries
    refine ⟨?_, hselections, hselected⟩
    rw [selections_concat, hselected, ← List.nil_append (selections _ _)]
    unfold AlertHistory.Apart AlertHistory.select at happart
    rw [AlertHistory.selectFrom_selections, AlertHistory.turn_selections, hselections] at happart
    exact happart

/-- Two entries with one fingerprint: the second is a duplicate for a minute. -/
def timeout30 : LogEntry := { level := .error, message := ascii "timeout after 30s" }

def timeout45 : LogEntry := { level := .error, message := ascii "timeout after 45s" }

theorem run_selectAlerting_timeouts :
    (((start {} 0).after [(0, [timeout30])]).selectAlerting 59000000000 [timeout45]).2 = [] ∧
      (((start {} 0).after [(0, [timeout30])]).selectAlerting 60000000000 [timeout45]).2 =
        [timeout45] := by
  have hrun := (run_selectAlerting {} 0 [(0, [timeout30])]).2.2
  constructor
  · rw [(hrun 59000000000 [timeout45] (by decide) (by decide) (by decide)
      ⟨by decide, trivial⟩).2.2]
    rfl
  · rw [(hrun 60000000000 [timeout45] (by decide) (by decide) (by decide)
      ⟨by decide, trivial⟩).2.2]
    rfl

/-- The nanoseconds of a longer window overflow: both entries are selected at one instant, where
the history has one of them due. -/
theorem selectAlerting_overflow :
    let rule : AlertRule := { dedupWindow := 9223372037 }
    ¬ (start rule 0).Clears 0 [timeout30, timeout45] ∧
      ((start rule 0).selectAlerting 0 [timeout30, timeout45]).2 = [timeout30, timeout45] ∧
      (AlertHistory.select rule { windowStart := 0 } 0 [timeout30, timeout45]).1 = [timeout30] := by
  refine ⟨by decide, rfl, rfl⟩

end Alerting

end LogMind
