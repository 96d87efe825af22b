import LogMind.Pipeline.AlertHistory

/-!
# The number of alerts

A window of the rate limit begins with the first call behind the end of the last one, so
it is as long as a minute or longer, and the counter is the number of selections in it.
Every entry of a sufficient level is counted once, as alerted or as suppressed, whether
the plugins throw or not.
-/

namespace LogMind

open Pipeline

/-- A call of `run_alerts`. -/
structure AlertCall where
  alerts : List Alert
  now : Int
  triggeredAt : Int
  entries : List LogEntry

/-- What a call selects, and whether it resets the window. -/
structure Outcome where
  now : Int
  reset : Bool := false
  selected : List LogEntry := []

/-- The times of the selections. -/
def Outcome.times (o : Outcome) : List Int := o.selected.map fun _ => o.now

/-- The times of the selections between two resets, with the newest window first. -/
def windowsFrom : Throttle.Window → List Throttle.Window → List Outcome → List Throttle.Window
  | w, older, [] => w :: older
  | w, older, o :: outcomes =>
      if o.reset then windowsFrom { start := o.now, times := o.times } (w :: older) outcomes
      else windowsFrom { w with times := w.times ++ o.times } older outcomes

namespace Alerting

def alert (s : Alerting) (call : AlertCall) : Alerting :=
  s.runAlerts call.alerts call.now call.triggeredAt call.entries

def outcome (s : Alerting) (call : AlertCall) : Outcome :=
  if call.entries.isEmpty || call.alerts.isEmpty then { now := call.now }
  else
    { now := call.now
      reset := rateWindow ≤ call.now - s.rateWindowStart
      selected := (s.selectAlerting call.now call.entries).2 }

/-- The state after some calls of `run_alerts`. -/
def alertAll (s : Alerting) (calls : List AlertCall) : Alerting := calls.foldl alert s

def outcomes (s : Alerting) : List AlertCall → List Outcome
  | [] => []
  | call :: calls => s.outcome call :: (s.alert call).outcomes calls

/-- The entries whose level is high enough. -/
def eligible (rule : AlertRule) (entries : List LogEntry) : Nat :=
  entries.countP fun entry => levelAtLeast entry.level rule.minLevel

variable {rule : AlertRule} {s : Alerting}

/-! ## One call -/

theorem visits_rateCount (now : Int) (entries : List LogEntry) (done : Selecting) :
    (entries.foldl (visit now) done).alerting.rateCount + done.selected.length =
      done.alerting.rateCount + (entries.foldl (visit now) done).selected.length := by
  induction entries generalizing done with
  | nil => rfl
  | cons entry entries ih =>
      have hrest := ih (visit now done entry)
      rw [List.foldl_cons]
      rcases visit_cases now done entry with ⟨-, -, -, hvisit⟩ | ⟨-, -, hvisit⟩ | ⟨-, hvisit⟩
      · have hcount : (visit now done entry).alerting.rateCount = done.alerting.rateCount + 1 := by
          rw [hvisit, remember]
        have hlength : (visit now done entry).selected.length = done.selected.length + 1 := by
          rw [hvisit, List.length_append, List.length_singleton]
        omega
      · rw [hvisit] at hrest ⊢
        exact hrest
      · rw [hvisit] at hrest ⊢
        exact hrest

/-- An entry is selected only while the budget lasts. -/
theorem visits_rateCount_le (now : Int) (entries : List LogEntry) (done : Selecting)
    (hlimit : 0 < done.alerting.rule.maxAlertsPerMinute)
    (hle : done.alerting.rateCount ≤ done.alerting.rule.maxAlertsPerMinute) :
    (entries.foldl (visit now) done).alerting.rateCount ≤
      done.alerting.rule.maxAlertsPerMinute := by
  induction entries generalizing done with
  | nil => exact hle
  | cons entry entries ih =>
      rw [List.foldl_cons]
      rcases visit_cases now done entry with ⟨-, hrate, -, hvisit⟩ | ⟨-, -, hvisit⟩ | ⟨-, hvisit⟩
      · have hroom : done.alerting.rateCount < done.alerting.rule.maxAlertsPerMinute := by
          unfold rateExceeded at hrate
          rw [decide_eq_true hlimit, Bool.true_and, decide_eq_false_iff_not] at hrate
          exact Nat.not_le.mp hrate
        rw [hvisit]
        exact ih _ hlimit hroom
      · rw [hvisit]
        exact ih _ hlimit hle
      · rw [hvisit]
        exact ih _ hlimit hle

/-- Every entry of a sufficient level is selected or suppressed. -/
theorem visits_suppressed (now : Int) (entries : List LogEntry) (done : Selecting) :
    (entries.foldl (visit now) done).selected.length +
        (entries.foldl (visit now) done).suppressed =
      done.selected.length + done.suppressed + eligible done.alerting.rule entries := by
  induction entries generalizing done with
  | nil => rfl
  | cons entry entries ih =>
      have hrest := ih (visit now done entry)
      have hcons : eligible done.alerting.rule (entry :: entries) =
          eligible done.alerting.rule entries +
            if levelAtLeast entry.level done.alerting.rule.minLevel = true then 1 else 0 :=
        List.countP_cons
      rw [List.foldl_cons, hrest, hcons]
      rcases visit_cases now done entry with
        ⟨hlevel, -, -, hvisit⟩ | ⟨hlevel, -, hvisit⟩ | ⟨hlevel, hvisit⟩
      · rw [hvisit, hlevel, if_pos rfl, List.length_append, List.length_singleton, remember]
        simp only [Nat.add_assoc, Nat.add_comm]
      · rw [hvisit, hlevel, if_pos rfl]
        simp only [Nat.add_assoc, Nat.add_comm, Nat.add_left_comm]
      · rw [hvisit, hlevel, if_neg Bool.false_ne_true, Nat.add_zero]

/-- The loop leaves the window and the counters alone. -/
theorem visits_frame (now : Int) (entries : List LogEntry) (done : Selecting) :
    (entries.foldl (visit now) done).alerting.rateWindowStart = done.alerting.rateWindowStart ∧
      (entries.foldl (visit now) done).alerting.totalAlerts = done.alerting.totalAlerts ∧
      (entries.foldl (visit now) done).alerting.totalSuppressed =
        done.alerting.totalSuppressed := by
  induction entries generalizing done with
  | nil => exact ⟨rfl, rfl, rfl⟩
  | cons entry entries ih =>
      rw [List.foldl_cons]
      rcases visit_cases now done entry with ⟨-, -, -, hvisit⟩ | ⟨-, -, hvisit⟩ | ⟨-, hvisit⟩
      · rw [hvisit]
        exact ih _
      · rw [hvisit]
        exact ih _
      · rw [hvisit]
        exact ih _

/-- Keeping the table small leaves the window and the counters alone. -/
theorem limitRecent_frame (s : Alerting) (now : Int) :
    (s.limitRecent now).rateWindowStart = s.rateWindowStart ∧
      (s.limitRecent now).rateCount = s.rateCount ∧
      (s.limitRecent now).totalAlerts = s.totalAlerts ∧
      (s.limitRecent now).totalSuppressed = s.totalSuppressed := by
  unfold limitRecent
  split
  · split
    · exact ⟨rfl, rfl, rfl, rfl⟩
    · exact ⟨rfl, rfl, rfl, rfl⟩
  · exact ⟨rfl, rfl, rfl, rfl⟩

/-- What one call of `select_alerting` does to the window and to the counters. -/
theorem selectAlerting_spec (s : Alerting) (now : Int) (entries : List LogEntry) :
    (s.selectAlerting now entries).1.rateWindowStart = (s.turnWindow now).rateWindowStart ∧
      (s.selectAlerting now entries).1.rateCount =
        (s.turnWindow now).rateCount + (s.selectAlerting now entries).2.length ∧
      (s.selectAlerting now entries).1.totalAlerts = s.totalAlerts ∧
      (s.selectAlerting now entries).2.length +
          (s.selectAlerting now entries).1.totalSuppressed =
        s.totalSuppressed + eligible s.rule entries := by
  obtain ⟨hstart, halerts, hsuppressed⟩ :=
    visits_frame now entries { alerting := s.turnWindow now }
  obtain ⟨hstart', hcount', halerts', hsuppressed'⟩ :=
    limitRecent_frame (s.select now entries).alerting now
  have hcount := visits_rateCount now entries { alerting := s.turnWindow now }
  have htotal := visits_suppressed now entries { alerting := s.turnWindow now }
  have hturned : (s.turnWindow now).totalAlerts = s.totalAlerts ∧
      (s.turnWindow now).totalSuppressed = s.totalSuppressed := by
    unfold turnWindow
    split
    · exact ⟨rfl, rfl⟩
    · exact ⟨rfl, rfl⟩
  rw [turnWindow_rule, List.length_nil, Nat.zero_add, Nat.zero_add] at htotal
  refine ⟨hstart'.trans hstart, hcount'.trans hcount, ?_, ?_⟩
  · exact halerts'.trans (halerts.trans hturned.1)
  · show (s.select now entries).selected.length + (((s.select now entries).alerting.limitRecent
      now).totalSuppressed + (s.select now entries).suppressed) = _
    rw [hsuppressed', select, hsuppressed, hturned.2, ← htotal]
    simp only [Nat.add_left_comm]

theorem selectAlerting_rateCount_le (s : Alerting) (now : Int) (entries : List LogEntry)
    (hlimit : 0 < s.rule.maxAlertsPerMinute) (hle : s.rateCount ≤ s.rule.maxAlertsPerMinute) :
    (s.selectAlerting now entries).1.rateCount ≤ s.rule.maxAlertsPerMinute := by
  have hturned : (s.turnWindow now).rateCount ≤ s.rule.maxAlertsPerMinute := by
    unfold turnWindow
    split
    · exact Nat.zero_le _
    · exact hle
  have hvisits := visits_rateCount_le now entries { alerting := s.turnWindow now }
    (by rw [turnWindow_rule]; exact hlimit) (by rw [turnWindow_rule]; exact hturned)
  rw [turnWindow_rule] at hvisits
  have hsame := (limitRecent_frame (s.select now entries).alerting now).2.1
  exact Nat.le_trans (Nat.le_of_eq hsame) hvisits

/-- What one call of `run_alerts` does, in terms of its outcome. -/
structure Step (s t : Alerting) (o : Outcome) : Prop where
  rule_eq : t.rule = s.rule
  start : t.rateWindowStart = if o.reset then o.now else s.rateWindowStart
  count : t.rateCount = (if o.reset then 0 else s.rateCount) + o.selected.length
  late : o.reset = true → s.rateWindowStart + rateWindow ≤ o.now
  count_le : 0 < s.rule.maxAlertsPerMinute → s.rateCount ≤ s.rule.maxAlertsPerMinute →
    t.rateCount ≤ s.rule.maxAlertsPerMinute

theorem runAlerts_eq (s : Alerting) {alerts : List Alert} (now triggeredAt : Int)
    {entries : List LogEntry} (hentries : entries ≠ []) (halerts : alerts ≠ []) :
    ∃ totalErrors, s.runAlerts alerts now triggeredAt entries =
      { (s.selectAlerting now entries).1 with
        totalErrors := totalErrors
        totalAlerts := (s.selectAlerting now entries).1.totalAlerts +
          (s.selectAlerting now entries).2.length } := by
  unfold runAlerts
  rw [List.isEmpty_eq_false_iff.mpr hentries, List.isEmpty_eq_false_iff.mpr halerts, Bool.or_self,
    if_neg Bool.false_ne_true]
  dsimp only
  cases hselected : (s.selectAlerting now entries).2 with
  | nil => exact ⟨_, rfl⟩
  | cons first rest => exact ⟨_, rfl⟩

theorem alert_step (s : Alerting) (call : AlertCall) : Step s (s.alert call) (s.outcome call) := by
  unfold alert outcome
  by_cases hskip : (call.entries.isEmpty || call.alerts.isEmpty) = true
  · have hsame : s.runAlerts call.alerts call.now call.triggeredAt call.entries = s := by
      rw [runAlerts, if_pos hskip]
    rw [hsame, if_pos hskip]
    exact ⟨rfl, rfl, rfl, fun h => absurd h Bool.false_ne_true, fun _ hle => hle⟩
  · have hnot := hskip
    rw [Bool.or_eq_true, not_or, List.isEmpty_iff, List.isEmpty_iff] at hnot
    obtain ⟨totalErrors, heq⟩ :=
      s.runAlerts_eq call.now call.triggeredAt hnot.1 hnot.2
    obtain ⟨hstart, hcount, -, -⟩ := selectAlerting_spec s call.now call.entries
    rw [heq, if_neg hskip]
    refine ⟨selectAlerting_rule s call.now call.entries, hstart.trans ?_, hcount.trans ?_, ?_,
      selectAlerting_rateCount_le s call.now call.entries⟩
    · unfold turnWindow
      by_cases hlate : rateWindow ≤ call.now - s.rateWindowStart
      · rw [if_pos hlate, if_pos (decide_eq_true hlate)]
      · rw [if_neg hlate, if_neg (by simpa using hlate)]
    · congr 1
      unfold turnWindow
      by_cases hlate : rateWindow ≤ call.now - s.rateWindowStart
      · rw [if_pos hlate, if_pos (decide_eq_true hlate)]
      · rw [if_neg hlate, if_neg (by simpa using hlate)]
    · intro hreset
      have hlate := of_decide_eq_true hreset
      show s.rateWindowStart + rateWindow ≤ call.now
      omega

/-- Every entry of a sufficient level is counted once. -/
theorem alert_totals (s : Alerting) {call : AlertCall} (halerts : call.alerts ≠ []) :
    (s.alert call).totalAlerts = s.totalAlerts + (s.outcome call).selected.length ∧
      (s.alert call).totalAlerts + (s.alert call).totalSuppressed =
        s.totalAlerts + s.totalSuppressed + eligible s.rule call.entries := by
  unfold alert outcome
  by_cases hentries : call.entries = []
  · rw [hentries]
    exact ⟨rfl, rfl⟩
  · obtain ⟨totalErrors, heq⟩ :=
      s.runAlerts_eq call.now call.triggeredAt hentries halerts
    obtain ⟨-, -, hsame, htotal⟩ := selectAlerting_spec s call.now call.entries
    have hskip : (call.entries.isEmpty || call.alerts.isEmpty) = false := by
      rw [List.isEmpty_eq_false_iff.mpr hentries, List.isEmpty_eq_false_iff.mpr halerts,
        Bool.or_self]
    rw [heq, hskip, if_neg Bool.false_ne_true]
    show _ + _ = _ ∧ _ + _ + _ = _
    rw [hsame]
    refine ⟨rfl, ?_⟩
    show s.totalAlerts + _ + (s.selectAlerting call.now call.entries).1.totalSuppressed = _
    rw [Nat.add_assoc, htotal, Nat.add_assoc]

/-! ## Runs -/

/-- The windows of a run: the newest one is that of the state. -/
structure Counted (s : Alerting) (w : Throttle.Window) (older : List Throttle.Window)
    (last : Int) : Prop where
  start : w.start = s.rateWindowStart
  count : w.times.length = s.rateCount
  started : w.start ≤ last
  past : ∀ t ∈ w.times, t ≤ last
  spaced : Throttle.Spaced rateWindow s.rule.maxAlertsPerMinute (w :: older)

/-- The same window goes on, or the next one begins. -/
theorem Counted.step {w : Throttle.Window} {older : List Throttle.Window} {last : Int}
    {t : Alerting} {o : Outcome} (h : Counted s w older last) (hstep : Step s t o)
    (hlimit : 0 < s.rule.maxAlertsPerMinute) (hle : last ≤ o.now) :
    if o.reset then Counted t { start := o.now, times := o.times } (w :: older) o.now
    else Counted t { w with times := w.times ++ o.times } older o.now := by
  have hlength : o.times.length = o.selected.length := List.length_map _
  have htimes : ∀ t ∈ o.times, t = o.now := by
    intro t ht
    obtain ⟨entry, -, rfl⟩ := List.mem_map.mp ht
    rfl
  have hroom := hstep.count_le hlimit
    (h.count ▸ h.spaced.limited w List.mem_cons_self)
  have hstart := hstep.start
  have hcount := hstep.count
  obtain ⟨hlimited, hbegun, hapart⟩ := h.spaced
  split
  case isTrue hreset =>
    rw [if_pos hreset] at hstart hcount
    rw [Nat.zero_add] at hcount
    refine ⟨hstart.symm, hlength.trans hcount.symm, Int.le_refl _,
      fun t ht => Int.le_of_eq (htimes t ht), ?_⟩
    rw [hstep.rule_eq]
    constructor
    · intro v hv
      rcases List.mem_cons.mp hv with rfl | hv
      · exact Nat.le_trans (Nat.le_of_eq (hlength.trans hcount.symm)) hroom
      · exact hlimited v hv
    · intro v hv t ht
      rcases List.mem_cons.mp hv with rfl | hv
      · exact Int.le_of_eq (htimes t ht).symm
      · exact hbegun v hv t ht
    · refine List.pairwise_cons.mpr ⟨fun v hv => ?_, hapart⟩
      have hlate := hstep.late hreset
      have hself := h.start
      rcases List.mem_cons.mp hv with rfl | hv
      · refine ⟨?_, fun t ht => Int.le_trans (h.past t ht) hle⟩
        show v.start + rateWindow ≤ o.now
        omega
      · obtain ⟨hspace, hover⟩ := (List.pairwise_cons.mp hapart).1 v hv
        have hstarted := h.started
        refine ⟨?_, fun t ht => ?_⟩
        · show v.start + rateWindow ≤ o.now
          omega
        · exact Int.le_trans (hover t ht) (Int.le_trans hstarted hle)
  case isFalse hreset =>
    rw [if_neg hreset] at hstart hcount
    have hsame : (w.times ++ o.times).length = t.rateCount := by
      rw [List.length_append, h.count, hlength, hcount]
    refine ⟨h.start.trans hstart.symm, hsame, Int.le_trans h.started hle, ?_, ?_⟩
    · intro t ht
      rcases List.mem_append.mp ht with ht | ht
      · exact Int.le_trans (h.past t ht) hle
      · exact Int.le_of_eq (htimes t ht)
    · rw [hstep.rule_eq]
      constructor
      · intro v hv
        rcases List.mem_cons.mp hv with rfl | hv
        · exact Nat.le_trans (Nat.le_of_eq hsame) hroom
        · exact hlimited v (List.mem_cons_of_mem _ hv)
      · intro v hv t ht
        rcases List.mem_cons.mp hv with rfl | hv
        · rcases List.mem_append.mp ht with ht | ht
          · exact hbegun w List.mem_cons_self t ht
          · rw [htimes t ht]
            exact Int.le_trans h.started hle
        · exact hbegun v (List.mem_cons_of_mem _ hv) t ht
      · exact List.pairwise_cons.mpr (List.pairwise_cons.mp hapart)

/-- The windows hold the selections of the outcomes. -/
theorem windowsFrom_times (w : Throttle.Window) (older : List Throttle.Window)
    (os : List Outcome) :
    ((windowsFrom w older os).flatMap Throttle.Window.times).Perm
      ((w :: older).flatMap Throttle.Window.times ++ os.flatMap Outcome.times) := by
  induction os generalizing w older with
  | nil => exact List.Perm.of_eq (List.append_nil _).symm
  | cons o os ih =>
      rw [windowsFrom]
      split
      · refine (ih _ _).trans ?_
        rw [List.flatMap_cons, List.flatMap_cons (f := Outcome.times), ← List.append_assoc]
        exact List.perm_append_comm.append_right _
      · refine (ih _ _).trans ?_
        simp only [List.flatMap_cons, List.append_assoc]
        refine List.Perm.append_left _ ?_
        rw [← List.append_assoc, ← List.append_assoc]
        exact List.perm_append_comm.append_right _

/-- The run lemma: the windows stay spaced, and the newest one is that of the state. -/
theorem Counted.run {w : Throttle.Window} {older : List Throttle.Window} {last : Int}
    (h : Counted s w older last) (hlimit : 0 < s.rule.maxAlertsPerMinute)
    (calls : List AlertCall) (hclock : (last :: calls.map AlertCall.now).Pairwise (· ≤ ·)) :
    ∃ w' older' last', windowsFrom w older (s.outcomes calls) = w' :: older' ∧
      Counted (s.alertAll calls) w' older' last' ∧ (s.alertAll calls).rule = s.rule := by
  induction calls generalizing s w older last with
  | nil => exact ⟨w, older, last, rfl, h, rfl⟩
  | cons call calls ih =>
      obtain ⟨hfirst, hclock⟩ := List.pairwise_cons.mp hclock
      have hnow : (s.outcome call).now = call.now := by
        unfold outcome
        split <;> rfl
      have hstep := alert_step s call
      have hnext := h.step hstep hlimit (hnow ▸ hfirst _ List.mem_cons_self)
      rw [hnow] at hnext
      have hlimit' : 0 < (s.alert call).rule.maxAlertsPerMinute := by
        rw [hstep.rule_eq]
        exact hlimit
      rw [outcomes, windowsFrom, hnow]
      split at hnext
      case isTrue hreset =>
        obtain ⟨w', older', last', hwindows, hrest, hrule⟩ := ih hnext hlimit' hclock
        rw [if_pos hreset]
        exact ⟨w', older', last', hwindows, hrest, hrule.trans hstep.rule_eq⟩
      case isFalse hreset =>
        obtain ⟨w', older', last', hwindows, hrest, hrule⟩ := ih hnext hlimit' hclock
        rw [if_neg hreset]
        exact ⟨w', older', last', hwindows, hrest, hrule.trans hstep.rule_eq⟩

theorem alertAll_totals (s : Alerting) (calls : List AlertCall)
    (halerts : ∀ call ∈ calls, call.alerts ≠ []) :
    (s.alertAll calls).totalAlerts =
        s.totalAlerts + ((s.outcomes calls).flatMap Outcome.times).length ∧
      (s.alertAll calls).totalAlerts + (s.alertAll calls).totalSuppressed =
        s.totalAlerts + s.totalSuppressed + eligible s.rule (calls.flatMap AlertCall.entries) := by
  induction calls generalizing s with
  | nil => exact ⟨rfl, rfl⟩
  | cons call calls ih =>
      obtain ⟨hselected, htotal⟩ := alert_totals s (halerts call List.mem_cons_self)
      obtain ⟨hrest, hsum⟩ := ih (s.alert call) fun other hother =>
        halerts other (List.mem_cons_of_mem _ hother)
      have hlength : (s.outcome call).times.length = (s.outcome call).selected.length :=
        List.length_map _
      rw [(alert_step s call).rule_eq, htotal] at hsum
      rw [hselected] at hrest
      constructor
      · rw [outcomes, List.flatMap_cons, List.length_append, hlength, ← Nat.add_assoc]
        exact hrest
      · rw [List.flatMap_cons, eligible, List.countP_append, ← Nat.add_assoc]
        exact hsum

/-- The rate limit and the counters, in every run. The selections between two resets and
those of any minute are limited, the counter of the window is the number of selections
in it, and every entry of a sufficient level is counted once. -/
theorem run_alerts_limited (rule : AlertRule) (rateWindowStart : Int) (calls : List AlertCall)
    (hlimit : 0 < rule.maxAlertsPerMinute) (halerts : ∀ call ∈ calls, call.alerts ≠ [])
    (hclock : (rateWindowStart :: calls.map AlertCall.now).Pairwise (· ≤ ·)) :
    let s := start rule rateWindowStart
    let windows := windowsFrom { start := rateWindowStart } [] (s.outcomes calls)
    let times := (s.outcomes calls).flatMap Outcome.times
    (∀ w ∈ windows, w.times.length ≤ rule.maxAlertsPerMinute) ∧
      (∀ a, (times.filter fun t => a ≤ t ∧ t < a + rateWindow).length ≤
        2 * rule.maxAlertsPerMinute) ∧
      windows.head?.map (fun w => w.times.length) = some (s.alertAll calls).rateCount ∧
      (s.alertAll calls).totalAlerts = times.length ∧
      (s.alertAll calls).totalAlerts + (s.alertAll calls).totalSuppressed =
        eligible rule (calls.flatMap AlertCall.entries) := by
  intro s windows times
  have hstart : Counted s { start := rateWindowStart } [] rateWindowStart := by
    refine ⟨rfl, rfl, Int.le_refl _, fun t ht => absurd ht List.not_mem_nil, ?_, ?_, ?_⟩
    · intro w hw
      rw [List.mem_singleton.mp hw]
      exact Nat.zero_le _
    · intro w hw t ht
      rw [List.mem_singleton.mp hw] at ht
      exact absurd ht List.not_mem_nil
    · exact List.pairwise_singleton _ _
  obtain ⟨w, older, last, hwindows, hcounted, hrule⟩ := hstart.run hlimit calls hclock
  have hspaced : Throttle.Spaced rateWindow rule.maxAlertsPerMinute windows := by
    have hspaced := hcounted.spaced
    rw [hrule, ← hwindows] at hspaced
    exact hspaced
  obtain ⟨htotal, hsum⟩ := alertAll_totals s calls halerts
  refine ⟨hspaced.limited, fun a => ?_, ?_, htotal.trans (Nat.zero_add _), ?_⟩
  · have hperm := windowsFrom_times { start := rateWindowStart } [] (s.outcomes calls)
    have hle := hspaced.length_within_le a
    rw [Throttle.within, (hperm.filter _).length_eq] at hle
    exact hle
  · show (windowsFrom _ _ _).head?.map _ = _
    rw [hwindows]
    exact congrArg some hcounted.count
  · rw [hsum]
    exact Nat.zero_add _

/-- A plugin that throws. -/
def deafAlert : Alert := fun _ => none

/-- A limit of one alert in a minute, and two calls with two fingerprints each. -/
def twoCalls : List AlertCall :=
  [{ alerts := [deafAlert], now := 1, triggeredAt := 1,
     entries := [timeout30, { level := .error, message := ascii "disk full" }] },
   { alerts := [deafAlert], now := 60000000001, triggeredAt := 60000000001,
     entries := [timeout45, { level := .fatal, message := ascii "disk full" }] }]

theorem run_alerts_limited_two :
    let s := (start { maxAlertsPerMinute := 1 } 0).alertAll twoCalls
    s.totalAlerts + s.totalSuppressed = 4 := by
  have hrun := run_alerts_limited { maxAlertsPerMinute := 1 } 0 twoCalls (by decide)
    (by simp [twoCalls]) (by decide)
  exact hrun.2.2.2.2

end Alerting

end LogMind
