import Mathlib.Algebra.BigOperators.Fin
import Mathlib.Algebra.BigOperators.Pi
import LogMind.Library.Deferred
import LogMind.Pipeline.AlertLimits

/-!
# Alerts from several workers

Several workers are in `run_alerts` at a time. Each selects its entries in one step, under
`m_alert_mutex`, then calls `send` of one plugin after the other and counts the alerts at the end.
The steps of the workers interleave in any order, so two plugins may receive the alerts of two
workers in different orders. Each of them receives the alerts that it would receive if the calls
ran one after the other, and the counters differ from theirs by what is still under way.
-/

namespace LogMind

variable {π : Type*} {n : Nat}

/-- A call of `run_alerts`: the alert plugins of the snapshot and the clock at the selection and
behind it. -/
structure AlertJob (π : Type*) where
  plugins : List π
  now : Int
  triggeredAt : Int
  entries : List LogEntry

/-- The call as it is without other workers. -/
def AlertJob.call (send : π → Alert) (job : AlertJob π) : AlertCall where
  alerts := job.plugins.map send
  now := job.now
  triggeredAt := job.triggeredAt
  entries := job.entries

/-- Where a worker is in `run_alerts`. -/
inductive AlertPhase (π : Type*) where
  | idle
  /-- In the loop, with the plugins that have not been called. -/
  | sending (ctx : AlertContext) (plugins : List π)

structure AlertThreads (π : Type*) (n : Nat) where
  alerting : Alerting
  phases : Fin n → AlertPhase π := fun _ => .idle
  /-- The calls of `send`. -/
  received : List (π × AlertContext) := []

inductive AlertAction (π : Type*) (n : Nat) where
  | select (i : Fin n) (job : AlertJob π)
  | send (i : Fin n)
  | count (i : Fin n)

namespace AlertThreads

def setPhase (s : AlertThreads π n) (i : Fin n) (phase : AlertPhase π) : AlertThreads π n :=
  { s with phases := Function.update s.phases i phase }

@[simp] theorem setPhase_alerting (s : AlertThreads π n) (i : Fin n) (phase : AlertPhase π) :
    (s.setPhase i phase).alerting = s.alerting := rfl

@[simp] theorem setPhase_received (s : AlertThreads π n) (i : Fin n) (phase : AlertPhase π) :
    (s.setPhase i phase).received = s.received := rfl

@[simp] theorem setPhase_phases (s : AlertThreads π n) (i : Fin n) (phase : AlertPhase π) :
    (s.setPhase i phase).phases = Function.update s.phases i phase := rfl

/-- `run_alerts` up to the loop of the plugins. -/
def enter (s : Alerting) (job : AlertJob π) : Alerting × AlertPhase π :=
  if job.entries.isEmpty || job.plugins.isEmpty then (s, .idle)
  else
    let (after, triggered) := s.selectAlerting job.now job.entries
    match triggered with
    | [] => (after, .idle)
    | first :: _ =>
        (after, .sending
          (Alerting.contextOf after.rule job.triggeredAt job.entries.length first triggered)
          job.plugins)

def select (s : AlertThreads π n) (i : Fin n) (job : AlertJob π) : Option (AlertThreads π n) :=
  match s.phases i with
  | .sending _ _ => none
  | .idle =>
      let entered := enter s.alerting job
      some (setPhase { s with alerting := entered.1 } i entered.2)

/-- A plugin that throws is counted in `total_errors`. -/
def send (send : π → Alert) (s : AlertThreads π n) (i : Fin n) : Option (AlertThreads π n) :=
  match s.phases i with
  | .sending ctx (plugin :: plugins) =>
      let totalErrors := match send plugin ctx with
        | some () => s.alerting.totalErrors
        | none => s.alerting.totalErrors + 1
      some (setPhase { s with
        alerting := { s.alerting with totalErrors := totalErrors }
        received := s.received ++ [(plugin, ctx)] } i (.sending ctx plugins))
  | _ => none

def count (s : AlertThreads π n) (i : Fin n) : Option (AlertThreads π n) :=
  match s.phases i with
  | .sending ctx [] =>
      let totalAlerts := s.alerting.totalAlerts + ctx.entries.length
      some (setPhase { s with alerting := { s.alerting with totalAlerts := totalAlerts } } i .idle)
  | _ => none

def step (send : π → Alert) (s : AlertThreads π n) : AlertAction π n → Option (AlertThreads π n)
  | .select i job => s.select i job
  | .send i => s.send send i
  | .count i => s.count i

end AlertThreads

/-- The calls in the order of their selections. -/
def jobs (actions : List (AlertAction π n)) : List (AlertJob π) :=
  actions.filterMap fun
    | .select _ job => some job
    | _ => none

namespace AlertPhase

/-- The calls of `send` that are still to come. -/
def awaited : AlertPhase π → List (π × AlertContext)
  | .idle => []
  | .sending ctx plugins => plugins.map fun plugin => (plugin, ctx)

/-- Their exceptions. -/
def errors (send : π → Alert) (phase : AlertPhase π) : Nat :=
  phase.awaited.countP fun delivery => (send delivery.1 delivery.2).isNone

/-- The alerts that have not been counted. -/
def uncounted : AlertPhase π → Nat
  | .idle => 0
  | .sending ctx _ => ctx.entries.length

end AlertPhase

namespace AlertThreads

/-- The alert state, with what the workers are still to count. -/
def settled (send : π → Alert) (s : AlertThreads π n) : Alerting :=
  { s.alerting with
    totalErrors := s.alerting.totalErrors + ∑ i, (s.phases i).errors send
    totalAlerts := s.alerting.totalAlerts + ∑ i, (s.phases i).uncounted }

def awaited (s : AlertThreads π n) : List (π × AlertContext) :=
  (List.finRange n).flatMap fun i => (s.phases i).awaited

end AlertThreads

namespace Alerting

/-- What a call tells the plugins, if it selects an entry. -/
def context? (s : Alerting) (call : AlertCall) : Option AlertContext :=
  if call.entries.isEmpty || call.alerts.isEmpty then none
  else
    let (after, triggered) := s.selectAlerting call.now call.entries
    triggered.head?.map fun first =>
      contextOf after.rule call.triggeredAt call.entries.length first triggered

/-- The calls of `send` that some calls of `run_alerts` make one after the other. -/
def deliveries (send : π → Alert) : Alerting → List (AlertJob π) → List (π × AlertContext)
  | _, [] => []
  | s, job :: jobs =>
      (s.context? (job.call send)).toList.flatMap (fun ctx =>
        job.plugins.map fun plugin => (plugin, ctx)) ++
        (s.alert (job.call send)).deliveries send jobs

/-! ## The selection does not read the counters of the plugins -/

/-- The counters that change while the plugins are called. -/
def withCounters (s : Alerting) (totalErrors totalAlerts : Nat) : Alerting :=
  { s with totalErrors := totalErrors, totalAlerts := totalAlerts }

variable {s : Alerting}

theorem visit_withCounters (a b : Nat) (now : Int) (done : Selecting) (entry : LogEntry) :
    visit now { done with alerting := done.alerting.withCounters a b } entry =
      { visit now done entry with
        alerting := (visit now done entry).alerting.withCounters a b } := by
  have hrate : (done.alerting.withCounters a b).rateExceeded = done.alerting.rateExceeded := rfl
  have hdup : ∀ key, (done.alerting.withCounters a b).duplicate now key =
      done.alerting.duplicate now key := fun _ => rfl
  have hrule : (done.alerting.withCounters a b).rule = done.alerting.rule := rfl
  unfold visit
  simp only [hrate, hdup, hrule]
  split
  · rfl
  · split
    · rfl
    · split <;> rfl

theorem visits_withCounters (a b : Nat) (now : Int) (entries : List LogEntry) (done : Selecting) :
    entries.foldl (visit now) { done with alerting := done.alerting.withCounters a b } =
      { entries.foldl (visit now) done with
        alerting := (entries.foldl (visit now) done).alerting.withCounters a b } := by
  induction entries generalizing done with
  | nil => rfl
  | cons entry entries ih =>
      rw [List.foldl_cons, List.foldl_cons, visit_withCounters]
      exact ih (visit now done entry)

theorem turnWindow_withCounters (s : Alerting) (a b : Nat) (now : Int) :
    (s.withCounters a b).turnWindow now = (s.turnWindow now).withCounters a b := by
  have hstart : (s.withCounters a b).rateWindowStart = s.rateWindowStart := rfl
  unfold turnWindow
  rw [hstart]
  split <;> rfl

theorem limitRecent_withCounters (s : Alerting) (a b : Nat) (now : Int) :
    (s.withCounters a b).limitRecent now = (s.limitRecent now).withCounters a b := by
  have hbefore : (s.withCounters a b).remembered = s.remembered := rfl
  have hafter : ((s.withCounters a b).purged now).remembered = (s.purged now).remembered := rfl
  have hrule : (s.withCounters a b).rule = s.rule := rfl
  unfold limitRecent
  rw [hbefore, hafter, hrule]
  split
  · split <;> rfl
  · rfl

theorem selectAlerting_withCounters (s : Alerting) (a b : Nat) (now : Int)
    (entries : List LogEntry) :
    (s.withCounters a b).selectAlerting now entries =
      ((s.selectAlerting now entries).1.withCounters a b, (s.selectAlerting now entries).2) := by
  have hselect : (s.withCounters a b).select now entries = { s.select now entries with
      alerting := (s.select now entries).alerting.withCounters a b } := by
    rw [select, turnWindow_withCounters]
    exact visits_withCounters a b now entries { alerting := s.turnWindow now }
  simp only [selectAlerting, hselect, limitRecent_withCounters]
  rfl

theorem visits_sublist (now : Int) (entries : List LogEntry) (done : Selecting) :
    (entries.foldl (visit now) done).selected.Sublist (done.selected ++ entries) := by
  induction entries generalizing done with
  | nil => simp
  | cons entry entries ih =>
      have hrest := ih (visit now done entry)
      rw [List.foldl_cons]
      rcases visit_cases now done entry with ⟨-, -, -, hvisit⟩ | ⟨-, -, hvisit⟩ | ⟨-, hvisit⟩
      · have hselected : (visit now done entry).selected = done.selected ++ [entry] := by
          rw [hvisit]
        rw [hselected, List.append_assoc, List.singleton_append] at hrest
        exact hrest
      · have hselected : (visit now done entry).selected = done.selected := by rw [hvisit]
        rw [hselected] at hrest
        exact hrest.trans ((List.sublist_cons_self entry entries).append_left _)
      · rw [hvisit] at hrest ⊢
        exact hrest.trans ((List.sublist_cons_self entry entries).append_left _)

/-- What is selected is among the entries of the call. -/
theorem selectAlerting_subset (s : Alerting) (now : Int) (entries : List LogEntry) :
    (s.selectAlerting now entries).2 ⊆ entries :=
  (visits_sublist now entries { alerting := s.turnWindow now }).subset

/-- Nor does it change them. -/
theorem selectAlerting_counters (s : Alerting) (now : Int) (entries : List LogEntry) :
    (s.selectAlerting now entries).1 =
      (s.selectAlerting now entries).1.withCounters s.totalErrors s.totalAlerts :=
  congrArg Prod.fst (selectAlerting_withCounters s s.totalErrors s.totalAlerts now entries)

end Alerting

/-! ## The workers are as if they ran one after the other -/

/-- `total_errors`, `total_alerts` and the calls of `send`. -/
abbrev AlertTally (π : Type*) := Nat × Nat × Multiset (π × AlertContext)

namespace AlertThreads

variable (send : π → Alert)

/-- What a call of `send` adds. -/
def sent (ctx : AlertContext) (plugin : π) : AlertTally π :=
  ((send plugin ctx).elim 1 fun _ => 0, 0, {(plugin, ctx)})

/-- What a worker is still to add. -/
def toAdd : AlertPhase π → List (AlertTally π)
  | .idle => []
  | .sending ctx plugins => plugins.map (sent send ctx) ++ [(0, ctx.entries.length, 0)]

/-- The selection, and what is to be added behind it. -/
def decideToAdd (s : Alerting) (job : AlertJob π) : Alerting × List (AlertTally π) :=
  ((enter s job).1, toAdd send (enter s job).2)

def tally (s : AlertThreads π n) : AlertTally π :=
  (s.alerting.totalErrors, s.alerting.totalAlerts, s.received)

def deferred (s : AlertThreads π n) : Deferred.State Alerting (AlertTally π) n where
  decision := s.alerting.withCounters 0 0
  tally := s.tally
  todo := toAdd send ∘ s.phases

def label : AlertAction π n → Deferred.Action (AlertJob π) n
  | .select i job => .decide i job
  | .send i => .add i
  | .count i => .add i

variable {send} {s u : AlertThreads π n} {i : Fin n}

theorem enter_withCounters (s : Alerting) (a b : Nat) (job : AlertJob π) :
    enter (s.withCounters a b) job = ((enter s job).1.withCounters a b, (enter s job).2) := by
  unfold enter
  split
  · rfl
  · rw [Alerting.selectAlerting_withCounters]
    dsimp only
    split <;> rfl

theorem enter_counters (s : Alerting) (job : AlertJob π) :
    (enter s job).1 = (enter s job).1.withCounters s.totalErrors s.totalAlerts :=
  congrArg Prod.fst (enter_withCounters s s.totalErrors s.totalAlerts job)

theorem deferred_select {job : AlertJob π} (hstep : s.select i job = some u) :
    Deferred.step (decideToAdd send) (deferred send s) (.decide i job) =
      some (deferred send u) := by
  unfold select at hstep
  split at hstep
  case h_1 => cases hstep
  case h_2 hphase =>
    obtain rfl := Option.some.inj hstep
    have htodo : (deferred send s).todo i = [] := by
      simp only [deferred, Function.comp_apply, hphase, toAdd]
    rw [Deferred.step, if_pos (List.isEmpty_iff.mpr htodo)]
    have htally : (enter s.alerting job).1.totalErrors = s.alerting.totalErrors ∧
        (enter s.alerting job).1.totalAlerts = s.alerting.totalAlerts := by
      rw [enter_counters]
      exact ⟨rfl, rfl⟩
    simp only [deferred, decideToAdd, enter_withCounters, tally, setPhase_alerting,
      setPhase_received, setPhase_phases, Function.comp_update, htally.1, htally.2]

theorem deferred_send (hstep : s.send send i = some u) :
    Deferred.step (decideToAdd send) (deferred send s) (.add i) = some (deferred send u) := by
  unfold AlertThreads.send at hstep
  split at hstep
  case h_1 ctx plugin plugins hphase =>
    obtain rfl := Option.some.inj hstep
    have htodo : (deferred send s).todo i =
        sent send ctx plugin :: toAdd send (.sending ctx plugins) := by
      simp only [deferred, Function.comp_apply, hphase, toAdd, List.map_cons, List.cons_append]
    rw [Deferred.step, htodo]
    have hsent : s.tally + sent send ctx plugin =
        ((match send plugin ctx with
          | some () => s.alerting.totalErrors
          | none => s.alerting.totalErrors + 1), s.alerting.totalAlerts,
          ((s.received ++ [(plugin, ctx)] : List _) : Multiset (π × AlertContext))) := by
      rw [tally, sent, ← Multiset.coe_add, Multiset.coe_singleton]
      cases send plugin ctx <;> rfl
    simp only [deferred, tally, setPhase_alerting, setPhase_received, setPhase_phases,
      Function.comp_update] at hsent ⊢
    rw [hsent]
    rfl
  case h_2 => cases hstep

theorem deferred_count (hstep : s.count i = some u) :
    Deferred.step (decideToAdd send) (deferred send s) (.add i) = some (deferred send u) := by
  unfold count at hstep
  split at hstep
  case h_1 ctx hphase =>
    obtain rfl := Option.some.inj hstep
    have htodo : (deferred send s).todo i = [(0, ctx.entries.length, 0)] := by
      simp only [deferred, Function.comp_apply, hphase, toAdd, List.map_nil, List.nil_append]
    rw [Deferred.step, htodo]
    have hcounted : s.tally + (0, ctx.entries.length, 0) =
        (s.alerting.totalErrors, s.alerting.totalAlerts + ctx.entries.length,
          (s.received : Multiset (π × AlertContext))) := by
      rw [tally, Prod.mk_add_mk, Prod.mk_add_mk, add_zero, add_zero]
    simp only [deferred, tally, setPhase_alerting, setPhase_received, setPhase_phases,
      Function.comp_update] at hcounted ⊢
    rw [hcounted]
    rfl
  case h_2 => cases hstep

/-- A run of the workers is one of calls with deferred counts. -/
theorem run_deferred {actions : List (AlertAction π n)}
    (hrun : Transition.run (step send) s actions = some u) :
    Transition.run (Deferred.step (decideToAdd send)) (deferred send s) (actions.map label) =
      some (deferred send u) := by
  have hstep : ∀ (s : AlertThreads π n) a u, True → step send s a = some u →
      Deferred.step (decideToAdd send) (deferred send s) (label a) = some (deferred send u) ∧
        True := by
    intro s a u _ hstep
    cases a with
    | select i job => exact ⟨deferred_select hstep, trivial⟩
    | send i => exact ⟨deferred_send hstep, trivial⟩
    | count i => exact ⟨deferred_count hstep, trivial⟩
  exact (Transition.run_simulates hstep trivial hrun).1

theorem decided_label (actions : List (AlertAction π n)) :
    Deferred.decided (actions.map label) = jobs actions := by
  rw [Deferred.decided, jobs, List.filterMap_map]
  congr 1
  funext a
  cases a <;> rfl

@[simp] theorem errors_nil (ctx : AlertContext) :
    (AlertPhase.sending ctx ([] : List π)).errors send = 0 := rfl

theorem errors_cons (ctx : AlertContext) (plugin : π) (plugins : List π) :
    (AlertPhase.sending ctx (plugin :: plugins)).errors send =
      (AlertPhase.sending ctx plugins).errors send + (send plugin ctx).elim 1 fun _ => 0 := by
  simp only [AlertPhase.errors, AlertPhase.awaited, List.map_cons, List.countP_cons]
  cases send plugin ctx <;> rfl

theorem sum_toAdd (phase : AlertPhase π) :
    (toAdd send phase).sum =
      (phase.errors send, phase.uncounted, (phase.awaited : Multiset _)) := by
  cases phase with
  | idle => rfl
  | sending ctx plugins =>
      induction plugins with
      | nil => rfl
      | cons plugin plugins ih =>
          have hsum : (toAdd send (.sending ctx (plugin :: plugins))).sum =
              sent send ctx plugin + (toAdd send (.sending ctx plugins)).sum := List.sum_cons
          rw [hsum, ih, errors_cons, sent, Prod.mk_add_mk, Prod.mk_add_mk, add_comm, zero_add]
          rfl

theorem sendAll_eq (ctx : AlertContext) (plugins : List π) (totalErrors : Nat) :
    Alerting.sendAll ctx (plugins.map send) totalErrors =
      totalErrors + (AlertPhase.sending ctx plugins).errors send := by
  induction plugins generalizing totalErrors with
  | nil => rfl
  | cons plugin plugins ih =>
      rw [List.map_cons, Alerting.sendAll, errors_cons]
      cases send plugin ctx with
      | some => exact ih totalErrors
      | none =>
          show Alerting.sendAll ctx (plugins.map send) (totalErrors + 1) = _
          rw [ih, Option.elim_none]
          omega

/-- A call that runs alone enters the loop and counts what is then to be counted. -/
theorem alert_eq_enter (send : π → Alert) (s : Alerting) (job : AlertJob π) :
    s.alert (job.call send) = (enter s job).1.withCounters
      (s.totalErrors + (enter s job).2.errors send) (s.totalAlerts + (enter s job).2.uncounted) ∧
    (s.context? (job.call send)).toList.flatMap (fun ctx =>
      job.plugins.map fun plugin => (plugin, ctx)) = (enter s job).2.awaited := by
  have hcounters := Alerting.selectAlerting_counters s job.now job.entries
  unfold Alerting.alert Alerting.runAlerts Alerting.context? AlertJob.call enter
  rw [List.isEmpty_map]
  split
  · exact ⟨rfl, rfl⟩
  · cases hselected : s.selectAlerting job.now job.entries with
    | mk after triggered =>
        rw [hselected] at hcounters
        change after = after.withCounters s.totalErrors s.totalAlerts at hcounters
        cases triggered with
        | nil => exact ⟨hcounters, rfl⟩
        | cons first triggered =>
            dsimp only
            rw [sendAll_eq]
            refine ⟨?_, List.append_nil _⟩
            rw [hcounters]
            rfl

/-- Behind the selection a worker is idle or has an alert for the plugins of its snapshot, with
some entries of its call. -/
theorem enter_cases (s : Alerting) (job : AlertJob π) :
    (enter s job).2 = .idle ∨ ∃ rule first triggered,
      (enter s job).2 = .sending
        (Alerting.contextOf rule job.triggeredAt job.entries.length first triggered) job.plugins ∧
      first ∈ triggered ∧ triggered ⊆ job.entries := by
  have hsubset := s.selectAlerting_subset job.now job.entries
  unfold enter
  split
  · exact .inl rfl
  · cases hselected : s.selectAlerting job.now job.entries with
    | mk after triggered =>
        rw [hselected] at hsubset
        cases triggered with
        | nil => exact .inl rfl
        | cons first triggered =>
            exact .inr ⟨after.rule, first, _, rfl, List.mem_cons_self, hsubset⟩

/-- An alert that a plugin receives is about some entries of a call. -/
theorem context_of_deliveries {s : Alerting} {jobs : List (AlertJob π)}
    {delivery : π × AlertContext} (h : delivery ∈ s.deliveries send jobs) :
    ∃ job ∈ jobs, ∃ rule first triggered, delivery.2 =
        Alerting.contextOf rule job.triggeredAt job.entries.length first triggered ∧
      first ∈ triggered ∧ triggered ⊆ job.entries := by
  induction jobs generalizing s with
  | nil => exact absurd h List.not_mem_nil
  | cons job jobs ih =>
      rw [Alerting.deliveries, (alert_eq_enter send s job).2] at h
      rcases List.mem_append.mp h with h | h
      · rcases enter_cases s job with hidle | ⟨rule, first, triggered, hsending, hfirst, hsubset⟩
        · rw [hidle] at h
          exact absurd h List.not_mem_nil
        · rw [hsending] at h
          obtain ⟨plugin, -, rfl⟩ := List.mem_map.mp h
          exact ⟨job, List.mem_cons_self, rule, first, triggered, rfl, hfirst, hsubset⟩
      · obtain ⟨other, hother, hcontext⟩ := ih h
        exact ⟨other, List.mem_cons_of_mem job hother, hcontext⟩

/-- The alerts that a plugin received. -/
def sentTo [DecidableEq π] (plugin : π) (received : List (π × AlertContext)) : List AlertContext :=
  (received.filter fun delivery => delivery.1 = plugin).map Prod.snd

/-- A plugin that is called once for each alert receives as many entries as are counted. -/
theorem sum_sentTo_deliveries [DecidableEq π] (send : π → Alert) {plugin : π} (s : Alerting)
    {jobs : List (AlertJob π)} (honce : ∀ job ∈ jobs, job.plugins.count plugin = 1) :
    s.totalAlerts + ((sentTo plugin (s.deliveries send jobs)).map
        fun ctx => ctx.entries.length).sum =
      (s.alertAll (jobs.map (AlertJob.call send))).totalAlerts := by
  induction jobs generalizing s with
  | nil => rfl
  | cons job jobs ih =>
      obtain ⟨halert, hcontext⟩ := alert_eq_enter send s job
      have hrest := ih (s.alert (job.call send)) fun other hother =>
        honce other (List.mem_cons_of_mem job hother)
      have hfirst : ((sentTo plugin (enter s job).2.awaited).map
          fun ctx => ctx.entries.length).sum = (enter s job).2.uncounted := by
        rcases enter_cases s job with hidle | ⟨rule, first, triggered, hsending, -, -⟩
        · rw [hidle]
          rfl
        · have hcount := honce job List.mem_cons_self
          have hfilter : sentTo plugin (enter s job).2.awaited = [Alerting.contextOf rule
              job.triggeredAt job.entries.length first triggered] := by
            rw [hsending, sentTo, AlertPhase.awaited, List.filter_map, List.map_map]
            have hplugin : job.plugins.filter ((fun delivery : π × AlertContext =>
                decide (delivery.1 = plugin)) ∘ fun plugin => (plugin, Alerting.contextOf rule
                  job.triggeredAt job.entries.length first triggered)) =
                List.replicate (job.plugins.count plugin) plugin := List.filter_eq plugin
            rw [hplugin, hcount]
            rfl
          rw [hfilter, hsending]
          exact Nat.add_zero _
      have htotal : (s.alert (job.call send)).totalAlerts =
          s.totalAlerts + (enter s job).2.uncounted := by
        rw [halert]
        rfl
      rw [htotal] at hrest
      have hsplit : sentTo plugin (s.deliveries send (job :: jobs)) =
          sentTo plugin (enter s job).2.awaited ++
            sentTo plugin ((s.alert (job.call send)).deliveries send jobs) := by
        rw [Alerting.deliveries, hcontext, sentTo, List.filter_append, List.map_append]
        rfl
      rw [hsplit, List.map_append, List.sum_append, hfirst, ← add_assoc]
      exact hrest

/-- What the deferred calls know of the state of calls that run one after the other. -/
def known (s : Alerting) (received : List (π × AlertContext)) : Alerting × AlertTally π :=
  (s.withCounters 0 0, s.totalErrors, s.totalAlerts, received)

theorem once_known (s : Alerting) (received : List (π × AlertContext)) (job : AlertJob π) :
    Deferred.once (decideToAdd send) (known s received) job =
      known (s.alert (job.call send)) (received ++ (enter s job).2.awaited) := by
  rw [(alert_eq_enter send s job).1]
  simp only [Deferred.once, decideToAdd, known, enter_withCounters, sum_toAdd, Prod.mk_add_mk,
    Multiset.coe_add]
  rfl

theorem serial_known (s : Alerting) (received : List (π × AlertContext))
    (jobs : List (AlertJob π)) :
    Deferred.serial (decideToAdd send) (known s received) jobs =
      known (s.alertAll (jobs.map (AlertJob.call send)))
        (received ++ s.deliveries send jobs) := by
  induction jobs generalizing s received with
  | nil => rw [Alerting.deliveries, List.append_nil]; rfl
  | cons job jobs ih =>
      rw [Deferred.serial, List.foldl_cons, once_known]
      refine (ih _ _).trans ?_
      rw [Alerting.deliveries, (alert_eq_enter send s job).2, List.append_assoc]
      rfl

theorem known_inj {s t : Alerting} {received sent : List (π × AlertContext)}
    (h : known s received = known t sent) : s = t ∧ received.Perm sent := by
  simp only [known, Alerting.withCounters, Prod.mk.injEq, Alerting.mk.injEq, Multiset.coe_eq_coe]
    at h
  obtain ⟨⟨hrule, htable, hstart, hrate, -, -, hsuppressed⟩, herrors, halerts, hperm⟩ := h
  cases s
  cases t
  simp only at hrule htable hstart hrate hsuppressed herrors halerts
  exact ⟨by rw [hrule, htable, hstart, hrate, hsuppressed, herrors, halerts], hperm⟩

theorem sum_awaited (s : AlertThreads π n) :
    ∑ i, ((s.phases i).awaited : Multiset (π × AlertContext)) = s.awaited := by
  rw [Fin.sum_univ_def, awaited]
  induction List.finRange n with
  | nil => rfl
  | cons i indices ih =>
      rw [List.map_cons, List.sum_cons, List.flatMap_cons, ih, Multiset.coe_add]

theorem settled_deferred (s : AlertThreads π n) :
    ((deferred send s).decision, (deferred send s).settled) =
      known (s.settled send) (s.received ++ s.awaited) := by
  have hsum : ∑ i, ((deferred send s).todo i).sum = (∑ i, (s.phases i).errors send,
      ∑ i, (s.phases i).uncounted, (s.awaited : Multiset (π × AlertContext))) := by
    simp only [deferred, Function.comp_apply, sum_toAdd]
    refine Prod.ext ?_ (Prod.ext ?_ ?_)
    · rw [Prod.fst_sum]
    · rw [Prod.snd_sum, Prod.fst_sum]
    · rw [Prod.snd_sum, Prod.snd_sum, sum_awaited]
  rw [Deferred.State.settled, hsum, known, ← Multiset.coe_add]
  rfl

/-- From any state on, the workers do what they would do one after the other. -/
theorem run_known {actions : List (AlertAction π n)}
    (hrun : Transition.run (step send) s actions = some u) :
    known (u.settled send) (u.received ++ u.awaited) =
      known ((s.settled send).alertAll ((jobs actions).map (AlertJob.call send)))
        (s.received ++ s.awaited ++ (s.settled send).deliveries send (jobs actions)) := by
  have hsettled := Deferred.run_settled (run_deferred hrun)
  rwa [decided_label, settled_deferred, settled_deferred, serial_known] at hsettled

/-- No worker is in `run_alerts`. -/
theorem settled_of_idle (send : π → Alert) (hidle : ∀ i, s.phases i = .idle) :
    s.settled send = s.alerting ∧ s.awaited = [] := by
  refine ⟨?_, List.flatMap_eq_nil_iff.mpr fun i _ => by rw [hidle i]; rfl⟩
  have herrors : ∀ i, (s.phases i).errors send = 0 := fun i => by rw [hidle i]; rfl
  have huncounted : ∀ i, (s.phases i).uncounted = 0 := fun i => by rw [hidle i]; rfl
  simp only [settled, herrors, huncounted, Finset.sum_const_zero, add_zero]

theorem known_of_start (rule : AlertRule) (rateWindowStart : Int)
    {actions : List (AlertAction π n)}
    (hrun : Transition.run (step send) { alerting := Alerting.start rule rateWindowStart } actions =
      some s) :
    known (s.settled send) (s.received ++ s.awaited) =
      known ((Alerting.start rule rateWindowStart).alertAll
        ((jobs actions).map (AlertJob.call send)))
        ((Alerting.start rule rateWindowStart).deliveries send (jobs actions)) := by
  obtain ⟨hsettled, hawaited⟩ := settled_of_idle (n := n) send
    (s := { alerting := Alerting.start rule rateWindowStart }) fun _ => rfl
  rw [run_known hrun, hsettled, hawaited]
  rfl

/-- The workers do what they would do one after the other in the order of their selections: the
alert state and the counters are those of the serial calls but for what is under way, and the
plugins receive the same alerts. -/
theorem run_serial (rule : AlertRule) (rateWindowStart : Int) {actions : List (AlertAction π n)}
    (hrun : Transition.run (step send) { alerting := Alerting.start rule rateWindowStart } actions =
      some s) :
    s.settled send = (Alerting.start rule rateWindowStart).alertAll
        ((jobs actions).map (AlertJob.call send)) ∧
      (s.received ++ s.awaited).Perm
        ((Alerting.start rule rateWindowStart).deliveries send (jobs actions)) :=
  known_inj (known_of_start rule rateWindowStart hrun)

/-- The first plugin throws. -/
def firstThrows (plugin : Bool) : Alert := fun _ => if plugin then none else some ()

/-- A worker is called between the plugins of another one. -/
def overlapping (i j : Fin n) : List (AlertAction Bool n) :=
  let diskFull : LogEntry := { level := .fatal, message := ascii "disk full" }
  [.select i ⟨[true, false], 1, 1, [Alerting.timeout30]⟩, .send i,
    .select j ⟨[true, false], 2, 2, [diskFull]⟩, .send j, .send j, .count j, .send i, .count i]

theorem run_serial_overlapping :
    let actions := overlapping (Fin.last 1) (Fin.castSucc (Fin.last 0))
    ∃ s, Transition.run (step firstThrows) { alerting := Alerting.start {} 0 } actions = some s ∧
      (sentTo true s.received).map AlertContext.triggeredAt = [1, 2] ∧
      (sentTo false s.received).map AlertContext.triggeredAt = [2, 1] ∧
      s.alerting.totalErrors = 2 ∧
      s.settled firstThrows = (Alerting.start {} 0).alertAll
        ((jobs actions).map (AlertJob.call firstThrows)) ∧
      (s.received ++ s.awaited).Perm
        ((Alerting.start {} 0).deliveries firstThrows (jobs actions)) := by
  intro actions
  obtain ⟨s, hrun, hfirst, hsecond, herrors⟩ : ∃ s,
      Transition.run (step firstThrows) { alerting := Alerting.start {} 0 } actions = some s ∧
        (sentTo true s.received).map AlertContext.triggeredAt = [1, 2] ∧
        (sentTo false s.received).map AlertContext.triggeredAt = [2, 1] ∧
        s.alerting.totalErrors = 2 := ⟨_, rfl, rfl, rfl, rfl⟩
  exact ⟨s, hrun, hfirst, hsecond, herrors, run_serial {} 0 hrun⟩

end AlertThreads

end LogMind
