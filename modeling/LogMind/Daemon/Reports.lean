import Mathlib.Order.Lattice.Nat
import LogMind.Buffer.IndexBounds
import LogMind.Daemon.Lifecycle
import LogMind.Library.Readings
import LogMind.Pipeline.AlertDelivery
import LogMind.Pipeline.Analyzers
import LogMind.Pipeline.Collectors

/-!
# What the daemon reports

`GetStats` and `GetStatus` ask the pipeline, the loader, the buffer and the store one after the
other, each under its own lock, while other threads are in `process_raw_now`. A reply need not be
what the daemon was like at any one time.
-/

namespace LogMind

variable {π D : Type*} {n : Nat}

/-- A line, with the plugins of the snapshot. -/
structure LineJob (π : Type*) where
  collectors : List Collector
  analyzers : List Analyzer
  alerts : List π
  now : Int
  source : Bytes
  line : Bytes

/-- Where a thread is in `process_raw_now`. -/
inductive LineStage (π : Type*) where
  | idle
  /-- In `run_analyzers`, with the analyzers that have not been called. -/
  | analyzing (alerts : List π) (entries : List LogEntry) (analyzers : List Analyzer)
  | alerting (entries : List LogEntry)
  /-- In the output callback or behind it, with `count` and the entries that are not pushed. -/
  | pushing (count : Nat) (rest : List LogEntry)

/-- What a reply counts. -/
inductive Counter where
  | totalProcessed
  | totalErrors
  | totalAlerts
  | totalSuppressed
  | totalDropped
  | bufferSize
  | bufferDiscarded
  | bufferTotal
  deriving DecidableEq

/-- A member of a reply. -/
inductive Reported (D : Type*) where
  | counter (key : Counter) (value : Nat)
  | qps (value : D)
  | pluginCount (value : Nat)
  | vectorCount (value : Nat)
  | state (value : DaemonState)
  | version (value : Bytes)
  | uptimeSec (value : Int)

/-- A call of a method of `DaemonAdaptor` to another component. -/
inductive Query where
  | stats
  | loadedCount
  | size
  | totalDiscarded
  | totalPushed
  | vectorStoreSize
  | state
  | uptime

inductive ReportMethod where
  | getStats
  | getStatus

def ReportMethod.queries : ReportMethod → List Query
  | .getStats => [.stats, .loadedCount, .size, .totalDiscarded, .vectorStoreSize]
  | .getStatus => [.state, .uptime, .loadedCount, .size, .totalPushed]

/-- The arithmetic of `double`. -/
structure Doubles (D : Type*) where
  zero : D
  /-- A count by a time in nanoseconds. -/
  perSecond : Nat → Int → D

structure Reporting (π D : Type*) (n : Nat) where
  stages : Fin n → LineStage π := fun _ => .idle
  /-- `run_alerts`, with `total_errors` of the whole pipeline. -/
  alerts : AlertThreads π n
  totalProcessed : Nat := 0
  totalDropped : Nat := 0
  qps : D
  qpsWindowStart : Int
  qpsWindowCount : Nat := 0
  buffer : LogBuffer
  /-- The entries that were pushed. -/
  history : List LogEntry := []
  state : DaemonState := .init
  startedAt : Int
  loadedCount : Nat := 0
  vectorCount : Nat := 0
  /-- What is left of the method that runs. -/
  queries : List Query := []
  /-- The members of all replies. -/
  replies : List (Reported D) := []

inductive ReportAction (π : Type*) (n : Nat) where
  /-- A line for a full queue. -/
  | drop
  | collect (i : Fin n) (job : LineJob π)
  | analyze (i : Fin n)
  | select (i : Fin n) (now triggeredAt : Int)
  | send (i : Fin n)
  | count (i : Fin n)
  | output (i : Fin n)
  | push (i : Fin n)
  | note (i : Fin n) (now : Int)
  /-- The state, the loader and the store change. -/
  | others (state : DaemonState) (loadedCount vectorCount : Nat)
  | call (method : ReportMethod)
  | answer (now : Int)

namespace LineStage

/-- `m_output_mutex` is held. -/
def inCallback : LineStage π → Bool
  | .pushing _ (_ :: _) => true
  | _ => false

/-- The entries that are pushed and not counted. -/
def uncounted : LineStage π → Nat
  | .pushing count rest => count - rest.length
  | _ => 0

/-- No more entries are left than there were. -/
def Proper : LineStage π → Prop
  | .pushing count rest => rest.length ≤ count
  | _ => True

end LineStage

namespace Reporting

def setStage (s : Reporting π D n) (i : Fin n) (stage : LineStage π) : Reporting π D n :=
  { s with stages := Function.update s.stages i stage }

@[simp] theorem setStage_stages (s : Reporting π D n) (i : Fin n) (stage : LineStage π) :
    (s.setStage i stage).stages = Function.update s.stages i stage := rfl

def setErrors (s : Reporting π D n) (totalErrors : Nat) : Reporting π D n :=
  { s with
    alerts := { s.alerts with
      alerting := { s.alerts.alerting with totalErrors := totalErrors } } }

/-- `run_collectors`, and the return if it has no entries. -/
def collect (s : Reporting π D n) (i : Fin n) (job : LineJob π) : Option (Reporting π D n) :=
  match s.stages i with
  | .idle =>
      (Pipeline.runCollectors job.collectors job.now job.source job.line
        s.alerts.alerting.totalErrors).map fun (entries, totalErrors) =>
          (s.setErrors totalErrors).setStage i
            (if entries.isEmpty then .idle else .analyzing job.alerts entries job.analyzers)
  | _ => none

/-- A round of the loop of `run_analyzers`. The batch is moved into an analyzer that throws. -/
def analyze (s : Reporting π D n) (i : Fin n) : Option (Reporting π D n) :=
  match s.stages i with
  | .analyzing alerts entries (analyze :: analyzers) =>
      match analyze entries with
      | some result =>
          some (s.setStage i
            (if result.isEmpty then .idle else .analyzing alerts result analyzers))
      | none =>
          some ((s.setErrors (s.alerts.alerting.totalErrors + 1)).setStage i
            (if analyzers.isEmpty then .idle else .analyzing alerts [] analyzers))
  | _ => none

/-- `run_alerts` up to the loop of the plugins. -/
def select (s : Reporting π D n) (i : Fin n) (now triggeredAt : Int) : Option (Reporting π D n) :=
  match s.stages i with
  | .analyzing plugins entries [] =>
      (s.alerts.select i ⟨plugins, now, triggeredAt, entries⟩).map fun alerts =>
        setStage { s with alerts := alerts } i (.alerting entries)
  | _ => none

def send (send : π → Alert) (s : Reporting π D n) (i : Fin n) : Option (Reporting π D n) :=
  (s.alerts.send send i).map fun alerts => { s with alerts := alerts }

def count (s : Reporting π D n) (i : Fin n) : Option (Reporting π D n) :=
  (s.alerts.count i).map fun alerts => { s with alerts := alerts }

def output (s : Reporting π D n) (i : Fin n) : Option (Reporting π D n) :=
  match s.stages i, s.alerts.phases i with
  | .alerting entries, .idle =>
      if (List.finRange n).any fun j => (s.stages j).inCallback then none
      else some (s.setStage i (.pushing entries.length entries))
  | _, _ => none

/-- An entry of the output callback. -/
def push (s : Reporting π D n) (i : Fin n) : Option (Reporting π D n) :=
  match s.stages i with
  | .pushing count (entry :: rest) =>
      some (setStage { s with
        buffer := s.buffer.push entry
        history := s.history ++ [entry] } i (.pushing count rest))
  | _ => none

/-- `kQpsWindow`. -/
def qpsWindow : Int := 5000000000

def noteProcessed (doubles : Doubles D) (s : Reporting π D n) (count : Nat) (now : Int) :
    Reporting π D n :=
  let s := { s with
    totalProcessed := s.totalProcessed + count
    qpsWindowCount := s.qpsWindowCount + count }
  let elapsed := now - s.qpsWindowStart
  if qpsWindow ≤ elapsed then
    { s with
      qps := if 0 < elapsed then doubles.perSecond s.qpsWindowCount elapsed else doubles.zero
      qpsWindowStart := now
      qpsWindowCount := 0 }
  else s

def note (doubles : Doubles D) (s : Reporting π D n) (i : Fin n) (now : Int) :
    Option (Reporting π D n) :=
  match s.stages i with
  | .pushing count [] => some ((s.noteProcessed doubles count now).setStage i .idle)
  | _ => none

/-- `qps` of `Pipeline::stats`. -/
def currentQps (doubles : Doubles D) (s : Reporting π D n) (now : Int) : D :=
  let elapsed := now - s.qpsWindowStart
  if 0 < s.qpsWindowCount ∧ 0 < elapsed then doubles.perSecond s.qpsWindowCount elapsed
  else s.qps

def value (s : Reporting π D n) : Counter → Nat
  | .totalProcessed => s.totalProcessed
  | .totalErrors => s.alerts.alerting.totalErrors
  | .totalAlerts => s.alerts.alerting.totalAlerts
  | .totalSuppressed => s.alerts.alerting.totalSuppressed
  | .totalDropped => s.totalDropped
  | .bufferSize => s.buffer.items.length
  | .bufferDiscarded => s.buffer.totalDiscarded
  | .bufferTotal => s.buffer.totalPushed

/-- What a component answers. -/
def answerOf (doubles : Doubles D) (s : Reporting π D n) (now : Int) : Query → List (Reported D)
  | .stats =>
      [.counter .totalProcessed s.totalProcessed,
        .counter .totalErrors s.alerts.alerting.totalErrors,
        .counter .totalAlerts s.alerts.alerting.totalAlerts,
        .counter .totalSuppressed s.alerts.alerting.totalSuppressed,
        .counter .totalDropped s.totalDropped, .qps (s.currentQps doubles now)]
  | .loadedCount => [.pluginCount s.loadedCount]
  | .size => [.counter .bufferSize s.buffer.items.length]
  | .totalDiscarded => [.counter .bufferDiscarded s.buffer.totalDiscarded]
  | .totalPushed => [.counter .bufferTotal s.buffer.totalPushed]
  | .vectorStoreSize => [.vectorCount s.vectorCount]
  | .state => [.state s.state, .version (ascii "0.1.0")]
  | .uptime => [.uptimeSec ((now - s.startedAt).tdiv 1000000000)]

def answer (doubles : Doubles D) (s : Reporting π D n) (now : Int) : Option (Reporting π D n) :=
  match s.queries with
  | [] => none
  | query :: queries =>
      some { s with
        queries := queries
        replies := s.replies ++ s.answerOf doubles now query }

def step (doubles : Doubles D) (send : π → Alert) (s : Reporting π D n) :
    ReportAction π n → Option (Reporting π D n)
  | .drop => some { s with totalDropped := s.totalDropped + 1 }
  | .collect i job => s.collect i job
  | .analyze i => s.analyze i
  | .select i now triggeredAt => s.select i now triggeredAt
  | .send i => s.send send i
  | .count i => s.count i
  | .output i => s.output i
  | .push i => s.push i
  | .note i now => s.note doubles i now
  | .others state loadedCount vectorCount =>
      some { s with state := state, loadedCount := loadedCount, vectorCount := vectorCount }
  | .call method => if s.queries.isEmpty then some { s with queries := method.queries } else none
  | .answer now => s.answer doubles now

def start (doubles : Doubles D) (rule : AlertRule) (capacity : Nat)
    (startedAt rateWindowStart : Int) : Reporting π D n where
  alerts := { alerting := Alerting.start rule rateWindowStart }
  qps := doubles.zero
  qpsWindowStart := startedAt
  buffer := LogBuffer.new capacity
  startedAt := startedAt

/-- The counters of the replies, in the order in which they were read. -/
def readings (replies : List (Reported D)) : List (Counter × Nat) :=
  replies.filterMap fun
    | .counter key value => some (key, value)
    | _ => none

variable {doubles : Doubles D} {sendTo : π → Alert} {s t u : Reporting π D n} {i : Fin n}

/-! ## The loop of the analyzers -/

theorem setStage_self (s : Reporting π D n) (i : Fin n) : s.setStage i (s.stages i) = s := by
  unfold setStage
  rw [Function.update_eq_self]

theorem setStage_setStage (s : Reporting π D n) (i : Fin n) (stage next : LineStage π) :
    (s.setStage i stage).setStage i next = s.setStage i next := by
  unfold setStage
  rw [Function.update_idem]

/-- The steps of a thread in `run_analyzers` come to the result of `run_analyzers`. -/
theorem analyze_run {alerts : List π} {entries : List LogEntry} {analyzers : List Analyzer}
    (hstage : s.stages i = .analyzing alerts entries analyzers)
    (hgoes : entries ≠ [] ∨ analyzers ≠ []) :
    let result := Pipeline.runAnalyzers analyzers entries s.alerts.alerting.totalErrors
    ∃ k, Transition.run (step doubles sendTo) s (List.replicate k (.analyze i)) =
      some ((s.setErrors result.2).setStage i
        (if result.1.isEmpty then .idle else .analyzing alerts result.1 [])) := by
  induction analyzers generalizing s entries with
  | nil =>
      have hne : entries ≠ [] := hgoes.resolve_right fun h => h rfl
      refine ⟨0, congrArg some ?_⟩
      rw [Pipeline.runAnalyzers, if_neg (by rwa [List.isEmpty_iff]), ← hstage]
      exact (setStage_self s i).symm
  | cons analyze analyzers ih =>
      -- one call, and then the rest of the loop from the state behind it
      have hnext : ∀ (rest : List LogEntry) (totalErrors : Nat), s.analyze i =
            some ((s.setErrors totalErrors).setStage i (.analyzing alerts rest analyzers)) →
          rest ≠ [] ∨ analyzers ≠ [] →
          let result := Pipeline.runAnalyzers analyzers rest totalErrors
          ∃ k, Transition.run (step doubles sendTo) s (List.replicate k (.analyze i)) =
            some ((s.setErrors result.2).setStage i
              (if result.1.isEmpty then .idle else .analyzing alerts result.1 [])) := by
        intro rest totalErrors hcall hmore
        obtain ⟨k, hk⟩ := ih (s := (s.setErrors totalErrors).setStage i
          (.analyzing alerts rest analyzers)) (Function.update_self ..) hmore
        refine ⟨k + 1, Transition.run_cons_eq_some.mpr ⟨_, hcall, hk.trans (congrArg some ?_)⟩⟩
        exact setStage_setStage
          (s.setErrors (Pipeline.runAnalyzers analyzers rest totalErrors).2) i
          (.analyzing alerts rest analyzers) _
      have hlast : ∀ totalErrors, s.analyze i = some ((s.setErrors totalErrors).setStage i .idle) →
          ∃ k, Transition.run (step doubles sendTo) s (List.replicate k (.analyze i)) =
            some ((s.setErrors totalErrors).setStage i .idle) :=
        fun totalErrors hcall => ⟨1, Transition.run_cons_eq_some.mpr ⟨_, hcall, rfl⟩⟩
      have hcall : s.analyze i = match analyze entries with
          | some result => some (s.setStage i
              (if result.isEmpty then .idle else .analyzing alerts result analyzers))
          | none => some ((s.setErrors (s.alerts.alerting.totalErrors + 1)).setStage i
              (if analyzers.isEmpty then .idle else .analyzing alerts [] analyzers)) := by
        rw [Reporting.analyze, hstage]
      rw [Pipeline.runAnalyzers]
      cases hresult : analyze entries with
      | some result =>
          rw [hresult] at hcall
          dsimp only at hcall ⊢
          split
          case isTrue hempty =>
            rw [if_pos hempty] at hcall
            exact hlast _ hcall
          case isFalse hne =>
            rw [if_neg hne] at hcall
            exact hnext result _ hcall (.inl (by rwa [List.isEmpty_iff] at hne))
      | none =>
          rw [hresult] at hcall
          dsimp only at hcall ⊢
          by_cases hempty : analyzers.isEmpty
          · rw [if_pos hempty] at hcall
            rw [List.isEmpty_iff.mp hempty]
            exact hlast _ hcall
          · rw [if_neg hempty] at hcall
            exact hnext [] _ hcall (.inr (by rwa [List.isEmpty_iff] at hempty))

/-! ## What a step does to the counters -/

/-- The counters of the alerts grow. -/
structure AlertsGrow (a b : AlertThreads π n) : Prop where
  errors : a.alerting.totalErrors ≤ b.alerting.totalErrors
  alerts : a.alerting.totalAlerts ≤ b.alerting.totalAlerts
  suppressed : a.alerting.totalSuppressed ≤ b.alerting.totalSuppressed

theorem selectAlerting_totalSuppressed_le (s : Alerting) (now : Int) (entries : List LogEntry) :
    s.totalSuppressed ≤ (s.selectAlerting now entries).1.totalSuppressed := by
  have hturned : (s.turnWindow now).totalSuppressed = s.totalSuppressed := by
    unfold Alerting.turnWindow
    split
    · rfl
    · rfl
  have hvisits := (Alerting.visits_frame now entries { alerting := s.turnWindow now }).2.2
  have hlimit := (Alerting.limitRecent_frame (s.select now entries).alerting now).2.2.2
  rw [← hturned, ← hvisits]
  exact hlimit.symm.le.trans (Nat.le_add_right _ _)

theorem AlertsGrow.select {a b : AlertThreads π n} {job : AlertJob π}
    (hstep : a.select i job = some b) : AlertsGrow a b := by
  unfold AlertThreads.select at hstep
  split at hstep
  case h_1 => cases hstep
  case h_2 =>
    obtain rfl := Option.some.inj hstep
    have hcounters := AlertThreads.enter_counters a.alerting job
    have hsuppressed : a.alerting.totalSuppressed ≤
        (AlertThreads.enter a.alerting job).1.totalSuppressed := by
      have hle := selectAlerting_totalSuppressed_le a.alerting job.now job.entries
      unfold AlertThreads.enter
      split
      · exact le_refl _
      · cases hselected : a.alerting.selectAlerting job.now job.entries with
        | mk after triggered =>
            rw [hselected] at hle
            cases triggered with
            | nil => exact hle
            | cons => exact hle
    refine ⟨?_, ?_, hsuppressed⟩
    · rw [AlertThreads.setPhase_alerting, hcounters]
      exact le_refl _
    · rw [AlertThreads.setPhase_alerting, hcounters]
      exact le_refl _

theorem AlertsGrow.send {a b : AlertThreads π n} (hstep : a.send sendTo i = some b) :
    AlertsGrow a b := by
  unfold AlertThreads.send at hstep
  split at hstep
  case h_1 ctx plugin plugins _ =>
    obtain rfl := Option.some.inj hstep
    refine ⟨?_, le_refl _, le_refl _⟩
    rw [AlertThreads.setPhase_alerting]
    dsimp only
    split
    · exact le_refl _
    · exact Nat.le_succ _
  case h_2 => cases hstep

theorem AlertsGrow.count {a b : AlertThreads π n} (hstep : a.count i = some b) :
    AlertsGrow a b := by
  unfold AlertThreads.count at hstep
  split at hstep
  case h_1 =>
    obtain rfl := Option.some.inj hstep
    exact ⟨le_refl _, Nat.le_add_right _ _, le_refl _⟩
  case h_2 => cases hstep

/-- A step that has nothing to do with the buffer and the processed entries. -/
structure Quiet (s t : Reporting π D n) : Prop where
  buffer : t.buffer = s.buffer
  history : t.history = s.history
  processed : t.totalProcessed = s.totalProcessed
  replies : t.replies = s.replies
  uncounted : ∀ i, (t.stages i).uncounted = (s.stages i).uncounted
  proper : ∀ i, (s.stages i).Proper → (t.stages i).Proper
  alerts : AlertsGrow s.alerts t.alerts
  dropped : s.totalDropped ≤ t.totalDropped

theorem AlertsGrow.refl (a : AlertThreads π n) : AlertsGrow a a := ⟨le_refl _, le_refl _, le_refl _⟩

/-- A step that leaves the stages alone. -/
theorem Quiet.of_alerts {a : AlertThreads π n} (h : AlertsGrow s.alerts a) :
    Quiet s { s with alerts := a } :=
  ⟨rfl, rfl, rfl, rfl, fun _ => rfl, fun _ => id, h, le_refl _⟩

theorem Quiet.setErrors (s : Reporting π D n) {totalErrors : Nat}
    (h : s.alerts.alerting.totalErrors ≤ totalErrors) : Quiet s (s.setErrors totalErrors) :=
  .of_alerts ⟨h, le_refl _, le_refl _⟩

/-- A thread comes to another place before the output callback. -/
theorem Quiet.setStage (h : Quiet s t) {stage : LineStage π} (hold : (s.stages i).uncounted = 0)
    (hnew : stage.uncounted = 0) (hproper : stage.Proper) : Quiet s (t.setStage i stage) := by
  refine ⟨h.buffer, h.history, h.processed, h.replies, fun j => ?_, fun j hj => ?_, h.alerts,
    h.dropped⟩
  · by_cases hji : j = i
    · subst hji
      rw [setStage_stages, Function.update_self, hnew, hold]
    · rw [setStage_stages, Function.update_of_ne hji]
      exact h.uncounted j
  · by_cases hji : j = i
    · subst hji
      rw [setStage_stages, Function.update_self]
      exact hproper
    · rw [setStage_stages, Function.update_of_ne hji]
      exact h.proper j hj

theorem runCollectors_totalErrors {collectors : List Collector} {now : Int} {source line : Bytes}
    {totalErrors after : Nat} {entries : List LogEntry}
    (h : Pipeline.runCollectors collectors now source line totalErrors = some (entries, after)) :
    totalErrors ≤ after := by
  unfold Pipeline.runCollectors at h
  split at h
  case h_1 => exact (congrArg Prod.snd (Option.some.inj h)).le
  case h_2 =>
    split at h
    case h_1 => exact (Nat.le_succ _).trans (congrArg Prod.snd (Option.some.inj h)).le
    case h_2 =>
      obtain ⟨_, -, hentries⟩ := Option.map_eq_some_iff.mp h
      exact (congrArg Prod.snd hentries).le

theorem Quiet.collect {job : LineJob π} (hstep : s.collect i job = some t) : Quiet s t := by
  unfold Reporting.collect at hstep
  split at hstep
  case h_1 hstage =>
    obtain ⟨⟨entries, totalErrors⟩, hcollected, rfl⟩ := Option.map_eq_some_iff.mp hstep
    have herrors := Quiet.setErrors s (runCollectors_totalErrors hcollected)
    have hold : (s.stages i).uncounted = 0 := by rw [hstage]; rfl
    dsimp only
    split
    · exact herrors.setStage hold rfl trivial
    · exact herrors.setStage hold rfl trivial
  case h_2 => cases hstep

theorem Quiet.analyze (hstep : s.analyze i = some t) : Quiet s t := by
  unfold Reporting.analyze at hstep
  split at hstep
  case h_1 alerts entries analyze analyzers hstage =>
    have hold : (s.stages i).uncounted = 0 := by rw [hstage]; rfl
    split at hstep
    case h_1 =>
      obtain rfl := Option.some.inj hstep
      have hsame : Quiet s s := .of_alerts (.refl _)
      split
      · exact hsame.setStage hold rfl trivial
      · exact hsame.setStage hold rfl trivial
    case h_2 =>
      obtain rfl := Option.some.inj hstep
      have herrors := Quiet.setErrors s (Nat.le_succ s.alerts.alerting.totalErrors)
      split
      · exact herrors.setStage hold rfl trivial
      · exact herrors.setStage hold rfl trivial
  case h_2 => cases hstep

theorem Quiet.select {now triggeredAt : Int} (hstep : s.select i now triggeredAt = some t) :
    Quiet s t := by
  unfold Reporting.select at hstep
  split at hstep
  case h_1 plugins entries hstage =>
    obtain ⟨alerts, halerts, rfl⟩ := Option.map_eq_some_iff.mp hstep
    have hold : (s.stages i).uncounted = 0 := by rw [hstage]; rfl
    exact (Quiet.of_alerts (.select halerts)).setStage hold rfl trivial
  case h_2 => cases hstep

theorem Quiet.output (hstep : s.output i = some t) : Quiet s t := by
  unfold Reporting.output at hstep
  split at hstep
  case h_1 entries hstage _ =>
    split at hstep
    · cases hstep
    · obtain rfl := Option.some.inj hstep
      have hold : (s.stages i).uncounted = 0 := by rw [hstage]; rfl
      have hsame : Quiet s s := .of_alerts (.refl _)
      exact hsame.setStage hold (Nat.sub_self _) (le_refl _)
  case h_2 => cases hstep

/-- A step is quiet, pushes an entry, counts the pushed entries of a thread, or reads. -/
theorem step_cases {a : ReportAction π n} (hstep : s.step doubles sendTo a = some t) :
    Quiet s t ∨
    (∃ i count entry rest, s.stages i = .pushing count (entry :: rest) ∧
      t = setStage { s with
        buffer := s.buffer.push entry
        history := s.history ++ [entry] } i (.pushing count rest)) ∨
    (∃ i count now, s.stages i = .pushing count [] ∧
      t = (s.noteProcessed doubles count now).setStage i .idle) ∨
    ∃ query queries now, t = { s with
      queries := queries
      replies := s.replies ++ s.answerOf doubles now query } := by
  cases a with
  | drop =>
      obtain rfl := Option.some.inj hstep
      exact .inl ⟨rfl, rfl, rfl, rfl, fun _ => rfl, fun _ => id, .refl _, Nat.le_succ _⟩
  | collect i job => exact .inl (.collect hstep)
  | analyze i => exact .inl (.analyze hstep)
  | select i now triggeredAt => exact .inl (.select hstep)
  | send i =>
      obtain ⟨alerts, halerts, rfl⟩ := Option.map_eq_some_iff.mp hstep
      exact .inl (.of_alerts (.send halerts))
  | count i =>
      obtain ⟨alerts, halerts, rfl⟩ := Option.map_eq_some_iff.mp hstep
      exact .inl (.of_alerts (.count halerts))
  | output i => exact .inl (.output hstep)
  | push i =>
      simp only [step, Reporting.push] at hstep
      split at hstep
      case h_1 count entry rest hstage =>
        exact .inr (.inl ⟨i, count, entry, rest, hstage, (Option.some.inj hstep).symm⟩)
      case h_2 => cases hstep
  | note i now =>
      simp only [step, Reporting.note] at hstep
      split at hstep
      case h_1 count hstage =>
        exact .inr (.inr (.inl ⟨i, count, now, hstage, (Option.some.inj hstep).symm⟩))
      case h_2 => cases hstep
  | others state loadedCount vectorCount =>
      obtain rfl := Option.some.inj hstep
      exact .inl ⟨rfl, rfl, rfl, rfl, fun _ => rfl, fun _ => id, .refl _, le_refl _⟩
  | call method =>
      simp only [step] at hstep
      split at hstep
      · obtain rfl := Option.some.inj hstep
        exact .inl ⟨rfl, rfl, rfl, rfl, fun _ => rfl, fun _ => id, .refl _, le_refl _⟩
      · cases hstep
  | answer now =>
      simp only [step, Reporting.answer] at hstep
      split at hstep
      case h_1 => cases hstep
      case h_2 query queries _ =>
        exact .inr (.inr (.inr ⟨query, queries, now, (Option.some.inj hstep).symm⟩))

/-! ## The counters at one time -/

/-- What holds of the counters at every time: the buffer holds what it has not discarded, and a
thread counts its entries when they are in the buffer. -/
structure CountersLaw (capacity : Nat) (value : Counter → Nat) : Prop where
  size_add_discarded : value .bufferSize + value .bufferDiscarded = value .bufferTotal
  processed_le : value .totalProcessed ≤ value .bufferTotal
  size_le : value .bufferSize ≤ max 1 capacity

theorem after_totals (capacity : Nat) {history : List LogEntry}
    (hbound : history.length < wordBound) :
    (LogBuffer.after capacity history).items.length = min history.length (max 1 capacity) ∧
      (LogBuffer.after capacity history).totalDiscarded =
        history.length - max 1 capacity ∧
      (LogBuffer.after capacity history).totalPushed = history.length := by
  have hcapacity : (if capacity = 0 then 1 else capacity) = max 1 capacity := by
    split <;> omega
  have hholds := LogBuffer.after_holds capacity history hbound
  have hcounts := LogBuffer.after_counts capacity history hbound
  rw [hcapacity] at hholds hcounts
  refine ⟨?_, hcounts.discarded_eq, hcounts.pushed_eq⟩
  rw [hholds.items_eq, List.length_drop]
  omega

structure Sound (capacity : Nat) (s : Reporting π D n) : Prop where
  buffer_eq : s.buffer = LogBuffer.after capacity s.history
  proper : ∀ i, (s.stages i).Proper
  processed_eq : s.totalProcessed + ∑ i, (s.stages i).uncounted = s.history.length
  fit : s.history.length < wordBound →
    Readings.Fit (CountersLaw capacity) s.value (readings s.replies)

variable {capacity : Nat}

theorem Sound.law (h : s.Sound capacity) (hbound : s.history.length < wordBound) :
    CountersLaw capacity s.value := by
  obtain ⟨hsize, hdiscarded, hpushed⟩ := after_totals capacity hbound
  rw [← h.buffer_eq] at hsize hdiscarded hpushed
  have hprocessed := h.processed_eq
  refine ⟨?_, ?_, ?_⟩
  · simp only [value, hsize, hdiscarded, hpushed]
    omega
  · simp only [value, hpushed]
    omega
  · simp only [value, hsize]
    omega

theorem sum_setStage (s : Reporting π D n) (i : Fin n) (stage : LineStage π) :
    ∑ j, ((s.setStage i stage).stages j).uncounted + (s.stages i).uncounted =
      ∑ j, (s.stages j).uncounted + stage.uncounted := by
  have hothers : ∑ j ∈ Finset.univ.erase i, ((s.setStage i stage).stages j).uncounted =
      ∑ j ∈ Finset.univ.erase i, (s.stages j).uncounted := by
    refine Finset.sum_congr rfl fun j hj => ?_
    rw [setStage_stages, Function.update_of_ne (Finset.ne_of_mem_erase hj)]
  rw [← Finset.add_sum_erase Finset.univ _ (Finset.mem_univ i),
    ← Finset.add_sum_erase Finset.univ (fun j => (s.stages j).uncounted) (Finset.mem_univ i),
    hothers, setStage_stages, Function.update_self]
  omega

theorem Proper_setStage (h : ∀ j, (s.stages j).Proper) {stage : LineStage π}
    (hstage : stage.Proper) (j : Fin n) : ((s.setStage i stage).stages j).Proper := by
  rw [setStage_stages]
  by_cases hji : j = i
  · subst hji
    rw [Function.update_self]
    exact hstage
  · rw [Function.update_of_ne hji]
    exact h j

theorem Quiet.value_le (h : Quiet s t) : s.value ≤ t.value := by
  intro key
  cases key with
  | totalProcessed => exact h.processed.symm.le
  | totalErrors => exact h.alerts.errors
  | totalAlerts => exact h.alerts.alerts
  | totalSuppressed => exact h.alerts.suppressed
  | totalDropped => exact h.dropped
  | bufferSize => exact (congrArg (fun b => b.items.length) h.buffer).symm.le
  | bufferDiscarded => exact (congrArg LogBuffer.totalDiscarded h.buffer).symm.le
  | bufferTotal => exact (congrArg LogBuffer.totalPushed h.buffer).symm.le

theorem Sound.quiet (h : s.Sound capacity) (hquiet : Quiet s t) : t.Sound capacity := by
  refine ⟨?_, fun i => hquiet.proper i (h.proper i), ?_, fun hbound => ?_⟩
  · rw [hquiet.buffer, hquiet.history, h.buffer_eq]
  · rw [hquiet.processed, hquiet.history, Finset.sum_congr rfl fun i _ => hquiet.uncounted i,
      h.processed_eq]
  · rw [hquiet.history] at hbound
    rw [hquiet.replies]
    exact (h.fit hbound).grow hquiet.value_le

theorem Sound.push (h : s.Sound capacity) {count : Nat} {entry : LogEntry} {rest : List LogEntry}
    (hstage : s.stages i = .pushing count (entry :: rest)) :
    (setStage { s with
      buffer := s.buffer.push entry
      history := s.history ++ [entry] } i (.pushing count rest)).Sound capacity := by
  have hproper : rest.length + 1 ≤ count := by
    have hall := h.proper i
    rw [hstage] at hall
    exact hall
  have hold : (s.stages i).uncounted = count - (rest.length + 1) := by rw [hstage]; rfl
  have hsum := sum_setStage s i (.pushing count rest)
  have hnew : (LineStage.pushing count rest : LineStage π).uncounted = count - rest.length := rfl
  have hprocessed := h.processed_eq
  refine ⟨?_, Proper_setStage h.proper ((Nat.le_succ _).trans hproper), ?_, fun hbound => ?_⟩
  · show s.buffer.push entry = LogBuffer.after capacity (s.history ++ [entry])
    rw [LogBuffer.after_append, h.buffer_eq]
  · show s.totalProcessed + ∑ j, ((s.setStage i (.pushing count rest)).stages j).uncounted =
      (s.history ++ [entry]).length
    rw [List.length_append, List.length_singleton]
    omega
  · change (s.history ++ [entry]).length < wordBound at hbound
    have hlength : (s.history ++ [entry]).length = s.history.length + 1 := List.length_append
    have hbefore : s.history.length < wordBound := by omega
    obtain ⟨hsize, hdiscarded, hpushed⟩ := after_totals capacity hbefore
    obtain ⟨hsize', hdiscarded', hpushed'⟩ := after_totals capacity hbound
    refine (h.fit hbefore).grow fun key => ?_
    cases key with
    | bufferSize =>
        show s.buffer.items.length ≤ (s.buffer.push entry).items.length
        rw [h.buffer_eq, ← LogBuffer.after_append, hsize, hsize']
        omega
    | bufferDiscarded =>
        show s.buffer.totalDiscarded ≤ (s.buffer.push entry).totalDiscarded
        rw [h.buffer_eq, ← LogBuffer.after_append, hdiscarded, hdiscarded']
        omega
    | bufferTotal =>
        show s.buffer.totalPushed ≤ (s.buffer.push entry).totalPushed
        rw [h.buffer_eq, ← LogBuffer.after_append, hpushed, hpushed']
        omega
    | _ => exact le_refl _

/-- `note_processed` touches the counter and the window of the rate only. -/
theorem noteProcessed_frame (doubles : Doubles D) (s : Reporting π D n) (count : Nat) (now : Int) :
    (s.noteProcessed doubles count now).totalProcessed = s.totalProcessed + count ∧
      (s.noteProcessed doubles count now).stages = s.stages ∧
      (s.noteProcessed doubles count now).alerts = s.alerts ∧
      (s.noteProcessed doubles count now).totalDropped = s.totalDropped ∧
      (s.noteProcessed doubles count now).buffer = s.buffer ∧
      (s.noteProcessed doubles count now).history = s.history ∧
      (s.noteProcessed doubles count now).replies = s.replies := by
  unfold noteProcessed
  dsimp only
  split
  · exact ⟨rfl, rfl, rfl, rfl, rfl, rfl, rfl⟩
  · exact ⟨rfl, rfl, rfl, rfl, rfl, rfl, rfl⟩

theorem Sound.note (h : s.Sound capacity) {count : Nat} {now : Int}
    (hstage : s.stages i = .pushing count []) :
    ((s.noteProcessed doubles count now).setStage i .idle).Sound capacity := by
  obtain ⟨hcount, hstages, halerts, hdropped, hbuffer, hhistory, hreplies⟩ :=
    noteProcessed_frame doubles s count now
  have hold : (s.stages i).uncounted = count := by rw [hstage]; rfl
  have hnew : (LineStage.idle : LineStage π).uncounted = 0 := rfl
  have hsum := sum_setStage (s.noteProcessed doubles count now) i .idle
  have hprocessed := h.processed_eq
  refine ⟨?_, Proper_setStage (by rw [hstages]; exact h.proper) trivial, ?_, fun hbound => ?_⟩
  · exact hbuffer.trans (h.buffer_eq.trans (by rw [← hhistory]; rfl))
  · rw [hstages] at hsum
    show (s.noteProcessed doubles count now).totalProcessed + _ =
      (s.noteProcessed doubles count now).history.length
    rw [hcount, hhistory]
    omega
  · change (s.noteProcessed doubles count now).history.length < wordBound at hbound
    rw [hhistory] at hbound
    show Readings.Fit _ _ (readings (s.noteProcessed doubles count now).replies)
    rw [hreplies]
    refine (h.fit hbound).grow fun key => ?_
    cases key with
    | totalProcessed => exact (Nat.le_add_right _ _).trans hcount.symm.le
    | totalErrors => exact (congrArg (fun a => a.alerting.totalErrors) halerts).symm.le
    | totalAlerts => exact (congrArg (fun a => a.alerting.totalAlerts) halerts).symm.le
    | totalSuppressed => exact (congrArg (fun a => a.alerting.totalSuppressed) halerts).symm.le
    | totalDropped => exact hdropped.symm.le
    | bufferSize => exact (congrArg (fun b => b.items.length) hbuffer).symm.le
    | bufferDiscarded => exact (congrArg LogBuffer.totalDiscarded hbuffer).symm.le
    | bufferTotal => exact (congrArg LogBuffer.totalPushed hbuffer).symm.le

/-- The counters of a component are read at once. -/
theorem readings_answerOf (doubles : Doubles D) (s : Reporting π D n) (now : Int) (query : Query) :
    ∃ keys : List Counter,
      readings (s.answerOf doubles now query) = keys.map fun key => (key, s.value key) := by
  cases query with
  | stats =>
      exact ⟨[.totalProcessed, .totalErrors, .totalAlerts, .totalSuppressed, .totalDropped], rfl⟩
  | size => exact ⟨[.bufferSize], rfl⟩
  | totalDiscarded => exact ⟨[.bufferDiscarded], rfl⟩
  | totalPushed => exact ⟨[.bufferTotal], rfl⟩
  | loadedCount => exact ⟨[], rfl⟩
  | vectorStoreSize => exact ⟨[], rfl⟩
  | state => exact ⟨[], rfl⟩
  | uptime => exact ⟨[], rfl⟩

theorem Sound.answer (h : s.Sound capacity) (query : Query) (queries : List Query) (now : Int) :
    ({ s with
      queries := queries
      replies := s.replies ++ s.answerOf doubles now query } : Reporting π D n).Sound capacity := by
  refine ⟨h.buffer_eq, h.proper, h.processed_eq, fun hbound => ?_⟩
  obtain ⟨keys, hkeys⟩ := readings_answerOf doubles s now query
  have hread := (h.fit hbound).read (h.law hbound) keys
  rw [← hkeys, readings, readings, ← List.filterMap_append] at hread
  exact hread

theorem Sound.step (h : s.Sound capacity) {a : ReportAction π n}
    (hstep : s.step doubles sendTo a = some t) : t.Sound capacity := by
  rcases step_cases hstep with hquiet | ⟨i, count, entry, rest, hstage, rfl⟩ |
    ⟨i, count, now, hstage, rfl⟩ | ⟨query, queries, now, rfl⟩
  · exact h.quiet hquiet
  · exact h.push hstage
  · exact h.note hstage
  · exact h.answer query queries now

theorem start_sound (doubles : Doubles D) (rule : AlertRule) (capacity : Nat)
    (startedAt rateWindowStart : Int) :
    (start doubles rule capacity startedAt rateWindowStart : Reporting π D n).Sound capacity := by
  refine ⟨rfl, fun _ => trivial, ?_, fun _ => .nil _ _⟩
  exact (Nat.zero_add _).trans (Finset.sum_eq_zero fun _ _ => rfl)

end Reporting

end LogMind
