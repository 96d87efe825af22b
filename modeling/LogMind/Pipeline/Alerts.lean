import LogMind.Core.LogEntry
import LogMind.Library.Throttle

/-!
# Alerts

`select_alerting` takes from a batch the entries that are worth an alert: the level is
high enough, the budget of the minute is not used up, and the same fingerprint was not
alerted a short while ago. `run_alerts` sends what was selected to the alert plugins. A
point in time is a number of nanoseconds, as `system_clock` counts them.
-/

namespace LogMind

structure AlertRule where
  minLevel : LogLevel := .error
  dedupWindow : Int := 60
  /-- Zero is no limit. -/
  maxAlertsPerMinute : Nat := 60
  dedupCacheSize : Nat := 4096

/-- `dedup_window` where a difference of two points in time is compared with it: in
nanoseconds, which the conversion computes in 64 bits. -/
def AlertRule.dedupTicks (rule : AlertRule) : Int :=
  (rule.dedupWindow * 1000000000).bmod wordBound

/-- `dedup_window` in nanoseconds, as it is meant. -/
def AlertRule.dedupNanos (rule : AlertRule) : Int := rule.dedupWindow * 1000000000

/-- A window of up to 292 years is converted as it is. -/
theorem AlertRule.dedupTicks_eq {rule : AlertRule} (hlow : -9223372036 ≤ rule.dedupWindow)
    (hhigh : rule.dedupWindow ≤ 9223372036) : rule.dedupTicks = rule.dedupNanos := by
  apply Int.bmod_eq_of_le <;>
    · unfold wordBound
      omega

structure AlertContext where
  ruleName : Bytes
  severity : Bytes
  summary : Bytes
  entries : List LogEntry
  extra : Json
  triggeredAt : Int
  sourcePlugin : Bytes

/-- The call of `send`; `none` is a `std::exception`. -/
abbrev Alert := AlertContext → Option Unit

structure Alerting where
  rule : AlertRule
  recentAlerts : AList fun _ : Bytes => Int := ∅
  rateWindowStart : Int
  rateCount : Nat := 0
  totalErrors : Nat := 0
  totalAlerts : Nat := 0
  totalSuppressed : Nat := 0

namespace Pipeline

def kAlertKeyMaxLen : Nat := 192

/-- One minute of a window of the rate limit. -/
def rateWindow : Int := 60000000000

def levelAtLeast (level threshold : LogLevel) : Bool := threshold.code ≤ level.code

/-- The loop of `alert_key`: a run of digits is one `#`. -/
def normalize : Bytes → Bool → Bytes → Bytes
  | [], _, key => key
  | c :: message, inDigits, key =>
      if isDigit c then
        if inDigits then normalize message true key else normalize message true (key ++ ascii "#")
      else if kAlertKeyMaxLen ≤ (key ++ [c]).length then key ++ [c]
      else normalize message false (key ++ [c])

/-- The fingerprint of an entry. -/
def alertKey (entry : LogEntry) : Bytes :=
  normalize entry.message false (entry.module ++ ascii "|" ++ entry.level.name ++ ascii "|")

def severityOf : LogLevel → Bytes
  | .fatal => ascii "critical"
  | .error => ascii "error"
  | .warn => ascii "warning"
  | .info => ascii "info"
  | .debug => ascii "debug"

end Pipeline

namespace Alerting

open Pipeline

structure Selecting where
  alerting : Alerting
  selected : List LogEntry := []
  suppressed : Nat := 0

def rateExceeded (s : Alerting) : Bool :=
  0 < s.rule.maxAlertsPerMinute && s.rule.maxAlertsPerMinute ≤ s.rateCount

/-- The fingerprint was alerted a short while ago. -/
def duplicate (s : Alerting) (now : Int) (key : Bytes) : Bool :=
  (s.recentAlerts.lookup key).any fun t => now - t < s.rule.dedupTicks

/-- An alert for a fingerprint: it is noted and paid from the budget. -/
def remember (s : Alerting) (now : Int) (key : Bytes) : Alerting :=
  { s with recentAlerts := s.recentAlerts.insert key now, rateCount := s.rateCount + 1 }

def visit (now : Int) (s : Selecting) (entry : LogEntry) : Selecting :=
  if !levelAtLeast entry.level s.alerting.rule.minLevel then s
  else if s.alerting.rateExceeded then { s with suppressed := s.suppressed + 1 }
  else if s.alerting.duplicate now (alertKey entry) then { s with suppressed := s.suppressed + 1 }
  else
    { s with
      alerting := s.alerting.remember now (alertKey entry)
      selected := s.selected ++ [entry] }

/-- An entry is selected, suppressed, or below the level of the rule. -/
theorem visit_cases (now : Int) (s : Selecting) (entry : LogEntry) :
    (levelAtLeast entry.level s.alerting.rule.minLevel = true ∧ s.alerting.rateExceeded = false ∧
        s.alerting.duplicate now (alertKey entry) = false ∧
        visit now s entry = { s with
          alerting := s.alerting.remember now (alertKey entry)
          selected := s.selected ++ [entry] }) ∨
      (levelAtLeast entry.level s.alerting.rule.minLevel = true ∧
        (s.alerting.rateExceeded = true ∨ s.alerting.duplicate now (alertKey entry) = true) ∧
        visit now s entry = { s with suppressed := s.suppressed + 1 }) ∨
      (levelAtLeast entry.level s.alerting.rule.minLevel = false ∧ visit now s entry = s) := by
  unfold visit
  cases hlevel : levelAtLeast entry.level s.alerting.rule.minLevel with
  | false => exact .inr (.inr ⟨rfl, rfl⟩)
  | true =>
      cases hrate : s.alerting.rateExceeded with
      | true => exact .inr (.inl ⟨rfl, .inl rfl, rfl⟩)
      | false =>
          cases hdup : s.alerting.duplicate now (alertKey entry) with
          | true => exact .inr (.inl ⟨rfl, .inr rfl, rfl⟩)
          | false => exact .inl ⟨rfl, rfl, rfl, rfl⟩

/-- The first call behind the end of a window starts the next one. -/
def turnWindow (s : Alerting) (now : Int) : Alerting :=
  if rateWindow ≤ now - s.rateWindowStart then { s with rateWindowStart := now, rateCount := 0 }
  else s

def remembered (s : Alerting) : Nat := s.recentAlerts.entries.length

/-- The table without its expired fingerprints. -/
def purged (s : Alerting) (now : Int) : Alerting :=
  { s with recentAlerts := Throttle.purge s.rule.dedupTicks now s.recentAlerts }

/-- A table that is too large loses what has expired, or everything. -/
def limitRecent (s : Alerting) (now : Int) : Alerting :=
  if s.rule.dedupCacheSize < s.remembered then
    if s.rule.dedupCacheSize < (s.purged now).remembered then
      { s with recentAlerts := ∅ }
    else s.purged now
  else s

/-- The loop of `select_alerting` over the entries of a call. -/
def select (s : Alerting) (now : Int) (entries : List LogEntry) : Selecting :=
  entries.foldl (visit now) { alerting := s.turnWindow now }

def selectAlerting (s : Alerting) (now : Int) (entries : List LogEntry) :
    Alerting × List LogEntry :=
  let done := s.select now entries
  let after := done.alerting.limitRecent now
  ({ after with totalSuppressed := after.totalSuppressed + done.suppressed }, done.selected)

def contextOf (rule : AlertRule) (triggeredAt : Int) (scanned : Nat) (first : LogEntry)
    (triggered : List LogEntry) : AlertContext :=
  let worst := triggered.foldl
    (fun worst entry => if levelAtLeast entry.level worst then entry.level else worst) first.level
  { ruleName := ascii "level>=" ++ rule.minLevel.name
    severity := severityOf worst
    summary := ascii (toString triggered.length) ++ ascii " entry(ies) at " ++ worst.name ++
      ascii ": " ++ first.message
    triggeredAt := triggeredAt
    sourcePlugin := ascii "pipeline"
    extra := .object [(ascii "matched", .number triggered.length),
      (ascii "scanned", .number scanned)]
    entries := triggered }

/-- `send` of every plugin, with `total_errors` before and after. -/
def sendAll (ctx : AlertContext) : List Alert → Nat → Nat
  | [], totalErrors => totalErrors
  | send :: alerts, totalErrors =>
      match send ctx with
      | some () => sendAll ctx alerts totalErrors
      | none => sendAll ctx alerts (totalErrors + 1)

/-- `run_alerts`, with the clock at the selection and behind it. -/
def runAlerts (s : Alerting) (alerts : List Alert) (now triggeredAt : Int)
    (entries : List LogEntry) : Alerting :=
  if entries.isEmpty || alerts.isEmpty then s
  else
    let (s, triggered) := s.selectAlerting now entries
    match triggered with
    | [] => s
    | first :: _ =>
        let ctx := contextOf s.rule triggeredAt entries.length first triggered
        { s with
          totalErrors := sendAll ctx alerts s.totalErrors
          totalAlerts := s.totalAlerts + ctx.entries.length }

/-- The table is cleared as a whole: it is too large without the expired ones too. -/
def Clears (s : Alerting) (now : Int) (entries : List LogEntry) : Prop :=
  s.rule.dedupCacheSize < (((s.select now entries).alerting.purged now).remembered)

instance (s : Alerting) (now : Int) (entries : List LogEntry) : Decidable (s.Clears now entries) :=
  inferInstanceAs (Decidable (_ < _))

end Alerting

end LogMind
