import LogMind.Buffer.Ring
import LogMind.Client.Decode

/-!
# Queries by time over the bus

`QueryLogsByTime` takes its bounds as unsigned words, as the timestamps of the entries go
out, and compares them as signed ones. The two orders agree on two words of one half of
the range, so a bound in the other half empties a range or turns it inside out.
-/

namespace LogMind

variable {Q F : Type}

/-- The timestamp that `log_entry_to_varmap` writes for an entry. -/
def reportedNs (entry : LogEntry) : Nat := (entry.timestamp % wordBound).toNat

/-- The maps of some entries; `none` is an exception of `dump`. -/
def entryMaps (ext : External Q F) (entries : List LogEntry) : Option (List (QVariantMap Q)) :=
  entries.mapM fun entry => (logEntryToVarmap ext entry).map (VarMap.toVariantMap ext)

/-- `DaemonAdaptor::QueryLogsByTime`; without a buffer the answer is empty. -/
def queryLogsByTime (ext : External Q F) (buffer : Option LogBuffer) (startNs endNs limit : Nat) :
    Option (List (QVariantMap Q)) :=
  match buffer with
  | none => some []
  | some b => entryMaps ext (b.queryByTime (toQint64 startNs) (toQint64 endNs) limit)

/-- The first half of the unsigned words, where they are read as they are. -/
def signBound : Nat := 9223372036854775808

/-- The reported timestamp lies between the bounds. -/
def reportedIn (startNs endNs : Nat) (entry : LogEntry) : Bool :=
  startNs ≤ reportedNs entry && reportedNs entry ≤ endNs

/-- No comparison, signed or unsigned, puts the entry between the bounds. -/
def Outside (startNs endNs : Nat) (entry : LogEntry) : Prop :=
  reportedIn startNs endNs entry = false ∧
    LogBuffer.inTime (toQint64 startNs) (toQint64 endNs) entry = false

/-- `system_clock` counts in a signed word. -/
def InClock (entry : LogEntry) : Prop :=
  -(signBound : Int) ≤ entry.timestamp ∧ entry.timestamp < signBound

instance (startNs endNs : Nat) (entry : LogEntry) : Decidable (Outside startNs endNs entry) :=
  inferInstanceAs (Decidable (_ ∧ _))

instance (entry : LogEntry) : Decidable (InClock entry) :=
  inferInstanceAs (Decidable (_ ∧ _))

/-! ## The two orders -/

variable {startNs endNs : Nat} {entry : LogEntry}

theorem reportedIn_iff : reportedIn startNs endNs entry = true ↔
    startNs ≤ reportedNs entry ∧ reportedNs entry ≤ endNs := by
  simp [reportedIn]

theorem inTime_iff {start stop : Int} : LogBuffer.inTime start stop entry = true ↔
    start ≤ entry.timestamp ∧ entry.timestamp ≤ stop := by
  simp [LogBuffer.inTime]

/-- With both bounds in one half the comparisons agree. -/
theorem reportedIn_eq_inTime (hclock : InClock entry) (hstart : startNs < wordBound)
    (hend : endNs < wordBound) (hhalf : startNs < signBound ↔ endNs < signBound) :
    reportedIn startNs endNs entry =
      LogBuffer.inTime (toQint64 startNs) (toQint64 endNs) entry := by
  rw [Bool.eq_iff_iff, reportedIn_iff, inTime_iff]
  unfold InClock at hclock
  unfold reportedNs toQint64
  unfold signBound at hhalf hclock
  unfold wordBound at *
  split <;> split <;> omega

/-- With the bounds in different halves one of the comparisons puts nothing between them. -/
theorem reportedIn_or_inTime (hstart : startNs < wordBound) (hend : endNs < wordBound)
    (hhalf : ¬(startNs < signBound ↔ endNs < signBound)) :
    if startNs < signBound then
      LogBuffer.inTime (toQint64 startNs) (toQint64 endNs) entry = false
    else reportedIn startNs endNs entry = false := by
  split
  · rw [← Bool.not_eq_true, inTime_iff]
    unfold toQint64
    unfold signBound at *
    unfold wordBound at *
    split <;> split <;> omega
  · rw [← Bool.not_eq_true, reportedIn_iff]
    omega

/-! ## The query -/

theorem entryMaps_cons_ne (ext : External Q F) (entry : LogEntry) (entries : List LogEntry) :
    entryMaps ext (entry :: entries) ≠ some [] := by
  intro h
  rw [entryMaps, List.mapM_cons] at h
  cases hmap : (logEntryToVarmap ext entry).map (VarMap.toVariantMap ext) with
  | none =>
      rw [hmap] at h
      cases h
  | some m =>
      rw [hmap] at h
      cases hrest : entries.mapM fun entry =>
          (logEntryToVarmap ext entry).map (VarMap.toVariantMap ext) with
      | none =>
          rw [hrest] at h
          cases h
      | some ms =>
          rw [hrest] at h
          cases h

/-- Nothing is answered for a selection only if nothing is selected. -/
theorem entryMaps_eq_nil_iff (ext : External Q F) (p : LogEntry → Bool) {limit : Nat}
    (hlimit : limit ≠ 0) (items : List LogEntry) :
    entryMaps ext ((items.filter p).take limit) = some [] ↔ ∀ entry ∈ items, p entry = false := by
  constructor
  · intro h entry hentry
    cases hfilter : items.filter p with
    | nil =>
        rw [List.filter_eq_nil_iff] at hfilter
        simpa using hfilter entry hentry
    | cons first rest =>
        obtain ⟨count, rfl⟩ := Nat.exists_eq_succ_of_ne_zero hlimit
        rw [hfilter, List.take_succ_cons] at h
        exact absurd h (entryMaps_cons_ne ext first _)
  · intro h
    have hnil : items.filter p = [] := by
      rw [List.filter_eq_nil_iff]
      intro entry hentry
      rw [h entry hentry]
      exact Bool.false_ne_true
    rw [hnil, List.take_nil]
    rfl

/-- The answer is the first entries whose reported timestamp lies between the bounds exactly
if the limit is zero, the bounds lie in one half of the range, or no entry lies between them
in either order. -/
theorem queryLogsByTime_iff (ext : External Q F) (b : LogBuffer)
    (hclock : ∀ entry ∈ b.items, InClock entry) {startNs endNs : Nat}
    (hstart : startNs < wordBound) (hend : endNs < wordBound) (limit : Nat) :
    queryLogsByTime ext (some b) startNs endNs limit =
        entryMaps ext ((b.items.filter (reportedIn startNs endNs)).take limit) ↔
      limit = 0 ∨ (startNs < signBound ↔ endNs < signBound) ∨
        ∀ entry ∈ b.items, Outside startNs endNs entry := by
  have hquery : queryLogsByTime ext (some b) startNs endNs limit = entryMaps ext
      ((b.items.filter (LogBuffer.inTime (toQint64 startNs) (toQint64 endNs))).take limit) := by
    rw [queryLogsByTime, LogBuffer.queryByTime_eq]
  rw [hquery]
  by_cases hlimit : limit = 0
  · simp [hlimit]
  by_cases hhalf : startNs < signBound ↔ endNs < signBound
  · have hsame : b.items.filter (reportedIn startNs endNs) =
        b.items.filter (LogBuffer.inTime (toQint64 startNs) (toQint64 endNs)) :=
      List.filter_congr fun entry hentry =>
        reportedIn_eq_inTime (hclock entry hentry) hstart hend hhalf
    rw [hsame]
    exact iff_of_true rfl (.inr (.inl hhalf))
  · have hempty : ∀ entry, if startNs < signBound then
          LogBuffer.inTime (toQint64 startNs) (toQint64 endNs) entry = false
        else reportedIn startNs endNs entry = false := fun _ =>
      reportedIn_or_inTime hstart hend hhalf
    by_cases hlow : startNs < signBound
    · simp only [if_pos hlow] at hempty
      rw [(entryMaps_eq_nil_iff ext _ hlimit b.items).mpr fun entry _ => hempty entry, eq_comm,
        entryMaps_eq_nil_iff ext _ hlimit]
      simp only [hlimit, hhalf, false_or, Outside]
      exact ⟨fun h entry hentry => ⟨h entry hentry, hempty entry⟩,
        fun h entry hentry => (h entry hentry).1⟩
    · simp only [if_neg hlow] at hempty
      rw [(entryMaps_eq_nil_iff ext _ hlimit b.items).mpr fun entry _ => hempty entry,
        entryMaps_eq_nil_iff ext _ hlimit]
      simp only [hlimit, hhalf, false_or, Outside]
      exact ⟨fun h entry hentry => ⟨hempty entry, h entry hentry⟩,
        fun h entry hentry => (h entry hentry).2⟩

/-- One entry, five nanoseconds after the epoch. -/
def fiveBuffer : LogBuffer := LogBuffer.after 1 [{ timestamp := 5 }]

/-- A window around the entry. -/
theorem queryLogsByTime_iff_five :
    queryLogsByTime Daemon.plainLibraries (some fiveBuffer) 0 9 3 =
        entryMaps Daemon.plainLibraries ((fiveBuffer.items.filter (reportedIn 0 9)).take 3) ↔
      3 = 0 ∨ (0 < signBound ↔ 9 < signBound) ∨
        ∀ entry ∈ fiveBuffer.items, Outside 0 9 entry :=
  queryLogsByTime_iff _ fiveBuffer (by decide) (by decide) (by decide) 3

/-- The largest word as the end of the window turns it inside out. -/
theorem queryLogsByTime_misses_five :
    queryLogsByTime Daemon.plainLibraries (some fiveBuffer) 0 18446744073709551615 3 = some [] ∧
      queryLogsByTime Daemon.plainLibraries (some fiveBuffer) 0 18446744073709551615 3 ≠
        entryMaps Daemon.plainLibraries
          ((fiveBuffer.items.filter (reportedIn 0 18446744073709551615)).take 3) :=
  ⟨rfl, fun h => entryMaps_cons_ne Daemon.plainLibraries { timestamp := 5 } [] h.symm⟩

end LogMind
