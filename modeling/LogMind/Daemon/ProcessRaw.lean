import LogMind.Daemon.Output
import LogMind.Pipeline.Analyzers
import LogMind.Plugins.SyslogCollector
import LogMind.Plugins.ThresholdAnalyzer

/-!
# One line through the daemon

`process_raw_now` with the syslog collector, the threshold analyzer, no alert
plugin and the output callback of the daemon. The collector and the analyzer run
inside a `try`, the callback does not: `none` is an exception that leaves the
function, and with it the loop of the worker.
-/

namespace LogMind

variable {Q F : Type}

structure Daemon (Q F : Type) where
  threshold : ThresholdAnalyzer := {}
  sink : Sink Q F
  totalErrors : Nat := 0
  totalProcessed : Nat := 0

namespace Daemon

def processRawNow (ext : External Q F) (d : Daemon Q F) (now : Int) (source line : Bytes) :
    Option (Daemon Q F) := do
  let (collected, errors) ←
    Pipeline.runCollectors [syslogCollector] now source line d.totalErrors
  if collected.isEmpty then return { d with totalErrors := errors }
  let (entries, errors) :=
    Pipeline.runAnalyzers [fun entries => (d.threshold.analyze entries).1] collected errors
  let analyzed := { d with
    threshold := (d.threshold.analyze collected).2
    totalErrors := errors }
  if entries.isEmpty then return analyzed
  let sink ← outputCallback ext d.sink entries
  return { analyzed with
    sink := sink
    totalProcessed := d.totalProcessed + entries.length }

/-- The collector has a positive score for a `.log` file. -/
theorem pickCollector_log {source : Bytes} (hlog : (ascii ".log").isSuffixOf source = true) :
    Pipeline.pickCollector source [syslogCollector] 0 none = some syslogCollector := by
  have hscore : (0 : Int) < syslogCollector.matchScore source := by
    show 0 < SyslogCollector.matchScore source
    unfold SyslogCollector.matchScore
    split
    · decide
    · decide
  simp [Pipeline.pickCollector, hscore]

/-- The entry a non-empty line of a `.log` file enters the analyzer with. -/
theorem runCollectors_log (now : Int) {source line : Bytes} (totalErrors : Nat)
    (hlog : (ascii ".log").isSuffixOf source = true) (hline : line ≠ []) {parsed : LogEntry}
    (hparsed : SyslogCollector.parseOne now line = some parsed) (hmeta : parsed.metaJson = .null) :
    ∃ entry, Pipeline.runCollectors [syslogCollector] now source line totalErrors =
        some ([entry], totalErrors) ∧
      entry.level = parsed.level ∧ entry.fields = parsed.fields ∧ entry.tags = parsed.tags ∧
      entry.metaJson = .object [(ascii "source_file", .string source)] := by
  have hempty : line.isEmpty = false := by simpa using hline
  unfold Pipeline.runCollectors
  rw [pickCollector_log hlog]
  simp only [syslogCollector, SyslogCollector.parseLine, hempty, hparsed, Bool.false_eq_true,
    if_false, Option.map_some, List.mapM_cons, List.mapM_nil, Pipeline.complete, hmeta,
    Json.setMember]
  exact ⟨_, rfl, rfl, rfl, rfl, rfl⟩

/-- The fields of a parsed line take the marks and hold no embedding. -/
theorem timestampFields_takesMarks (line : Bytes) :
    ThresholdAnalyzer.TakesMarks (SyslogCollector.timestampFields line) := by
  unfold SyslogCollector.timestampFields
  cases SyslogCollector.timestampEnd line with
  | none => exact ⟨[], rfl, by simp⟩
  | some sep =>
      refine ⟨_, rfl, ?_⟩
      intro m hm
      rw [List.mem_singleton] at hm
      rw [hm]
      dsimp only
      decide

theorem timestampFields_find_embedding (line : Bytes) :
    (SyslogCollector.timestampFields line).find (ascii "embedding") = none := by
  unfold SyslogCollector.timestampFields
  cases SyslogCollector.timestampEnd line with
  | none => rfl
  | some sep => rfl

theorem timestampFields_valid_iff (line : Bytes) :
    (SyslogCollector.timestampFields line).valid = true ↔
      ∀ sep, SyslogCollector.timestampEnd line = some sep → validUtf8 (line.take sep) = true := by
  have hkey : validUtf8 (ascii "timestamp_text") = true := by decide
  unfold SyslogCollector.timestampFields
  cases SyslogCollector.timestampEnd line with
  | none => simp [Json.valid]
  | some sep => simp [Json.valid, Json.validMembers, hkey]

/-- No exception leaves `process_raw_now` exactly when the timestamp text of the line,
if it has one, is valid UTF-8, or the analyzer drops the line as a debug entry. -/
theorem processRawNow_isSome_iff (ext : External Q F)
    (hdump : Json.DumpThrowsIffInvalid ext.dump) (d : Daemon Q F) (now : Int) (source : Bytes)
    (hsource : validUtf8 source = true) (hlog : (ascii ".log").isSuffixOf source = true)
    (line : Bytes) :
    (processRawNow ext d now source line).isSome ↔
      (∀ sep, SyslogCollector.timestampEnd line = some sep →
          validUtf8 (line.take sep) = true) ∨
        (d.threshold.dropDebug = true ∧
          (SyslogCollector.parseOne now line).map LogEntry.level = some .debug) := by
  by_cases hline : line = []
  · subst hline
    have hcollect : Pipeline.runCollectors [syslogCollector] now source [] d.totalErrors =
        some ([], d.totalErrors) := by
      unfold Pipeline.runCollectors
      rw [pickCollector_log hlog]
      rfl
    refine iff_of_true ?_ (Or.inl ?_)
    · simp [processRawNow, hcollect]
    · intro sep hsep
      rw [List.take_nil]
      decide
  · obtain ⟨parsed, hparsed, _, hfields, htags, hmeta⟩ := SyslogCollector.parseOne_total now line
    obtain ⟨entry, hcollect, hlevel, hentry, hentrytags, hentrymeta⟩ :=
      runCollectors_log now d.totalErrors hlog hline hparsed hmeta
    have htakes : ThresholdAnalyzer.TakesMarks entry.fields := by
      rw [hentry, hfields]
      exact timestampFields_takesMarks line
    have hparsedLevel : (SyslogCollector.parseOne now line).map LogEntry.level = some .debug ↔
        entry.level = .debug := by
      rw [hparsed, hlevel]
      simp
    obtain ⟨hdrop, hkeep⟩ := d.threshold.analyze_singleton htakes
    rw [hparsedLevel, ← timestampFields_valid_iff, ← hfields, ← hentry]
    by_cases hdebug : d.threshold.dropDebug = true ∧ entry.level = .debug
    · refine iff_of_true ?_ (Or.inr hdebug)
      simp [processRawNow, hcollect, Pipeline.runAnalyzers, hdrop hdebug]
    · obtain ⟨marked, hanalyzed, hvalid, hfind⟩ := hkeep hdebug
      have hplain : marked.find (ascii "embedding") = none := by
        rw [hfind _ (by decide) (by decide) (by decide), hentry, hfields]
        exact timestampFields_find_embedding line
      have hcallback : (outputCallback ext d.sink [{ entry with fields := marked }]).isSome ↔
          marked.valid = true ∧ entry.tags.valid = true ∧ entry.metaJson.valid = true :=
        outputCallback_singleton_isSome_iff hdump d.sink hplain
      have hothers : entry.tags.valid = true ∧ entry.metaJson.valid = true := by
        rw [hentrytags, htags, hentrymeta]
        have hkey : validUtf8 (ascii "source_file") = true := by decide
        simp [Json.valid, Json.validMembers, hkey, hsource]
      have hrun : (processRawNow ext d now source line).isSome =
          (outputCallback ext d.sink [{ entry with fields := marked }]).isSome := by
        simp only [processRawNow, hcollect, Pipeline.runAnalyzers, hanalyzed, Option.bind_eq_bind,
          Option.bind_some, List.isEmpty_cons, Bool.false_eq_true, if_false]
        cases outputCallback ext d.sink [{ entry with fields := marked }] <;> rfl
      rw [hrun, hcallback, hvalid, or_iff_left hdebug]
      exact and_iff_left hothers

/-- The libraries with a `dump()` that renders what is valid. -/
def plainLibraries : External Bytes Int where
  dump := Json.renderDump
  fromStdString := id
  toFloat := id

/-- A daemon that has just started. -/
def started : Daemon Bytes Int := { sink := { buffer := LogBuffer.new 50000 } }

theorem processRawNow_isSome_iff_error :
    (processRawNow plainLibraries started 0 (ascii "app.log")
        (ascii "2024-01-15 [ERROR] disk full")).isSome ↔
      (∀ sep, SyslogCollector.timestampEnd (ascii "2024-01-15 [ERROR] disk full") = some sep →
          validUtf8 ((ascii "2024-01-15 [ERROR] disk full").take sep) = true) ∨
        (started.threshold.dropDebug = true ∧
          (SyslogCollector.parseOne 0 (ascii "2024-01-15 [ERROR] disk full")).map
            LogEntry.level = some .debug) :=
  processRawNow_isSome_iff plainLibraries Json.renderDump_throws_iff started 0 (ascii "app.log")
    (by decide) (by decide) (ascii "2024-01-15 [ERROR] disk full")

/-- Six bytes `FF` in the place of the date. -/
def brokenLine : Bytes := ascii "2024-" ++ List.replicate 6 0xFF ++ ascii " x"

/-- The line has no line feed and no empty text, its file is a `.log` file with a
UTF-8 path, and the exception of `dump()` leaves `process_raw_now`. -/
theorem processRawNow_brokenLine :
    Json.DumpThrowsIffInvalid plainLibraries.dump ∧ validUtf8 (ascii "app.log") = true ∧
      (ascii ".log").isSuffixOf (ascii "app.log") = true ∧ 10 ∉ brokenLine ∧
      (processRawNow plainLibraries started 0 (ascii "app.log") brokenLine).isNone = true := by
  refine ⟨Json.renderDump_throws_iff, by decide, by decide, by decide, ?_⟩
  rfl

end Daemon

end LogMind
