import LogMind.Buffer.Ring
import LogMind.Daemon.ProcessRaw
import LogMind.Pipeline.Conservation
import LogMind.Watcher.Tail

/-!
# From a file to the log buffer

The whole way of a line in asynchronous mode: the watcher reads it, hands it to the queue of its
worker, the worker has it collected and analyzed, and the output callback puts the entry into the
log buffer. The threads interleave in any order. Other lines come by other names at any time, from
other files and over the bus.
-/

namespace LogMind

variable {Q F : Type}

namespace Daemon

/-- `process_raw_now` up to the output callback. -/
def analyzeLine (d : Daemon Q F) (now : Int) (source line : Bytes) :
    Option (List LogEntry × Daemon Q F) := do
  let (collected, errors) ←
    Pipeline.runCollectors [syslogCollector] now source line d.totalErrors
  if collected.isEmpty then return ([], { d with totalErrors := errors })
  let (entries, errors) :=
    Pipeline.runAnalyzers [fun entries => (d.threshold.analyze entries).1] collected errors
  return (entries, { d with
    threshold := (d.threshold.analyze collected).2
    totalErrors := errors })

/-- The output callback, which runs under `m_output_mutex`, and `note_processed`. -/
def deliver (ext : External Q F) (d : Daemon Q F) (entries : List LogEntry) :
    Option (Daemon Q F) := do
  let sink ← outputCallback ext d.sink entries
  return { d with sink := sink, totalProcessed := d.totalProcessed + entries.length }

theorem processRawNow_eq (ext : External Q F) (d : Daemon Q F) (now : Int) (source line : Bytes) :
    processRawNow ext d now source line = (d.analyzeLine now source line).bind fun analyzed =>
      if analyzed.1.isEmpty then some analyzed.2 else analyzed.2.deliver ext analyzed.1 := by
  unfold processRawNow analyzeLine deliver
  cases Pipeline.runCollectors [syslogCollector] now source line d.totalErrors with
  | none => rfl
  | some found =>
      obtain ⟨collected, errors⟩ := found
      simp only [Option.bind_eq_bind, Option.bind_some]
      by_cases hnone : collected.isEmpty
      · rw [if_pos hnone, if_pos hnone]
        rfl
      · rw [if_neg hnone, if_neg hnone]
        rfl

end Daemon

/-! ## What becomes of one line -/

/-- The level that the collector gives a line, or that is guessed without one. -/
def lineLevel (source line : Bytes) : LogLevel :=
  if 0 < SyslogCollector.matchScore source then
    ((SyslogCollector.parseOne 0 line).map LogEntry.level).getD .info
  else LogLevel.guess Pipeline.fallbackProbes line

/-- An entry is made of the line: no collector takes an empty one, and the analyzer may drop the
debug entries. -/
def makesEntry (dropDebug : Bool) (source line : Bytes) : Bool :=
  (decide (SyslogCollector.matchScore source ≤ 0) || !line.isEmpty) &&
    !(dropDebug && decide (lineLevel source line = .debug))

/-- The file in the metadata of an entry. -/
def LogEntry.isOf (path : Bytes) (entry : LogEntry) : Bool :=
  match entry.metaJson.find (ascii "source_file") with
  | some (.string file) => decide (file = path)
  | _ => false

/-- The entries are those of the line. -/
structure MadeOf (dropDebug : Bool) (source line : Bytes) (entries : List LogEntry) : Prop where
  raw_eq : entries.map LogEntry.raw = if makesEntry dropDebug source line then [line] else []
  isOf_iff : ∀ entry ∈ entries, ∀ path, entry.isOf path = decide (source = path)

/-- The clock is only read for the timestamp. -/
theorem parseOne_level (now : Int) (line : Bytes) :
    (SyslogCollector.parseOne now line).map LogEntry.level =
      (SyslogCollector.parseOne 0 line).map LogEntry.level := by
  obtain ⟨afterTimestamp, htimestamp⟩ := SyslogCollector.parseTimestamp_total line
  obtain ⟨level, afterLevel, hlevel⟩ := SyslogCollector.parseLevel_total line afterTimestamp
  obtain ⟨bracketed, afterModule, hmodule⟩ :=
    SyslogCollector.parseModule_total line (SyslogCollector.skipSpaces line afterLevel)
  obtain ⟨module, pos, hprocess⟩ :=
    SyslogCollector.moduleOrProcess_total line bracketed afterModule
  obtain ⟨message, hmessage⟩ := SyslogCollector.message_total line pos
  unfold SyslogCollector.parseOne
  simp only [htimestamp, hlevel, hmodule, hprocess, hmessage, Option.bind_eq_bind,
    Option.bind_some]
  rfl

theorem pickCollector_syslog (source : Bytes) :
    Pipeline.pickCollector source [syslogCollector] 0 none =
      if 0 < SyslogCollector.matchScore source then some syslogCollector else none := rfl

namespace Daemon

/-- The one entry that the analyzer gets for a line, if it gets one. -/
theorem runCollectors_line (now : Int) (source line : Bytes) (totalErrors : Nat) :
    if SyslogCollector.matchScore source ≤ 0 ∨ line ≠ [] then
      ∃ entry, Pipeline.runCollectors [syslogCollector] now source line totalErrors =
          some ([entry], totalErrors) ∧ entry.raw = line ∧ entry.level = lineLevel source line ∧
        ThresholdAnalyzer.TakesMarks entry.fields ∧
        entry.metaJson = .object [(ascii "source_file", .string source)]
    else Pipeline.runCollectors [syslogCollector] now source line totalErrors =
      some ([], totalErrors) := by
  unfold Pipeline.runCollectors lineLevel
  rw [pickCollector_syslog]
  by_cases hscore : 0 < SyslogCollector.matchScore source
  · rw [if_pos hscore, if_pos hscore]
    by_cases hline : line = []
    · subst hline
      rw [if_neg (by simp; omega)]
      rfl
    · rw [if_pos (Or.inr hline)]
      obtain ⟨parsed, hparsed, hraw, hfields, -, hmeta⟩ :=
        SyslogCollector.parseOne_total now line
      have hlevel := parseOne_level now line
      rw [hparsed] at hlevel
      have hempty : line.isEmpty = false := by simpa using hline
      have hkept : (if parsed.raw.isEmpty then line else parsed.raw) = line := by
        rw [hraw, ite_self]
      refine ⟨{ parsed with
        source := if parsed.source.isEmpty then syslogCollector.name else parsed.source
        raw := if parsed.raw.isEmpty then line else parsed.raw
        metaJson := .object [(ascii "source_file", .string source)] }, ?_, hkept, ?_, ?_, rfl⟩
      · simp only [syslogCollector, SyslogCollector.parseLine, hempty, hparsed,
          Bool.false_eq_true, if_false, Option.map_some, List.mapM_cons, List.mapM_nil,
          Pipeline.complete, hmeta, Json.setMember]
        rfl
      · rw [← hlevel]
        rfl
      · show ThresholdAnalyzer.TakesMarks parsed.fields
        rw [hfields]
        exact timestampFields_takesMarks line
  · rw [if_neg hscore, if_neg hscore, if_pos (Or.inl (Int.not_lt.mp hscore))]
    exact ⟨Pipeline.fallback now source line, rfl, rfl, rfl, ⟨[], rfl, by simp⟩, rfl⟩

/-- The analyzer keeps its switch. -/
theorem analyze_dropDebug (a : ThresholdAnalyzer) (entries : List LogEntry) :
    (a.analyze entries).2.dropDebug = a.dropDebug := by
  have hone : ∀ (a : ThresholdAnalyzer) (entry : LogEntry),
      (a.analyzeOne entry).2.dropDebug = a.dropDebug := by
    intro a entry
    unfold ThresholdAnalyzer.analyzeOne
    split
    · rfl
    · split
      · dsimp only
        split <;> rfl
      · rfl
  induction entries generalizing a with
  | nil => rfl
  | cons entry entries ih =>
      unfold ThresholdAnalyzer.analyze
      have hfirst := hone a entry
      split
      · rename_i b hb
        rw [hb] at hfirst
        exact hfirst
      · rename_i out b hb
        rw [hb] at hfirst
        exact (ih b).trans hfirst

/-- The analyzer keeps the entry of a line, or drops it as a debug entry. -/
theorem analyze_madeOf (a : ThresholdAnalyzer) {source line : Bytes} {entry : LogEntry}
    (htaken : SyslogCollector.matchScore source ≤ 0 ∨ line ≠ []) (hraw : entry.raw = line)
    (hlevel : entry.level = lineLevel source line)
    (htakes : ThresholdAnalyzer.TakesMarks entry.fields)
    (hmeta : entry.metaJson = .object [(ascii "source_file", .string source)]) :
    ∃ entries, (a.analyze [entry]).1 = some entries ∧
      MadeOf a.dropDebug source line entries := by
  have hmakes : makesEntry a.dropDebug source line =
      !(a.dropDebug && decide (entry.level = .debug)) := by
    have htaken : (decide (SyslogCollector.matchScore source ≤ 0) || !line.isEmpty) = true := by
      simpa using htaken
    rw [makesEntry, htaken, Bool.true_and, hlevel]
  obtain ⟨hdrop, hkeep⟩ := a.analyze_singleton htakes
  by_cases hdebug : a.dropDebug = true ∧ entry.level = .debug
  · refine ⟨[], hdrop hdebug, ?_, fun _ hmem => absurd hmem List.not_mem_nil⟩
    rw [hmakes, hdebug.1, hdebug.2]
    rfl
  · obtain ⟨fields, hanalyzed, -⟩ := hkeep hdebug
    have hsome : makesEntry a.dropDebug source line = true := by
      rw [hmakes]
      simpa [imp_iff_not_or] using hdebug
    refine ⟨_, hanalyzed, ?_, fun e hmem path => ?_⟩
    · rw [hsome, if_pos rfl, ← hraw]
      rfl
    · obtain rfl := List.mem_singleton.mp hmem
      rw [LogEntry.isOf, hmeta]
      rfl

/-- Every line is analyzed, and its entries are those that are to be made of it. -/
theorem analyzeLine_madeOf (d : Daemon Q F) (now : Int) (source line : Bytes) :
    ∃ entries analyzed, d.analyzeLine now source line = some (entries, analyzed) ∧
      MadeOf d.threshold.dropDebug source line entries ∧ analyzed.sink = d.sink ∧
      analyzed.threshold.dropDebug = d.threshold.dropDebug := by
  have hcollect := runCollectors_line now source line d.totalErrors
  unfold analyzeLine
  split at hcollect
  · rename_i htaken
    obtain ⟨entry, hcollect, hraw, hlevel, htakes, hmeta⟩ := hcollect
    obtain ⟨entries, hentries, hmade⟩ :=
      analyze_madeOf d.threshold htaken hraw hlevel htakes hmeta
    have hanalyze : Pipeline.runAnalyzers [fun entries => (d.threshold.analyze entries).1] [entry]
        d.totalErrors = (entries, d.totalErrors) := by
      simp only [Pipeline.runAnalyzers, hentries, ite_self]
    refine ⟨entries, { d with threshold := (d.threshold.analyze [entry]).2 }, ?_, hmade, rfl,
      analyze_dropDebug _ _⟩
    rw [hcollect, Option.bind_eq_bind, Option.bind_some]
    dsimp only
    rw [hanalyze]
    rfl
  · rename_i hskipped
    refine ⟨[], d, by rw [hcollect]; rfl, ⟨?_, fun _ hmem => absurd hmem List.not_mem_nil⟩, rfl,
      rfl⟩
    have hnone : makesEntry d.threshold.dropDebug source line = false := by
      rw [not_or, not_not] at hskipped
      rw [makesEntry, decide_eq_false hskipped.1, hskipped.2]
      rfl
    rw [hnone]
    rfl

end Daemon

/-- The buffer behind the output callback. -/
theorem outputCallback_keeps {ext : External Q F} {capacity : Nat} {history : List LogEntry}
    {s t : Sink Q F} {entries : List LogEntry} (h : s.buffer.Keeps capacity history)
    (hrun : outputCallback ext s entries = some t) :
    t.buffer.Keeps capacity (history ++ entries) := by
  induction entries generalizing s history with
  | nil =>
      obtain rfl := Option.some.inj hrun
      rwa [List.append_nil]
  | cons entry entries ih =>
      rw [outputCallback] at hrun
      obtain ⟨stored, hstored, hrun⟩ := Option.bind_eq_some_iff.mp hrun
      obtain ⟨pushed, hpushed, hrun⟩ := Option.bind_eq_some_iff.mp hrun
      obtain ⟨varmap, -, hpushed⟩ := Option.bind_eq_some_iff.mp hpushed
      have hsame : stored.buffer = s.buffer := by
        unfold storeEmbedding at hstored
        split at hstored
        · split at hstored
          · rw [Option.some.inj hstored]
          · obtain ⟨metadata, -, hstored⟩ := Option.bind_eq_some_iff.mp hstored
            rw [← Option.some.inj hstored]
        · rw [Option.some.inj hstored]
      have hnext : pushed.buffer.Keeps capacity (history ++ [entry]) := by
        rw [← Option.some.inj hpushed]
        show (stored.buffer.push entry).Keeps capacity (history ++ [entry])
        rw [hsame]
        exact h.push entry
      have hrest := ih hnext hrun
      rwa [List.append_assoc] at hrest

/-! ## The threads together -/

/-- How far a worker is in the `process_raw_now` it has called. -/
inductive Stage where
  | entered
  /-- The output callback is still to run on these entries. -/
  | analyzed (entries : List LogEntry)
  | done

/-- The watcher with one of its files, the workers and what is behind them. `results` records the
entries made of each line, in the order of the output. -/
structure Flow (n : Nat) (Q F : Type) where
  tail : Tail
  /-- How many of the lines of the file have been handed to `process_raw`. -/
  handed : Nat := 0
  shards : Shards n
  stages : Fin n → Stage := fun _ => .done
  daemon : Daemon Q F
  results : List (Job × List LogEntry) := []

namespace Flow

inductive Action (n : Nat) where
  /-- The writer of the file. -/
  | write (bytes : Bytes)
  /-- The watcher, which has handed over all lines of its last read. -/
  | drain (opened : Bool)
  | read
  /-- `process_raw` with the next line of the file. -/
  | hand
  /-- A step of a queue: another line or a thread. -/
  | shards (action : Shards.Action n)
  | analyze (i : Fin n) (now : Int)
  | output (i : Fin n)

variable {n : Nat}

def setStage (f : Flow n Q F) (i : Fin n) (stage : Stage) : Flow n Q F :=
  { f with stages := Function.update f.stages i stage }

/-- A step of the watcher between two lines. -/
def watch (inode : Nat) (f : Flow n Q F) (action : Tail.Action) : Option (Flow n Q F) :=
  if f.handed < f.tail.emitted.length then none
  else (f.tail.step inode action).map fun tail => { f with tail := tail }

variable [NeZero n]

def shardStep (hash : Bytes → Nat) (f : Flow n Q F) (action : Shards.Action n) :
    Option (Flow n Q F) :=
  (f.shards.step hash action).map fun shards => { f with shards := shards }

def step (ext : External Q F) (hash : Bytes → Nat) (inode : Nat) (path : Bytes)
    (f : Flow n Q F) : Action n → Option (Flow n Q F)
  | .write bytes => (f.tail.step inode (.append bytes)).map fun tail => { f with tail := tail }
  | .drain opened => f.watch inode (.drain opened)
  | .read => f.watch inode .read
  | .hand =>
      match f.tail.emitted[f.handed]? with
      | none => none
      | some line =>
          (f.shardStep hash (.processRaw (path, line))).map fun f =>
            { f with handed := f.handed + 1 }
  | .shards (.processRaw job) =>
      -- nobody else hands over lines by the name of the file
      if job.1 = path then none else f.shardStep hash (.processRaw job)
  | .shards (.call i) => (f.shardStep hash (.call i)).map fun f => f.setStage i .entered
  | .shards (.finish i) =>
      match f.stages i with
      | .done => f.shardStep hash (.finish i)
      | _ => none
  | .shards action => f.shardStep hash action
  | .analyze i now =>
      match (f.shards.workers i).phase, f.stages i with
      | .called job, .entered => do
          let (entries, daemon) ← f.daemon.analyzeLine now job.1 job.2
          if entries.isEmpty then
            return { f.setStage i .done with
              daemon := daemon, results := f.results ++ [(job, [])] }
          return { f.setStage i (.analyzed entries) with daemon := daemon }
      | _, _ => none
  | .output i =>
      match (f.shards.workers i).phase, f.stages i with
      | .called job, .analyzed entries => do
          let daemon ← f.daemon.deliver ext entries
          return { f.setStage i .done with
            daemon := daemon, results := f.results ++ [(job, entries)] }
      | _, _ => none

/-- The daemon has just started its workers, and the watcher is at an offset of the file. -/
def start (n capacity queueCapacity : Nat) (threshold : ThresholdAnalyzer) (tail : Tail) :
    Flow n Q F where
  tail := tail
  shards := Shards.startWorkers n queueCapacity
  daemon := { threshold := threshold, sink := { buffer := LogBuffer.new capacity } }

/-! ## What a step of a queue does to the others -/

omit [NeZero n] in
theorem underWay_setWorker (s : Shards n) (i : Fin n) {w : Worker}
    (hw : w.underWay = (s.workers i).underWay) (j : Fin n) :
    ((s.setWorker i w).workers j).underWay = (s.workers j).underWay := by
  by_cases hij : j = i
  · subst hij
    rw [Shards.setWorker_workers_self, hw]
  · rw [Shards.setWorker_workers_ne s hij]

/-- Only a call and its return change what is under way. -/
theorem shards_underWay {hash : Bytes → Nat} {s t : Shards n} {action : Shards.Action n}
    (hcall : ∀ i, action ≠ .call i) (hfinish : ∀ i, action ≠ .finish i)
    (hstep : s.step hash action = some t) :
    t.finished = s.finished ∧ ∀ j, (t.workers j).underWay = (s.workers j).underWay := by
  cases action with
  | processRaw job =>
      simp only [Shards.step] at hstep
      split at hstep
      · rw [← Option.some.inj hstep, Shards.processRaw]
        dsimp only
        split
        · exact ⟨rfl, fun _ => rfl⟩
        · exact ⟨rfl, underWay_setWorker s _ rfl⟩
      · cases hstep
  | take i =>
      simp only [Shards.step] at hstep
      split at hstep
      · rename_i hphase _
        rw [← Option.some.inj hstep]
        exact ⟨rfl, underWay_setWorker s i (by simp [Worker.underWay, hphase])⟩
      · cases hstep
  | call i => exact absurd rfl (hcall i)
  | finish i => exact absurd rfl (hfinish i)
  | leave i =>
      simp only [Shards.step] at hstep
      split at hstep
      · rename_i hphase _
        split at hstep
        · rw [← Option.some.inj hstep]
          exact ⟨rfl, underWay_setWorker s i (by simp [Worker.underWay, hphase])⟩
        · cases hstep
      · cases hstep
  | stopWorkers =>
      simp only [Shards.step] at hstep
      split at hstep
      · rw [← Option.some.inj hstep]
        exact ⟨rfl, fun _ => rfl⟩
      · cases hstep
  | signal =>
      simp only [Shards.step] at hstep
      split at hstep
      · split at hstep
        · rw [← Option.some.inj hstep]
          exact ⟨rfl, underWay_setWorker s _ rfl⟩
        · rw [← Option.some.inj hstep]
          exact ⟨rfl, fun _ => rfl⟩
      · cases hstep
  | join =>
      simp only [Shards.step] at hstep
      split at hstep
      · split at hstep
        · split at hstep
          · rw [← Option.some.inj hstep]
            exact ⟨rfl, fun _ => rfl⟩
          · cases hstep
        · rw [← Option.some.inj hstep]
          exact ⟨rfl, fun _ => rfl⟩
      · cases hstep

/-- Only `process_raw` accepts or drops a line. -/
theorem shards_accepted {hash : Bytes → Nat} {s t : Shards n} {action : Shards.Action n}
    (hraw : ∀ job, action ≠ .processRaw job) (hstep : s.step hash action = some t) :
    t.accepted = s.accepted ∧ t.totalDropped = s.totalDropped := by
  cases action with
  | processRaw job => exact absurd rfl (hraw job)
  | _ =>
      simp only [Shards.step] at hstep
      repeat' split at hstep
      all_goals first
        | exact Option.some.inj hstep ▸ ⟨rfl, rfl⟩
        | cases hstep

theorem shards_call {hash : Bytes → Nat} {s t : Shards n} {i : Fin n}
    (hstep : s.step hash (.call i) = some t) :
    t.finished = s.finished ∧ (s.workers i).underWay = [] ∧
      ∀ j, j ≠ i → (t.workers j).underWay = (s.workers j).underWay := by
  simp only [Shards.step] at hstep
  split at hstep
  · rename_i hphase
    rw [← Option.some.inj hstep]
    exact ⟨rfl, by simp [Worker.underWay, hphase],
      fun j hj => congrArg Worker.underWay (Shards.setWorker_workers_ne s hj _)⟩
  · cases hstep

theorem shards_finish {hash : Bytes → Nat} {s t : Shards n} {i : Fin n}
    (hstep : s.step hash (.finish i) = some t) :
    t.finished = s.finished ++ (s.workers i).underWay ∧ (t.workers i).underWay = [] ∧
      ∀ j, j ≠ i → (t.workers j).underWay = (s.workers j).underWay := by
  simp only [Shards.step] at hstep
  split at hstep
  · rename_i job hphase
    rw [← Option.some.inj hstep]
    refine ⟨?_, ?_, fun j hj => congrArg Worker.underWay (Shards.setWorker_workers_ne s hj _)⟩
    · simp [Worker.underWay, hphase]
    · show ((s.setWorker i _).workers i).underWay = []
      rw [Shards.setWorker_workers_self]
      rfl
  · cases hstep

/-! ## The relation between them -/

/-- The lines by the name of the file. -/
def linesOf (path : Bytes) (jobs : List Job) : List Bytes :=
  (Keyed.onKey Prod.fst path jobs).map Prod.snd

/-- The line under way, once its result is recorded. -/
def recorded (w : Worker) : Stage → List Job
  | .done => w.underWay
  | _ => []

structure Holds (hash : Bytes → Nat) (inode first : Nat) (path : Bytes) (capacity : Nat)
    (dropDebug : Bool) (f : Flow n Q F) : Prop where
  tail : Tail.Exact inode first f.tail
  shards : Shards.Holds hash f.shards
  handed_le : f.handed ≤ f.tail.emitted.length
  accepted_sublist : (linesOf path f.shards.accepted).Sublist (f.tail.emitted.take f.handed)
  accepted_eq : f.shards.totalDropped = 0 →
    linesOf path f.shards.accepted = f.tail.emitted.take f.handed
  results_eq : ∀ i, Shards.onShard hash i (f.results.map Prod.fst) =
    Shards.onShard hash i f.shards.finished ++ recorded (f.shards.workers i) (f.stages i)
  analyzed : ∀ i entries, f.stages i = .analyzed entries →
    ∀ job ∈ (f.shards.workers i).underWay, MadeOf dropDebug job.1 job.2 entries
  made : ∀ result ∈ f.results, MadeOf dropDebug result.1.1 result.1.2 result.2
  keeps : f.daemon.sink.buffer.Keeps capacity (f.results.flatMap Prod.snd)
  dropDebug_eq : f.daemon.threshold.dropDebug = dropDebug

variable {hash : Bytes → Nat} {inode first capacity : Nat} {path : Bytes} {dropDebug : Bool}
  {f g : Flow n Q F}

theorem Holds.withTail (h : Holds hash inode first path capacity dropDebug f) {tail : Tail}
    (htail : Tail.Exact inode first tail) (hgrows : f.tail.emitted <+: tail.emitted) :
    Holds hash inode first path capacity dropDebug { f with tail := tail } := by
  have hsame : tail.emitted.take f.handed = f.tail.emitted.take f.handed := by
    obtain ⟨more, hmore⟩ := hgrows
    rw [← hmore, List.take_append_of_le_length h.handed_le]
  exact {
    tail := htail
    shards := h.shards
    handed_le := Nat.le_trans h.handed_le hgrows.length_le
    accepted_sublist := by
      rw [hsame]
      exact h.accepted_sublist
    accepted_eq := by
      rw [hsame]
      exact h.accepted_eq
    results_eq := h.results_eq
    analyzed := h.analyzed
    made := h.made
    keeps := h.keeps
    dropDebug_eq := h.dropDebug_eq }

/-- A step of a queue that changes nothing of what is under way. -/
theorem Holds.withShards (h : Holds hash inode first path capacity dropDebug f) {t : Shards n}
    (ht : Shards.Holds hash t) (hfinished : t.finished = f.shards.finished)
    (hunder : ∀ j, (t.workers j).underWay = (f.shards.workers j).underWay) {handed : Nat}
    (hhanded : handed ≤ f.tail.emitted.length)
    (hsublist : (linesOf path t.accepted).Sublist (f.tail.emitted.take handed))
    (haccepted : t.totalDropped = 0 → linesOf path t.accepted = f.tail.emitted.take handed) :
    Holds hash inode first path capacity dropDebug { f with shards := t, handed := handed } where
  tail := h.tail
  shards := ht
  handed_le := hhanded
  accepted_sublist := hsublist
  accepted_eq := haccepted
  results_eq := by
    intro i
    have hrecorded : recorded (t.workers i) (f.stages i) =
        recorded (f.shards.workers i) (f.stages i) := by
      unfold recorded
      rw [hunder]
    rw [hfinished, hrecorded]
    exact h.results_eq i
  analyzed := by
    intro i entries hstage job hjob
    rw [hunder] at hjob
    exact h.analyzed i entries hstage job hjob
  made := h.made
  keeps := h.keeps
  dropDebug_eq := h.dropDebug_eq

theorem linesOf_append (path : Bytes) (jobs : List Job) (job : Job) :
    linesOf path (jobs ++ [job]) = linesOf path jobs ++ if job.1 = path then [job.2] else [] := by
  unfold linesOf
  rw [Keyed.onKey_append, List.map_append, Keyed.onKey, Keyed.onKey]
  split <;> simp [*]

/-- The next line of the file is accepted or dropped. -/
theorem Holds.hand (h : Holds hash inode first path capacity dropDebug f) {line : Bytes}
    (hline : f.tail.emitted[f.handed]? = some line) {t : Shards n}
    (hstep : f.shards.step hash (.processRaw (path, line)) = some t) :
    Holds hash inode first path capacity dropDebug
      { f with shards := t, handed := f.handed + 1 } := by
  obtain ⟨hfinished, hunder⟩ := shards_underWay (by simp) (by simp) hstep
  have hlt := (List.getElem?_eq_some_iff.mp hline).1
  have htake : f.tail.emitted.take (f.handed + 1) = f.tail.emitted.take f.handed ++ [line] := by
    rw [List.take_add_one, hline]
    rfl
  refine h.withShards (h.shards.step hstep) hfinished hunder hlt ?_ ?_
  · rw [htake]
    rcases Shards.step_processRaw hstep with rfl | ⟨-, haccepted, -⟩
    · exact h.accepted_sublist.trans (List.sublist_append_left _ _)
    · rw [haccepted, linesOf_append, if_pos rfl]
      exact h.accepted_sublist.append (List.Sublist.refl _)
  · rw [htake]
    rcases Shards.step_processRaw hstep with rfl | ⟨hdropped, haccepted, -⟩
    · exact fun hzero => absurd hzero (Nat.succ_ne_zero _)
    · intro hzero
      rw [haccepted, linesOf_append, if_pos rfl, h.accepted_eq (hdropped ▸ hzero)]

/-- A line of another name. -/
theorem Holds.processRaw_of_ne (h : Holds hash inode first path capacity dropDebug f) {job : Job}
    (hjob : job.1 ≠ path) {t : Shards n}
    (hstep : f.shards.step hash (.processRaw job) = some t) :
    Holds hash inode first path capacity dropDebug { f with shards := t } := by
  obtain ⟨hfinished, hunder⟩ := shards_underWay (by simp) (by simp) hstep
  refine h.withShards (h.shards.step hstep) hfinished hunder h.handed_le ?_ ?_
  · rcases Shards.step_processRaw hstep with rfl | ⟨-, haccepted, -⟩
    · exact h.accepted_sublist
    · rw [haccepted, linesOf_append, if_neg hjob, List.append_nil]
      exact h.accepted_sublist
  · rcases Shards.step_processRaw hstep with rfl | ⟨hdropped, haccepted, -⟩
    · exact fun hzero => absurd hzero (Nat.succ_ne_zero _)
    · intro hzero
      rw [haccepted, linesOf_append, if_neg hjob, List.append_nil]
      exact h.accepted_eq (hdropped ▸ hzero)

theorem Holds.thread (h : Holds hash inode first path capacity dropDebug f)
    {action : Shards.Action n} (hraw : ∀ job, action ≠ .processRaw job)
    (hcall : ∀ i, action ≠ .call i) (hfinish : ∀ i, action ≠ .finish i) {t : Shards n}
    (hstep : f.shards.step hash action = some t) :
    Holds hash inode first path capacity dropDebug { f with shards := t } := by
  obtain ⟨hfinished, hunder⟩ := shards_underWay hcall hfinish hstep
  obtain ⟨haccepted, hdropped⟩ := shards_accepted hraw hstep
  refine h.withShards (h.shards.step hstep) hfinished hunder h.handed_le ?_ ?_
  · rw [haccepted]
    exact h.accepted_sublist
  · rw [haccepted, hdropped]
    exact h.accepted_eq

theorem Holds.call (h : Holds hash inode first path capacity dropDebug f) {i : Fin n}
    {t : Shards n} (hstep : f.shards.step hash (.call i) = some t) :
    Holds hash inode first path capacity dropDebug
      (({ f with shards := t } : Flow n Q F).setStage i .entered) := by
  obtain ⟨hfinished, hnone, hunder⟩ := shards_call hstep
  obtain ⟨haccepted, hdropped⟩ := shards_accepted (by simp) hstep
  exact {
    tail := h.tail
    shards := h.shards.step hstep
    handed_le := h.handed_le
    accepted_sublist := by
      show (linesOf path t.accepted).Sublist _
      rw [haccepted]
      exact h.accepted_sublist
    accepted_eq := by
      show t.totalDropped = 0 → linesOf path t.accepted = _
      rw [haccepted, hdropped]
      exact h.accepted_eq
    results_eq := by
      intro j
      have hj := h.results_eq j
      show _ = Shards.onShard hash j t.finished ++
        recorded (t.workers j) (Function.update f.stages i .entered j)
      rw [hfinished]
      by_cases hij : j = i
      · subst hij
        rw [Function.update_self]
        unfold recorded at hj ⊢
        rw [hnone] at hj
        rw [List.append_nil]
        refine hj.trans ?_
        split <;> exact List.append_nil _
      · rw [Function.update_of_ne hij]
        unfold recorded at hj ⊢
        rw [hunder j hij]
        exact hj
    analyzed := by
      intro j entries hstage job hjob
      have hupdate : Function.update f.stages i .entered j = .analyzed entries := hstage
      by_cases hij : j = i
      · subst hij
        rw [Function.update_self] at hupdate
        cases hupdate
      · rw [Function.update_of_ne hij] at hupdate
        have hsame : (t.workers j).underWay = (f.shards.workers j).underWay := hunder j hij
        exact h.analyzed j entries hupdate job (hsame ▸ hjob)
    made := h.made
    keeps := h.keeps
    dropDebug_eq := h.dropDebug_eq }

/-- A job is on the shard of its source alone. -/
theorem onShard_singleton (hash : Bytes → Nat) (j : Fin n) (job : Job) :
    Shards.onShard hash j [job] = if Shards.shardOf hash n job.1 = j then [job] else [] := by
  rw [Shards.onShard, Keyed.onKey, List.filter_singleton]
  by_cases hkey : Shards.shardOf hash n job.1 = j <;> simp [hkey]

theorem Holds.shardOf_underWay (h : Holds hash inode first path capacity dropDebug f) {i : Fin n}
    {job : Job} (hjob : job ∈ (f.shards.workers i).underWay) :
    Shards.shardOf hash n job.1 = i := by
  apply h.shards.shardOf_inFlight
  unfold Worker.underWay at hjob
  unfold Worker.inFlight
  cases hphase : (f.shards.workers i).phase <;> simp only [hphase] at hjob ⊢
  all_goals first
    | exact hjob
    | cases hjob

/-- A line that is under way is of its worker's shard. -/
theorem Holds.onShard_underWay (h : Holds hash inode first path capacity dropDebug f)
    (i j : Fin n) : Shards.onShard hash j (f.shards.workers i).underWay =
      if i = j then (f.shards.workers i).underWay else [] := by
  have hall : ∀ job ∈ (f.shards.workers i).underWay, Shards.shardOf hash n job.1 = i :=
    fun _ => h.shardOf_underWay
  rw [Shards.onShard, Keyed.onKey]
  split
  · rename_i hij
    rw [List.filter_eq_self]
    exact fun job hjob => decide_eq_true ((hall job hjob).trans hij)
  · rename_i hij
    rw [List.filter_eq_nil_iff]
    exact fun job hjob hkey => hij ((hall job hjob).symm.trans (of_decide_eq_true hkey))

theorem Holds.finish (h : Holds hash inode first path capacity dropDebug f) {i : Fin n}
    (hstage : f.stages i = .done) {t : Shards n}
    (hstep : f.shards.step hash (.finish i) = some t) :
    Holds hash inode first path capacity dropDebug { f with shards := t } := by
  obtain ⟨hfinished, hnone, hunder⟩ := shards_finish hstep
  obtain ⟨haccepted, hdropped⟩ := shards_accepted (by simp) hstep
  exact {
    tail := h.tail
    shards := h.shards.step hstep
    handed_le := h.handed_le
    accepted_sublist := by
      show (linesOf path t.accepted).Sublist _
      rw [haccepted]
      exact h.accepted_sublist
    accepted_eq := by
      show t.totalDropped = 0 → linesOf path t.accepted = _
      rw [haccepted, hdropped]
      exact h.accepted_eq
    results_eq := by
      intro j
      have hj := h.results_eq j
      show _ = Shards.onShard hash j t.finished ++ recorded (t.workers j) (f.stages j)
      have happend : Shards.onShard hash j t.finished =
          Shards.onShard hash j f.shards.finished ++
            Shards.onShard hash j (f.shards.workers i).underWay := by
        rw [hfinished]
        exact Keyed.onKey_append _ _ _ _
      rw [happend, h.onShard_underWay]
      by_cases hij : i = j
      · subst hij
        rw [if_pos rfl, hstage, recorded, hnone, List.append_nil]
        rw [hstage] at hj
        exact hj
      · rw [if_neg hij, List.append_nil]
        have hsame : recorded (t.workers j) (f.stages j) =
            recorded (f.shards.workers j) (f.stages j) := by
          unfold recorded
          rw [hunder j (Ne.symm hij)]
        rw [hsame]
        exact hj
    analyzed := by
      intro j entries hanalyzed job hjob
      have hij : j ≠ i := by
        rintro rfl
        cases hstage.symm.trans hanalyzed
      exact h.analyzed j entries hanalyzed job (hunder j hij ▸ hjob)
    made := h.made
    keeps := h.keeps
    dropDebug_eq := h.dropDebug_eq }

/-- The analysis of a line, whose result is not recorded yet. -/
theorem Holds.analyze (h : Holds hash inode first path capacity dropDebug f) {i : Fin n}
    (hstage : f.stages i = .entered) {entries : List LogEntry}
    (hmade : ∀ job ∈ (f.shards.workers i).underWay, MadeOf dropDebug job.1 job.2 entries)
    {daemon : Daemon Q F} (hsink : daemon.sink = f.daemon.sink)
    (hdrop : daemon.threshold.dropDebug = dropDebug) :
    Holds hash inode first path capacity dropDebug
      { f.setStage i (.analyzed entries) with daemon := daemon } where
  tail := h.tail
  shards := h.shards
  handed_le := h.handed_le
  accepted_sublist := h.accepted_sublist
  accepted_eq := h.accepted_eq
  results_eq := by
    intro j
    have hj := h.results_eq j
    show _ = Shards.onShard hash j f.shards.finished ++
      recorded (f.shards.workers j) (Function.update f.stages i (.analyzed entries) j)
    by_cases hij : j = i
    · subst hij
      rw [Function.update_self]
      rw [hstage] at hj
      exact hj
    · rw [Function.update_of_ne hij]
      exact hj
  analyzed := by
    intro j found hfound job hjob
    have hupdate : Function.update f.stages i (.analyzed entries) j = .analyzed found := hfound
    by_cases hij : j = i
    · subst hij
      rw [Function.update_self] at hupdate
      obtain rfl := Stage.analyzed.inj hupdate
      exact hmade job hjob
    · rw [Function.update_of_ne hij] at hupdate
      exact h.analyzed j found hupdate job hjob
  made := h.made
  keeps := by
    show daemon.sink.buffer.Keeps _ _
    rw [hsink]
    exact h.keeps
  dropDebug_eq := hdrop

/-- The result of the line a worker is busy with is recorded. -/
theorem Holds.record (h : Holds hash inode first path capacity dropDebug f) {i : Fin n} {job : Job}
    (hunder : (f.shards.workers i).underWay = [job])
    (hstage : recorded (f.shards.workers i) (f.stages i) = []) {entries : List LogEntry}
    (hmade : MadeOf dropDebug job.1 job.2 entries) {daemon : Daemon Q F}
    (hkeeps : daemon.sink.buffer.Keeps capacity (f.results.flatMap Prod.snd ++ entries))
    (hdrop : daemon.threshold.dropDebug = dropDebug) :
    Holds hash inode first path capacity dropDebug { f.setStage i .done with
      daemon := daemon, results := f.results ++ [(job, entries)] } where
  tail := h.tail
  shards := h.shards
  handed_le := h.handed_le
  accepted_sublist := h.accepted_sublist
  accepted_eq := h.accepted_eq
  results_eq := by
    intro j
    have hj := h.results_eq j
    have hshard : Shards.shardOf hash n job.1 = i :=
      h.shardOf_underWay (hunder ▸ List.mem_singleton_self job)
    have happend : Shards.onShard hash j ((f.results ++ [(job, entries)]).map Prod.fst) =
        Shards.onShard hash j (f.results.map Prod.fst) ++ Shards.onShard hash j [job] := by
      rw [List.map_append]
      exact Keyed.onKey_append _ _ _ _
    show Shards.onShard hash j ((f.results ++ [(job, entries)]).map Prod.fst) =
      Shards.onShard hash j f.shards.finished ++
        recorded (f.shards.workers j) (Function.update f.stages i .done j)
    rw [happend, onShard_singleton, hshard, hj]
    by_cases hij : j = i
    · subst hij
      rw [Function.update_self, if_pos rfl, hstage, List.append_nil, recorded, hunder]
    · rw [Function.update_of_ne hij, if_neg (Ne.symm hij), List.append_nil]
  analyzed := by
    intro j found hfound other hother
    have hupdate : Function.update f.stages i .done j = .analyzed found := hfound
    by_cases hij : j = i
    · subst hij
      rw [Function.update_self] at hupdate
      cases hupdate
    · rw [Function.update_of_ne hij] at hupdate
      exact h.analyzed j found hupdate other hother
  made := by
    intro result hresult
    rcases List.mem_append.mp hresult with hresult | hresult
    · exact h.made result hresult
    · obtain rfl := List.mem_singleton.mp hresult
      exact hmade
  keeps := by
    show daemon.sink.buffer.Keeps _ ((f.results ++ [(job, entries)]).flatMap Prod.snd)
    rw [List.flatMap_append, List.flatMap_singleton]
    exact hkeeps
  dropDebug_eq := hdrop

theorem underWay_called {w : Worker} {job : Job} (hphase : w.phase = .called job) :
    w.underWay = [job] := by
  rw [Worker.underWay, hphase]

theorem emitted_grows {t t' : Tail} {action : Tail.Action}
    (hstep : t.step inode action = some t') : t.emitted <+: t'.emitted := by
  cases action with
  | append bytes =>
      obtain rfl := Option.some.inj hstep
      exact List.prefix_refl _
  | drain opened =>
      simp only [Tail.step] at hstep
      split at hstep
      · cases hstep
      · obtain rfl := Option.some.inj hstep
        exact List.prefix_refl _
  | read =>
      simp only [Tail.step] at hstep
      split at hstep
      · split at hstep
        · obtain rfl := Option.some.inj hstep
          exact List.prefix_refl _
        · obtain rfl := Option.some.inj hstep
          exact List.prefix_append _ _
      · cases hstep

theorem Holds.watch (h : Holds hash inode first path capacity dropDebug f)
    {action : Tail.Action} (hstep : f.watch inode action = some g) :
    Holds hash inode first path capacity dropDebug g := by
  unfold Flow.watch at hstep
  split at hstep
  · cases hstep
  · obtain ⟨tail, htail, rfl⟩ := Option.map_eq_some_iff.mp hstep
    exact h.withTail (h.tail.step htail) (emitted_grows htail)

theorem Holds.shardStep (h : Holds hash inode first path capacity dropDebug f)
    {action : Shards.Action n} (hraw : ∀ job, action ≠ .processRaw job)
    (hcall : ∀ i, action ≠ .call i) (hfinish : ∀ i, action ≠ .finish i)
    (hstep : f.shardStep hash action = some g) :
    Holds hash inode first path capacity dropDebug g := by
  obtain ⟨t, ht, rfl⟩ := Option.map_eq_some_iff.mp hstep
  exact h.thread hraw hcall hfinish ht

theorem Holds.step {ext : External Q F} (h : Holds hash inode first path capacity dropDebug f)
    {action : Action n} (hstep : f.step ext hash inode path action = some g) :
    Holds hash inode first path capacity dropDebug g := by
  cases action with
  | write bytes =>
      rw [Flow.step] at hstep
      obtain ⟨tail, htail, rfl⟩ := Option.map_eq_some_iff.mp hstep
      exact h.withTail (h.tail.step htail) (emitted_grows htail)
  | drain opened => exact h.watch hstep
  | read => exact h.watch hstep
  | hand =>
      simp only [Flow.step] at hstep
      split at hstep
      · cases hstep
      · rename_i line hline
        obtain ⟨u, hu, rfl⟩ := Option.map_eq_some_iff.mp hstep
        obtain ⟨t, ht, rfl⟩ := Option.map_eq_some_iff.mp hu
        exact h.hand hline ht
  | shards action =>
      cases action with
      | processRaw job =>
          simp only [Flow.step] at hstep
          split at hstep
          · cases hstep
          · rename_i hjob
            obtain ⟨t, ht, rfl⟩ := Option.map_eq_some_iff.mp hstep
            exact h.processRaw_of_ne hjob ht
      | call i =>
          obtain ⟨u, hu, rfl⟩ := Option.map_eq_some_iff.mp hstep
          obtain ⟨t, ht, rfl⟩ := Option.map_eq_some_iff.mp hu
          exact h.call ht
      | finish i =>
          simp only [Flow.step] at hstep
          split at hstep
          · rename_i hstage
            obtain ⟨t, ht, rfl⟩ := Option.map_eq_some_iff.mp hstep
            exact h.finish hstage ht
          · cases hstep
      | _ => exact h.shardStep (by simp) (by simp) (by simp) hstep
  | analyze i now =>
      simp only [Flow.step] at hstep
      split at hstep
      · rename_i job hphase hstage
        have hunder := underWay_called hphase
        obtain ⟨entries, daemon, hanalyzed, hmade, hsink, hdrop⟩ :=
          f.daemon.analyzeLine_madeOf now job.1 job.2
        rw [h.dropDebug_eq] at hmade hdrop
        rw [hanalyzed, Option.bind_eq_bind, Option.bind_some] at hstep
        dsimp only at hstep
        split at hstep
        · rename_i hnone
          obtain rfl := List.isEmpty_iff.mp hnone
          obtain rfl := Option.some.inj hstep
          refine h.record hunder (by rw [hstage]; rfl) hmade ?_ hdrop
          rw [hsink, List.append_nil]
          exact h.keeps
        · obtain rfl := Option.some.inj hstep
          refine h.analyze hstage (fun other hother => ?_) hsink hdrop
          rw [hunder, List.mem_singleton] at hother
          exact hother ▸ hmade
      · cases hstep
  | output i =>
      simp only [Flow.step] at hstep
      split at hstep
      · rename_i job entries hphase hstage
        have hunder := underWay_called hphase
        obtain ⟨daemon, hdaemon, hstep⟩ := Option.bind_eq_some_iff.mp hstep
        obtain ⟨sink, hsink, hdaemon⟩ := Option.bind_eq_some_iff.mp hdaemon
        obtain rfl := Option.some.inj hdaemon
        obtain rfl := Option.some.inj hstep
        exact h.record hunder (by rw [hstage]; rfl)
          (h.analyzed i entries hstage job (hunder ▸ List.mem_singleton_self job))
          (outputCallback_keeps h.keeps hsink) h.dropDebug_eq
      · cases hstep

theorem start_holds (hash : Bytes → Nat) (inode : Nat) (path : Bytes)
    (capacity queueCapacity : Nat) (threshold : ThresholdAnalyzer) (scanned : Bool)
    (content : Bytes) (hfirst : first ≤ content.length) :
    Holds hash inode first path (if capacity = 0 then 1 else capacity) threshold.dropDebug
      (start n capacity queueCapacity threshold (Tail.start scanned inode content first) :
        Flow n Q F) where
  tail := Tail.start_exact scanned inode content hfirst
  shards := Shards.startWorkers_holds hash queueCapacity
  handed_le := Nat.le_refl _
  accepted_sublist := List.Sublist.refl _
  accepted_eq := fun _ => rfl
  results_eq := fun _ => rfl
  analyzed := fun _ _ hstage => nomatch hstage
  made := fun _ hresult => absurd hresult List.not_mem_nil
  keeps := LogBuffer.new_keeps capacity
  dropDebug_eq := rfl

/-! ## What is in the buffer -/

/-- The lines with a recorded result come in their order, and all of them when the workers have
been joined. -/
theorem Holds.results_prefix (h : Holds hash inode first path capacity dropDebug f) :
    linesOf path (f.results.map Prod.fst) <+: linesOf path f.shards.accepted ∧
      (f.shards.stop = .stopped →
        linesOf path (f.results.map Prod.fst) = linesOf path f.shards.accepted) := by
  have hresults := h.results_eq (Shards.shardOf hash n path)
  have hshard := h.shards.shard (Shards.shardOf hash n path)
  have hrecorded : recorded (f.shards.workers (Shards.shardOf hash n path))
      (f.stages (Shards.shardOf hash n path)) <+:
        (f.shards.workers (Shards.shardOf hash n path)).underWay := by
    unfold recorded
    split
    · exact List.prefix_refl _
    · exact List.nil_prefix
  constructor
  · have hreached : linesOf path (f.results.map Prod.fst) <+: linesOf path f.shards.reached := by
      unfold linesOf
      rw [← Shards.Holds.ofSource_onShard hash n path (f.results.map Prod.fst),
        ← Shards.Holds.ofSource_onShard hash n path f.shards.reached, hresults, hshard.reached_eq]
      exact (((List.prefix_append_right_inj _).mpr hrecorded).filter _).map _
    exact hreached.trans ((h.shards.reached_prefix path).map _)
  · intro hstopped
    obtain ⟨-, -, hnone⟩ := h.shards.empty_of_returned (h.shards.stopped hstopped
      (Shards.shardOf hash n path))
    rw [hnone] at hrecorded
    rw [List.prefix_nil.mp hrecorded, List.append_nil] at hresults
    unfold linesOf
    rw [← Shards.Holds.ofSource_onShard hash n path (f.results.map Prod.fst), hresults,
      Shards.Holds.ofSource_onShard, (h.shards.reached_of_stopped hstopped path).2]

/-- The entries of the file are those of its lines. -/
theorem entries_of_results {results : List (Job × List LogEntry)}
    (hmade : ∀ result ∈ results, MadeOf dropDebug result.1.1 result.1.2 result.2) (path : Bytes) :
    ((results.flatMap Prod.snd).filter (LogEntry.isOf path)).map LogEntry.raw =
      (linesOf path (results.map Prod.fst)).filter (makesEntry dropDebug path) := by
  induction results with
  | nil => rfl
  | cons result results ih =>
      have hrest := ih fun r hr => hmade r (List.mem_cons_of_mem _ hr)
      obtain ⟨hraw, hisOf⟩ := hmade result List.mem_cons_self
      rw [List.flatMap_cons, List.filter_append, List.map_append, hrest, List.map_cons]
      by_cases hpath : result.1.1 = path
      · have hall : result.2.filter (LogEntry.isOf path) = result.2 := by
          rw [List.filter_eq_self]
          intro entry hentry
          rw [hisOf entry hentry, hpath, decide_eq_true rfl]
        have hlines : linesOf path (result.1 :: results.map Prod.fst) =
            result.1.2 :: linesOf path (results.map Prod.fst) := by
          simp [linesOf, Keyed.onKey, hpath]
        rw [hall, hraw, hlines, List.filter_cons, hpath]
        split <;> rfl
      · have hnone : result.2.filter (LogEntry.isOf path) = [] := by
          rw [List.filter_eq_nil_iff]
          intro entry hentry
          rw [hisOf entry hentry, decide_eq_false hpath]
          exact Bool.false_ne_true
        have hlines : linesOf path (result.1 :: results.map Prod.fst) =
            linesOf path (results.map Prod.fst) := by
          simp [linesOf, Keyed.onKey, hpath]
        rw [hnone, hlines]
        rfl

/-- In every run of the threads, as long as nobody else uses the name of the file: of the finished
lines that the watcher has handed over, some are accepted, all if no queue was ever full; of these
the first ones have been processed, all if the workers have been joined; and the entries of the
file in the buffer are, in order, the last of those made of the processed lines, and all of them
while the buffer is not full. -/
theorem run_keeps_file (ext : External Q F) (hash : Bytes → Nat) (inode : Nat) (path : Bytes)
    (capacity queueCapacity : Nat) (threshold : ThresholdAnalyzer) (scanned : Bool)
    (content : Bytes) {first : Nat} (hfirst : first ≤ content.length) {actions : List (Action n)}
    (hrun : Transition.run (step ext hash inode path)
      (start n capacity queueCapacity threshold (Tail.start scanned inode content first))
      actions = some f)
    (hshort : Tail.ShortLines (f.tail.content.drop first)) :
    let handed := (Tail.terminatedLines f.tail.bytesRead).take f.handed
    let kept := (f.daemon.sink.buffer.items.filter (LogEntry.isOf path)).map LogEntry.raw
    f.tail.bytesRead <+: f.tail.content.drop first ∧
      ∃ accepted processed : List Bytes, accepted.Sublist handed ∧
        (f.shards.totalDropped = 0 → accepted = handed) ∧ processed <+: accepted ∧
        (f.shards.stop = .stopped → processed = accepted) ∧
        kept <:+ processed.filter (makesEntry threshold.dropDebug path) ∧
        (f.daemon.sink.buffer.items.length < capacity →
          kept = processed.filter (makesEntry threshold.dropDebug path)) := by
  intro handed kept
  have h : Holds hash inode first path (if capacity = 0 then 1 else capacity)
      threshold.dropDebug f :=
    Transition.run_invariant (fun _ _ _ h hstep => h.step hstep)
      (start_holds hash inode path capacity queueCapacity threshold scanned content hfirst) hrun
  have hemitted : f.tail.emitted.take f.handed = handed := by
    rw [(h.tail.lines_eq hshort).1]
  obtain ⟨hhanded, hall⟩ := h.results_prefix
  refine ⟨h.tail.read_prefix, linesOf path f.shards.accepted,
    linesOf path (f.results.map Prod.fst), hemitted ▸ h.accepted_sublist,
    fun hzero => hemitted ▸ h.accepted_eq hzero, hhanded, hall, ?_, fun hroom => ?_⟩
  · rw [← entries_of_results h.made path]
    show ((f.daemon.sink.buffer.items.filter (LogEntry.isOf path)).map LogEntry.raw) <:+ _
    rw [h.keeps.items_eq]
    exact ((List.drop_suffix _ _).filter _).map _
  · have hpos := h.keeps.capacity_pos
    have hcapacity : (if capacity = 0 then 1 else capacity) = capacity := if_neg (by omega)
    have hitems : f.daemon.sink.buffer.items = f.results.flatMap Prod.snd := by
      have hitems := h.keeps.items_eq
      rw [hcapacity] at hitems hpos
      rw [hitems, KeyedQueue.keepLast, KeyedQueue.excess, if_neg (Nat.ne_of_gt hpos),
        List.length_drop] at hroom
      rw [hitems, KeyedQueue.keepLast_of_le (.inr (by omega))]
    show ((f.daemon.sink.buffer.items.filter (LogEntry.isOf path)).map LogEntry.raw) = _
    rw [hitems, entries_of_results h.made path]

/-- One line of a file, until the only worker has been joined. -/
def oneLine : List (Action 1) :=
  let worker := Fin.last 0
  [.write (ascii "up\n"), .drain true, .read, .hand, .shards (.take worker),
    .shards (.call worker), .analyze worker 7, .output worker, .shards (.finish worker),
    .shards .stopWorkers, .shards .signal, .shards .signal, .shards (.leave worker), .shards .join,
    .shards .join]

theorem run_keeps_file_one :
    let f : Flow 1 Bytes Int := (Transition.run (step Daemon.plainLibraries List.length 7
      (ascii "app.log")) (start 1 4 4 {} (Tail.start true 7 [] 0)) oneLine).get rfl
    let handed := (Tail.terminatedLines f.tail.bytesRead).take f.handed
    let kept := (f.daemon.sink.buffer.items.filter
      (LogEntry.isOf (ascii "app.log"))).map LogEntry.raw
    f.shards.stop = .stopped ∧ f.tail.bytesRead <+: f.tail.content.drop 0 ∧
      ∃ accepted processed : List Bytes, accepted.Sublist handed ∧
        (f.shards.totalDropped = 0 → accepted = handed) ∧ processed <+: accepted ∧
        (f.shards.stop = .stopped → processed = accepted) ∧
        kept <:+ processed.filter (makesEntry false (ascii "app.log")) ∧
        (f.daemon.sink.buffer.items.length < 4 →
          kept = processed.filter (makesEntry false (ascii "app.log"))) :=
  ⟨rfl, run_keeps_file Daemon.plainLibraries List.length 7 (ascii "app.log") 4 4 {} true []
    (Nat.le_refl 0) (Option.some_get _).symm (by unfold Tail.ShortLines Lines.Within; decide)⟩

end Flow

end LogMind
