import LogMind.Core.Json
import LogMind.Watcher.Confinement
import LogMind.Watcher.Skipping

/-!
# What the daemon watches

`do_start_watcher` takes the patterns of the collectors, and those of the configuration if no
collector has any: a pattern in each log directory. The watcher is started with them, and the
daemon reads nothing else.
-/

namespace LogMind

namespace Json

/-- What a loop over a value visits: a value that is no container is visited itself. -/
def elements : Json → List Json
  | null => []
  | array items => items
  | object members => members.map Prod.snd
  | j => [j]

/-- `empty()`. -/
def isEmpty : Json → Bool
  | null => true
  | array items => items.isEmpty
  | object members => members.isEmpty
  | _ => false

/-- The strings among some values. -/
def strings (js : List Json) : List Bytes :=
  js.filterMap fun
    | string s => some s
    | _ => none

theorem mem_strings {js : List Json} {s : Bytes} : s ∈ strings js ↔ string s ∈ js := by
  rw [strings, List.mem_filterMap]
  constructor
  · rintro ⟨j, hj, hs⟩
    cases j with
    | string t => exact Option.some.inj hs ▸ hj
    | _ => cases hs
  · exact fun h => ⟨string s, h, rfl⟩

end Json

namespace DaemonCore

/-- `log_dirs`, if it is an array. -/
def logDirs (config : Json) : List Bytes :=
  match config.find (ascii "log_dirs") with
  | some (.array dirs) => Json.strings dirs
  | _ => []

/-- The patterns of the configuration, in each log directory. -/
def configTargets (config : Json) : List Bytes :=
  let patterns := (config.find (ascii "watch_patterns")).getD (.array [])
  (logDirs config).flatMap fun dir =>
    if patterns.isEmpty then [dir ++ ascii "/*.log"]
    else (Json.strings patterns.elements).map fun pattern => dir ++ ascii "/" ++ pattern

/-- `all_patterns`, with `watch_patterns()` of the collectors. -/
def watchTargets (collectors : List (List Bytes)) (isLoaded : Bool) (config : Json) : List Bytes :=
  if collectors.flatten.isEmpty && isLoaded then configTargets config else collectors.flatten

/-- The pattern for the names in a log directory. -/
def Configured (config : Json) (pattern : Bytes) : Prop :=
  let patterns := (config.find (ascii "watch_patterns")).getD (.array [])
  if patterns.isEmpty then pattern = ascii "*.log" else .string pattern ∈ patterns.elements

variable {collectors : List (List Bytes)} {isLoaded : Bool} {config : Json} {target : Bytes}
  {fnmatch : Bytes → Bytes → Bool}

theorem mem_configTargets (h : target ∈ configTargets config) :
    ∃ logDir ∈ logDirs config, ∃ pattern, Configured config pattern ∧
      target = logDir ++ slash :: pattern := by
  obtain ⟨logDir, hdir, hmem⟩ := List.mem_flatMap.mp h
  refine ⟨logDir, hdir, ?_⟩
  unfold Configured
  split at hmem
  case isTrue hempty =>
    refine ⟨ascii "*.log", ?_, ?_⟩
    · dsimp only
      rw [if_pos hempty]
    · rw [List.mem_singleton.mp hmem, List.append_cancel_left_eq]
      decide
  case isFalse hempty =>
    obtain ⟨pattern, hpattern, rfl⟩ := List.mem_map.mp hmem
    refine ⟨pattern, ?_, List.append_assoc _ _ _⟩
    dsimp only
    rw [if_neg hempty]
    exact Json.mem_strings.mp hpattern

theorem mem_watchTargets (h : target ∈ watchTargets collectors isLoaded config) :
    (∃ patterns ∈ collectors, target ∈ patterns) ∨
      (∀ patterns ∈ collectors, patterns = []) ∧ target ∈ configTargets config := by
  unfold watchTargets at h
  split at h
  case isTrue hnone =>
    rw [Bool.and_eq_true, List.isEmpty_iff, List.flatten_eq_nil_iff] at hnone
    exact .inr ⟨hnone.1, h⟩
  case isFalse => exact .inl (List.mem_flatten.mp h)

/-- A pattern without a slash is for the names in its log directory. -/
theorem selects_logDir {logDir pattern dir name : Bytes} (hslash : slash ∉ pattern)
    (hne : pattern ≠ [])
    (h : FileWatcher.Selects fnmatch (logDir ++ slash :: pattern) dir name) :
    dir = (if logDir = [] then [slash] else logDir) ∧ fnmatch pattern name = true := by
  obtain ⟨hdir, hname⟩ := h
  rw [FileWatcher.parentDirOf_append logDir hslash] at hdir
  have hpattern : FileWatcher.namePattern (logDir ++ slash :: pattern) = pattern := by
    rw [FileWatcher.namePattern, FileWatcher.filenameOf_append logDir hslash,
      if_neg fun h => hne h.2]
  rw [hpattern] at hname
  exact ⟨hdir.symm, hname⟩

variable (collectors config fnmatch) in
/-- A spelling of a file that a collector's pattern selects or, if no collector has a pattern,
one of the configuration. A pattern without a slash selects names in its log directory, which is
the root directory if it is the empty string. -/
def Targeted (path : Bytes) : Prop :=
  ∃ (dir : Bytes) (name : FileName),
    (path = FileWatcher.iterPath dir name.bytes ∨ path = FileWatcher.joinPath dir name.bytes) ∧
    ((∃ patterns ∈ collectors, ∃ target ∈ patterns,
        FileWatcher.Selects fnmatch target dir name.bytes) ∨
      (∀ patterns ∈ collectors, patterns = []) ∧ ∃ logDir ∈ logDirs config, ∃ pattern,
        Configured config pattern ∧
        FileWatcher.Selects fnmatch (logDir ++ slash :: pattern) dir name.bytes ∧
        (slash ∉ pattern → pattern ≠ [] →
          dir = (if logDir = [] then [slash] else logDir) ∧ fnmatch pattern name.bytes = true))

/-- Every line that is passed to `process_raw` is of a targeted file. -/
theorem run_reads_targets {tree : DirectoryTree} {t u : WatchedTree}
    {actions : List WatchedTree.Action} {polling : List WatchedTree.PollAction}
    (hrun : Transition.run (WatchedTree.step tree fnmatch) {}
      (.addPatterns (watchTargets collectors isLoaded config) :: actions) = some t)
    (hregister : ∀ a ∈ actions, WatchedTree.registers a = false)
    (hpolling : Transition.run (WatchedTree.poll tree fnmatch) t polling = some u) :
    ∀ passed ∈ u.emitted, Targeted collectors config fnmatch passed.1 := by
  intro passed hpassed
  have hpath : u.InUse passed.1 := .inr (.inr (.inr (List.mem_map_of_mem hpassed)))
  obtain ⟨target, htarget, dir, name, hselects, hspelling⟩ :=
    WatchedTree.chosen_of_run hrun hregister hpolling hpath
  refine ⟨dir, name, hspelling, ?_⟩
  rcases mem_watchTargets htarget with ⟨patterns, hpatterns, hmem⟩ | ⟨hnone, hmem⟩
  · exact .inl ⟨patterns, hpatterns, target, hmem, hselects⟩
  · obtain ⟨logDir, hdir, pattern, hpattern, rfl⟩ := mem_configTargets hmem
    exact .inr ⟨hnone, logDir, hdir, pattern, hpattern, hselects,
      fun hslash hne => selects_logDir hslash hne hselects⟩

/-- One log directory, and a pattern for one name in it. -/
def varLogConfig : Json :=
  .object [(ascii "log_dirs", .array [.string (ascii "/var/log")]),
    (ascii "watch_patterns", .array [.string (ascii "x")])]

/-- A file that is written to while the directory is watched. -/
def watchVarLog : List WatchedTree.Action :=
  [.create 1 WatchedTree.fileX false, .start [ascii "/var/log"], .enter,
    .visit WatchedTree.fileX, .leave, .enter, .addWatch true, .launch,
    .append 1 WatchedTree.fileX (ascii "b\n") true, .handle, .stat, .open_ true, .read]

theorem run_reads_targets_var_log : ∃ t,
    Transition.run (WatchedTree.step WatchedTree.twoDirs (· == ·)) {}
      (.addPatterns (watchTargets [[]] true varLogConfig) :: watchVarLog) = some t ∧
    t.emitted = [(ascii "/var/log/x", [⟨1, 0, 98⟩])] ∧
    Targeted [[]] varLogConfig (· == ·) (ascii "/var/log/x") := by
  obtain ⟨t, hrun, hemitted⟩ : ∃ t,
      Transition.run (WatchedTree.step WatchedTree.twoDirs (· == ·)) {}
        (.addPatterns (watchTargets [[]] true varLogConfig) :: watchVarLog) = some t ∧
      t.emitted = [(ascii "/var/log/x", [⟨1, 0, 98⟩])] := ⟨_, rfl, rfl⟩
  have hregister : ∀ a ∈ watchVarLog, WatchedTree.registers a = false := by
    simp [watchVarLog, WatchedTree.registers]
  have hpolling : Transition.run (WatchedTree.poll WatchedTree.twoDirs (· == ·)) t [] = some t :=
    rfl
  have htargeted := run_reads_targets hrun hregister hpolling
  rw [hemitted] at htargeted
  exact ⟨t, hrun, hemitted, htargeted _ (List.mem_singleton_self _)⟩

end DaemonCore

end LogMind
