import LogMind.Watcher.PollLoop

/-!
# Which files are read

The watcher reads no file that its patterns do not select: a path that it tracks, drains or passes
to `process_raw` is a spelling of a name that matches in a registered directory, in both modes,
whatever is created and appended and whichever events are lost.
-/

namespace LogMind

namespace FileWatcher

/-- The pattern for the names that `add_patterns` registers. -/
def namePattern (target : Bytes) : Bytes :=
  if (target.any fun c => c ∈ ascii "*?[") ∧ filenameOf target = [] then ascii "*"
  else filenameOf target

/-- The target selects the name in the directory. -/
def Selects (fnmatch : Bytes → Bytes → Bool) (target dir name : Bytes) : Prop :=
  parentDirOf target = dir ∧ fnmatch (namePattern target) name = true

variable {fnmatch : Bytes → Bytes → Bool} {patterns : DirPatterns} {dir name : Bytes}

theorem matching_registerPattern (patterns : DirPatterns) (target pattern : Bytes) :
    matching fnmatch (registerPattern patterns target pattern) dir name = true ↔
      matching fnmatch patterns dir name = true ∨ target = dir ∧ fnmatch pattern name = true := by
  unfold registerPattern
  dsimp only
  split
  case isTrue hknown =>
    refine ⟨.inl, fun h => h.elim id ?_⟩
    rintro ⟨rfl, hmatch⟩
    exact List.any_eq_true.mpr ⟨pattern, List.contains_iff_mem.mp hknown, hmatch⟩
  case isFalse =>
    unfold matching
    by_cases hdir : dir = target
    · subst hdir
      rw [AList.lookup_insert, Option.getD_some, List.any_append, Bool.or_eq_true]
      simp
    · rw [AList.lookup_insert_ne hdir]
      exact ⟨.inl, fun h => h.resolve_right fun heq => hdir heq.1.symm⟩

/-- What is registered matches what a target selects. -/
theorem matching_addPatterns (patterns : DirPatterns) (targets : List Bytes) :
    matching fnmatch (addPatterns patterns targets) dir name = true ↔
      matching fnmatch patterns dir name = true ∨
        ∃ target ∈ targets, Selects fnmatch target dir name := by
  induction targets generalizing patterns with
  | nil => simp [addPatterns]
  | cons target targets ih =>
      have hfirst : ∀ next, addPatterns patterns (target :: targets) = addPatterns next targets →
          (matching fnmatch next dir name = true ↔ matching fnmatch patterns dir name = true ∨
            Selects fnmatch target dir name) →
          (matching fnmatch (addPatterns patterns (target :: targets)) dir name = true ↔
            matching fnmatch patterns dir name = true ∨
              ∃ other ∈ target :: targets, Selects fnmatch other dir name) := by
        intro next hnext hiff
        rw [hnext, ih, hiff, List.exists_mem_cons_iff, or_assoc]
      by_cases hglob : (target.any fun c => c ∈ ascii "*?[") = true
      · refine hfirst (watchDirectory patterns (parentDirOf target) (filenameOf target)) ?_ ?_
        · rw [addPatterns, List.foldl_cons, if_pos hglob]
          rfl
        · have hpattern : namePattern target =
              if filenameOf target = [] then ascii "*" else filenameOf target := by
            simp only [namePattern, hglob, true_and]
          rw [watchDirectory, matching_registerPattern, Selects, hpattern]
      · refine hfirst (watch patterns target) ?_ ?_
        · rw [addPatterns, List.foldl_cons, if_neg hglob]
          rfl
        · have hpattern : namePattern target = filenameOf target := if_neg fun h => hglob h.1
          rw [watch, matching_registerPattern, Selects, hpattern]

end FileWatcher

namespace WatchedTree

/-- The paths that are tracked, drained, still to be drained or passed on. -/
def InUse (t : WatchedTree) (path : Bytes) : Prop :=
  path ∈ t.files ∨ (∃ phase, t.drain = some phase ∧ phase.path = path) ∨
    (∃ paths, t.phase = .draining paths ∧ path ∈ paths) ∨ path ∈ t.emitted.map Prod.fst

variable (fnmatch : Bytes → Bytes → Bool)

/-- A spelling of a name that matches in its directory. -/
def Chosen (t : WatchedTree) (path : Bytes) : Prop :=
  ∃ (dir : Bytes) (name : FileName), t.matching fnmatch dir name = true ∧
    (path = FileWatcher.iterPath dir name.bytes ∨ path = FileWatcher.joinPath dir name.bytes)

/-- Before `start` nothing is in use, and later nothing but what matches. -/
def Confined (t : WatchedTree) : Prop :=
  ∀ path, t.InUse path → t.phase ≠ .stopped ∧ t.Chosen fnmatch path

/-- What a step without a registration does to the paths in use. -/
structure Keeps (t u : WatchedTree) : Prop where
  dirPatterns : u.dirPatterns = t.dirPatterns
  running : t.phase ≠ .stopped → u.phase ≠ .stopped
  inUse : ∀ path, u.InUse path → t.InUse path ∨ u.phase ≠ .stopped ∧ t.Chosen fnmatch path

variable {fnmatch} {tree : DirectoryTree} {t u : WatchedTree} {path : Bytes} {name : FileName}
  {d : Nat}

theorem Confined.keeps (h : t.Confined fnmatch) (hkeeps : Keeps fnmatch t u) :
    u.Confined fnmatch := by
  have hchosen : ∀ path, t.Chosen fnmatch path → u.Chosen fnmatch path := by
    rintro path ⟨dir, name, hmatch, hpath⟩
    refine ⟨dir, name, ?_, hpath⟩
    rw [matching, hkeeps.dirPatterns]
    exact hmatch
  intro path hpath
  rcases hkeeps.inUse path hpath with hold | ⟨hrunning, hnew⟩
  · obtain ⟨hrunning, hold⟩ := h path hold
    exact ⟨hkeeps.running hrunning, hchosen path hold⟩
  · exact ⟨hrunning, hchosen path hnew⟩

theorem Keeps.refl (t : WatchedTree) : Keeps fnmatch t t := ⟨rfl, id, fun _ => .inl⟩

/-- Another phase, with no path that is still to be drained. -/
theorem Keeps.withPhase {s : WatchedTree} (h : Keeps fnmatch t s) {phase : WatchPhase}
    (hrunning : phase ≠ .stopped) (hpaths : ∀ paths, phase ≠ .draining paths) :
    Keeps fnmatch t { s with phase := phase } := by
  have hold : ∀ {other}, s.InUse other →
      t.InUse other ∨ phase ≠ .stopped ∧ t.Chosen fnmatch other :=
    fun hother => (h.inUse _ hother).imp_right fun hnew => ⟨hrunning, hnew.2⟩
  refine ⟨h.dirPatterns, fun _ => hrunning, fun path hpath => ?_⟩
  rcases hpath with hfile | hdrain | ⟨paths, hphase, -⟩ | hemitted
  · exact hold (.inl hfile)
  · exact hold (.inr (.inl hdrain))
  · exact absurd hphase (hpaths paths)
  · exact hold (.inr (.inr (.inr hemitted)))

/-- `drain_file` keeps to its path. -/
theorem Keeps.withDrain {phase : DrainPhase} (hdrain : t.drain = some phase)
    {files : AList (fun _ : Bytes => FileState Cell)} {next : Option DrainPhase}
    {emitted : List (Bytes × List Cell)}
    (hfiles : ∀ other ∈ files, other = phase.path ∨ other ∈ t.files)
    (hnext : ∀ p, next = some p → p.path = phase.path)
    (hemitted : ∀ other ∈ emitted.map Prod.fst,
      other = phase.path ∨ other ∈ t.emitted.map Prod.fst) :
    Keeps fnmatch t { t with files := files, drain := next, emitted := emitted } := by
  have hown : ∀ {other}, other = phase.path → t.InUse other :=
    fun heq => .inr (.inl ⟨phase, hdrain, heq.symm⟩)
  refine ⟨rfl, id, fun other hother => .inl ?_⟩
  rcases hother with hfile | ⟨p, hp, hpath⟩ | hdraining | hpassed
  · exact (hfiles other hfile).elim hown .inl
  · exact hown (hpath.symm.trans (hnext p hp))
  · exact .inr (.inr (.inl hdraining))
  · exact (hemitted other hpassed).elim hown fun h => .inr (.inr (.inr h))

/-- What is not of `start` or of the thread leaves the paths alone. -/
theorem Keeps.of_eq (hpatterns : u.dirPatterns = t.dirPatterns) (hfiles : u.files = t.files)
    (hdrain : u.drain = t.drain) (hphase : u.phase = t.phase) (hemitted : u.emitted = t.emitted) :
    Keeps fnmatch t u := by
  refine ⟨hpatterns, fun hrunning => hphase ▸ hrunning, fun path hpath => .inl ?_⟩
  rw [InUse, hfiles, hdrain, hphase, hemitted] at hpath
  exact hpath

theorem Keeps.notify {s : WatchedTree} (h : Keeps fnmatch t s) (kind : EventKind)
    (queued : Bool) : Keeps fnmatch t (s.notify d name kind queued) := by
  unfold WatchedTree.notify
  split
  · exact ⟨h.dirPatterns, h.running, h.inUse⟩
  · exact h

theorem Keeps.create {queued : Bool} (hstep : t.create d name queued = some u) :
    Keeps fnmatch t u := by
  unfold WatchedTree.create at hstep
  split at hstep
  · cases hstep
  · rw [← Option.some.inj hstep]
    refine Keeps.notify ?_ _ _
    exact .of_eq rfl rfl rfl rfl rfl

theorem Keeps.append {bytes : Bytes} {queued : Bool}
    (hstep : t.append d name bytes queued = some u) : Keeps fnmatch t u := by
  obtain ⟨inode, -, rfl⟩ := Option.map_eq_some_iff.mp hstep
  refine Keeps.notify ?_ _ _
  exact .of_eq rfl rfl rfl rfl rfl

theorem Keeps.enter (hstep : t.enter tree = some u) : Keeps fnmatch t u := by
  cases of_enter hstep with
  | missing | directory | watch => exact (Keeps.refl t).withPhase nofun nofun
  | drain =>
      refine ⟨rfl, fun _ => nofun, fun path hpath => .inl ?_⟩
      rcases hpath with hfile | hdrain | ⟨paths, hphase, hmem⟩ | hemitted
      · exact .inl hfile
      · exact .inr (.inl hdrain)
      · rw [← WatchPhase.draining.inj hphase] at hmem
        exact .inl hmem
      · exact .inr (.inr (.inr hemitted))

/-- A file that matches is tracked, and is drained at once if it was not there at the start. -/
theorem Keeps.track {s : WatchedTree} (h : Keeps fnmatch t s) (hrunning : s.phase ≠ .stopped)
    (hchosen : t.Chosen fnmatch path) {files : AList (fun _ : Bytes => FileState Cell)}
    (hfiles : ∀ other ∈ files, other = path ∨ other ∈ s.files) {drain : Option DrainPhase}
    (hdrain : ∀ phase, drain = some phase → phase.path = path) (scanned : List Scan) :
    Keeps fnmatch t { s with files := files, drain := drain, scanned := scanned } := by
  refine ⟨h.dirPatterns, h.running, fun other hother => ?_⟩
  have hnew : ∀ {other}, other = path →
      t.InUse other ∨ s.phase ≠ .stopped ∧ t.Chosen fnmatch other :=
    fun heq => .inr ⟨hrunning, heq ▸ hchosen⟩
  rcases hother with hfile | ⟨phase, hphase, hpath⟩ | hdraining | hpassed
  · exact (hfiles other hfile).elim hnew fun hold => h.inUse other (.inl hold)
  · exact hnew (hpath.symm.trans (hdrain phase hphase))
  · exact h.inUse other (.inr (.inr (.inl hdraining)))
  · exact h.inUse other (.inr (.inr (.inr hpassed)))

theorem Keeps.visit (hstep : t.visit tree fnmatch name = some u) : Keeps fnmatch t u := by
  cases of_visit hstep with
  | skipped => exact (Keeps.refl t).withPhase nofun nofun
  | @scanned dir names dirs d inode hdrain _ _ _ hmatch =>
      have hvisited : Keeps fnmatch t
          { t with phase := .visiting true dir (names.erase name) dirs } :=
        (Keeps.refl t).withPhase nofun nofun
      exact hvisited.track nofun ⟨dir, name, hmatch, .inl rfl⟩
        (fun other hother => (AList.mem_insert _).mp hother) (by rw [hdrain]; nofun) _
  | @found dir names dirs d inode _ _ _ _ hmatch =>
      have hvisited : Keeps fnmatch t
          { t with phase := .visiting false dir (names.erase name) dirs } :=
        (Keeps.refl t).withPhase nofun nofun
      exact hvisited.track nofun ⟨dir, name, hmatch, .inl rfl⟩
        (fun other hother => (AList.mem_insert _).mp hother)
        (fun phase hphase => by rw [← Option.some.inj hphase]; rfl) _

theorem Keeps.handle (hstep : t.handle fnmatch = some u) : Keeps fnmatch t u := by
  have hpopped : ∀ rest, Keeps fnmatch t { t with queue := rest } :=
    fun _ => .of_eq rfl rfl rfl rfl rfl
  have hrunning : t.phase = .idle → t.phase ≠ .stopped := fun hphase => by rw [hphase]; nofun
  cases of_handle hstep with
  | @overflow rest => exact (hpopped rest).withPhase nofun nofun
  | skipped => exact hpopped _
  | @removed wd name kind rest dir hdrain hphase _ _ _ hmatch =>
      exact (hpopped rest).track (hrunning hphase) ⟨dir, name, hmatch, .inr rfl⟩
        (fun other hother => .inr (AList.mem_erase.mp hother).2) (by rw [hdrain]; nofun) _
  | @created wd name kind rest dir hphase _ _ _ hmatch =>
      exact (hpopped rest).track (hrunning hphase) ⟨dir, name, hmatch, .inr rfl⟩
        (fun other hother => (AList.mem_insert _).mp hother)
        (fun phase hphase => by rw [← Option.some.inj hphase]; rfl) _
  | @modified wd name rest dir hphase _ _ hmatch =>
      exact (hpopped rest).track (hrunning hphase) ⟨dir, name, hmatch, .inr rfl⟩ (fun _ => .inr)
        (fun phase hphase => by rw [← Option.some.inj hphase]; rfl) _

theorem Keeps.drainNext (hstep : t.drainNext path = some u) : Keeps fnmatch t u := by
  obtain ⟨paths, -, hphase, hpath, rfl⟩ := drainNext_eq_some hstep
  refine ⟨rfl, fun _ => nofun, fun other hother => .inl ?_⟩
  have hold : ∀ {other}, other ∈ paths → t.InUse other :=
    fun hmem => .inr (.inr (.inl ⟨paths, hphase, hmem⟩))
  rcases hother with hfile | ⟨phase, hnext, heq⟩ | ⟨rest, hrest, hmem⟩ | hpassed
  · exact .inl hfile
  · rw [← Option.some.inj hnext] at heq
    exact heq ▸ hold hpath
  · rw [← WatchPhase.draining.inj hrest] at hmem
    exact hold (List.mem_of_mem_erase hmem)
  · exact .inr (.inr (.inr hpassed))

theorem Keeps.stat (hstep : t.stat tree = some u) : Keeps fnmatch t u := by
  cases of_stat hstep with
  | gone hdrain => exact .withDrain hdrain (fun _ => .inr) nofun fun _ => .inr
  | seen hdrain =>
      refine .withDrain hdrain (fun other hother => (AList.mem_insert _).mp hother)
        (fun phase hphase => ?_) fun _ => .inr
      split at hphase
      · cases hphase
      · rw [← Option.some.inj hphase]
        rfl

theorem Keeps.open_ {opened : Bool} (hstep : t.open_ tree opened = some u) : Keeps fnmatch t u := by
  cases of_open hstep with
  | failed hdrain => exact .withDrain hdrain (fun _ => .inr) nofun fun _ => .inr
  | reading hdrain =>
      refine .withDrain hdrain (fun _ => .inr) (fun phase hphase => ?_) fun _ => .inr
      rw [← Option.some.inj hphase]
      rfl

theorem Keeps.read (hstep : t.read = some u) : Keeps fnmatch t u := by
  cases of_read hstep with
  | atEnd hdrain => exact .withDrain hdrain (fun _ => .inr) nofun fun _ => .inr
  | chunk hdrain =>
      refine .withDrain hdrain (fun other hother => (AList.mem_insert _).mp hother)
        (fun phase hphase => ?_) fun other hother => ?_
      · split at hphase
        · rw [← Option.some.inj hphase]
        · cases hphase
      · rw [List.map_append, List.map_map] at hother
        rcases List.mem_append.mp hother with hold | hnew
        · exact .inr hold
        · obtain ⟨line, -, rfl⟩ := List.mem_map.mp hnew
          exact .inl rfl

theorem Keeps.addWatch {ok : Bool} (hstep : t.addWatch tree ok = some u) : Keeps fnmatch t u := by
  obtain ⟨_, dirs, _, -, -, rfl⟩ := addWatch_eq_some hstep
  have hnext : Keeps fnmatch t { t with phase := .watching dirs } :=
    (Keeps.refl t).withPhase nofun nofun
  exact ⟨rfl, hnext.running, hnext.inUse⟩

theorem Keeps.start {dirs : List Bytes} (hstep : t.start dirs = some u) : Keeps fnmatch t u := by
  obtain ⟨-, -, rfl⟩ := start_eq_some hstep
  have hnext : Keeps fnmatch t { t with phase := .scanning true dirs } :=
    (Keeps.refl t).withPhase nofun nofun
  exact ⟨rfl, hnext.running, hnext.inUse⟩

theorem Keeps.launch (hstep : t.launch = some u) : Keeps fnmatch t u := by
  obtain ⟨-, rfl⟩ := launch_eq_some hstep
  refine (Keeps.refl t).withPhase ?_ ?_
  · split <;> nofun
  · intro paths
    split <;> nofun

theorem Keeps.leave (hstep : t.leave = some u) : Keeps fnmatch t u := by
  obtain ⟨prime, dir, dirs, -, rfl⟩ := leave_eq_some hstep
  exact (Keeps.refl t).withPhase nofun nofun

/-- A registration. -/
def registers : Action → Bool
  | .watch _ | .watchDirectory _ _ | .addPatterns _ => true
  | _ => false

theorem Keeps.step {a : Action} (ha : registers a = false)
    (hstep : t.step tree fnmatch a = some u) :
    Keeps fnmatch t u := by
  cases a with
  | watch => cases ha
  | watchDirectory => cases ha
  | addPatterns => cases ha
  | create => exact .create hstep
  | append => exact .append hstep
  | overflow =>
      obtain rfl := Option.some.inj hstep
      exact .of_eq rfl rfl rfl rfl rfl
  | start dirs => exact .start hstep
  | enter => exact .enter hstep
  | visit name => exact .visit hstep
  | leave => exact .leave hstep
  | addWatch ok => exact .addWatch hstep
  | launch => exact .launch hstep
  | handle => exact .handle hstep
  | drainNext path => exact .drainNext hstep
  | drained =>
      obtain ⟨-, -, rfl⟩ := drained_eq_some hstep
      exact (Keeps.refl t).withPhase nofun nofun
  | stat => exact .stat hstep
  | open_ opened => exact .open_ hstep
  | read => exact .read hstep

theorem Keeps.poll {a : PollAction} (hstep : t.poll tree fnmatch a = some u) :
    Keeps fnmatch t u := by
  cases a with
  | create => exact .create hstep
  | append => exact .append hstep
  | round dirs =>
      obtain ⟨-, -, rfl⟩ := round_eq_some hstep
      exact (Keeps.refl t).withPhase nofun nofun
  | enter => exact .enter hstep
  | visit name => exact .visit hstep
  | leave => exact .leave hstep
  | drainNext path => exact .drainNext hstep
  | stat => exact .stat hstep
  | open_ opened => exact .open_ hstep
  | read => exact .read hstep
  | sleep =>
      obtain ⟨-, -, rfl⟩ := sleep_eq_some hstep
      exact (Keeps.refl t).withPhase nofun nofun

/-- With the patterns of some targets registered, a watcher uses the paths they select, in the
mode with events and then, if no directory can be watched, in the polling mode. -/
theorem chosen_of_run {targets : List Bytes} {actions : List Action} {polling : List PollAction}
    (hrun : Transition.run (step tree fnmatch) {} (.addPatterns targets :: actions) = some t)
    (hregister : ∀ a ∈ actions, registers a = false)
    (hpolling : Transition.run (poll tree fnmatch) t polling = some u) (hpath : u.InUse path) :
    ∃ target ∈ targets, ∃ (dir : Bytes) (name : FileName),
      FileWatcher.Selects fnmatch target dir name.bytes ∧
      (path = FileWatcher.iterPath dir name.bytes ∨
        path = FileWatcher.joinPath dir name.bytes) := by
  let patterns := FileWatcher.addPatterns ∅ targets
  obtain ⟨s, hstep, hrest⟩ := Transition.run_cons_eq_some.mp hrun
  have hstart : s.dirPatterns = patterns ∧ s.Confined fnmatch := by
    obtain rfl := Option.some.inj hstep
    refine ⟨rfl, fun path hpath => ?_⟩
    rcases hpath with hfile | ⟨_, hdrain, -⟩ | ⟨_, hphase, -⟩ | hpassed
    · exact absurd hfile (AList.notMem_empty _)
    · cases hdrain
    · cases hphase
    · exact absurd hpassed List.not_mem_nil
  have hkeeps : ∀ {v w}, Keeps fnmatch v w → v.dirPatterns = patterns ∧ v.Confined fnmatch →
      w.dirPatterns = patterns ∧ w.Confined fnmatch :=
    fun hkeeps h => ⟨hkeeps.dirPatterns.trans h.1, h.2.keeps hkeeps⟩
  have hlaunched := Transition.run_invariant_of_forall
    (fun v a w h ha hstep => hkeeps (Keeps.step ha hstep) h) hstart hregister hrest
  obtain ⟨hpatterns, hconfined⟩ := Transition.run_invariant
    (fun v a w h hstep => hkeeps (Keeps.poll hstep) h) hlaunched hpolling
  obtain ⟨-, dir, name, hmatch, hspelling⟩ := hconfined path hpath
  rw [matching, hpatterns, FileWatcher.matching_addPatterns] at hmatch
  obtain ⟨target, htarget, hselects⟩ := hmatch.resolve_left Bool.false_ne_true
  exact ⟨target, htarget, dir, name, hselects, hspelling⟩

end WatchedTree

end LogMind
