import LogMind.Watcher.WatchedTree

/-!
# The steps of the watcher by their cases

What a step of `start`, `scan_directory`, `inotify_loop` or `drain_file` finds, and what it makes of
the state. The invariants of the polling mode and of the paths in use go by these cases.
-/

namespace LogMind

namespace WatchedTree

variable (tree : DirectoryTree) (fnmatch : Bytes → Bytes → Bool)

inductive Entered (t : WatchedTree) : WatchedTree → Prop where
  | missing {prime : Bool} {dir : Bytes} {dirs : List Bytes}
      (hphase : t.phase = .scanning prime (dir :: dirs)) (hdir : tree.resolve dir = none) :
      Entered t { t with phase := .scanning prime dirs }
  | directory {prime : Bool} {dir : Bytes} {dirs : List Bytes} {d : Nat}
      (hphase : t.phase = .scanning prime (dir :: dirs)) (hdir : tree.resolve dir = some d) :
      Entered t { t with phase := .visiting prime dir (t.namesIn d) dirs }
  | watch (hphase : t.phase = .scanning true []) : Entered t { t with phase := .watching t.dirs }
  | drain (hphase : t.phase = .scanning false []) :
      Entered t { t with phase := .draining t.files.keys }

inductive Visited (name : FileName) (t : WatchedTree) : WatchedTree → Prop where
  | skipped {prime : Bool} {dir : Bytes} {names : List FileName} {dirs : List Bytes}
      (hphase : t.phase = .visiting prime dir names dirs)
      (hskip : t.matching fnmatch dir name = true → FileWatcher.iterPath dir name.bytes ∈ t.files) :
      Visited name t { t with phase := .visiting prime dir (names.erase name) dirs }
  /-- In the first scan. -/
  | scanned {dir : Bytes} {names : List FileName} {dirs : List Bytes} {d inode : Nat}
      (hdrain : t.drain = none) (hphase : t.phase = .visiting true dir names dirs)
      (hdir : tree.resolve dir = some d) (hlookup : t.names.lookup (d, name) = some inode)
      (hmatch : t.matching fnmatch dir name = true)
      (hnew : FileWatcher.iterPath dir name.bytes ∉ t.files) :
      Visited name t { t with
        phase := .visiting true dir (names.erase name) dirs
        files := t.files.insert (FileWatcher.iterPath dir name.bytes)
          { inode := inode, offset := t.size inode }
        scanned := t.scanned ++ [⟨dir, name, inode, t.size inode⟩] }
  | found {dir : Bytes} {names : List FileName} {dirs : List Bytes} {d inode : Nat}
      (hdrain : t.drain = none) (hphase : t.phase = .visiting false dir names dirs)
      (hdir : tree.resolve dir = some d) (hlookup : t.names.lookup (d, name) = some inode)
      (hmatch : t.matching fnmatch dir name = true)
      (hnew : FileWatcher.iterPath dir name.bytes ∉ t.files) :
      Visited name t { t with
        phase := .visiting false dir (names.erase name) dirs
        files := t.files.insert (FileWatcher.iterPath dir name.bytes) { inode := inode }
        drain := some (.statting (FileWatcher.iterPath dir name.bytes)) }

inductive Handled (t : WatchedTree) : WatchedTree → Prop where
  | overflow {rest : List Notice} (hphase : t.phase = .idle)
      (hqueue : t.queue = .overflow :: rest) :
      Handled t { t with queue := rest, phase := .scanning false (t.watchMap.map Prod.snd) }
  | skipped {wd : Nat} {name : FileName} {kind : EventKind} {rest : List Notice}
      (hphase : t.phase = .idle) (hqueue : t.queue = .entry wd name kind :: rest)
      (hskip : ∀ dir, t.watchedAs wd = some dir → t.matching fnmatch dir name = false) :
      Handled t { t with queue := rest }
  | removed {wd : Nat} {name : FileName} {kind : EventKind} {rest : List Notice} {dir : Bytes}
      (hdrain : t.drain = none) (hphase : t.phase = .idle)
      (hqueue : t.queue = .entry wd name kind :: rest) (hkind : kind = .delete ∨ kind = .movedFrom)
      (hdir : t.watchedAs wd = some dir) (hmatch : t.matching fnmatch dir name = true) :
      Handled t { t with
        queue := rest
        files := t.files.erase (FileWatcher.joinPath dir name.bytes) }
  | created {wd : Nat} {name : FileName} {kind : EventKind} {rest : List Notice} {dir : Bytes}
      (hphase : t.phase = .idle) (hqueue : t.queue = .entry wd name kind :: rest)
      (hkind : kind = .create ∨ kind = .movedTo) (hdir : t.watchedAs wd = some dir)
      (hmatch : t.matching fnmatch dir name = true) :
      Handled t { t with
        queue := rest
        files := t.files.insert (FileWatcher.joinPath dir name.bytes) {}
        drain := some (.statting (FileWatcher.joinPath dir name.bytes)) }
  | modified {wd : Nat} {name : FileName} {rest : List Notice} {dir : Bytes}
      (hphase : t.phase = .idle) (hqueue : t.queue = .entry wd name .modify :: rest)
      (hdir : t.watchedAs wd = some dir) (hmatch : t.matching fnmatch dir name = true) :
      Handled t { t with
        queue := rest
        drain := some (.statting (FileWatcher.joinPath dir name.bytes)) }

inductive Statted (t : WatchedTree) : WatchedTree → Prop where
  | gone {path : Bytes} (hdrain : t.drain = some (.statting path))
      (hlocate : t.locate tree path = none) : Statted t { t with drain := none }
  | seen {path : Bytes} {inode : Nat} {state : FileState Cell}
      (hdrain : t.drain = some (.statting path)) (hlocate : t.locate tree path = some inode)
      (hstate : ((t.files.lookup path).getD {}).noteStat inode (t.size inode) = state) :
      Statted t { t with
        files := t.files.insert path state
        drain := if t.size inode ≤ state.offset then none else some (.opening path) }

inductive Opened (opened : Bool) (t : WatchedTree) : WatchedTree → Prop where
  | failed {path : Bytes} (hdrain : t.drain = some (.opening path))
      (hfailed : opened = false ∨ t.locate tree path = none) :
      Opened opened t { t with drain := none }
  | reading {path : Bytes} {inode : Nat} (hdrain : t.drain = some (.opening path))
      (hopened : opened = true) (hlocate : t.locate tree path = some inode) :
      Opened opened t { t with drain := some (.reading path inode) }

inductive ReadOn (t : WatchedTree) : WatchedTree → Prop where
  /-- There is nothing behind the offset. -/
  | atEnd {path : Bytes} {inode : Nat} {state : FileState Cell}
      (hdrain : t.drain = some (.reading path inode)) (hstate : t.files.lookup path = some state)
      (hend : (t.cells inode).drop state.offset = []) : ReadOn t { t with drain := none }
  | chunk {path : Bytes} {inode : Nat} {state : FileState Cell} {got : List Cell}
      (hdrain : t.drain = some (.reading path inode)) (hstate : t.files.lookup path = some state)
      (hgot : ((t.cells inode).drop state.offset).take kReadChunk = got) :
      ReadOn t { t with
        files := t.files.insert path (FileState.receive Cell.byte state got).2
        emitted := t.emitted ++
          (FileState.receive Cell.byte state got).1.map fun line => (path, line)
        drain := if got.length == kReadChunk then some (.reading path inode) else none }

variable {tree fnmatch} {t u : WatchedTree} {path : Bytes} {name : FileName}

theorem of_enter (hstep : t.enter tree = some u) : Entered tree t u := by
  unfold WatchedTree.enter at hstep
  split at hstep
  case h_1 hphase =>
    split at hstep
    case h_1 hdir => exact Option.some.inj hstep ▸ .missing hphase hdir
    case h_2 hdir => exact Option.some.inj hstep ▸ .directory hphase hdir
  case h_2 hphase => exact Option.some.inj hstep ▸ .watch hphase
  case h_3 hphase => exact Option.some.inj hstep ▸ .drain hphase
  case h_4 => cases hstep

theorem matching_of_not {dir : Bytes} (h : ¬ (!t.matching fnmatch dir name) = true) :
    t.matching fnmatch dir name = true := by
  cases hmatch : t.matching fnmatch dir name with
  | true => rfl
  | false => exact absurd (congrArg (! ·) hmatch) h

theorem of_visit (hstep : t.visit tree fnmatch name = some u) : Visited tree fnmatch name t u := by
  unfold WatchedTree.visit at hstep
  split at hstep
  case h_1 prime dir names dirs hdrain hphase =>
    obtain ⟨d, hdir, hstep⟩ := Option.bind_eq_some_iff.mp hstep
    obtain ⟨inode, hlookup, rfl⟩ := Option.map_eq_some_iff.mp hstep
    dsimp only
    split
    case isTrue hnot =>
      refine .skipped hphase fun hmatch => ?_
      change (!t.matching fnmatch dir name) = true at hnot
      rw [hmatch] at hnot
      cases hnot
    case isFalse hmatch =>
      split
      case isTrue hold => exact .skipped hphase fun _ => hold
      case isFalse hnew =>
        cases prime with
        | true => exact .scanned hdrain hphase hdir hlookup (matching_of_not hmatch) hnew
        | false => exact .found hdrain hphase hdir hlookup (matching_of_not hmatch) hnew
  case h_2 => cases hstep

theorem leave_eq_some (hstep : t.leave = some u) : ∃ prime dir dirs,
    t.phase = .visiting prime dir [] dirs ∧ u = { t with phase := .scanning prime dirs } := by
  unfold WatchedTree.leave at hstep
  split at hstep
  case h_1 prime dir dirs _ hphase => exact ⟨prime, dir, dirs, hphase, (Option.some.inj hstep).symm⟩
  case h_2 => cases hstep

theorem register_eq_some {patterns : FileWatcher.DirPatterns}
    (hstep : t.register patterns = some u) :
    t.phase = .stopped ∧ u = { t with dirPatterns := patterns } := by
  unfold WatchedTree.register at hstep
  split at hstep
  case h_1 hphase => exact ⟨hphase, (Option.some.inj hstep).symm⟩
  case h_2 => cases hstep

theorem start_eq_some {dirs : List Bytes} (hstep : t.start dirs = some u) :
    t.phase = .stopped ∧ dirs.isPerm t.dirPatterns.keys ∧
      u = { t with dirs := dirs, phase := .scanning true dirs } := by
  unfold WatchedTree.start at hstep
  split at hstep
  case h_1 hphase =>
    split at hstep
    case isTrue hperm => exact ⟨hphase, hperm, (Option.some.inj hstep).symm⟩
    case isFalse => cases hstep
  case h_2 => cases hstep

theorem addWatch_eq_some {ok : Bool} (hstep : t.addWatch tree ok = some u) :
    ∃ dir dirs watchMap, t.phase = .watching (dir :: dirs) ∧
      (watchMap = t.watchMap ∨
        ∃ wd, tree.resolve dir = some wd ∧ watchMap = setWatch t.watchMap wd dir) ∧
      u = { t with phase := .watching dirs, watchMap := watchMap } := by
  unfold WatchedTree.addWatch at hstep
  split at hstep
  case h_1 dir dirs hphase =>
    dsimp only at hstep
    split at hstep
    case h_1 => exact ⟨dir, dirs, _, hphase, .inl rfl, (Option.some.inj hstep).symm⟩
    case h_2 wd hdir =>
      split at hstep
      · exact ⟨dir, dirs, _, hphase, .inr ⟨wd, hdir, rfl⟩, (Option.some.inj hstep).symm⟩
      · exact ⟨dir, dirs, _, hphase, .inl rfl, (Option.some.inj hstep).symm⟩
  case h_2 => cases hstep

theorem launch_eq_some (hstep : t.launch = some u) : t.phase = .watching [] ∧
    u = { t with phase := if t.watchMap ≠ [] ∨ t.dirs = [] then .idle else .polling } := by
  unfold WatchedTree.launch at hstep
  split at hstep
  case h_1 hphase => exact ⟨hphase, (Option.some.inj hstep).symm⟩
  case h_2 => cases hstep

theorem of_handle (hstep : t.handle fnmatch = some u) : Handled fnmatch t u := by
  unfold WatchedTree.handle at hstep
  split at hstep
  case h_1 _ hphase hqueue => exact Option.some.inj hstep ▸ .overflow hphase hqueue
  case h_2 wd name kind rest hdrain hphase hqueue =>
    dsimp only at hstep
    split at hstep
    case h_1 hdir =>
      change t.watchedAs wd = none at hdir
      exact Option.some.inj hstep ▸ .skipped hphase hqueue (by rw [hdir]; nofun)
    case h_2 dir hdir =>
      change t.watchedAs wd = some dir at hdir
      split at hstep
      case isTrue hnot =>
        change (!t.matching fnmatch dir name) = true at hnot
        refine Option.some.inj hstep ▸ .skipped hphase hqueue fun other hother => ?_
        rw [← Option.some.inj (hdir.symm.trans hother)]
        simpa using hnot
      case isFalse hmatch =>
        have hmatch := matching_of_not hmatch
        cases kind with
        | delete =>
            exact Option.some.inj hstep ▸ .removed hdrain hphase hqueue (.inl rfl) hdir hmatch
        | movedFrom =>
            exact Option.some.inj hstep ▸ .removed hdrain hphase hqueue (.inr rfl) hdir hmatch
        | create => exact Option.some.inj hstep ▸ .created hphase hqueue (.inl rfl) hdir hmatch
        | movedTo => exact Option.some.inj hstep ▸ .created hphase hqueue (.inr rfl) hdir hmatch
        | modify => exact Option.some.inj hstep ▸ .modified hphase hqueue hdir hmatch
  case h_3 => cases hstep

theorem drainNext_eq_some (hstep : t.drainNext path = some u) :
    ∃ paths, t.drain = none ∧ t.phase = .draining paths ∧ path ∈ paths ∧ u = { t with
      phase := .draining (paths.erase path)
      drain := some (.statting path) } := by
  unfold WatchedTree.drainNext at hstep
  split at hstep
  case h_1 paths hdrain hphase =>
    split at hstep
    case isTrue hmem =>
      exact ⟨paths, hdrain, hphase, List.contains_iff_mem.mp hmem, (Option.some.inj hstep).symm⟩
    case isFalse => cases hstep
  case h_2 => cases hstep

theorem drained_eq_some (hstep : t.drained = some u) :
    t.drain = none ∧ t.phase = .draining [] ∧ u = { t with phase := .idle } := by
  unfold WatchedTree.drained at hstep
  split at hstep
  case h_1 hdrain hphase => exact ⟨hdrain, hphase, (Option.some.inj hstep).symm⟩
  case h_2 => cases hstep

theorem of_stat (hstep : t.stat tree = some u) : Statted tree t u := by
  unfold WatchedTree.stat at hstep
  split at hstep
  case h_1 hdrain =>
    split at hstep
    case h_1 hlocate => exact Option.some.inj hstep ▸ .gone hdrain hlocate
    case h_2 hlocate => exact Option.some.inj hstep ▸ .seen hdrain hlocate rfl
  case h_2 => cases hstep

theorem of_open {opened : Bool} (hstep : t.open_ tree opened = some u) :
    Opened tree opened t u := by
  unfold WatchedTree.open_ at hstep
  split at hstep
  case h_1 hdrain =>
    split at hstep
    case h_1 hlocate =>
      cases opened with
      | true => exact Option.some.inj hstep ▸ .reading hdrain rfl hlocate
      | false => exact Option.some.inj hstep ▸ .failed hdrain (.inl rfl)
    case h_2 hlocate => exact Option.some.inj hstep ▸ .failed hdrain (.inr hlocate)
  case h_2 => cases hstep

theorem of_read (hstep : t.read = some u) : ReadOn t u := by
  unfold WatchedTree.read at hstep
  split at hstep
  case h_1 path inode hdrain =>
    obtain ⟨state, hstate, rfl⟩ := Option.map_eq_some_iff.mp hstep
    dsimp only
    split
    case isTrue hempty =>
      rw [List.isEmpty_iff, List.take_eq_nil_iff] at hempty
      exact .atEnd hdrain hstate (hempty.resolve_left (by decide))
    case isFalse => exact .chunk hdrain hstate rfl
  case h_2 => cases hstep

end WatchedTree

end LogMind
