import LogMind.Watcher.WatchedTree

/-!
# The first scan of the directories

While `start` scans, every tracked file is where its scan left it. A directory may be
scanned under several paths, and a file may be made between two of these scans. What was
found under one path is found under the last one, too, if it matches there: this is the
path under which the directory will be watched.
-/

namespace LogMind

namespace WatchedTree

variable {tree : DirectoryTree} {fnmatch : Bytes → Bytes → Bool} {t u : WatchedTree}
  {path dir : Bytes} {inode d : Nat} {name : FileName} {state : FileState Cell}

/-! ## Files and their scans -/

/-- The last of the paths to a directory. -/
def lastPath (tree : DirectoryTree) (dirs : List Bytes) (d : Nat) : Option Bytes :=
  (dirs.filter fun dir => tree.resolve dir = some d).getLast?

/-- Every file has one name, and the scans were of files that exist. -/
structure Grounded (tree : DirectoryTree) (t : WatchedTree) : Prop where
  fresh : ∀ key inode, t.names.lookup key = some inode → inode < t.nextInode
  single : ∀ key key' inode, t.names.lookup key = some inode →
    t.names.lookup key' = some inode → key = key'
  unused : ∀ inode, t.nextInode ≤ inode → t.contents inode = []
  found : ∀ scan ∈ t.scanned, ∃ d, tree.resolve scan.dir = some d ∧
    t.names.lookup (d, scan.name) = some scan.inode
  sized : ∀ scan ∈ t.scanned, scan.size ≤ t.size scan.inode
  once : ∀ scan ∈ t.scanned, ∀ other ∈ t.scanned, scan.path = other.path → scan = other

theorem lastPath_append_singleton (tree : DirectoryTree) (dirs : List Bytes) (dir : Bytes)
    (d : Nat) :
    lastPath tree (dirs ++ [dir]) d =
      if tree.resolve dir = some d then some dir else lastPath tree dirs d := by
  unfold lastPath
  rw [List.filter_append]
  split
  case isTrue h => simp [h]
  case isFalse h => simp [h]

theorem mem_of_lastPath {dirs : List Bytes} (h : lastPath tree dirs d = some dir) :
    dir ∈ dirs ∧ tree.resolve dir = some d := by
  have hmem := List.mem_filter.mp (List.mem_of_getLast? h)
  exact ⟨hmem.1, by simpa using hmem.2⟩

/-- The last path is not in front of another one. -/
theorem lastPath_cases {before after : List Bytes} {other : Bytes}
    (h : lastPath tree (before ++ other :: after) d = some dir)
    (hother : tree.resolve other = some d) : dir = other ∨ dir ∈ after := by
  unfold lastPath at h
  rw [List.filter_append, List.filter_cons_of_pos (by simpa using hother),
    List.getLast?_append_of_ne_nil _ (List.cons_ne_nil _ _)] at h
  rcases List.mem_cons.mp (List.mem_of_getLast? h) with hdir | hdir
  · exact .inl hdir
  · exact .inr (List.mem_filter.mp hdir).1

/-- A path leads to the file of its entry. -/
theorem locate_of_leads (hresolve : tree.resolve (FileWatcher.parentDirOf path) = some d)
    (hname : FileWatcher.filenameOf path = name.bytes) :
    t.locate tree path = t.names.lookup (d, name) := by
  simp [locate, hresolve, hname, FileName.ofBytes_bytes]

theorem ne_nil_of_resolve (h : tree.resolve dir = some d) : dir ≠ [] := by
  rintro rfl
  rw [tree.resolve_nil] at h
  cases h

theorem locate_iterPath (h : tree.resolve dir = some d) (name : FileName) :
    t.locate tree (FileWatcher.iterPath dir name.bytes) = t.names.lookup (d, name) := by
  obtain ⟨hresolve, hname⟩ := FileWatcher.iterPath_leads tree (ne_nil_of_resolve h) name
  exact locate_of_leads (hresolve.trans h) hname

theorem locate_joinPath (h : tree.resolve dir = some d) (name : FileName) :
    t.locate tree (FileWatcher.joinPath dir name.bytes) = t.names.lookup (d, name) := by
  obtain ⟨hresolve, hname⟩ := FileWatcher.joinPath_leads tree (ne_nil_of_resolve h) name
  exact locate_of_leads (hresolve.trans h) hname

theorem Grounded.locate_scan (h : Grounded tree t) {scan : Scan} (hscan : scan ∈ t.scanned) :
    t.locate tree scan.path = some scan.inode := by
  obtain ⟨d, hd, hlookup⟩ := h.found scan hscan
  exact (locate_iterPath hd scan.name).trans hlookup

/-- The scans of a file are of its one name. -/
theorem Grounded.scan_of_lookup (h : Grounded tree t) {scan : Scan} (hscan : scan ∈ t.scanned)
    (hlookup : t.names.lookup (d, name) = some scan.inode) :
    tree.resolve scan.dir = some d ∧ scan.name = name := by
  obtain ⟨d', hd', hlookup'⟩ := h.found scan hscan
  obtain ⟨rfl, rfl⟩ := Prod.mk.inj (h.single _ _ _ hlookup' hlookup)
  exact ⟨hd', rfl⟩

/-- A scan of a file that exists is added. -/
theorem Grounded.record (h : Grounded tree t) (hdir : tree.resolve dir = some d)
    (hlookup : t.names.lookup (d, name) = some inode) {size : Nat} (hsize : size ≤ t.size inode)
    (hnew : ∀ scan ∈ t.scanned, scan.path ≠ FileWatcher.iterPath dir name.bytes) :
    Grounded tree { t with scanned := t.scanned ++ [⟨dir, name, inode, size⟩] } := by
  refine ⟨h.fresh, h.single, h.unused, ?_, ?_, ?_⟩
  · intro scan hscan
    rcases List.mem_append.mp hscan with hscan | hscan
    · exact h.found scan hscan
    · rw [List.mem_singleton.mp hscan]
      exact ⟨d, hdir, hlookup⟩
  · intro scan hscan
    rcases List.mem_append.mp hscan with hscan | hscan
    · exact h.sized scan hscan
    · rw [List.mem_singleton.mp hscan]
      exact hsize
  · intro scan hscan other hother heq
    rcases List.mem_append.mp hscan with hscan | hscan
    · rcases List.mem_append.mp hother with hother | hother
      · exact h.once scan hscan other hother heq
      · rw [List.mem_singleton.mp hother] at heq
        exact absurd heq (hnew scan hscan)
    · rcases List.mem_append.mp hother with hother | hother
      · rw [List.mem_singleton.mp hscan] at heq
        exact absurd heq.symm (hnew other hother)
      · rw [List.mem_singleton.mp hscan, List.mem_singleton.mp hother]

theorem Skipped.mono {scanned : List Scan} {position later : Nat}
    (h : Skipped scanned inode path position) (hle : position ≤ later) :
    Skipped scanned inode path later := by
  intro scan hscan hinode
  obtain ⟨hnamed, other, hother, hsame, hsize⟩ := h scan hscan hinode
  exact ⟨fun hnames => (hnamed hnames).trans hle, other, hother, hsame, hsize.trans hle⟩

/-- No scan has found the file. -/
theorem Skipped.of_unscanned {scanned : List Scan} (h : ∀ scan ∈ scanned, scan.inode ≠ inode)
    (path : Bytes) (position : Nat) : Skipped scanned inode path position :=
  fun scan hscan hinode => absurd hinode (h scan hscan)

/-- No file and no scan is touched. -/
def Still (t u : WatchedTree) : Prop :=
  u.names = t.names ∧ u.contents = t.contents ∧ u.nextInode = t.nextInode ∧
    u.scanned = t.scanned

theorem Grounded.still (h : Grounded tree t) (hstill : Still t u) : Grounded tree u := by
  obtain ⟨hnames, hcontents, hnext, hscanned⟩ := hstill
  have hsize : ∀ inode, u.size inode = t.size inode := fun inode => by
    unfold WatchedTree.size
    rw [hcontents]
  constructor
  · rw [hnames, hnext]
    exact h.fresh
  · rw [hnames]
    exact h.single
  · rw [hcontents, hnext]
    exact h.unused
  · rw [hnames, hscanned]
    exact h.found
  · simp only [hscanned, hsize]
    exact h.sized
  · rw [hscanned]
    exact h.once

/-! ## What writers do -/

/-- Files are made and grow, and events are queued. -/
structure Grows (t u : WatchedTree) : Prop where
  names : ∀ key inode, t.names.lookup key = some inode → u.names.lookup key = some inode
  size : ∀ inode, t.size inode ≤ u.size inode
  queue : ∀ wd name kind, Notice.entry wd name kind ∈ u.queue →
    Notice.entry wd name kind ∈ t.queue ∨
      t.watchMap ≠ [] ∧ ∃ inode, u.names.lookup (wd, name) = some inode ∧
        (kind = .modify ∨ kind = .create ∧ t.nextInode ≤ inode)
  dirPatterns : u.dirPatterns = t.dirPatterns
  dirs : u.dirs = t.dirs
  watchMap : u.watchMap = t.watchMap
  files : u.files = t.files
  phase : u.phase = t.phase
  drain : u.drain = t.drain
  emitted : u.emitted = t.emitted
  scanned : u.scanned = t.scanned

theorem ne_nil_of_isWatched (h : t.isWatched d = true) : t.watchMap ≠ [] := by
  intro hnil
  rw [isWatched, hnil] at h
  cases h

theorem Grows.notify {queued : Bool} {kind : EventKind} (h : Grows t u)
    (hqueue : u.queue = t.queue) (hlookup : u.names.lookup (d, name) = some inode)
    (hkind : kind = .modify ∨ kind = .create ∧ t.nextInode ≤ inode) :
    Grows t (u.notify d name kind queued) := by
  unfold WatchedTree.notify
  split
  case isTrue hqueued =>
    refine ⟨h.names, h.size, fun wd other kind' hmem => ?_, h.dirPatterns, h.dirs, h.watchMap,
      h.files, h.phase, h.drain, h.emitted, h.scanned⟩
    rcases List.mem_append.mp hmem with hmem | hmem
    · exact .inl (hqueue ▸ hmem)
    · obtain ⟨rfl, rfl, rfl⟩ := Notice.entry.inj (List.mem_singleton.mp hmem)
      have hwatched : u.isWatched wd = true := (Bool.and_eq_true _ _ ▸ hqueued).2
      exact .inr ⟨h.watchMap ▸ ne_nil_of_isWatched hwatched, inode, hlookup, hkind⟩
  case isFalse => exact h

theorem Grounded.notify (h : Grounded tree t) (d : Nat) (name : FileName) (kind : EventKind)
    (queued : Bool) : Grounded tree (t.notify d name kind queued) := by
  unfold WatchedTree.notify
  split
  · exact ⟨h.fresh, h.single, h.unused, h.found, h.sized, h.once⟩
  · exact h

/-- The scanned files stay where they are and keep what they hold. -/
theorem Grounded.of_grows (h : Grounded tree t) (hgrows : Grows t u)
    (hfresh : ∀ key inode, u.names.lookup key = some inode → inode < u.nextInode)
    (hsingle : ∀ key key' inode, u.names.lookup key = some inode →
      u.names.lookup key' = some inode → key = key')
    (hunused : ∀ inode, u.nextInode ≤ inode → u.contents inode = []) : Grounded tree u where
  fresh := hfresh
  single := hsingle
  unused := hunused
  found scan hscan := by
    rw [hgrows.scanned] at hscan
    obtain ⟨d, hd, hlookup⟩ := h.found scan hscan
    exact ⟨d, hd, hgrows.names _ _ hlookup⟩
  sized scan hscan := by
    rw [hgrows.scanned] at hscan
    exact (h.sized scan hscan).trans (hgrows.size scan.inode)
  once scan hscan other hother := by
    rw [hgrows.scanned] at hscan hother
    exact h.once scan hscan other hother

theorem Grounded.create (h : Grounded tree t) {queued : Bool}
    (hstep : t.create d name queued = some u) : Grounded tree u ∧ Grows t u := by
  unfold WatchedTree.create at hstep
  split at hstep
  case isTrue => cases hstep
  case isFalse hnew =>
    obtain rfl := Option.some.inj hstep
    have hnone : t.names.lookup (d, name) = none := Option.not_isSome_iff_eq_none.mp hnew
    have hother : ∀ key, key ≠ (d, name) →
        (t.names.insert (d, name) t.nextInode).lookup key = t.names.lookup key :=
      fun key hkey => AList.lookup_insert_ne hkey
    have hlookup : (t.names.insert (d, name) t.nextInode).lookup (d, name) = some t.nextInode :=
      AList.lookup_insert t.names
    have hgrows : Grows t { t with
        names := t.names.insert (d, name) t.nextInode
        contents := Function.update t.contents t.nextInode []
        nextInode := t.nextInode + 1 } := by
      refine ⟨fun key inode hkey => ?_, fun inode => ?_, fun _ _ _ hmem => .inl hmem,
        rfl, rfl, rfl, rfl, rfl, rfl, rfl, rfl⟩
      · have hne : key ≠ (d, name) := by
          rintro rfl
          rw [hnone] at hkey
          cases hkey
        exact (hother key hne).trans hkey
      · simp only [WatchedTree.size, Function.update_apply]
        split
        case isTrue heq => simp [heq, h.unused t.nextInode (Nat.le_refl _)]
        case isFalse => exact Nat.le_refl _
    refine ⟨Grounded.notify (h.of_grows hgrows ?_ ?_ ?_) d name .create queued,
      hgrows.notify rfl hlookup (.inr ⟨rfl, Nat.le_refl _⟩)⟩
    · intro key inode hkey
      by_cases heq : key = (d, name)
      · rw [heq, hlookup] at hkey
        exact Nat.lt_succ_of_le (Nat.le_of_eq (Option.some.inj hkey).symm)
      · rw [hother key heq] at hkey
        exact Nat.lt_succ_of_lt (h.fresh key inode hkey)
    · intro key key' inode hkey hkey'
      by_cases heq : key = (d, name)
      · by_cases heq' : key' = (d, name)
        · rw [heq, heq']
        · rw [heq, hlookup] at hkey
          rw [hother key' heq'] at hkey'
          exact absurd (h.fresh key' inode hkey') (by rw [← Option.some.inj hkey]; omega)
      · rw [hother key heq] at hkey
        by_cases heq' : key' = (d, name)
        · rw [heq', hlookup] at hkey'
          exact absurd (h.fresh key inode hkey) (by rw [← Option.some.inj hkey']; omega)
        · rw [hother key' heq'] at hkey'
          exact h.single key key' inode hkey hkey'
    · intro inode hinode
      have hne : inode ≠ t.nextInode := by
        have : t.nextInode + 1 ≤ inode := hinode
        omega
      simp only [Function.update_of_ne hne]
      exact h.unused inode (Nat.le_of_succ_le hinode)

theorem Grounded.append (h : Grounded tree t) {bytes : Bytes} {queued : Bool}
    (hstep : t.append d name bytes queued = some u) : Grounded tree u ∧ Grows t u := by
  obtain ⟨i, hlookup, rfl⟩ := Option.map_eq_some_iff.mp hstep
  have hgrows : Grows t { t with
      contents := Function.update t.contents i (t.contents i ++ bytes) } := by
    refine ⟨fun _ _ hkey => hkey, fun inode => ?_, fun _ _ _ hmem => .inl hmem,
      rfl, rfl, rfl, rfl, rfl, rfl, rfl, rfl⟩
    simp only [WatchedTree.size, Function.update_apply]
    split
    case isTrue heq => simp [heq]
    case isFalse => exact Nat.le_refl _
  refine ⟨Grounded.notify (h.of_grows hgrows h.fresh h.single fun inode hinode => ?_) d name
    .modify queued, hgrows.notify rfl hlookup (.inl rfl)⟩
  have hne : inode ≠ i := by
    have hlt := h.fresh _ _ hlookup
    have : t.nextInode ≤ inode := hinode
    omega
  simp only [Function.update_of_ne hne]
  exact h.unused inode hinode

theorem Grows.locate (h : Grows t u) (hlocate : t.locate tree path = some inode) :
    u.locate tree path = some inode := by
  simp only [WatchedTree.locate, Option.bind_eq_some_iff] at hlocate ⊢
  obtain ⟨d, hd, name, hname, hlookup⟩ := hlocate
  exact ⟨d, hd, name, hname, h.names _ _ hlookup⟩

/-! ## While `start` scans -/

/-- `start` has not watched a directory yet. -/
def Prime : WatchPhase → Prop
  | .stopped | .scanning true _ | .visiting true _ _ _ => True
  | _ => False

theorem eq_false_of_scanning {prime : Bool} {dirs : List Bytes}
    (h : ¬ Prime (.scanning prime dirs)) : prime = false := by
  cases prime with
  | false => rfl
  | true => exact absurd trivial h

theorem eq_false_of_visiting {prime : Bool} {names : List FileName} {dirs : List Bytes}
    (h : ¬ Prime (.visiting prime dir names dirs)) : prime = false := by
  cases prime with
  | false => rfl
  | true => exact absurd trivial h

/-- The directories that the first scan has not left. -/
def unscanned : WatchPhase → List Bytes
  | .scanning true dirs => dirs
  | .visiting true dir _ dirs => dir :: dirs
  | _ => []

/-- The first scan has still to come to this entry. -/
def Ahead (dir : Bytes) (name : FileName) : WatchPhase → Prop
  | .stopped => True
  | .scanning true dirs => dir ∈ dirs
  | .visiting true current names dirs => dir ∈ dirs ∨ dir = current ∧ name ∈ names
  | _ => False

theorem Ahead.erase {current : Bytes} {names : List FileName} {dirs : List Bytes}
    (h : Ahead dir name (.visiting true current names dirs)) (visited : FileName) :
    Ahead dir name (.visiting true current (names.erase visited) dirs) ∨
      dir = current ∧ name = visited := by
  rcases h with hdir | ⟨hdir, hname⟩
  · exact .inl (.inl hdir)
  · by_cases heq : name = visited
    · exact .inr ⟨hdir, heq⟩
    · exact .inl (.inr ⟨hdir, (List.mem_erase_of_ne heq).mpr hname⟩)

/-- Every tracked file is where its scan left it, and a scanned file will have been scanned
under the last path to its directory, too, if it matches there. -/
structure Priming (tree : DirectoryTree) (fnmatch : Bytes → Bytes → Bool) (t : WatchedTree) :
    Prop where
  grounded : Grounded tree t
  prime : Prime t.phase
  emitted : t.emitted = []
  drain : t.drain = none
  watchMap : t.watchMap = []
  queue : ∀ wd name kind, Notice.entry wd name kind ∉ t.queue
  left : ∀ path state, t.files.lookup path = some state → ∃ scan ∈ t.scanned,
    scan.path = path ∧ state = { offset := scan.size, inode := scan.inode }
  tracked : ∀ scan ∈ t.scanned, scan.path ∈ t.files
  split : ∃ done, t.dirs = done ++ unscanned t.phase
  covered : ∀ scan ∈ t.scanned, ∀ d dir, tree.resolve scan.dir = some d →
    lastPath tree t.dirs d = some dir → t.matching fnmatch dir scan.name = true →
      Ahead dir scan.name t.phase ∨
        ∃ other ∈ t.scanned, other.path = FileWatcher.iterPath dir scan.name.bytes

theorem start_grounded : Grounded tree {} where
  fresh _ _ h := by cases h
  single _ _ _ h := by cases h
  unused _ _ := rfl
  found _ h := absurd h List.not_mem_nil
  sized _ h := absurd h List.not_mem_nil
  once _ h := absurd h List.not_mem_nil

theorem start_priming : Priming tree fnmatch {} where
  grounded := start_grounded
  prime := trivial
  emitted := rfl
  drain := rfl
  watchMap := rfl
  queue _ _ _ := List.not_mem_nil
  left _ _ h := by cases h
  tracked _ h := absurd h List.not_mem_nil
  split := ⟨[], rfl⟩
  covered _ h := absurd h List.not_mem_nil

theorem Grows.matching (h : Grows t u) (dir : Bytes) (name : FileName) :
    u.matching fnmatch dir name = t.matching fnmatch dir name := by
  unfold WatchedTree.matching
  rw [h.dirPatterns]

theorem Priming.grows (h : Priming tree fnmatch t) (hgrounded : Grounded tree u)
    (hgrows : Grows t u) : Priming tree fnmatch u where
  grounded := hgrounded
  prime := by
    rw [hgrows.phase]
    exact h.prime
  emitted := hgrows.emitted.trans h.emitted
  drain := hgrows.drain.trans h.drain
  watchMap := hgrows.watchMap.trans h.watchMap
  queue wd name kind hmem := by
    rcases hgrows.queue wd name kind hmem with hmem | ⟨hne, -⟩
    · exact h.queue wd name kind hmem
    · exact hne h.watchMap
  left := by
    rw [hgrows.files, hgrows.scanned]
    exact h.left
  tracked := by
    rw [hgrows.files, hgrows.scanned]
    exact h.tracked
  split := by
    rw [hgrows.dirs, hgrows.phase]
    exact h.split
  covered := by
    rw [hgrows.dirs, hgrows.phase, hgrows.scanned]
    simp only [hgrows.matching]
    exact h.covered

theorem Priming.register (h : Priming tree fnmatch t) {patterns : FileWatcher.DirPatterns}
    (hstep : t.register patterns = some u) : Priming tree fnmatch u := by
  unfold WatchedTree.register at hstep
  split at hstep
  case h_1 hphase =>
    obtain rfl := Option.some.inj hstep
    refine ⟨h.grounded.still ⟨rfl, rfl, rfl, rfl⟩, h.prime, h.emitted, h.drain, h.watchMap,
      h.queue, h.left, h.tracked, h.split, ?_⟩
    intro scan _ d dir _ _ _
    refine .inl ?_
    show Ahead dir scan.name t.phase
    rw [hphase]
    trivial
  case h_2 => cases hstep

theorem Priming.start (h : Priming tree fnmatch t) {dirs : List Bytes}
    (hstep : t.start dirs = some u) : Priming tree fnmatch u := by
  unfold WatchedTree.start at hstep
  split at hstep
  case h_1 =>
    split at hstep
    case isTrue =>
      obtain rfl := Option.some.inj hstep
      refine ⟨h.grounded.still ⟨rfl, rfl, rfl, rfl⟩, trivial, h.emitted, h.drain, h.watchMap,
        h.queue, h.left, h.tracked, ⟨[], rfl⟩, ?_⟩
      intro scan _ d dir _ hlast _
      exact .inl (mem_of_lastPath hlast).1
    case isFalse => cases hstep
  case h_2 => cases hstep

theorem mem_namesIn (h : t.names.lookup (d, name) = some inode) : name ∈ t.namesIn d := by
  have hkey : (d, name) ∈ t.names.keys := AList.lookup_isSome.mp (by rw [h]; rfl)
  exact List.mem_map.mpr ⟨(d, name), List.mem_filter.mpr ⟨hkey, by simp⟩, rfl⟩

/-- The scan goes on, with every entry still ahead of it or scanned. -/
theorem Priming.withPhase (h : Priming tree fnmatch t) {phase : WatchPhase} (hprime : Prime phase)
    (hsplit : ∃ done, t.dirs = done ++ unscanned phase)
    (hahead : ∀ scan ∈ t.scanned, ∀ d dir, tree.resolve scan.dir = some d →
      tree.resolve dir = some d → t.matching fnmatch dir scan.name = true →
        Ahead dir scan.name t.phase → Ahead dir scan.name phase ∨
          ∃ other ∈ t.scanned, other.path = FileWatcher.iterPath dir scan.name.bytes) :
    Priming tree fnmatch { t with phase := phase } := by
  refine ⟨h.grounded.still ⟨rfl, rfl, rfl, rfl⟩, hprime, h.emitted, h.drain, h.watchMap, h.queue,
    h.left, h.tracked, hsplit, ?_⟩
  intro scan hscan d dir hd hlast hmatch
  rcases h.covered scan hscan d dir hd hlast hmatch with hold | hold
  · exact hahead scan hscan d dir hd (mem_of_lastPath hlast).2 hmatch hold
  · exact .inr hold

/-- The scan goes past a directory that has no entry ahead of it. -/
theorem Priming.past_dir (h : Priming tree fnmatch t) {dirs : List Bytes}
    (hunscanned : unscanned t.phase = dir :: dirs)
    (hahead : ∀ other name, (tree.resolve other).isSome → Ahead other name t.phase →
      other ∈ dirs) :
    Priming tree fnmatch { t with phase := .scanning true dirs } := by
  obtain ⟨done, hdone⟩ := h.split
  rw [hunscanned] at hdone
  apply h.withPhase
  · trivial
  · exact ⟨done ++ [dir], by rw [List.append_assoc]; exact hdone⟩
  · intro scan _ d other _ hother _ hold
    exact .inl (hahead other scan.name (Option.isSome_of_mem hother) hold)

theorem Priming.enter_missing (h : Priming tree fnmatch t) {dirs : List Bytes}
    (hphase : t.phase = .scanning true (dir :: dirs)) (hdir : tree.resolve dir = none) :
    Priming tree fnmatch { t with phase := .scanning true dirs } := by
  apply h.past_dir
  · rw [hphase]
    rfl
  · intro other name hother hahead
    rw [hphase] at hahead
    rcases List.mem_cons.mp hahead with rfl | hahead
    · simp [hdir] at hother
    · exact hahead

/-- What was scanned in the directory under another path is among its names. -/
theorem Priming.enter_dir (h : Priming tree fnmatch t) {dirs : List Bytes}
    (hphase : t.phase = .scanning true (dir :: dirs))
    (hdir : tree.resolve dir = some d) :
    Priming tree fnmatch { t with phase := .visiting true dir (t.namesIn d) dirs } := by
  obtain ⟨done, hdone⟩ := h.split
  rw [hphase] at hdone
  apply h.withPhase
  · trivial
  · exact ⟨done, hdone⟩
  · intro scan hscan e other he hother _ hahead
    rw [hphase] at hahead
    rcases List.mem_cons.mp hahead with rfl | hahead
    · obtain rfl : d = e := Option.some.inj (hdir.symm.trans hother)
      obtain ⟨e, he', hlookup⟩ := h.grounded.found scan hscan
      obtain rfl : e = d := Option.some.inj (he'.symm.trans he)
      exact .inl (.inr ⟨rfl, mem_namesIn hlookup⟩)
    · exact .inl (.inl hahead)

theorem Priming.leave (h : Priming tree fnmatch t) {dirs : List Bytes}
    (hphase : t.phase = .visiting true dir [] dirs) :
    Priming tree fnmatch { t with phase := .scanning true dirs } := by
  apply h.past_dir
  · rw [hphase]
    rfl
  · intro other name _ hahead
    rw [hphase] at hahead
    rcases hahead with hahead | ⟨-, hnone⟩
    · exact hahead
    · exact absurd hnone List.not_mem_nil

/-- An entry does not match or is tracked already, under this very path. -/
theorem Priming.visit_known (h : Priming tree fnmatch t) {names : List FileName}
    {dirs : List Bytes} (hphase : t.phase = .visiting true dir names dirs)
    (hknown : t.matching fnmatch dir name = true → FileWatcher.iterPath dir name.bytes ∈ t.files) :
    Priming tree fnmatch { t with phase := .visiting true dir (names.erase name) dirs } := by
  have hsplit := h.split
  rw [hphase] at hsplit
  apply h.withPhase
  · trivial
  · exact hsplit
  · intro scan _ d other _ _ hmatch hahead
    rw [hphase] at hahead
    rcases hahead.erase name with hahead | ⟨rfl, heq⟩
    · exact .inl hahead
    · rw [heq] at hmatch
      obtain ⟨state, hstate⟩ :=
        Option.isSome_iff_exists.mp (AList.lookup_isSome.mpr (hknown hmatch))
      obtain ⟨scan', hscan', hpath, -⟩ := h.left _ state hstate
      exact .inr ⟨scan', hscan', by rw [hpath, heq]⟩

/-- A file is found and is tracked from its end on. -/
theorem Priming.visit_new (h : Priming tree fnmatch t) {names : List FileName}
    {dirs : List Bytes} (hphase : t.phase = .visiting true dir names dirs)
    (hdir : tree.resolve dir = some d) (hlookup : t.names.lookup (d, name) = some inode)
    (hnew : FileWatcher.iterPath dir name.bytes ∉ t.files) :
    Priming tree fnmatch { t with
      phase := .visiting true dir (names.erase name) dirs
      files := t.files.insert (FileWatcher.iterPath dir name.bytes)
        { inode := inode, offset := t.size inode }
      scanned := t.scanned ++ [⟨dir, name, inode, t.size inode⟩] } := by
  have hold : ∀ scan ∈ t.scanned, scan.path ≠ FileWatcher.iterPath dir name.bytes :=
    fun scan hscan heq => hnew (heq ▸ h.tracked scan hscan)
  have hgrounded := h.grounded.record hdir hlookup (Nat.le_refl (t.size inode)) hold
  obtain ⟨done, hdone⟩ := h.split
  rw [hphase] at hdone
  refine ⟨hgrounded.still ⟨rfl, rfl, rfl, rfl⟩, trivial, h.emitted, h.drain, h.watchMap, h.queue,
    ?_, ?_, ⟨done, hdone⟩, ?_⟩
  · intro path state hstate
    by_cases heq : path = FileWatcher.iterPath dir name.bytes
    · rw [heq, AList.lookup_insert] at hstate
      exact ⟨_, List.mem_append_right _ List.mem_cons_self, heq.symm,
        (Option.some.inj hstate).symm⟩
    · rw [AList.lookup_insert_ne heq] at hstate
      obtain ⟨scan, hscan, hleft⟩ := h.left path state hstate
      exact ⟨scan, List.mem_append_left _ hscan, hleft⟩
  · intro scan hscan
    rw [AList.mem_insert]
    rcases List.mem_append.mp hscan with hscan | hscan
    · exact .inr (h.tracked scan hscan)
    · rw [List.mem_singleton.mp hscan]
      exact .inl rfl
  · intro scan hscan e other he hlast hmatch
    rcases List.mem_append.mp hscan with hscan | hscan
    · rcases h.covered scan hscan e other he hlast hmatch with hahead | ⟨scan', hscan', hpath⟩
      · rw [hphase] at hahead
        rcases hahead.erase name with hahead | ⟨rfl, heq⟩
        · exact .inl hahead
        · rw [heq]
          exact .inr ⟨_, List.mem_append_right _ List.mem_cons_self, rfl⟩
      · exact .inr ⟨scan', List.mem_append_left _ hscan', hpath⟩
    · -- the file is scanned under this path: another last path is still to come
      rw [List.mem_singleton.mp hscan] at he ⊢
      obtain rfl : d = e := Option.some.inj (hdir.symm.trans he)
      have hlast' : lastPath tree (done ++ dir :: dirs) d = some other := hdone ▸ hlast
      rcases lastPath_cases hlast' hdir with rfl | hafter
      · exact .inr ⟨_, List.mem_append_right _ List.mem_cons_self, rfl⟩
      · exact .inl (.inl hafter)

end WatchedTree

end LogMind
