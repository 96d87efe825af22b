import Mathlib.Data.List.DropRight
import LogMind.Watcher.Priming

/-!
# Content present at the start is skipped

Behind the first scan, every position that a tracked file may still hand out is one that
the scans allow, and a path that is not tracked leads to a file that no scan has found.
This rests on the spelling of the keys: a directory is watched under the path that was
scanned last, and for every path but "." an event has the key of that scan.
-/

namespace LogMind

namespace WatchedTree

variable {tree : DirectoryTree} {fnmatch : Bytes → Bytes → Bool} {t u : WatchedTree}
  {path dir : Bytes} {inode d : Nat} {name : FileName} {state : FileState Cell}

/-- The directories that are still to be watched. -/
def unwatched : WatchPhase → List Bytes
  | .watching dirs => dirs
  | _ => []

/-- What is still to come behind an overflow. -/
def Rounds (t : WatchedTree) : Prop :=
  match t.phase with
  | .scanning _ dirs => ∀ dir ∈ dirs, ∃ wd, (wd, dir) ∈ t.watchMap
  | .visiting _ dir _ dirs => ∀ other ∈ dir :: dirs, ∃ wd, (wd, other) ∈ t.watchMap
  | .draining paths => ∀ path ∈ paths, path ∈ t.files
  | _ => True

/-- The scans allow what the file may still hand out. -/
def Tracks (tree : DirectoryTree) (t : WatchedTree) (path : Bytes) (state : FileState Cell) :
    Prop :=
  ∃ inode, t.locate tree path = some inode ∧ (state.inode = 0 ∨ state.inode = inode) ∧
    state.offset ≤ t.size inode ∧ Skipped t.scanned inode path state.offset ∧
      ∀ c ∈ state.pending, c.inode = inode ∧ Skipped t.scanned inode path c.position

def Drains (tree : DirectoryTree) (t : WatchedTree) : Option DrainPhase → Prop
  | none => True
  | some (.statting path) => ∃ inode, t.locate tree path = some inode ∧
      (path ∉ t.files → Skipped t.scanned inode path 0)
  | some (.opening path) => path ∈ t.files
  | some (.reading path inode) => path ∈ t.files ∧ t.locate tree path = some inode

structure Running (tree : DirectoryTree) (fnmatch : Bytes → Bytes → Bool) (t : WatchedTree) :
    Prop where
  grounded : Grounded tree t
  prime : ¬ Prime t.phase
  tracked : ∀ scan ∈ t.scanned, scan.path ∈ t.files
  covered : ∀ scan ∈ t.scanned, ∀ d dir, tree.resolve scan.dir = some d →
    lastPath tree t.dirs d = some dir → t.matching fnmatch dir scan.name = true →
      ∃ other ∈ t.scanned, other.path = FileWatcher.iterPath dir scan.name.bytes
  watched : ∃ added, t.dirs = added ++ unwatched t.phase ∧
    ∀ w ∈ t.watchMap, lastPath tree added w.1 = some w.2
  queue : ∀ wd name kind, Notice.entry wd name kind ∈ t.queue →
    ∃ inode, t.names.lookup (wd, name) = some inode ∧
      (kind = .modify ∨ kind = .create ∧ ∀ scan ∈ t.scanned, scan.inode ≠ inode)
  tracks : ∀ path state, t.files.lookup path = some state → Tracks tree t path state
  drains : Drains tree t t.drain
  rounds : Rounds t
  skips : SkipsPresent t

/-- A spelling with a slash is the path of the scan. -/
theorem path_of_names {scan : Scan} (hslash : slash ∈ path) (hnames : scan.Names path) :
    path = scan.path := by
  rcases hnames with hpath | hpath
  · exact hpath
  · by_cases hdot : scan.dir = FileWatcher.dot
    · rw [hpath, hdot, FileWatcher.joinPath_dot] at hslash
      exact absurd hslash scan.name.no_slash
    · exact hpath.trans ((FileWatcher.joinPath_eq_iterPath_iff _ _).mpr hdot)

theorem Grounded.slash_mem (h : Grounded tree t) {scan : Scan} (hscan : scan ∈ t.scanned) :
    slash ∈ scan.path := by
  obtain ⟨d, hd, -⟩ := h.found scan hscan
  exact FileWatcher.slash_mem_iterPath (ne_nil_of_resolve hd) _

/-- Behind its own scan a file may be read. -/
theorem Grounded.skipped_scan (h : Grounded tree t) {scan : Scan} (hscan : scan ∈ t.scanned) :
    Skipped t.scanned scan.inode scan.path scan.size := by
  intro other hother _
  refine ⟨fun hnames => ?_, scan, hscan, rfl, Nat.le_refl _⟩
  rw [h.once scan hscan other hother (path_of_names (h.slash_mem hscan) hnames)]

/-- The last scan ends. -/
theorem Priming.running (h : Priming tree fnmatch t) (hphase : t.phase = .scanning true []) :
    Running tree fnmatch { t with phase := .watching t.dirs } := by
  refine ⟨h.grounded.still ⟨rfl, rfl, rfl, rfl⟩, id, h.tracked, ?_, ⟨[], rfl, fun w hw => ?_⟩,
    fun wd name kind hmem => absurd hmem (h.queue wd name kind), fun path state hstate => ?_, ?_,
    trivial, ?_⟩
  · intro scan hscan d dir hd hlast hmatch
    rcases h.covered scan hscan d dir hd hlast hmatch with hahead | hother
    · rw [hphase] at hahead
      exact absurd hahead List.not_mem_nil
    · exact hother
  · rw [h.watchMap] at hw
    exact absurd hw List.not_mem_nil
  · obtain ⟨scan, hscan, rfl, rfl⟩ := h.left path state hstate
    exact ⟨scan.inode, h.grounded.locate_scan hscan, .inr rfl, h.grounded.sized scan hscan,
      h.grounded.skipped_scan hscan, fun _ hc => absurd hc List.not_mem_nil⟩
  · show Drains tree _ t.drain
    rw [h.drain]
    trivial
  · intro passed hpassed
    rw [h.emitted] at hpassed
    exact absurd hpassed List.not_mem_nil

/-! ## Where a step leaves most as it is -/

theorem Tracks.grows (h : Tracks tree t path state) (hgrows : Grows t u) :
    Tracks tree u path state := by
  obtain ⟨inode, hlocate, hinode, hoffset, hskipped, hpending⟩ := h
  rw [Tracks, hgrows.scanned]
  exact ⟨inode, hgrows.locate hlocate, hinode, hoffset.trans (hgrows.size inode), hskipped,
    hpending⟩

/-- A file that is tracked from its first byte on. -/
theorem Tracks.of_start (hlocate : t.locate tree path = some inode) {known : Nat}
    (hknown : known = 0 ∨ known = inode) (hskipped : Skipped t.scanned inode path 0) :
    Tracks tree t path { inode := known } :=
  ⟨inode, hlocate, hknown, Nat.zero_le _, hskipped, fun _ hc => absurd hc List.not_mem_nil⟩

theorem mem_insert_self (files : AList fun _ : Bytes => FileState Cell) (path : Bytes)
    (state : FileState Cell) : path ∈ files.insert path state :=
  AList.mem_insert files |>.mpr (.inl rfl)

theorem Drains.grows {drain : Option DrainPhase} (h : Drains tree t drain) (hgrows : Grows t u) :
    Drains tree u drain := by
  match drain with
  | none => trivial
  | some (.statting path) =>
      obtain ⟨inode, hlocate, hnew⟩ := h
      rw [Drains, hgrows.files, hgrows.scanned]
      exact ⟨inode, hgrows.locate hlocate, hnew⟩
  | some (.opening path) =>
      rw [Drains, hgrows.files]
      exact h
  | some (.reading path inode) =>
      rw [Drains, hgrows.files]
      exact ⟨h.1, hgrows.locate h.2⟩

theorem Running.grows (h : Running tree fnmatch t) (hgrounded : Grounded tree u)
    (hgrows : Grows t u) : Running tree fnmatch u where
  grounded := hgrounded
  prime := by
    rw [hgrows.phase]
    exact h.prime
  tracked := by
    rw [hgrows.scanned, hgrows.files]
    exact h.tracked
  covered := by
    rw [hgrows.scanned, hgrows.dirs]
    simp only [hgrows.matching]
    exact h.covered
  watched := by
    rw [hgrows.dirs, hgrows.phase, hgrows.watchMap]
    exact h.watched
  queue wd name kind hmem := by
    rw [hgrows.scanned]
    rcases hgrows.queue wd name kind hmem with hmem | ⟨-, inode, hlookup, hkind⟩
    · obtain ⟨inode, hlookup, hkind⟩ := h.queue wd name kind hmem
      exact ⟨inode, hgrows.names _ _ hlookup, hkind⟩
    · refine ⟨inode, hlookup, hkind.imp id fun ⟨hcreate, hnew⟩ => ⟨hcreate, ?_⟩⟩
      -- the file is made behind the scans
      intro scan hscan heq
      obtain ⟨d, -, hold⟩ := h.grounded.found scan hscan
      have hlt := h.grounded.fresh _ _ hold
      omega
  tracks := by
    rw [hgrows.files]
    exact fun path state hstate => (h.tracks path state hstate).grows hgrows
  drains := by
    rw [hgrows.drain]
    exact h.drains.grows hgrows
  rounds := by
    unfold Rounds
    rw [hgrows.phase, hgrows.watchMap, hgrows.files]
    exact h.rounds
  skips := by
    unfold SkipsPresent
    rw [hgrows.emitted, hgrows.scanned]
    exact h.skips

theorem Running.withDrain (h : Running tree fnmatch t) {drain : Option DrainPhase}
    (hdrain : Drains tree t drain) : Running tree fnmatch { t with drain := drain } :=
  ⟨h.grounded.still ⟨rfl, rfl, rfl, rfl⟩, h.prime, h.tracked, h.covered, h.watched, h.queue,
    h.tracks, hdrain, h.rounds, h.skips⟩

theorem Running.withQueue (h : Running tree fnmatch t) {queue : List Notice}
    (hqueue : ∀ wd name kind, Notice.entry wd name kind ∈ queue →
      Notice.entry wd name kind ∈ t.queue) : Running tree fnmatch { t with queue := queue } :=
  ⟨h.grounded.still ⟨rfl, rfl, rfl, rfl⟩, h.prime, h.tracked, h.covered, h.watched,
    fun wd name kind hmem => h.queue wd name kind (hqueue wd name kind hmem), h.tracks, h.drains,
    h.rounds, h.skips⟩

theorem Running.withPhase (h : Running tree fnmatch t) {phase : WatchPhase}
    (hprime : ¬ Prime phase) (hunwatched : unwatched phase = unwatched t.phase)
    (hrounds : Rounds { t with phase := phase }) :
    Running tree fnmatch { t with phase := phase } := by
  refine ⟨h.grounded.still ⟨rfl, rfl, rfl, rfl⟩, hprime, h.tracked, h.covered, ?_, h.queue,
    h.tracks, h.drains, hrounds, h.skips⟩
  obtain ⟨added, hadded, hlast⟩ := h.watched
  exact ⟨added, hadded.trans (by rw [hunwatched]), hlast⟩

/-- A file is tracked, or goes on being tracked. -/
theorem Running.track (h : Running tree fnmatch t) (hstate : Tracks tree t path state)
    {drain : Option DrainPhase}
    (hdrain : Drains tree { t with files := t.files.insert path state } drain) :
    Running tree fnmatch { t with files := t.files.insert path state, drain := drain } := by
  have hmem : ∀ other, other ∈ t.files → other ∈ t.files.insert path state :=
    fun other hother => AList.mem_insert _ |>.mpr (.inr hother)
  refine ⟨h.grounded.still ⟨rfl, rfl, rfl, rfl⟩, h.prime,
    fun scan hscan => hmem _ (h.tracked scan hscan), h.covered, h.watched, h.queue,
    fun other found hfound => ?_, hdrain, ?_, h.skips⟩
  · by_cases heq : other = path
    · subst heq
      rw [AList.lookup_insert] at hfound
      exact Option.some.inj hfound ▸ hstate
    · rw [AList.lookup_insert_ne heq] at hfound
      exact h.tracks other found hfound
  · have hrounds := h.rounds
    unfold Rounds at hrounds ⊢
    simp only
    split at hrounds
    case h_1 => exact hrounds
    case h_2 => exact hrounds
    case h_3 => exact fun other hother => hmem other (hrounds other hother)
    case h_4 => trivial

/-! ## The keys of the events -/

/-- Once every directory is watched, a watch is kept under the last path. -/
theorem Running.lastPath_of_watched (h : Running tree fnmatch t) (hall : unwatched t.phase = [])
    {wd : Nat} (hw : (wd, dir) ∈ t.watchMap) : lastPath tree t.dirs wd = some dir := by
  obtain ⟨added, hadded, hlast⟩ := h.watched
  rw [hall, List.append_nil] at hadded
  rw [hadded]
  exact hlast _ hw

/-- What a scan found in a watched directory was scanned under the path of the watch. -/
theorem Running.scan_of_watched (h : Running tree fnmatch t)
    (hall : unwatched t.phase = []) {wd : Nat} (hw : (wd, dir) ∈ t.watchMap)
    (hlookup : t.names.lookup (wd, name) = some inode)
    (hmatch : t.matching fnmatch dir name = true) {scan : Scan} (hscan : scan ∈ t.scanned)
    (hinode : scan.inode = inode) :
    ∃ other ∈ t.scanned, other.path = FileWatcher.iterPath dir name.bytes ∧
      other.inode = inode := by
  subst hinode
  obtain ⟨hresolve, hname⟩ := h.grounded.scan_of_lookup hscan hlookup
  have hlast := h.lastPath_of_watched hall hw
  obtain ⟨other, hother, hpath⟩ := h.covered scan hscan wd dir hresolve hlast (hname ▸ hmatch)
  rw [hname] at hpath
  refine ⟨other, hother, hpath, ?_⟩
  have hlocate := h.grounded.locate_scan hother
  rw [hpath, locate_iterPath (mem_of_lastPath hlast).2, hlookup] at hlocate
  exact (Option.some.inj hlocate).symm

/-- Under the spelling of the scans, only a file that no scan has found is new. -/
theorem Running.unscanned_of_new (h : Running tree fnmatch t)
    (hall : unwatched t.phase = []) {wd : Nat} (hw : (wd, dir) ∈ t.watchMap)
    (hlookup : t.names.lookup (wd, name) = some inode)
    (hmatch : t.matching fnmatch dir name = true)
    (hnew : FileWatcher.iterPath dir name.bytes ∉ t.files) :
    ∀ scan ∈ t.scanned, scan.inode ≠ inode := by
  intro scan hscan hinode
  obtain ⟨other, hother, hpath, -⟩ := h.scan_of_watched hall hw hlookup hmatch hscan hinode
  exact hnew (hpath ▸ h.tracked other hother)

/-- Under the spelling of the events, too, unless it is that of ".": there the scan must
have found the file empty. -/
theorem Running.skipped_of_new (h : Running tree fnmatch t)
    (hall : unwatched t.phase = []) {wd : Nat} (hw : (wd, dir) ∈ t.watchMap)
    (hlookup : t.names.lookup (wd, name) = some inode)
    (hmatch : t.matching fnmatch dir name = true)
    (hempty : dir = FileWatcher.dot → ∀ scan ∈ t.scanned,
      scan.path = FileWatcher.iterPath FileWatcher.dot name.bytes → scan.size = 0)
    (hnew : FileWatcher.joinPath dir name.bytes ∉ t.files) :
    Skipped t.scanned inode (FileWatcher.joinPath dir name.bytes) 0 := by
  by_cases hdot : dir = FileWatcher.dot
  · have hzero := hempty hdot
    subst hdot
    rw [FileWatcher.joinPath_dot] at hnew ⊢
    intro scan hscan hinode
    obtain ⟨other, hother, hpath, hsame⟩ := h.scan_of_watched hall hw hlookup hmatch hscan hinode
    refine ⟨fun hnames => ?_, other, hother, hsame, Nat.le_of_eq (hzero other hother hpath)⟩
    rcases hnames with heq | heq
    · -- the path of a scan has a slash
      exact absurd (heq ▸ h.grounded.slash_mem hscan) name.no_slash
    · by_cases hscandot : scan.dir = FileWatcher.dot
      · rw [hscandot, FileWatcher.joinPath_dot] at heq
        refine Nat.le_of_eq (hzero scan hscan ?_)
        rw [Scan.path, hscandot, heq]
      · rw [(FileWatcher.joinPath_eq_iterPath_iff _ _).mpr hscandot] at heq
        exact absurd (heq ▸ h.grounded.slash_mem hscan) name.no_slash
  · rw [(FileWatcher.joinPath_eq_iterPath_iff dir name.bytes).mpr hdot] at hnew ⊢
    exact Skipped.of_unscanned (h.unscanned_of_new hall hw hlookup hmatch hnew) _ 0

/-! ## The steps -/

theorem Running.enter (h : Running tree fnmatch t) (hstep : t.enter tree = some u) :
    Running tree fnmatch u := by
  have hrounds := h.rounds
  unfold WatchedTree.enter at hstep
  split at hstep
  case h_1 prime dir dirs _ hphase =>
    obtain rfl := eq_false_of_scanning (hphase ▸ h.prime)
    unfold Rounds at hrounds
    simp only [hphase] at hrounds
    split at hstep
    case h_1 =>
      obtain rfl := Option.some.inj hstep
      apply h.withPhase id (by rw [hphase]; rfl)
      exact fun other hother => hrounds other (List.mem_cons_of_mem dir hother)
    case h_2 =>
      obtain rfl := Option.some.inj hstep
      exact h.withPhase id (by rw [hphase]; rfl) hrounds
  case h_2 _ hphase =>
    have hnot := h.prime
    rw [hphase] at hnot
    exact absurd trivial hnot
  case h_3 _ hphase =>
    obtain rfl := Option.some.inj hstep
    exact h.withPhase id (by rw [hphase]; rfl) fun path hpath => AList.mem_keys.mpr hpath
  case h_4 => cases hstep

theorem Running.leave (h : Running tree fnmatch t) (hstep : t.leave = some u) :
    Running tree fnmatch u := by
  have hrounds := h.rounds
  unfold WatchedTree.leave at hstep
  split at hstep
  case h_1 prime dir dirs _ hphase =>
    obtain rfl := Option.some.inj hstep
    obtain rfl := eq_false_of_visiting (hphase ▸ h.prime)
    unfold Rounds at hrounds
    simp only [hphase] at hrounds
    apply h.withPhase id (by rw [hphase]; rfl)
    exact fun other hother => hrounds other (List.mem_cons_of_mem dir hother)
  case h_2 => cases hstep

theorem setWatch_cases {watchMap : List (Nat × Bytes)} {wd : Nat} {w : Nat × Bytes}
    (h : w ∈ setWatch watchMap wd dir) : w = (wd, dir) ∨ w ∈ watchMap ∧ w.1 ≠ wd := by
  unfold setWatch at h
  split at h
  case isTrue =>
    obtain ⟨old, hold, rfl⟩ := List.mem_map.mp h
    split
    case isTrue => exact .inl rfl
    case isFalse hne => exact .inr ⟨hold, hne⟩
  case isFalse hnone =>
    rcases List.mem_append.mp h with h | h
    · refine .inr ⟨h, fun heq => hnone ?_⟩
      exact List.any_eq_true.mpr ⟨w, h, by simpa using heq⟩
    · exact .inl (List.mem_singleton.mp h)

/-- A directory that is watched again is kept under the new path. -/
theorem Running.addWatch (h : Running tree fnmatch t) {ok : Bool}
    (hstep : t.addWatch tree ok = some u) : Running tree fnmatch u := by
  unfold WatchedTree.addWatch at hstep
  split at hstep
  case h_1 dir dirs hphase =>
    obtain ⟨added, hadded, hlast⟩ := h.watched
    rw [hphase] at hadded
    have hadded' : t.dirs = (added ++ [dir]) ++ dirs := by
      rw [List.append_assoc]
      exact hadded
    have hkeep : ∀ w ∈ t.watchMap, tree.resolve dir ≠ some w.1 →
        lastPath tree (added ++ [dir]) w.1 = some w.2 := by
      intro w hw hne
      rw [lastPath_append_singleton, if_neg hne]
      exact hlast w hw
    have hsame : (∀ w ∈ t.watchMap, tree.resolve dir ≠ some w.1) →
        Running tree fnmatch { t with phase := .watching dirs } := fun hne =>
      ⟨h.grounded.still ⟨rfl, rfl, rfl, rfl⟩, id, h.tracked, h.covered,
        ⟨added ++ [dir], hadded', fun w hw => hkeep w hw (hne w hw)⟩, h.queue, h.tracks, h.drains,
        trivial, h.skips⟩
    split at hstep
    case h_1 hnone =>
      obtain rfl := Option.some.inj hstep
      apply hsame
      intro w _
      rw [hnone]
      exact nofun
    case h_2 wd hwd =>
      simp only at hstep
      split at hstep
      case isTrue =>
        obtain rfl := Option.some.inj hstep
        refine ⟨h.grounded.still ⟨rfl, rfl, rfl, rfl⟩, id, h.tracked, h.covered,
          ⟨added ++ [dir], hadded', fun w hw => ?_⟩, h.queue, h.tracks, h.drains, trivial, h.skips⟩
        rcases setWatch_cases hw with rfl | ⟨hw, hne⟩
        · rw [lastPath_append_singleton, if_pos hwd]
        · apply hkeep w hw
          rw [hwd]
          exact fun heq => hne (Option.some.inj heq).symm
      case isFalse hnot =>
        obtain rfl := Option.some.inj hstep
        apply hsame
        intro w hw heq
        apply hnot
        have hwatched : t.isWatched wd = true := by
          refine List.any_eq_true.mpr ⟨w, hw, ?_⟩
          simpa using (Option.some.inj (hwd.symm.trans heq)).symm
        show (ok || t.isWatched wd) = true
        rw [hwatched, Bool.or_true]
  case h_2 => cases hstep

theorem Running.launch (h : Running tree fnmatch t) (hstep : t.launch = some u) :
    Running tree fnmatch u := by
  unfold WatchedTree.launch at hstep
  split at hstep
  case h_1 hphase =>
    obtain rfl := Option.some.inj hstep
    split
    · exact h.withPhase id (by rw [hphase]; rfl) trivial
    · exact h.withPhase id (by rw [hphase]; rfl) trivial
  case h_2 => cases hstep

theorem Running.drainNext (h : Running tree fnmatch t) (hstep : t.drainNext path = some u) :
    Running tree fnmatch u := by
  have hrounds := h.rounds
  unfold WatchedTree.drainNext at hstep
  split at hstep
  case h_1 paths _ hphase =>
    split at hstep
    case isTrue hpath =>
      obtain rfl := Option.some.inj hstep
      unfold Rounds at hrounds
      simp only [hphase] at hrounds
      have hfile := hrounds path (List.contains_iff_mem.mp hpath)
      obtain ⟨state, hstate⟩ := Option.isSome_iff_exists.mp (AList.lookup_isSome.mpr hfile)
      obtain ⟨inode, hlocate, -⟩ := h.tracks path state hstate
      have hphased : Running tree fnmatch { t with phase := .draining (paths.erase path) } :=
        h.withPhase id (by rw [hphase]; rfl) fun other hother =>
          hrounds other (List.mem_of_mem_erase hother)
      exact hphased.withDrain ⟨inode, hlocate, fun hnot => absurd hfile hnot⟩
    case isFalse => cases hstep
  case h_2 => cases hstep

theorem Running.drained (h : Running tree fnmatch t) (hstep : t.drained = some u) :
    Running tree fnmatch u := by
  unfold WatchedTree.drained at hstep
  split at hstep
  case h_1 hphase =>
    obtain rfl := Option.some.inj hstep
    exact h.withPhase id (by rw [hphase]; rfl) trivial
  case h_2 => cases hstep

/-- Behind an overflow an entry that is not tracked is a new file. -/
theorem Running.visit (h : Running tree fnmatch t)
    (hstep : t.visit tree fnmatch name = some u) : Running tree fnmatch u := by
  have hrounds := h.rounds
  unfold WatchedTree.visit at hstep
  split at hstep
  case h_1 prime dir names dirs _ hphase =>
    obtain ⟨d, hd, hstep⟩ := Option.bind_eq_some_iff.mp hstep
    obtain ⟨inode, hlookup, rfl⟩ := Option.map_eq_some_iff.mp hstep
    obtain rfl := eq_false_of_visiting (hphase ▸ h.prime)
    unfold Rounds at hrounds
    simp only [hphase] at hrounds
    have hphased : Running tree fnmatch
        { t with phase := .visiting false dir (names.erase name) dirs } :=
      h.withPhase id (by rw [hphase]; rfl) hrounds
    have hall : unwatched t.phase = [] := by rw [hphase]; rfl
    obtain ⟨wd, hw⟩ := hrounds dir List.mem_cons_self
    obtain rfl : d = wd :=
      Option.some.inj (hd.symm.trans (mem_of_lastPath (h.lastPath_of_watched hall hw)).2)
    simp only [Bool.false_eq_true, if_false]
    split
    case isTrue => exact hphased
    case isFalse hmatch =>
      split
      case isTrue => exact hphased
      case isFalse hnew =>
        have hmatch : t.matching fnmatch dir name = true := by
          rw [Bool.not_eq_true', Bool.not_eq_false] at hmatch
          exact hmatch
        have hlocate : t.locate tree (FileWatcher.iterPath dir name.bytes) = some inode :=
          (locate_iterPath hd name).trans hlookup
        apply hphased.track
        · exact Tracks.of_start hlocate (.inr rfl)
            (Skipped.of_unscanned (h.unscanned_of_new hall hw hlookup hmatch hnew) _ _)
        · exact ⟨inode, hlocate, fun hnot => absurd (mem_insert_self _ _ _) hnot⟩
  case h_2 => cases hstep

theorem mem_of_watchedAs {wd : Nat} (h : t.watchedAs wd = some dir) : (wd, dir) ∈ t.watchMap := by
  obtain ⟨w, hw, rfl⟩ := Option.map_eq_some_iff.mp h
  have hwd : w.1 = wd := by simpa using List.find?_some hw
  rw [← hwd]
  exact List.mem_of_find?_eq_some hw

theorem Running.handle (h : Running tree fnmatch t)
    (hknown : KeyKnown fnmatch t .handle) (hstep : t.handle fnmatch = some u) :
    Running tree fnmatch u := by
  unfold WatchedTree.handle at hstep
  split at hstep
  case h_1 rest _ hphase hqueue =>
    obtain rfl := Option.some.inj hstep
    have hpopped : Running tree fnmatch { t with queue := rest } :=
      h.withQueue fun _ _ _ hmem => hqueue ▸ List.mem_cons_of_mem _ hmem
    apply hpopped.withPhase id (by rw [hphase]; rfl)
    intro dir hdir
    obtain ⟨w, hw, rfl⟩ := List.mem_map.mp hdir
    exact ⟨w.1, hw⟩
  case h_2 wd name kind rest _ hphase hqueue =>
    have hall : unwatched t.phase = [] := by rw [hphase]; rfl
    have hpopped : Running tree fnmatch { t with queue := rest } :=
      h.withQueue fun _ _ _ hmem => hqueue ▸ List.mem_cons_of_mem _ hmem
    obtain ⟨inode, hlookup, hkind⟩ := h.queue wd name kind (hqueue ▸ List.mem_cons_self)
    have hknown := hknown rfl (.entry wd name kind) (by rw [hqueue]; rfl)
    simp only at hstep
    split at hstep
    case h_1 =>
      obtain rfl := Option.some.inj hstep
      exact hpopped
    case h_2 dir hdir =>
      have hdir : t.watchedAs wd = some dir := hdir
      have hw := mem_of_watchedAs hdir
      have hresolve := (mem_of_lastPath (h.lastPath_of_watched hall hw)).2
      have hlocate : t.locate tree (FileWatcher.joinPath dir name.bytes) = some inode :=
        (locate_joinPath hresolve name).trans hlookup
      split at hstep
      case isTrue =>
        obtain rfl := Option.some.inj hstep
        exact hpopped
      case isFalse hmatch =>
        have hmatch : t.matching fnmatch dir name = true := by
          rw [Bool.not_eq_true', Bool.not_eq_false] at hmatch
          exact hmatch
        rcases hkind with rfl | ⟨rfl, hunscanned⟩
        · obtain rfl := Option.some.inj hstep
          apply hpopped.withDrain
          refine ⟨inode, hlocate, fun hnew => ?_⟩
          apply h.skipped_of_new hall hw hlookup hmatch _ hnew
          rintro rfl
          exact hknown hdir hmatch
        · obtain rfl := Option.some.inj hstep
          apply hpopped.track
          · exact Tracks.of_start hlocate (.inl rfl) (Skipped.of_unscanned hunscanned _ _)
          · exact ⟨inode, hlocate, fun hnot => absurd (mem_insert_self _ _ _) hnot⟩
  case h_3 => cases hstep

/-- `stat` finds the file that the path has always led to, and not shorter. -/
theorem Running.stat (h : Running tree fnmatch t) (hstep : t.stat tree = some u) :
    Running tree fnmatch u := by
  have hdrains := h.drains
  unfold WatchedTree.stat at hstep
  split at hstep
  case h_1 path hdrain =>
    rw [hdrain] at hdrains
    obtain ⟨inode, hlocate, hnew⟩ := hdrains
    simp only [hlocate] at hstep
    obtain rfl := Option.some.inj hstep
    have htracks : Tracks tree t path ((t.files.lookup path).getD {}) := by
      cases hlookup : t.files.lookup path with
      | none =>
          have hskipped := hnew (AList.lookup_eq_none.mp hlookup)
          exact Tracks.of_start hlocate (.inl rfl) hskipped
      | some state => exact h.tracks path state hlookup
    obtain ⟨inode', hlocate', hinode, hoffset, hskipped, hpending⟩ := htracks
    obtain rfl : inode = inode' := Option.some.inj (hlocate.symm.trans hlocate')
    apply h.track
    · rw [FileState.noteStat_eq _ hinode hoffset]
      exact ⟨inode, hlocate, .inr rfl, hoffset, hskipped, hpending⟩
    · split
      · trivial
      · exact mem_insert_self _ _ _
  case h_2 => cases hstep

theorem Running.open_ (h : Running tree fnmatch t) {opened : Bool}
    (hstep : t.open_ tree opened = some u) : Running tree fnmatch u := by
  have hdrains := h.drains
  unfold WatchedTree.open_ at hstep
  split at hstep
  case h_1 path hdrain =>
    rw [hdrain] at hdrains
    split at hstep
    case h_1 inode hlocate =>
      obtain rfl := Option.some.inj hstep
      apply h.withDrain
      split
      · exact ⟨hdrains, hlocate⟩
      · trivial
    case h_2 =>
      obtain rfl := Option.some.inj hstep
      exact h.withDrain trivial
  case h_2 => cases hstep

theorem mem_drop_cells {c : Cell} {offset : Nat} (h : c ∈ (t.cells inode).drop offset) :
    c.inode = inode ∧ offset ≤ c.position := by
  obtain ⟨i, hi⟩ := List.mem_iff_getElem?.mp h
  rw [List.getElem?_drop, cells, List.getElem?_mapIdx] at hi
  obtain ⟨b, -, rfl⟩ := Option.map_eq_some_iff.mp hi
  exact ⟨rfl, Nat.le_add_right offset i⟩

/-- A read goes on where the last one stopped. -/
theorem Tracks.receive (h : Tracks tree t path state) (hlocate : t.locate tree path = some inode)
    {got : List Cell} (hgot : got <+: (t.cells inode).drop state.offset) :
    Tracks tree t path (FileState.receive Cell.byte state got).2 ∧
      ∀ line ∈ (FileState.receive Cell.byte state got).1, ∀ c ∈ line,
        Skipped t.scanned c.inode path c.position := by
  obtain ⟨inode', hlocate', hinode, hoffset, hskipped, hpending⟩ := h
  obtain rfl : inode = inode' := Option.some.inj (hlocate.symm.trans hlocate')
  have hbytes : ∀ c ∈ state.pending ++ got,
      c.inode = inode ∧ Skipped t.scanned inode path c.position := by
    intro c hc
    rcases List.mem_append.mp hc with hc | hc
    · exact hpending c hc
    · obtain ⟨hsame, hle⟩ := mem_drop_cells (hgot.subset hc)
      exact ⟨hsame, hskipped.mono hle⟩
  obtain ⟨consumed, hsplit, hsub⟩ := FileState.flushPending_spec Cell.byte (state.pending ++ got)
  have hsize : state.offset + got.length ≤ t.size inode := by
    have hle := hgot.length_le
    rw [List.length_drop, cells, List.length_mapIdx] at hle
    unfold WatchedTree.size at hoffset ⊢
    omega
  constructor
  · refine ⟨inode, hlocate, hinode, hsize, hskipped.mono (Nat.le_add_right _ _), fun c hc => ?_⟩
    apply hbytes
    rw [hsplit]
    exact List.mem_append_right consumed hc
  · intro line hline c hc
    have hmem : c ∈ state.pending ++ got := by
      rw [hsplit]
      exact List.mem_append_left _ (hsub.subset (List.mem_flatten.mpr ⟨line, hline, hc⟩))
    obtain ⟨hsame, hallowed⟩ := hbytes c hmem
    rw [hsame]
    exact hallowed

theorem Running.emit (h : Running tree fnmatch t) {lines : List (List Cell)}
    (hlines : ∀ line ∈ lines, ∀ c ∈ line, Skipped t.scanned c.inode path c.position) :
    Running tree fnmatch
      { t with emitted := t.emitted ++ lines.map fun line => (path, line) } := by
  refine ⟨h.grounded.still ⟨rfl, rfl, rfl, rfl⟩, h.prime, h.tracked, h.covered, h.watched,
    h.queue, h.tracks, h.drains, h.rounds, ?_⟩
  intro passed hpassed c hc
  rcases List.mem_append.mp hpassed with hpassed | hpassed
  · exact h.skips passed hpassed c hc
  · obtain ⟨line, hline, rfl⟩ := List.mem_map.mp hpassed
    exact hlines line hline c hc

theorem Running.read (h : Running tree fnmatch t) (hstep : t.read = some u) :
    Running tree fnmatch u := by
  have hdrains := h.drains
  unfold WatchedTree.read at hstep
  split at hstep
  case h_1 path inode hdrain =>
    rw [hdrain] at hdrains
    obtain ⟨hmem, hlocate⟩ := hdrains
    obtain ⟨state, hstate, rfl⟩ := Option.map_eq_some_iff.mp hstep
    simp only
    split
    case isTrue => exact h.withDrain trivial
    case isFalse =>
      obtain ⟨hstate', hlines⟩ :=
        (h.tracks path state hstate).receive hlocate (List.take_prefix kReadChunk _)
      have hdrains : ∀ (more : Bool) (after : FileState Cell),
          Drains tree { t with files := t.files.insert path after }
            (if more then some (.reading path inode) else none) := by
        intro more after
        cases more with
        | false => trivial
        | true => exact ⟨mem_insert_self _ _ _, hlocate⟩
      exact (h.track hstate' (hdrains _ _)).emit hlines
  case h_2 => cases hstep

/-! ## Runs -/

theorem Running.withOverflow (h : Running tree fnmatch t) :
    Running tree fnmatch { t with queue := t.queue ++ [.overflow] } :=
  h.withQueue fun wd name kind hmem => by
    rcases List.mem_append.mp hmem with hmem | hmem
    · exact hmem
    · cases List.mem_singleton.mp hmem

theorem Priming.withOverflow (h : Priming tree fnmatch t) :
    Priming tree fnmatch { t with queue := t.queue ++ [.overflow] } := by
  refine ⟨h.grounded.still ⟨rfl, rfl, rfl, rfl⟩, h.prime, h.emitted, h.drain, h.watchMap,
    fun wd name kind hmem => ?_, h.left, h.tracked, h.split, h.covered⟩
  rcases List.mem_append.mp hmem with hmem | hmem
  · exact h.queue wd name kind hmem
  · cases List.mem_singleton.mp hmem

theorem Priming.enter (h : Priming tree fnmatch t)
    (hstep : t.enter tree = some u) : Priming tree fnmatch u ∨ Running tree fnmatch u := by
  have hprime := h.prime
  unfold WatchedTree.enter at hstep
  split at hstep
  case h_1 prime dir dirs _ hphase =>
    cases prime with
    | false =>
        rw [hphase] at hprime
        exact absurd hprime id
    | true =>
        split at hstep
        case h_1 hnone =>
          obtain rfl := Option.some.inj hstep
          exact .inl (h.enter_missing hphase hnone)
        case h_2 d hd =>
          obtain rfl := Option.some.inj hstep
          exact .inl (h.enter_dir hphase hd)
  case h_2 _ hphase =>
    obtain rfl := Option.some.inj hstep
    exact .inr (h.running hphase)
  case h_3 _ hphase =>
    rw [hphase] at hprime
    exact absurd hprime id
  case h_4 => cases hstep

theorem Priming.visit (h : Priming tree fnmatch t)
    (hstep : t.visit tree fnmatch name = some u) : Priming tree fnmatch u := by
  have hprime := h.prime
  unfold WatchedTree.visit at hstep
  split at hstep
  case h_1 prime dir names dirs _ hphase =>
    obtain ⟨d, hd, hstep⟩ := Option.bind_eq_some_iff.mp hstep
    obtain ⟨inode, hlookup, rfl⟩ := Option.map_eq_some_iff.mp hstep
    cases prime with
    | false =>
        rw [hphase] at hprime
        exact absurd hprime id
    | true =>
        simp only [if_true]
        split
        case isTrue hmatch =>
          have hmatch : t.matching fnmatch dir name = false := by
            rw [Bool.not_eq_true'] at hmatch
            exact hmatch
          exact h.visit_known hphase fun heq => absurd (hmatch.symm.trans heq) nofun
        case isFalse =>
          split
          case isTrue hfile => exact h.visit_known hphase fun _ => hfile
          case isFalse hnew => exact h.visit_new hphase hd hlookup hnew
  case h_2 => cases hstep

/-- The phases behind the first watch are not those of a scan. -/
theorem Priming.step (h : Priming tree fnmatch t) {a : Action}
    (hstep : t.step tree fnmatch a = some u) :
    Priming tree fnmatch u ∨ Running tree fnmatch u := by
  have hdrain := h.drain
  have hnot : ∀ phase, t.phase = phase → Prime phase := fun _ heq => heq ▸ h.prime
  cases a with
  | watch => exact .inl (h.register hstep)
  | watchDirectory => exact .inl (h.register hstep)
  | addPatterns => exact .inl (h.register hstep)
  | create =>
      obtain ⟨hgrounded, hgrows⟩ := h.grounded.create hstep
      exact .inl (h.grows hgrounded hgrows)
  | append =>
      obtain ⟨hgrounded, hgrows⟩ := h.grounded.append hstep
      exact .inl (h.grows hgrounded hgrows)
  | overflow =>
      obtain rfl := Option.some.inj hstep
      exact .inl h.withOverflow
  | start dirs => exact .inl (h.start hstep)
  | enter => exact h.enter hstep
  | visit name => exact .inl (h.visit hstep)
  | leave =>
      left
      simp only [WatchedTree.step, WatchedTree.leave] at hstep
      split at hstep
      case h_1 prime dir dirs _ hphase =>
        obtain rfl := Option.some.inj hstep
        cases prime with
        | false => exact absurd (hnot _ hphase) id
        | true => exact h.leave hphase
      case h_2 => cases hstep
  | addWatch ok =>
      simp only [WatchedTree.step, addWatch] at hstep
      split at hstep
      case h_1 hphase => exact absurd (hnot _ hphase) id
      case h_2 => cases hstep
  | launch =>
      simp only [WatchedTree.step, launch] at hstep
      split at hstep
      case h_1 hphase => exact absurd (hnot _ hphase) id
      case h_2 => cases hstep
  | handle =>
      simp only [WatchedTree.step, handle] at hstep
      split at hstep
      case h_1 hphase _ => exact absurd (hnot _ hphase) id
      case h_2 hphase _ => exact absurd (hnot _ hphase) id
      case h_3 => cases hstep
  | drainNext path =>
      simp only [WatchedTree.step, drainNext] at hstep
      split at hstep
      case h_1 hphase => exact absurd (hnot _ hphase) id
      case h_2 => cases hstep
  | drained =>
      simp only [WatchedTree.step, drained] at hstep
      split at hstep
      case h_1 hphase => exact absurd (hnot _ hphase) id
      case h_2 => cases hstep
  | stat =>
      simp only [WatchedTree.step, stat, hdrain] at hstep
      cases hstep
  | open_ opened =>
      simp only [WatchedTree.step, open_, hdrain] at hstep
      cases hstep
  | read =>
      simp only [WatchedTree.step, read, hdrain] at hstep
      cases hstep

theorem Running.step (h : Running tree fnmatch t) {a : Action} (hknown : KeyKnown fnmatch t a)
    (hstep : t.step tree fnmatch a = some u) : Running tree fnmatch u := by
  have hnot : ∀ phase, t.phase = phase → ¬ Prime phase := fun _ heq => heq ▸ h.prime
  have hregister : ∀ patterns, t.register patterns = some u → False := by
    intro patterns hpatterns
    unfold register at hpatterns
    split at hpatterns
    case h_1 hphase => exact hnot _ hphase trivial
    case h_2 => cases hpatterns
  cases a with
  | watch => exact (hregister _ hstep).elim
  | watchDirectory => exact (hregister _ hstep).elim
  | addPatterns => exact (hregister _ hstep).elim
  | create =>
      obtain ⟨hgrounded, hgrows⟩ := h.grounded.create hstep
      exact h.grows hgrounded hgrows
  | append =>
      obtain ⟨hgrounded, hgrows⟩ := h.grounded.append hstep
      exact h.grows hgrounded hgrows
  | overflow =>
      obtain rfl := Option.some.inj hstep
      exact h.withOverflow
  | start dirs =>
      simp only [WatchedTree.step, start] at hstep
      split at hstep
      case h_1 hphase => exact absurd trivial (hnot _ hphase)
      case h_2 => cases hstep
  | enter => exact h.enter hstep
  | visit name => exact h.visit hstep
  | leave => exact h.leave hstep
  | addWatch ok => exact h.addWatch hstep
  | launch => exact h.launch hstep
  | handle => exact h.handle hknown hstep
  | drainNext path => exact h.drainNext hstep
  | drained => exact h.drained hstep
  | stat => exact h.stat hstep
  | open_ opened => exact h.open_ hstep
  | read => exact h.read hstep

/-- In every run in which no event comes through the watch of "." for a file that its scan has
found with content, no byte that the scan of its file has seen is passed to `process_raw`. -/
theorem run_skips {actions : List Action}
    (hrun : Transition.run (step tree fnmatch) {} actions = some t)
    (hknown : Transition.Meets (step tree fnmatch) (KeyKnown fnmatch) {} actions) :
    SkipsPresent t := by
  have hsound : Priming tree fnmatch t ∨ Running tree fnmatch t := by
    apply Transition.run_invariant_of_meets _ (.inl start_priming) hknown hrun
    rintro t a u (hpriming | hrunning) hcond hstep
    · exact hpriming.step hstep
    · exact .inr (hrunning.step hcond hstep)
  rcases hsound with hpriming | hrunning
  · intro passed hpassed
    rw [hpriming.emitted] at hpassed
    exact absurd hpassed List.not_mem_nil
  · exact hrunning.skips

/-- A machine without links between directories. -/
def plainTree (dirs : List (Bytes × Nat)) : DirectoryTree where
  resolve path := if path = [] then none else dirs.lookup (path.rdropWhile (· == slash))
  resolve_nil := rfl
  resolve_slash dir h := by
    rw [if_neg h, if_neg (List.append_ne_nil_of_right_ne_nil dir (List.cons_ne_nil _ _)),
      List.rdropWhile_concat_pos _ _ _ (by decide)]

/-- The current directory and "/var/log". -/
def twoDirs : DirectoryTree := plainTree [(ascii ".", 0), (ascii "/var/log", 1)]

def fileX : FileName := ⟨ascii "x", by decide, by decide, by decide⟩

/-- A file with one byte is scanned and watched, gets an LF and is drained. -/
def appendLf (dir : Nat) (pattern : Bytes) : List Action :=
  [.create dir fileX false, .append dir fileX (ascii "a") false, .watch pattern,
    .start [FileWatcher.parentDirOf pattern], .enter, .visit fileX, .leave, .enter,
    .addWatch true, .launch, .append dir fileX (ascii "b\n") true, .handle, .stat, .open_ true,
    .read]

theorem run_skips_var_log : ∃ t,
    Transition.run (step twoDirs (· == ·)) {} (appendLf 1 (ascii "/var/log/x")) = some t ∧
      t.scanned.map Scan.size = [1] ∧
      t.emitted = [(ascii "/var/log/x", [⟨1, 1, 98⟩])] ∧ SkipsPresent t := by
  obtain ⟨t, hrun, hsizes, hemitted⟩ : ∃ t,
      Transition.run (step twoDirs (· == ·)) {} (appendLf 1 (ascii "/var/log/x")) = some t ∧
        t.scanned.map Scan.size = [1] ∧ t.emitted = [(ascii "/var/log/x", [⟨1, 1, 98⟩])] :=
    ⟨_, rfl, rfl, rfl⟩
  exact ⟨t, hrun, hsizes, hemitted, run_skips hrun (by decide)⟩

/-- For a pattern without a directory, the event spells the path without the "./" of the scan
and the file is read from its first byte. -/
theorem run_forgets_the_scan : ∃ t,
    Transition.run (step twoDirs (· == ·)) {} (appendLf 0 (ascii "x")) = some t ∧
      t.scanned = [⟨FileWatcher.dot, fileX, 1, 1⟩] ∧
      t.emitted = [(ascii "x", [⟨1, 0, 97⟩, ⟨1, 1, 98⟩])] ∧ ¬ SkipsPresent t := by
  obtain ⟨t, hrun, hscanned, hemitted⟩ : ∃ t,
      Transition.run (step twoDirs (· == ·)) {} (appendLf 0 (ascii "x")) = some t ∧
        t.scanned = [⟨FileWatcher.dot, fileX, 1, 1⟩] ∧
        t.emitted = [(ascii "x", [⟨1, 0, 97⟩, ⟨1, 1, 98⟩])] := ⟨_, rfl, rfl, rfl⟩
  refine ⟨t, hrun, hscanned, hemitted, fun hskips => ?_⟩
  have hfirst := hskips _ (hemitted ▸ List.mem_cons_self) ⟨1, 0, 97⟩ List.mem_cons_self _
    (hscanned ▸ List.mem_cons_self) rfl
  exact absurd (hfirst.1 (.inr rfl)) (by decide)

end WatchedTree

end LogMind
