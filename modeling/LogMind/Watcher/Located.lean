import LogMind.Watcher.PollLoop
import LogMind.Watcher.Skipping

/-!
# Where the paths lead

In both modes every path that is tracked, drained or still to be drained leads to a file, and the
state of a tracked path has that file's inode, or none yet, and is not ahead of its end. Writers
take no file away, and an event is of a file that was there.
-/

namespace LogMind

namespace WatchedTree

/-- The state that `drain_file` takes up for a path. -/
def stateAt (t : WatchedTree) (path : Bytes) : FileState Cell := (t.files.lookup path).getD {}

/-- A state of a file of this size. An unfinished line holds no LF. -/
structure Fits (inode size : Nat) (state : FileState Cell) : Prop where
  inode_eq : state.inode = 0 ∨ state.inode = inode
  offset_le : state.offset ≤ size
  pending : ∀ c ∈ state.pending, FileState.isLf Cell.byte c = false

structure Located (tree : DirectoryTree) (t : WatchedTree) : Prop where
  grounded : Grounded tree t
  tracked : ∀ scan ∈ t.scanned, scan.path ∈ t.files
  files : ∀ path state, t.files.lookup path = some state →
    ∃ inode, t.locate tree path = some inode ∧ Fits inode (t.size inode) state
  drain : ∀ phase, t.drain = some phase → ∃ inode, t.locate tree phase.path = some inode ∧
    ∀ path i, phase = .reading path i → i = inode
  listed : ∀ paths, t.phase = .draining paths → ∀ path ∈ paths,
    ∃ inode, t.locate tree path = some inode
  queue : ∀ wd name kind, Notice.entry wd name kind ∈ t.queue →
    (∃ inode, t.names.lookup (wd, name) = some inode) ∧ (kind = .modify ∨ kind = .create)
  watchMap : ∀ w ∈ t.watchMap, tree.resolve w.2 = some w.1

variable {tree : DirectoryTree} {fnmatch : Bytes → Bytes → Bool} {t u : WatchedTree}
  {path dir : Bytes} {inode d : Nat} {name : FileName} {state : FileState Cell}

theorem start_located : Located tree {} where
  grounded := start_grounded
  tracked _ h := absurd h List.not_mem_nil
  files _ _ h := by cases h
  drain _ h := by cases h
  listed _ h := by cases h
  queue _ _ _ h := absurd h List.not_mem_nil
  watchMap _ h := absurd h List.not_mem_nil

theorem length_cells (t : WatchedTree) (inode : Nat) : (t.cells inode).length = t.size inode :=
  List.length_mapIdx

theorem stateAt_of_lookup (h : t.files.lookup path = some state) : t.stateAt path = state := by
  rw [stateAt, h, Option.getD_some]

theorem stateAt_of_notMem (h : path ∉ t.files) : t.stateAt path = {} := by
  rw [stateAt, AList.lookup_eq_none.mpr h, Option.getD_none]

theorem Located.fits (h : Located tree t) (hlocate : t.locate tree path = some inode) :
    Fits inode (t.size inode) (t.stateAt path) := by
  unfold stateAt
  cases hstate : t.files.lookup path with
  | none => exact ⟨.inl rfl, Nat.zero_le _, fun _ hmem => absurd hmem List.not_mem_nil⟩
  | some state =>
      obtain ⟨i, hi, hfits⟩ := h.files path state hstate
      obtain rfl : i = inode := Option.some.inj (hi.symm.trans hlocate)
      exact hfits

theorem Fits.noteStat (h : Fits inode (t.size inode) state) :
    state.noteStat inode (t.size inode) = { state with inode := inode } :=
  FileState.noteStat_eq state h.inode_eq h.offset_le

/-- A read ends at the end of the file at the latest. -/
theorem Fits.receive (h : Fits inode (t.size inode) state) {got : List Cell}
    (hgot : got <+: (t.cells inode).drop state.offset) :
    Fits inode (t.size inode) (FileState.receive Cell.byte state got).2 := by
  have hlength := hgot.length_le
  rw [List.length_drop, length_cells] at hlength
  have hle := h.offset_le
  refine ⟨h.inode_eq, ?_, ?_⟩
  · show state.offset + got.length ≤ t.size inode
    omega
  · show ∀ c ∈ (FileState.flushPending Cell.byte (state.pending ++ got)).2, _
    rw [FileState.flushPending_eq]
    split
    · exact fun _ hmem => absurd hmem List.not_mem_nil
    · exact Lines.tail_forall_not _ _

theorem Located.grows (h : Located tree t) (hgrounded : Grounded tree u) (hgrows : Grows t u) :
    Located tree u where
  grounded := hgrounded
  tracked := by
    rw [hgrows.scanned, hgrows.files]
    exact h.tracked
  files path state hstate := by
    rw [hgrows.files] at hstate
    obtain ⟨inode, hlocate, hfits⟩ := h.files path state hstate
    exact ⟨inode, hgrows.locate hlocate, hfits.inode_eq,
      hfits.offset_le.trans (hgrows.size inode), hfits.pending⟩
  drain phase hphase := by
    rw [hgrows.drain] at hphase
    obtain ⟨inode, hlocate, hreading⟩ := h.drain phase hphase
    exact ⟨inode, hgrows.locate hlocate, hreading⟩
  listed paths hpaths path hpath := by
    rw [hgrows.phase] at hpaths
    obtain ⟨inode, hlocate⟩ := h.listed paths hpaths path hpath
    exact ⟨inode, hgrows.locate hlocate⟩
  queue wd name kind hmem := by
    rcases hgrows.queue wd name kind hmem with hold | ⟨-, inode, hlookup, hkind⟩
    · obtain ⟨⟨inode, hlookup⟩, hkind⟩ := h.queue wd name kind hold
      exact ⟨⟨inode, hgrows.names _ _ hlookup⟩, hkind⟩
    · exact ⟨⟨inode, hlookup⟩, hkind.imp_right And.left⟩
  watchMap := by
    rw [hgrows.watchMap]
    exact h.watchMap

theorem Located.withPhase (h : Located tree t) {phase : WatchPhase}
    (hlisted : ∀ paths, phase = .draining paths → ∀ path ∈ paths,
      ∃ inode, t.locate tree path = some inode) : Located tree { t with phase := phase } :=
  ⟨h.grounded.still ⟨rfl, rfl, rfl, rfl⟩, h.tracked, h.files, h.drain, hlisted,
    h.queue, h.watchMap⟩

theorem Located.withQueue (h : Located tree t) {queue : List Notice}
    (hqueue : ∀ wd name kind, Notice.entry wd name kind ∈ queue →
      Notice.entry wd name kind ∈ t.queue) : Located tree { t with queue := queue } :=
  ⟨h.grounded.still ⟨rfl, rfl, rfl, rfl⟩, h.tracked, h.files, h.drain, h.listed,
    fun wd name kind hmem => h.queue wd name kind (hqueue wd name kind hmem), h.watchMap⟩

theorem Located.withDrain (h : Located tree t) {drain : Option DrainPhase}
    (hdrain : ∀ phase, drain = some phase → ∃ inode, t.locate tree phase.path = some inode ∧
      ∀ path i, phase = .reading path i → i = inode) : Located tree { t with drain := drain } :=
  ⟨h.grounded.still ⟨rfl, rfl, rfl, rfl⟩, h.tracked, h.files, hdrain, h.listed,
    h.queue, h.watchMap⟩

theorem Located.endDrain (h : Located tree t) : Located tree { t with drain := none } :=
  h.withDrain nofun

/-- A state of the file of its path is written. -/
theorem Located.track (h : Located tree t) (hlocate : t.locate tree path = some inode)
    (hfits : Fits inode (t.size inode) state) (emitted : List (Bytes × List Cell)) :
    Located tree { t with files := t.files.insert path state, emitted := emitted } :=
  ⟨h.grounded.still ⟨rfl, rfl, rfl, rfl⟩,
    fun scan hscan => (AList.mem_insert _).mpr (.inr (h.tracked scan hscan)),
    fun other found hfound => by
      by_cases heq : other = path
      · subst heq
        rw [AList.lookup_insert] at hfound
        exact ⟨inode, hlocate, Option.some.inj hfound ▸ hfits⟩
      · rw [AList.lookup_insert_ne heq] at hfound
        exact h.files other found hfound,
    h.drain, h.listed, h.queue, h.watchMap⟩

theorem Located.enter (h : Located tree t) (hstep : t.enter tree = some u) : Located tree u := by
  cases of_enter hstep with
  | missing | directory | watch => exact h.withPhase nofun
  | drain =>
      refine h.withPhase fun paths hpaths path hpath => ?_
      rw [← WatchPhase.draining.inj hpaths] at hpath
      obtain ⟨state, hstate⟩ :=
        Option.isSome_iff_exists.mp (AList.lookup_isSome.mpr (AList.mem_keys.mpr hpath))
      obtain ⟨inode, hlocate, -⟩ := h.files path state hstate
      exact ⟨inode, hlocate⟩

/-- `scan_directory` tracks a file that it has found. -/
theorem Located.record (h : Located tree t) (hdir : tree.resolve dir = some d)
    (hlookup : t.names.lookup (d, name) = some inode) {offset : Nat}
    (hoffset : offset ≤ t.size inode) (phase : WatchPhase)
    (hphase : ∀ paths, phase ≠ .draining paths) :
    Located tree { t with
      phase := phase
      files := t.files.insert (FileWatcher.iterPath dir name.bytes)
        { inode := inode, offset := offset } } := by
  have hnext : Located tree { t with phase := phase } :=
    h.withPhase fun paths hpaths => absurd hpaths (hphase paths)
  exact hnext.track ((locate_iterPath hdir name).trans hlookup)
    ⟨.inr rfl, hoffset, fun _ hmem => absurd hmem List.not_mem_nil⟩ _

theorem Located.visit (h : Located tree t) (hstep : t.visit tree fnmatch name = some u) :
    Located tree u := by
  cases of_visit hstep with
  | skipped => exact h.withPhase nofun
  | @scanned dir names dirs d inode _ _ hdir hlookup _ hnew =>
      have hold : ∀ scan ∈ t.scanned, scan.path ≠ FileWatcher.iterPath dir name.bytes :=
        fun scan hscan heq => hnew (heq ▸ h.tracked scan hscan)
      have hgrounded := h.grounded.record hdir hlookup (Nat.le_refl (t.size inode)) hold
      have hnext := h.record hdir hlookup (Nat.le_refl (t.size inode))
        (.visiting true dir (names.erase name) dirs) nofun
      refine ⟨hgrounded.still ⟨rfl, rfl, rfl, rfl⟩, fun scan hscan => ?_, hnext.files,
        hnext.drain, hnext.listed, hnext.queue, hnext.watchMap⟩
      rcases List.mem_append.mp hscan with hscan | hscan
      · exact hnext.tracked scan hscan
      · rw [List.mem_singleton.mp hscan]
        exact (AList.mem_insert _).mpr (.inl rfl)
  | @found dir names dirs d inode _ _ hdir hlookup =>
      have hnext := h.record hdir hlookup (Nat.zero_le _)
        (.visiting false dir (names.erase name) dirs) nofun
      refine hnext.withDrain fun phase hphase => ⟨inode, ?_, ?_⟩
      · rw [← Option.some.inj hphase]
        exact (locate_iterPath hdir name).trans hlookup
      · rw [← Option.some.inj hphase]
        nofun

theorem Located.handle (h : Located tree t) (hstep : t.handle fnmatch = some u) :
    Located tree u := by
  have hpopped : ∀ {notice rest}, t.queue = notice :: rest →
      Located tree { t with queue := rest } := fun hqueue =>
    h.withQueue fun _ _ _ hmem => hqueue ▸ List.mem_cons_of_mem _ hmem
  -- the path of an event is that of a file in the directory that is watched
  have hlocate : ∀ {wd name kind rest dir}, t.queue = .entry wd name kind :: rest →
      t.watchedAs wd = some dir → ∃ inode,
        t.locate tree (FileWatcher.joinPath dir name.bytes) = some inode := by
    intro wd name kind rest dir hqueue hdir
    obtain ⟨⟨inode, hlookup⟩, -⟩ := h.queue wd name kind (hqueue ▸ List.mem_cons_self)
    have hresolve := h.watchMap _ (mem_of_watchedAs hdir)
    exact ⟨inode, (locate_joinPath hresolve name).trans hlookup⟩
  cases of_handle hstep with
  | overflow _ hqueue => exact (hpopped hqueue).withPhase nofun
  | skipped _ hqueue => exact hpopped hqueue
  | @removed wd name kind rest dir _ _ hqueue hkind =>
      obtain ⟨-, hold⟩ := h.queue wd name kind (hqueue ▸ List.mem_cons_self)
      rcases hkind with rfl | rfl <;> rcases hold with hold | hold <;> cases hold
  | created _ hqueue _ hdir =>
      obtain ⟨inode, hat⟩ := hlocate hqueue hdir
      refine ((hpopped hqueue).track hat
        ⟨.inl rfl, Nat.zero_le _, fun _ hmem => absurd hmem List.not_mem_nil⟩ _).withDrain
          fun phase hphase => ⟨inode, ?_, ?_⟩
      · rw [← Option.some.inj hphase]
        exact hat
      · rw [← Option.some.inj hphase]
        nofun
  | modified _ hqueue hdir =>
      obtain ⟨inode, hat⟩ := hlocate hqueue hdir
      refine (hpopped hqueue).withDrain fun phase hphase => ⟨inode, ?_, ?_⟩
      · rw [← Option.some.inj hphase]
        exact hat
      · rw [← Option.some.inj hphase]
        nofun

theorem Located.drainNext (h : Located tree t) (hstep : t.drainNext path = some u) :
    Located tree u := by
  obtain ⟨paths, -, hphase, hpath, rfl⟩ := drainNext_eq_some hstep
  have hlocate := h.listed paths hphase
  have hnext : Located tree { t with phase := .draining (paths.erase path) } :=
    h.withPhase fun rest hrest other hother => by
      rw [← WatchPhase.draining.inj hrest] at hother
      exact hlocate other (List.mem_of_mem_erase hother)
  obtain ⟨inode, hat⟩ := hlocate path hpath
  refine hnext.withDrain fun phase hphase => ⟨inode, ?_, ?_⟩
  · rw [← Option.some.inj hphase]
    exact hat
  · rw [← Option.some.inj hphase]
    nofun

/-- A `stat` finds the file and leaves the state of its path but for the inode. -/
theorem Located.stat_eq_some (h : Located tree t) (hstep : t.stat tree = some u) :
    ∃ path inode state, t.drain = some (.statting path) ∧ t.locate tree path = some inode ∧
      t.stateAt path = state ∧ u = { t with
        files := t.files.insert path { state with inode := inode }
        drain := if t.size inode ≤ state.offset then none else some (.opening path) } := by
  cases of_stat hstep with
  | @gone path hdrain hlocate =>
      obtain ⟨inode, hat, -⟩ := h.drain _ hdrain
      exact absurd (hlocate.symm.trans hat) nofun
  | @seen path inode seen hdrain hlocate hseen =>
      change (t.stateAt path).noteStat inode (t.size inode) = seen at hseen
      rw [(h.fits hlocate).noteStat] at hseen
      exact ⟨path, inode, _, hdrain, hlocate, rfl, hseen ▸ rfl⟩

theorem Located.stat (h : Located tree t) (hstep : t.stat tree = some u) : Located tree u := by
  obtain ⟨path, inode, state, hdrain, hlocate, rfl, rfl⟩ := h.stat_eq_some hstep
  have hfits := h.fits hlocate
  have hnoted : Fits inode (t.size inode) { t.stateAt path with inode := inode } :=
    ⟨.inr rfl, hfits.offset_le, hfits.pending⟩
  refine (h.track hlocate hnoted _).withDrain fun phase hphase => ?_
  split at hphase
  · cases hphase
  · rw [← Option.some.inj hphase]
    exact ⟨inode, hlocate, nofun⟩

theorem Located.open_ (h : Located tree t) {opened : Bool}
    (hstep : t.open_ tree opened = some u) : Located tree u := by
  cases of_open hstep with
  | failed => exact h.endDrain
  | @reading path inode hdrain _ hlocate =>
      refine h.withDrain fun phase hphase => ⟨inode, ?_, ?_⟩
      · rw [← Option.some.inj hphase]
        exact hlocate
      · rw [← Option.some.inj hphase]
        exact fun other i hreading => (DrainPhase.reading.inj hreading).2.symm

theorem Located.read (h : Located tree t) (hstep : t.read = some u) : Located tree u := by
  cases of_read hstep with
  | atEnd => exact h.endDrain
  | @chunk path inode state got hdrain hstate hgot =>
      obtain ⟨i, hlocate, hinode⟩ := h.drain _ hdrain
      obtain rfl := hinode path inode rfl
      obtain ⟨i, hi, hfits⟩ := h.files path state hstate
      obtain rfl : inode = i := Option.some.inj (hlocate.symm.trans hi)
      have hnext := hfits.receive (hgot ▸ List.take_prefix kReadChunk _ : got <+: _)
      refine (h.track hlocate hnext _).withDrain fun phase hphase => ?_
      split at hphase
      · rw [← Option.some.inj hphase]
        exact ⟨inode, hlocate, fun other i hreading => (DrainPhase.reading.inj hreading).2.symm⟩
      · cases hphase

theorem Located.addWatch (h : Located tree t) {ok : Bool} (hstep : t.addWatch tree ok = some u) :
    Located tree u := by
  obtain ⟨dir, dirs, watchMap, -, hwatchMap, rfl⟩ := addWatch_eq_some hstep
  have hnext : Located tree { t with phase := .watching dirs } := h.withPhase nofun
  refine ⟨hnext.grounded.still ⟨rfl, rfl, rfl, rfl⟩, hnext.tracked, hnext.files, hnext.drain,
    hnext.listed, hnext.queue, ?_⟩
  rcases hwatchMap with rfl | ⟨wd, hdir, rfl⟩
  · exact h.watchMap
  · intro w hw
    rcases setWatch_cases hw with rfl | hold
    · exact hdir
    · exact h.watchMap w hold.1

theorem Located.step (h : Located tree t) {a : Action} (hstep : t.step tree fnmatch a = some u) :
    Located tree u := by
  have hregister : ∀ {patterns}, t.register patterns = some u → Located tree u := by
    intro patterns hstep
    obtain ⟨-, rfl⟩ := register_eq_some hstep
    exact ⟨h.grounded.still ⟨rfl, rfl, rfl, rfl⟩, h.tracked, h.files, h.drain, h.listed, h.queue,
      h.watchMap⟩
  cases a with
  | watch => exact hregister hstep
  | watchDirectory => exact hregister hstep
  | addPatterns => exact hregister hstep
  | create =>
      obtain ⟨hgrounded, hgrows⟩ := h.grounded.create hstep
      exact h.grows hgrounded hgrows
  | append =>
      obtain ⟨hgrounded, hgrows⟩ := h.grounded.append hstep
      exact h.grows hgrounded hgrows
  | overflow =>
      obtain rfl := Option.some.inj hstep
      refine ⟨h.grounded.still ⟨rfl, rfl, rfl, rfl⟩, h.tracked, h.files, h.drain, h.listed, ?_,
        h.watchMap⟩
      intro wd name kind hmem
      rcases List.mem_append.mp hmem with hmem | hmem
      · exact h.queue wd name kind hmem
      · cases List.mem_singleton.mp hmem
  | start dirs =>
      obtain ⟨-, -, rfl⟩ := start_eq_some hstep
      have hnext : Located tree { t with phase := .scanning true dirs } := h.withPhase nofun
      exact ⟨hnext.grounded.still ⟨rfl, rfl, rfl, rfl⟩, hnext.tracked, hnext.files, hnext.drain,
        hnext.listed, hnext.queue, hnext.watchMap⟩
  | enter => exact h.enter hstep
  | visit name => exact h.visit hstep
  | leave =>
      obtain ⟨prime, dir, dirs, -, rfl⟩ := leave_eq_some hstep
      exact h.withPhase nofun
  | addWatch ok => exact h.addWatch hstep
  | launch =>
      obtain ⟨-, rfl⟩ := launch_eq_some hstep
      refine h.withPhase fun paths hpaths => ?_
      split at hpaths <;> cases hpaths
  | handle => exact h.handle hstep
  | drainNext path => exact h.drainNext hstep
  | drained =>
      obtain ⟨-, -, rfl⟩ := drained_eq_some hstep
      exact h.withPhase nofun
  | stat => exact h.stat hstep
  | open_ opened => exact h.open_ hstep
  | read => exact h.read hstep

theorem Located.poll (h : Located tree t) {a : PollAction}
    (hstep : t.poll tree fnmatch a = some u) : Located tree u := by
  cases a with
  | create =>
      obtain ⟨hgrounded, hgrows⟩ := h.grounded.create hstep
      exact h.grows hgrounded hgrows
  | append =>
      obtain ⟨hgrounded, hgrows⟩ := h.grounded.append hstep
      exact h.grows hgrounded hgrows
  | round dirs =>
      obtain ⟨-, -, rfl⟩ := round_eq_some hstep
      exact h.withPhase nofun
  | enter => exact h.enter hstep
  | visit name => exact h.visit hstep
  | leave =>
      obtain ⟨prime, dir, dirs, -, rfl⟩ := leave_eq_some hstep
      exact h.withPhase nofun
  | drainNext path => exact h.drainNext hstep
  | stat => exact h.stat hstep
  | open_ opened => exact h.open_ hstep
  | read => exact h.read hstep
  | sleep =>
      obtain ⟨-, -, rfl⟩ := sleep_eq_some hstep
      exact h.withPhase nofun

theorem located_of_run {actions : List Action}
    (hrun : Transition.run (step tree fnmatch) {} actions = some t) : Located tree t :=
  Transition.run_invariant (fun _ _ _ h hstep => Located.step h hstep) start_located hrun

end WatchedTree

end LogMind
