import LogMind.Watcher.Polling

/-!
# What is read in the mode with events

While the queue does not overflow, the IN_CREATE of a file comes before every other event of it, and
nothing has used the file when it is taken: the state that it resets is a fresh one. So the lines
that are passed to `process_raw` under a path are those of its file behind the first scan, whatever
events are lost.
-/

namespace LogMind

namespace WatchedTree

/-- The path is tracked, or `drain_file` is at it. -/
def Engaged (t : WatchedTree) (path : Bytes) : Prop :=
  path ∈ t.files ∨ ∃ phase, t.drain = some phase ∧ phase.path = path

/-- The events of files that are new. Up to the first watch there are none. -/
structure News (tree : DirectoryTree) (t : WatchedTree) : Prop where
  order : t.queue.Pairwise fun a b =>
    ∀ wd name kind, b = .entry wd name .create → a ≠ .entry wd name kind
  unused : ∀ wd name inode, Notice.entry wd name .create ∈ t.queue →
    t.names.lookup (wd, name) = some inode →
      ∀ path, t.locate tree path = some inode → ¬ t.Engaged path
  calm : Notice.overflow ∉ t.queue
  prime : Prime t.phase → t.watchMap = [] ∧ t.queue = []

variable {tree : DirectoryTree} {fnmatch : Bytes → Bytes → Bool} {t u : WatchedTree}
  {path dir : Bytes} {inode d : Nat} {name : FileName} {state : FileState Cell}

theorem eq_true_of_scanning {prime : Bool} {dirs : List Bytes}
    (h : Prime (.scanning prime dirs)) : prime = true := by
  cases prime with
  | true => rfl
  | false => exact absurd h id

theorem eq_true_of_visiting {prime : Bool} {names : List FileName} {dirs : List Bytes}
    (h : Prime (.visiting prime dir names dirs)) : prime = true := by
  cases prime with
  | true => rfl
  | false => exact absurd h id

theorem start_news : News tree {} where
  order := List.Pairwise.nil
  unused _ _ _ h := absurd h List.not_mem_nil
  calm := List.not_mem_nil
  prime _ := ⟨rfl, rfl⟩

theorem Located.engaged (h : Located tree t) (hpath : t.Engaged path) :
    ∃ inode, t.locate tree path = some inode := by
  rcases hpath with hmem | ⟨phase, hdrain, rfl⟩
  · obtain ⟨state, hstate⟩ := Option.isSome_iff_exists.mp (AList.lookup_isSome.mpr hmem)
    obtain ⟨inode, hlocate, -⟩ := h.files path state hstate
    exact ⟨inode, hlocate⟩
  · obtain ⟨inode, hlocate, -⟩ := h.drain phase hdrain
    exact ⟨inode, hlocate⟩

theorem exists_lookup_of_locate (h : t.locate tree path = some inode) :
    ∃ d name, t.names.lookup (d, name) = some inode := by
  obtain ⟨d, -, h⟩ := Option.bind_eq_some_iff.mp h
  obtain ⟨name, -, h⟩ := Option.bind_eq_some_iff.mp h
  exact ⟨d, name, h⟩

theorem queue_notify (t : WatchedTree) (d : Nat) (name : FileName) (kind : EventKind)
    (queued : Bool) : (t.notify d name kind queued).queue = t.queue ∨
      (t.notify d name kind queued).queue = t.queue ++ [.entry d name kind] := by
  unfold notify
  split
  · exact .inr rfl
  · exact .inl rfl

theorem News.frame (h : News tree t) (hnames : u.names = t.names) (hqueue : u.queue = t.queue)
    (hengaged : ∀ path, u.Engaged path → t.Engaged path)
    (hprime : Prime u.phase → u.watchMap = [] ∧ u.queue = []) : News tree u where
  order := hqueue ▸ h.order
  unused wd name inode hmem hlookup path hlocate hpath := by
    rw [hqueue] at hmem
    rw [hnames] at hlookup
    unfold WatchedTree.locate at hlocate
    rw [hnames] at hlocate
    exact h.unused wd name inode hmem hlookup path hlocate (hengaged path hpath)
  calm := hqueue ▸ h.calm
  prime := hprime

/-- A step of a writer. -/
theorem News.grows (h : News tree t) (hlocated : Located tree t) (hgrounded : Grounded tree u)
    (hgrows : Grows t u) {kind : EventKind}
    (hqueue : u.queue = t.queue ∨ u.queue = t.queue ++ [.entry d name kind])
    (hnew : kind = .create → t.names.lookup (d, name) = none) : News tree u := by
  have hentry : ∀ {wd other kind'}, Notice.entry wd other kind' ∈ u.queue →
      Notice.entry wd other kind' ∈ t.queue ∨ wd = d ∧ other = name ∧ kind' = kind := by
    intro wd other kind' hmem
    rcases hqueue with hsame | hmore
    · exact .inl (hsame ▸ hmem)
    · rw [hmore] at hmem
      rcases List.mem_append.mp hmem with hold | hlast
      · exact .inl hold
      · exact .inr (Notice.entry.inj (List.mem_singleton.mp hlast))
  refine ⟨?_, fun wd other inode hmem hlookup path hlocate hpath => ?_, ?_, fun hprime => ?_⟩
  · rcases hqueue with hsame | hmore
    · exact hsame ▸ h.order
    · rw [hmore, List.pairwise_append]
      refine ⟨h.order, List.pairwise_singleton _ _, fun a ha b hb wd other kind' heq hsame => ?_⟩
      rw [List.mem_singleton.mp hb] at heq
      obtain ⟨rfl, rfl, rfl⟩ := Notice.entry.inj heq
      obtain ⟨⟨inode, hlookup⟩, -⟩ := hlocated.queue _ _ _ (hsame ▸ ha)
      rw [hnew rfl] at hlookup
      cases hlookup
  · -- a path in use leads to a file that was there before
    obtain ⟨i, hi⟩ : ∃ i, t.locate tree path = some i := by
      refine hlocated.engaged ?_
      unfold Engaged at hpath ⊢
      rw [hgrows.files, hgrows.drain] at hpath
      exact hpath
    obtain rfl : i = inode := Option.some.inj ((hgrows.locate hi).symm.trans hlocate)
    rcases hentry hmem with hold | ⟨rfl, rfl, hkind⟩
    · obtain ⟨⟨j, hj⟩, -⟩ := hlocated.queue _ _ _ hold
      obtain rfl : j = i := Option.some.inj ((hgrows.names _ _ hj).symm.trans hlookup)
      refine h.unused wd other j hold hj path hi ?_
      unfold Engaged at hpath ⊢
      rw [hgrows.files, hgrows.drain] at hpath
      exact hpath
    · obtain ⟨d', name', hkey⟩ := exists_lookup_of_locate hi
      have hsame := hgrounded.single _ _ _ (hgrows.names _ _ hkey) hlookup
      rw [hsame, hnew hkind.symm] at hkey
      cases hkey
  · rcases hqueue with hsame | hmore
    · exact hsame ▸ h.calm
    · rw [hmore]
      intro hmem
      rcases List.mem_append.mp hmem with hold | hlast
      · exact h.calm hold
      · cases List.mem_singleton.mp hlast
  · obtain ⟨hwatchMap, hnil⟩ := h.prime (hgrows.phase ▸ hprime)
    refine ⟨hgrows.watchMap.trans hwatchMap, ?_⟩
    rcases hqueue with hsame | hmore
    · exact hsame.trans hnil
    · have hmem : Notice.entry d name kind ∈ u.queue := by
        rw [hmore]
        exact List.mem_append_right _ List.mem_cons_self
      rcases hgrows.queue d name kind hmem with hold | ⟨hne, -⟩
      · rw [hnil] at hold
        exact absurd hold List.not_mem_nil
      · exact absurd hwatchMap hne

theorem News.create (h : News tree t) (hlocated : Located tree t) {queued : Bool}
    (hstep : t.create d name queued = some u) : News tree u := by
  obtain ⟨hgrounded, hgrows⟩ := hlocated.grounded.create hstep
  unfold WatchedTree.create at hstep
  split at hstep
  · cases hstep
  case isFalse hnew =>
    obtain rfl := Option.some.inj hstep
    exact h.grows hlocated hgrounded hgrows (queue_notify _ d name .create queued)
      fun _ => Option.not_isSome_iff_eq_none.mp hnew

theorem News.append (h : News tree t) (hlocated : Located tree t) {bytes : Bytes} {queued : Bool}
    (hstep : t.append d name bytes queued = some u) : News tree u := by
  obtain ⟨hgrounded, hgrows⟩ := hlocated.grounded.append hstep
  obtain ⟨i, -, rfl⟩ := Option.map_eq_some_iff.mp hstep
  exact h.grows hlocated hgrounded hgrows (queue_notify _ d name .modify queued) nofun

/-- An event is taken, and its path may be tracked and drained. -/
theorem News.take (h : News tree t) (hlocated : Located tree t) (hphase : t.phase = .idle)
    {wd : Nat} {kind : EventKind} {rest : List Notice}
    (hqueue : t.queue = .entry wd name kind :: rest) (hdir : t.watchedAs wd = some dir)
    {files : AList (fun _ : Bytes => FileState Cell)} {drain : Option DrainPhase}
    (hfiles : ∀ other ∈ files, other = FileWatcher.joinPath dir name.bytes ∨ other ∈ t.files)
    (hdrain : ∀ phase, drain = some phase →
      phase.path = FileWatcher.joinPath dir name.bytes ∨ t.drain = some phase) :
    News tree { t with queue := rest, files := files, drain := drain } := by
  have horder := h.order
  have hcalm := h.calm
  rw [hqueue] at horder hcalm
  obtain ⟨hfirst, horder⟩ := List.pairwise_cons.mp horder
  refine ⟨horder, fun wd' other inode hmem hlookup path hlocate hpath => ?_,
    fun hmem => hcalm (List.mem_cons_of_mem _ hmem), fun hprime => ?_⟩
  · have hold : t.Engaged path → False :=
      h.unused wd' other inode (hqueue ▸ List.mem_cons_of_mem _ hmem) hlookup path hlocate
    have hown : path = FileWatcher.joinPath dir name.bytes → False := by
      rintro rfl
      rw [locate_joinPath (hlocated.watchMap _ (mem_of_watchedAs hdir))] at hlocate
      obtain ⟨rfl, rfl⟩ := Prod.mk.inj (hlocated.grounded.single _ _ _ hlocate hlookup)
      exact hfirst _ hmem _ _ kind rfl rfl
    rcases hpath with hfile | ⟨phase, hphase, hat⟩
    · exact (hfiles path hfile).elim hown fun hmem => hold (.inl hmem)
    · rcases hdrain phase hphase with hsame | hsame
      · exact hown (hat.symm.trans hsame)
      · exact hold (.inr ⟨phase, hsame, hat⟩)
  · change Prime t.phase at hprime
    rw [hphase] at hprime
    exact absurd hprime id

theorem News.handle (h : News tree t) (hlocated : Located tree t)
    (hstep : t.handle fnmatch = some u) : News tree u := by
  cases of_handle hstep with
  | overflow _ hqueue => exact absurd (hqueue ▸ List.mem_cons_self) h.calm
  | @skipped wd name kind rest hphase hqueue =>
      have horder := h.order
      have hcalm := h.calm
      rw [hqueue] at horder hcalm
      refine ⟨(List.pairwise_cons.mp horder).2, fun wd' other inode hmem => ?_,
        fun hmem => hcalm (List.mem_cons_of_mem _ hmem), fun hprime => ?_⟩
      · exact h.unused wd' other inode (hqueue ▸ List.mem_cons_of_mem _ hmem)
      · change Prime t.phase at hprime
        rw [hphase] at hprime
        exact absurd hprime id
  | removed hdrain hphase hqueue _ hdir =>
      exact h.take hlocated hphase hqueue hdir
        (fun other hother => .inr (AList.mem_erase.mp hother).2) fun phase hphase => .inr hphase
  | created hphase hqueue _ hdir =>
      exact h.take hlocated hphase hqueue hdir
        (fun other hother => (AList.mem_insert _).mp hother)
        fun phase hphase => .inl (by rw [← Option.some.inj hphase]; rfl)
  | modified hphase hqueue hdir =>
      exact h.take hlocated hphase hqueue hdir (fun _ => .inr)
        fun phase hphase => .inl (by rw [← Option.some.inj hphase]; rfl)

/-- `drain_file` keeps to its path. -/
theorem News.withDrain (h : News tree t) {phase : DrainPhase} (hdrain : t.drain = some phase)
    {files : AList (fun _ : Bytes => FileState Cell)} {next : Option DrainPhase}
    {emitted : List (Bytes × List Cell)}
    (hfiles : ∀ other ∈ files, other = phase.path ∨ other ∈ t.files)
    (hnext : ∀ p, next = some p → p.path = phase.path) :
    News tree { t with files := files, drain := next, emitted := emitted } := by
  refine h.frame rfl rfl (fun path hpath => ?_) h.prime
  have hown : path = phase.path → t.Engaged path := fun heq => .inr ⟨phase, hdrain, heq.symm⟩
  rcases hpath with hfile | ⟨p, hp, hat⟩
  · exact (hfiles path hfile).elim hown .inl
  · exact hown (hat.symm.trans (hnext p hp))

theorem News.stat (h : News tree t) (hstep : t.stat tree = some u) : News tree u := by
  cases of_stat hstep with
  | gone hdrain => exact h.withDrain hdrain (fun _ => .inr) nofun
  | seen hdrain =>
      refine h.withDrain hdrain (fun other hother => (AList.mem_insert _).mp hother)
        fun phase hphase => ?_
      split at hphase
      · cases hphase
      · rw [← Option.some.inj hphase]
        rfl

theorem News.open_ (h : News tree t) {opened : Bool} (hstep : t.open_ tree opened = some u) :
    News tree u := by
  cases of_open hstep with
  | failed hdrain => exact h.withDrain hdrain (fun _ => .inr) nofun
  | reading hdrain =>
      refine h.withDrain hdrain (fun _ => .inr) fun phase hphase => ?_
      rw [← Option.some.inj hphase]
      rfl

theorem News.read (h : News tree t) (hstep : t.read = some u) : News tree u := by
  cases of_read hstep with
  | atEnd hdrain => exact h.withDrain hdrain (fun _ => .inr) nofun
  | chunk hdrain =>
      refine h.withDrain hdrain (fun other hother => (AList.mem_insert _).mp hother)
        fun phase hphase => ?_
      split at hphase
      · rw [← Option.some.inj hphase]
      · cases hphase

theorem News.visit (h : News tree t) (hphase : Early t.phase ∨ t.phase = .idle)
    (hstep : t.visit tree fnmatch name = some u) : News tree u := by
  cases of_visit hstep with
  | skipped hvisiting =>
      refine h.frame rfl rfl (fun _ => id) fun hprime => h.prime ?_
      rw [hvisiting, eq_true_of_visiting hprime]
      trivial
  | scanned hdrain hvisiting =>
      have hscan : Prime t.phase := by
        rw [hvisiting]
        trivial
      obtain ⟨hwatchMap, hnil⟩ := h.prime hscan
      refine ⟨h.order, fun wd other inode hmem => ?_, h.calm, fun _ => ⟨hwatchMap, hnil⟩⟩
      change Notice.entry wd other .create ∈ t.queue at hmem
      rw [hnil] at hmem
      exact absurd hmem List.not_mem_nil
  | found _ hvisiting =>
      rw [hvisiting] at hphase
      exact hphase.elim (absurd · id) nofun

/-- Without an overflow the thread never scans again. -/
theorem News.step (h : News tree t) (hlocated : Located tree t)
    (hphase : Early t.phase ∨ t.phase = .idle) {a : Action} (ha : a ≠ .overflow)
    (hstep : t.step tree fnmatch a = some u) : News tree u := by
  have hnot : ∀ {phase}, t.phase = phase → Early phase ∨ phase = .idle := fun heq => heq ▸ hphase
  have hregister : ∀ {patterns}, t.register patterns = some u → News tree u := by
    intro patterns hstep
    obtain ⟨-, rfl⟩ := register_eq_some hstep
    exact h.frame rfl rfl (fun _ => id) h.prime
  cases a with
  | watch => exact hregister hstep
  | watchDirectory => exact hregister hstep
  | addPatterns => exact hregister hstep
  | create => exact h.create hlocated hstep
  | append => exact h.append hlocated hstep
  | overflow => exact absurd rfl ha
  | start dirs =>
      obtain ⟨hstopped, -, rfl⟩ := start_eq_some hstep
      refine h.frame rfl rfl (fun _ => id) fun _ => h.prime ?_
      rw [hstopped]
      trivial
  | enter =>
      cases of_enter hstep with
      | missing hscanning =>
          refine h.frame rfl rfl (fun _ => id) fun hprime => h.prime ?_
          rw [hscanning, eq_true_of_scanning hprime]
          trivial
      | directory hscanning =>
          refine h.frame rfl rfl (fun _ => id) fun hprime => h.prime ?_
          rw [hscanning, eq_true_of_visiting hprime]
          trivial
      | watch => exact h.frame rfl rfl (fun _ => id) (absurd · id)
      | drain => exact h.frame rfl rfl (fun _ => id) (absurd · id)
  | visit name => exact h.visit hphase hstep
  | leave =>
      obtain ⟨prime, dir, dirs, hvisiting, rfl⟩ := leave_eq_some hstep
      refine h.frame rfl rfl (fun _ => id) fun hprime => h.prime ?_
      rw [hvisiting, eq_true_of_scanning hprime]
      trivial
  | addWatch ok =>
      obtain ⟨_, _, _, -, -, rfl⟩ := addWatch_eq_some hstep
      exact h.frame rfl rfl (fun _ => id) (absurd · id)
  | launch =>
      obtain ⟨-, rfl⟩ := launch_eq_some hstep
      refine h.frame rfl rfl (fun _ => id) fun hprime => absurd hprime ?_
      dsimp only
      split <;> exact id
  | handle => exact h.handle hlocated hstep
  | drainNext path =>
      obtain ⟨paths, -, hdraining, -⟩ := drainNext_eq_some hstep
      exact (hnot hdraining).elim (absurd · id) nofun
  | drained => exact (hnot (drained_eq_some hstep).2.1).elim (absurd · id) nofun
  | stat => exact h.stat hstep
  | open_ opened => exact h.open_ hstep
  | read => exact h.read hstep

/-- An event resets no state but a fresh one. -/
theorem Reads.handle {origins : Bytes → FileState Cell} {lines : Bytes → List (List Cell)}
    (h : Reads tree origins lines t) (hlocated : Located tree t) (hnews : News tree t)
    (hstep : t.handle fnmatch = some u) : Reads tree origins lines u := by
  cases of_handle hstep with
  | overflow _ hqueue => exact absurd (hqueue ▸ List.mem_cons_self) hnews.calm
  | skipped => exact h.frame rfl rfl rfl fun _ => ⟨rfl, rfl⟩
  | @removed wd name kind rest dir _ _ hqueue hkind =>
      obtain ⟨-, hold⟩ := hlocated.queue wd name kind (hqueue ▸ List.mem_cons_self)
      rcases hkind with rfl | rfl <;> rcases hold with hold | hold <;> cases hold
  | @created wd name kind rest dir _ hqueue hkind hdir =>
      obtain ⟨⟨inode, hlookup⟩, hold⟩ := hlocated.queue wd name kind (hqueue ▸ List.mem_cons_self)
      have hcreate : kind = .create := by
        rcases hkind with rfl | rfl <;> rcases hold with hold | hold <;> first | rfl | cases hold
      subst hcreate
      have hlocate : t.locate tree (FileWatcher.joinPath dir name.bytes) = some inode :=
        (locate_joinPath (hlocated.watchMap _ (mem_of_watchedAs hdir)) name).trans hlookup
      have hnew : FileWatcher.joinPath dir name.bytes ∉ t.files := fun hmem =>
        hnews.unused wd name inode (hqueue ▸ List.mem_cons_self) hlookup _ hlocate (.inl hmem)
      have htracked : Reads tree origins lines { t with
          files := t.files.insert (FileWatcher.joinPath dir name.bytes) {}
          drain := some (.statting (FileWatcher.joinPath dir name.bytes)) } := by
        refine h.track ?_ ?_ t.phase _
        · rw [stateAt_of_notMem hnew]
        · rw [stateAt_of_notMem hnew]
      exact htracked.frame rfl rfl rfl fun _ => ⟨rfl, rfl⟩
  | modified => exact h.frame rfl rfl rfl fun _ => ⟨rfl, rfl⟩

/-! ## The runs -/

/-- Up to an overflow. -/
structure Heard (tree : DirectoryTree) (t : WatchedTree) : Prop where
  located : Located tree t
  news : News tree t
  reads : Reads tree (fun path => { offset := t.firstOf path }) (fun _ => []) t
  phase : Primed t ∧ Early t.phase ∨ t.phase = .idle

theorem firstOf_eq (h : u.scanned = t.scanned) : u.firstOf = t.firstOf := by
  funext path
  unfold firstOf
  rw [h]

theorem Heard.idle_step (h : Heard tree t) (hidle : t.phase = .idle) {a : Action}
    (ha : a ≠ .overflow) (hstep : t.step tree fnmatch a = some u) :
    u.phase = .idle ∧ u.scanned = t.scanned ∧
      Reads tree (fun path => { offset := t.firstOf path }) (fun _ => []) u := by
  have hnot : ∀ {phase}, t.phase = phase → phase = .idle := fun heq => heq ▸ hidle
  cases a with
  | watch => cases hnot (register_eq_some hstep).1
  | watchDirectory => cases hnot (register_eq_some hstep).1
  | addPatterns => cases hnot (register_eq_some hstep).1
  | create =>
      obtain ⟨-, hwritten⟩ := Written.create h.located.grounded hstep
      exact ⟨hwritten.phase.trans hidle, hwritten.scanned, h.reads.written h.located hwritten⟩
  | append =>
      obtain ⟨-, hwritten⟩ := Written.append h.located.grounded hstep
      exact ⟨hwritten.phase.trans hidle, hwritten.scanned, h.reads.written h.located hwritten⟩
  | overflow => exact absurd rfl ha
  | start dirs => cases hnot (start_eq_some hstep).1
  | enter => cases of_enter hstep <;> cases hnot ‹_›
  | visit name => cases of_visit hstep <;> cases hnot ‹t.phase = _›
  | leave =>
      obtain ⟨_, _, _, hphase, -⟩ := leave_eq_some hstep
      cases hnot hphase
  | addWatch ok =>
      obtain ⟨_, _, _, hphase, -⟩ := addWatch_eq_some hstep
      cases hnot hphase
  | launch => cases hnot (launch_eq_some hstep).1
  | handle =>
      refine ⟨?_, ?_, h.reads.handle h.located h.news hstep⟩
      · cases of_handle hstep with
        | overflow _ hqueue => exact absurd (hqueue ▸ List.mem_cons_self) h.news.calm
        | skipped | removed | created | modified => exact hidle
      · cases of_handle hstep <;> rfl
  | drainNext path =>
      obtain ⟨_, -, hphase, -⟩ := drainNext_eq_some hstep
      cases hnot hphase
  | drained => cases hnot (drained_eq_some hstep).2.1
  | stat =>
      refine ⟨(stat_phase hstep).trans hidle, ?_, h.reads.stat h.located hstep⟩
      cases of_stat hstep <;> rfl
  | open_ opened =>
      refine ⟨(open_phase hstep).trans hidle, ?_, h.reads.open_ hstep⟩
      cases of_open hstep <;> rfl
  | read =>
      refine ⟨(read_phase hstep).trans hidle, ?_, h.reads.read h.located hstep⟩
      cases of_read hstep <;> rfl

/-- The step lemma. -/
theorem Heard.step (h : Heard tree t) {a : Action} (ha : a ≠ .overflow)
    (hstep : t.step tree fnmatch a = some u) : Heard tree u := by
  have hlocated := h.located.step hstep
  have hnews := h.news.step h.located (h.phase.imp_left And.right) ha hstep
  rcases h.phase with ⟨hprimed, hearly⟩ | hidle
  · obtain ⟨hnext, hphase⟩ := hprimed.step h.located hearly hstep
    exact ⟨hlocated, hnews, hnext.reads hlocated, hphase.imp_left fun hearly => ⟨hnext, hearly⟩⟩
  · obtain ⟨hphase, hscanned, hreads⟩ := h.idle_step hidle ha hstep
    refine ⟨hlocated, hnews, ?_, .inr hphase⟩
    rw [firstOf_eq hscanned]
    exact hreads

/-- The mode with events is exact: while the queue does not overflow, and with lines within the
limit, those that were passed to `process_raw` under a path are the ones that its file has behind
the end that the first scan saw under this path, or behind its beginning if the scan has not found
it there, up to the offset, in order and each of them once. Other events may be lost. -/
theorem run_hears {actions : List Action}
    (hrun : Transition.run (step tree fnmatch) {} actions = some t)
    (hcalm : ∀ a ∈ actions, a ≠ .overflow) (hstate : t.files.lookup path = some state) :
    ∃ inode, t.locate tree path = some inode ∧
      ReadSince t path inode { offset := t.firstOf path } [] state := by
  have hstart : Heard tree {} :=
    ⟨start_located, start_news, start_primed.reads start_located, .inl ⟨start_primed, trivial⟩⟩
  have hend : Heard tree t := Transition.run_invariant_of_forall
    (fun _ _ _ h ha hstep => Heard.step h ha hstep) hstart hcalm hrun
  obtain ⟨inode, hlocate, -⟩ := hend.located.files path state hstate
  have hread := hend.reads.since path inode hlocate
  rw [stateAt_of_lookup hstate] at hread
  exact ⟨inode, hlocate, hread⟩

/-- A file is made and written after the start. The event of the second write is lost. -/
def newFile : List Action :=
  [.watch (ascii "/var/log/x"), .start [ascii "/var/log"], .enter, .leave, .enter, .addWatch true,
    .launch, .create 1 fileX true, .append 1 fileX (ascii "a\n") true,
    .append 1 fileX (ascii "b\n") false, .handle, .stat, .open_ true, .read, .handle, .stat]

theorem run_hears_var_log : ∃ t state,
    Transition.run (step twoDirs (· == ·)) {} newFile = some t ∧ t.queue = [] ∧
      t.emitted = [(ascii "/var/log/x", [⟨1, 0, 97⟩]), (ascii "/var/log/x", [⟨1, 2, 98⟩])] ∧
      ∃ inode, t.locate twoDirs (ascii "/var/log/x") = some inode ∧
        ReadSince t (ascii "/var/log/x") inode { offset := t.firstOf (ascii "/var/log/x") } []
          state := by
  obtain ⟨t, state, hrun, hqueue, hemitted, hstate⟩ : ∃ t state,
      Transition.run (step twoDirs (· == ·)) {} newFile = some t ∧ t.queue = [] ∧
        t.emitted = [(ascii "/var/log/x", [⟨1, 0, 97⟩]), (ascii "/var/log/x", [⟨1, 2, 98⟩])] ∧
        t.files.lookup (ascii "/var/log/x") = some state := ⟨_, _, rfl, rfl, rfl, rfl⟩
  have hcalm : ∀ a ∈ newFile, a ≠ .overflow := by simp [newFile]
  exact ⟨t, state, hrun, hqueue, hemitted, run_hears hrun hcalm hstate⟩

end WatchedTree

end LogMind
