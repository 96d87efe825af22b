import LogMind.Watcher.Polling

/-!
# The rounds of the polling mode

A round of `poll_loop` comes to every file that matches in a registered directory when it begins:
the scan of the directory tracks the file, unless it is tracked, and the file is drained behind the
scans. What writers append meanwhile is read in this round or in a later one.
-/

namespace LogMind

namespace WatchedTree

variable {tree : DirectoryTree} {fnmatch : Bytes → Bytes → Bool} {t u : WatchedTree}
  {path dir : Bytes} {inode d : Nat} {name : FileName}

/-- The first bytes of a file have been read, or the round comes to the file. -/
def Due (t : WatchedTree) (dir : Bytes) (name : FileName) (size : Nat) : Prop :=
  let path := FileWatcher.iterPath dir name.bytes
  let read := ∃ state, t.files.lookup path = some state ∧ size ≤ state.offset
  match t.phase with
  | .scanning false dirs => dir ∈ dirs ∨ path ∈ t.files
  | .visiting false current names dirs =>
      dir ∈ dirs ∨ dir = current ∧ name ∈ names ∨ path ∈ t.files
  | .draining paths => path ∈ paths ∨ (∃ phase, t.drain = some phase ∧ phase.path = path) ∨ read
  | .polling | .idle => read
  | _ => False

/-- A file that matches in a registered directory, and the round. -/
structure Covers (tree : DirectoryTree) (fnmatch : Bytes → Bytes → Bool) (t : WatchedTree)
    (dir : Bytes) (name : FileName) (inode size : Nat) : Prop where
  found : ∃ d, tree.resolve dir = some d ∧ t.names.lookup (d, name) = some inode
  size_le : size ≤ t.size inode
  matching : t.matching fnmatch dir name = true
  due : Due t dir name size

variable {size : Nat}

theorem Covers.locate (h : Covers tree fnmatch t dir name inode size) :
    t.locate tree (FileWatcher.iterPath dir name.bytes) = some inode := by
  obtain ⟨d, hd, hlookup⟩ := h.found
  exact (locate_iterPath hd name).trans hlookup

theorem Covers.grows (h : Covers tree fnmatch t dir name inode size) (hgrows : Grows t u) :
    Covers tree fnmatch u dir name inode size := by
  obtain ⟨d, hd, hlookup⟩ := h.found
  refine ⟨⟨d, hd, hgrows.names _ _ hlookup⟩, h.size_le.trans (hgrows.size inode),
    (hgrows.matching dir name).trans h.matching, ?_⟩
  have hdue := h.due
  unfold Due at hdue ⊢
  rw [hgrows.phase, hgrows.files, hgrows.drain]
  exact hdue

theorem Covers.frame (h : Covers tree fnmatch t dir name inode size) (hstill : Still t u)
    (hpatterns : u.dirPatterns = t.dirPatterns) (hdue : Due u dir name size) :
    Covers tree fnmatch u dir name inode size := by
  obtain ⟨hnames, hcontents, -, -⟩ := hstill
  refine ⟨?_, ?_, ?_, hdue⟩
  · rw [hnames]
    exact h.found
  · have hle := h.size_le
    unfold WatchedTree.size at hle ⊢
    rw [hcontents]
    exact hle
  · have hmatching := h.matching
    unfold WatchedTree.matching at hmatching ⊢
    rw [hpatterns]
    exact hmatching

theorem Covers.enter (h : Covers tree fnmatch t dir name inode size)
    (hstep : t.enter tree = some u) : Covers tree fnmatch u dir name inode size := by
  have hdue := h.due
  obtain ⟨d, hd, hlookup⟩ := h.found
  unfold Due at hdue
  cases of_enter hstep with
  | @missing prime current dirs hphase hmissing =>
      rw [hphase] at hdue
      cases prime with
      | true => exact absurd hdue id
      | false =>
          refine h.frame ⟨rfl, rfl, rfl, rfl⟩ rfl (hdue.imp_left fun hdir => ?_)
          rcases List.mem_cons.mp hdir with rfl | hdir
          · rw [hmissing] at hd
            cases hd
          · exact hdir
  | @directory prime current dirs e hphase he =>
      rw [hphase] at hdue
      cases prime with
      | true => exact absurd hdue id
      | false =>
          refine h.frame ⟨rfl, rfl, rfl, rfl⟩ rfl ?_
          rcases hdue with hdir | hfile
          · rcases List.mem_cons.mp hdir with rfl | hdir
            · obtain rfl : e = d := Option.some.inj (he.symm.trans hd)
              exact .inr (.inl ⟨rfl, mem_namesIn hlookup⟩)
            · exact .inl hdir
          · exact .inr (.inr hfile)
  | watch hphase =>
      rw [hphase] at hdue
      exact absurd hdue id
  | drain hphase =>
      rw [hphase] at hdue
      refine h.frame ⟨rfl, rfl, rfl, rfl⟩ rfl (.inl ?_)
      rcases hdue with hdir | hfile
      · exact absurd hdir List.not_mem_nil
      · exact AList.mem_keys.mp hfile

/-- An entry that has been visited is not ahead any more, but tracked if it matches. -/
theorem Covers.past (h : Covers tree fnmatch t dir name inode size) {current : Bytes}
    {visited : FileName} {names : List FileName} {dirs : List Bytes}
    (hphase : t.phase = .visiting false current names dirs)
    {files : AList (fun _ : Bytes => FileState Cell)} {drain : Option DrainPhase}
    (hkept : ∀ path ∈ t.files, path ∈ files)
    (hvisited : t.matching fnmatch current visited = true →
      FileWatcher.iterPath current visited.bytes ∈ files) :
    Covers tree fnmatch { t with
      phase := .visiting false current (names.erase visited) dirs
      files := files
      drain := drain } dir name inode size := by
  have hdue := h.due
  unfold Due at hdue
  rw [hphase] at hdue
  refine h.frame ⟨rfl, rfl, rfl, rfl⟩ rfl ?_
  rcases hdue with hdir | ⟨rfl, hname⟩ | hfile
  · exact .inl hdir
  · by_cases heq : name = visited
    · subst heq
      exact .inr (.inr (hvisited h.matching))
    · exact .inr (.inl ⟨rfl, (List.mem_erase_of_ne heq).mpr hname⟩)
  · exact .inr (.inr (hkept _ hfile))

theorem Covers.visit {visited : FileName} (h : Covers tree fnmatch t dir name inode size)
    (hstep : t.visit tree fnmatch visited = some u) :
    Covers tree fnmatch u dir name inode size := by
  have hdue := h.due
  unfold Due at hdue
  cases of_visit hstep with
  | @skipped prime current names dirs hphase hskip =>
      cases prime with
      | true =>
          rw [hphase] at hdue
          exact absurd hdue id
      | false => exact h.past hphase (fun _ => id) hskip
  | scanned _ hphase =>
      rw [hphase] at hdue
      exact absurd hdue id
  | found _ hphase =>
      exact h.past hphase (fun path hpath => (AList.mem_insert _).mpr (.inr hpath))
        fun _ => (AList.mem_insert _).mpr (.inl rfl)

theorem Covers.leave (h : Covers tree fnmatch t dir name inode size)
    (hstep : t.leave = some u) : Covers tree fnmatch u dir name inode size := by
  have hdue := h.due
  unfold Due at hdue
  obtain ⟨prime, current, dirs, hphase, rfl⟩ := leave_eq_some hstep
  rw [hphase] at hdue
  cases prime with
  | true => exact absurd hdue id
  | false =>
      refine h.frame ⟨rfl, rfl, rfl, rfl⟩ rfl ?_
      rcases hdue with hdir | ⟨-, hname⟩ | hfile
      · exact .inl hdir
      · exact absurd hname List.not_mem_nil
      · exact .inr hfile

theorem Covers.drainNext (h : Covers tree fnmatch t dir name inode size)
    (hstep : t.drainNext path = some u) : Covers tree fnmatch u dir name inode size := by
  have hdue := h.due
  unfold Due at hdue
  obtain ⟨paths, hdrain, hphase, -, rfl⟩ := drainNext_eq_some hstep
  rw [hphase] at hdue
  refine h.frame ⟨rfl, rfl, rfl, rfl⟩ rfl ?_
  rcases hdue with hpath | ⟨phase, hsome, -⟩ | hread
  · by_cases heq : FileWatcher.iterPath dir name.bytes = path
    · exact .inr (.inl ⟨_, rfl, heq.symm⟩)
    · exact .inl ((List.mem_erase_of_ne heq).mpr hpath)
  · rw [hdrain] at hsome
    cases hsome
  · exact .inr (.inr hread)

/-- `drain_file` of one file leaves the others where they are. The file that it comes to the end of
has been read. -/
theorem Covers.withDrain (h : Covers tree fnmatch t dir name inode size) {drain : DrainPhase}
    (hdrain : t.drain = some drain) {files : AList (fun _ : Bytes => FileState Cell)}
    {next : Option DrainPhase} {emitted : List (Bytes × List Cell)}
    (hfiles : ∀ other ∈ t.files, other ∈ files)
    (hothers : ∀ other, other ≠ drain.path → files.lookup other = t.files.lookup other)
    (hsame : ∀ state, t.files.lookup drain.path = some state →
      ∃ state', files.lookup drain.path = some state' ∧ state.offset ≤ state'.offset)
    (hdone : drain.path = FileWatcher.iterPath dir name.bytes →
      (∃ phase, next = some phase ∧ phase.path = drain.path) ∨
        ∃ state, files.lookup drain.path = some state ∧ t.size inode ≤ state.offset) :
    Covers tree fnmatch { t with files := files, drain := next, emitted := emitted } dir name inode
      size := by
  have hdue := h.due
  refine h.frame ⟨rfl, rfl, rfl, rfl⟩ rfl ?_
  have hread : (∃ state, t.files.lookup (FileWatcher.iterPath dir name.bytes) = some state ∧
      size ≤ state.offset) → ∃ state,
        files.lookup (FileWatcher.iterPath dir name.bytes) = some state ∧ size ≤ state.offset := by
    rintro ⟨state, hstate, hle⟩
    by_cases heq : drain.path = FileWatcher.iterPath dir name.bytes
    · obtain ⟨state', hstate', hle'⟩ := hsame state (heq ▸ hstate)
      exact ⟨state', heq ▸ hstate', hle.trans hle'⟩
    · exact ⟨state, (hothers _ (Ne.symm heq)).trans hstate, hle⟩
  unfold Due at hdue ⊢
  cases hphase : t.phase with
  | scanning prime dirs =>
      simp only [hphase] at hdue ⊢
      cases prime with
      | true => exact hdue
      | false => exact hdue.imp_right (hfiles _)
  | visiting prime current names dirs =>
      simp only [hphase] at hdue ⊢
      cases prime with
      | true => exact hdue
      | false => exact hdue.imp_right fun hrest => hrest.imp_right (hfiles _)
  | draining paths =>
      simp only [hphase] at hdue ⊢
      rcases hdue with hpath | ⟨phase, hsome, hpath⟩ | hold
      · exact .inl hpath
      · obtain rfl : drain = phase := Option.some.inj (hdrain.symm.trans hsome)
        rcases hdone hpath with ⟨phase, hnext, hat⟩ | ⟨state, hstate, hle⟩
        · exact .inr (.inl ⟨phase, hnext, hat.trans hpath⟩)
        · exact .inr (.inr ⟨state, hpath ▸ hstate, h.size_le.trans hle⟩)
      · exact .inr (.inr (hread hold))
  | polling | idle =>
      simp only [hphase] at hdue ⊢
      exact hread hdue
  | _ =>
      simp only [hphase] at hdue

theorem Covers.stat (h : Covers tree fnmatch t dir name inode size) (hlocated : Located tree t)
    (hstep : t.stat tree = some u) : Covers tree fnmatch u dir name inode size := by
  obtain ⟨path, i, state, hdrain, hlocate, hstate, rfl⟩ := hlocated.stat_eq_some hstep
  refine h.withDrain hdrain (fun other hother => (AList.mem_insert _).mpr (.inr hother))
    (fun other hne => AList.lookup_insert_ne hne)
    (fun old hold => ⟨_, AList.lookup_insert _, ?_⟩) fun heq => ?_
  · have hsame : old = state := (stateAt_of_lookup hold).symm.trans hstate
    rw [hsame]
  · change path = _ at heq
    have hsame := h.locate
    rw [← heq, hlocate] at hsame
    obtain rfl := Option.some.inj hsame
    split
    · exact .inr ⟨_, AList.lookup_insert _, ‹_›⟩
    · exact .inl ⟨_, rfl, rfl⟩

/-- No open fails. -/
theorem Covers.open_ (h : Covers tree fnmatch t dir name inode size)
    (hstep : t.open_ tree true = some u) : Covers tree fnmatch u dir name inode size := by
  cases of_open hstep with
  | failed hdrain hfailed =>
      refine h.withDrain hdrain (fun _ => id) (fun _ _ => rfl)
        (fun state hstate => ⟨state, hstate, Nat.le_refl _⟩) fun heq => ?_
      have hnone := hfailed.resolve_left nofun
      have hlocate := h.locate
      rw [← heq, DrainPhase.path, hnone] at hlocate
      cases hlocate
  | reading hdrain =>
      exact h.withDrain hdrain (fun _ => id) (fun _ _ => rfl)
        (fun state hstate => ⟨state, hstate, Nat.le_refl _⟩) fun _ => .inl ⟨_, rfl, rfl⟩

theorem Covers.read (h : Covers tree fnmatch t dir name inode size) (hlocated : Located tree t)
    (hstep : t.read = some u) : Covers tree fnmatch u dir name inode size := by
  have hinode : ∀ {path i}, t.drain = some (.reading path i) →
      path = FileWatcher.iterPath dir name.bytes → i = inode := by
    intro path i hdrain heq
    obtain ⟨j, hlocate, hreading⟩ := hlocated.drain _ hdrain
    have hsame := h.locate
    rw [← heq] at hsame
    rw [hreading path i rfl]
    exact Option.some.inj (hlocate.symm.trans hsame)
  cases of_read hstep with
  | @atEnd path i state hdrain hstate hend =>
      refine h.withDrain hdrain (fun _ => id) (fun _ _ => rfl)
        (fun state hstate => ⟨state, hstate, Nat.le_refl _⟩) fun heq => .inr ⟨state, hstate, ?_⟩
      rw [← hinode hdrain heq, ← length_cells]
      exact List.drop_eq_nil_iff.mp hend
  | @chunk path i state got hdrain hstate hgot =>
      refine h.withDrain hdrain (fun other hother => (AList.mem_insert _).mpr (.inr hother))
        (fun other hne => AList.lookup_insert_ne hne)
        (fun old hold => ⟨_, AList.lookup_insert _, ?_⟩) fun heq => ?_
      · obtain rfl := Option.some.inj (hold.symm.trans hstate)
        exact Nat.le_add_right _ _
      · split
        · exact .inl ⟨_, rfl, rfl⟩
        case isFalse hless =>
          -- a short read has left nothing behind it
          refine .inr ⟨_, AList.lookup_insert _, ?_⟩
          show t.size inode ≤ state.offset + got.length
          have hlength : got.length = min kReadChunk (t.size inode - state.offset) := by
            rw [← hgot, List.length_take, List.length_drop, length_cells, hinode hdrain heq]
          have hne : got.length ≠ kReadChunk := by simpa using hless
          omega

/-- With no file left to drain, the first bytes have been read. -/
theorem Covers.read_of_drained (h : Covers tree fnmatch t dir name inode size)
    (hdrain : t.drain = none) (hphase : t.phase = .draining []) :
    ∃ state, t.files.lookup (FileWatcher.iterPath dir name.bytes) = some state ∧
      size ≤ state.offset := by
  have hdue := h.due
  unfold Due at hdue
  rw [hphase] at hdue
  rcases hdue with hpath | ⟨phase, hsome, -⟩ | hread
  · exact absurd hpath List.not_mem_nil
  · rw [hdrain] at hsome
    cases hsome
  · exact hread

/-- A step of a round in which the files can be opened. -/
def WithinRound : PollAction → Prop
  | .round _ => False
  | .open_ opened => opened = true
  | _ => True

theorem Covers.poll (h : Covers tree fnmatch t dir name inode size) (hlocated : Located tree t)
    {a : PollAction} (ha : WithinRound a) (hstep : t.poll tree fnmatch a = some u) :
    Covers tree fnmatch u dir name inode size := by
  cases a with
  | create d other => exact h.grows (hlocated.grounded.create hstep).2
  | append d other bytes => exact h.grows (hlocated.grounded.append hstep).2
  | round dirs => exact absurd ha id
  | enter => exact h.enter hstep
  | visit visited => exact h.visit hstep
  | leave => exact h.leave hstep
  | drainNext path => exact h.drainNext hstep
  | stat => exact h.stat hlocated hstep
  | open_ opened =>
      obtain rfl : opened = true := ha
      exact h.open_ hstep
  | read => exact h.read hlocated hstep
  | sleep =>
      obtain ⟨hdrain, hphase, rfl⟩ := sleep_eq_some hstep
      exact h.frame ⟨rfl, rfl, rfl, rfl⟩ rfl (h.read_of_drained hdrain hphase)

/-- The round lemma. -/
theorem round_covers (hlocated : Located tree t) {dirs : List Bytes} {during : List PollAction}
    (hround : Transition.run (poll tree fnmatch) t (.round dirs :: during) = some u)
    (hwithin : ∀ a ∈ during, WithinRound a) (hdir : dir ∈ t.dirPatterns.keys)
    (hresolve : tree.resolve dir = some d) (hlookup : t.names.lookup (d, name) = some inode)
    (hmatch : t.matching fnmatch dir name = true) :
    Covers tree fnmatch u dir name inode (t.size inode) := by
  obtain ⟨s, hstep, hrest⟩ := Transition.run_cons_eq_some.mp hround
  have hstart : Covers tree fnmatch s dir name inode (t.size inode) := by
    obtain ⟨-, hperm, rfl⟩ := round_eq_some hstep
    exact ⟨⟨d, hresolve, hlookup⟩, Nat.le_refl _, hmatch,
      .inl ((List.isPerm_iff.mp hperm).mem_iff.mpr hdir)⟩
  have hinv : ∀ s a u, Located tree s ∧ Covers tree fnmatch s dir name inode (t.size inode) →
      WithinRound a → s.poll tree fnmatch a = some u →
        Located tree u ∧ Covers tree fnmatch u dir name inode (t.size inode) :=
    fun _ _ _ h ha hstep => ⟨h.1.poll hstep, h.2.poll h.1 ha hstep⟩
  exact (Transition.run_invariant_of_forall hinv ⟨hlocated.poll hstep, hstart⟩ hwithin hrest).2

/-- When a round in which the files can be opened is over, every file that was there when it began
and matches in a registered directory is tracked and has been read up to the size it had then, if
not further, and with lines within the limit those up to there have been passed to `process_raw`. -/
theorem run_round_reads_all {starting : List Action}
    (hstart : Transition.run (step tree fnmatch) {} starting = some t) (hphase : t.phase = .polling)
    {before during : List PollAction} {dirs : List Bytes} {s : WatchedTree}
    (hbefore : Transition.run (poll tree fnmatch) t before = some s)
    (hround : Transition.run (poll tree fnmatch) s (.round dirs :: during) = some u)
    (hwithin : ∀ a ∈ during, WithinRound a) (hover : u.phase = .polling)
    (hdir : dir ∈ s.dirPatterns.keys) (hresolve : tree.resolve dir = some d)
    (hlookup : s.names.lookup (d, name) = some inode)
    (hmatch : s.matching fnmatch dir name = true) :
    let path := FileWatcher.iterPath dir name.bytes
    ∃ state, u.files.lookup path = some state ∧ s.size inode ≤ state.offset ∧
      (Lines.Within (FileState.isLf Cell.byte) kMaxLineBytes (u.behind inode (u.firstOf path)) →
        (Lines.lines (FileState.isLf Cell.byte)
          (u.taken inode (u.firstOf path) (s.size inode))).map (FileState.stripCr Cell.byte) <+:
            u.passedAs path) := by
  intro path
  have hpolled := polled_of_run hstart hphase hbefore
  have hend : Polled tree t u := Transition.run_invariant
    (fun _ _ _ h hstep => Polled.step h hstep) hpolled hround
  have hcovers := round_covers hpolled.located hround hwithin hdir hresolve hlookup hmatch
  have hdue := hcovers.due
  unfold Due at hdue
  simp only [hover] at hdue
  obtain ⟨state, hstate, hle⟩ := hdue
  refine ⟨state, hstate, hle, fun hshort => ?_⟩
  obtain ⟨i, hread⟩ := hend.readUpTo hstate
  obtain rfl : i = inode := Option.some.inj (hread.locate.symm.trans hcovers.locate)
  obtain ⟨rest, hrest⟩ : u.taken i (u.firstOf path) (s.size i) <+:
      u.taken i (u.firstOf path) state.offset := (List.take_prefix_take_left hle).drop _
  rw [(hread.lines_eq hshort).1, ← hrest, Lines.lines_append, List.map_append]
  exact List.prefix_append _ _

theorem run_round_reads_all_var_log : ∃ t s u,
    Transition.run (step twoDirs (· == ·)) {} failedWatch = some t ∧
      Transition.run (poll twoDirs (· == ·)) t (oneRound.take 1) = some s ∧
      Transition.run (poll twoDirs (· == ·)) s (oneRound.drop 1) = some u ∧ s.size 1 = 3 ∧
      ∃ state, u.files.lookup (ascii "/var/log/x") = some state ∧ s.size 1 ≤ state.offset ∧
        (Lines.Within (FileState.isLf Cell.byte) kMaxLineBytes
            (u.behind 1 (u.firstOf (ascii "/var/log/x"))) →
          (Lines.lines (FileState.isLf Cell.byte)
            (u.taken 1 (u.firstOf (ascii "/var/log/x")) (s.size 1))).map
              (FileState.stripCr Cell.byte) <+: u.passedAs (ascii "/var/log/x")) := by
  obtain ⟨t, s, u, hstart, hphase, hbefore, hround, hover, hsize, hlookup, hmatch, hdir⟩ :
      ∃ t s u, Transition.run (step twoDirs (· == ·)) {} failedWatch = some t ∧
        t.phase = .polling ∧
        Transition.run (poll twoDirs (· == ·)) t (oneRound.take 1) = some s ∧
        Transition.run (poll twoDirs (· == ·)) s (oneRound.drop 1) = some u ∧
        u.phase = .polling ∧ s.size 1 = 3 ∧ s.names.lookup (1, fileX) = some 1 ∧
        s.matching (· == ·) (ascii "/var/log") fileX = true ∧
        ascii "/var/log" ∈ s.dirPatterns.keys :=
    ⟨_, _, _, rfl, rfl, rfl, rfl, rfl, rfl, rfl, rfl, by decide⟩
  refine ⟨t, s, u, hstart, hbefore, hround, hsize, ?_⟩
  have hwithin : ∀ a ∈ oneRound.drop 2, WithinRound a := by simp [oneRound, WithinRound]
  exact run_round_reads_all hstart hphase hbefore hround hwithin hover hdir rfl hlookup hmatch

end WatchedTree

end LogMind
