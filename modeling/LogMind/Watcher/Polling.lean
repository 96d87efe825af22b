import LogMind.Watcher.ReadSince

/-!
# What is read in the polling mode

The lines that are passed to `process_raw` under a path while the thread is in `poll_loop` are those
of its file behind the end of the first scan. Up to the first round nothing has been read.
-/

namespace LogMind

namespace WatchedTree

/-- Where the first scan left the file, or its first byte. -/
def firstOf (t : WatchedTree) (path : Bytes) : Nat :=
  ((t.scanned.find? fun scan => scan.path = path).map Scan.size).getD 0

/-- What was read of a file that is tracked under the path. -/
structure ReadUpTo (tree : DirectoryTree) (t : WatchedTree) (path : Bytes) (inode : Nat)
    (state : FileState Cell) : Prop where
  locate : t.locate tree path = some inode
  inode_eq : state.inode = inode
  first_le : t.firstOf path ≤ state.offset
  offset_le : state.offset ≤ t.size inode
  lines_eq : Lines.Within (FileState.isLf Cell.byte) kMaxLineBytes
      (t.behind inode (t.firstOf path)) →
    t.passedAs path = (Lines.lines (FileState.isLf Cell.byte)
        (t.taken inode (t.firstOf path) state.offset)).map (FileState.stripCr Cell.byte) ∧
      state.pending = Lines.tail (FileState.isLf Cell.byte)
        (t.taken inode (t.firstOf path) state.offset)

variable {tree : DirectoryTree} {fnmatch : Bytes → Bytes → Bool} {t u : WatchedTree}
  {path dir : Bytes} {inode d : Nat} {name : FileName} {state : FileState Cell}

theorem ReadUpTo.of_since (hlocate : t.locate tree path = some inode)
    (hinode : state.inode = inode)
    (h : ReadSince t path inode { offset := t.firstOf path } [] state) :
    ReadUpTo tree t path inode state :=
  ⟨hlocate, hinode, h.first_le, h.offset_le, h.lines_eq⟩

/-! ## Where the polling begins -/

/-- Before the thread has taken an event or begun a round. -/
def Early : WatchPhase → Prop
  | .stopped | .scanning true _ | .visiting true _ _ _ | .watching _ | .polling => True
  | _ => False

/-- Nothing has been read, and every tracked file is where its scan left it. -/
structure Primed (t : WatchedTree) : Prop where
  emitted : t.emitted = []
  drain : t.drain = none
  left : ∀ path state, t.files.lookup path = some state → ∃ scan ∈ t.scanned,
    scan.path = path ∧ state = { offset := scan.size, inode := scan.inode }

theorem Primed.frame (h : Primed t) (hscanned : u.scanned = t.scanned)
    (hfiles : u.files = t.files) (hemitted : u.emitted = t.emitted) (hdrain : u.drain = t.drain) :
    Primed u := by
  refine ⟨hemitted.trans h.emitted, hdrain.trans h.drain, ?_⟩
  rw [hfiles, hscanned]
  exact h.left

theorem Primed.enter (h : Primed t) (hearly : Early t.phase) (hstep : t.enter tree = some u) :
    Primed u ∧ Early u.phase := by
  cases of_enter hstep with
  | @missing prime dir dirs hphase =>
      rw [hphase] at hearly
      cases prime with
      | true => exact ⟨h.frame rfl rfl rfl rfl, trivial⟩
      | false => exact absurd hearly id
  | @directory prime dir dirs d hphase =>
      rw [hphase] at hearly
      cases prime with
      | true => exact ⟨h.frame rfl rfl rfl rfl, trivial⟩
      | false => exact absurd hearly id
  | watch => exact ⟨h.frame rfl rfl rfl rfl, trivial⟩
  | drain hphase =>
      rw [hphase] at hearly
      exact absurd hearly id

/-- The first scan finds a file and tracks it from its end on. -/
theorem Primed.visit (h : Primed t) (hearly : Early t.phase)
    (hstep : t.visit tree fnmatch name = some u) : Primed u ∧ Early u.phase := by
  cases of_visit hstep with
  | @skipped prime dir names dirs hphase =>
      rw [hphase] at hearly
      cases prime with
      | true => exact ⟨h.frame rfl rfl rfl rfl, trivial⟩
      | false => exact absurd hearly id
  | @scanned dir names dirs d inode =>
      refine ⟨⟨h.emitted, h.drain, fun path state hstate => ?_⟩, trivial⟩
      by_cases heq : path = FileWatcher.iterPath dir name.bytes
      · rw [heq, AList.lookup_insert] at hstate
        exact ⟨_, List.mem_append_right _ List.mem_cons_self, heq.symm,
          (Option.some.inj hstate).symm⟩
      · rw [AList.lookup_insert_ne heq] at hstate
        obtain ⟨scan, hscan, hleft⟩ := h.left path state hstate
        exact ⟨scan, List.mem_append_left _ hscan, hleft⟩
  | found _ hphase =>
      rw [hphase] at hearly
      exact absurd hearly id

/-- Up to the first event or the first round no file is read. -/
theorem Primed.step (h : Primed t) (hlocated : Located tree t) (hearly : Early t.phase)
    {a : Action} (hstep : t.step tree fnmatch a = some u) :
    Primed u ∧ (Early u.phase ∨ u.phase = .idle) := by
  have hnot : ∀ {phase}, t.phase = phase → Early phase := fun heq => heq ▸ hearly
  have hidle : ∀ {phase}, t.drain ≠ some phase := by
    rw [h.drain]
    nofun
  have hgrows : Grows t u → Primed u ∧ (Early u.phase ∨ u.phase = .idle) := fun hgrows =>
    ⟨h.frame hgrows.scanned hgrows.files hgrows.emitted hgrows.drain, .inl (hgrows.phase ▸ hearly)⟩
  have hregister : ∀ {patterns}, t.register patterns = some u →
      Primed u ∧ (Early u.phase ∨ u.phase = .idle) := by
    intro patterns hstep
    obtain ⟨-, rfl⟩ := register_eq_some hstep
    exact ⟨h.frame rfl rfl rfl rfl, .inl hearly⟩
  cases a with
  | watch => exact hregister hstep
  | watchDirectory => exact hregister hstep
  | addPatterns => exact hregister hstep
  | create => exact hgrows (hlocated.grounded.create hstep).2
  | append => exact hgrows (hlocated.grounded.append hstep).2
  | overflow =>
      obtain rfl := Option.some.inj hstep
      exact ⟨h.frame rfl rfl rfl rfl, .inl hearly⟩
  | start dirs =>
      obtain ⟨-, -, rfl⟩ := start_eq_some hstep
      exact ⟨h.frame rfl rfl rfl rfl, .inl trivial⟩
  | enter =>
      obtain ⟨hprimed, hnext⟩ := h.enter hearly hstep
      exact ⟨hprimed, .inl hnext⟩
  | visit name =>
      obtain ⟨hprimed, hnext⟩ := h.visit hearly hstep
      exact ⟨hprimed, .inl hnext⟩
  | leave =>
      obtain ⟨prime, dir, dirs, hphase, rfl⟩ := leave_eq_some hstep
      cases prime with
      | true => exact ⟨h.frame rfl rfl rfl rfl, .inl trivial⟩
      | false => exact absurd (hnot hphase) id
  | addWatch ok =>
      obtain ⟨_, _, _, -, -, rfl⟩ := addWatch_eq_some hstep
      exact ⟨h.frame rfl rfl rfl rfl, .inl trivial⟩
  | launch =>
      obtain ⟨-, rfl⟩ := launch_eq_some hstep
      refine ⟨h.frame rfl rfl rfl rfl, ?_⟩
      dsimp only
      split
      · exact .inr rfl
      · exact .inl trivial
  | handle =>
      have hphase : t.phase = .idle := by cases of_handle hstep <;> assumption
      exact absurd (hnot hphase) id
  | drainNext path =>
      obtain ⟨paths, -, hphase, -⟩ := drainNext_eq_some hstep
      exact absurd (hnot hphase) id
  | drained => exact absurd (hnot (drained_eq_some hstep).2.1) id
  | stat => cases of_stat hstep <;> exact absurd ‹_› hidle
  | open_ opened => cases of_open hstep <;> exact absurd ‹_› hidle
  | read => cases of_read hstep <;> exact absurd ‹t.drain = _› hidle

theorem start_primed : Primed {} where
  emitted := rfl
  drain := rfl
  left _ _ h := by cases h

/-- When the polling begins, nothing has been read. -/
theorem primed_of_run {actions : List Action}
    (hrun : Transition.run (step tree fnmatch) {} actions = some t) (hphase : t.phase = .polling) :
    Primed t := by
  have hreached : Located tree t ∧ (Primed t ∧ Early t.phase ∨ Notified t.phase) := by
    apply Transition.run_invariant (fun s a u hs hstep => ?_)
      ⟨start_located, .inl ⟨start_primed, trivial⟩⟩ hrun
    obtain ⟨hlocated, ⟨hprimed, hearly⟩ | hnotified⟩ := hs
    · obtain ⟨hprimed, hearly | hidle⟩ := hprimed.step hlocated hearly hstep
      · exact ⟨hlocated.step hstep, .inl ⟨hprimed, hearly⟩⟩
      · exact ⟨hlocated.step hstep, .inr (.inl hidle)⟩
    · exact ⟨hlocated.step hstep, .inr (hnotified.step hstep)⟩
  obtain ⟨-, ⟨hprimed, -⟩ | hnotified⟩ := hreached
  · exact hprimed
  · rw [hphase] at hnotified
    exact hnotified.elim nofun (absurd · id)

theorem Primed.reads (h : Primed t) (hlocated : Located tree t) :
    Reads tree (fun path => { offset := t.firstOf path }) (fun _ => []) t := by
  have hpassed : ∀ path, t.passedAs path = [] := fun path => by
    rw [passedAs, h.emitted]
    rfl
  have huntracked : ∀ path, path ∉ t.files → t.firstOf path = 0 := by
    intro path hpath
    unfold firstOf
    rw [List.find?_eq_none.mpr fun scan hscan => ?_]
    · rfl
    · have hne : scan.path ≠ path := fun heq => hpath (heq ▸ hlocated.tracked scan hscan)
      simpa using hne
  have htracked : ∀ scan ∈ t.scanned, t.firstOf scan.path = scan.size := by
    intro scan hscan
    unfold firstOf
    cases hfound : t.scanned.find? (fun other => decide (other.path = scan.path)) with
    | none => exact absurd (List.find?_eq_none.mp hfound scan hscan) (by simp)
    | some other =>
        have hsame : other.path = scan.path := by simpa using List.find?_some hfound
        rw [hlocated.grounded.once other (List.mem_of_find?_eq_some hfound) scan hscan hsame]
        rfl
  have horigin : ∀ path, (t.stateAt path).offset = t.firstOf path ∧
      (t.stateAt path).pending = [] := by
    intro path
    by_cases hpath : path ∈ t.files
    · obtain ⟨state, hstate⟩ := Option.isSome_iff_exists.mp (AList.lookup_isSome.mpr hpath)
      obtain ⟨scan, hscan, rfl, rfl⟩ := h.left path state hstate
      rw [stateAt_of_lookup hstate]
      exact ⟨(htracked scan hscan).symm, rfl⟩
    · rw [stateAt_of_notMem hpath]
      exact ⟨(huntracked path hpath).symm, rfl⟩
  refine ⟨fun path inode hlocate => ?_, fun path hlocate => ⟨?_, hpassed path⟩⟩
  · have hfits := hlocated.fits hlocate
    have hfirst : Fits inode (t.size inode) { offset := t.firstOf path } :=
      ⟨.inl rfl, (horigin path).1 ▸ hfits.offset_le, fun _ hmem => absurd hmem List.not_mem_nil⟩
    rw [← hpassed path]
    exact (ReadSince.refl hfirst path).frame rfl rfl (horigin path).1 (horigin path).2
  · have hzero := (horigin path).1
    rw [stateAt_of_absent hlocated hlocate] at hzero
    rw [← hzero]

/-! ## The rounds -/

/-- Since `t₀`, when the polling began. -/
structure Polled (tree : DirectoryTree) (t₀ t : WatchedTree) : Prop where
  located : Located tree t
  polls : Polls t.phase
  known : ∀ path state, t.files.lookup path = some state → t.locate tree path = some state.inode
  reads : Reads tree (fun path => { offset := t₀.firstOf path }) (fun _ => []) t
  scanned : t.scanned = t₀.scanned

variable {t₀ : WatchedTree}

theorem Polled.of_primed (h : Primed t) (hlocated : Located tree t) (hphase : t.phase = .polling) :
    Polled tree t t where
  located := hlocated
  polls := .inl hphase
  known path state hstate := by
    obtain ⟨scan, hscan, rfl, rfl⟩ := h.left path state hstate
    exact hlocated.grounded.locate_scan hscan
  reads := h.reads hlocated
  scanned := rfl

/-- The recorded inodes are those of the files. -/
theorem Polled.known_step (h : Polled tree t₀ t) {a : PollAction}
    (hstep : t.poll tree fnmatch a = some u) (path : Bytes) (state : FileState Cell)
    (hstate : u.files.lookup path = some state) : u.locate tree path = some state.inode := by
  have hgrows : Grows t u → u.locate tree path = some state.inode := fun hgrows =>
    hgrows.locate (h.known path state (hgrows.files ▸ hstate))
  have hinsert : ∀ {other inode} {new : FileState Cell}, t.locate tree other = some inode →
      new.inode = inode → (t.files.insert other new).lookup path = some state →
      t.locate tree path = some state.inode := by
    intro other inode new hlocate hnew hstate
    by_cases heq : path = other
    · subst heq
      rw [AList.lookup_insert] at hstate
      rw [hlocate, ← Option.some.inj hstate, hnew]
    · rw [AList.lookup_insert_ne heq] at hstate
      exact h.known path state hstate
  cases a with
  | create => exact hgrows (h.located.grounded.create hstep).2
  | append => exact hgrows (h.located.grounded.append hstep).2
  | round dirs =>
      obtain ⟨-, -, rfl⟩ := round_eq_some hstep
      exact h.known path state hstate
  | enter => cases of_enter hstep <;> exact h.known path state hstate
  | visit name =>
      cases of_visit hstep with
      | skipped => exact h.known path state hstate
      | scanned _ _ hdir hlookup =>
          exact hinsert ((locate_iterPath hdir name).trans hlookup) rfl hstate
      | found _ _ hdir hlookup =>
          exact hinsert ((locate_iterPath hdir name).trans hlookup) rfl hstate
  | leave =>
      obtain ⟨_, _, _, -, rfl⟩ := leave_eq_some hstep
      exact h.known path state hstate
  | drainNext other =>
      obtain ⟨_, -, -, -, rfl⟩ := drainNext_eq_some hstep
      exact h.known path state hstate
  | stat =>
      obtain ⟨other, inode, noted, -, hlocate, -, rfl⟩ := h.located.stat_eq_some hstep
      exact hinsert hlocate rfl hstate
  | open_ opened => cases of_open hstep <;> exact h.known path state hstate
  | read =>
      cases of_read hstep with
      | atEnd => exact h.known path state hstate
      | @chunk other inode old got _ hold =>
          have hsame : (FileState.receive Cell.byte old got).2.inode = old.inode := rfl
          exact hinsert (h.known other old hold) hsame hstate
  | sleep =>
      obtain ⟨-, -, rfl⟩ := sleep_eq_some hstep
      exact h.known path state hstate

theorem Polled.reads_step (h : Polled tree t₀ t) {a : PollAction}
    (hstep : t.poll tree fnmatch a = some u) :
    Reads tree (fun path => { offset := t₀.firstOf path }) (fun _ => []) u := by
  cases a with
  | create => exact h.reads.written h.located (Written.create h.located.grounded hstep).2
  | append => exact h.reads.written h.located (Written.append h.located.grounded hstep).2
  | round dirs =>
      obtain ⟨-, -, rfl⟩ := round_eq_some hstep
      exact h.reads.frame rfl rfl rfl fun _ => ⟨rfl, rfl⟩
  | enter => exact h.reads.enter hstep
  | visit name => exact h.reads.visit h.polls.not_prime hstep
  | leave => exact h.reads.leave hstep
  | drainNext path => exact h.reads.drainNext hstep
  | stat => exact h.reads.stat h.located hstep
  | open_ opened => exact h.reads.open_ hstep
  | read => exact h.reads.read h.located hstep
  | sleep =>
      obtain ⟨-, -, rfl⟩ := sleep_eq_some hstep
      exact h.reads.frame rfl rfl rfl fun _ => ⟨rfl, rfl⟩

/-- Only the first scan records what it saw. -/
theorem Polled.scanned_step (h : Polled tree t₀ t) {a : PollAction}
    (hstep : t.poll tree fnmatch a = some u) : u.scanned = t.scanned := by
  cases a with
  | create => exact (h.located.grounded.create hstep).2.scanned
  | append => exact (h.located.grounded.append hstep).2.scanned
  | round dirs =>
      obtain ⟨-, -, rfl⟩ := round_eq_some hstep
      rfl
  | enter => cases of_enter hstep <;> rfl
  | visit name =>
      cases of_visit hstep with
      | skipped | found => rfl
      | scanned _ hphase =>
          have hprime := h.polls.not_prime
          rw [hphase] at hprime
          exact absurd trivial hprime
  | leave =>
      obtain ⟨_, _, _, -, rfl⟩ := leave_eq_some hstep
      rfl
  | drainNext other =>
      obtain ⟨_, -, -, -, rfl⟩ := drainNext_eq_some hstep
      rfl
  | stat => cases of_stat hstep <;> rfl
  | open_ opened => cases of_open hstep <;> rfl
  | read => cases of_read hstep <;> rfl
  | sleep =>
      obtain ⟨-, -, rfl⟩ := sleep_eq_some hstep
      rfl

/-- The step lemma. -/
theorem Polled.step (h : Polled tree t₀ t) {a : PollAction}
    (hstep : t.poll tree fnmatch a = some u) : Polled tree t₀ u where
  located := h.located.poll hstep
  polls := h.polls.poll hstep
  known := h.known_step hstep
  reads := h.reads_step hstep
  scanned := (h.scanned_step hstep).trans h.scanned

theorem polled_of_run {starting : List Action}
    (hstart : Transition.run (step tree fnmatch) {} starting = some t) (hphase : t.phase = .polling)
    {actions : List PollAction} (hrun : Transition.run (poll tree fnmatch) t actions = some u) :
    Polled tree t u :=
  Transition.run_invariant (fun _ _ _ h hstep => Polled.step h hstep)
    (Polled.of_primed (primed_of_run hstart hphase) (located_of_run hstart) hphase) hrun

theorem Polled.readUpTo (h : Polled tree t₀ t) (hstate : t.files.lookup path = some state) :
    ∃ inode, ReadUpTo tree t path inode state := by
  have hlocate := h.known path state hstate
  have hread := h.reads.since path state.inode hlocate
  have hfirst : t₀.firstOf path = t.firstOf path := by
    unfold firstOf
    rw [h.scanned]
  rw [stateAt_of_lookup hstate, hfirst] at hread
  exact ⟨state.inode, .of_since hlocate rfl hread⟩

/-- With lines within the limit those that are passed to `process_raw` under a path in the polling
mode are the ones that its file has behind the end of the first scan, or behind its beginning if the
first scan has not found it, up to the offset, in order and each of them once. -/
theorem run_polls {starting : List Action}
    (hstart : Transition.run (step tree fnmatch) {} starting = some t) (hphase : t.phase = .polling)
    {actions : List PollAction} (hrun : Transition.run (poll tree fnmatch) t actions = some u)
    (hstate : u.files.lookup path = some state) :
    ∃ inode, ReadUpTo tree u path inode state :=
  (polled_of_run hstart hphase hrun).readUpTo hstate

/-- The directory of a file with one byte cannot be watched. -/
def failedWatch : List Action :=
  [.create 1 fileX false, .append 1 fileX (ascii "a") false, .watch (ascii "/var/log/x"),
    .start [ascii "/var/log"], .enter, .visit fileX, .leave, .enter, .addWatch false, .launch]

/-- It gets an LF and is read in the next round. -/
def oneRound : List PollAction :=
  [.append 1 fileX (ascii "b\n"), .round [ascii "/var/log"], .enter, .visit fileX, .leave, .enter,
    .drainNext (ascii "/var/log/x"), .stat, .open_ true, .read, .sleep]

theorem run_polls_var_log : ∃ t u state,
    Transition.run (step twoDirs (· == ·)) {} failedWatch = some t ∧ t.phase = .polling ∧
      Transition.run (poll twoDirs (· == ·)) t oneRound = some u ∧
      u.emitted = [(ascii "/var/log/x", [⟨1, 1, 98⟩])] ∧
      ∃ inode, ReadUpTo twoDirs u (ascii "/var/log/x") inode state := by
  obtain ⟨t, u, state, hstart, hphase, hrun, hemitted, hstate⟩ : ∃ t u state,
      Transition.run (step twoDirs (· == ·)) {} failedWatch = some t ∧ t.phase = .polling ∧
        Transition.run (poll twoDirs (· == ·)) t oneRound = some u ∧
        u.emitted = [(ascii "/var/log/x", [⟨1, 1, 98⟩])] ∧
        u.files.lookup (ascii "/var/log/x") = some state := ⟨_, _, _, rfl, rfl, rfl, rfl, rfl⟩
  exact ⟨t, u, state, hstart, hphase, hrun, hemitted, run_polls hstart hphase hrun hstate⟩

end WatchedTree

end LogMind
