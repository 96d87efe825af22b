import LogMind.Watcher.PollRounds

/-!
# Behind an overflow

When the queue of the events overflows, events are lost. The thread then scans every directory that
is watched and drains every tracked file, while writers go on. It comes to every file that matches
and goes on where the state of its path was: no line is left out at the seam and none is passed on
twice.
-/

namespace LogMind

namespace WatchedTree

variable {tree : DirectoryTree} {fnmatch : Bytes → Bytes → Bool} {s t u : WatchedTree}
  {path dir : Bytes} {inode d : Nat} {name : FileName}

/-- A step in which no event is taken and the files can be opened. -/
def WithinRescan : Action → Prop
  | .handle => False
  | .open_ opened => opened = true
  | _ => True

/-- The rescan since `s`, and a file that it covers. -/
structure Resumes (tree : DirectoryTree) (fnmatch : Bytes → Bytes → Bool) (s t : WatchedTree)
    (dir : Bytes) (name : FileName) (inode : Nat) : Prop where
  located : Located tree t
  notified : Notified t.phase
  reads : Reads tree s.stateAt s.passedAs t
  covers : Covers tree fnmatch t dir name inode (s.size inode)

theorem Resumes.step (h : Resumes tree fnmatch s t dir name inode) {a : Action}
    (ha : WithinRescan a) (hstep : t.step tree fnmatch a = some u) :
    Resumes tree fnmatch s u dir name inode := by
  have hnot : ∀ {phase}, t.phase = phase → Notified phase := fun heq => heq ▸ h.notified
  have hboth : Reads tree s.stateAt s.passedAs u ∧
      Covers tree fnmatch u dir name inode (s.size inode) := by
    cases a with
    | watch => exact (hnot (register_eq_some hstep).1).elim nofun (absurd · id)
    | watchDirectory => exact (hnot (register_eq_some hstep).1).elim nofun (absurd · id)
    | addPatterns => exact (hnot (register_eq_some hstep).1).elim nofun (absurd · id)
    | create =>
        obtain ⟨-, hwritten⟩ := Written.create h.located.grounded hstep
        exact ⟨h.reads.written h.located hwritten, h.covers.grows hwritten.toGrows⟩
    | append =>
        obtain ⟨-, hwritten⟩ := Written.append h.located.grounded hstep
        exact ⟨h.reads.written h.located hwritten, h.covers.grows hwritten.toGrows⟩
    | overflow =>
        obtain rfl := Option.some.inj hstep
        exact ⟨h.reads.frame rfl rfl rfl fun _ => ⟨rfl, rfl⟩,
          h.covers.frame ⟨rfl, rfl, rfl, rfl⟩ rfl h.covers.due⟩
    | start dirs => exact (hnot (start_eq_some hstep).1).elim nofun (absurd · id)
    | enter => exact ⟨h.reads.enter hstep, h.covers.enter hstep⟩
    | visit visited => exact ⟨h.reads.visit h.notified.not_prime hstep, h.covers.visit hstep⟩
    | leave => exact ⟨h.reads.leave hstep, h.covers.leave hstep⟩
    | addWatch ok =>
        obtain ⟨_, _, _, hphase, -⟩ := addWatch_eq_some hstep
        exact (hnot hphase).elim nofun (absurd · id)
    | launch => exact (hnot (launch_eq_some hstep).1).elim nofun (absurd · id)
    | handle => exact absurd ha id
    | drainNext path => exact ⟨h.reads.drainNext hstep, h.covers.drainNext hstep⟩
    | drained =>
        obtain ⟨hdrain, hphase, rfl⟩ := drained_eq_some hstep
        exact ⟨h.reads.frame rfl rfl rfl fun _ => ⟨rfl, rfl⟩,
          h.covers.frame ⟨rfl, rfl, rfl, rfl⟩ rfl (h.covers.read_of_drained hdrain hphase)⟩
    | stat => exact ⟨h.reads.stat h.located hstep, h.covers.stat h.located hstep⟩
    | open_ opened =>
        obtain rfl : opened = true := ha
        exact ⟨h.reads.open_ hstep, h.covers.open_ hstep⟩
    | read => exact ⟨h.reads.read h.located hstep, h.covers.read h.located hstep⟩
  exact ⟨h.located.step hstep, h.notified.step hstep, hboth.1, hboth.2⟩

/-- The rescan begins with every directory that is watched. -/
theorem Located.resumes (h : Located tree s) (hoverflow : s.queue.head? = some .overflow)
    (hstep : s.step tree fnmatch .handle = some t) (hwatched : (d, dir) ∈ s.watchMap)
    (hlookup : s.names.lookup (d, name) = some inode)
    (hmatch : s.matching fnmatch dir name = true) :
    Resumes tree fnmatch s t dir name inode := by
  have hqueue : ∀ {wd other kind rest}, s.queue ≠ .entry wd other kind :: rest := by
    intro wd other kind rest heq
    rw [heq] at hoverflow
    cases hoverflow
  have hlocated := h.step hstep
  cases of_handle hstep with
  | overflow =>
      have hdir := List.mem_map_of_mem (f := Prod.snd) hwatched
      exact ⟨hlocated, .inr trivial, (Reads.refl h).frame rfl rfl rfl fun _ => ⟨rfl, rfl⟩,
        ⟨d, h.watchMap _ hwatched, hlookup⟩, Nat.le_refl _, hmatch, .inl hdir⟩
  | skipped _ hentry => exact absurd hentry hqueue
  | removed _ _ hentry => exact absurd hentry hqueue
  | created _ hentry => exact absurd hentry hqueue
  | modified _ hentry => exact absurd hentry hqueue

/-- When the rescan behind an overflow is over, every file that was there when it began and matches
in a directory that is watched is tracked and has been read up to the size it had then, if not
further, and what was passed on under its path meanwhile are the lines behind the offset that the
path had then, in order and each of them once. -/
theorem run_overflow_reads_all {before during : List Action}
    (hbefore : Transition.run (step tree fnmatch) {} before = some s)
    (hoverflow : s.queue.head? = some .overflow)
    (hrescan : Transition.run (step tree fnmatch) s (.handle :: during) = some u)
    (hwithin : ∀ a ∈ during, WithinRescan a) (hover : u.phase = .idle)
    (hwatched : (d, dir) ∈ s.watchMap) (hlookup : s.names.lookup (d, name) = some inode)
    (hmatch : s.matching fnmatch dir name = true) :
    let path := FileWatcher.iterPath dir name.bytes
    let origin := s.stateAt path
    ∃ state, u.files.lookup path = some state ∧ s.size inode ≤ state.offset ∧
      (Lines.Within (FileState.isLf Cell.byte) kMaxLineBytes
          (origin.pending ++ u.behind inode origin.offset) →
        u.passedAs path = s.passedAs path ++
          (Lines.lines (FileState.isLf Cell.byte)
            (origin.pending ++ u.taken inode origin.offset state.offset)).map
              (FileState.stripCr Cell.byte)) := by
  intro path origin
  obtain ⟨t, hhandle, hrest⟩ := Transition.run_cons_eq_some.mp hrescan
  have hstart := (located_of_run hbefore).resumes hoverflow hhandle hwatched hlookup hmatch
  have hend := Transition.run_invariant_of_forall
    (fun _ _ _ h ha hstep => Resumes.step h ha hstep) hstart hwithin hrest
  have hdue := hend.covers.due
  unfold Due at hdue
  simp only [hover] at hdue
  obtain ⟨state, hstate, hle⟩ := hdue
  have hread := hend.reads.since path inode hend.covers.locate
  rw [stateAt_of_lookup hstate] at hread
  exact ⟨state, hstate, hle, fun hshort => (hread.lines_eq hshort).1⟩

/-- The directory of a file with one byte is watched. The event of a write is lost. -/
def lostWrite : List Action :=
  [.create 1 fileX false, .append 1 fileX (ascii "a") false, .watch (ascii "/var/log/x"),
    .start [ascii "/var/log"], .enter, .visit fileX, .leave, .enter, .addWatch true, .launch,
    .append 1 fileX (ascii "b\n") false, .overflow]

/-- The line is found all the same. -/
def oneRescan : List Action :=
  [.enter, .visit fileX, .leave, .enter, .drainNext (ascii "/var/log/x"), .stat, .open_ true, .read,
    .drained]

theorem run_overflow_reads_all_var_log : ∃ s u,
    Transition.run (step twoDirs (· == ·)) {} lostWrite = some s ∧
      Transition.run (step twoDirs (· == ·)) s (.handle :: oneRescan) = some u ∧
      u.emitted = [(ascii "/var/log/x", [⟨1, 1, 98⟩])] ∧
      let path := ascii "/var/log/x"
      let origin := s.stateAt path
      ∃ state, u.files.lookup path = some state ∧ s.size 1 ≤ state.offset ∧
        (Lines.Within (FileState.isLf Cell.byte) kMaxLineBytes
            (origin.pending ++ u.behind 1 origin.offset) →
          u.passedAs path = s.passedAs path ++
            (Lines.lines (FileState.isLf Cell.byte)
              (origin.pending ++ u.taken 1 origin.offset state.offset)).map
                (FileState.stripCr Cell.byte)) := by
  obtain ⟨s, u, hbefore, hoverflow, hrescan, hemitted, hover, hwatched, hlookup, hmatch⟩ :
      ∃ s u, Transition.run (step twoDirs (· == ·)) {} lostWrite = some s ∧
        s.queue.head? = some .overflow ∧
        Transition.run (step twoDirs (· == ·)) s (.handle :: oneRescan) = some u ∧
        u.emitted = [(ascii "/var/log/x", [⟨1, 1, 98⟩])] ∧ u.phase = .idle ∧
        (1, ascii "/var/log") ∈ s.watchMap ∧ s.names.lookup (1, fileX) = some 1 ∧
        s.matching (· == ·) (ascii "/var/log") fileX = true :=
    ⟨_, _, rfl, rfl, rfl, rfl, rfl, by decide, rfl, rfl⟩
  have hwithin : ∀ a ∈ oneRescan, WithinRescan a := by simp [oneRescan, WithinRescan]
  exact ⟨s, u, hbefore, hrescan, hemitted,
    run_overflow_reads_all hbefore hoverflow hrescan hwithin hover hwatched hlookup hmatch⟩

end WatchedTree

end LogMind
