import LogMind.Watcher.Priming
import LogMind.Watcher.TreeSteps

/-!
# The polling mode

If no directory can be watched, the thread of the watcher runs `poll_loop`. A round scans the
registered directories for new files, which are read from their first byte, and then drains every
tracked file. Writers create files and append to them between any two steps, as before; nothing is
renamed, deleted or truncated.
-/

namespace LogMind

/-- The path that `drain_file` is at. -/
def DrainPhase.path : DrainPhase → Bytes
  | .statting path => path
  | .opening path => path
  | .reading path _ => path

namespace WatchedTree

inductive PollAction where
  | create (dir : Nat) (name : FileName)
  | append (dir : Nat) (name : FileName) (bytes : Bytes)
  /-- A round begins, with the directories in the order of `m_dir_patterns`. -/
  | round (dirs : List Bytes)
  | enter
  | visit (name : FileName)
  | leave
  | drainNext (path : Bytes)
  | stat
  | open_ (opened : Bool)
  | read
  /-- The round is over. -/
  | sleep

variable (tree : DirectoryTree) (fnmatch : Bytes → Bytes → Bool)

def round (t : WatchedTree) (dirs : List Bytes) : Option WatchedTree :=
  match t.phase with
  | .polling =>
      if dirs.isPerm t.dirPatterns.keys then some { t with phase := .scanning false dirs } else none
  | _ => none

def sleep (t : WatchedTree) : Option WatchedTree :=
  match t.drain, t.phase with
  | none, .draining [] => some { t with phase := .polling }
  | _, _ => none

/-- A step of a writer or of `poll_loop`, which calls `scan_directory` and `drain_file`. -/
def poll (t : WatchedTree) : PollAction → Option WatchedTree
  | .create dir name => t.create dir name false
  | .append dir name bytes => t.append dir name bytes false
  | .round dirs => t.round dirs
  | .enter => t.enter tree
  | .visit name => t.visit tree fnmatch name
  | .leave => t.leave
  | .drainNext path => t.drainNext path
  | .stat => t.stat tree
  | .open_ opened => t.open_ tree opened
  | .read => t.read
  | .sleep => t.sleep

variable {tree fnmatch} {t u : WatchedTree} {path : Bytes} {d : Nat} {name : FileName}

theorem round_eq_some {dirs : List Bytes} (hstep : t.round dirs = some u) :
    t.phase = .polling ∧ dirs.isPerm t.dirPatterns.keys ∧
      u = { t with phase := .scanning false dirs } := by
  unfold WatchedTree.round at hstep
  split at hstep
  case h_1 hphase =>
    split at hstep
    case isTrue hperm => exact ⟨hphase, hperm, (Option.some.inj hstep).symm⟩
    case isFalse => cases hstep
  case h_2 => cases hstep

theorem sleep_eq_some (hstep : t.sleep = some u) :
    t.drain = none ∧ t.phase = .draining [] ∧ u = { t with phase := .polling } := by
  unfold WatchedTree.sleep at hstep
  split at hstep
  case h_1 hdrain hphase => exact ⟨hdrain, hphase, (Option.some.inj hstep).symm⟩
  case h_2 => cases hstep

/-! ## The phases -/

/-- In a scan or among the drains behind it, later than the start. -/
def Rescans : WatchPhase → Prop
  | .scanning false _ | .visiting false _ _ _ | .draining _ => True
  | _ => False

/-- The thread is in `poll_loop`. -/
def Polls (phase : WatchPhase) : Prop := phase = .polling ∨ Rescans phase

/-- The thread is in `inotify_loop`. -/
def Notified (phase : WatchPhase) : Prop := phase = .idle ∨ Rescans phase

theorem Rescans.not_prime {phase : WatchPhase} (h : Rescans phase) : ¬ Prime phase := by
  cases phase with
  | scanning prime dirs =>
      cases prime with
      | true => exact absurd h id
      | false => exact id
  | visiting prime dir names dirs =>
      cases prime with
      | true => exact absurd h id
      | false => exact id
  | draining paths => exact id
  | stopped | watching | idle | polling => exact absurd h id

theorem Polls.not_prime {phase : WatchPhase} (h : Polls phase) : ¬ Prime phase := by
  rcases h with rfl | h
  · exact id
  · exact h.not_prime

theorem Notified.not_prime {phase : WatchPhase} (h : Notified phase) : ¬ Prime phase := by
  rcases h with rfl | h
  · exact id
  · exact h.not_prime

theorem rescans_enter (h : ¬ Prime t.phase) (hstep : t.enter tree = some u) : Rescans u.phase := by
  cases of_enter hstep with
  | missing hphase =>
      rw [hphase] at h
      rw [eq_false_of_scanning h]
      trivial
  | directory hphase =>
      rw [hphase] at h
      rw [eq_false_of_scanning h]
      trivial
  | watch hphase =>
      rw [hphase] at h
      exact absurd trivial h
  | drain => trivial

theorem rescans_visit (h : ¬ Prime t.phase) (hstep : t.visit tree fnmatch name = some u) :
    Rescans u.phase := by
  cases of_visit hstep with
  | skipped hphase =>
      rw [hphase] at h
      rw [eq_false_of_visiting h]
      trivial
  | scanned _ hphase =>
      rw [hphase] at h
      exact absurd trivial h
  | found => trivial

theorem rescans_leave (h : ¬ Prime t.phase) (hstep : t.leave = some u) : Rescans u.phase := by
  obtain ⟨prime, dir, dirs, hphase, rfl⟩ := leave_eq_some hstep
  rw [hphase] at h
  rw [eq_false_of_visiting h]
  trivial

theorem rescans_drainNext (hstep : t.drainNext path = some u) : Rescans u.phase := by
  obtain ⟨paths, -, -, -, rfl⟩ := drainNext_eq_some hstep
  trivial

theorem stat_phase (hstep : t.stat tree = some u) : u.phase = t.phase := by
  cases of_stat hstep <;> rfl

theorem open_phase {opened : Bool} (hstep : t.open_ tree opened = some u) : u.phase = t.phase := by
  cases of_open hstep <;> rfl

theorem read_phase (hstep : t.read = some u) : u.phase = t.phase := by
  cases of_read hstep <;> rfl

theorem notify_phase (t : WatchedTree) (d : Nat) (name : FileName) (kind : EventKind)
    (queued : Bool) : (t.notify d name kind queued).phase = t.phase := by
  unfold notify
  split <;> rfl

/-- Writers do not change the phase. -/
theorem create_phase {queued : Bool} (hstep : t.create d name queued = some u) :
    u.phase = t.phase := by
  unfold WatchedTree.create at hstep
  split at hstep
  · cases hstep
  · rw [← Option.some.inj hstep]
    exact notify_phase _ _ _ _ _

theorem append_phase {bytes : Bytes} {queued : Bool}
    (hstep : t.append d name bytes queued = some u) : u.phase = t.phase := by
  obtain ⟨i, -, rfl⟩ := Option.map_eq_some_iff.mp hstep
  exact notify_phase _ _ _ _ _

/-- The thread stays in `inotify_loop`. -/
theorem Notified.step (h : Notified t.phase) {a : Action}
    (hstep : t.step tree fnmatch a = some u) : Notified u.phase := by
  have hnot : ∀ {phase}, t.phase = phase → Notified phase := fun heq => heq ▸ h
  cases a with
  | watch => exact (hnot (register_eq_some hstep).1).elim nofun (absurd · id)
  | watchDirectory => exact (hnot (register_eq_some hstep).1).elim nofun (absurd · id)
  | addPatterns => exact (hnot (register_eq_some hstep).1).elim nofun (absurd · id)
  | create => exact (create_phase hstep) ▸ h
  | append => exact (append_phase hstep) ▸ h
  | overflow => exact Option.some.inj hstep ▸ h
  | start dirs => exact (hnot (start_eq_some hstep).1).elim nofun (absurd · id)
  | enter => exact .inr (rescans_enter h.not_prime hstep)
  | visit name => exact .inr (rescans_visit h.not_prime hstep)
  | leave => exact .inr (rescans_leave h.not_prime hstep)
  | addWatch ok =>
      obtain ⟨_, _, _, hphase, -⟩ := addWatch_eq_some hstep
      exact (hnot hphase).elim nofun (absurd · id)
  | launch => exact (hnot (launch_eq_some hstep).1).elim nofun (absurd · id)
  | handle =>
      cases of_handle hstep with
      | overflow => exact .inr trivial
      | skipped | removed | created | modified => exact h
  | drainNext path => exact .inr (rescans_drainNext hstep)
  | drained =>
      obtain ⟨-, -, rfl⟩ := drained_eq_some hstep
      exact .inl rfl
  | stat => exact (stat_phase hstep) ▸ h
  | open_ opened => exact (open_phase hstep) ▸ h
  | read => exact (read_phase hstep) ▸ h

/-- The thread stays in `poll_loop`. -/
theorem Polls.poll (h : Polls t.phase) {a : PollAction}
    (hstep : t.poll tree fnmatch a = some u) : Polls u.phase := by
  cases a with
  | create => exact (create_phase hstep) ▸ h
  | append => exact (append_phase hstep) ▸ h
  | round dirs =>
      obtain ⟨-, -, rfl⟩ := round_eq_some hstep
      exact .inr trivial
  | enter => exact .inr (rescans_enter h.not_prime hstep)
  | visit name => exact .inr (rescans_visit h.not_prime hstep)
  | leave => exact .inr (rescans_leave h.not_prime hstep)
  | drainNext path => exact .inr (rescans_drainNext hstep)
  | stat => exact (stat_phase hstep) ▸ h
  | open_ opened => exact (open_phase hstep) ▸ h
  | read => exact (read_phase hstep) ▸ h
  | sleep =>
      obtain ⟨-, -, rfl⟩ := sleep_eq_some hstep
      exact .inl rfl

end WatchedTree

end LogMind
