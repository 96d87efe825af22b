import LogMind.Library.Transition
import LogMind.Watcher.Directory
import LogMind.Watcher.Paths

/-!
# The watcher over all its directories

The watcher from its registrations on: `start` scans every registered directory and
watches it, and `inotify_loop` takes the events. Writers create files and append to them
at any time, also between two steps of a scan or of a drain; nothing is renamed, deleted
or truncated, and a file has one name. The queue of events may lose an event and may
overflow. Several paths may lead to one directory: the kernel watches it once and
`m_watch_map` keeps the path that was added last.

`scanned` records what `start` saw of the files that it found. The fallback to polling is
where the model ends.
-/

namespace LogMind

structure Scan where
  dir : Bytes
  name : FileName
  inode : Nat
  size : Nat

/-- The key of the file in `m_files`. -/
def Scan.path (scan : Scan) : Bytes := FileWatcher.iterPath scan.dir scan.name.bytes

def Scan.Names (scan : Scan) (path : Bytes) : Prop :=
  path = scan.path ∨ path = FileWatcher.joinPath scan.dir scan.name.bytes

inductive Notice where
  | overflow
  | entry (wd : Nat) (name : FileName) (kind : EventKind)

/-- Where `start` and then the thread of the watcher are, outside `drain_file`. -/
inductive WatchPhase where
  | stopped
  /-- In `start` or behind an overflow, before `scan_directory` of the next directory. -/
  | scanning (prime : Bool) (dirs : List Bytes)
  | visiting (prime : Bool) (dir : Bytes) (names : List FileName) (dirs : List Bytes)
  | watching (dirs : List Bytes)
  | idle
  /-- Behind an overflow, with the files that are still to be drained. -/
  | draining (paths : List Bytes)
  | polling

inductive DrainPhase where
  | statting (path : Bytes)
  | opening (path : Bytes)
  | reading (path : Bytes) (inode : Nat)

structure WatchedTree where
  names : AList (fun _ : Nat × FileName => Nat) := ∅
  contents : Nat → Bytes := fun _ => []
  nextInode : Nat := 1
  queue : List Notice := []
  dirPatterns : FileWatcher.DirPatterns := ∅
  /-- The local `dirs` of `start`. -/
  dirs : List Bytes := []
  /-- `m_watch_map`, by the descriptors. A directory has one descriptor. -/
  watchMap : List (Nat × Bytes) := []
  files : AList (fun _ : Bytes => FileState Cell) := ∅
  phase : WatchPhase := .stopped
  drain : Option DrainPhase := none
  /-- The arguments of `process_raw`, in their order. -/
  emitted : List (Bytes × List Cell) := []
  scanned : List Scan := []

namespace WatchedTree

/-- The content of a file, with the origin of its bytes. -/
def cells (t : WatchedTree) (inode : Nat) : List Cell :=
  (t.contents inode).mapIdx fun i b => ⟨inode, i, b⟩

def size (t : WatchedTree) (inode : Nat) : Nat := (t.contents inode).length

def namesIn (t : WatchedTree) (dir : Nat) : List FileName :=
  (t.names.keys.filter fun entry => entry.1 = dir).map Prod.snd

def isWatched (t : WatchedTree) (dir : Nat) : Bool := t.watchMap.any fun w => w.1 = dir

def watchedAs (t : WatchedTree) (wd : Nat) : Option Bytes :=
  (t.watchMap.find? fun w => w.1 = wd).map Prod.snd

def setWatch (watchMap : List (Nat × Bytes)) (wd : Nat) (dir : Bytes) : List (Nat × Bytes) :=
  if watchMap.any fun w => w.1 = wd then watchMap.map fun w => if w.1 = wd then (wd, dir) else w
  else watchMap ++ [(wd, dir)]

/-- An event of a watched directory, unless the queue loses it. -/
def notify (t : WatchedTree) (dir : Nat) (name : FileName) (kind : EventKind) (queued : Bool) :
    WatchedTree :=
  if queued && t.isWatched dir then { t with queue := t.queue ++ [.entry dir name kind] } else t

inductive Action where
  | watch (path : Bytes)
  | watchDirectory (dir pattern : Bytes)
  | addPatterns (patterns : List Bytes)
  | create (dir : Nat) (name : FileName) (queued : Bool)
  | append (dir : Nat) (name : FileName) (bytes : Bytes) (queued : Bool)
  | overflow
  /-- `start`, with the directories in the order of `m_dir_patterns`. -/
  | start (dirs : List Bytes)
  /-- `scan_directory` of the next directory begins, or there is none left. -/
  | enter
  | visit (name : FileName)
  | leave
  | addWatch (ok : Bool)
  | launch
  | handle
  | drainNext (path : Bytes)
  | drained
  | stat
  | open_ (opened : Bool)
  | read

variable (tree : DirectoryTree) (fnmatch : Bytes → Bytes → Bool)

def locate (t : WatchedTree) (path : Bytes) : Option Nat :=
  (tree.resolve (FileWatcher.parentDirOf path)).bind fun dir =>
    (FileName.ofBytes (FileWatcher.filenameOf path)).bind fun name => t.names.lookup (dir, name)

def matching (t : WatchedTree) (dir : Bytes) (name : FileName) : Bool :=
  FileWatcher.matching fnmatch t.dirPatterns dir name.bytes

def register (t : WatchedTree) (patterns : FileWatcher.DirPatterns) : Option WatchedTree :=
  match t.phase with
  | .stopped => some { t with dirPatterns := patterns }
  | _ => none

def create (t : WatchedTree) (dir : Nat) (name : FileName) (queued : Bool) : Option WatchedTree :=
  if (t.names.lookup (dir, name)).isSome then none
  else some (notify { t with
    names := t.names.insert (dir, name) t.nextInode
    contents := Function.update t.contents t.nextInode []
    nextInode := t.nextInode + 1 } dir name .create queued)

def append (t : WatchedTree) (dir : Nat) (name : FileName) (bytes : Bytes) (queued : Bool) :
    Option WatchedTree :=
  (t.names.lookup (dir, name)).map fun inode =>
    notify { t with
      contents := Function.update t.contents inode (t.contents inode ++ bytes) }
      dir name .modify queued

def start (t : WatchedTree) (dirs : List Bytes) : Option WatchedTree :=
  match t.phase with
  | .stopped =>
      if dirs.isPerm t.dirPatterns.keys then
        some { t with dirs := dirs, phase := .scanning true dirs }
      else none
  | _ => none

/-- `scan_directory` up to the loop. -/
def enter (t : WatchedTree) : Option WatchedTree :=
  match t.drain, t.phase with
  | none, .scanning prime (dir :: dirs) =>
      match tree.resolve dir with
      | none => some { t with phase := .scanning prime dirs }
      | some d => some { t with phase := .visiting prime dir (t.namesIn d) dirs }
  | none, .scanning true [] => some { t with phase := .watching t.dirs }
  | none, .scanning false [] => some { t with phase := .draining t.files.keys }
  | _, _ => none

/-- The loop of `scan_directory` for one entry. An entry that is made while the iterator
is under way may be found or not. -/
def visit (t : WatchedTree) (name : FileName) : Option WatchedTree :=
  match t.drain, t.phase with
  | none, .visiting prime dir names dirs =>
      (tree.resolve dir).bind fun d => (t.names.lookup (d, name)).map fun inode =>
        let t := { t with phase := .visiting prime dir (names.erase name) dirs }
        let path := FileWatcher.iterPath dir name.bytes
        if !t.matching fnmatch dir name then t
        else if path ∈ t.files then t
        else if prime then
          { t with
            files := t.files.insert path { inode := inode, offset := t.size inode }
            scanned := t.scanned ++ [⟨dir, name, inode, t.size inode⟩] }
        else
          { t with
            files := t.files.insert path { inode := inode }
            drain := some (.statting path) }
  | _, _ => none

def leave (t : WatchedTree) : Option WatchedTree :=
  match t.drain, t.phase with
  | none, .visiting prime _ [] dirs => some { t with phase := .scanning prime dirs }
  | _, _ => none

/-- `inotify_add_watch`. A directory that is watched can be watched again. -/
def addWatch (t : WatchedTree) (ok : Bool) : Option WatchedTree :=
  match t.phase with
  | .watching (dir :: dirs) =>
      let t := { t with phase := .watching dirs }
      match tree.resolve dir with
      | none => some t
      | some wd =>
          if ok || t.isWatched wd then
            some { t with watchMap := setWatch t.watchMap wd dir }
          else some t
  | _ => none

def launch (t : WatchedTree) : Option WatchedTree :=
  match t.phase with
  | .watching [] =>
      some { t with phase := if t.watchMap ≠ [] ∨ t.dirs = [] then .idle else .polling }
  | _ => none

/-- `inotify_loop` for one event, up to the call of `drain_file`. -/
def handle (t : WatchedTree) : Option WatchedTree :=
  match t.drain, t.phase, t.queue with
  | none, .idle, .overflow :: rest =>
      some { t with queue := rest, phase := .scanning false (t.watchMap.map Prod.snd) }
  | none, .idle, .entry wd name kind :: rest =>
      let t := { t with queue := rest }
      match t.watchedAs wd with
      | none => some t
      | some dir =>
          if !t.matching fnmatch dir name then some t
          else
            let path := FileWatcher.joinPath dir name.bytes
            match kind with
            | .delete | .movedFrom => some { t with files := t.files.erase path }
            | .create | .movedTo =>
                some { t with
                  files := t.files.insert path {}
                  drain := some (.statting path) }
            | .modify => some { t with drain := some (.statting path) }
  | _, _, _ => none

def drainNext (t : WatchedTree) (path : Bytes) : Option WatchedTree :=
  match t.drain, t.phase with
  | none, .draining paths =>
      if paths.contains path then
        some { t with
          phase := .draining (paths.erase path)
          drain := some (.statting path) }
      else none
  | _, _ => none

def drained (t : WatchedTree) : Option WatchedTree :=
  match t.drain, t.phase with
  | none, .draining [] => some { t with phase := .idle }
  | _, _ => none

def stat (t : WatchedTree) : Option WatchedTree :=
  match t.drain with
  | some (.statting path) =>
      match t.locate tree path with
      | none => some { t with drain := none }
      | some inode =>
          let state := ((t.files.lookup path).getD {}).noteStat inode (t.size inode)
          some { t with
            files := t.files.insert path state
            drain := if t.size inode ≤ state.offset then none else some (.opening path) }
  | _ => none

def open_ (t : WatchedTree) (opened : Bool) : Option WatchedTree :=
  match t.drain with
  | some (.opening path) =>
      match t.locate tree path with
      | some inode => some { t with drain := if opened then some (.reading path inode) else none }
      | none => some { t with drain := none }
  | _ => none

/-- One round of the read loop. A short read has met the end of the file. -/
def read (t : WatchedTree) : Option WatchedTree :=
  match t.drain with
  | some (.reading path inode) =>
      (t.files.lookup path).map fun state =>
        let got := ((t.cells inode).drop state.offset).take kReadChunk
        if got.isEmpty then { t with drain := none }
        else
          let (lines, state) := FileState.receive Cell.byte state got
          { t with
            files := t.files.insert path state
            emitted := t.emitted ++ lines.map fun line => (path, line)
            drain := if got.length == kReadChunk then some (.reading path inode) else none }
  | _ => none

def step (t : WatchedTree) : Action → Option WatchedTree
  | .watch path => t.register (FileWatcher.watch t.dirPatterns path)
  | .watchDirectory dir pattern =>
      t.register (FileWatcher.watchDirectory t.dirPatterns dir pattern)
  | .addPatterns patterns => t.register (FileWatcher.addPatterns t.dirPatterns patterns)
  | .create dir name queued => t.create dir name queued
  | .append dir name bytes queued => t.append dir name bytes queued
  | .overflow => some { t with queue := t.queue ++ [.overflow] }
  | .start dirs => t.start dirs
  | .enter => t.enter tree
  | .visit name => t.visit tree fnmatch name
  | .leave => t.leave
  | .addWatch ok => t.addWatch tree ok
  | .launch => t.launch
  | .handle => t.handle fnmatch
  | .drainNext path => t.drainNext path
  | .drained => t.drained
  | .stat => t.stat tree
  | .open_ opened => t.open_ tree opened
  | .read => t.read

/-- A byte that was passed to `process_raw` under this path is not one that the first scan
has seen. Of a file that was scanned under several paths, every path has its own scan, and
no byte is passed that all of them have seen. -/
def Skipped (scanned : List Scan) (inode : Nat) (path : Bytes) (position : Nat) : Prop :=
  ∀ scan ∈ scanned, scan.inode = inode →
    (scan.Names path → scan.size ≤ position) ∧
      ∃ other ∈ scanned, other.inode = inode ∧ other.size ≤ position

def SkipsPresent (t : WatchedTree) : Prop :=
  ∀ passed ∈ t.emitted, ∀ c ∈ passed.2, Skipped t.scanned c.inode passed.1 c.position

/-- The event does not come through the watch of "." for a file that the scan of "." has
found with content. -/
def NoticeKnown (t : WatchedTree) : Notice → Prop
  | .overflow => True
  | .entry wd name _ =>
      t.watchedAs wd = some FileWatcher.dot → t.matching fnmatch FileWatcher.dot name = true →
        ∀ scan ∈ t.scanned, scan.path = FileWatcher.iterPath FileWatcher.dot name.bytes →
          scan.size = 0

instance decidableNoticeKnown (t : WatchedTree) :
    (notice : Notice) → Decidable (t.NoticeKnown fnmatch notice)
  | .overflow => .isTrue trivial
  | .entry wd _ _ =>
      inferInstanceAs (Decidable (t.watchedAs wd = some FileWatcher.dot → _ = true →
        ∀ scan ∈ t.scanned, scan.path = _ → scan.size = 0))

def Action.handles : Action → Bool
  | .handle => true
  | _ => false

def KeyKnown (t : WatchedTree) (a : Action) : Prop :=
  a.handles = true → ∀ notice ∈ t.queue.head?, t.NoticeKnown fnmatch notice

instance decidableKeyKnown (t : WatchedTree) (a : Action) : Decidable (t.KeyKnown fnmatch a) :=
  inferInstanceAs (Decidable (_ → ∀ notice ∈ t.queue.head?, t.NoticeKnown fnmatch notice))

end WatchedTree

end LogMind
