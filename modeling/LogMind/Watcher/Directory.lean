import LogMind.Library.Transition
import LogMind.Watcher.FileState
import Mathlib.Data.List.AList
import Mathlib.Logic.Function.Basic

/-!
# A directory and its watcher

Writers change a directory and every change queues its inotify event. The watcher
takes the events one by one, at any time, while its `stat` and its `open` see the
directory as it is then. A read goes on in the file that was opened, wherever that
has been moved since. Inodes are never given out twice, files are never truncated
and there are no hard links.

A byte carries its inode and its position, so that `emitted` says which bytes have
been passed to `process_raw`.
-/

namespace LogMind

structure Cell where
  inode : Nat
  position : Nat
  byte : UInt8
  deriving DecidableEq

inductive EventKind where
  | modify
  | create
  | movedFrom
  | movedTo
  | delete
  deriving DecidableEq

structure Event where
  kind : EventKind
  name : Bytes

inductive Phase where
  | starting
  | idle
  | statting (name : Bytes)
  | opening (name : Bytes)
  /-- In the read loop, with this inode open. -/
  | reading (name : Bytes) (inode : Nat)

structure Directory where
  names : AList (fun _ : Bytes => Nat) := ∅
  contents : Nat → Bytes := fun _ => []
  /-- The name a file was created under. -/
  createdAs : Nat → Bytes := fun _ => []
  nextInode : Nat := 1
  /-- `m_files`, with the paths of one directory by their last part. -/
  files : Bytes → Option (FileState Cell) := fun _ => none
  queue : List Event := []
  phase : Phase := .starting
  /-- The arguments of `process_raw`, in their order. -/
  emitted : List (Bytes × List Cell) := []

namespace Directory

/-- The content of a file, with the origin of its bytes. -/
def cells (d : Directory) (inode : Nat) : List Cell :=
  (d.contents inode).mapIdx fun i b => ⟨inode, i, b⟩

def size (d : Directory) (inode : Nat) : Nat := (d.contents inode).length

/-- The directory is watched once `start` is through. -/
def watched (d : Directory) : Bool :=
  match d.phase with
  | .starting => false
  | _ => true

def notify (d : Directory) (events : List Event) : Directory :=
  if d.watched then { d with queue := d.queue ++ events } else d

def withPhase (d : Directory) (phase : Phase) : Directory := { d with phase := phase }

def withFile (d : Directory) (name : Bytes) (state : FileState Cell) : Directory :=
  { d with files := Function.update d.files name (some state) }

def withoutFile (d : Directory) (name : Bytes) : Directory :=
  { d with files := Function.update d.files name none }

def emit (d : Directory) (name : Bytes) (lines : List (List Cell)) : Directory :=
  { d with emitted := d.emitted ++ lines.map fun line => (name, line) }

def withQueue (d : Directory) (queue : List Event) : Directory := { d with queue := queue }

def namesOf (d : Directory) (inode : Nat) : List Bytes :=
  (d.names.entries.filter fun entry => entry.2 = inode).map Sigma.fst

inductive Action where
  /-- A write to an open file, which may have been moved or deleted. -/
  | append (inode : Nat) (bytes : Bytes)
  /-- A file goes to a name that is not watched. -/
  | rename (name target : Bytes)
  | create (name : Bytes)
  | delete (name : Bytes)
  /-- One entry of `scan_directory` with `prime`. -/
  | scan (name : Bytes)
  | watch
  | handle
  | stat
  | open_ (opened : Bool)
  | read

variable (matching : Bytes → Bool)

def append (d : Directory) (inode : Nat) (bytes : Bytes) : Option Directory :=
  if inode < d.nextInode then
    some (notify { d with
      contents := Function.update d.contents inode (d.contents inode ++ bytes) }
      ((d.namesOf inode).map fun name => ⟨.modify, name⟩))
  else none

def rename (d : Directory) (name target : Bytes) : Option Directory :=
  if matching target then none
  else (d.names.lookup name).map fun inode =>
    notify { d with names := (d.names.erase name).insert target inode }
      [⟨.movedFrom, name⟩, ⟨.movedTo, target⟩]

def create (d : Directory) (name : Bytes) : Option Directory :=
  if (d.names.lookup name).isSome then none
  else some (notify { d with
    names := d.names.insert name d.nextInode
    contents := Function.update d.contents d.nextInode []
    createdAs := Function.update d.createdAs d.nextInode name
    nextInode := d.nextInode + 1 } [⟨.create, name⟩])

def delete (d : Directory) (name : Bytes) : Option Directory :=
  (d.names.lookup name).map fun _ =>
    notify { d with names := d.names.erase name } [⟨.delete, name⟩]

/-- A file that exists at the start is read from its end on. -/
def scan (d : Directory) (name : Bytes) : Option Directory :=
  match d.phase, d.files name with
  | .starting, none =>
      if matching name then
        match d.names.lookup name with
        | some inode => some (d.withFile name { inode := inode, offset := d.size inode })
        | none => some (d.withFile name {})
      else none
  | _, _ => none

def watch (d : Directory) : Option Directory :=
  match d.phase with
  | .starting => some (d.withPhase .idle)
  | _ => none

/-- `inotify_loop`, up to the call of `drain_file`. -/
def handle (d : Directory) : Option Directory :=
  match d.phase, d.queue with
  | .idle, event :: rest =>
      let d := d.withQueue rest
      if matching event.name then
        match event.kind with
        | .delete | .movedFrom => some (d.withoutFile event.name)
        | .create | .movedTo => some ((d.withFile event.name {}).withPhase (.statting event.name))
        | .modify => some (d.withPhase (.statting event.name))
      else some d
  | _, _ => none

def stat (d : Directory) : Option Directory :=
  match d.phase with
  | .statting name =>
      match d.names.lookup name with
      | none => some (d.withPhase .idle)
      | some inode =>
          let state := ((d.files name).getD {}).noteStat inode (d.size inode)
          some ((d.withFile name state).withPhase
            (if d.size inode ≤ state.offset then .idle else .opening name))
  | _ => none

def open_ (d : Directory) (opened : Bool) : Option Directory :=
  match d.phase with
  | .opening name =>
      match d.names.lookup name with
      | some inode => some (d.withPhase (if opened then .reading name inode else .idle))
      | none => some (d.withPhase .idle)
  | _ => none

/-- What the next read of an open file returns. -/
def available (d : Directory) (inode offset : Nat) : List Cell :=
  ((d.cells inode).drop offset).take kReadChunk

/-- One round of the read loop. A short read has met the end of the file. -/
def read (d : Directory) : Option Directory :=
  match d.phase with
  | .reading name inode =>
      (d.files name).bind fun state =>
        let got := d.available inode state.offset
        if got.isEmpty then some (d.withPhase .idle)
        else
          let (lines, state) := FileState.receive Cell.byte state got
          some (((d.withFile name state).emit name lines).withPhase
            (if got.length == kReadChunk then .reading name inode else .idle))
  | _ => none

def step (d : Directory) : Action → Option Directory
  | .append inode bytes => d.append inode bytes
  | .rename name target => d.rename matching name target
  | .create name => d.create name
  | .delete name => d.delete name
  | .scan name => d.scan matching name
  | .watch => d.watch
  | .handle => d.handle matching
  | .stat => d.stat
  | .open_ opened => d.open_ opened
  | .read => d.read

def passed (d : Directory) : List Cell := (d.emitted.map Prod.snd).flatten

end Directory

end LogMind
