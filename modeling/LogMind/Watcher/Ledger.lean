import LogMind.Library.Keyed
import LogMind.Watcher.Rotation

/-!
# What the watcher owes

A ledger goes along with a run of the directory and its watcher. For every name it
keeps the lines that its files got while they had it, from the start of the watching
on, and for every file how far it has been read. A file can be read only under its
name, so the lines that are unread when it loses the name are lost, unless it is open
in the read loop then. Every other line is announced by an event that is still in the
queue, or is being read.
-/

namespace LogMind

namespace Directory

/-- The run of a directory and its watcher, with what the watcher owes. -/
structure Ledger where
  directory : Directory := {}
  /-- The size of every file when the watching began. -/
  started : Nat → Nat := fun _ => 0
  /-- How far every file has been read. -/
  seen : Nat → Nat := fun _ => 0
  /-- The lines of the files that have lost the name. -/
  left : Bytes → List (List Cell) := fun _ => []

/-- The lines of the first bytes of a file, from the start of the watching on. -/
def Ledger.linesTo (l : Ledger) (inode size : Nat) : List (List Cell) :=
  Lines.linesFrom (FileState.isLf Cell.byte) ((l.directory.cells inode).take size)
    (l.started inode)

/-- The lines that a file has got since the watching began. -/
def Ledger.linesOf (l : Ledger) (inode : Nat) : List (List Cell) :=
  l.linesTo inode (l.directory.size inode)

/-- The lines that the files under a name got while they had it. -/
def Ledger.owed (l : Ledger) (name : Bytes) : List (List Cell) :=
  match l.directory.names.lookup name with
  | some inode => l.left name ++ l.linesOf inode
  | none => l.left name

/-- Those of the file under a name that have been read. -/
def Ledger.readUnder (l : Ledger) (name : Bytes) : List (List Cell) :=
  match l.directory.names.lookup name with
  | some inode => l.linesTo inode (l.seen inode)
  | none => []

/-- What was passed to `process_raw` under a name. -/
def passedAs (d : Directory) (name : Bytes) : List (List Cell) :=
  (Keyed.onKey Prod.fst name d.emitted).map Prod.snd

/-- A name is lost: what it owes stays. -/
def Ledger.leave (l : Ledger) (name : Bytes) : Bytes → List (List Cell) :=
  if l.directory.watched then Function.update l.left name (l.owed name) else l.left

/-- The file is open in the read loop, and it is the one that `stat` saw. -/
def Reads (d : Directory) (name : Bytes) (inode : Nat) : Prop :=
  d.draining = some name ∧ d.inodeRead = some inode ∧
    (d.files name).map FileState.inode = some inode

instance (d : Directory) (name : Bytes) (inode : Nat) : Decidable (d.Reads name inode) :=
  inferInstanceAs (Decidable (_ ∧ _ ∧ _))

/-- The position that the next read brings its file to. -/
def Ledger.readOn (l : Ledger) : Nat → Nat :=
  match l.directory.draining, l.directory.inodeRead with
  | some name, some inode =>
      match l.directory.files name with
      | some state =>
          if state.inode = inode then
            Function.update l.seen inode (max (l.seen inode)
              (state.offset + (l.directory.available inode state.offset).length))
          else l.seen
      | none => l.seen
  | _, _ => l.seen

namespace Ledger

variable (matching : Bytes → Bool)

def step (l : Ledger) (action : Action) : Option Ledger :=
  (Directory.step matching l.directory action).map fun d =>
    { directory := d
      started := match action with
        | .watch => l.directory.size
        | _ => l.started
      seen := match action with
        | .read => l.readOn
        | _ => l.seen
      left := match action with
        | .rename name _ | .delete name => l.leave name
        | _ => l.left }

/-- Every line that was written under the name has been passed, with one CR removed, in
order and as often as it was written. -/
def Complete (l : Ledger) (name : Bytes) : Prop :=
  ((l.owed name).map (FileState.stripCr Cell.byte)).Sublist (l.directory.passedAs name)

/-- A file that loses its name has no unread line or is in the read loop, a file that is
there can be opened, and no unfinished line is too long. -/
def Unhurried (l : Ledger) : Action → Prop
  | .rename name _ | .delete name => l.directory.watched = true → matching name = true →
      ∀ inode ∈ l.directory.names.lookup name,
        l.linesTo inode (l.seen inode) = l.linesOf inode ∨ l.directory.Reads name inode
  | .open_ opened => opened = false →
      ∀ name ∈ l.directory.draining, l.directory.names.lookup name = none
  | .read => ∀ name ∈ l.directory.draining, ∀ inode ∈ l.directory.inodeRead,
      ∀ state ∈ l.directory.files name, state.inode = inode →
        (Lines.tail (FileState.isLf Cell.byte)
          (state.pending ++ l.directory.available inode state.offset)).length ≤ kMaxLineBytes
  | _ => True

instance (l : Ledger) (name : Bytes) : Decidable (l.Complete name) :=
  inferInstanceAs (Decidable (List.Sublist _ _))

instance (l : Ledger) : (action : Action) → Decidable (Unhurried matching l action)
  | .rename name _ | .delete name => inferInstanceAs (Decidable (l.directory.watched = true →
      matching name = true → ∀ inode ∈ l.directory.names.lookup name,
        l.linesTo inode (l.seen inode) = l.linesOf inode ∨ l.directory.Reads name inode))
  | .open_ opened => inferInstanceAs (Decidable (opened = false →
      ∀ name ∈ l.directory.draining, l.directory.names.lookup name = none))
  | .read => inferInstanceAs (Decidable (∀ name ∈ l.directory.draining,
      ∀ inode ∈ l.directory.inodeRead, ∀ state ∈ l.directory.files name, state.inode = inode →
        (Lines.tail (FileState.isLf Cell.byte)
          (state.pending ++ l.directory.available inode state.offset)).length ≤ kMaxLineBytes))
  | .append .. | .create _ | .scan _ | .watch | .handle | .stat => .isTrue trivial

/-- The lines as they are passed. -/
def stripped (lines : List (List Cell)) : List (List Cell) :=
  lines.map (FileState.stripCr Cell.byte)

/-- A state has read its file from a first position up to its offset, and what was passed
under the name ends with the lines in between, behind those of `before`. -/
structure Tracks (l : Ledger) (name : Bytes) (before : List (List Cell))
    (state : FileState Cell) : Prop where
  offset_le : state.offset ≤ l.directory.size state.inode
  offset_seen : state.offset ≤ max (l.seen state.inode) (l.started state.inode)
  lines : ∃ first earlier, first ≤ l.started state.inode ∧ first ≤ state.offset ∧
    l.directory.passedAs name = earlier ++ stripped (Lines.lines (FileState.isLf Cell.byte)
      (((l.directory.cells state.inode).take state.offset).drop first)) ∧
    state.pending = Lines.tail (FileState.isLf Cell.byte)
      (((l.directory.cells state.inode).take state.offset).drop first) ∧
    (stripped before).Sublist earlier

/-- Outside a read loop, all that is owed under a name and has been read was passed. -/
structure Settled (l : Ledger) (name : Bytes) : Prop where
  passed : (stripped (l.left name ++ l.readUnder name)).Sublist (l.directory.passedAs name)
  tracks : ∀ state, l.directory.files name = some state →
    l.directory.names.lookup name = some state.inode → Tracks l name (l.left name) state

/-- In the read loop of a file, the lines behind the ones that were owed before it are
lines of it, also when it has lost the name meanwhile. -/
structure Following (l : Ledger) (name : Bytes) (inode : Nat) (before : List (List Cell)) :
    Prop where
  left : ∃ more, l.left name = before ++ more ∧ more <+: l.linesOf inode ∧
    (l.directory.names.lookup name = some inode → more = [])
  passed : (stripped (before ++ l.linesTo inode (l.seen inode))).Sublist
    (l.directory.passedAs name)
  tracks : ∀ state, l.directory.files name = some state → Tracks l name before state
  other : ∀ i, l.directory.names.lookup name = some i → i ≠ inode → l.seen i = 0

/-- A drain of the name will read the file under it. -/
def Drains (d : Directory) (name : Bytes) (inode : Nat) : Prop :=
  d.phase = .statting name ∨
    (d.phase = .opening name ∨ d.phase = .reading name inode) ∧
      (d.files name).map FileState.inode = some inode

/-- What a ledger keeps for a watched name. -/
structure Kept (l : Ledger) (name : Bytes) : Prop where
  /-- The last event of a name that is there does not remove it. -/
  last : ∀ i, l.directory.names.lookup name = some i →
    ∀ kind ∈ (eventsOf name l.directory.queue).getLast?, kind ≠ .delete ∧ kind ≠ .movedFrom
  /-- A file that the watcher opened in the place of another is the newer one. -/
  mixed : ∀ i state, l.directory.phase = .reading name i →
    l.directory.files name = some state → state.inode ≠ i →
    l.directory.names.lookup name ≠ some state.inode
  announced : ∀ i, l.directory.names.lookup name = some i →
    eventsOf name l.directory.queue ≠ [] ∨ Drains l.directory name i ∨
      l.linesTo i (l.seen i) = l.linesOf i
  settled : (∀ i, ¬ l.directory.Reads name i) → Settled l name
  following : ∀ i, l.directory.Reads name i → ∃ before, Following l name i before

/-- What the ledger keeps in every run. -/
structure Books (l : Ledger) : Prop where
  placed : Placed matching l.directory
  unknown : ∀ name state, l.directory.files name = some state → state.inode = 0 → state = {}
  /-- The file that is about to be read has been seen by `stat`. -/
  known : ∀ name state, l.directory.phase = .opening name ∨
    (∃ i, l.directory.phase = .reading name i) → l.directory.files name = some state →
      state.inode ≠ 0
  draining : ∀ name, l.directory.draining = some name → matching name = true
  unborn : ∀ i, l.directory.nextInode ≤ i → l.directory.contents i = []
  seen_le : ∀ i, l.seen i ≤ l.directory.size i
  started_le : ∀ i, l.started i ≤ l.directory.size i
  starting : l.directory.watched = false → l.directory.queue = [] ∧ l.directory.emitted = [] ∧
    (∀ name, l.left name = []) ∧ (∀ i, l.seen i = 0) ∧
    ∀ name state, l.directory.files name = some state →
      state.offset ≤ l.directory.size state.inode ∧ state.pending = []
  kept : l.directory.watched = true → ∀ name, matching name = true → Kept l name

variable {matching} {l l' : Ledger} {name : Bytes} {inode n : Nat}

/-! ## The lines of a file -/

theorem linesTo_zero : l.linesTo inode 0 = [] := Lines.linesFrom_of_length_le _ (Nat.zero_le _)

theorem linesTo_of_le_started (h : n ≤ l.started inode) : l.linesTo inode n = [] := by
  apply Lines.linesFrom_of_length_le
  rw [List.length_take]
  exact (Nat.min_le_left _ _).trans h

/-- Reading from no later than the start of the watching finds the lines. -/
theorem linesTo_sublist {first : Nat} (h : first ≤ l.started inode) :
    (l.linesTo inode n).Sublist
      (Lines.lines (FileState.isLf Cell.byte) (((l.directory.cells inode).take n).drop first)) :=
  Lines.linesFrom_sublist _ _ h

theorem linesTo_congr (hstarted : l'.started = l.started)
    (hgrows : l.directory.contents inode <+: l'.directory.contents inode)
    (hn : n ≤ l.directory.size inode) : l'.linesTo inode n = l.linesTo inode n := by
  rw [linesTo, linesTo, take_cells hgrows hn, hstarted]

/-- What has been read to its end or was there from the start has no unread line. -/
theorem linesTo_seen_eq (hle : l.seen inode ≤ l.directory.size inode)
    (hread : l.directory.size inode ≤ max (l.seen inode) (l.started inode)) :
    l.linesTo inode (l.seen inode) = l.linesOf inode := by
  rcases le_max_iff.mp hread with hseen | hstarted
  · rw [linesOf, le_antisymm hle hseen]
  · rw [linesOf, linesTo_of_le_started hstarted, linesTo_of_le_started (hle.trans hstarted)]

theorem linesOf_grows (hstarted : l'.started = l.started)
    (hle : l.started inode ≤ l.directory.size inode)
    (hgrows : l.directory.contents inode <+: l'.directory.contents inode) :
    l.linesOf inode <+: l'.linesOf inode := by
  have hsize : l.directory.size inode ≤ l'.directory.size inode := hgrows.length_le
  have hsplit := List.take_append_drop (l.directory.size inode)
    ((l'.directory.cells inode).take (l'.directory.size inode))
  rw [List.take_take, Nat.min_eq_left hsize, take_cells hgrows le_rfl] at hsplit
  unfold linesOf linesTo
  rw [hstarted, ← hsplit]
  apply Lines.linesFrom_prefix
  rw [List.length_take, length_cells, Nat.min_self]
  exact hle

/-! ## A name that a step has nothing to do with -/

theorem readUnder_of_some (h : l.directory.names.lookup name = some inode) :
    l.readUnder name = l.linesTo inode (l.seen inode) := by
  rw [readUnder, h]

theorem readUnder_of_none (h : l.directory.names.lookup name = none) : l.readUnder name = [] := by
  rw [readUnder, h]

theorem reads_iff : l.directory.Reads name inode ↔
    l.directory.phase = .reading name inode ∧
      (l.directory.files name).map FileState.inode = some inode := by
  unfold Reads draining inodeRead
  cases l.directory.phase <;> simp [and_assoc]

/-- What a step changes, as far as a name goes that it does not act on. -/
structure Apart (l l' : Ledger) (name : Bytes) : Prop where
  names : l'.directory.names.lookup name = l.directory.names.lookup name
  file : l'.directory.files name = l.directory.files name
  phase : ∀ phase : Phase, (l.directory.withPhase phase).draining = some name →
    (l'.directory.phase = phase ↔ l.directory.phase = phase)
  passed : l'.directory.passedAs name = l.directory.passedAs name
  left : l'.left name = l.left name
  started : l'.started = l.started
  seen : ∀ i, l.directory.names.lookup name = some i ∨
    (l.directory.files name).map FileState.inode = some i → l'.seen i = l.seen i
  grows : ∀ i, l.directory.contents i <+: l'.directory.contents i
  events : (eventsOf name l'.directory.queue = eventsOf name l.directory.queue ∧
      ∀ i, l.directory.names.lookup name = some i →
        l'.directory.contents i = l.directory.contents i) ∨
    ∃ earlier kind, eventsOf name l'.directory.queue = earlier ++ [kind] ∧
      kind ≠ .delete ∧ kind ≠ .movedFrom

theorem Tracks.frame {before : List (List Cell)} {state : FileState Cell}
    (h : Tracks l name before state) (hstarted : l'.started = l.started)
    (hseen : l'.seen state.inode = l.seen state.inode)
    (hgrows : l.directory.contents state.inode <+: l'.directory.contents state.inode)
    (hpassed : l'.directory.passedAs name = l.directory.passedAs name) :
    Tracks l' name before state := by
  refine ⟨h.offset_le.trans hgrows.length_le, ?_, ?_⟩
  · rw [hseen, hstarted]
    exact h.offset_seen
  · rw [hstarted, hpassed, take_cells hgrows h.offset_le]
    exact h.lines

theorem Apart.reads (h : Apart l l' name) :
    l'.directory.Reads name inode ↔ l.directory.Reads name inode := by
  rw [reads_iff, reads_iff, h.phase _ rfl, h.file]

/-- The step lemma of a name that the step does not act on. -/
theorem Kept.frame (h : Kept l name) (hapart : Apart l l' name)
    (hseen : ∀ i, l.seen i ≤ l.directory.size i)
    (hstarted : ∀ i, l.started i ≤ l.directory.size i) : Kept l' name := by
  have hlines : ∀ i, l.directory.names.lookup name = some i ∨
      (l.directory.files name).map FileState.inode = some i →
      l'.linesTo i (l'.seen i) = l.linesTo i (l.seen i) := by
    intro i hi
    rw [hapart.seen i hi]
    exact linesTo_congr hapart.started (hapart.grows i) (hseen i)
  refine ⟨?_, ?_, ?_, ?_, ?_⟩
  · intro i hi kind hkind
    rcases hapart.events with ⟨hsame, -⟩ | ⟨earlier, last, hevents, hlast⟩
    · rw [hsame] at hkind
      exact h.last i (hapart.names ▸ hi) kind hkind
    · rw [hevents, List.getLast?_concat] at hkind
      obtain rfl : last = kind := Option.some.inj hkind
      exact hlast
  · intro i state hphase hfile
    rw [hapart.names]
    exact h.mixed i state ((hapart.phase _ rfl).mp hphase) (hapart.file ▸ hfile)
  · intro i hi
    rw [hapart.names] at hi
    rcases hapart.events with ⟨hsame, hcontents⟩ | ⟨earlier, last, hevents, -⟩
    · rw [hsame, hlines i (.inl hi)]
      refine (h.announced i hi).imp id (Or.imp (fun hdrains => ?_) fun hread => ?_)
      · unfold Drains at hdrains ⊢
        rw [hapart.file, hapart.phase _ rfl, hapart.phase _ rfl, hapart.phase _ rfl]
        exact hdrains
      · have hsize : l'.directory.size i = l.directory.size i := by
          rw [size, hcontents i hi]
          rfl
        rw [hread, linesOf, linesOf, hsize]
        exact (linesTo_congr hapart.started (hapart.grows i) le_rfl).symm
    · refine .inl ?_
      rw [hevents]
      simp
  · intro hnot
    have hsettled := h.settled fun i hi => hnot i (hapart.reads.mpr hi)
    refine ⟨?_, fun state hstate hi => ?_⟩
    · have hread : l'.readUnder name = l.readUnder name := by
        unfold readUnder
        rw [hapart.names]
        split
        · exact hlines _ (.inl ‹_›)
        · rfl
      rw [hapart.left, hapart.passed, hread]
      exact hsettled.passed
    · rw [hapart.names] at hi
      rw [hapart.file] at hstate
      rw [hapart.left]
      exact (hsettled.tracks state hstate hi).frame hapart.started
        (hapart.seen _ (.inl hi)) (hapart.grows _) hapart.passed
  · intro i hi
    obtain ⟨before, hfollowing⟩ := h.following i (hapart.reads.mp hi)
    have hinode := (reads_iff.mp (hapart.reads.mp hi)).2
    obtain ⟨more, hleft, hprefix, hnone⟩ := hfollowing.left
    refine ⟨before, ⟨more, hapart.left.trans hleft,
      hprefix.trans (linesOf_grows hapart.started (hstarted i) (hapart.grows i)),
      hapart.names ▸ hnone⟩, ?_, fun state hstate => ?_, fun j hj hne => ?_⟩
    · rw [hlines i (.inr hinode), hapart.passed]
      exact hfollowing.passed
    · rw [hapart.file] at hstate
      refine (hfollowing.tracks state hstate).frame hapart.started (hapart.seen _ (.inr ?_))
        (hapart.grows _) hapart.passed
      rw [hstate]
      rfl
    · rw [hapart.names] at hj
      rw [hapart.seen j (.inl hj)]
      exact hfollowing.other j hj hne

/-! ## The steps of the writers -/

/-- The ledger after a step that only changes what the writers change. -/
def after (l : Ledger) (e : Directory) (left : Bytes → List (List Cell)) : Ledger :=
  { l with directory := e, left := left }

/-- A step that leaves the files, the watcher and what was passed alone. -/
structure Aside (d e : Directory) : Prop where
  files : e.files = d.files
  phase : e.phase = d.phase
  emitted : e.emitted = d.emitted

theorem Aside.passedAs {d e : Directory} (h : Aside d e) : e.passedAs name = d.passedAs name := by
  rw [Directory.passedAs, h.emitted]
  rfl

theorem Aside.reads {d e : Directory} (h : Aside d e) :
    e.Reads name inode ↔ d.Reads name inode := by
  unfold Reads draining inodeRead
  rw [h.phase, h.files]

theorem linesTo_after {e : Directory} {left : Bytes → List (List Cell)}
    (hcontents : e.contents inode = l.directory.contents inode) :
    (l.after e left).linesTo inode n = l.linesTo inode n := by
  unfold linesTo after cells
  rw [hcontents]

theorem linesOf_after {e : Directory} {left : Bytes → List (List Cell)}
    (hcontents : e.contents inode = l.directory.contents inode) :
    (l.after e left).linesOf inode = l.linesOf inode := by
  unfold linesOf
  rw [linesTo_after hcontents]
  show l.linesTo inode (e.contents inode).length = _
  rw [hcontents]
  rfl

theorem Tracks.aside {before : List (List Cell)} {state : FileState Cell} {e : Directory}
    {left : Bytes → List (List Cell)} (h : Tracks l name before state)
    (haside : Aside l.directory e) (hcontents : e.contents = l.directory.contents) :
    Tracks (l.after e left) name before state := by
  refine h.frame rfl rfl ?_ haside.passedAs
  show l.directory.contents _ <+: e.contents _
  rw [hcontents]

/-- The lines that were passed in a read loop are still passed. -/
theorem Following.passed_aside {before : List (List Cell)} {e : Directory}
    {left : Bytes → List (List Cell)} (h : Following l name inode before)
    (haside : Aside l.directory e) (hcontents : e.contents = l.directory.contents) :
    (stripped (before ++ (l.after e left).linesTo inode (l.seen inode))).Sublist
      (e.passedAs name) := by
  rw [linesTo_after (by rw [hcontents]), haside.passedAs]
  exact h.passed

/-- The name of a file is removed: no line of it is unread, or it is in the read loop. -/
theorem Kept.lost (h : Kept l name) {e : Directory} (haside : Aside l.directory e)
    (hcontents : e.contents = l.directory.contents)
    (hlookup : l.directory.names.lookup name = some inode) (hnone : e.names.lookup name = none)
    (hunhurried : l.linesTo inode (l.seen inode) = l.linesOf inode ∨
      l.directory.Reads name inode) :
    Kept (l.after e (Function.update l.left name (l.owed name))) name := by
  have howed : l.owed name = l.left name ++ l.linesOf inode := by rw [owed, hlookup]
  have hleft : Function.update l.left name (l.owed name) name = l.left name ++ l.linesOf inode :=
    (Function.update_self ..).trans howed
  refine ⟨fun i hi => (by cases hnone.symm.trans hi), fun i state _ _ _ hi =>
    (by cases hnone.symm.trans hi), fun i hi => (by cases hnone.symm.trans hi), ?_, ?_⟩
  · intro hnot
    have hsettled := h.settled fun i hi => hnot i (haside.reads.mpr hi)
    have hread := hunhurried.resolve_right fun hi => hnot inode (haside.reads.mpr hi)
    refine ⟨?_, fun state _ hi => (by cases hnone.symm.trans hi)⟩
    have hpassed := hsettled.passed
    rw [readUnder_of_some hlookup, hread] at hpassed
    rw [readUnder_of_none hnone, List.append_nil]
    show (stripped (Function.update l.left name (l.owed name) name)).Sublist (e.passedAs name)
    rw [hleft, haside.passedAs]
    exact hpassed
  · intro i hi
    have hreads := haside.reads.mp hi
    obtain ⟨before, hfollowing⟩ := h.following i hreads
    obtain ⟨more, hmore, hprefix, hnil⟩ := hfollowing.left
    refine ⟨before, ?_, ?_, fun state hstate => ?_, fun j hj => (by cases hnone.symm.trans hj)⟩
    · refine ⟨more ++ l.linesOf inode, ?_, ?_, fun hj => (by cases hnone.symm.trans hj)⟩
      · rw [← List.append_assoc, ← hmore]
        exact hleft
      · rw [linesOf_after (by rw [hcontents])]
        by_cases hsame : i = inode
        · subst hsame
          rw [hnil hlookup, List.nil_append]
        · -- The file that is read has lost the name before, and this one was not read at all.
          have hread := hunhurried.resolve_right fun hother =>
            hsame (Option.some.inj (hreads.2.1.symm.trans hother.2.1))
          rw [hfollowing.other inode hlookup (Ne.symm hsame), linesTo_zero] at hread
          rw [← hread, List.append_nil]
          exact hprefix
    · exact hfollowing.passed_aside haside hcontents
    · exact (hfollowing.tracks state (haside.files ▸ hstate)).aside haside hcontents

/-- A new file under a name: it is announced and nothing of it has been read. -/
theorem Kept.created (h : Kept l name) {e : Directory} (haside : Aside l.directory e)
    (hcontents : e.contents = l.directory.contents)
    (hlookup : e.names.lookup name = some inode) (hold : l.directory.names.lookup name = none)
    (hunread : l.seen inode = 0)
    (hfresh : ∀ state, l.directory.files name = some state → state.inode ≠ inode)
    (hreading : l.directory.phase ≠ .reading name inode)
    (hevents : eventsOf name e.queue = eventsOf name l.directory.queue ++ [.create]) :
    Kept (l.after e l.left) name := by
  refine ⟨?_, ?_, ?_, ?_, ?_⟩
  · intro i _ kind hkind
    change kind ∈ (eventsOf name e.queue).getLast? at hkind
    rw [hevents, List.getLast?_concat] at hkind
    obtain rfl : EventKind.create = kind := Option.some.inj hkind
    exact ⟨by decide, by decide⟩
  · intro i state _ hstate _ hi
    exact hfresh state (haside.files ▸ hstate) (Option.some.inj (hi.symm.trans hlookup))
  · intro i _
    refine .inl ?_
    show eventsOf name e.queue ≠ []
    rw [hevents]
    simp
  · intro hnot
    have hsettled := h.settled fun i hi => hnot i (haside.reads.mpr hi)
    refine ⟨?_, fun state hstate hi => ?_⟩
    · have hpassed := hsettled.passed
      rw [readUnder_of_none hold] at hpassed
      have hzero : (l.after e l.left).linesTo inode (l.seen inode) = [] := by
        rw [hunread, linesTo_zero]
      have hread : (l.after e l.left).readUnder name = [] := (readUnder_of_some hlookup).trans hzero
      rw [hread]
      show (stripped _).Sublist (e.passedAs name)
      rw [haside.passedAs]
      exact hpassed
    · exact absurd (Option.some.inj (hi.symm.trans hlookup)) (hfresh state (haside.files ▸ hstate))
  · intro i hi
    have hreads := haside.reads.mp hi
    obtain ⟨before, hfollowing⟩ := h.following i hreads
    obtain ⟨more, hmore, hprefix, hnil⟩ := hfollowing.left
    refine ⟨before, ⟨more, hmore, ?_, fun hsame => ?_⟩, ?_, fun state hstate => ?_,
      fun j hj _ => ?_⟩
    · rw [linesOf_after (by rw [hcontents])]
      exact hprefix
    · obtain rfl := Option.some.inj (hsame.symm.trans hlookup)
      exact absurd (reads_iff.mp hreads).1 hreading
    · exact hfollowing.passed_aside haside hcontents
    · exact (hfollowing.tracks state (haside.files ▸ hstate)).aside haside hcontents
    · obtain rfl := Option.some.inj (hj.symm.trans hlookup)
      exact hunread

theorem Books.unread (h : Books matching l) {i : Nat} (hi : l.directory.nextInode ≤ i) :
    l.seen i = 0 := by
  have hle := h.seen_le i
  rw [size, h.unborn i hi] at hle
  exact Nat.le_zero.mp hle

/-- The step of a writer keeps the books, if it keeps those of every name. -/
theorem Books.writes (h : Books matching l) {e : Directory} {left : Bytes → List (List Cell)}
    (hwrites : Writes matching l.directory e)
    (hunborn : ∀ i, e.nextInode ≤ i → e.contents i = [])
    (hleft : l.directory.watched = false → left = l.left)
    (hkept : l.directory.watched = true → ∀ name, matching name = true →
      Kept (l.after e left) name) : Books matching (l.after e left) := by
  have hgrows : ∀ i, l.directory.contents i <+: e.contents i := by
    intro i
    by_cases hi : i < l.directory.nextInode
    · exact hwrites.contents i hi
    · rw [h.unborn i (not_lt.mp hi)]
      exact List.nil_prefix
  refine ⟨hwrites.placed h.placed, fun name state hstate => ?_, fun name state hphase hstate => ?_,
    fun name hname => ?_, hunborn,
    fun i => (h.seen_le i).trans (hgrows i).length_le,
    fun i => (h.started_le i).trans (hgrows i).length_le, fun hunwatched => ?_, fun hwatched => ?_⟩
  · exact h.unknown name state (hwrites.files ▸ hstate)
  · exact h.known name state (hwrites.phase ▸ hphase) (hwrites.files ▸ hstate)
  · apply h.draining name
    rw [Directory.draining, ← hwrites.phase]
    exact hname
  · have hstill : l.directory.watched = false := hwrites.watched.symm.trans hunwatched
    obtain ⟨hqueue, hemitted, hnone, hseen, hfiles⟩ := h.starting hstill
    have hkeeps := hwrites.queue
    rw [hstill, if_neg Bool.false_ne_true] at hkeeps
    refine ⟨hkeeps.trans hqueue, hwrites.emitted.trans hemitted, ?_, hseen,
      fun name state hstate => ?_⟩
    · show ∀ name, left name = []
      rw [hleft hstill]
      exact hnone
    · obtain ⟨hoffset, hpending⟩ := hfiles name state (hwrites.files ▸ hstate)
      exact ⟨hoffset.trans (hgrows _).length_le, hpending⟩
  · exact hkept (hwrites.watched.symm.trans hwatched)

theorem Aside.of_writes {d e : Directory} (h : Writes matching d e) : Aside d e :=
  ⟨h.files, h.phase, h.emitted⟩

/-- A name that a writer does not act on. -/
theorem Apart.of_writes {e : Directory} {left : Bytes → List (List Cell)}
    (hwrites : Writes matching l.directory e)
    (hgrows : ∀ i, l.directory.contents i <+: e.contents i)
    (hnames : e.names.lookup name = l.directory.names.lookup name) (hleft : left name = l.left name)
    (hevents : (eventsOf name e.queue = eventsOf name l.directory.queue ∧
        ∀ i, l.directory.names.lookup name = some i → e.contents i = l.directory.contents i) ∨
      ∃ earlier kind, eventsOf name e.queue = earlier ++ [kind] ∧
        kind ≠ .delete ∧ kind ≠ .movedFrom) : Apart l (l.after e left) name := by
  refine ⟨hnames, ?_, fun phase _ => ?_, (Aside.of_writes hwrites).passedAs, hleft, rfl,
    fun _ _ => rfl, hgrows, hevents⟩
  · show e.files name = _
    rw [hwrites.files]
  · show e.phase = phase ↔ _
    rw [hwrites.phase]

/-- A notification changes nothing but the queue. -/
theorem notify_eq (d : Directory) (events : List Event) :
    (d.notify events).names = d.names ∧ (d.notify events).contents = d.contents ∧
      (d.notify events).nextInode = d.nextInode ∧
      (d.watched = true → (d.notify events).queue = d.queue ++ events) := by
  unfold notify
  split
  case isTrue => exact ⟨rfl, rfl, rfl, fun _ => rfl⟩
  case isFalse h => exact ⟨rfl, rfl, rfl, fun hwatched => absurd hwatched h⟩

theorem eventsOf_map_modify (names : List Bytes) :
    eventsOf name (names.map fun other => ⟨.modify, other⟩) =
      (names.filter fun other => other = name).map fun _ => EventKind.modify := by
  rw [eventsOf, List.filter_map, List.map_map]
  rfl

theorem Books.append (h : Books matching l) {bytes : Bytes} {e : Directory}
    (hstep : l.directory.append inode bytes = some e) :
    Books matching (l.after e l.left) := by
  have hwrites : Writes matching l.directory e := append_writes hstep
  unfold Directory.append at hstep
  split at hstep
  case isFalse => cases hstep
  case isTrue hlt =>
  have he := (Option.some.inj hstep).symm
  obtain ⟨hnames, hcontents, hnext, hqueue⟩ := notify_eq { l.directory with
    contents := Function.update l.directory.contents inode (l.directory.contents inode ++ bytes) }
    ((l.directory.namesOf inode).map fun name => ⟨.modify, name⟩)
  rw [← he] at hnames hcontents hnext hqueue
  change e.nextInode = l.directory.nextInode at hnext
  have hsame : ∀ i ≠ inode, e.contents i = l.directory.contents i := by
    intro i hi
    rw [hcontents]
    exact Function.update_of_ne hi ..
  refine h.writes hwrites (fun i hi => ?_) (fun _ => rfl) fun hwatched name hname => ?_
  · rw [hnext] at hi
    rw [hsame i (by omega), h.unborn i hi]
  · refine (h.kept hwatched name hname).frame (Apart.of_writes hwrites (fun i => ?_)
      (by rw [hnames]) rfl ?_) h.seen_le h.started_le
    · by_cases hi : i < l.directory.nextInode
      · exact hwrites.contents i hi
      · rw [h.unborn i (not_lt.mp hi)]
        exact List.nil_prefix
    · rw [hqueue hwatched, eventsOf_append, eventsOf_map_modify]
      rcases List.eq_nil_or_concat ((l.directory.namesOf inode).filter fun other => other = name)
        with hnil | ⟨others, last, hlast⟩
      · refine .inl ⟨by rw [hnil, List.map_nil, List.append_nil], fun i hi => hsame i ?_⟩
        rintro rfl
        have hmem : name ∈ (l.directory.namesOf i).filter fun other => other = name :=
          List.mem_filter.mpr ⟨mem_namesOf.mpr hi, by simp⟩
        rw [hnil] at hmem
        exact List.not_mem_nil hmem
      · refine .inr ⟨eventsOf name l.directory.queue ++ others.map fun _ => .modify, .modify, ?_,
          by decide, by decide⟩
        rw [hlast]
        simp

/-- A name is removed, and the events of it are those of no other watched name. -/
theorem Books.lose (h : Books matching l) {e : Directory}
    (hwrites : Writes matching l.directory e) (hcontents : e.contents = l.directory.contents)
    (hnext : e.nextInode = l.directory.nextInode)
    (hlookup : l.directory.names.lookup name = some inode)
    (hnone : matching name = true → e.names.lookup name = none)
    (hothers : l.directory.watched = true → ∀ other, matching other = true → other ≠ name →
      e.names.lookup other = l.directory.names.lookup other ∧
        eventsOf other e.queue = eventsOf other l.directory.queue)
    (hunhurried : l.directory.watched = true → matching name = true →
      ∀ inode ∈ l.directory.names.lookup name,
        l.linesTo inode (l.seen inode) = l.linesOf inode ∨ l.directory.Reads name inode) :
    Books matching (l.after e (l.leave name)) := by
  refine h.writes hwrites (fun i hi => ?_) (fun hunwatched => ?_) fun hwatched other hother => ?_
  · rw [hcontents]
    exact h.unborn i (hnext ▸ hi)
  · exact if_neg (by rw [hunwatched]; exact Bool.false_ne_true)
  · have hleave : l.leave name = Function.update l.left name (l.owed name) := if_pos hwatched
    rw [hleave]
    by_cases hsame : other = name
    · subst hsame
      exact (h.kept hwatched other hother).lost (Aside.of_writes hwrites) hcontents hlookup
        (hnone hother) (hunhurried hwatched hother inode hlookup)
    · obtain ⟨hnames, hevents⟩ := hothers hwatched other hother hsame
      exact (h.kept hwatched other hother).frame (Apart.of_writes hwrites
        (fun i => by rw [hcontents]) hnames (Function.update_of_ne hsame ..)
        (.inl ⟨hevents, fun i _ => by rw [hcontents]⟩)) h.seen_le h.started_le

theorem Books.rename (h : Books matching l) {target : Bytes} {e : Directory}
    (hunhurried : Unhurried matching l (.rename name target))
    (hstep : l.directory.rename matching name target = some e) :
    Books matching (l.after e (l.leave name)) := by
  have hwrites : Writes matching l.directory e := rename_writes hstep
  unfold Directory.rename at hstep
  split at hstep
  case isTrue => cases hstep
  case isFalse htarget =>
  obtain ⟨inode, hlookup, he⟩ := Option.map_eq_some_iff.mp hstep
  obtain ⟨hnames, hcontents, hnext, hqueue⟩ := notify_eq { l.directory with
    names := (l.directory.names.erase name).insert target inode }
    [⟨.movedFrom, name⟩, ⟨.movedTo, target⟩]
  rw [he] at hnames hcontents hnext hqueue
  have hne : ∀ other, matching other = true → other ≠ target := by
    rintro other hother rfl
    exact htarget hother
  refine h.lose hwrites hcontents hnext hlookup (fun hname => ?_)
    (fun hwatched other hother hsame => ⟨?_, ?_⟩) hunhurried
  · rw [hnames]
    exact (AList.lookup_insert_ne (hne name hname)).trans (AList.lookup_erase ..)
  · rw [hnames]
    exact (AList.lookup_insert_ne (hne other hother)).trans (AList.lookup_erase_ne hsame)
  · rw [hqueue hwatched, eventsOf_append]
    have hmoved : eventsOf other [(⟨.movedFrom, name⟩ : Event), ⟨.movedTo, target⟩] = [] := by
      simp [eventsOf, Ne.symm hsame, (hne other hother).symm]
    rw [hmoved, List.append_nil]

theorem Books.delete (h : Books matching l) {e : Directory}
    (hunhurried : Unhurried matching l (.delete name))
    (hstep : l.directory.delete name = some e) : Books matching (l.after e (l.leave name)) := by
  have hwrites : Writes matching l.directory e := delete_writes hstep
  unfold Directory.delete at hstep
  obtain ⟨inode, hlookup, he⟩ := Option.map_eq_some_iff.mp hstep
  obtain ⟨hnames, hcontents, hnext, hqueue⟩ := notify_eq { l.directory with
    names := l.directory.names.erase name } [⟨.delete, name⟩]
  rw [he] at hnames hcontents hnext hqueue
  refine h.lose hwrites hcontents hnext hlookup (fun _ => ?_)
    (fun hwatched other _ hsame => ⟨?_, ?_⟩) hunhurried
  · rw [hnames]
    exact AList.lookup_erase ..
  · rw [hnames]
    exact AList.lookup_erase_ne hsame
  · rw [hqueue hwatched, eventsOf_append, eventsOf_singleton_ne _ (Ne.symm hsame), List.append_nil]

theorem Books.create (h : Books matching l) {e : Directory}
    (hstep : l.directory.create name = some e) : Books matching (l.after e l.left) := by
  have hwrites : Writes matching l.directory e := create_writes hstep
  unfold Directory.create at hstep
  split at hstep
  case isTrue => cases hstep
  case isFalse hnew =>
  have hold : l.directory.names.lookup name = none := by simpa using hnew
  have he := (Option.some.inj hstep).symm
  obtain ⟨hnames, hcontents, hnext, hqueue⟩ := notify_eq { l.directory with
    names := l.directory.names.insert name l.directory.nextInode
    contents := Function.update l.directory.contents l.directory.nextInode []
    createdAs := Function.update l.directory.createdAs l.directory.nextInode name
    nextInode := l.directory.nextInode + 1 } [⟨.create, name⟩]
  rw [← he] at hnames hcontents hnext hqueue
  have hempty : Function.update l.directory.contents l.directory.nextInode [] =
      l.directory.contents := Function.update_eq_self_iff.mpr (h.unborn _ le_rfl).symm
  replace hcontents : e.contents = l.directory.contents := hcontents.trans hempty
  change e.nextInode = l.directory.nextInode + 1 at hnext
  refine h.writes hwrites (fun i hi => ?_) (fun _ => rfl) fun hwatched other hother => ?_
  · rw [hcontents]
    exact h.unborn i (by omega)
  · have hqueue : e.queue = l.directory.queue ++ [⟨.create, name⟩] := hqueue hwatched
    by_cases hsame : other = name
    · subst hsame
      refine (h.kept hwatched other hother).created (Aside.of_writes hwrites) hcontents ?_ hold
        (h.unread le_rfl) (fun state hstate hinode => ?_) (fun hphase => ?_) ?_
      · rw [hnames]
        exact AList.lookup_insert ..
      · have hpos := h.placed.nextInode_pos
        have hlt := (h.placed.files other state hstate (by omega)).1
        omega
      · have hlt := (h.placed.reading other _ hphase).2.1
        omega
      · rw [hqueue, eventsOf_append, eventsOf_singleton]
    · refine (h.kept hwatched other hother).frame (Apart.of_writes hwrites
        (fun i => by rw [hcontents]) ?_ rfl (.inl ⟨?_, fun i _ => by rw [hcontents]⟩))
        h.seen_le h.started_le
      · rw [hnames]
        exact AList.lookup_insert_ne hsame
      · rw [hqueue, eventsOf_append, eventsOf_singleton_ne _ (Ne.symm hsame), List.append_nil]

end Ledger

end Directory

end LogMind
