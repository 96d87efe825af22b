import LogMind.Watcher.Writers
import Mathlib.Order.Basic

/-!
# Rotation and repeated bytes

A drain of a file that the watcher does not know starts at its first byte. So no byte
is passed twice as long as the file under a name is known whenever one of its bytes
has been passed and its name can still be drained. Between the removal of a name and
its next creation the queue has no event that would drain it. What is left are the
two conditions of `Harmless`, and the run at the end breaks the first.
-/

namespace LogMind

namespace Directory

/-- The name that is being drained. -/
def draining (d : Directory) : Option Bytes :=
  match d.phase with
  | .statting name | .opening name | .reading name _ => some name
  | _ => none

/-- The file that is open. -/
def inodeRead (d : Directory) : Option Nat :=
  match d.phase with
  | .reading _ inode => some inode
  | _ => none

/-- The events that say a file is new are handled before a byte of the file under
the name has been passed, and a read reads from the file that `stat` saw. -/
def Harmless (matching : Bytes → Bool) (d : Directory) : Action → Prop
  | .handle => ∀ event ∈ d.queue.head?, matching event.name →
      event.kind = .create ∨ event.kind = .movedTo →
      ∀ inode ∈ d.names.lookup event.name, ∀ c ∈ d.passed, c.inode ≠ inode
  | .read => ∀ name ∈ d.draining, ∀ inode ∈ d.inodeRead, ∀ state ∈ d.files name,
      state.inode = inode ∨ d.available inode state.offset = []
  | _ => True

instance (matching : Bytes → Bool) (d : Directory) : (action : Action) →
    Decidable (Harmless matching d action)
  | .handle => inferInstanceAs (Decidable (∀ event ∈ d.queue.head?, matching event.name →
      event.kind = .create ∨ event.kind = .movedTo →
      ∀ inode ∈ d.names.lookup event.name, ∀ c ∈ d.passed, c.inode ≠ inode))
  | .read => inferInstanceAs (Decidable (∀ name ∈ d.draining, ∀ inode ∈ d.inodeRead,
      ∀ state ∈ d.files name, state.inode = inode ∨ d.available inode state.offset = []))
  | .append .. | .rename .. | .create _ | .delete _ | .scan _ | .watch | .stat | .open_ _ =>
      .isTrue trivial

/-- Every byte is in at most one line that was passed to `process_raw`. -/
def DeliveredOnce (d : Directory) : Prop :=
  ∀ c, d.emitted.countP (fun line => decide (c ∈ line.2)) ≤ 1

/-- Names and files: where a watched inode can turn up. -/
structure Placed (matching : Bytes → Bool) (d : Directory) : Prop where
  nextInode_pos : 0 < d.nextInode
  names : ∀ name, matching name → ∀ i, d.names.lookup name = some i →
    0 < i ∧ i < d.nextInode ∧ d.createdAs i = name
  files : ∀ name state, d.files name = some state → state.inode ≠ 0 →
    state.inode < d.nextInode ∧ d.createdAs state.inode = name
  reading : ∀ name i, d.phase = .reading name i →
    0 < i ∧ i < d.nextInode ∧ d.createdAs i = name

/-- What a state keeps is the end of what was read, and nothing of it was passed. -/
def Slice (d : Directory) (state : FileState Cell) : Prop :=
  state.offset ≤ d.size state.inode ∧ ∃ a ≤ state.offset,
    state.pending = ((d.cells state.inode).take state.offset).drop a ∧
    ∀ c ∈ d.passed, c.inode = state.inode → c.position < a

structure Clean (d : Directory) : Prop where
  nodup : d.passed.Nodup
  passed : ∀ c ∈ d.passed, 0 < c.inode ∧ c.inode < d.nextInode
  slice : ∀ name state, d.files name = some state → Slice d state
  /-- Nothing has been read into the state of an unknown file. -/
  unknown : ∀ name state, d.files name = some state → state.inode = 0 → state = {}

/-- `view` says which names are there as far as the handled events tell. -/
structure Announced (matching : Bytes → Bool) (d : Directory) (view : Bytes → Bool) : Prop where
  starting : d.watched = false → d.queue = [] ∧ d.passed = []
  queue : d.watched = true → ∀ name, matching name →
    Transition.run presence (view name) (eventsOf name d.queue) =
      some (d.names.lookup name).isSome
  draining : ∀ name, d.draining = some name → matching name ∧ view name = true

/-- A file whose name can be drained is known, or nothing of it has been passed. -/
def Known (matching : Bytes → Bool) (d : Directory) (view : Bytes → Bool) : Prop :=
  ∀ name, matching name → view name = true → ∀ i, d.names.lookup name = some i →
    (∃ state, d.files name = some state ∧ state.inode = i) ∨ ∀ c ∈ d.passed, c.inode ≠ i

structure Sound (matching : Bytes → Bool) (d : Directory) (view : Bytes → Bool) : Prop where
  placed : Placed matching d
  clean : Clean d
  announced : Announced matching d view
  known : Known matching d view

section Cells

variable {d e : Directory} {inode : Nat} {c : Cell}

theorem length_cells : (d.cells inode).length = d.size inode := List.length_mapIdx

theorem getElem?_cells {i : Nat} (h : (d.cells inode)[i]? = some c) :
    c.inode = inode ∧ c.position = i := by
  rw [cells, List.getElem?_mapIdx, Option.map_eq_some_iff] at h
  obtain ⟨b, -, rfl⟩ := h
  exact ⟨rfl, rfl⟩

theorem cells_nodup : (d.cells inode).Nodup := by
  rw [List.nodup_iff_pairwise_ne, List.pairwise_iff_getElem]
  intro i j hi hj hlt heq
  have hleft := getElem?_cells (List.getElem?_eq_getElem hi)
  have hright := getElem?_cells (List.getElem?_eq_getElem hj)
  rw [heq] at hleft
  omega

/-- The bytes between two positions. -/
theorem mem_slice {a b : Nat} (h : c ∈ ((d.cells inode).take b).drop a) :
    c.inode = inode ∧ a ≤ c.position ∧ c.position < b := by
  obtain ⟨i, hi, hget⟩ := List.getElem_of_mem h
  rw [List.getElem_drop, List.getElem_take] at hget
  rw [List.length_drop, List.length_take] at hi
  have hcell := getElem?_cells (List.getElem?_eq_some_iff.mpr ⟨by omega, hget⟩)
  omega

/-- Growing keeps the bytes that were there. -/
theorem take_cells (h : d.contents inode <+: e.contents inode) {b : Nat} (hb : b ≤ d.size inode) :
    (e.cells inode).take b = (d.cells inode).take b := by
  obtain ⟨more, hmore⟩ := h
  rw [cells, ← hmore, List.mapIdx_append, List.take_append_of_le_length]
  · rfl
  · rw [List.length_mapIdx]
    exact hb

/-- A read goes on where the last one has stopped. -/
theorem take_available (d : Directory) (inode offset : Nat) :
    (d.cells inode).take (offset + (d.available inode offset).length) =
      (d.cells inode).take offset ++ d.available inode offset := by
  have hprefix : d.available inode offset <+: (d.cells inode).drop offset := List.take_prefix _ _
  rw [List.take_add, ← List.prefix_iff_eq_take.mp hprefix]

theorem available_le {offset : Nat} (h : offset ≤ d.size inode) :
    offset + (d.available inode offset).length ≤ d.size inode := by
  have hle : (d.available inode offset).length ≤ ((d.cells inode).drop offset).length :=
    (List.take_prefix _ _).length_le
  rw [List.length_drop, length_cells] at hle
  omega

/-- A short read has met the end of the file. -/
theorem size_le_of_available {offset : Nat}
    (h : (d.available inode offset).length ≠ kReadChunk) :
    d.size inode ≤ offset + (d.available inode offset).length := by
  unfold available at h ⊢
  rw [List.length_take, List.length_drop, length_cells] at h ⊢
  omega

end Cells

section Steps

variable {matching : Bytes → Bool} {d e : Directory} {view : Bytes → Bool}

theorem start_sound : Sound matching {} view := by
  refine ⟨⟨Nat.one_pos, fun _ _ _ hi => ?_, fun _ _ hf => (nomatch hf), fun _ _ hr => (nomatch hr)⟩,
    ⟨List.nodup_nil, fun _ hc => (nomatch hc), fun _ _ hf => (nomatch hf),
      fun _ _ hf => (nomatch hf)⟩,
    ⟨fun _ => ⟨rfl, rfl⟩, fun hw => (nomatch hw), fun _ hn => (nomatch hn)⟩,
    fun _ _ _ _ _ => .inr fun _ hc => (nomatch hc)⟩
  exact nomatch hi

/-- A state without a byte is a slice of any file that has not been passed. -/
theorem Slice.fresh {i : Nat} (h : ∀ c ∈ d.passed, c.inode ≠ i) :
    Slice d { offset := 0, inode := i, pending := [] } :=
  ⟨Nat.zero_le _, 0, le_rfl, rfl, fun c hc hi => absurd hi (h c hc)⟩

/-- A state stays a slice while its file grows and no byte of it is passed. -/
theorem Slice.mono {state : FileState Cell} (h : Slice d state)
    (hgrows : d.contents state.inode <+: e.contents state.inode)
    (hpassed : ∀ c ∈ e.passed, c.inode = state.inode → c ∈ d.passed) : Slice e state := by
  obtain ⟨hoffset, a, ha, hpending, hbefore⟩ := h
  refine ⟨hoffset.trans hgrows.length_le, a, ha, ?_, fun c hc hi => ?_⟩
  · rw [take_cells hgrows hoffset]
    exact hpending
  · exact hbefore c (hpassed c hc hi) hi

theorem Writes.passed (h : Writes matching d e) : e.passed = d.passed := by
  rw [Directory.passed, h.emitted]
  rfl

theorem Writes.watched (h : Writes matching d e) : e.watched = d.watched := by
  rw [Directory.watched, h.phase]
  rfl

theorem Writes.placed (h : Writes matching d e) (hd : Placed matching d) : Placed matching e := by
  have hsame : ∀ {i}, i < d.nextInode → e.createdAs i = d.createdAs i := fun hi => h.createdAs _ hi
  refine ⟨hd.nextInode_pos.trans_le h.nextInode_le, ?_, ?_, ?_⟩
  · intro name hname i hi
    rcases h.names name hname i hi with hold | ⟨hle, hlt, hcreated⟩
    · obtain ⟨hpos, hlt, hcreated⟩ := hd.names name hname i hold
      exact ⟨hpos, hlt.trans_le h.nextInode_le, (hsame hlt).trans hcreated⟩
    · exact ⟨hd.nextInode_pos.trans_le hle, hlt, hcreated⟩
  · intro name state hstate hne
    rw [h.files] at hstate
    obtain ⟨hlt, hcreated⟩ := hd.files name state hstate hne
    exact ⟨hlt.trans_le h.nextInode_le, (hsame hlt).trans hcreated⟩
  · intro name i hphase
    rw [h.phase] at hphase
    obtain ⟨hpos, hlt, hcreated⟩ := hd.reading name i hphase
    exact ⟨hpos, hlt.trans_le h.nextInode_le, (hsame hlt).trans hcreated⟩

/-- A step of a writer. -/
theorem Writes.sound (h : Writes matching d e) (hd : Sound matching d view) :
    Sound matching e view := by
  obtain ⟨hplaced, hclean, hannounced, hknown⟩ := hd
  refine ⟨h.placed hplaced, ⟨?_, ?_, ?_, ?_⟩, ⟨?_, ?_, ?_⟩, ?_⟩
  · rw [h.passed]
    exact hclean.nodup
  · intro c hc
    rw [h.passed] at hc
    obtain ⟨hpos, hlt⟩ := hclean.passed c hc
    exact ⟨hpos, hlt.trans_le h.nextInode_le⟩
  · intro name state hstate
    rw [h.files] at hstate
    refine (hclean.slice name state hstate).mono ?_ fun c hc _ => h.passed ▸ hc
    by_cases hzero : state.inode = 0
    · exact hzero ▸ h.contents 0 hplaced.nextInode_pos
    · exact h.contents _ (hplaced.files name state hstate hzero).1
  · intro name state hstate
    rw [h.files] at hstate
    exact hclean.unknown name state hstate
  · intro hunwatched
    rw [h.watched] at hunwatched
    have hqueue := h.queue
    rw [hunwatched, if_neg Bool.false_ne_true] at hqueue
    rw [hqueue, h.passed]
    exact hannounced.starting hunwatched
  · intro hwatched name hname
    rw [h.watched] at hwatched
    have hqueue := h.queue
    rw [hwatched, if_pos rfl] at hqueue
    obtain ⟨new, hnew, hrun⟩ := hqueue name hname
    rw [hnew, Transition.run_append, hannounced.queue hwatched name hname, Option.bind_some, hrun]
  · intro name hname
    rw [draining, h.phase] at hname
    exact hannounced.draining name hname
  · intro name hname hview i hi
    rw [h.files, h.passed]
    rcases h.names name hname i hi with hold | ⟨hle, -, -⟩
    · exact hknown name hname hview i hold
    · exact .inr fun c hc heq => absurd (hclean.passed c hc).2 (by omega)

theorem Placed.withPhase (h : Placed matching d) {phase : Phase}
    (hreading : ∀ name i, phase = .reading name i →
      0 < i ∧ i < d.nextInode ∧ d.createdAs i = name) : Placed matching (d.withPhase phase) :=
  ⟨h.nextInode_pos, h.names, h.files, hreading⟩

/-- Only the phase changes. -/
theorem Sound.withPhase (h : Sound matching d view) (phase : Phase)
    (hwatched : d.watched = true) (hwatched' : (d.withPhase phase).watched = true)
    (hreading : ∀ name i, phase = .reading name i →
      0 < i ∧ i < d.nextInode ∧ d.createdAs i = name)
    (hdraining : ∀ name, (d.withPhase phase).draining = some name →
      matching name ∧ view name = true) : Sound matching (d.withPhase phase) view :=
  ⟨h.placed.withPhase hreading,
    ⟨h.clean.nodup, h.clean.passed, h.clean.slice, h.clean.unknown⟩,
    ⟨fun hfalse => (nomatch hwatched'.symm.trans hfalse),
      fun _ => h.announced.queue hwatched, hdraining⟩,
    h.known⟩

theorem watched_of_draining {name : Bytes} (h : d.draining = some name) : d.watched = true := by
  unfold draining at h
  unfold watched
  split at h <;> simp_all

/-- Back to the event queue. -/
theorem Sound.idle (h : Sound matching d view) (hwatched : d.watched = true) :
    Sound matching (d.withPhase .idle) view :=
  h.withPhase .idle hwatched rfl (fun _ _ hr => nomatch hr) fun _ hn => nomatch hn

theorem files_withFile {name other : Bytes} {state found : FileState Cell}
    (h : (d.withFile name state).files other = some found) :
    (other = name ∧ found = state) ∨ (other ≠ name ∧ d.files other = some found) := by
  change Function.update d.files name (some state) other = some found at h
  by_cases hother : other = name
  · rw [hother, Function.update_self] at h
    exact .inl ⟨hother, (Option.some.inj h).symm⟩
  · rw [Function.update_of_ne hother] at h
    exact .inr ⟨hother, h⟩

theorem files_withoutFile {name other : Bytes} {found : FileState Cell}
    (h : (d.withoutFile name).files other = some found) :
    other ≠ name ∧ d.files other = some found := by
  change Function.update d.files name none other = some found at h
  by_cases hother : other = name
  · rw [hother, Function.update_self] at h
    exact nomatch h
  · rw [Function.update_of_ne hother] at h
    exact ⟨hother, h⟩

theorem Placed.withFile (h : Placed matching d) {name : Bytes} {state : FileState Cell}
    (hplaced : state.inode ≠ 0 → state.inode < d.nextInode ∧ d.createdAs state.inode = name) :
    Placed matching (d.withFile name state) := by
  refine ⟨h.nextInode_pos, h.names, ?_, h.reading⟩
  intro other found hfound hne
  rcases files_withFile hfound with ⟨rfl, rfl⟩ | ⟨-, hold⟩
  · exact hplaced hne
  · exact h.files other found hold hne

theorem Placed.withoutFile (h : Placed matching d) (name : Bytes) :
    Placed matching (d.withoutFile name) :=
  ⟨h.nextInode_pos, h.names,
    fun other found hfound => h.files other found (files_withoutFile hfound).2, h.reading⟩

/-- Another state for one name. -/
theorem Sound.withFile (h : Sound matching d view) {name : Bytes} {state : FileState Cell}
    (hplaced : state.inode ≠ 0 →
      state.inode < d.nextInode ∧ d.createdAs state.inode = name)
    (hslice : Slice d state) (hunknown : state.inode = 0 → state = {})
    (hknown : matching name → view name = true → ∀ i, d.names.lookup name = some i →
      state.inode = i ∨ ∀ c ∈ d.passed, c.inode ≠ i) :
    Sound matching (d.withFile name state) view := by
  refine ⟨h.placed.withFile hplaced, ⟨h.clean.nodup, h.clean.passed, ?_, ?_⟩,
    ⟨h.announced.starting, h.announced.queue, h.announced.draining⟩, ?_⟩
  · intro other found hfound
    rcases files_withFile hfound with ⟨rfl, rfl⟩ | ⟨-, hold⟩
    · exact hslice
    · exact h.clean.slice other found hold
  · intro other found hfound
    rcases files_withFile hfound with ⟨rfl, rfl⟩ | ⟨-, hold⟩
    · exact hunknown
    · exact h.clean.unknown other found hold
  · intro other hmatch hview i hi
    by_cases hother : other = name
    · subst hother
      refine (hknown hmatch hview i hi).imp (fun hinode => ⟨state, ?_, hinode⟩) id
      exact Function.update_self ..
    · refine (h.known other hmatch hview i hi).imp (fun ⟨found, hfound, hinode⟩ => ?_) id
      exact ⟨found, (Function.update_of_ne hother ..).trans hfound, hinode⟩

theorem eventsOf_cons (event : Event) (rest : List Event) (name : Bytes) :
    eventsOf name (event :: rest) =
      if event.name = name then event.kind :: eventsOf name rest else eventsOf name rest := by
  unfold eventsOf
  split
  case isTrue h => rw [List.filter_cons_of_pos (by simpa using h), List.map_cons]
  case isFalse h => rw [List.filter_cons_of_neg (by simpa using h)]

theorem Announced.withQueue_of_not {event : Event} {rest : List Event}
    (h : Announced matching d view) (hphase : d.phase = .idle) (hqueue : d.queue = event :: rest)
    (hname : ¬ matching event.name) : Announced matching (d.withQueue rest) view := by
  have hwatched : d.watched = true := by rw [watched, hphase]
  refine ⟨fun hfalse => (nomatch hwatched.symm.trans hfalse), fun _ name hmatch => ?_, h.draining⟩
  have hrun := h.queue hwatched name hmatch
  rw [hqueue, eventsOf_cons, if_neg (by rintro rfl; exact hname hmatch)] at hrun
  exact hrun

/-- Handling an event brings the view of its name one step on. -/
theorem Announced.withQueue {event : Event} {rest : List Event}
    (h : Announced matching d view) (hphase : d.phase = .idle) (hqueue : d.queue = event :: rest)
    (hname : matching event.name) :
    ∃ present, presence (view event.name) event.kind = some present ∧
      Announced matching (d.withQueue rest) (Function.update view event.name present) := by
  have hwatched : d.watched = true := by rw [watched, hphase]
  have hrun := h.queue hwatched event.name hname
  rw [hqueue, eventsOf_cons, if_pos rfl] at hrun
  obtain ⟨present, hpresent, hrest⟩ := Transition.run_cons_eq_some.mp hrun
  refine ⟨present, hpresent, fun hfalse => (nomatch hwatched.symm.trans hfalse),
    fun _ name hmatch => ?_, fun name hdrain => ?_⟩
  · by_cases hsame : name = event.name
    · rw [hsame, Function.update_self]
      exact hrest
    · have hother := h.queue hwatched name hmatch
      rw [hqueue, eventsOf_cons, if_neg (Ne.symm hsame)] at hother
      rw [Function.update_of_ne hsame]
      exact hother
  · change d.draining = some name at hdrain
    rw [Directory.draining, hphase] at hdrain
    exact nomatch hdrain

/-- The removal of a name: nothing drains it until it is announced again. -/
theorem Sound.withoutFile (h : Sound matching d view) {name : Bytes}
    (hview : view name = false) : Sound matching (d.withoutFile name) view := by
  refine ⟨h.placed.withoutFile name,
    ⟨h.clean.nodup, h.clean.passed,
      fun other found hfound => h.clean.slice other found (files_withoutFile hfound).2,
      fun other found hfound => h.clean.unknown other found (files_withoutFile hfound).2⟩,
    ⟨h.announced.starting, h.announced.queue, h.announced.draining⟩, ?_⟩
  intro other hmatch hother i hi
  have hne : other ≠ name := by
    rintro rfl
    exact nomatch hview.symm.trans hother
  refine (h.known other hmatch hother i hi).imp (fun ⟨found, hfound, hinode⟩ => ?_) id
  exact ⟨found, (Function.update_of_ne hne ..).trans hfound, hinode⟩

/-- An event of a name is taken from the queue. -/
theorem Sound.withQueue (h : Sound matching d view) {rest : List Event} {view' : Bytes → Bool}
    (hannounced : Announced matching (d.withQueue rest) view')
    (hknown : Known matching d view') : Sound matching (d.withQueue rest) view' :=
  ⟨⟨h.placed.nextInode_pos, h.placed.names, h.placed.files, h.placed.reading⟩,
    ⟨h.clean.nodup, h.clean.passed, h.clean.slice, h.clean.unknown⟩, hannounced, hknown⟩

theorem Known.update (h : Known matching d view) {name : Bytes} {present : Bool}
    (hself : present = true → ∀ i, d.names.lookup name = some i →
      (∃ state, d.files name = some state ∧ state.inode = i) ∨ ∀ c ∈ d.passed, c.inode ≠ i) :
    Known matching d (Function.update view name present) := by
  intro other hmatch hview i hi
  by_cases hother : other = name
  · subst hother
    rw [Function.update_self] at hview
    exact hself hview i hi
  · rw [Function.update_of_ne hother] at hview
    exact h other hmatch hview i hi

theorem presence_modify {before after : Bool} (h : presence before .modify = some after) :
    before = true ∧ after = true := by
  cases before with
  | false => exact nomatch h
  | true => exact ⟨rfl, (Option.some.inj h).symm⟩

theorem presence_create {before after : Bool} {kind : EventKind}
    (hkind : kind = .create ∨ kind = .movedTo) (h : presence before kind = some after) :
    after = true := by
  rcases hkind with rfl | rfl
  all_goals
    cases before with
    | false => exact (Option.some.inj h).symm
    | true => exact nomatch h

theorem presence_delete {before after : Bool} {kind : EventKind}
    (hkind : kind = .delete ∨ kind = .movedFrom) (h : presence before kind = some after) :
    after = false := by
  rcases hkind with rfl | rfl
  all_goals
    cases before with
    | false => exact nomatch h
    | true => exact (Option.some.inj h).symm

theorem handle_sound (h : Sound matching d view) (hharmless : Harmless matching d .handle)
    (hstep : d.handle matching = some e) : ∃ view', Sound matching e view' := by
  unfold handle at hstep
  split at hstep
  case h_2 => exact nomatch hstep
  case h_1 event rest hphase hqueue =>
  dsimp only at hstep
  by_cases hname : matching event.name = true
  case neg =>
    rw [if_neg hname] at hstep
    rw [← Option.some.inj hstep]
    exact ⟨view, h.withQueue (h.announced.withQueue_of_not hphase hqueue hname) h.known⟩
  case pos =>
    rw [if_pos hname] at hstep
    obtain ⟨present, hpresent, hannounced⟩ := h.announced.withQueue hphase hqueue hname
    have hpassed : event.kind = .create ∨ event.kind = .movedTo →
        ∀ i, d.names.lookup event.name = some i → ∀ c ∈ d.passed, c.inode ≠ i :=
      hharmless event (by rw [hqueue]; rfl) hname
    have hwatched : (d.withQueue rest).watched = true := by
      show d.watched = true
      rw [watched, hphase]
    have hstatting : ∀ f : Directory, f.watched = true →
        Sound matching f (Function.update view event.name present) → present = true →
        ∃ view', Sound matching (f.withPhase (.statting event.name)) view' := by
      intro f hf hsound htrue
      refine ⟨_, hsound.withPhase _ hf rfl (fun _ _ hr => nomatch hr) fun name hdrain => ?_⟩
      obtain rfl : event.name = name := Option.some.inj hdrain
      exact ⟨hname, by rw [Function.update_self, htrue]⟩
    have hnew : event.kind = .create ∨ event.kind = .movedTo → present = true →
        ∃ view', Sound matching
          (((d.withQueue rest).withFile event.name {}).withPhase (.statting event.name)) view' := by
      intro hkind htrue
      have hpopped := h.withQueue hannounced
        (h.known.update fun _ i hi => .inr (hpassed hkind i hi))
      refine hstatting _ hwatched (hpopped.withFile (fun hne => absurd rfl hne)
        (Slice.fresh fun c hc => ?_) (fun _ => rfl) fun _ _ i hi => .inr (hpassed hkind i hi)) htrue
      exact Nat.ne_of_gt (h.clean.passed c hc).1
    have hgone : present = false →
        ∃ view', Sound matching ((d.withQueue rest).withoutFile event.name) view' := by
      intro hfalse
      have hpopped := h.withQueue hannounced
        (h.known.update fun htrue => nomatch hfalse.symm.trans htrue)
      exact ⟨_, hpopped.withoutFile (by rw [Function.update_self, hfalse])⟩
    cases hkind : event.kind with
    | modify =>
        rw [hkind] at hstep hpresent
        rw [← Option.some.inj hstep]
        obtain ⟨hview, htrue⟩ := presence_modify hpresent
        exact hstatting _ hwatched
          (h.withQueue hannounced (h.known.update fun _ => h.known event.name hname hview)) htrue
    | create =>
        rw [hkind] at hstep hpresent
        rw [← Option.some.inj hstep]
        exact hnew (.inl hkind) (presence_create (.inl rfl) hpresent)
    | movedTo =>
        rw [hkind] at hstep hpresent
        rw [← Option.some.inj hstep]
        exact hnew (.inr hkind) (presence_create (.inr rfl) hpresent)
    | delete =>
        rw [hkind] at hstep hpresent
        rw [← Option.some.inj hstep]
        exact hgone (presence_delete (.inl rfl) hpresent)
    | movedFrom =>
        rw [hkind] at hstep hpresent
        rw [← Option.some.inj hstep]
        exact hgone (presence_delete (.inr rfl) hpresent)

/-- An unknown or changed file is read from its start, a known one goes on. -/
theorem noteStat_slice {state : FileState Cell} {i : Nat} (hi : 0 < i) (hslice : Slice d state)
    (hunknown : state.inode = 0 → state = {})
    (hknown : state.inode = i ∨ ∀ c ∈ d.passed, c.inode ≠ i) :
    Slice d (state.noteStat i (d.size i)) ∧ (state.noteStat i (d.size i)).inode = i := by
  unfold FileState.noteStat
  split
  case isTrue hchanged =>
    exact ⟨.fresh (hknown.resolve_left hchanged.2), rfl⟩
  case isFalse hsame =>
    split
    case isTrue hshrunk =>
      refine ⟨.fresh (hknown.resolve_left ?_), rfl⟩
      rintro rfl
      exact absurd hslice.1 (not_le.mpr hshrunk)
    case isFalse hgrown =>
      refine ⟨?_, rfl⟩
      by_cases hzero : state.inode = 0
      · rw [hunknown hzero]
        refine .fresh (hknown.resolve_left ?_)
        omega
      · obtain rfl : state.inode = i := by
          by_contra hne
          exact hsame ⟨hzero, hne⟩
        exact hslice

theorem stat_sound (h : Sound matching d view) (hstep : d.stat = some e) :
    Sound matching e view := by
  unfold stat at hstep
  split at hstep
  case h_2 => exact nomatch hstep
  case h_1 name hphase =>
  have hdraining : d.draining = some name := by rw [draining, hphase]
  have hwatched := watched_of_draining hdraining
  obtain ⟨hmatch, hview⟩ := h.announced.draining name hdraining
  cases hlookup : d.names.lookup name with
  | none =>
      rw [hlookup] at hstep
      rw [← Option.some.inj hstep]
      exact h.idle hwatched
  | some i =>
      rw [hlookup] at hstep
      dsimp only at hstep
      rw [← Option.some.inj hstep]
      obtain ⟨hpos, hlt, hcreated⟩ := h.placed.names name hmatch i hlookup
      have hknown := h.known name hmatch hview i hlookup
      obtain ⟨hslice, hunknown, htracked⟩ : Slice d ((d.files name).getD {}) ∧
          (((d.files name).getD {}).inode = 0 → (d.files name).getD {} = {}) ∧
          (((d.files name).getD {}).inode = i ∨ ∀ c ∈ d.passed, c.inode ≠ i) := by
        cases hfile : d.files name with
        | none =>
            refine ⟨.fresh fun c hc => Nat.ne_of_gt (h.clean.passed c hc).1, fun _ => rfl, .inr ?_⟩
            apply hknown.resolve_left
            rintro ⟨state, hstate, -⟩
            exact nomatch hfile.symm.trans hstate
        | some state =>
            refine ⟨h.clean.slice name state hfile, h.clean.unknown name state hfile,
              hknown.imp (fun ⟨found, hfound, hinode⟩ => ?_) id⟩
            rw [hfile] at hfound
            obtain rfl := Option.some.inj hfound
            exact hinode
      obtain ⟨hnoted, hinode⟩ := noteStat_slice hpos hslice hunknown htracked
      have hfiled : Sound matching (d.withFile name _) view := h.withFile
        (fun _ => by rw [hinode]; exact ⟨hlt, hcreated⟩) hnoted
        (fun hzero => absurd (hinode.symm.trans hzero) (Nat.ne_of_gt hpos))
        fun _ _ j hj => .inl (hinode.trans (Option.some.inj (hlookup.symm.trans hj)))
      split
      · exact hfiled.idle hwatched
      · refine hfiled.withPhase (.opening name) hwatched rfl (fun _ _ hr => nomatch hr) ?_
        intro other hdrain
        obtain rfl : name = other := Option.some.inj hdrain
        exact ⟨hmatch, hview⟩

theorem open_sound (h : Sound matching d view) {opened : Bool} (hstep : d.open_ opened = some e) :
    Sound matching e view := by
  unfold open_ at hstep
  split at hstep
  case h_2 => exact nomatch hstep
  case h_1 name hphase =>
  have hdraining : d.draining = some name := by rw [draining, hphase]
  have hwatched := watched_of_draining hdraining
  have hmatch := h.announced.draining name hdraining
  cases hlookup : d.names.lookup name with
  | none =>
      rw [hlookup] at hstep
      rw [← Option.some.inj hstep]
      exact h.idle hwatched
  | some i =>
      rw [hlookup] at hstep
      rw [← Option.some.inj hstep]
      cases opened with
      | false => exact h.idle hwatched
      | true =>
          refine h.withPhase (.reading name i) hwatched rfl (fun other j hr => ?_)
            fun other hdrain => ?_
          · cases hr
            exact h.placed.names name hmatch.1 i hlookup
          · obtain rfl : name = other := Option.some.inj hdrain
            exact hmatch

/-- What a read takes in and hands out: the passed bytes end at `b` afterwards. -/
theorem receive_slice {state : FileState Cell} (hslice : Slice d state) :
    ∃ lines after a b,
      FileState.receive Cell.byte state (d.available state.inode state.offset) = (lines, after) ∧
      after.inode = state.inode ∧ after.offset ≤ d.size state.inode ∧ b ≤ after.offset ∧
      after.pending = ((d.cells state.inode).take after.offset).drop b ∧
      (∀ c ∈ d.passed, c.inode = state.inode → c.position < a) ∧ a ≤ b ∧
      lines.flatten.Sublist (((d.cells state.inode).take b).drop a) := by
  obtain ⟨hoffset, a, ha, hpending, hbefore⟩ := hslice
  obtain ⟨consumed, hsplit, hlines⟩ :=
    FileState.flushPending_spec Cell.byte (state.pending ++ d.available state.inode state.offset)
  have hsize := available_le hoffset
  have htake := take_available d state.inode state.offset
  generalize d.available state.inode state.offset = got at hsplit hlines hsize htake ⊢
  have hall : state.pending ++ got =
      ((d.cells state.inode).take (state.offset + got.length)).drop a := by
    rw [htake, List.drop_append_of_le_length, hpending]
    rw [List.length_take, length_cells]
    omega
  have hconsumed : a + consumed.length ≤ state.offset + got.length := by
    have hle : consumed.length ≤ (state.pending ++ got).length := by
      rw [hsplit, List.length_append]
      exact Nat.le_add_right _ _
    rw [hall, List.length_drop, List.length_take, length_cells] at hle
    omega
  refine ⟨_, _, a, a + consumed.length, rfl, rfl, hsize, hconsumed, ?_, hbefore,
    Nat.le_add_right _ _, ?_⟩
  · show (FileState.flushPending Cell.byte (state.pending ++ got)).2 =
      ((d.cells state.inode).take (state.offset + got.length)).drop (a + consumed.length)
    rw [← List.drop_drop, ← hall]
    exact ((congrArg (List.drop consumed.length) hsplit).trans List.drop_left).symm
  · have hfront : (state.pending ++ got).take consumed.length = consumed :=
      (congrArg (List.take consumed.length) hsplit).trans List.take_left
    have hslice : ((d.cells state.inode).take (a + consumed.length)).drop a = consumed := by
      refine Eq.trans ?_ hfront
      rw [hall, List.drop_take, List.drop_take, List.take_take]
      congr 1
      omega
    rw [hslice]
    exact hlines

theorem passed_emit (d : Directory) (name : Bytes) (lines : List (List Cell)) :
    (d.emit name lines).passed = d.passed ++ lines.flatten := by
  unfold emit passed
  rw [List.map_append, List.flatten_append, List.map_map]
  congr 2
  exact List.map_id' lines

/-- The next bytes of a file are passed, and its state goes on behind them. -/
theorem Sound.deliver (h : Sound matching d view) (hwatched : d.watched = true) {name : Bytes}
    {i a b : Nat} {after : FileState Cell} {lines : List (List Cell)}
    (hi : 0 < i ∧ i < d.nextInode ∧ d.createdAs i = name)
    (hbefore : ∀ c ∈ d.passed, c.inode = i → c.position < a) (hinode : after.inode = i)
    (hoffset : after.offset ≤ d.size i) (hb : b ≤ after.offset)
    (hpending : after.pending = ((d.cells i).take after.offset).drop b)
    (hlines : lines.flatten.Sublist (((d.cells i).take b).drop a)) (hab : a ≤ b)
    (hfile : ∃ state, d.files name = some state ∧ state.inode = i) :
    Sound matching ((d.withFile name after).emit name lines) view := by
  obtain ⟨hpos, hlt, hcreated⟩ := hi
  have hnew : ∀ c ∈ lines.flatten, c.inode = i ∧ a ≤ c.position ∧ c.position < b :=
    fun c hc => mem_slice (hlines.subset hc)
  have hpassed : ((d.withFile name after).emit name lines).passed = d.passed ++ lines.flatten :=
    passed_emit ..
  have hold : ∀ {j}, j ≠ i → ∀ c ∈ ((d.withFile name after).emit name lines).passed,
      c.inode = j → c ∈ d.passed := by
    intro j hj c hc hcj
    rw [hpassed] at hc
    apply (List.mem_append.mp hc).resolve_right
    intro hc
    exact hj (hcj.symm.trans (hnew c hc).1)
  have hfiles : ∀ other found,
      ((d.withFile name after).emit name lines).files other = some found →
      (other = name ∧ found = after) ∨
        (other ≠ name ∧ d.files other = some found ∧ found.inode ≠ i) := by
    intro other found hfound
    change Function.update d.files name (some after) other = some found at hfound
    by_cases hother : other = name
    · rw [hother, Function.update_self] at hfound
      exact .inl ⟨hother, (Option.some.inj hfound).symm⟩
    · rw [Function.update_of_ne hother] at hfound
      refine .inr ⟨hother, hfound, ?_⟩
      rintro rfl
      exact hother ((h.placed.files other found hfound (Nat.ne_of_gt hpos)).2.symm.trans hcreated)
  refine ⟨⟨h.placed.nextInode_pos, h.placed.names, ?_, h.placed.reading⟩, ⟨?_, ?_, ?_, ?_⟩,
    ⟨?_, h.announced.queue, h.announced.draining⟩, ?_⟩
  · intro other found hfound hne
    rcases hfiles other found hfound with ⟨rfl, rfl⟩ | ⟨-, hkept, -⟩
    · exact hinode ▸ ⟨hlt, hcreated⟩
    · exact h.placed.files other found hkept hne
  · rw [hpassed, List.nodup_append]
    refine ⟨h.clean.nodup, hlines.nodup ((cells_nodup.sublist (List.take_sublist ..)).sublist
      (List.drop_sublist ..)), fun c hc c' hc' heq => ?_⟩
    subst heq
    have hstart := hbefore c hc (hnew c hc').1
    exact absurd (hnew c hc').2.1 (not_le.mpr hstart)
  · intro c hc
    rw [hpassed] at hc
    rcases List.mem_append.mp hc with hc | hc
    · exact h.clean.passed c hc
    · rw [(hnew c hc).1]
      exact ⟨hpos, hlt⟩
  · intro other found hfound
    rcases hfiles other found hfound with ⟨rfl, rfl⟩ | ⟨-, hkept, hne⟩
    · refine ⟨hinode ▸ hoffset, b, hb, ?_, fun c hc hci => ?_⟩
      · rw [hinode]
        exact hpending
      · rw [hinode] at hci
        rw [hpassed] at hc
        rcases List.mem_append.mp hc with hc | hc
        · exact (hbefore c hc hci).trans_le hab
        · exact (hnew c hc).2.2
    · exact (h.clean.slice other found hkept).mono (List.prefix_refl _) (hold hne)
  · intro other found hfound hzero
    rcases hfiles other found hfound with ⟨rfl, rfl⟩ | ⟨-, hkept, -⟩
    · exact absurd (hinode.symm.trans hzero) (Nat.ne_of_gt hpos)
    · exact h.clean.unknown other found hkept hzero
  · exact fun hfalse => nomatch hwatched.symm.trans hfalse
  · intro other hmatch hview j hj
    by_cases hji : j = i
    · subst hji
      obtain rfl : other = name := (h.placed.names other hmatch j hj).2.2.symm.trans hcreated
      exact .inl ⟨after, Function.update_self .., hinode⟩
    · refine (h.known other hmatch hview j hj).imp (fun ⟨found, hfound, hfoundi⟩ => ?_)
        fun hnone c hc hcj => hnone c (hold hji c hc hcj) hcj
      refine ⟨found, ?_, hfoundi⟩
      have hother : other ≠ name := by
        rintro rfl
        obtain ⟨state, hstate, hstatei⟩ := hfile
        rw [hfound] at hstate
        obtain rfl := Option.some.inj hstate
        exact hji (hfoundi.symm.trans hstatei)
      exact (Function.update_of_ne hother ..).trans hfound

theorem read_sound (h : Sound matching d view) (hharmless : Harmless matching d .read)
    (hstep : d.read = some e) : Sound matching e view := by
  unfold read at hstep
  split at hstep
  case h_2 => exact nomatch hstep
  case h_1 name inode hphase =>
  have hdraining : d.draining = some name := by rw [draining, hphase]
  have hwatched := watched_of_draining hdraining
  have hmatch := h.announced.draining name hdraining
  obtain ⟨state, hfile, hstep⟩ := Option.bind_eq_some_iff.mp hstep
  dsimp only at hstep
  split at hstep
  case isTrue => exact Option.some.inj hstep ▸ h.idle hwatched
  case isFalse hgot =>
  obtain rfl : state.inode = inode := by
    refine (hharmless name hdraining inode (by rw [inodeRead, hphase]; rfl) state
      hfile).resolve_right fun hnil => ?_
    rw [hnil] at hgot
    exact hgot rfl
  have hplaced := h.placed.reading name state.inode hphase
  obtain ⟨lines, after, a, b, hreceive, hinode, hoffset, hb, hpending, hbefore, hab, hlines⟩ :=
    receive_slice (h.clean.slice name state hfile)
  rw [hreceive] at hstep
  rw [← Option.some.inj hstep]
  have hdelivered := h.deliver hwatched hplaced hbefore hinode hoffset hb hpending hlines hab
    ⟨state, hfile, rfl⟩
  split
  · refine hdelivered.withPhase _ hwatched rfl (fun other j hr => ?_) fun other hdrain => ?_
    · cases hr
      exact hplaced
    · obtain rfl : name = other := Option.some.inj hdrain
      exact hmatch
  · exact hdelivered.idle hwatched

/-- Before the directory is watched nothing has been passed. -/
theorem scan_sound (h : Sound matching d view) {name : Bytes}
    (hstep : d.scan matching name = some e) : Sound matching e view := by
  unfold scan at hstep
  split at hstep
  case h_2 => exact nomatch hstep
  case h_1 hphase hfile =>
  have hnone : d.passed = [] := (h.announced.starting (by rw [watched, hphase])).2
  have hfresh : ∀ i, ∀ c ∈ d.passed, c.inode ≠ i := by
    rw [hnone]
    exact fun _ _ hc => nomatch hc
  split at hstep
  case isFalse => exact nomatch hstep
  case isTrue hmatch =>
  cases hlookup : d.names.lookup name with
  | none =>
      rw [hlookup] at hstep
      rw [← Option.some.inj hstep]
      exact h.withFile (fun hne => absurd rfl hne) (.fresh (hfresh 0)) (fun _ => rfl)
        fun _ _ i _ => .inr (hfresh i)
  | some i =>
      rw [hlookup] at hstep
      rw [← Option.some.inj hstep]
      obtain ⟨hpos, hlt, hcreated⟩ := h.placed.names name hmatch i hlookup
      refine h.withFile (fun _ => ⟨hlt, hcreated⟩) ⟨le_rfl, d.size i, le_rfl, ?_, ?_⟩
        (fun hzero => absurd hzero (Nat.ne_of_gt hpos)) fun _ _ j _ => .inr (hfresh j)
      · show [] = ((d.cells i).take (d.size i)).drop (d.size i)
        rw [List.drop_of_length_le]
        rw [List.length_take, length_cells]
        omega
      · exact fun c hc hci => absurd hci (hfresh i c hc)

theorem watch_sound (h : Sound matching d view) (hstep : d.watch = some e) :
    ∃ view', Sound matching e view' := by
  unfold watch at hstep
  split at hstep
  case h_2 => exact nomatch hstep
  case h_1 hphase =>
  rw [← Option.some.inj hstep]
  obtain ⟨hqueue, hnone⟩ := h.announced.starting (by rw [watched, hphase])
  refine ⟨fun name => (d.names.lookup name).isSome,
    ⟨h.placed.nextInode_pos, h.placed.names, h.placed.files, fun _ _ hr => (nomatch hr)⟩,
    ⟨h.clean.nodup, h.clean.passed, h.clean.slice, h.clean.unknown⟩,
    ⟨fun hfalse => (nomatch hfalse), fun _ name _ => ?_, fun _ hn => (nomatch hn)⟩,
    fun _ _ _ i _ => .inr ?_⟩
  · show Transition.run presence _ (eventsOf name d.queue) = _
    rw [hqueue]
    rfl
  · show ∀ c ∈ d.passed, c.inode ≠ i
    rw [hnone]
    exact fun _ hc => nomatch hc

/-- The step lemma. -/
theorem step_sound (h : ∃ view, Sound matching d view) {action : Action}
    (hharmless : Harmless matching d action) (hstep : step matching d action = some e) :
    ∃ view, Sound matching e view := by
  obtain ⟨view, h⟩ := h
  cases action with
  | append inode bytes => exact ⟨view, (append_writes hstep).sound h⟩
  | rename name target => exact ⟨view, (rename_writes hstep).sound h⟩
  | create name => exact ⟨view, (create_writes hstep).sound h⟩
  | delete name => exact ⟨view, (delete_writes hstep).sound h⟩
  | scan name => exact ⟨view, scan_sound h hstep⟩
  | watch => exact watch_sound h hstep
  | handle => exact handle_sound h hharmless hstep
  | stat => exact ⟨view, stat_sound h hstep⟩
  | open_ opened => exact ⟨view, open_sound h hstep⟩
  | read => exact ⟨view, read_sound h hharmless hstep⟩

end Steps

/-- A byte that occurs once in the lines is in one of them. -/
theorem deliveredOnce_of_nodup {d : Directory} (h : d.passed.Nodup) : DeliveredOnce d := by
  intro c
  have hcount : ∀ lines : List (Bytes × List Cell),
      lines.countP (fun line => decide (c ∈ line.2)) ≤ (lines.map Prod.snd).flatten.count c := by
    intro lines
    induction lines with
    | nil => exact le_rfl
    | cons line lines ih =>
        rw [List.countP_cons, List.map_cons, List.flatten_cons, List.count_append]
        have hhead : (if decide (c ∈ line.2) = true then 1 else 0) ≤ line.2.count c := by
          split
          case isTrue hmem => exact List.count_pos_iff.mpr (of_decide_eq_true hmem)
          case isFalse => exact Nat.zero_le _
        omega
  exact (hcount d.emitted).trans (List.nodup_iff_count_le_one.mp h c)

/-- In every interleaving of the writers and the watcher whose steps are harmless, no
byte is passed twice. -/
theorem run_deliveredOnce (matching : Bytes → Bool) (actions : List Action) {d : Directory}
    (hharmless : Transition.Meets (step matching) (Harmless matching) {} actions)
    (hrun : Transition.run (step matching) {} actions = some d) : DeliveredOnce d := by
  obtain ⟨view, hsound⟩ := Transition.run_invariant_of_meets
    (fun _ _ _ hd hc hs => step_sound hd hc hs) ⟨fun _ => true, start_sound⟩ hharmless hrun
  exact deliveredOnce_of_nodup hsound.clean.nodup

/-- A watched log file and the name it is moved to. -/
def appLog : Bytes := ascii "app.log"

def appLogOld : Bytes := ascii "app.log.1"

def onlyAppLog (name : Bytes) : Bool := name == appLog

/-- A rotation whose events are handled before the new file is written to. -/
def calmRotation : List Action :=
  [.create appLog, .scan appLog, .watch, .append 1 (ascii "a\n"), .handle, .stat, .open_ true,
    .read, .rename appLog appLogOld, .create appLog, .handle, .handle, .handle, .stat,
    .append 2 (ascii "b\n"), .handle, .stat, .open_ true, .read]

theorem run_deliveredOnce_calm :
    ∃ d, Transition.run (step onlyAppLog) {} calmRotation = some d ∧ DeliveredOnce d := by
  obtain ⟨d, hrun⟩ : ∃ d, Transition.run (step onlyAppLog) {} calmRotation = some d := ⟨_, rfl⟩
  exact ⟨d, hrun, run_deliveredOnce onlyAppLog calmRotation (by decide +kernel) hrun⟩

/-- A rotation in which the event of the last write to the old file drains the new one:
the events of the rotation then make the watcher start it over. -/
def hastyRotation : List Action :=
  [.create appLog, .scan appLog, .watch, .append 1 (ascii "a\n"), .rename appLog appLogOld,
    .create appLog, .append 2 (ascii "b\n"), .handle, .stat, .open_ true, .read, .handle, .handle,
    .handle, .stat, .open_ true, .read]

theorem hastyRotation_delivers_twice :
    ∃ d, Transition.run (step onlyAppLog) {} hastyRotation = some d ∧ ¬ DeliveredOnce d := by
  refine ⟨_, rfl, fun honce => ?_⟩
  exact absurd (honce ⟨2, 0, 98⟩) (by decide +kernel)

end Directory

end LogMind
