import LogMind.Watcher.Located

/-!
# The lines of a path

What is passed to `process_raw` under a path from some moment on: the lines of the bytes behind the
offset that its state then has, in order and each of them once. No scan and no drain behind the
start breaks this, in either mode.
-/

namespace LogMind

namespace WatchedTree

/-- The lines that were passed to `process_raw` under a path. -/
def passedAs (t : WatchedTree) (path : Bytes) : List (List Cell) :=
  (t.emitted.filter fun passed => passed.1 = path).map Prod.snd

/-- The bytes of a file behind a position. -/
def behind (t : WatchedTree) (inode first : Nat) : List Cell := (t.cells inode).drop first

/-- The bytes between the position and the offset. -/
def taken (t : WatchedTree) (inode first offset : Nat) : List Cell :=
  ((t.cells inode).take offset).drop first

/-- What was read of a file under a path since the state was `origin`, when the lines `passed` had
been passed on. -/
structure ReadSince (t : WatchedTree) (path : Bytes) (inode : Nat) (origin : FileState Cell)
    (passed : List (List Cell)) (state : FileState Cell) : Prop where
  first_le : origin.offset ≤ state.offset
  offset_le : state.offset ≤ t.size inode
  lines_eq : Lines.Within (FileState.isLf Cell.byte) kMaxLineBytes
      (origin.pending ++ t.behind inode origin.offset) →
    t.passedAs path = passed ++ (Lines.lines (FileState.isLf Cell.byte)
        (origin.pending ++ t.taken inode origin.offset state.offset)).map
          (FileState.stripCr Cell.byte) ∧
      state.pending = Lines.tail (FileState.isLf Cell.byte)
        (origin.pending ++ t.taken inode origin.offset state.offset)

/-- What was read under every path. A file that is made later is read from its first byte. -/
structure Reads (tree : DirectoryTree) (origin : Bytes → FileState Cell)
    (passed : Bytes → List (List Cell)) (t : WatchedTree) : Prop where
  since : ∀ path inode, t.locate tree path = some inode →
    ReadSince t path inode (origin path) (passed path) (t.stateAt path)
  absent : ∀ path, t.locate tree path = none →
    origin path = {} ∧ t.passedAs path = passed path

/-- Writers make files and append to them. -/
structure Written (t u : WatchedTree) : Prop extends Grows t u where
  cells : ∀ inode, t.cells inode <+: u.cells inode

variable {tree : DirectoryTree} {fnmatch : Bytes → Bytes → Bool} {t u : WatchedTree}
  {path dir : Bytes} {inode d : Nat} {name : FileName} {state : FileState Cell}

theorem cells_of_contents (h : t.contents inode <+: u.contents inode) :
    t.cells inode <+: u.cells inode := by
  obtain ⟨more, hmore⟩ := h
  unfold cells
  rw [← hmore, List.mapIdx_append]
  exact List.prefix_append _ _

theorem notify_contents (t : WatchedTree) (d : Nat) (name : FileName) (kind : EventKind)
    (queued : Bool) : (t.notify d name kind queued).contents = t.contents := by
  unfold notify
  split <;> rfl

theorem Written.create (h : Grounded tree t) {queued : Bool}
    (hstep : t.create d name queued = some u) : Grounded tree u ∧ Written t u := by
  obtain ⟨hgrounded, hgrows⟩ := h.create hstep
  refine ⟨hgrounded, { hgrows with cells := fun inode => cells_of_contents ?_ }⟩
  unfold WatchedTree.create at hstep
  split at hstep
  · cases hstep
  · have hcontents : u.contents = Function.update t.contents t.nextInode [] := by
      rw [← Option.some.inj hstep]
      exact notify_contents _ _ _ _ _
    rw [hcontents, Function.update_apply]
    split
    · rename_i heq
      rw [heq, h.unused t.nextInode (Nat.le_refl _)]
    · exact List.prefix_rfl

theorem Written.append (h : Grounded tree t) {bytes : Bytes} {queued : Bool}
    (hstep : t.append d name bytes queued = some u) : Grounded tree u ∧ Written t u := by
  obtain ⟨hgrounded, hgrows⟩ := h.append hstep
  refine ⟨hgrounded, { hgrows with cells := fun inode => cells_of_contents ?_ }⟩
  obtain ⟨i, -, rfl⟩ := Option.map_eq_some_iff.mp hstep
  rw [notify_contents]
  show _ <+: Function.update t.contents i (t.contents i ++ bytes) inode
  rw [Function.update_apply]
  split
  · rename_i heq
    rw [heq]
    exact List.prefix_append _ _
  · exact List.prefix_rfl

/-! ## One path -/

variable {origin : FileState Cell} {passed : List (List Cell)}

/-- Nothing has been read yet. -/
theorem ReadSince.refl (h : Fits inode (t.size inode) state) (path : Bytes) :
    ReadSince t path inode state (t.passedAs path) state := by
  refine ⟨Nat.le_refl _, h.offset_le, fun _ => ?_⟩
  have htaken : t.taken inode state.offset state.offset = [] := List.drop_take_self
  rw [htaken, List.append_nil, Lines.lines_of_forall_not _ h.pending,
    Lines.tail_of_forall_not _ h.pending]
  exact ⟨(List.append_nil _).symm, rfl⟩

/-- What was read stays read while the file grows. -/
theorem ReadSince.written (h : ReadSince t path inode origin passed state)
    (hwritten : Written t u) : ReadSince u path inode origin passed state := by
  have hpassed : u.passedAs path = t.passedAs path := by
    unfold passedAs
    rw [hwritten.emitted]
  have htaken : u.taken inode origin.offset state.offset =
      t.taken inode origin.offset state.offset := by
    obtain ⟨more, hmore⟩ := hwritten.cells inode
    unfold taken
    rw [← hmore, List.take_append_of_le_length (by rw [length_cells]; exact h.offset_le)]
  refine ⟨h.first_le, h.offset_le.trans (hwritten.size inode), fun hshort => ?_⟩
  rw [hpassed, htaken]
  apply h.lines_eq
  obtain ⟨more, hmore⟩ := (hwritten.cells inode).drop origin.offset
  unfold behind at hshort ⊢
  rw [← hmore, ← List.append_assoc] at hshort
  exact Lines.Within.of_append _ hshort

/-- The inode of the state does not matter. -/
theorem ReadSince.frame (h : ReadSince t path inode origin passed state)
    (hcontents : u.contents = t.contents) (hpassed : u.passedAs path = t.passedAs path)
    {other : FileState Cell} (hoffset : other.offset = state.offset)
    (hpending : other.pending = state.pending) : ReadSince u path inode origin passed other := by
  have hcells : ∀ i, u.cells i = t.cells i := fun i => by
    unfold cells
    rw [hcontents]
  refine ⟨hoffset ▸ h.first_le, ?_, fun hshort => ?_⟩
  · have hle := h.offset_le
    unfold WatchedTree.size at hle ⊢
    rw [hcontents, hoffset]
    exact hle
  · unfold behind at hshort
    unfold taken
    rw [hcells] at hshort ⊢
    rw [hpassed, hoffset, hpending]
    exact h.lines_eq hshort

theorem passedAs_emit (t : WatchedTree) (path other : Bytes) (files : AList _)
    (drain : Option DrainPhase) (lines : List (List Cell)) :
    passedAs { t with
      files := files
      emitted := t.emitted ++ lines.map fun line => (path, line)
      drain := drain } other = t.passedAs other ++ if other = path then lines else [] := by
  unfold passedAs
  rw [List.filter_append, List.map_append]
  refine congrArg (_ ++ ·) ?_
  split
  case isTrue heq =>
    rw [List.filter_eq_self.mpr (by simp [heq]), List.map_map]
    exact List.map_id _
  case isFalse hne =>
    rw [List.filter_eq_nil_iff.mpr fun passed hpassed => ?_]
    · rfl
    · obtain ⟨line, -, rfl⟩ := List.mem_map.mp hpassed
      simpa using fun hsame => hne hsame.symm

/-- A read hands out what it finishes of the lines behind the position. -/
theorem ReadSince.receive (h : ReadSince t path inode origin passed state) {got : List Cell}
    (hgot : got <+: (t.cells inode).drop state.offset) {drain : Option DrainPhase} :
    ReadSince { t with
      files := t.files.insert path (FileState.receive Cell.byte state got).2
      emitted := t.emitted ++
        (FileState.receive Cell.byte state got).1.map fun line => (path, line)
      drain := drain } path inode origin passed (FileState.receive Cell.byte state got).2 := by
  have hlength := hgot.length_le
  rw [List.length_drop, length_cells] at hlength
  have hle := h.offset_le
  have htaken : origin.pending ++ t.taken inode origin.offset (state.offset + got.length) =
      origin.pending ++ t.taken inode origin.offset state.offset ++ got := by
    unfold taken
    rw [List.append_assoc, List.take_add, ← List.prefix_iff_eq_take.mp hgot,
      List.drop_append_of_le_length]
    rw [List.length_take, length_cells]
    exact h.first_le.trans (Nat.le_min.mpr ⟨Nat.le_refl _, hle⟩)
  refine ⟨h.first_le.trans (Nat.le_add_right _ _), ?_, fun hshort => ?_⟩
  · show state.offset + got.length ≤ t.size inode
    omega
  · obtain ⟨hpassed, hpending⟩ := h.lines_eq hshort
    have hread : Lines.Within (FileState.isLf Cell.byte) kMaxLineBytes
        (origin.pending ++ t.taken inode origin.offset state.offset ++ got) := by
      rw [← htaken]
      obtain ⟨rest, hrest⟩ : t.taken inode origin.offset (state.offset + got.length) <+:
          t.behind inode origin.offset := (List.take_prefix _ _).drop _
      change Lines.Within _ _ (origin.pending ++ t.behind inode origin.offset) at hshort
      rw [← hrest, ← List.append_assoc] at hshort
      exact Lines.Within.of_append _ hshort
    have htail : Lines.tail (FileState.isLf Cell.byte) (state.pending ++ got) =
        Lines.tail (FileState.isLf Cell.byte)
          (origin.pending ++ t.taken inode origin.offset state.offset ++ got) := by
      rw [hpending, ← Lines.tail_append]
    rw [FileState.receive_eq Cell.byte state got (by rw [htail]; exact hread.2)]
    refine ⟨?_, ?_⟩
    · rw [passedAs_emit, if_pos rfl, hpassed]
      change _ = passed ++ List.map _ (Lines.lines _ (origin.pending ++
        t.taken inode origin.offset (state.offset + got.length)))
      have hlines : Lines.lines (FileState.isLf Cell.byte)
          (origin.pending ++ t.taken inode origin.offset state.offset ++ got) =
            Lines.lines (FileState.isLf Cell.byte)
                (origin.pending ++ t.taken inode origin.offset state.offset) ++
              Lines.lines (FileState.isLf Cell.byte) (state.pending ++ got) := by
        rw [Lines.lines_append, hpending]
      rw [htaken, hlines, List.map_append, List.append_assoc]
    · change _ = Lines.tail _ (origin.pending ++
        t.taken inode origin.offset (state.offset + got.length))
      rw [htaken]
      exact htail

/-! ## Every path -/

variable {origins : Bytes → FileState Cell} {lines : Bytes → List (List Cell)}

theorem stateAt_of_absent (h : Located tree t) (hlocate : t.locate tree path = none) :
    t.stateAt path = {} := by
  refine stateAt_of_notMem fun hmem => ?_
  obtain ⟨state, hstate⟩ := Option.isSome_iff_exists.mp (AList.lookup_isSome.mpr hmem)
  obtain ⟨inode, hat, -⟩ := h.files path state hstate
  rw [hlocate] at hat
  cases hat

theorem Reads.refl (h : Located tree t) : Reads tree t.stateAt t.passedAs t where
  since path _ hlocate := ReadSince.refl (h.fits hlocate) path
  absent _ hlocate := ⟨stateAt_of_absent h hlocate, rfl⟩

theorem Reads.written (h : Reads tree origins lines t) (hlocated : Located tree t)
    (hwritten : Written t u) : Reads tree origins lines u := by
  have hpassed : ∀ path, u.passedAs path = t.passedAs path := fun path => by
    unfold passedAs
    rw [hwritten.emitted]
  have hstate : ∀ path, u.stateAt path = t.stateAt path := fun path => by
    unfold stateAt
    rw [hwritten.files]
  refine ⟨fun path inode hlocate => ?_, fun path hlocate => ?_⟩
  · rw [hstate]
    cases hold : t.locate tree path with
    | none =>
        -- the file is new
        obtain ⟨horigin, hlines⟩ := h.absent path hold
        rw [horigin, stateAt_of_absent hlocated hold, ← hlines, ← hpassed]
        exact ReadSince.refl
          ⟨.inl rfl, Nat.zero_le _, fun _ hmem => absurd hmem List.not_mem_nil⟩ path
    | some i =>
        obtain rfl : i = inode :=
          Option.some.inj ((hwritten.toGrows.locate hold).symm.trans hlocate)
        exact (h.since path i hold).written hwritten
  · rw [hpassed]
    refine h.absent path ?_
    cases hold : t.locate tree path with
    | none => rfl
    | some i => exact absurd (hlocate.symm.trans (hwritten.toGrows.locate hold)) nofun

/-- A step that reads nothing. -/
theorem Reads.frame (h : Reads tree origins lines t) (hnames : u.names = t.names)
    (hcontents : u.contents = t.contents) (hemitted : u.emitted = t.emitted)
    (hstate : ∀ path, (u.stateAt path).offset = (t.stateAt path).offset ∧
      (u.stateAt path).pending = (t.stateAt path).pending) : Reads tree origins lines u := by
  have hpassed : ∀ path, u.passedAs path = t.passedAs path := fun path => by
    unfold passedAs
    rw [hemitted]
  have hlocate : ∀ path, u.locate tree path = t.locate tree path := fun path => by
    unfold WatchedTree.locate
    rw [hnames]
  refine ⟨fun path inode hat => ?_, fun path hat => ?_⟩
  · rw [hlocate] at hat
    exact (h.since path inode hat).frame hcontents (hpassed path) (hstate path).1 (hstate path).2
  · rw [hlocate] at hat
    rw [hpassed]
    exact h.absent path hat

/-- A state that differs in its inode is written. -/
theorem Reads.track (h : Reads tree origins lines t)
    (hoffset : state.offset = (t.stateAt path).offset)
    (hpending : state.pending = (t.stateAt path).pending) (phase : WatchPhase)
    (drain : Option DrainPhase) : Reads tree origins lines { t with
      phase := phase
      files := t.files.insert path state
      drain := drain } := by
  refine h.frame rfl rfl rfl fun other => ?_
  by_cases heq : other = path
  · subst heq
    rw [stateAt_of_lookup (AList.lookup_insert _)]
    exact ⟨hoffset, hpending⟩
  · have hsame : ((t.files.insert path state).lookup other).getD {} = t.stateAt other := by
      rw [AList.lookup_insert_ne heq]
      rfl
    exact ⟨congrArg FileState.offset hsame, congrArg FileState.pending hsame⟩

theorem Reads.enter (h : Reads tree origins lines t) (hstep : t.enter tree = some u) :
    Reads tree origins lines u := by
  cases of_enter hstep <;> exact h.frame rfl rfl rfl fun _ => ⟨rfl, rfl⟩

theorem Reads.visit (h : Reads tree origins lines t) (hprime : ¬ Prime t.phase)
    (hstep : t.visit tree fnmatch name = some u) : Reads tree origins lines u := by
  cases of_visit hstep with
  | skipped => exact h.frame rfl rfl rfl fun _ => ⟨rfl, rfl⟩
  | scanned _ hphase =>
      rw [hphase] at hprime
      exact absurd trivial hprime
  | found _ _ _ _ _ hnew =>
      refine h.track ?_ ?_ _ _
      · rw [stateAt_of_notMem hnew]
      · rw [stateAt_of_notMem hnew]

theorem Reads.leave (h : Reads tree origins lines t) (hstep : t.leave = some u) :
    Reads tree origins lines u := by
  obtain ⟨prime, dir, dirs, -, rfl⟩ := leave_eq_some hstep
  exact h.frame rfl rfl rfl fun _ => ⟨rfl, rfl⟩

theorem Reads.drainNext (h : Reads tree origins lines t) (hstep : t.drainNext path = some u) :
    Reads tree origins lines u := by
  obtain ⟨paths, -, -, -, rfl⟩ := drainNext_eq_some hstep
  exact h.frame rfl rfl rfl fun _ => ⟨rfl, rfl⟩

theorem Reads.stat (h : Reads tree origins lines t) (hlocated : Located tree t)
    (hstep : t.stat tree = some u) : Reads tree origins lines u := by
  obtain ⟨path, inode, state, -, -, rfl, rfl⟩ := hlocated.stat_eq_some hstep
  refine h.track ?_ ?_ _ _
  · rfl
  · rfl

theorem Reads.open_ (h : Reads tree origins lines t) {opened : Bool}
    (hstep : t.open_ tree opened = some u) : Reads tree origins lines u := by
  cases of_open hstep <;> exact h.frame rfl rfl rfl fun _ => ⟨rfl, rfl⟩

theorem Reads.read (h : Reads tree origins lines t) (hlocated : Located tree t)
    (hstep : t.read = some u) : Reads tree origins lines u := by
  cases of_read hstep with
  | atEnd => exact h.frame rfl rfl rfl fun _ => ⟨rfl, rfl⟩
  | @chunk path inode state got hdrain hstate hgot =>
      obtain ⟨i, hlocate, hinode⟩ := hlocated.drain _ hdrain
      obtain rfl : inode = i := hinode path inode rfl
      refine ⟨fun other i hother => ?_, fun other hother => ?_⟩
      · by_cases heq : other = path
        · subst heq
          obtain rfl : inode = i := Option.some.inj (hlocate.symm.trans hother)
          have hread := h.since other inode hlocate
          rw [stateAt_of_lookup hstate] at hread
          rw [stateAt_of_lookup (AList.lookup_insert _)]
          exact hread.receive (hgot ▸ List.take_prefix _ _)
        · have hread := h.since other i hother
          have hsame : ((t.files.insert path (FileState.receive Cell.byte state got).2).lookup
              other).getD {} = t.stateAt other := by
            rw [AList.lookup_insert_ne heq]
            rfl
          refine hread.frame ?_ ?_ ?_ ?_
          · rfl
          · rw [passedAs_emit, if_neg heq, List.append_nil]
          · exact congrArg FileState.offset hsame
          · exact congrArg FileState.pending hsame
      · have hne : other ≠ path := by
          rintro rfl
          exact absurd (hother.symm.trans hlocate) nofun
        rw [passedAs_emit, if_neg hne, List.append_nil]
        exact h.absent other hother

end WatchedTree

end LogMind
