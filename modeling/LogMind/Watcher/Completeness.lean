import LogMind.Watcher.Ledger

/-!
# Rotation and lost lines

What the steps of the watcher keep of a ledger. Handling an event, `stat` and `open`
pass nothing, so they only have to say which file will be read next. A read of the file
that `stat` saw passes its lines. When the file under the name is a newer one, what is
read goes under the state of the older one and nothing that is owed depends on it. The
run at the end loses its name before it is read.
-/

namespace LogMind

namespace Directory

namespace Ledger

variable {matching : Bytes → Bool} {l l' : Ledger} {name : Bytes} {inode n : Nat}

/-! ## The steps of the watcher -/

theorem Books.watch (h : Books matching l) {e : Directory} (hstep : l.directory.watch = some e) :
    Books matching { l with directory := e, started := l.directory.size } := by
  unfold Directory.watch at hstep
  split at hstep
  case h_2 => cases hstep
  case h_1 hphase =>
  rw [← Option.some.inj hstep]
  obtain ⟨hqueue, hemitted, hleft, hseen, hfiles⟩ := h.starting (by rw [watched, hphase])
  refine ⟨h.placed.withPhase fun _ _ hr => (by cases hr), h.unknown,
    fun _ _ hr => (by rcases hr with hr | ⟨_, hr⟩ <;> cases hr), fun _ hn => (by cases hn),
    h.unborn, h.seen_le, fun _ => le_rfl, fun hfalse => (by cases hfalse), fun _ name _ => ?_⟩
  have hunread : ∀ i n, n ≤ l.directory.size i → linesTo { l with
      directory := l.directory.withPhase .idle, started := l.directory.size } i n = [] :=
    fun i n hn => linesTo_of_le_started hn
  refine ⟨fun i _ kind hkind => ?_, fun _ _ hr => (by cases hr), fun i _ => ?_, fun _ => ?_,
    fun i hi => (by cases hi.1)⟩
  · change kind ∈ (eventsOf name l.directory.queue).getLast? at hkind
    rw [hqueue] at hkind
    cases hkind
  · exact .inr (.inr ((hunread i _ (h.seen_le i)).trans (hunread i _ le_rfl).symm))
  · refine ⟨?_, fun state hstate _ => ?_⟩
    · have hread : readUnder { l with
          directory := l.directory.withPhase .idle, started := l.directory.size } name = [] := by
        unfold readUnder
        split
        · exact hunread _ _ (h.seen_le _)
        · rfl
      rw [hread, hleft name]
      exact List.nil_sublist _
    · obtain ⟨hoffset, hpending⟩ := hfiles name state hstate
      have hnone : ((l.directory.cells state.inode).take state.offset).drop state.offset = [] :=
        List.drop_of_length_le (by rw [List.length_take]; exact Nat.min_le_left _ _)
      refine ⟨hoffset, hoffset.trans (le_max_right _ _), state.offset, [], hoffset, le_rfl, ?_, ?_,
        ?_⟩
      · show l.directory.passedAs name = [] ++ stripped (Lines.lines _
          (((l.directory.cells state.inode).take state.offset).drop state.offset))
        rw [hnone, passedAs, hemitted]
        rfl
      · show state.pending = Lines.tail _
          (((l.directory.cells state.inode).take state.offset).drop state.offset)
        rw [hnone, hpending]
        rfl
      · rw [hleft name]
        exact List.nil_sublist _

theorem Books.scan (h : Books matching l) {e : Directory}
    (hstep : l.directory.scan matching name = some e) : Books matching (l.after e l.left) := by
  unfold Directory.scan at hstep
  split at hstep
  case h_2 => cases hstep
  case h_1 hphase hfile =>
  split at hstep
  case isFalse => cases hstep
  case isTrue hmatch =>
  obtain ⟨hqueue, hemitted, hleft, hseen, hfiles⟩ := h.starting (by rw [watched, hphase])
  have hscanned : ∀ state : FileState Cell,
      (state.inode ≠ 0 → state.inode < l.directory.nextInode ∧
        l.directory.createdAs state.inode = name) →
      (state.inode = 0 → state = {}) → state.offset ≤ l.directory.size state.inode →
      state.pending = [] → Books matching (l.after (l.directory.withFile name state) l.left) := by
    intro state hplaced hunknown hoffset hpending
    refine ⟨h.placed.withFile hplaced, fun other found hfound => ?_, fun other _ hr => ?_,
      h.draining, h.unborn, h.seen_le, h.started_le,
      fun _ => ⟨hqueue, hemitted, hleft, hseen, fun other found hfound => ?_⟩, fun hwatched => ?_⟩
    · rcases files_withFile hfound with ⟨-, rfl⟩ | ⟨-, hold⟩
      · exact hunknown
      · exact h.unknown other found hold
    · change l.directory.phase = .opening other ∨ (∃ i, l.directory.phase = .reading other i) at hr
      rw [hphase] at hr
      rcases hr with hr | ⟨_, hr⟩ <;> cases hr
    · rcases files_withFile hfound with ⟨-, rfl⟩ | ⟨-, hold⟩
      · exact ⟨hoffset, hpending⟩
      · exact hfiles other found hold
    · change l.directory.watched = true at hwatched
      rw [watched, hphase] at hwatched
      cases hwatched
  cases hlookup : l.directory.names.lookup name with
  | none =>
      rw [hlookup] at hstep
      rw [← Option.some.inj hstep]
      exact hscanned {} (fun hne => absurd rfl hne) (fun _ => rfl) (Nat.zero_le _) rfl
  | some i =>
      rw [hlookup] at hstep
      rw [← Option.some.inj hstep]
      obtain ⟨hpos, hlt, hcreated⟩ := h.placed.names name hmatch i hlookup
      exact hscanned { inode := i, offset := l.directory.size i } (fun _ => ⟨hlt, hcreated⟩)
        (fun hzero => absurd hzero (Nat.ne_of_gt hpos)) le_rfl rfl

/-- A step of the watcher that reads nothing keeps the books, if it keeps those of every
name. -/
theorem Books.watches (h : Books matching l) {e : Directory} (hplaced : Placed matching e)
    (hunknown : ∀ name state, e.files name = some state → state.inode = 0 → state = {})
    (hknown : ∀ name state, e.phase = .opening name ∨ (∃ i, e.phase = .reading name i) →
      e.files name = some state → state.inode ≠ 0)
    (hdraining : ∀ name, e.draining = some name → matching name = true)
    (hcontents : e.contents = l.directory.contents) (hnext : e.nextInode = l.directory.nextInode)
    (hwatched : e.watched = true) (hkept : ∀ name, matching name = true →
      Kept (l.after e l.left) name) : Books matching (l.after e l.left) := by
  have hsize : ∀ i, e.size i = l.directory.size i := by
    intro i
    rw [size, hcontents]
    rfl
  refine ⟨hplaced, hunknown, hknown, hdraining, fun i hi => ?_, fun i => ?_, fun i => ?_,
    fun hfalse => (by cases hwatched.symm.trans hfalse), fun _ => hkept⟩
  · show e.contents i = []
    rw [hcontents]
    exact h.unborn i (hnext ▸ hi)
  · exact (h.seen_le i).trans_eq (hsize i).symm
  · exact (h.started_le i).trans_eq (hsize i).symm

/-- A name that a step of the watcher does not act on. -/
theorem Apart.of_watches {e : Directory} {other : Bytes} (hnames : e.names = l.directory.names)
    (hcontents : e.contents = l.directory.contents)
    (hfile : e.files other = l.directory.files other)
    (hpassed : e.passedAs other = l.directory.passedAs other)
    (hevents : eventsOf other e.queue = eventsOf other l.directory.queue)
    (hdraining : l.directory.draining ≠ some other) (hdraining' : e.draining ≠ some other) :
    Apart l (l.after e l.left) other := by
  refine ⟨by rw [after, hnames], hfile, fun phase hphase => ?_, hpassed, rfl, rfl, fun _ _ => rfl,
    fun i => ?_, .inl ⟨hevents, fun i _ => ?_⟩⟩
  · constructor
    · rintro rfl
      exact absurd hphase hdraining'
    · rintro rfl
      exact absurd hphase hdraining
  · show l.directory.contents i <+: e.contents i
    rw [hcontents]
  · show e.contents i = _
    rw [hcontents]

/-- The books of such a name. -/
theorem Books.kept_apart (h : Books matching l) (hwatched : l.directory.watched = true)
    {e : Directory} {other : Bytes} (hmatch : matching other = true)
    (hnames : e.names = l.directory.names) (hcontents : e.contents = l.directory.contents)
    (hemitted : e.emitted = l.directory.emitted)
    (hfile : e.files other = l.directory.files other)
    (hevents : eventsOf other e.queue = eventsOf other l.directory.queue)
    (hdraining : l.directory.draining ≠ some other) (hdraining' : e.draining ≠ some other) :
    Kept (l.after e l.left) other := by
  have hpassed : e.passedAs other = l.directory.passedAs other := by
    rw [passedAs, hemitted]
    rfl
  exact (h.kept hwatched other hmatch).frame
    (Apart.of_watches hnames hcontents hfile hpassed hevents hdraining hdraining') h.seen_le
    h.started_le

/-- The state of a name that is settled stays so with other files for it. -/
theorem Settled.after (h : Settled l name) {e : Directory} (hnames : e.names = l.directory.names)
    (hcontents : e.contents = l.directory.contents)
    (hpassed : e.passedAs name = l.directory.passedAs name)
    (hfile : ∀ state, e.files name = some state →
      l.directory.names.lookup name = some state.inode →
      Tracks l name (l.left name) state) : Settled (l.after e l.left) name := by
  refine ⟨?_, fun state hstate hi => ?_⟩
  · have hread : (l.after e l.left).readUnder name = l.readUnder name := by
      have hlookup : (l.after e l.left).directory.names.lookup name =
          l.directory.names.lookup name := by rw [Ledger.after, hnames]
      unfold readUnder
      rw [hlookup]
      split
      · exact linesTo_after (by rw [hcontents])
      · rfl
    rw [hread]
    show (stripped (l.left name ++ _)).Sublist (e.passedAs name)
    rw [hpassed]
    exact h.passed
  · rw [Ledger.after, hnames] at hi
    refine (hfile state hstate hi).frame rfl rfl ?_ hpassed
    show l.directory.contents _ <+: e.contents _
    rw [hcontents]

/-- Handling an event of the name. -/
theorem Kept.popped (h : Kept l name) (hidle : l.directory.phase = .idle) {e : Directory}
    {kind : EventKind} (hnames : e.names = l.directory.names)
    (hcontents : e.contents = l.directory.contents) (hemitted : e.emitted = l.directory.emitted)
    (hevents : eventsOf name l.directory.queue = kind :: eventsOf name e.queue)
    (hphase : e.phase = .statting name ∨ e.phase = .idle ∧ (kind = .delete ∨ kind = .movedFrom))
    (hfile : ∀ state, e.files name = some state → l.directory.files name = some state ∨
      l.directory.names.lookup name ≠ some state.inode) : Kept (l.after e l.left) name := by
  have hlast : ∀ i, l.directory.names.lookup name = some i →
      ∀ k ∈ (eventsOf name e.queue).getLast?, k ≠ .delete ∧ k ≠ .movedFrom := by
    intro i hi k hk
    refine h.last i hi k ?_
    rw [hevents, List.getLast?_cons]
    rw [Option.mem_def] at hk
    rw [hk]
    rfl
  have hnever : ∀ i, e.phase ≠ .reading name i := by
    rintro i hi
    rcases hphase with hstat | ⟨hidle', -⟩
    · cases hstat.symm.trans hi
    · cases hidle'.symm.trans hi
  have hbefore : ∀ i, ¬ l.directory.Reads name i := by
    intro i hi
    cases hidle.symm.trans (reads_iff.mp hi).1
  have hlookup : (l.after e l.left).directory.names.lookup name =
      l.directory.names.lookup name := by rw [after, hnames]
  refine ⟨fun i hi => hlast i (hlookup ▸ hi), fun i _ hi => absurd hi (hnever i), fun i hi => ?_,
    fun _ => ?_, fun i hi => absurd (reads_iff.mp hi).1 (hnever i)⟩
  · rcases hphase with hstat | ⟨-, hgone⟩
    · exact .inr (.inl (.inl hstat))
    · refine .inl fun hnone => ?_
      -- The removal would be the last event of a name that is there.
      have hremoval := h.last i (hlookup ▸ hi) kind (by
        rw [hevents, show eventsOf name e.queue = [] from hnone]
        rfl)
      rcases hgone with rfl | rfl
      · exact hremoval.1 rfl
      · exact hremoval.2 rfl
  · refine (h.settled hbefore).after hnames hcontents (by rw [passedAs, hemitted]; rfl)
      fun state hstate hi => ?_
    exact (h.settled hbefore).tracks state ((hfile state hstate).resolve_right (not_not.mpr hi)) hi

/-- Handling an event of a watched name: what becomes of the state for it. -/
theorem Books.popped (h : Books matching l) (hidle : l.directory.phase = .idle) {event : Event}
    (hname : matching event.name = true) {e : Directory}
    (hqueue : l.directory.queue = event :: e.queue) (hplaced : Placed matching e)
    (hself : ∀ state, e.files event.name = some state →
      l.directory.files event.name = some state ∨ state = {})
    (hothers : ∀ other ≠ event.name, e.files other = l.directory.files other)
    (hnames : e.names = l.directory.names) (hcontents : e.contents = l.directory.contents)
    (hemitted : e.emitted = l.directory.emitted) (hnext : e.nextInode = l.directory.nextInode)
    (hphase : e.phase = .statting event.name ∨
      e.phase = .idle ∧ (event.kind = .delete ∨ event.kind = .movedFrom)) :
    Books matching (l.after e l.left) := by
  have hwatched : l.directory.watched = true := by rw [watched, hidle]
  have hevents : ∀ name, eventsOf name l.directory.queue =
      if event.name = name then event.kind :: eventsOf name e.queue else eventsOf name e.queue := by
    intro name
    rw [hqueue, eventsOf_cons]
  have hdraining : ∀ name, e.draining = some name → name = event.name := by
    intro name hdrain
    rcases hphase with hstat | ⟨hidle', -⟩
    · rw [Directory.draining, hstat] at hdrain
      exact (Option.some.inj hdrain).symm
    · rw [Directory.draining, hidle'] at hdrain
      cases hdrain
  have hnever : ∀ name, e.phase ≠ .opening name ∧ ∀ i, e.phase ≠ .reading name i := by
    intro name
    rcases hphase with hstat | ⟨hidle', -⟩
    · simp [hstat]
    · simp [hidle']
  have hwatched' : e.watched = true := by
    rcases hphase with hstat | ⟨hidle', -⟩
    · rw [watched, hstat]
    · rw [watched, hidle']
  refine h.watches hplaced (fun name state hstate hzero => ?_) (fun name state hr => ?_)
    (fun name hdrain => hdraining name hdrain ▸ hname) hcontents hnext hwatched'
    fun name hmatch => ?_
  · by_cases hsame : name = event.name
    · subst hsame
      rcases hself state hstate with hold | rfl
      · exact h.unknown event.name state hold hzero
      · rfl
    · exact h.unknown name state (hothers name hsame ▸ hstate) hzero
  · rcases hr with hr | ⟨i, hr⟩
    · exact absurd hr (hnever name).1
    · exact absurd hr ((hnever name).2 i)
  · by_cases hsame : name = event.name
    · subst hsame
      refine (h.kept hwatched event.name hname).popped hidle hnames hcontents hemitted
        (by rw [hevents, if_pos rfl]) hphase fun state hstate => ?_
      refine (hself state hstate).imp id ?_
      rintro rfl hzero
      exact absurd (h.placed.names event.name hname 0 hzero).1 (lt_irrefl _)
    · refine h.kept_apart hwatched hmatch hnames hcontents hemitted (hothers name hsame) ?_ ?_
        fun hdrain => hsame (hdraining name hdrain)
      · rw [hevents, if_neg (Ne.symm hsame)]
      · rw [Directory.draining, hidle]
        exact (Option.some_ne_none name).symm

theorem Books.handle (h : Books matching l) {e : Directory}
    (hstep : l.directory.handle matching = some e) : Books matching (l.after e l.left) := by
  unfold Directory.handle at hstep
  split at hstep
  case h_2 => cases hstep
  case h_1 event rest hphase hqueue =>
  dsimp only at hstep
  have hrest : Placed matching (l.directory.withQueue rest) :=
    ⟨h.placed.nextInode_pos, h.placed.names, h.placed.files, h.placed.reading⟩
  by_cases hname : matching event.name = true
  case neg =>
    rw [if_neg hname] at hstep
    rw [← Option.some.inj hstep]
    have hwatched : l.directory.watched = true := by rw [watched, hphase]
    refine h.watches hrest h.unknown h.known h.draining rfl rfl hwatched fun name hmatch => ?_
    have hdraining : l.directory.draining ≠ some name := by
      rw [Directory.draining, hphase]
      exact (Option.some_ne_none name).symm
    refine h.kept_apart hwatched hmatch rfl rfl rfl rfl ?_ hdraining hdraining
    rw [hqueue, eventsOf_cons, if_neg (by rintro rfl; exact hname hmatch)]
    rfl
  case pos =>
    rw [if_pos hname] at hstep
    have hnew : Books matching (l.after (((l.directory.withQueue rest).withFile event.name
        {}).withPhase (.statting event.name)) l.left) :=
      h.popped hphase hname hqueue
        ((hrest.withFile fun hne => absurd rfl hne).withPhase fun _ _ hr => by cases hr)
        (fun state hstate => (files_withFile hstate).elim (fun hnew => .inr hnew.2)
          fun hold => absurd rfl hold.1)
        (fun other hne => Function.update_of_ne hne ..) rfl rfl rfl rfl (.inl rfl)
    have hgone : event.kind = .delete ∨ event.kind = .movedFrom →
        Books matching (l.after ((l.directory.withQueue rest).withoutFile event.name) l.left) :=
      fun hkind => h.popped hphase hname hqueue (hrest.withoutFile _)
        (fun state hstate => absurd rfl (files_withoutFile hstate).1)
        (fun other hne => Function.update_of_ne hne ..) rfl rfl rfl rfl (.inr ⟨hphase, hkind⟩)
    cases hkind : event.kind with
    | modify =>
        rw [hkind] at hstep
        rw [← Option.some.inj hstep]
        exact h.popped hphase hname hqueue (hrest.withPhase fun _ _ hr => by cases hr)
          (fun state hstate => .inl hstate) (fun _ _ => rfl) rfl rfl rfl rfl (.inl rfl)
    | create =>
        rw [hkind] at hstep
        exact Option.some.inj hstep ▸ hnew
    | movedTo =>
        rw [hkind] at hstep
        exact Option.some.inj hstep ▸ hnew
    | delete =>
        rw [hkind] at hstep
        exact Option.some.inj hstep ▸ hgone (.inl hkind)
    | movedFrom =>
        rw [hkind] at hstep
        exact Option.some.inj hstep ▸ hgone (.inr hkind)

/-- A step of the watcher that does not begin to read the file under the name. -/
theorem Kept.moved (h : Kept l name) (hbefore : ∀ i, ¬ l.directory.Reads name i) {e : Directory}
    (hnames : e.names = l.directory.names) (hcontents : e.contents = l.directory.contents)
    (hemitted : e.emitted = l.directory.emitted) (hqueue : e.queue = l.directory.queue)
    (hreads : ∀ i, ¬ e.Reads name i)
    (hmixed : ∀ i state, e.phase = .reading name i → e.files name = some state → state.inode ≠ i →
      l.directory.names.lookup name ≠ some state.inode)
    (hfile : ∀ state, e.files name = some state →
      l.directory.names.lookup name = some state.inode → Tracks l name (l.left name) state)
    (hannounced : ∀ i, l.directory.names.lookup name = some i →
      eventsOf name l.directory.queue ≠ [] ∨ Drains e name i ∨
        l.linesTo i (l.seen i) = l.linesOf i) : Kept (l.after e l.left) name := by
  have hlookup : (l.after e l.left).directory.names.lookup name =
      l.directory.names.lookup name := by rw [after, hnames]
  have hevents : eventsOf name (l.after e l.left).directory.queue =
      eventsOf name l.directory.queue := by rw [after, hqueue]
  refine ⟨fun i hi => ?_, fun i state hphase hstate hne => ?_, fun i hi => ?_, fun _ => ?_,
    fun i hi => absurd hi (hreads i)⟩
  · rw [hevents]
    exact h.last i (hlookup ▸ hi)
  · rw [hlookup]
    exact hmixed i state hphase hstate hne
  · rw [hevents, linesTo_after (by rw [hcontents]), linesOf_after (by rw [hcontents])]
    exact hannounced i (hlookup ▸ hi)
  · exact (h.settled hbefore).after hnames hcontents (by rw [passedAs, hemitted]; rfl) hfile

/-- Nothing has been read into the state of a file that is new to the watcher. -/
theorem Settled.fresh (h : Settled l name) :
    Tracks l name (l.left name) { offset := 0, inode := inode, pending := [] } := by
  refine ⟨Nat.zero_le _, Nat.zero_le _, 0, l.directory.passedAs name, Nat.zero_le _, le_rfl, ?_,
    rfl, ?_⟩
  · show _ = l.directory.passedAs name ++ []
    rw [List.append_nil]
  · have hpassed := h.passed
    unfold stripped at hpassed ⊢
    rw [List.map_append] at hpassed
    exact (List.sublist_append_left _ _).trans hpassed

/-- What `stat` makes of the state of a file. -/
theorem Settled.noteStat (h : Settled l name)
    (hlookup : l.directory.names.lookup name = some inode)
    (hunknown : ∀ state, l.directory.files name = some state → state.inode = 0 → state = {}) :
    Tracks l name (l.left name)
      (((l.directory.files name).getD {}).noteStat inode (l.directory.size inode)) := by
  unfold FileState.noteStat
  split
  case isTrue => exact h.fresh
  case isFalse hsame =>
    split
    case isTrue => exact h.fresh
    case isFalse =>
      cases hfile : l.directory.files name with
      | none => exact h.fresh
      | some state =>
          rw [hfile] at hsame
          by_cases hzero : state.inode = 0
          · obtain rfl := hunknown state hfile hzero
            exact h.fresh
          · obtain rfl : state.inode = inode := by
              by_contra hne
              exact hsame ⟨hzero, hne⟩
            exact h.tracks state hfile hlookup

theorem not_reads_of_statting (hphase : l.directory.phase = .statting name) (other : Bytes)
    (i : Nat) : ¬ l.directory.Reads other i :=
  fun hi => by cases hphase.symm.trans (reads_iff.mp hi).1

/-- `stat` has seen the file under the name. -/
theorem Books.statted (h : Books matching l) (hphase : l.directory.phase = .statting name)
    {state : FileState Cell} (hlookup : l.directory.names.lookup name = some state.inode)
    (htracks : Tracks l name (l.left name) state) {phase : Phase}
    (hnever : ∀ other i, phase ≠ .reading other i)
    (hdrains : ∀ other,
      ((l.directory.withFile name state).withPhase phase).draining = some other → other = name)
    (hwatched' : ((l.directory.withFile name state).withPhase phase).watched = true)
    (hannounced : Drains ((l.directory.withFile name state).withPhase phase) name state.inode ∨
      l.linesTo state.inode (l.seen state.inode) = l.linesOf state.inode) :
    Books matching (l.after ((l.directory.withFile name state).withPhase phase) l.left) := by
  have hdraining : l.directory.draining = some name := by rw [Directory.draining, hphase]
  have hwatched := watched_of_draining hdraining
  have hname := h.draining name hdraining
  obtain ⟨hpos, hlt, hcreated⟩ := h.placed.names name hname state.inode hlookup
  refine h.watches ((h.placed.withFile fun _ => ⟨hlt, hcreated⟩).withPhase fun other i hr =>
      absurd hr (hnever other i)) (fun other found hfound hzero => ?_)
    (fun other found hr hfound => ?_) (fun other hdrain => hdrains other hdrain ▸ hname)
    rfl rfl hwatched' fun other hmatch => ?_
  · rcases files_withFile hfound with ⟨-, rfl⟩ | ⟨-, hold⟩
    · exact absurd hzero (Nat.ne_of_gt hpos)
    · exact h.unknown other found hold hzero
  · rcases files_withFile hfound with ⟨-, rfl⟩ | ⟨hne, -⟩
    · exact Nat.ne_of_gt hpos
    · refine absurd (hdrains other ?_) hne
      unfold Directory.draining
      rcases hr with hr | ⟨_, hr⟩ <;> rw [hr]
  · by_cases hsame : other = name
    · subst hsame
      refine (h.kept hwatched other hname).moved (not_reads_of_statting hphase other) rfl rfl rfl
        rfl (fun i hi => hnever other i (reads_iff (l := l.after _ l.left).mp hi).1)
        (fun i _ hr => absurd hr (hnever other i)) (fun found hfound _ => ?_) fun i hi => ?_
      · rcases files_withFile hfound with ⟨-, rfl⟩ | ⟨hne, -⟩
        · exact htracks
        · exact absurd rfl hne
      · obtain rfl := Option.some.inj (hlookup.symm.trans hi)
        exact .inr hannounced
    · refine h.kept_apart hwatched hmatch rfl rfl rfl (Function.update_of_ne hsame ..) rfl ?_
        fun hdrain => hsame (hdrains other hdrain)
      exact fun hdrain => hsame (Option.some.inj (hdrain.symm.trans hdraining))

theorem Books.stat (h : Books matching l) {e : Directory} (hstep : l.directory.stat = some e) :
    Books matching (l.after e l.left) := by
  unfold Directory.stat at hstep
  split at hstep
  case h_2 => cases hstep
  case h_1 name hphase =>
  have hdraining : l.directory.draining = some name := by rw [Directory.draining, hphase]
  have hwatched := watched_of_draining hdraining
  have hbefore := not_reads_of_statting hphase
  have hkept := h.kept hwatched name (h.draining name hdraining)
  cases hlookup : l.directory.names.lookup name with
  | none =>
      rw [hlookup] at hstep
      rw [← Option.some.inj hstep]
      refine h.watches (h.placed.withPhase fun _ _ hr => by cases hr) h.unknown
        (fun _ _ hr => by rcases hr with hr | ⟨_, hr⟩ <;> cases hr)
        (fun _ hdrain => by cases hdrain) rfl rfl rfl fun other hmatch => ?_
      by_cases hsame : other = name
      · subst hsame
        exact hkept.moved (hbefore other) rfl rfl rfl rfl (fun _ hi => by cases hi.1)
          (fun _ _ hr => by cases hr) (fun _ _ hi => by cases hlookup.symm.trans hi)
          fun _ hi => by cases hlookup.symm.trans hi
      · refine h.kept_apart hwatched hmatch rfl rfl rfl rfl rfl ?_ fun hdrain => by cases hdrain
        exact fun hdrain => hsame (Option.some.inj (hdrain.symm.trans hdraining))
  | some i =>
      rw [hlookup] at hstep
      dsimp only at hstep
      have htracks := (hkept.settled (hbefore name)).noteStat hlookup (h.unknown name)
      have hinode :
          (((l.directory.files name).getD {}).noteStat i (l.directory.size i)).inode = i :=
        FileState.noteStat_inode ..
      generalize ((l.directory.files name).getD {}).noteStat i (l.directory.size i) = state
        at hstep htracks hinode
      subst hinode
      rw [← Option.some.inj hstep]
      split
      case isTrue hread =>
        refine h.statted hphase hlookup htracks (fun _ _ hr => by cases hr)
          (fun _ hdrain => by cases hdrain) rfl (.inr ?_)
        exact linesTo_seen_eq (h.seen_le _) (hread.trans htracks.offset_seen)
      case isFalse =>
        refine h.statted hphase hlookup htracks (fun _ _ hr => by cases hr)
          (fun _ hdrain => (Option.some.inj hdrain).symm) rfl (.inl (.inr ⟨.inl rfl, ?_⟩))
        show (Function.update l.directory.files name (some state) name).map FileState.inode = _
        rw [Function.update_self, Option.map_some]

/-- The file that `stat` saw has been opened. -/
theorem Kept.opened (h : Kept l name) (hphase : l.directory.phase = .opening name)
    (hlookup : l.directory.names.lookup name = some inode)
    (hfile : (l.directory.files name).map FileState.inode = some inode) :
    Kept (l.after (l.directory.withPhase (.reading name inode)) l.left) name := by
  have hsettled := h.settled fun i hi => by cases hphase.symm.trans (reads_iff.mp hi).1
  have hpassed := hsettled.passed
  rw [readUnder_of_some hlookup] at hpassed
  refine ⟨h.last, fun i state hr hstate hne => ?_, fun i hi => ?_, fun hnot => ?_, fun i hi => ?_⟩
  · obtain ⟨-, rfl⟩ : name = name ∧ inode = i := Phase.reading.inj hr
    change l.directory.files name = some state at hstate
    rw [hstate] at hfile
    exact absurd (Option.some.inj hfile) hne
  · obtain rfl := Option.some.inj (hlookup.symm.trans hi)
    exact .inr (.inl (.inr ⟨.inr rfl, hfile⟩))
  · exact absurd ⟨rfl, rfl, hfile⟩ (hnot inode)
  · obtain rfl : inode = i := Option.some.inj hi.2.1
    refine ⟨l.left name, ⟨[], (List.append_nil _).symm, List.nil_prefix, fun _ => rfl⟩, hpassed,
      fun state hstate => ?_, fun j hj hne => absurd ?_ hne⟩
    · have hstate : l.directory.files name = some state := hstate
      refine (hsettled.tracks state hstate ?_).frame rfl rfl (List.prefix_refl _) rfl
      rw [hstate] at hfile
      exact hlookup.trans hfile.symm
    · exact Option.some.inj (hj.symm.trans hlookup)

/-- After `open` the books of the other names are as before. -/
theorem Books.opened (h : Books matching l) (hphase : l.directory.phase = .opening name)
    {phase : Phase} (hreading : ∀ other i, phase = .reading other i →
      0 < i ∧ i < l.directory.nextInode ∧ l.directory.createdAs i = other)
    (hdrains : ∀ other, (l.directory.withPhase phase).draining = some other → other = name)
    (hwatched' : (l.directory.withPhase phase).watched = true)
    (hself : Kept (l.after (l.directory.withPhase phase) l.left) name) :
    Books matching (l.after (l.directory.withPhase phase) l.left) := by
  have hdraining : l.directory.draining = some name := by rw [Directory.draining, hphase]
  have hwatched := watched_of_draining hdraining
  refine h.watches (h.placed.withPhase hreading) h.unknown (fun other state hr hstate => ?_)
    (fun other hdrain => hdrains other hdrain ▸ h.draining name hdraining) rfl rfl hwatched'
    fun other hmatch => ?_
  · obtain rfl : other = name := by
      apply hdrains
      unfold Directory.draining
      rcases hr with hr | ⟨_, hr⟩ <;> rw [hr]
    exact h.known other state (.inl hphase) hstate
  · by_cases hsame : other = name
    · exact hsame ▸ hself
    · refine h.kept_apart hwatched hmatch rfl rfl rfl rfl rfl ?_
        fun hdrain => hsame (hdrains other hdrain)
      exact fun hdrain => hsame (Option.some.inj (hdrain.symm.trans hdraining))

theorem Books.open_ (h : Books matching l) {opened : Bool} {e : Directory}
    (hunhurried : Unhurried matching l (.open_ opened))
    (hstep : l.directory.open_ opened = some e) :
    Books matching (l.after e l.left) := by
  unfold Directory.open_ at hstep
  split at hstep
  case h_2 => cases hstep
  case h_1 name hphase =>
  have hdraining : l.directory.draining = some name := by rw [Directory.draining, hphase]
  have hname := h.draining name hdraining
  have hbefore : ∀ other i, ¬ l.directory.Reads other i :=
    fun other i hi => by cases hphase.symm.trans (reads_iff.mp hi).1
  have hkept := h.kept (watched_of_draining hdraining) name hname
  have hidle : l.directory.names.lookup name = none →
      Books matching (l.after (l.directory.withPhase .idle) l.left) := fun hlookup =>
    h.opened hphase (fun _ _ hr => by cases hr) (fun _ hdrain => by cases hdrain) rfl <|
      hkept.moved (hbefore name) rfl rfl rfl rfl (fun _ hi => by cases hi.1)
        (fun _ _ hr => by cases hr) (fun _ _ hi => by cases hlookup.symm.trans hi)
        fun _ hi => by cases hlookup.symm.trans hi
  cases hlookup : l.directory.names.lookup name with
  | none =>
      rw [hlookup] at hstep
      exact Option.some.inj hstep ▸ hidle hlookup
  | some i =>
      rw [hlookup] at hstep
      rw [← Option.some.inj hstep]
      cases opened with
      | false => exact hidle (hunhurried rfl name hdraining)
      | true =>
          refine h.opened hphase (fun other j hr => ?_)
            (fun _ hdrain => (Option.some.inj hdrain).symm) rfl ?_
          · cases hr
            exact h.placed.names name hname i hlookup
          · by_cases hfile : (l.directory.files name).map FileState.inode = some i
            · exact hkept.opened hphase hlookup hfile
            · -- The name has gone to a new file since the `stat`.
              refine hkept.moved (hbefore name) rfl rfl rfl rfl (fun j hj => hfile ?_)
                (fun j state hr _ hne hsame => hne ?_)
                (fun state hstate hi => (hkept.settled (hbefore name)).tracks state hstate hi)
                fun j hj => ?_
              · obtain rfl : i = j := Option.some.inj hj.2.1
                exact hj.2.2
              · obtain ⟨-, rfl⟩ : name = name ∧ i = j := Phase.reading.inj hr
                exact Option.some.inj (hsame.symm.trans hlookup)
              · obtain rfl := Option.some.inj (hlookup.symm.trans hj)
                refine (hkept.announced i hj).imp id fun hor => .inr (hor.resolve_left ?_)
                rintro (hstat | ⟨-, hsame⟩)
                · cases hphase.symm.trans hstat
                · exact hfile hsame

/-- The lines up to the offset have been passed. -/
theorem Tracks.passed {before : List (List Cell)} {state : FileState Cell}
    (h : Tracks l name before state) :
    (stripped (before ++ l.linesTo state.inode state.offset)).Sublist
      (l.directory.passedAs name) := by
  obtain ⟨first, earlier, hfirst, -, hpassed, -, hbefore⟩ := h.lines
  rw [hpassed, stripped, List.map_append]
  exact hbefore.append ((linesTo_sublist hfirst).map _)

theorem passedAs_emit (d : Directory) (name other : Bytes) (lines : List (List Cell)) :
    (d.emit name lines).passedAs other =
      d.passedAs other ++ if name = other then lines else [] := by
  unfold passedAs emit
  rw [Keyed.onKey_append, List.map_append]
  congr 1
  by_cases hsame : name = other
  · rw [if_pos hsame, Keyed.onKey, List.filter_eq_self.mpr (by simp [hsame]), List.map_map]
    exact List.map_id' lines
  · rw [if_neg hsame, Keyed.onKey, List.filter_eq_nil_iff.mpr (by simp [hsame])]
    rfl

/-- The ledger after a read that changes the state of the file and passes lines. -/
def receiving (l : Ledger) (name : Bytes) (after : FileState Cell) (lines : List (List Cell))
    (phase : Phase) (seen : Nat → Nat) : Ledger :=
  { l with
    directory := ((l.directory.withFile name after).emit name lines).withPhase phase
    seen := seen }

/-- A read of the file that the state belongs to. -/
theorem Tracks.receive {before lines : List (List Cell)} {state after : FileState Cell}
    (h : Tracks l name before state)
    (hshort : (Lines.tail (FileState.isLf Cell.byte)
      (state.pending ++ l.directory.available state.inode state.offset)).length ≤ kMaxLineBytes)
    (hreceive : FileState.receive Cell.byte state
      (l.directory.available state.inode state.offset) = (lines, after)) {phase : Phase}
    {seen : Nat → Nat} (hseen : after.offset ≤ seen state.inode) :
    Tracks (l.receiving name after lines phase seen) name before after := by
  obtain ⟨first, earlier, hfirst, hle, hpassed, hpending, hbefore⟩ := h.lines
  rw [FileState.receive_eq _ _ _ hshort] at hreceive
  obtain ⟨rfl, rfl⟩ := Prod.mk.inj hreceive
  have hsize := available_le h.offset_le
  have htake := take_available l.directory state.inode state.offset
  generalize l.directory.available state.inode state.offset = got at hseen hsize htake ⊢
  have hall : ((l.directory.cells state.inode).take (state.offset + got.length)).drop first =
      ((l.directory.cells state.inode).take state.offset).drop first ++ got := by
    rw [htake, List.drop_append_of_le_length]
    rw [List.length_take, length_cells]
    have hoffset := h.offset_le
    omega
  refine ⟨hsize, hseen.trans (le_max_left _ _), first, earlier, hfirst,
    hle.trans (Nat.le_add_right _ _), ?_, ?_, hbefore⟩
  · show ((l.directory.withFile name _).emit name _).passedAs name = earlier ++
      stripped (Lines.lines _ (((l.directory.cells state.inode).take _).drop first))
    rw [passedAs_emit, if_pos rfl, hall, Lines.lines_append _ (List.drop first _), ← hpending,
      stripped, List.map_append, ← List.append_assoc]
    exact congrArg (· ++ _) hpassed
  · show Lines.tail _ _ = Lines.tail _ (((l.directory.cells state.inode).take _).drop first)
    rw [hall, Lines.tail_append _ (List.drop first _), ← hpending]

/-- At the end of the file, all that was owed has been passed. -/
theorem Following.ended {before : List (List Cell)} (h : Following l name inode before)
    (hfile : ∀ state, l.directory.files name = some state → state.inode = inode)
    (hread : l.linesTo inode (l.seen inode) = l.linesOf inode) : Settled l name := by
  obtain ⟨more, hleft, hprefix, hnone⟩ := h.left
  refine ⟨?_, fun state hstate hi => ?_⟩
  · refine List.Sublist.trans (List.Sublist.map _ ?_) h.passed
    rw [hleft, hread]
    by_cases hsame : l.directory.names.lookup name = some inode
    · rw [hnone hsame, List.append_nil, readUnder_of_some hsame, hread]
    · have hunread : l.readUnder name = [] := by
        cases hlookup : l.directory.names.lookup name with
        | none => exact readUnder_of_none hlookup
        | some i =>
            rw [readUnder_of_some hlookup, h.other i hlookup, linesTo_zero]
            rintro rfl
            exact hsame hlookup
      rw [hunread, List.append_nil]
      exact (List.Sublist.refl before).append hprefix.sublist
  · have hsame := hfile state hstate
    rw [hleft, hnone (hsame ▸ hi), List.append_nil]
    exact h.tracks state hstate

/-- A read passes the lines that the file under the name has further on. -/
theorem Following.received {before : List (List Cell)} {state after : FileState Cell}
    {lines : List (List Cell)} {phase : Phase} {seen : Nat → Nat}
    (h : Following l name state.inode before) (hinode : after.inode = state.inode)
    (hseen : seen state.inode = max (l.seen state.inode) after.offset)
    (hother : ∀ i ≠ state.inode, seen i = l.seen i)
    (htracks : Tracks (l.receiving name after lines phase seen) name before after) :
    Following (l.receiving name after lines phase seen) name state.inode before := by
  refine ⟨h.left, ?_, fun found hfound => ?_, fun i hi hne => ?_⟩
  · show (stripped (before ++ l.linesTo state.inode (seen state.inode))).Sublist _
    rw [hseen]
    rcases le_total after.offset (l.seen state.inode) with hold | hread
    · rw [max_eq_left hold]
      refine h.passed.trans ?_
      show (l.directory.passedAs name).Sublist
        (((l.directory.withFile name after).emit name lines).passedAs name)
      rw [passedAs_emit]
      exact List.sublist_append_left _ _
    · rw [max_eq_right hread]
      have hpassed := htracks.passed
      rw [hinode] at hpassed
      exact hpassed
  · have hafter : (l.receiving name after lines phase seen).directory.files name = some after :=
      Function.update_self ..
    obtain rfl := Option.some.inj (hafter.symm.trans hfound)
    exact htracks
  · exact (hother i hne).trans (h.other i hi hne)

/-- A read of the file that `stat` saw. -/
theorem Kept.received (h : Kept l name) {state after : FileState Cell} {lines : List (List Cell)}
    {phase : Phase} {seen : Nat → Nat} (hphase : l.directory.phase = .reading name state.inode)
    (hfile : l.directory.files name = some state)
    (hle : l.seen state.inode ≤ l.directory.size state.inode) (hinode : after.inode = state.inode)
    (hseen : seen state.inode = max (l.seen state.inode) after.offset)
    (hother : ∀ i ≠ state.inode, seen i = l.seen i)
    (htracks : ∀ before, Tracks l name before state →
      Tracks (l.receiving name after lines phase seen) name before after)
    (hnext : phase = .reading name state.inode ∨
      phase = .idle ∧ l.directory.size state.inode ≤ after.offset) :
    Kept (l.receiving name after lines phase seen) name := by
  have hinode' : (l.directory.files name).map FileState.inode = some state.inode := by
    rw [hfile, Option.map_some]
  have hafter : (l.receiving name after lines phase seen).directory.files name = some after :=
    Function.update_self ..
  obtain ⟨before, hfollowing⟩ := h.following _ (reads_iff.mpr ⟨hphase, hinode'⟩)
  have hnew := htracks before (hfollowing.tracks state hfile)
  have hgoes := hfollowing.received hinode hseen hother hnew
  have hothers : ∀ i ≠ state.inode, l.directory.names.lookup name = some i →
      eventsOf name l.directory.queue ≠ [] ∨ l.linesTo i (seen i) = l.linesOf i := by
    intro i hne hi
    rw [hother i hne]
    refine (h.announced i hi).imp id fun hor => hor.resolve_left ?_
    rintro (hstat | ⟨-, hsame⟩)
    · cases hphase.symm.trans hstat
    · exact hne (Option.some.inj (hsame.symm.trans hinode'))
  rcases hnext with rfl | ⟨rfl, hend⟩
  · have hreads : (l.receiving name after lines (.reading name state.inode) seen).directory.Reads
        name state.inode := ⟨rfl, rfl, by rw [hafter, Option.map_some, hinode]⟩
    refine ⟨h.last, fun i found hr hfound hne => absurd ?_ hne, fun i hi => ?_,
      fun hnot => absurd hreads (hnot _), fun i hi => ?_⟩
    · obtain ⟨-, rfl⟩ : name = name ∧ state.inode = i := Phase.reading.inj hr
      exact Option.some.inj (hafter.symm.trans hfound) ▸ hinode
    · by_cases hsame : i = state.inode
      · exact .inr (.inl (.inr ⟨.inr (by rw [hsame]; rfl), hsame ▸ hreads.2.2⟩))
      · exact (hothers i hsame hi).imp id .inr
    · obtain rfl : state.inode = i := Option.some.inj hi.2.1
      exact ⟨before, hgoes⟩
  · have hread : (l.receiving name after lines .idle seen).linesTo state.inode (seen state.inode) =
        (l.receiving name after lines .idle seen).linesOf state.inode := by
      have hoffset := hnew.offset_le
      rw [hinode] at hoffset
      apply linesTo_seen_eq
      · exact hseen.trans_le (max_le hle hoffset)
      · refine hend.trans (le_trans ?_ (le_max_left _ _))
        exact (le_max_right _ _).trans_eq hseen.symm
    refine ⟨h.last, fun _ _ hr => (by cases hr), fun i hi => ?_, fun _ => ?_,
      fun _ hi => (by cases hi.1)⟩
    · by_cases hsame : i = state.inode
      · exact .inr (.inr (hsame ▸ hread))
      · exact (hothers i hsame hi).imp id .inr
    · refine hgoes.ended (fun found hfound => ?_) hread
      exact Option.some.inj (hafter.symm.trans hfound) ▸ hinode

/-- A read that goes on in another file with the offset of this one. -/
theorem Kept.strayed (h : Kept l name) {state after : FileState Cell} {lines : List (List Cell)}
    {phase : Phase} (hphase : l.directory.phase = .reading name inode)
    (hfile : l.directory.files name = some state) (hne : state.inode ≠ inode)
    (hinode : after.inode = state.inode) (hnext : phase = .reading name inode ∨ phase = .idle) :
    Kept (l.receiving name after lines phase l.seen) name := by
  have hafter : (l.receiving name after lines phase l.seen).directory.files name = some after :=
    Function.update_self ..
  have hgone := h.mixed inode state hphase hfile hne
  have hnot : ∀ i, ¬ (l.receiving name after lines phase l.seen).directory.Reads name i := by
    intro i hi
    obtain ⟨hr, hsame⟩ := reads_iff.mp hi
    change phase = .reading name i at hr
    rcases hnext with rfl | rfl
    · obtain ⟨-, rfl⟩ : name = name ∧ inode = i := Phase.reading.inj hr
      rw [hafter, Option.map_some, hinode] at hsame
      exact hne (Option.some.inj hsame)
    · cases hr
  have hsettled := h.settled fun i hi => hne (by
    obtain ⟨hr, hsame⟩ := reads_iff.mp hi
    obtain ⟨-, rfl⟩ : name = name ∧ inode = i := Phase.reading.inj (hphase.symm.trans hr)
    rw [hfile] at hsame
    exact Option.some.inj hsame)
  refine ⟨h.last, fun i found _ hfound _ => ?_, fun i hi => ?_,
    fun _ => ⟨?_, fun found hfound hi => ?_⟩, fun i hi => absurd hi (hnot i)⟩
  · obtain rfl := Option.some.inj (hafter.symm.trans hfound)
    rw [hinode]
    exact hgone
  · refine (h.announced i hi).imp id fun hor => .inr (hor.resolve_left ?_)
    rintro (hstat | ⟨hr, hsame⟩)
    · cases hphase.symm.trans hstat
    · rcases hr with hr | hr
      · cases hphase.symm.trans hr
      · obtain ⟨-, rfl⟩ : name = name ∧ inode = i := Phase.reading.inj (hphase.symm.trans hr)
        rw [hfile] at hsame
        exact hne (Option.some.inj hsame)
  · refine hsettled.passed.trans ?_
    show (l.directory.passedAs name).Sublist
      (((l.directory.withFile name after).emit name lines).passedAs name)
    rw [passedAs_emit]
    exact List.sublist_append_left _ _
  · obtain rfl := Option.some.inj (hafter.symm.trans hfound)
    exact absurd (hinode ▸ hi) hgone

/-- A read keeps the books, if it keeps those of the name that is read. -/
theorem Books.receiving (h : Books matching l) (hphase : l.directory.phase = .reading name inode)
    {state after : FileState Cell} {lines : List (List Cell)} {phase : Phase} {seen : Nat → Nat}
    (hfile : l.directory.files name = some state) (hinode : after.inode = state.inode)
    (hnext : phase = .reading name inode ∨ phase = .idle)
    (hother : ∀ i ≠ inode, seen i = l.seen i) (hle : seen inode ≤ l.directory.size inode)
    (hkept : Kept (l.receiving name after lines phase seen) name) :
    Books matching (l.receiving name after lines phase seen) := by
  have hdraining : l.directory.draining = some name := by rw [Directory.draining, hphase]
  have hwatched := watched_of_draining hdraining
  have hname := h.draining name hdraining
  have hplaced := h.placed.reading name inode hphase
  have hknown := h.known name state (.inr ⟨inode, hphase⟩) hfile
  have hdrains : ∀ other,
      (l.receiving name after lines phase seen).directory.draining = some other →
        other = name := by
    intro other hdrain
    rcases hnext with rfl | rfl
    · exact (Option.some.inj hdrain).symm
    · cases hdrain
  have hstill : (l.receiving name after lines phase seen).directory.watched = true := by
    rcases hnext with rfl | rfl <;> rfl
  have hfiled : Placed matching (l.directory.withFile name after) :=
    h.placed.withFile fun _ => hinode ▸ h.placed.files name state hfile hknown
  refine ⟨⟨hfiled.nextInode_pos, hfiled.names, hfiled.files, fun other i hr => ?_⟩,
    fun other found hfound hzero => ?_, fun other found hr hfound => ?_,
    fun other hdrain => hdrains other hdrain ▸ hname, h.unborn, fun i => ?_, h.started_le,
    fun hfalse => (by cases hstill.symm.trans hfalse), fun _ other hmatch => ?_⟩
  · change phase = .reading other i at hr
    rcases hnext with rfl | rfl
    · cases hr
      exact hplaced
    · cases hr
  · rcases files_withFile hfound with ⟨-, rfl⟩ | ⟨-, hold⟩
    · exact absurd (hinode.symm.trans hzero) hknown
    · exact h.unknown other found hold hzero
  · rcases files_withFile hfound with ⟨-, rfl⟩ | ⟨hne, -⟩
    · exact hinode ▸ hknown
    · refine absurd (hdrains other ?_) hne
      unfold Directory.draining
      rcases hr with hr | ⟨_, hr⟩ <;> rw [hr]
  · show seen i ≤ l.directory.size i
    by_cases hsame : i = inode
    · exact hsame ▸ hle
    · rw [hother i hsame]
      exact h.seen_le i
  · by_cases hsame : other = name
    · exact hsame ▸ hkept
    · have hnames : ∀ i, l.directory.names.lookup other = some i ∨
          (l.directory.files other).map FileState.inode = some i → i ≠ inode := by
        rintro i hi rfl
        refine hsame (Eq.trans ?_ hplaced.2.2)
        rcases hi with hi | hi
        · exact (h.placed.names other hmatch i hi).2.2.symm
        · obtain ⟨found, hfound, rfl⟩ := Option.map_eq_some_iff.mp hi
          exact (h.placed.files other found hfound (Nat.ne_of_gt hplaced.1)).2.symm
      refine (h.kept hwatched other hmatch).frame ⟨rfl, Function.update_of_ne hsame .., ?_, ?_, rfl,
        rfl, fun i hi => hother i (hnames i hi), fun _ => List.prefix_refl _,
        .inl ⟨rfl, fun _ _ => rfl⟩⟩ h.seen_le h.started_le
      · intro wanted hwanted
        constructor
        · rintro rfl
          exact absurd (hdrains other hwanted) hsame
        · rintro rfl
          exact absurd (Option.some.inj (hwanted.symm.trans hdraining)) hsame
      · show ((l.directory.withFile name after).emit name lines).passedAs other = _
        rw [passedAs_emit, if_neg (Ne.symm hsame), List.append_nil]
        rfl

theorem readOn_of_reading {state : FileState Cell}
    (hphase : l.directory.phase = .reading name inode)
    (hfile : l.directory.files name = some state) :
    l.readOn = if state.inode = inode then
      Function.update l.seen inode (max (l.seen inode)
        (state.offset + (l.directory.available inode state.offset).length)) else l.seen := by
  unfold readOn draining inodeRead
  rw [hphase]
  dsimp only
  rw [hfile]

/-- A read that finds nothing leaves the state as it is. -/
theorem withPhase_eq_receiving {state : FileState Cell} {phase : Phase} {seen : Nat → Nat}
    (hfile : l.directory.files name = some state) :
    { l with directory := l.directory.withPhase phase, seen := seen } =
      l.receiving name state [] phase seen := by
  have hsame : Function.update l.directory.files name (some state) = l.directory.files :=
    Function.update_eq_self_iff.mpr hfile.symm
  unfold receiving emit withFile
  rw [hsame, List.map_nil, List.append_nil]

/-- The read loop has another file open than the one of the state. -/
theorem Books.read_other (h : Books matching l) (hphase : l.directory.phase = .reading name inode)
    {state after : FileState Cell} {lines : List (List Cell)} {phase : Phase}
    (hfile : l.directory.files name = some state) (hne : state.inode ≠ inode)
    (hinode : after.inode = state.inode) (hnext : phase = .reading name inode ∨ phase = .idle) :
    Books matching (l.receiving name after lines phase l.seen) := by
  have hdraining : l.directory.draining = some name := by rw [Directory.draining, hphase]
  have hkept := h.kept (watched_of_draining hdraining) name (h.draining name hdraining)
  exact h.receiving hphase hfile hinode hnext (fun _ _ => rfl) (h.seen_le inode)
    (hkept.strayed hphase hfile hne hinode hnext)

/-- The read loop has the file of the state open. -/
theorem Books.read_same (h : Books matching l) {state after : FileState Cell}
    {lines : List (List Cell)} {phase : Phase}
    (hphase : l.directory.phase = .reading name state.inode)
    (hfile : l.directory.files name = some state) (hinode : after.inode = state.inode)
    (hoffset : after.offset =
      state.offset + (l.directory.available state.inode state.offset).length)
    (htracks : ∀ before, Tracks l name before state →
      Tracks (l.receiving name after lines phase l.readOn) name before after)
    (hnext : phase = .reading name state.inode ∨
      phase = .idle ∧ l.directory.size state.inode ≤ after.offset) :
    Books matching (l.receiving name after lines phase l.readOn) := by
  have hdraining : l.directory.draining = some name := by rw [Directory.draining, hphase]
  have hkept := h.kept (watched_of_draining hdraining) name (h.draining name hdraining)
  have hread := readOn_of_reading hphase hfile
  rw [if_pos rfl, ← hoffset] at hread
  have hself : l.readOn state.inode = max (l.seen state.inode) after.offset := by
    rw [hread]
    exact Function.update_self ..
  have hother : ∀ i ≠ state.inode, l.readOn i = l.seen i := by
    intro i hi
    rw [hread]
    exact Function.update_of_ne hi ..
  have hle : l.readOn state.inode ≤ l.directory.size state.inode := by
    obtain ⟨before, hfollowing⟩ := hkept.following _
      (reads_iff.mpr ⟨hphase, by rw [hfile, Option.map_some]⟩)
    have hold := (hfollowing.tracks state hfile).offset_le
    exact hself.trans_le (max_le (h.seen_le _) (hoffset.trans_le (available_le hold)))
  exact h.receiving hphase hfile hinode (hnext.imp id And.left) hother hle
    (hkept.received hphase hfile (h.seen_le _) hinode hself hother htracks hnext)

theorem Books.read (h : Books matching l) {e : Directory}
    (hunhurried : Unhurried matching l .read) (hstep : l.directory.read = some e) :
    Books matching { l with directory := e, seen := l.readOn } := by
  unfold Directory.read at hstep
  split at hstep
  case h_2 => cases hstep
  case h_1 name inode hphase =>
  have hdraining : l.directory.draining = some name := by rw [Directory.draining, hphase]
  obtain ⟨state, hfile, hstep⟩ := Option.bind_eq_some_iff.mp hstep
  have hread := readOn_of_reading hphase hfile
  dsimp only at hstep
  by_cases hsame : state.inode = inode
  case neg =>
    rw [if_neg hsame] at hread
    rw [hread]
    split at hstep
    case isTrue =>
      rw [← Option.some.inj hstep, withPhase_eq_receiving hfile]
      exact h.read_other hphase hfile hsame rfl (.inr rfl)
    case isFalse =>
      rw [← Option.some.inj hstep]
      refine h.read_other hphase hfile hsame rfl ?_
      split
      · exact .inl rfl
      · exact .inr rfl
  case pos =>
    subst hsame
    rw [if_pos rfl] at hread
    split at hstep
    case isTrue hempty =>
      have hnone : l.directory.available state.inode state.offset = [] := List.isEmpty_iff.mp hempty
      have hend : l.directory.size state.inode ≤
          state.offset + (l.directory.available state.inode state.offset).length :=
        size_le_of_available (by rw [hnone]; exact Nat.zero_ne_add_one 65535)
      rw [hnone, List.length_nil, Nat.add_zero] at hend hread
      rw [← Option.some.inj hstep, withPhase_eq_receiving hfile]
      refine h.read_same hphase hfile rfl (by rw [hnone]; rfl) (fun before htracks => ?_)
        (.inr ⟨rfl, hend⟩)
      rw [← withPhase_eq_receiving hfile]
      refine ⟨htracks.offset_le, ?_, htracks.lines⟩
      refine le_trans ?_ (le_max_left _ _)
      show state.offset ≤ l.readOn state.inode
      rw [hread, Function.update_self]
      exact le_max_right _ _
    case isFalse =>
      have hshort := hunhurried name hdraining state.inode
        (by rw [Directory.inodeRead, hphase]; rfl) state hfile rfl
      rw [← Option.some.inj hstep]
      refine h.read_same hphase hfile rfl rfl (fun before htracks =>
        htracks.receive hshort rfl ?_) ?_
      · rw [hread, Function.update_self]
        exact le_max_right _ _
      · split
        case isTrue => exact .inl rfl
        case isFalse hlen => exact .inr ⟨rfl, size_le_of_available (by simpa using hlen)⟩

/-! ## Runs -/

theorem start_books : Books matching {} where
  placed := (start_sound : Sound matching {} fun _ => false).placed
  unknown := fun _ _ hf => by cases hf
  known := fun _ _ _ hf => by cases hf
  draining := fun _ hn => by cases hn
  unborn := fun _ _ => rfl
  seen_le := fun _ => le_rfl
  started_le := fun _ => le_rfl
  starting := fun _ => ⟨rfl, rfl, fun _ => rfl, fun _ => rfl, fun _ _ hf => by cases hf⟩
  kept := fun hw => by cases hw

/-- The step lemma. -/
theorem step_books (h : Books matching l) {action : Action}
    (hunhurried : Unhurried matching l action) (hstep : step matching l action = some l') :
    Books matching l' := by
  obtain ⟨e, he, rfl⟩ := Option.map_eq_some_iff.mp hstep
  cases action with
  | append inode bytes => exact h.append he
  | rename name target => exact h.rename hunhurried he
  | create name => exact h.create he
  | delete name => exact h.delete hunhurried he
  | scan name => exact h.scan he
  | watch => exact h.watch he
  | handle => exact h.handle he
  | stat => exact h.stat he
  | open_ opened => exact h.open_ hunhurried he
  | read => exact h.read hunhurried he

/-- With no event in the queue and no drain under way, everything has been passed. -/
theorem Books.complete (h : Books matching l) (hname : matching name = true)
    (hqueue : l.directory.queue = []) (hidle : l.directory.phase = .idle) : l.Complete name := by
  have hkept := h.kept (by rw [watched, hidle]) name hname
  have hsettled := hkept.settled fun i hi => by cases hidle.symm.trans (reads_iff.mp hi).1
  have howed : l.owed name = l.left name ++ l.readUnder name := by
    cases hlookup : l.directory.names.lookup name with
    | none => rw [owed, hlookup, readUnder_of_none hlookup, List.append_nil]
    | some i =>
        rw [owed, hlookup, readUnder_of_some hlookup]
        rcases hkept.announced i hlookup with hevents | (hstat | ⟨hr | hr, -⟩) | hread
        · rw [hqueue] at hevents
          exact absurd rfl hevents
        · cases hidle.symm.trans hstat
        · cases hidle.symm.trans hr
        · cases hidle.symm.trans hr
        · rw [hread]
  unfold Complete
  rw [howed]
  exact hsettled.passed

end Ledger

/-- In every interleaving of the writers and the watcher whose steps are unhurried, once
the events are handled, every line has been passed that a file got while it had a watched
name. -/
theorem run_complete (matching : Bytes → Bool) (actions : List Action) {l : Ledger}
    (hunhurried : Transition.Meets (Ledger.step matching) (Ledger.Unhurried matching) {} actions)
    (hrun : Transition.run (Ledger.step matching) {} actions = some l)
    (hqueue : l.directory.queue = []) (hidle : l.directory.phase = .idle) (name : Bytes)
    (hname : matching name = true) : l.Complete name :=
  (Transition.run_invariant_of_meets (fun _ _ _ hl hc hs => Ledger.step_books hl hc hs)
    Ledger.start_books hunhurried hrun).complete hname hqueue hidle

theorem run_complete_calm :
    ∃ l, Transition.run (Ledger.step onlyAppLog) {} calmRotation = some l ∧
      l.Complete appLog := by
  obtain ⟨l, hrun, hqueue, hidle⟩ : ∃ l,
      Transition.run (Ledger.step onlyAppLog) {} calmRotation = some l ∧
        l.directory.queue = [] ∧ l.directory.phase = .idle := ⟨_, rfl, rfl, rfl⟩
  exact ⟨l, hrun, run_complete onlyAppLog calmRotation (by decide +kernel) hrun hqueue hidle appLog
    (by decide)⟩

/-- A rotation before the event of the last line is handled. -/
def lateRotation : List Action :=
  [.create appLog, .scan appLog, .watch, .append 1 (ascii "a\n"), .rename appLog appLogOld,
    .create appLog, .handle, .stat, .handle, .handle, .handle, .stat]

theorem lateRotation_loses_a_line :
    ∃ l, Transition.run (Ledger.step onlyAppLog) {} lateRotation = some l ∧
      l.directory.queue = [] ∧ l.directory.phase = .idle ∧ onlyAppLog appLog = true ∧
      ¬ l.Complete appLog := by
  refine ⟨_, rfl, rfl, rfl, by decide, ?_⟩
  decide +kernel

end Directory

end LogMind
