import LogMind.Vector.FailedWrites
import LogMind.Vector.NullIndex

/-!
# The journal of a run

What the callers of a store can know of it: which inserts were accepted, and which of
them the removals and the bound have left. The journal is kept from the answers of
`insert_locked` alone, for the rows that are loaded as for the items of a call. A store
holds what its journal says until the row of an item cannot be written.
-/

namespace LogMind

open KeyedQueue

/-- The vectors that ought to be live, and the accepted inserts, the last one behind. -/
structure Journal (F : Type) where
  live : List (Item F) := []
  accepted : List (Item F) := []

namespace Journal

variable {F : Type} {r : Journal F} {item : Item F}

/-- The most recent accepted insert of the log id. -/
def latest (r : Journal F) (logId : Bytes) : Option (Item F) :=
  r.accepted.reverse.find? fun item => item.logId = logId

/-- The journal after an insert that was accepted. -/
def insert (threshold : Nat) (r : Journal F) (item : Item F) : Journal F where
  live := keepLast threshold (put Item.logId r.live item)
  accepted := r.accepted ++ [item]

/-- What an action takes away, before it inserts. -/
def before (s : VectorStore F) (r : Journal F) : VectorStore.Action F → Journal F
  | .open_ => if s.isOpen then r else { r with live := [] }
  | .close => { r with live := [] }
  | .rebuildIndex => { r with live := [] }
  | .search _ _ => r
  | .call (.insert _) => r
  | .call (.insertBatch _ _ _) => r
  | .call (.remove logId) => { r with live := erase Item.logId logId r.live }
  | .call .clear => { r with live := [] }

/-- Every live vector is the most recent one of its log id. -/
def Current (r : Journal F) : Prop := ∀ item ∈ r.live, r.latest item.logId = some item

theorem latest_insert (threshold : Nat) (r : Journal F) (item : Item F) (logId : Bytes) :
    (r.insert threshold item).latest logId =
      if item.logId = logId then some item else r.latest logId := by
  simp only [latest, insert, List.reverse_append, List.reverse_singleton, List.singleton_append,
    List.find?_cons]
  split <;> simp_all

theorem Current.sublist (h : r.Current) {live : List (Item F)} (hsub : live.Sublist r.live) :
    ({ r with live := live } : Journal F).Current :=
  fun item hitem => h item (hsub.subset hitem)

theorem Current.forget (r : Journal F) : ({ r with live := [] } : Journal F).Current :=
  fun _ hitem => absurd hitem List.not_mem_nil

theorem Current.insert (h : r.Current) (threshold : Nat) (item : Item F) :
    (r.insert threshold item).Current := by
  intro other hother
  rw [latest_insert]
  rcases mem_put.mp (List.mem_of_mem_drop hother) with ⟨hold, hne⟩ | rfl
  · rw [if_neg (Ne.symm hne)]
    exact h other hold
  · exact if_pos rfl

end Journal

namespace VectorStore

variable {F D R : Type} [LinearOrder D] (sp : Space (List F) D R) (sq : Sqlite F)

/-- The items of the invocations of `insert_locked` that it answers with `true`. -/
def accepted (writeDb : Bool) (inserts : List (VectorStore F × Item F)) : List (Item F) :=
  (inserts.filter fun c => (insertLocked sp sq c.1 c.2 writeDb).any Prod.fst).map Prod.snd

/-- The calls write rows, the loading does not. -/
def Action.writes : Action F → Bool
  | .call _ => true
  | _ => false

/-- The journal after an action. -/
def journalAction (s : VectorStore F) (r : Journal F) (a : Action F) : Journal F :=
  (accepted sp sq a.writes (lockedInserts sp sq s a)).foldl
    (Journal.insert s.config.autoTrimThreshold) (r.before s a)

/-- The journal after a run. -/
def journal : VectorStore F → Journal F → List (Action F) → Journal F
  | _, r, [] => r
  | s, r, a :: actions =>
      match step sp sq s a with
      | some t => journal t (journalAction sp sq s r a) actions
      | none => r

/-- No item of the action loses its row to a failure. -/
def Writes (s : VectorStore F) (a : Action F) : Prop :=
  a.writes = true → ∀ c ∈ lockedInserts sp sq s a, ¬ FailsToWrite sq c.1 c.2

variable {s t u : VectorStore F} {slots : List (Item F)} {item : Item F} {ok : Bool}
  {r : Journal F}

/-- The store holds what the journal says. -/
structure Recorded (s : VectorStore F) (slots : List (Item F)) (r : Journal F) : Prop where
  holds : Holds s slots
  live : live slots = r.live
  current : r.Current

theorem Recorded.withDatabase (h : Recorded s slots r) (database : Database F) :
    Recorded (s.withDatabase database) slots r :=
  ⟨h.holds.withDatabase database, h.live, h.current⟩

/-- An empty store with nothing recorded as live. -/
theorem Recorded.empty (h : Holds s []) (r : Journal F) :
    Recorded s [] { r with live := [] } := ⟨h, rfl, Journal.Current.forget r⟩

theorem writeRow_fst (h : Holds s slots) {writeDb : Bool} (htries : s.Tries item)
    (hwrites : writeDb = true → ¬ FailsToWrite sq s item) :
    (writeRow sq s item writeDb).1 = true := by
  cases writeDb with
  | false => rfl
  | true =>
      rw [writeRow_of_open sq h.isOpen]
      split
      case isTrue hpersist =>
        have hgood : sq.ok s.database.executed = true := by
          by_contra hbad
          exact hwrites rfl ⟨htries, hpersist, Bool.eq_false_iff.mpr hbad⟩
        unfold Database.writeRow Database.execute
        rw [if_pos hgood]
      case isFalse => rfl

/-- An insert is recorded as it is answered. -/
theorem insertLocked_recorded (h : Recorded s slots r) {writeDb : Bool}
    (hwrites : writeDb = true → ¬ FailsToWrite sq s item)
    (hinsert : insertLocked sp sq s item writeDb = some (ok, t)) (hrange : t.InRange) :
    ∃ slots', Recorded t slots'
      (if ok then r.insert s.config.autoTrimThreshold item else r) := by
  by_cases htries : s.Tries item
  · have hgrown := (insertLocked_grows sp sq hinsert).2 htries
    rw [h.holds.length_idToLog] at hgrown
    obtain ⟨haccepts, hroom⟩ := (tries_iff h.holds item).mp htries
    obtain ⟨a, added, ha, hconfig, -, -, hput, heq⟩ :=
      insertLocked_tried sp sq h.holds haccepts hroom (hgrown.trans hrange) writeDb
    have hheld := ha.withDatabase (writeRow sq s item writeDb).2.database
    obtain ⟨b, trimmed, htrim, hb, -, -, hkept, -⟩ := trim_spec sq hheld
    rw [heq, if_pos (writeRow_fst sq h.holds htries hwrites), htrim] at hinsert
    obtain ⟨rfl, rfl⟩ := Prod.mk.inj (Option.some.inj hinsert)
    rw [if_pos rfl]
    refine ⟨trimmed, hb, ?_, h.current.insert _ item⟩
    rw [hkept, hput, h.live]
    exact congrArg (fun config => keepLast config.autoTrimThreshold _) hconfig
  · obtain ⟨u, heq, hu, -⟩ := insertLocked_untried sp sq h.holds htries writeDb
    rw [heq] at hinsert
    obtain ⟨rfl, rfl⟩ := Prod.mk.inj (Option.some.inj hinsert)
    exact ⟨slots, hu, h.live, h.current⟩

theorem accepted_cons {writeDb : Bool} (hinsert : insertLocked sp sq s item writeDb = some (ok, t))
    (inserts : List (VectorStore F × Item F)) :
    accepted sp sq writeDb ((s, item) :: inserts) =
      (if ok then [item] else []) ++ accepted sp sq writeDb inserts := by
  cases ok <;> simp [accepted, hinsert]

theorem accepted_append (writeDb : Bool) (xs ys : List (VectorStore F × Item F)) :
    accepted sp sq writeDb (xs ++ ys) = accepted sp sq writeDb xs ++ accepted sp sq writeDb ys := by
  simp [accepted]

/-- One insert, for the journal of a list of them. -/
theorem foldl_insert_cons (threshold : Nat) (ok : Bool) (item : Item F) (items : List (Item F)) :
    ((if ok then [item] else []) ++ items).foldl (Journal.insert threshold) r =
      items.foldl (Journal.insert threshold) (if ok then r.insert threshold item else r) := by
  cases ok <;> rfl

/-- The loop of `insert_batch` is recorded item by item. -/
theorem insertAll_recorded (items : List (Item F)) (count : Nat) {count' : Nat}
    (h : Recorded s slots r)
    (hwrites : ∀ c ∈ batchInserts sp sq items s, ¬ FailsToWrite sq c.1 c.2)
    (hinsert : insertAll sp sq items count s = some (count', t)) (hrange : t.InRange) :
    ∃ slots', Recorded t slots' ((accepted sp sq true (batchInserts sp sq items s)).foldl
      (Journal.insert s.config.autoTrimThreshold) r) := by
  induction items generalizing count s slots r with
  | nil =>
      obtain ⟨-, rfl⟩ := Prod.mk.inj (Option.some.inj hinsert)
      exact ⟨slots, h⟩
  | cons item items ih =>
      rw [insertAll, Option.bind_eq_bind, Option.bind_eq_some_iff] at hinsert
      obtain ⟨⟨ok, u⟩, hfirst, hrest⟩ := hinsert
      simp only [batchInserts, hfirst] at hwrites ⊢
      obtain ⟨slots', hu⟩ := insertLocked_recorded sp sq h
        (fun _ => hwrites _ List.mem_cons_self) hfirst
        (hrange.of_grows (insertAll_grows sp sq items _ hrest))
      rw [accepted_cons sp sq hfirst, foldl_insert_cons,
        ← (insertLocked_grows sp sq hfirst).1.config]
      rw [← (insertLocked_grows sp sq hfirst).1.config] at hu
      exact ih _ hu (fun c hc => hwrites c (List.mem_cons_of_mem _ hc)) hrest

/-- A row is recorded if it is read. -/
theorem loadRow_recorded (h : Recorded s slots r) {row : Row F}
    (hload : loadRow sp sq s row = some t) (hrange : t.InRange) :
    ∃ slots', Recorded t slots' ((accepted sp sq false (rowInserts s row)).foldl
      (Journal.insert s.config.autoTrimThreshold) r) := by
  unfold loadRow at hload
  unfold rowInserts
  split at hload
  · rw [if_pos ‹_›]
    exact Option.some.inj hload ▸ ⟨slots, h⟩
  rw [if_neg ‹_›]
  split at hload
  · rw [if_pos ‹_›]
    exact Option.some.inj hload ▸ ⟨slots, h⟩
  rw [if_neg ‹_›]
  rw [Option.bind_eq_bind, Option.bind_eq_some_iff] at hload
  obtain ⟨⟨ok, u⟩, hinsert, hload⟩ := hload
  obtain rfl : u = t := Option.some.inj hload
  rw [accepted_cons sp sq hinsert, foldl_insert_cons]
  exact insertLocked_recorded sp sq h (fun htrue => absurd htrue Bool.false_ne_true) hinsert hrange

/-- The rows are recorded as far as SQLite gives them. -/
theorem loadRows_recorded (rows : List (Row F)) (h : Recorded s slots r)
    (hload : loadRows sp sq rows s = some t) (hrange : t.InRange) :
    ∃ slots', Recorded t slots' ((accepted sp sq false (rowsInserts sp sq rows s)).foldl
      (Journal.insert s.config.autoTrimThreshold) r) := by
  induction rows generalizing s slots r with
  | nil => exact Option.some.inj hload ▸ ⟨slots, h⟩
  | cons row rows ih =>
      have hread := h.withDatabase (s.database.execute sq id).2
      simp only [loadRows] at hload
      simp only [rowsInserts]
      split at hload
      · rw [if_pos ‹_›]
        rw [Option.bind_eq_bind, Option.bind_eq_some_iff] at hload
        obtain ⟨u, hrow, hrest⟩ := hload
        obtain ⟨slots', hu⟩ := loadRow_recorded sp sq hread hrow
          (hrange.of_grows (loadRows_grows sp sq rows hrest))
        have hconfig := (loadRow_grows sp sq hrow).config
        rw [← hconfig] at hu
        rw [hrow, accepted_append, List.foldl_append, show s.config = u.config from hconfig.symm]
        exact ih hu hrest
      · rw [if_neg ‹_›]
        exact Option.some.inj hload ▸ ⟨slots, hread⟩

/-- What holds of an open store and its journal. -/
def Known (s : VectorStore F) (r : Journal F) : Prop :=
  s.isOpen = true → ∃ slots, Recorded s slots r

theorem Known.of_closed (hclosed : s.isOpen = false) : s.Known r :=
  fun hopen => absurd (hclosed.symm.trans hopen) Bool.false_ne_true

/-- A load starts from nothing, in the store as in the journal. -/
theorem loadAll_known (hload : loadAll sp sq s = some (ok, t)) (hrange : t.InRange)
    (r : Journal F) :
    t.Known ((accepted sp sq false (loadInserts sp sq s)).foldl
      (Journal.insert s.config.autoTrimThreshold) { r with live := [] }) := by
  simp only [loadAll] at hload
  simp only [loadInserts]
  split at hload
  case isTrue hclosed =>
    obtain ⟨-, rfl⟩ := Prod.mk.inj (Option.some.inj hload)
    exact fun hopen => absurd hopen hclosed
  case isFalse hopen =>
    have hstart := (Recorded.empty (resetIndex_holds s (not_not.mp hopen)) r).withDatabase
      (s.resetIndex.database.execute sq id).2
    rw [if_neg hopen]
    split at hload
    · rw [if_pos ‹_›]
      rw [Option.bind_eq_bind, Option.bind_eq_some_iff] at hload
      obtain ⟨u, hrows, hload⟩ := hload
      obtain ⟨-, rfl⟩ := Prod.mk.inj (Option.some.inj hload)
      exact fun _ => loadRows_recorded sp sq _ hstart hrows hrange
    · rw [if_neg ‹_›]
      obtain ⟨-, rfl⟩ := Prod.mk.inj (Option.some.inj hload)
      exact fun _ => ⟨[], hstart⟩

theorem connect_config (s : VectorStore F) : (connect sq s).2.config = s.config := by
  simp only [connect]
  split
  · split
    · rfl
    · rfl
  · rfl

theorem open_known (h : s.Known r) (hopened : open_ sp sq s = some (ok, t))
    (hrange : t.InRange) : t.Known (journalAction sp sq s r .open_) := by
  simp only [open_] at hopened
  simp only [journalAction, lockedInserts, Journal.before]
  split at hopened
  case isTrue hopen =>
    obtain ⟨-, rfl⟩ := Prod.mk.inj (Option.some.inj hopened)
    rw [if_pos hopen, if_pos hopen]
    exact h
  case isFalse hclosed =>
    rw [if_neg hclosed, if_neg hclosed]
    split at hopened
    case isTrue hconnected =>
      rw [if_pos hconnected, ← connect_config sq s]
      exact loadAll_known sp sq hopened hrange r
    case isFalse hfailed =>
      obtain ⟨-, rfl⟩ := Prod.mk.inj (Option.some.inj hopened)
      apply Known.of_closed
      rw [connect_isOpen sq (Bool.eq_false_iff.mpr hclosed)]
      exact Bool.eq_false_iff.mpr hfailed

theorem Recorded.erase (h : Recorded s slots r) {database : Database F} {k : Bytes} :
    ∃ slots', Recorded ((s.dropExisting k).withDatabase database) slots'
      { r with live := KeyedQueue.erase Item.logId k r.live } := by
  obtain ⟨slots', hdropped, -, -, hlive, -⟩ := dropExisting_spec h.holds k
  refine ⟨slots', hdropped.withDatabase database, ?_, ?_⟩
  · rw [hlive, h.live]
  · exact h.current.sublist List.filter_sublist

theorem call_recorded (h : Recorded s slots r) {c : Call F} (hcall : call sp sq s c = some t)
    (hwrites : Writes sp sq s (.call c)) (hrange : t.InRange) :
    ∃ slots', Recorded t slots' (journalAction sp sq s r (.call c)) := by
  have hrows := hwrites rfl
  simp only [journalAction, Action.writes]
  cases c with
  | insert item =>
      obtain ⟨⟨ok, u⟩, hinsert, rfl⟩ := Option.map_eq_some_iff.mp hcall
      simp only [lockedInserts, Journal.before]
      rw [accepted_cons sp sq hinsert, foldl_insert_cons]
      exact insertLocked_recorded sp sq h (fun _ => hrows _ (List.mem_singleton_self _)) hinsert
        hrange
  | insertBatch logIds embeddings metadataList =>
      obtain ⟨⟨count, u⟩, hinsert, rfl⟩ := Option.map_eq_some_iff.mp hcall
      simp only [lockedInserts, Journal.before] at hrows ⊢
      obtain ⟨hnone, -, rfl⟩ | ⟨hsome, d, e, w, hbegin, hall, rfl⟩ :=
        insertBatch_cases sp sq hinsert
      · rw [if_pos hnone]
        exact ⟨slots, h⟩
      · rw [if_neg hsome, hbegin] at hrows ⊢
        obtain ⟨slots', hw⟩ :=
          insertAll_recorded sp sq _ 0 (h.withDatabase d) hrows hall hrange
        exact ⟨slots', hw.withDatabase e⟩
  | remove k =>
      obtain rfl : (remove sq s k).2 = t := Option.some.inj hcall
      show ∃ slots', Recorded (deleteRow sq (s.dropExisting k) k).2 slots' _
      rw [deleteRow_eq sq ((Grows.steady.dropExisting s k).isOpen.trans h.holds.isOpen)]
      exact h.erase
  | clear =>
      obtain rfl : clear sq s = t := Option.some.inj hcall
      refine ⟨[], Recorded.empty (resetIndex_holds _ ?_) r⟩
      split
      · exact h.holds.isOpen
      · exact h.holds.isOpen

theorem step_known (h : s.Known r) {a : Action F} (hstep : step sp sq s a = some t)
    (hwrites : Writes sp sq s a) (hrange : t.InRange) : t.Known (journalAction sp sq s r a) := by
  cases a with
  | open_ =>
      obtain ⟨⟨ok, u⟩, hopened, rfl⟩ := Option.map_eq_some_iff.mp hstep
      exact open_known sp sq h hopened hrange
  | close => exact Option.some.inj hstep ▸ Known.of_closed rfl
  | rebuildIndex =>
      obtain ⟨⟨ok, u⟩, hload, rfl⟩ := Option.map_eq_some_iff.mp hstep
      exact loadAll_known sp sq hload hrange r
  | search query topK =>
      obtain ⟨⟨u, results⟩, hsearch, rfl⟩ := Option.map_eq_some_iff.mp hstep
      intro hopen
      obtain ⟨hsame, hholds⟩ := search_holds sp hsearch
      obtain ⟨slots, hslots⟩ := h (hsame ▸ hopen)
      exact ⟨slots, hholds slots hslots.holds, hslots.live, hslots.current⟩
  | call c =>
      intro hopen
      obtain ⟨slots, hslots⟩ := h (call_isOpen sp sq hstep ▸ hopen)
      exact call_recorded sp sq hslots hstep hwrites hrange

/-- While the rows can be written and the ids do not wrap, an open store holds what its
journal says. -/
theorem run_known {actions : List (Action F)} (h : s.Known r)
    (hrange : RunsInRange sp sq s actions)
    (hwrites : Transition.Meets (step sp sq) (Writes sp sq) s actions)
    (hrun : Transition.run (step sp sq) s actions = some t) :
    t.Known (journal sp sq s r actions) := by
  induction actions generalizing s r with
  | nil => exact Option.some.inj hrun ▸ h
  | cons a actions ih =>
      obtain ⟨u, hu, hrest⟩ := Transition.run_cons_eq_some.mp hrun
      simp only [journal, hu]
      exact ih (step_known sp sq h hu hwrites.1 (hrange.1 u hu)) (hrange.2 u hu) (hwrites.2 u hu)
        hrest

end VectorStore

end LogMind
