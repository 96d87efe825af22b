import LogMind.Vector.StoreContents

/-!
# Whatever SQLite answers

A statement may fail at any point of any call. The maps of an open store agree all the
same: what is written to disk does not come back into memory before the next load, and a
load starts from empty maps. `InRange` says that the numbers of the nodes have not
wrapped.
-/

namespace LogMind

open KeyedQueue

namespace VectorStore

variable {F D R : Type} [LinearOrder D] (sp : Space (List F) D R) (sq : Sqlite F)
variable {s t u : VectorStore F} {slots : List (Item F)} {item : Item F} {ok : Bool}

/-- The index has at most as many nodes as there are ids. -/
def InRange (s : VectorStore F) : Prop := s.idToLog.length ≤ wordBound32

instance (s : VectorStore F) : Decidable s.InRange := inferInstanceAs (Decidable (_ ≤ _))

/-- An insert of the item gets to the index. -/
def Tries (s : VectorStore F) (item : Item F) : Prop :=
  s.snapshot.Accepts item ∧ s.idToLog.length < s.config.maxElements

instance (s : VectorStore F) (item : Item F) : Decidable (s.Tries item) :=
  inferInstanceAs (Decidable (_ ∧ _))

/-- A preorder that contains what happens to the database and to the older nodes. -/
structure Steady (rel : VectorStore F → VectorStore F → Prop) : Prop where
  refl : ∀ s, rel s s
  trans : ∀ {s t u}, rel s t → rel t u → rel s u
  withDatabase : ∀ s database, rel s (s.withDatabase database)
  withCursor : ∀ s cursor, rel s (s.withCursor cursor)
  forget : ∀ s k id, rel s (s.forget k id)

namespace Steady

variable {rel : VectorStore F → VectorStore F → Prop}

theorem dropExisting (h : Steady rel) (s : VectorStore F) (k : Bytes) :
    rel s (s.dropExisting k) := by
  unfold VectorStore.dropExisting
  split
  · exact h.forget s k _
  · exact h.refl s

theorem deleteRow (h : Steady rel) (s : VectorStore F) (k : Bytes) :
    rel s (deleteRow sq s k).2 := by
  unfold VectorStore.deleteRow
  split
  · exact h.withDatabase s _
  · exact h.refl s

theorem writeRow (h : Steady rel) (s : VectorStore F) (item : Item F) (writeDb : Bool) :
    rel s (writeRow sq s item writeDb).2 := by
  unfold VectorStore.writeRow
  split
  · exact h.withDatabase s _
  · exact h.refl s

theorem trimNext (h : Steady rel) {trimmed : Bool} (hnext : trimNext sq s = some (trimmed, t)) :
    rel s t := by
  have hcursor := h.withCursor s (s.trimCursor + 1)
  unfold VectorStore.trimNext at hnext
  dsimp only at hnext
  simp only [Option.bind_eq_bind, Option.bind_eq_some_iff] at hnext
  obtain ⟨victim, -, hnext⟩ := hnext
  split at hnext
  · obtain ⟨-, rfl⟩ := Prod.mk.inj (Option.some.inj hnext)
    exact hcursor
  · obtain ⟨-, rfl⟩ := Prod.mk.inj (Option.some.inj hnext)
    exact h.trans hcursor (h.trans (h.forget _ _ _) (h.deleteRow sq _ _))

theorem trimLoop (h : Steady rel) (remaining excess : Nat)
    (hloop : trimLoop sq remaining excess s = some t) : rel s t := by
  induction remaining generalizing excess s with
  | zero => exact Option.some.inj hloop ▸ h.refl s
  | succ remaining ih =>
      cases excess with
      | zero => exact Option.some.inj hloop ▸ h.refl s
      | succ excess =>
          rw [VectorStore.trimLoop, Option.bind_eq_bind, Option.bind_eq_some_iff] at hloop
          obtain ⟨⟨trimmed, u⟩, hnext, hloop⟩ := hloop
          exact h.trans (h.trimNext sq hnext) (ih _ hloop)

theorem trim (h : Steady rel) (htrim : trim sq s = some t) : rel s t := by
  unfold VectorStore.trim at htrim
  split at htrim
  · exact Option.some.inj htrim ▸ h.refl s
  · exact h.trimLoop sq _ _ htrim

end Steady

/-- An insert does not get to the index, or it takes a node, writes the row and trims. -/
theorem insertLocked_cases {writeDb : Bool}
    (hinsert : insertLocked sp sq s item writeDb = some (ok, t)) :
    (¬ s.Tries item ∧
        (t = s ∨ item.embedding ≠ [] ∧ t = s.chooseDim item.embedding)) ∨
      item.embedding ≠ [] ∧ ∃ a,
        addNode sp ((s.chooseDim item.embedding).dropExisting item.logId) item = some a ∧
        (t = (writeRow sq a item writeDb).2 ∨
          trim sq (writeRow sq a item writeDb).2 = some t) := by
  unfold insertLocked at hinsert
  dsimp only at hinsert
  split at hinsert
  case isTrue hid =>
    obtain ⟨-, rfl⟩ := Prod.mk.inj (Option.some.inj hinsert)
    exact .inl ⟨fun htries => htries.1.1 hid, .inl rfl⟩
  split at hinsert
  case isTrue hembedding =>
    obtain ⟨-, rfl⟩ := Prod.mk.inj (Option.some.inj hinsert)
    exact .inl ⟨fun htries => htries.1.2.1 hembedding, .inl rfl⟩
  have hembedding : item.embedding ≠ [] := ‹_›
  split at hinsert
  case isTrue hdim =>
    obtain ⟨-, rfl⟩ := Prod.mk.inj (Option.some.inj hinsert)
    refine .inl ⟨fun htries => hdim ?_, .inr ⟨hembedding, rfl⟩⟩
    have haccepts : s.dim = 0 ∨ item.embedding.length = s.dim := htries.1.2.2
    unfold chooseDim
    split
    · rfl
    · exact haccepts.resolve_left ‹_›
  split at hinsert
  case isTrue hfull =>
    obtain ⟨-, rfl⟩ := Prod.mk.inj (Option.some.inj hinsert)
    refine .inl ⟨fun htries => not_lt.mpr ?_ htries.2, .inr ⟨hembedding, rfl⟩⟩
    unfold chooseDim at hfull
    split at hfull
    · exact hfull
    · exact hfull
  rw [Option.bind_eq_bind, Option.bind_eq_some_iff] at hinsert
  obtain ⟨a, hadd, hinsert⟩ := hinsert
  refine .inr ⟨hembedding, a, hadd, ?_⟩
  split at hinsert
  · rw [Option.bind_eq_some_iff] at hinsert
    obtain ⟨b, htrim, hinsert⟩ := hinsert
    obtain ⟨-, rfl⟩ := Prod.mk.inj (Option.some.inj hinsert)
    exact .inr htrim
  · obtain ⟨-, rfl⟩ := Prod.mk.inj (Option.some.inj hinsert)
    exact .inl rfl

/-- A row is passed over or inserted. -/
theorem loadRow_cases {row : Row F} (hload : loadRow sp sq s row = some t) :
    t = s ∨ ∃ item ok, insertLocked sp sq s item false = some (ok, t) := by
  unfold loadRow at hload
  split at hload
  · exact .inl (Option.some.inj hload).symm
  · split at hload
    · exact .inl (Option.some.inj hload).symm
    · rw [Option.bind_eq_bind, Option.bind_eq_some_iff] at hload
      obtain ⟨⟨ok, u⟩, hinsert, hload⟩ := hload
      obtain rfl : u = t := Option.some.inj hload
      exact .inr ⟨_, ok, hinsert⟩

/-- What every insert does to a store, open or not. -/
structure Grows (s t : VectorStore F) : Prop where
  isOpen : t.isOpen = s.isOpen
  config : t.config = s.config
  length_le : s.idToLog.length ≤ t.idToLog.length

theorem Grows.refl (s : VectorStore F) : Grows s s := ⟨rfl, rfl, le_rfl⟩

theorem Grows.trans (h : Grows s t) (g : Grows t u) : Grows s u :=
  ⟨g.isOpen.trans h.isOpen, g.config.trans h.config, h.length_le.trans g.length_le⟩

theorem chooseDim_grows (s : VectorStore F) (embedding : List F) :
    Grows s (s.chooseDim embedding) := by
  unfold chooseDim
  split
  · exact ⟨rfl, rfl, le_rfl⟩
  · exact Grows.refl s

theorem forget_grows (s : VectorStore F) (k : Bytes) (id : Nat) : Grows s (s.forget k id) := by
  unfold forget tombstone
  split
  · exact ⟨rfl, rfl, le_rfl⟩
  · split
    · exact ⟨rfl, rfl, le_rfl⟩
    · exact ⟨rfl, rfl, by simp⟩

theorem Grows.steady : Steady (@Grows F) :=
  ⟨Grows.refl, Grows.trans, fun _ _ => ⟨rfl, rfl, le_rfl⟩, fun _ _ => ⟨rfl, rfl, le_rfl⟩,
    forget_grows⟩

theorem addNode_grows (hadd : addNode sp s item = some t) :
    Grows s t ∧ t.idToLog.length = s.idToLog.length + 1 := by
  unfold addNode at hadd
  dsimp only at hadd
  simp only [Option.bind_eq_bind, Option.bind_eq_some_iff] at hadd
  obtain ⟨x, -, y, -, hadd⟩ := hadd
  rw [← Option.some.inj hadd]
  have hlength : (s.idToLog ++ [item.logId]).length = s.idToLog.length + 1 := by simp
  exact ⟨⟨rfl, rfl, hlength ▸ Nat.le_succ _⟩, hlength⟩

/-- An insert that gets to the index takes a node. -/
theorem insertLocked_grows {writeDb : Bool}
    (hinsert : insertLocked sp sq s item writeDb = some (ok, t)) :
    Grows s t ∧ (s.Tries item → s.idToLog.length + 1 ≤ t.idToLog.length) := by
  have hchosen := chooseDim_grows s item.embedding
  obtain ⟨hnot, rfl | ⟨-, rfl⟩⟩ | ⟨-, a, hadd, hend⟩ := insertLocked_cases sp sq hinsert
  · exact ⟨Grows.refl t, fun htries => absurd htries hnot⟩
  · exact ⟨hchosen, fun htries => absurd htries hnot⟩
  obtain ⟨hadded, hlength⟩ := addNode_grows sp hadd
  have hbefore := hchosen.trans
    (Grows.steady.dropExisting (s.chooseDim item.embedding) item.logId)
  have hwritten := Grows.steady.writeRow sq a item writeDb
  have hafter : Grows a t := by
    rcases hend with rfl | htrim
    · exact hwritten
    · exact hwritten.trans (Grows.steady.trim sq htrim)
  have hone : s.idToLog.length + 1 ≤ a.idToLog.length :=
    (Nat.succ_le_succ hbefore.length_le).trans_eq hlength.symm
  exact ⟨hbefore.trans (hadded.trans hafter), fun _ => hone.trans hafter.length_le⟩

theorem insertAll_grows (items : List (Item F)) (count : Nat) {count' : Nat}
    (hinsert : insertAll sp sq items count s = some (count', t)) : Grows s t := by
  induction items generalizing count s with
  | nil =>
      obtain ⟨-, rfl⟩ := Prod.mk.inj (Option.some.inj hinsert)
      exact Grows.refl s
  | cons item items ih =>
      rw [insertAll, Option.bind_eq_bind, Option.bind_eq_some_iff] at hinsert
      obtain ⟨⟨ok, u⟩, hfirst, hrest⟩ := hinsert
      exact (insertLocked_grows sp sq hfirst).1.trans (ih _ hrest)

theorem loadRow_grows {row : Row F} (hload : loadRow sp sq s row = some t) : Grows s t := by
  obtain rfl | ⟨item, ok, hinsert⟩ := loadRow_cases sp sq hload
  · exact Grows.refl t
  · exact (insertLocked_grows sp sq hinsert).1

theorem loadRows_grows (rows : List (Row F)) (hload : loadRows sp sq rows s = some t) :
    Grows s t := by
  induction rows generalizing s with
  | nil => exact Option.some.inj hload ▸ Grows.refl s
  | cons row rows ih =>
      have hdatabase := Grows.steady.withDatabase s (s.database.execute sq id).2
      simp only [loadRows] at hload
      split at hload
      · rw [Option.bind_eq_bind, Option.bind_eq_some_iff] at hload
        obtain ⟨u, hrow, hrest⟩ := hload
        exact hdatabase.trans ((loadRow_grows sp sq hrow).trans (ih hrest))
      · exact Option.some.inj hload ▸ hdatabase

theorem InRange.of_grows (h : t.InRange) (hgrows : Grows s t) : s.InRange :=
  hgrows.length_le.trans h

theorem tries_iff (h : Holds s slots) (item : Item F) :
    s.Tries item ↔ (reference s slots).Accepts item ∧ slots.length < s.config.maxElements := by
  rw [Tries, h.snapshot, h.length_idToLog]

/-- An insert that does not get to the index changes nothing that is held, except for the
dimension that the vector brings. -/
theorem insertLocked_untried (h : Holds s slots) (hnot : ¬ s.Tries item) (writeDb : Bool) :
    ∃ t, insertLocked sp sq s item writeDb = some (false, t) ∧ Holds t slots ∧
      t.config = s.config ∧ t.database = s.database ∧
      t.dim = if (reference s slots).Accepts item then item.embedding.length else s.dim := by
  by_cases haccepts : (reference s slots).Accepts item
  · have hfull : s.config.maxElements ≤ slots.length := by
      by_contra hroom
      exact hnot ((tries_iff h item).mpr ⟨haccepts, not_le.mp hroom⟩)
    obtain ⟨hchosen, -, hchoice, hconfig, hdatabase⟩ := chooseDim_spec h haccepts.2.1
    have hdim : item.embedding.length = (s.chooseDim item.embedding).dim := by
      rw [hchoice]
      split
      · rfl
      · exact haccepts.2.2.resolve_left ‹_›
    refine ⟨s.chooseDim item.embedding, ?_, hchosen, hconfig, hdatabase, ?_⟩
    · unfold insertLocked
      dsimp only
      rw [if_neg haccepts.1, if_neg haccepts.2.1, if_neg (not_not.mpr hdim),
        if_pos (by rw [hconfig, hchosen.length_idToLog]; exact hfull)]
      rfl
    · rw [if_pos haccepts, hdim]
  · exact ⟨s, insertLocked_rejected sp sq s slots haccepts writeDb, h, rfl, rfl,
      (if_neg haccepts).symm⟩

theorem insertLocked_holds (h : Holds s slots) {writeDb : Bool}
    (hinsert : insertLocked sp sq s item writeDb = some (ok, t)) (hrange : t.InRange) :
    ∃ slots', Holds t slots' := by
  by_cases htries : s.Tries item
  · have hgrown := (insertLocked_grows sp sq hinsert).2 htries
    rw [h.length_idToLog] at hgrown
    obtain ⟨haccepts, hroom⟩ := (tries_iff h item).mp htries
    obtain ⟨a, slots', ha, -, -, -, -, heq⟩ :=
      insertLocked_tried sp sq h haccepts hroom (hgrown.trans hrange) writeDb
    have hwritten := ha.withDatabase (writeRow sq s item writeDb).2.database
    rw [heq] at hinsert
    split at hinsert
    · obtain ⟨b, trimmed, htrim, hb, -⟩ := trim_spec sq hwritten
      rw [htrim] at hinsert
      obtain ⟨-, rfl⟩ := Prod.mk.inj (Option.some.inj hinsert)
      exact ⟨trimmed, hb⟩
    · obtain ⟨-, rfl⟩ := Prod.mk.inj (Option.some.inj hinsert)
      exact ⟨slots', hwritten⟩
  · obtain ⟨u, heq, hu, -⟩ := insertLocked_untried sp sq h htries writeDb
    rw [heq] at hinsert
    obtain ⟨-, rfl⟩ := Prod.mk.inj (Option.some.inj hinsert)
    exact ⟨slots, hu⟩

theorem insertAll_holds (items : List (Item F)) (count : Nat) {count' : Nat} (h : Holds s slots)
    (hinsert : insertAll sp sq items count s = some (count', t)) (hrange : t.InRange) :
    ∃ slots', Holds t slots' := by
  induction items generalizing count s slots with
  | nil =>
      obtain ⟨-, rfl⟩ := Prod.mk.inj (Option.some.inj hinsert)
      exact ⟨slots, h⟩
  | cons item items ih =>
      rw [insertAll, Option.bind_eq_bind, Option.bind_eq_some_iff] at hinsert
      obtain ⟨⟨ok, u⟩, hfirst, hrest⟩ := hinsert
      obtain ⟨slots', hu⟩ := insertLocked_holds sp sq h hfirst
        (hrange.of_grows (insertAll_grows sp sq items _ hrest))
      exact ih _ hu hrest

theorem loadRow_holds (h : Holds s slots) {row : Row F} (hload : loadRow sp sq s row = some t)
    (hrange : t.InRange) : ∃ slots', Holds t slots' := by
  obtain rfl | ⟨item, ok, hinsert⟩ := loadRow_cases sp sq hload
  · exact ⟨slots, h⟩
  · exact insertLocked_holds sp sq h hinsert hrange

theorem loadRows_holds (rows : List (Row F)) (h : Holds s slots)
    (hload : loadRows sp sq rows s = some t) (hrange : t.InRange) : ∃ slots', Holds t slots' := by
  induction rows generalizing s slots with
  | nil => exact Option.some.inj hload ▸ ⟨slots, h⟩
  | cons row rows ih =>
      have hdatabase := h.withDatabase (s.database.execute sq id).2
      simp only [loadRows] at hload
      split at hload
      · rw [Option.bind_eq_bind, Option.bind_eq_some_iff] at hload
        obtain ⟨u, hrow, hrest⟩ := hload
        obtain ⟨slots', hu⟩ := loadRow_holds sp sq hdatabase hrow
          (hrange.of_grows (loadRows_grows sp sq rows hrest))
        exact ih hu hrest
      · exact Option.some.inj hload ▸ ⟨slots, hdatabase⟩

/-- What holds of a store that is open. -/
def Sane (s : VectorStore F) : Prop := s.isOpen = true → ∃ slots, Holds s slots

theorem Sane.of_closed (hclosed : s.isOpen = false) : s.Sane :=
  fun hopen => absurd (hclosed.symm.trans hopen) Bool.false_ne_true

theorem loadAll_sane (hload : loadAll sp sq s = some (ok, t)) (hrange : t.InRange) : t.Sane := by
  simp only [loadAll] at hload
  split at hload
  case isTrue hclosed =>
    obtain ⟨-, rfl⟩ := Prod.mk.inj (Option.some.inj hload)
    exact fun hopen => absurd hopen hclosed
  case isFalse hopen =>
    have hstart := (resetIndex_holds s (not_not.mp hopen)).withDatabase
      (s.resetIndex.database.execute sq id).2
    split at hload
    · rw [Option.bind_eq_bind, Option.bind_eq_some_iff] at hload
      obtain ⟨u, hrows, hload⟩ := hload
      obtain ⟨-, rfl⟩ := Prod.mk.inj (Option.some.inj hload)
      exact fun _ => loadRows_holds sp sq _ hstart hrows hrange
    · obtain ⟨-, rfl⟩ := Prod.mk.inj (Option.some.inj hload)
      exact fun _ => ⟨[], hstart⟩

/-- A store that could not be connected stays closed. -/
theorem connect_isOpen (hclosed : s.isOpen = false) :
    (connect sq s).2.isOpen = (connect sq s).1 := by
  simp only [connect]
  split
  · split
    · rfl
    · exact hclosed
  · exact hclosed

theorem open_sane (h : s.Sane) (hopened : open_ sp sq s = some (ok, t)) (hrange : t.InRange) :
    t.Sane := by
  simp only [open_] at hopened
  split at hopened
  case isTrue =>
    obtain ⟨-, rfl⟩ := Prod.mk.inj (Option.some.inj hopened)
    exact h
  case isFalse hclosed =>
    split at hopened
    case isTrue => exact loadAll_sane sp sq hopened hrange
    case isFalse hfailed =>
      obtain ⟨-, rfl⟩ := Prod.mk.inj (Option.some.inj hopened)
      apply Sane.of_closed
      rw [connect_isOpen sq (Bool.eq_false_iff.mpr hclosed)]
      exact Bool.eq_false_iff.mpr hfailed

/-- A search leaves the maps and the graph alone. -/
theorem search_holds {query : List F} {topK : Nat} {results : List (SearchResult R)}
    (hsearch : search sp s query topK = some (t, results)) :
    t.isOpen = s.isOpen ∧ ∀ slots, Holds s slots → Holds t slots := by
  unfold search at hsearch
  split at hsearch
  case h_1 =>
    obtain ⟨rfl, -⟩ := Prod.mk.inj (Option.some.inj hsearch)
    exact ⟨rfl, fun _ => id⟩
  case h_2 x hx =>
    split at hsearch
    case isTrue =>
      obtain ⟨rfl, -⟩ := Prod.mk.inj (Option.some.inj hsearch)
      exact ⟨rfl, fun _ => id⟩
    case isFalse =>
      simp only [Option.bind_eq_bind, Option.bind_eq_some_iff] at hsearch
      obtain ⟨⟨y, hits⟩, hknn, found, -, hsearch⟩ := hsearch
      obtain ⟨rfl, -⟩ := Prod.mk.inj (Option.some.inj hsearch)
      refine ⟨rfl, fun slots hslots => ?_⟩
      obtain ⟨-, hnone, -⟩ | ⟨hdim, x', hx', hindexed⟩ := hslots.index
      · exact absurd (hx.symm.trans hnone) (Option.some_ne_none x)
      obtain rfl : x = x' := Option.some.inj (hx.symm.trans hx')
      obtain ⟨visited, counter, result, heq, hwf⟩ :=
        HNSWIndex.searchKnn_spec sp hindexed.wellFormed query topK s.config.hnswEfSearch
      rw [heq] at hknn
      obtain ⟨rfl, -⟩ := Prod.mk.inj (Option.some.inj hknn)
      exact ⟨hslots.isOpen, hslots.idToLog, hslots.idToMeta,
        .inr ⟨hdim, _, rfl, hwf, hindexed.data, hindexed.deleted, hindexed.deletedCount⟩,
        hslots.keys, hslots.lookup, hslots.cursor_le, hslots.cursor, hslots.length_le⟩

/-- A batch has no items, or its loop runs between two changes of the database. -/
theorem insertBatch_cases {logIds : List Bytes} {embeddings : List (List F)}
    {metadataList : List Bytes} {count : Nat}
    (hinsert : insertBatch sp sq s logIds embeddings metadataList = some (count, t)) :
    ((batchItems logIds embeddings metadataList).length = 0 ∧ count = 0 ∧ t = s) ∨
      (batchItems logIds embeddings metadataList).length ≠ 0 ∧ ∃ d e w,
        (beginBatch sq s).2 = s.withDatabase d ∧
        insertAll sp sq (batchItems logIds embeddings metadataList) 0 (s.withDatabase d) =
          some (count, w) ∧
        t = w.withDatabase e := by
  simp only [insertBatch] at hinsert
  split at hinsert
  case isTrue hnone =>
    obtain ⟨rfl, rfl⟩ := Prod.mk.inj (Option.some.inj hinsert)
    exact .inl ⟨hnone, rfl, rfl⟩
  case isFalse hsome =>
    rw [Option.bind_eq_bind, Option.bind_eq_some_iff] at hinsert
    obtain ⟨⟨count', w⟩, hall, hend⟩ := hinsert
    obtain ⟨rfl, rfl⟩ := Prod.mk.inj (Option.some.inj hend)
    obtain ⟨inTx, d, hbegin, -⟩ := beginBatch_spec sq s
    rw [hbegin] at hall ⊢
    dsimp only at hall ⊢
    refine .inr ⟨hsome, d, ?_⟩
    cases inTx with
    | true => exact ⟨_, w, rfl, hall, rfl⟩
    | false => exact ⟨w.database, w, rfl, hall, rfl⟩

/-- No call opens or closes the store. -/
theorem call_isOpen {c : Call F} (hcall : call sp sq s c = some t) : t.isOpen = s.isOpen := by
  cases c with
  | insert item =>
      obtain ⟨⟨ok, u⟩, hinsert, rfl⟩ := Option.map_eq_some_iff.mp hcall
      exact (insertLocked_grows sp sq hinsert).1.isOpen
  | insertBatch logIds embeddings metadataList =>
      obtain ⟨⟨count, u⟩, hinsert, rfl⟩ := Option.map_eq_some_iff.mp hcall
      obtain ⟨-, -, rfl⟩ | ⟨-, d, e, w, -, hall, rfl⟩ := insertBatch_cases sp sq hinsert
      · rfl
      · exact (insertAll_grows sp sq _ 0 hall).isOpen
  | remove k =>
      obtain rfl : (remove sq s k).2 = t := Option.some.inj hcall
      exact ((Grows.steady.dropExisting s k).trans (Grows.steady.deleteRow sq _ k)).isOpen
  | clear =>
      obtain rfl : clear sq s = t := Option.some.inj hcall
      unfold clear
      split <;> rfl

theorem call_holds (h : Holds s slots) {c : Call F} (hcall : call sp sq s c = some t)
    (hrange : t.InRange) : ∃ slots', Holds t slots' := by
  cases c with
  | insert item =>
      obtain ⟨⟨ok, u⟩, hinsert, rfl⟩ := Option.map_eq_some_iff.mp hcall
      exact insertLocked_holds sp sq h hinsert hrange
  | insertBatch logIds embeddings metadataList =>
      obtain ⟨⟨count, u⟩, hinsert, rfl⟩ := Option.map_eq_some_iff.mp hcall
      obtain ⟨-, -, rfl⟩ | ⟨-, d, e, w, -, hall, rfl⟩ := insertBatch_cases sp sq hinsert
      · exact ⟨slots, h⟩
      · obtain ⟨slots', hw⟩ := insertAll_holds sp sq _ 0 (h.withDatabase d) hall hrange
        exact ⟨slots', hw.withDatabase e⟩
  | remove k =>
      obtain rfl : (remove sq s k).2 = t := Option.some.inj hcall
      obtain ⟨slots', hdropped, -⟩ := dropExisting_spec h k
      refine ⟨slots', ?_⟩
      show Holds (deleteRow sq (s.dropExisting k) k).2 slots'
      rw [deleteRow_eq sq hdropped.isOpen]
      exact hdropped.withDatabase _
  | clear =>
      obtain rfl : clear sq s = t := Option.some.inj hcall
      refine ⟨[], resetIndex_holds _ ?_⟩
      split
      · exact h.isOpen
      · exact h.isOpen

/-- A run in which the ids of the nodes do not wrap. -/
def RunsInRange (s : VectorStore F) (actions : List (Action F)) : Prop :=
  Transition.Meets (step sp sq) (fun s a => ∀ t ∈ step sp sq s a, t.InRange) s actions

instance (s : VectorStore F) (actions : List (Action F)) :
    Decidable (RunsInRange sp sq s actions) :=
  inferInstanceAs (Decidable (Transition.Meets _ _ _ _))

end VectorStore

end LogMind
