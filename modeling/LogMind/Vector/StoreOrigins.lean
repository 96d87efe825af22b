import LogMind.Vector.StoreSearch

/-!
# Where the vectors of a store come from

`HoldsOnly p s` says of an open store that everything live in it has the property `p`. An insert
keeps it for an item that has the property, whatever SQLite answers, and so does a load for rows
that do. What a search reports is live, so it has the property too. A store that takes no more
items than there are node ids never runs out of them.
-/

namespace LogMind

open KeyedQueue

namespace VectorStore

variable {F D R : Type} [LinearOrder D] (sp : Space (List F) D R) (sq : Sqlite F)
variable {s t : VectorStore F} {slots : List (Item F)} {item : Item F} {p q : Item F → Prop}

structure HoldsOnly (p : Item F → Prop) (s : VectorStore F) : Prop where
  slots : ∃ slots, Holds s slots ∧ ∀ item ∈ live slots, p item
  max_le : s.config.maxElements ≤ wordBound32

theorem HoldsOnly.mono (h : HoldsOnly p s) (hpq : ∀ item, p item → q item) : HoldsOnly q s := by
  obtain ⟨slots, hslots, hlive⟩ := h.slots
  exact ⟨⟨slots, hslots, fun item hitem => hpq item (hlive item hitem)⟩, h.max_le⟩

theorem HoldsOnly.withDatabase (h : HoldsOnly p s) (database : Database F) :
    HoldsOnly p (s.withDatabase database) := by
  obtain ⟨slots, hslots, hlive⟩ := h.slots
  exact ⟨⟨slots, hslots.withDatabase database, hlive⟩, h.max_le⟩

/-- Trimming takes items away only. -/
theorem HoldsOnly.trim (h : HoldsOnly p s) :
    ∃ t, trim sq s = some t ∧ HoldsOnly p t ∧ t.config = s.config := by
  obtain ⟨slots, hslots, hlive⟩ := h.slots
  obtain ⟨t, trimmed, htrim, ht, hframe, -, hkept, -⟩ := trim_spec sq hslots
  refine ⟨t, htrim, ⟨⟨trimmed, ht, fun item hitem => ?_⟩, ?_⟩, hframe.config⟩
  · rw [hkept] at hitem
    exact hlive item (List.mem_of_mem_drop hitem)
  · rw [hframe.config]
    exact h.max_le

/-- An insert always comes to an end, and adds nothing but its item, also if its row cannot be
written. -/
theorem HoldsOnly.insertLocked (h : HoldsOnly p s) (hitem : p item) (writeDb : Bool) :
    ∃ ok t, insertLocked sp sq s item writeDb = some (ok, t) ∧ HoldsOnly p t ∧
      t.config = s.config := by
  obtain ⟨slots, hslots, hlive⟩ := h.slots
  by_cases htries : s.Tries item
  · obtain ⟨haccepts, hroom⟩ := (tries_iff hslots item).mp htries
    obtain ⟨a, added, ha, hconfig, -, -, hput, heq⟩ :=
      insertLocked_tried sp sq hslots haccepts hroom (hroom.trans_le h.max_le) writeDb
    have hadded : HoldsOnly p a := by
      refine ⟨⟨added, ha, fun other hother => ?_⟩, hconfig ▸ h.max_le⟩
      rw [hput] at hother
      rcases mem_put.mp hother with ⟨hold, -⟩ | rfl
      · exact hlive other hold
      · exact hitem
    have hwritten := hadded.withDatabase (writeRow sq s item writeDb).2.database
    rw [heq]
    split
    · obtain ⟨t, htrim, ht, hsame⟩ := hwritten.trim sq
      exact ⟨true, t, by rw [htrim]; rfl, ht, hsame.trans hconfig⟩
    · exact ⟨false, _, rfl, hwritten, hconfig⟩
  · obtain ⟨t, heq, ht, hconfig, -⟩ := insertLocked_untried sp sq hslots htries writeDb
    exact ⟨false, t, heq, ⟨⟨slots, ht, hlive⟩, hconfig ▸ h.max_le⟩, hconfig⟩

/-- What `load_all` makes of a row. -/
def loadedItem (row : Row F) : Item F := ⟨cString row.logId, row.embedding, cString row.metadata⟩

theorem HoldsOnly.loadRow (h : HoldsOnly p s) {row : Row F} (hrow : p (loadedItem row)) :
    ∃ t, loadRow sp sq s row = some t ∧ HoldsOnly p t := by
  unfold VectorStore.loadRow
  split
  · exact ⟨s, rfl, h⟩
  · split
    · exact ⟨s, rfl, h⟩
    · obtain ⟨ok, t, hinsert, ht, -⟩ := h.insertLocked sp sq hrow false
      refine ⟨t, ?_, ht⟩
      change (VectorStore.insertLocked sp sq s (loadedItem row) false).bind _ = _
      rw [hinsert]
      rfl

theorem HoldsOnly.loadRows (h : HoldsOnly p s) {rows : List (Row F)}
    (hrows : ∀ row ∈ rows, p (loadedItem row)) :
    ∃ t, loadRows sp sq rows s = some t ∧ HoldsOnly p t := by
  induction rows generalizing s with
  | nil => exact ⟨s, rfl, h⟩
  | cons row rows ih =>
      have hnext := h.withDatabase (s.database.execute sq id).2
      simp only [VectorStore.loadRows]
      split
      · obtain ⟨u, hload, hu⟩ := hnext.loadRow sp sq (hrows row List.mem_cons_self)
        rw [hload]
        exact ih hu fun row hrow => hrows row (List.mem_cons_of_mem _ hrow)
      · exact ⟨_, rfl, hnext⟩

theorem execute_table (database : Database F) :
    (database.execute sq id).2.table = database.table := by
  unfold Database.execute
  split <;> rfl

theorem connect_table (s : VectorStore F) :
    (connect sq s).2.database.table = s.database.table := by
  simp only [connect]
  split
  · split
    · simp only [execute_table]
    · simp only [withDatabase, execute_table]
  · simp only [withDatabase, execute_table]

/-- An open store reads what is in its table. -/
theorem loadAll_holdsOnly (hopen : s.isOpen = true) (hmax : s.config.maxElements ≤ wordBound32)
    (hrows : ∀ row ∈ s.database.table.rows, p (loadedItem row)) :
    ∃ ok t, loadAll sp sq s = some (ok, t) ∧ HoldsOnly p t := by
  have hstart : HoldsOnly p (s.resetIndex.withDatabase (s.database.execute sq id).2) :=
    ⟨⟨[], (resetIndex_holds s hopen).withDatabase _, fun _ hitem =>
      absurd hitem List.not_mem_nil⟩, hmax⟩
  have hstill : ¬ ¬ s.resetIndex.isOpen = true := not_not.mpr hopen
  rw [← execute_table sq s.database] at hrows
  simp only [loadAll, if_neg hstill]
  split
  · obtain ⟨t, hload, ht⟩ := hstart.loadRows sp sq hrows
    refine ⟨true, t, ?_, ht⟩
    change (VectorStore.loadRows sp sq (s.database.execute sq id).2.table.rows
      (s.resetIndex.withDatabase (s.database.execute sq id).2)).bind _ = _
    rw [hload]
    rfl
  · exact ⟨false, _, rfl, hstart⟩

/-- A closed store is opened with what is in its table, or it could not be connected. -/
theorem open_holdsOnly (hclosed : s.isOpen = false) (hnone : s.index = none)
    (hmax : s.config.maxElements ≤ wordBound32)
    (hrows : ∀ row ∈ s.database.table.rows, p (loadedItem row)) :
    ∃ ready t, open_ sp sq s = some (ready, t) ∧
      (HoldsOnly p t ∨ ready = false ∧ t.index = none) := by
  have hconnected := connect_isOpen sq hclosed
  have hconfig := connect_config sq s
  rw [← connect_table sq s] at hrows
  have hindex : (connect sq s).2.index = none := by
    simp only [connect]
    split
    · split <;> exact hnone
    · exact hnone
  have hopen : ¬ s.isOpen = true := Bool.eq_false_iff.mp hclosed
  rw [open_, if_neg hopen]
  dsimp only
  split
  · rename_i hok
    obtain ⟨ok, t, hload, ht⟩ := loadAll_holdsOnly sp sq
      (s := { (connect sq s).2 with dim := (connect sq s).2.config.dim }) (hconnected.trans hok)
      (by rw [← hconfig] at hmax; exact hmax) hrows
    exact ⟨ok, t, hload, .inl ht⟩
  · exact ⟨false, _, rfl, .inr ⟨rfl, hindex⟩⟩

/-- Every live vector is the only one under its log id, so it is the most recent one. -/
theorem Holds.recorded (h : Holds s slots) :
    Recorded s slots { live := live slots, accepted := live slots } := by
  refine ⟨h, rfl, fun item hitem => ?_⟩
  show (live slots).reverse.find? (fun other => decide (other.logId = item.logId)) = some item
  have hdistinct : ((live slots).reverse.map Item.logId).Nodup := by
    rw [List.map_reverse]
    exact List.nodup_reverse.mpr h.distinct
  have hmem : item ∈ (live slots).reverse := List.mem_reverse.mpr hitem
  cases hfound : (live slots).reverse.find? (fun other => decide (other.logId = item.logId)) with
  | none =>
      have hno := List.find?_eq_none.mp hfound item hmem
      exact absurd (decide_eq_true rfl) hno
  | some other =>
      have hsame : other.logId = item.logId := by simpa using List.find?_some hfound
      rw [List.inj_on_of_nodup_map hdistinct (List.mem_of_find?_eq_some hfound) hmem hsame]

/-- What a search reports is something that the store holds: items with the property, not more than
were asked for, by their distance from the query, and no log id twice. -/
structure Reports [LE R] (p : Item F → Prop) (query : List F) (topK : Nat)
    (found : List (Item F)) : Prop where
  length_le : found.length ≤ topK
  sorted : found.Pairwise fun a b =>
    sp.sqrt (sp.distanceSq query a.embedding) ≤ sp.sqrt (sp.distanceSq query b.embedding)
  distinct : (found.map Item.logId).Nodup
  origin : ∀ item ∈ found, p item

theorem search_config {query : List F} {topK : Nat} {results : List (SearchResult R)}
    (hsearch : search sp s query topK = some (t, results)) : t.config = s.config := by
  unfold search at hsearch
  split at hsearch
  · rw [← (Prod.mk.inj (Option.some.inj hsearch)).1]
  · split at hsearch
    · rw [← (Prod.mk.inj (Option.some.inj hsearch)).1]
    · simp only [Option.bind_eq_bind, Option.bind_eq_some_iff] at hsearch
      obtain ⟨_, _, _, _, hsearch⟩ := hsearch
      rw [← (Prod.mk.inj (Option.some.inj hsearch)).1]

/-- The results are those of some items. -/
theorem HoldsOnly.search [Preorder R] (hsqrt : Monotone sp.sqrt) (h : HoldsOnly p s)
    (query : List F) (topK : Nat) :
    ∃ t found, VectorStore.search sp s query topK =
        some (t, found.map (resultOf sp query)) ∧
      Reports sp p query topK found ∧ HoldsOnly p t := by
  obtain ⟨slots, hslots, hlive⟩ := h.slots
  obtain ⟨t, results, hsearch, hanswers⟩ :=
    search_answers sp hsqrt hslots.recorded query topK
  obtain ⟨found, rfl, hfound⟩ : ∃ found : List (Item F),
      found.map (resultOf sp query) = results ∧ ∀ item ∈ found, p item := by
    have hmem := hanswers.live
    clear hsearch hanswers
    induction results with
    | nil => exact ⟨[], rfl, fun _ hitem => absurd hitem List.not_mem_nil⟩
    | cons result results ih =>
        obtain ⟨found, hmap, hfound⟩ :=
          ih fun other hother => hmem other (List.mem_cons_of_mem _ hother)
        obtain ⟨item, hitem, -, rfl⟩ := hmem result List.mem_cons_self
        refine ⟨item :: found, by rw [List.map_cons, hmap], ?_⟩
        exact List.forall_mem_cons.mpr ⟨hlive item hitem, hfound⟩
  have hlength := hanswers.length_le
  have hsorted := hanswers.sorted
  have hdistinct := hanswers.distinct
  rw [List.length_map] at hlength
  rw [List.pairwise_map] at hsorted
  rw [List.map_map] at hdistinct
  have ht := (search_holds sp hsearch).2 slots hslots
  refine ⟨t, found, hsearch, ⟨hlength, hsorted, hdistinct, hfound⟩, ⟨⟨slots, ht, hlive⟩, ?_⟩⟩
  rw [search_config sp hsearch]
  exact h.max_le

end VectorStore

end LogMind
