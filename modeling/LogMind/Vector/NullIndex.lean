import LogMind.Vector.StoreLifecycle

/-!
# The index pointer

`insert_locked` asks for the dimension and then uses the index. The two are set
together by `open`, `reset_index` and the first insert; `close` drops the index and
leaves the dimension. `lockedInserts` lists the invocations of `insert_locked` that an
action comes to, each with the store it finds.
-/

namespace LogMind

namespace VectorStore

variable {F D R : Type} [LinearOrder D] (sp : Space (List F) D R) (sq : Sqlite F)
variable {s t u : VectorStore F} {item : Item F} {ok : Bool}

/-- A store with a dimension has an index. -/
def Linked (s : VectorStore F) : Prop := 0 < s.dim → s.index.isSome = true

/-- `insert_locked` gets to `add_point` while the index is null. -/
def AddsToNull (s : VectorStore F) (item : Item F) : Prop :=
  s.Tries item ∧ ((s.chooseDim item.embedding).dropExisting item.logId).index = none

/-- The invocations of `insert_locked` in the loop of `insert_batch`. -/
def batchInserts : List (Item F) → VectorStore F → List (VectorStore F × Item F)
  | [], _ => []
  | item :: items, s =>
      (s, item) :: match insertLocked sp sq s item true with
        | some (_, s) => batchInserts items s
        | none => []

def rowInserts (s : VectorStore F) (row : Row F) : List (VectorStore F × Item F) :=
  if ¬ (s.database.table.rows.any fun r => r.id = row.id) then []
  else if row.embedding = [] ∨ row.dimension ≤ 0 ∨
      (row.embedding.length * 4 : Nat) ≠ row.dimension * 4 then []
  else [(s, ⟨cString row.logId, row.embedding, cString row.metadata⟩)]

def rowsInserts : List (Row F) → VectorStore F → List (VectorStore F × Item F)
  | [], _ => []
  | row :: rows, s =>
      let (ok, database) := s.database.execute sq id
      let s := s.withDatabase database
      if ok then
        rowInserts s row ++ match loadRow sp sq s row with
          | some s => rowsInserts rows s
          | none => []
      else []

/-- The invocations of `insert_locked` in `load_all`. -/
def loadInserts (s : VectorStore F) : List (VectorStore F × Item F) :=
  let s := s.resetIndex
  if ¬ s.isOpen then []
  else
    let (ok, database) := s.database.execute sq id
    let s := s.withDatabase database
    if ok then rowsInserts sp sq s.database.table.rows s else []

def lockedInserts (s : VectorStore F) : Action F → List (VectorStore F × Item F)
  | .open_ =>
      if s.isOpen then []
      else
        let (ok, s) := connect sq s
        if ok then loadInserts sp sq { s with dim := s.config.dim } else []
  | .close => []
  | .rebuildIndex => loadInserts sp sq s
  | .search _ _ => []
  | .call (.insert item) => [(s, item)]
  | .call (.insertBatch logIds embeddings metadataList) =>
      let items := batchItems logIds embeddings metadataList
      if items.length = 0 then [] else batchInserts sp sq items (beginBatch sq s).2
  | .call (.remove _) => []
  | .call .clear => []

/-- The action meets no null index: `insert_locked` does not get to `add_point` with one,
and a search without an index ends before `search_knn`. -/
def NeverNull (s : VectorStore F) (a : Action F) : Prop :=
  (∀ c ∈ lockedInserts sp sq s a, ¬ c.1.AddsToNull c.2) ∧
    ∀ query topK, a = .search query topK → s.index = none →
      search sp s query topK = some (s, [])

/-- What keeps the dimension and leaves an index where there was one. -/
structure KeepsIndex (s t : VectorStore F) : Prop where
  dim : t.dim = s.dim
  index : s.index.isSome = true → t.index.isSome = true

theorem KeepsIndex.refl (s : VectorStore F) : KeepsIndex s s := ⟨rfl, id⟩

theorem KeepsIndex.trans (h : KeepsIndex s t) (g : KeepsIndex t u) : KeepsIndex s u :=
  ⟨g.dim.trans h.dim, fun hindex => g.index (h.index hindex)⟩

theorem KeepsIndex.linked (h : KeepsIndex s t) (hs : s.Linked) : t.Linked :=
  fun hdim => h.index (hs (h.dim ▸ hdim))

theorem forget_keepsIndex (s : VectorStore F) (k : Bytes) (id : Nat) :
    KeepsIndex s (s.forget k id) := by
  unfold forget tombstone
  split
  · exact ⟨rfl, fun hindex => hindex⟩
  · split
    · exact ⟨rfl, fun hindex => hindex⟩
    · exact ⟨rfl, fun _ => rfl⟩

theorem KeepsIndex.steady : Steady (@KeepsIndex F) :=
  ⟨KeepsIndex.refl, KeepsIndex.trans, fun _ _ => ⟨rfl, id⟩, fun _ _ => ⟨rfl, id⟩,
    forget_keepsIndex⟩

theorem addNode_keepsIndex (hadd : addNode sp s item = some t) : KeepsIndex s t := by
  unfold addNode at hadd
  dsimp only at hadd
  simp only [Option.bind_eq_bind, Option.bind_eq_some_iff] at hadd
  obtain ⟨x, -, y, -, hadd⟩ := hadd
  rw [← Option.some.inj hadd]
  exact ⟨rfl, fun _ => rfl⟩

theorem resetIndex_linked (s : VectorStore F) : s.resetIndex.Linked := by
  intro hdim
  unfold resetIndex
  dsimp only
  rw [if_pos (show 0 < s.dim from hdim)]
  rfl

/-- The first vector comes with an index. -/
theorem Linked.chooseDim (h : s.Linked) {embedding : List F} (hne : embedding ≠ []) :
    (s.chooseDim embedding).Linked ∧ 0 < (s.chooseDim embedding).dim := by
  unfold VectorStore.chooseDim
  split
  · exact ⟨fun _ => rfl, List.length_pos_of_ne_nil hne⟩
  · exact ⟨h, Nat.pos_of_ne_zero ‹_›⟩

theorem Linked.not_addsToNull (h : s.Linked) (item : Item F) : ¬ s.AddsToNull item := by
  rintro ⟨htries, hnull⟩
  obtain ⟨hlinked, hdim⟩ := h.chooseDim htries.1.2.1
  have hindex := (KeepsIndex.steady.dropExisting _ item.logId).index (hlinked hdim)
  rw [hnull] at hindex
  exact Bool.false_ne_true hindex

/-- A null index that is used is no outcome. -/
theorem insertLocked_of_addsToNull (h : s.AddsToNull item) (writeDb : Bool) :
    insertLocked sp sq s item writeDb = none := by
  obtain ⟨⟨⟨hid, hembedding, hdim⟩, hroom⟩, hnull⟩ := h
  have hchosen : item.embedding.length = (s.chooseDim item.embedding).dim := by
    unfold chooseDim
    split
    · rfl
    · exact hdim.resolve_left ‹_›
  have hsame : (s.chooseDim item.embedding).idToLog = s.idToLog := by
    unfold chooseDim
    split <;> rfl
  have hadd : addNode sp ((s.chooseDim item.embedding).dropExisting item.logId) item = none := by
    unfold addNode
    rw [hnull]
    rfl
  unfold insertLocked
  dsimp only
  rw [if_neg hid, if_neg hembedding, if_neg (not_not.mpr hchosen), if_neg, hadd]
  · rfl
  · rw [hsame, (chooseDim_grows s item.embedding).config]
    exact not_le.mpr hroom

theorem Linked.insertLocked (h : s.Linked) {writeDb : Bool}
    (hinsert : insertLocked sp sq s item writeDb = some (ok, t)) : t.Linked := by
  obtain ⟨-, rfl | ⟨hne, rfl⟩⟩ | ⟨hne, a, hadd, hend⟩ := insertLocked_cases sp sq hinsert
  · exact h
  · exact (h.chooseDim hne).1
  have hchosen := (h.chooseDim hne).1
  have hrow := ((KeepsIndex.steady.dropExisting _ item.logId).trans
    ((addNode_keepsIndex sp hadd).trans (KeepsIndex.steady.writeRow sq a item writeDb))).linked
      hchosen
  rcases hend with rfl | htrim
  · exact hrow
  · exact (KeepsIndex.steady.trim sq htrim).linked hrow

theorem Linked.insertAll (items : List (Item F)) (count : Nat) (h : s.Linked) {count' : Nat}
    (hinsert : insertAll sp sq items count s = some (count', t)) : t.Linked := by
  induction items generalizing count s with
  | nil =>
      obtain ⟨-, rfl⟩ := Prod.mk.inj (Option.some.inj hinsert)
      exact h
  | cons item items ih =>
      rw [VectorStore.insertAll, Option.bind_eq_bind, Option.bind_eq_some_iff] at hinsert
      obtain ⟨⟨ok, u⟩, hfirst, hrest⟩ := hinsert
      exact ih _ (h.insertLocked sp sq hfirst) hrest

theorem Linked.batchInserts (items : List (Item F)) (h : s.Linked) :
    ∀ c ∈ batchInserts sp sq items s, c.1.Linked := by
  induction items generalizing s with
  | nil => simp [VectorStore.batchInserts]
  | cons item items ih =>
      intro c hc
      rcases List.mem_cons.mp hc with rfl | hc
      · exact h
      · split at hc
        case h_1 heq => exact ih (h.insertLocked sp sq heq) c hc
        case h_2 => exact absurd hc List.not_mem_nil

theorem Linked.rowInserts (h : s.Linked) (row : Row F) :
    ∀ c ∈ rowInserts s row, c.1.Linked := by
  intro c hc
  unfold VectorStore.rowInserts at hc
  split at hc
  · exact absurd hc List.not_mem_nil
  · split at hc
    · exact absurd hc List.not_mem_nil
    · rw [List.mem_singleton.mp hc]
      exact h

theorem Linked.loadRow (h : s.Linked) {row : Row F} (hload : loadRow sp sq s row = some t) :
    t.Linked := by
  obtain rfl | ⟨item, ok, hinsert⟩ := loadRow_cases sp sq hload
  · exact h
  · exact h.insertLocked sp sq hinsert

theorem Linked.loadRows (rows : List (Row F)) (h : s.Linked) :
    (∀ c ∈ rowsInserts sp sq rows s, c.1.Linked) ∧
      ∀ t, loadRows sp sq rows s = some t → t.Linked := by
  induction rows generalizing s with
  | nil =>
      constructor
      · simp [rowsInserts]
      · exact fun t hload => Option.some.inj hload ▸ h
  | cons row rows ih =>
      have hread := (KeepsIndex.steady.withDatabase s (s.database.execute sq id).2).linked h
      simp only [rowsInserts, VectorStore.loadRows]
      split
      · constructor
        · intro c hc
          rcases List.mem_append.mp hc with hc | hc
          · exact hread.rowInserts row c hc
          · split at hc
            case h_1 heq => exact (ih (hread.loadRow sp sq heq)).1 c hc
            case h_2 => exact absurd hc List.not_mem_nil
        · intro t hload
          rw [Option.bind_eq_bind, Option.bind_eq_some_iff] at hload
          obtain ⟨u, hrow, hrest⟩ := hload
          exact (ih (hread.loadRow sp sq hrow)).2 t hrest
      · exact ⟨fun c hc => absurd hc List.not_mem_nil, fun t hload => Option.some.inj hload ▸ hread⟩

/-- `load_all` sets the index by the dimension, however the two stood before. -/
theorem loadAll_linked (s : VectorStore F) :
    (∀ c ∈ loadInserts sp sq s, c.1.Linked) ∧
      ∀ ok t, loadAll sp sq s = some (ok, t) → t.Linked := by
  have hreset := resetIndex_linked s
  have hread := (KeepsIndex.steady.withDatabase s.resetIndex
    (s.resetIndex.database.execute sq id).2).linked hreset
  simp only [loadInserts, loadAll]
  split
  · refine ⟨fun c hc => absurd hc List.not_mem_nil, fun ok t hload => ?_⟩
    obtain ⟨-, rfl⟩ := Prod.mk.inj (Option.some.inj hload)
    exact hreset
  · split
    · obtain ⟨hinserts, hrows⟩ := hread.loadRows sp sq
        (s.resetIndex.withDatabase (s.resetIndex.database.execute sq id).2).database.table.rows
      refine ⟨hinserts, fun ok t hload => ?_⟩
      rw [Option.bind_eq_bind, Option.bind_eq_some_iff] at hload
      obtain ⟨u, hrows', hload⟩ := hload
      obtain ⟨-, rfl⟩ := Prod.mk.inj (Option.some.inj hload)
      exact hrows u hrows'
    · refine ⟨fun c hc => absurd hc List.not_mem_nil, fun ok t hload => ?_⟩
      obtain ⟨-, rfl⟩ := Prod.mk.inj (Option.some.inj hload)
      exact hread

theorem connect_keepsIndex (s : VectorStore F) : KeepsIndex s (connect sq s).2 := by
  simp only [connect]
  split
  · split
    · exact ⟨rfl, id⟩
    · exact ⟨rfl, id⟩
  · exact ⟨rfl, id⟩

theorem Linked.open_ (h : s.Linked) :
    (∀ c ∈ lockedInserts sp sq s .open_, c.1.Linked) ∧
      ∀ ok t, open_ sp sq s = some (ok, t) → t.Linked := by
  have hconnect := (connect_keepsIndex sq s).linked h
  simp only [lockedInserts, VectorStore.open_]
  split
  · refine ⟨fun c hc => absurd hc List.not_mem_nil, fun ok t hopened => ?_⟩
    obtain ⟨-, rfl⟩ := Prod.mk.inj (Option.some.inj hopened)
    exact h
  · split
    · exact loadAll_linked sp sq _
    · refine ⟨fun c hc => absurd hc List.not_mem_nil, fun ok t hopened => ?_⟩
      obtain ⟨-, rfl⟩ := Prod.mk.inj (Option.some.inj hopened)
      exact hconnect

theorem beginBatch_keepsIndex (s : VectorStore F) : KeepsIndex s (beginBatch sq s).2 := by
  unfold beginBatch
  split
  · exact KeepsIndex.steady.withDatabase s _
  · exact KeepsIndex.refl s

theorem Linked.call (h : s.Linked) (c : Call F) :
    (∀ d ∈ lockedInserts sp sq s (.call c), d.1.Linked) ∧
      ∀ t, call sp sq s c = some t → t.Linked := by
  cases c with
  | insert item =>
      constructor
      · intro d hd
        rw [List.mem_singleton.mp hd]
        exact h
      · intro t hcall
        obtain ⟨⟨ok, u⟩, hinsert, rfl⟩ := Option.map_eq_some_iff.mp hcall
        exact h.insertLocked sp sq hinsert
  | insertBatch logIds embeddings metadataList =>
      have hbegun := (beginBatch_keepsIndex sq s).linked h
      constructor
      · intro d hd
        simp only [lockedInserts] at hd
        split at hd
        · exact absurd hd List.not_mem_nil
        · exact hbegun.batchInserts sp sq _ d hd
      · intro t hcall
        obtain ⟨⟨count, u⟩, hinsert, rfl⟩ := Option.map_eq_some_iff.mp hcall
        obtain ⟨-, -, rfl⟩ | ⟨-, d, e, w, hbegin, hall, rfl⟩ := insertBatch_cases sp sq hinsert
        · exact h
        · rw [hbegin] at hbegun
          exact (KeepsIndex.steady.withDatabase w e).linked (hbegun.insertAll sp sq _ 0 hall)
  | remove logId =>
      refine ⟨fun d hd => absurd hd List.not_mem_nil, fun t hcall => ?_⟩
      rw [← Option.some.inj hcall]
      have hdropped := KeepsIndex.steady.dropExisting s logId
      exact (hdropped.trans (KeepsIndex.steady.deleteRow sq _ logId)).linked h
  | clear =>
      refine ⟨fun d hd => absurd hd List.not_mem_nil, fun t hcall => ?_⟩
      rw [← Option.some.inj hcall]
      exact resetIndex_linked _

theorem Linked.search (h : s.Linked) {query : List F} {topK : Nat}
    {results : List (SearchResult R)} (hsearch : search sp s query topK = some (t, results)) :
    t.Linked := by
  unfold VectorStore.search at hsearch
  split at hsearch
  · obtain ⟨rfl, -⟩ := Prod.mk.inj (Option.some.inj hsearch)
    exact h
  · split at hsearch
    · obtain ⟨rfl, -⟩ := Prod.mk.inj (Option.some.inj hsearch)
      exact h
    · simp only [Option.bind_eq_bind, Option.bind_eq_some_iff] at hsearch
      obtain ⟨⟨x, hits⟩, -, found, -, hsearch⟩ := hsearch
      obtain ⟨rfl, -⟩ := Prod.mk.inj (Option.some.inj hsearch)
      exact fun _ => rfl

/-- The inserts of an action of a linked store find a linked store. -/
theorem Linked.neverNull (h : s.Linked) (a : Action F) : NeverNull sp sq s a := by
  constructor
  · intro c hc
    apply Linked.not_addsToNull
    cases a with
    | open_ => exact (h.open_ sp sq).1 c hc
    | close => exact absurd hc List.not_mem_nil
    | rebuildIndex => exact (loadAll_linked sp sq s).1 c hc
    | search query topK => exact absurd hc List.not_mem_nil
    | call d => exact (h.call sp sq d).1 c hc
  · intro query topK _ hindex
    unfold VectorStore.search
    rw [hindex]

/-- Every action but `close` leaves a linked store linked. -/
theorem Linked.step (h : s.Linked) {a : Action F} (ha : a = .close → s.dim = 0)
    (hstep : step sp sq s a = some t) : t.Linked := by
  cases a with
  | open_ =>
      obtain ⟨⟨ok, u⟩, hopened, rfl⟩ := Option.map_eq_some_iff.mp hstep
      exact (h.open_ sp sq).2 ok u hopened
  | close =>
      intro hdim
      rw [← Option.some.inj hstep] at hdim
      exact absurd (ha rfl) (Nat.ne_of_gt hdim)
  | rebuildIndex =>
      obtain ⟨⟨ok, u⟩, hload, rfl⟩ := Option.map_eq_some_iff.mp hstep
      exact (loadAll_linked sp sq s).2 ok u hload
  | search query topK =>
      obtain ⟨⟨u, results⟩, hsearch, rfl⟩ := Option.map_eq_some_iff.mp hstep
      exact h.search sp hsearch
  | call d => exact (h.call sp sq d).2 t hstep

theorem close_linked_iff : s.close.Linked ↔ s.dim = 0 := by
  constructor
  · intro hlinked
    by_contra hdim
    exact Bool.false_ne_true (hlinked (Nat.pos_of_ne_zero hdim))
  · exact fun hdim hpos => absurd hdim (Nat.ne_of_gt hpos)

/-- A store never meets a null index, and stays linked, exactly in the runs that close it
only while it has no dimension. -/
theorem run_linked_iff (config : VectorStoreConfig) (database : Database F)
    (actions : List (Action F)) :
    Transition.Meets (step sp sq)
        (fun s a => NeverNull sp sq s a ∧ ∀ t, step sp sq s a = some t → t.Linked)
        { config := config, database := database } actions ↔
      Transition.Meets (step sp sq) (fun s a => a = .close → s.dim = 0)
        { config := config, database := database } actions := by
  have hinitial : ({ config := config, database := database } : VectorStore F).Linked :=
    fun hdim => absurd hdim (Nat.lt_irrefl 0)
  apply Transition.meets_congr (fun s a t (h : s.Linked) hcond => hcond.2 t) _ hinitial
  intro s a h
  constructor
  · rintro ⟨-, hlinked⟩ rfl
    exact close_linked_iff.mp (hlinked s.close rfl)
  · intro ha
    exact ⟨h.neverNull sp sq a, fun t => h.step sp sq ha⟩

/-- A vector that comes after `close`. -/
theorem insert_behind_close : ∃ t,
    Transition.run (step gridSpace alwaysOk) smallStore
      [.open_, .call (.insert ⟨[97], [1], []⟩), .close] = some t ∧
    t.dim = 1 ∧ t.index = none ∧ t.AddsToNull ⟨[98], [2], []⟩ ∧
    step gridSpace alwaysOk t (.call (.insert ⟨[98], [2], []⟩)) = none :=
  ⟨_, rfl, rfl, rfl, ⟨by decide, rfl⟩, rfl⟩

end VectorStore

end LogMind
