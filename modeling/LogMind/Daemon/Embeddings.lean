import LogMind.Daemon.ProcessRaw
import LogMind.Vector.StoreRestart

/-!
# Embeddings over several runs of the daemon

`store_embedding` makes a log id of the time of the entry and of `m_entry_counter`,
which every `DaemonCore` starts at zero, while the table of the vectors outlives the
process. A run opens the store, hands it the embeddings of its entries and closes it.
-/

namespace LogMind

namespace Embeddings

open KeyedQueue VectorStore

variable {Q F D R : Type} [LinearOrder D] (ext : External Q F) (sp : Space (List F) D R)
  (sq : Sqlite F)

/-- `store_embedding` for one entry after the other. An exception leaves the callback and
ends the run. -/
def storeAll : Sink Q F → List LogEntry → Sink Q F
  | s, [] => s
  | s, entry :: entries =>
      match storeEmbedding ext s entry with
      | some s => storeAll s entries
      | none => s

/-- The arguments of `VectorStore::insert`. -/
def insertedItem : Bytes × List F × Bytes → Item F
  | (logId, embedding, metadata) => ⟨logId, embedding, metadata⟩

/-- What a daemon that has just been constructed hands to its store. -/
def runItems (capacity : Nat) (ready : Bool) (entries : List LogEntry) : List (Item F) :=
  (storeAll ext { buffer := LogBuffer.new capacity, vectorStoreReady := ready } entries
    ).inserted.map insertedItem

/-- The database after one run of the daemon. -/
def daemonRun (config : VectorStoreConfig) (capacity : Nat) (database : Database F)
    (entries : List LogEntry) : Option (Database F) := do
  let (ready, store) ← open_ sp sq { config := config, database := database }
  let calls := (runItems ext capacity ready entries).map Call.insert
  let store ← Transition.run (VectorStore.call sp sq) store calls
  return store.close.database

/-- What several runs hand to their stores, which are all opened. -/
def allItems (capacity : Nat) (runs : List (List LogEntry)) : List (Item F) :=
  runs.flatMap (runItems ext capacity true)

/-- The configured dimension, or that of the first vector. -/
def storeDim (config : VectorStoreConfig) (items : List (Item F)) : Nat :=
  if config.dim = 0 then (items.head?.map fun item => item.embedding.length).getD 0
  else config.dim

/-- Those that the store has the dimension for. -/
def keptItems (config : VectorStoreConfig) (capacity : Nat) (runs : List (List LogEntry)) :
    List (Item F) :=
  ofLength (storeDim config (allItems ext capacity runs)) (allItems ext capacity runs)

/-- The entries of a run whose embedding gets to the store. -/
def embedded (entries : List LogEntry) : List LogEntry :=
  (entries.filter fun entry => (embeddingOf entry.fields).isSome).takeWhile
    fun entry => (ext.dump (metadataOf entry)).isSome

/-- The calls with an embedding, each with its place in the run. -/
def numbered (entries : List LogEntry) : List (LogEntry × Nat) := (embedded ext entries).zipIdx

def callLogId (call : LogEntry × Nat) : Bytes :=
  ascii (toString call.1.timestamp) ++ ascii "-" ++ ascii (toString (call.2 % wordBound))

def callItem (call : LogEntry × Nat) : Item F where
  logId := callLogId call
  embedding := ((embeddingOf call.1.fields).getD []).map ext.toFloat
  metadata := (ext.dump (metadataOf call.1)).getD []

/-- Two calls of one time and one place in their runs, as the counter counts it. -/
def SameStamp (a b : LogEntry × Nat) : Prop :=
  a.1.timestamp = b.1.timestamp ∧ a.2 % wordBound = b.2 % wordBound

/-- No two calls of the runs have one stamp. -/
def Apart (runs : List (List LogEntry)) : Prop :=
  (runs.flatMap (numbered ext)).Pairwise fun a b => ¬ SameStamp a b

/-- Every vector of the dimension of the store has its row in the end, in the order of the
calls, if the rows fit, nothing is trimmed and the capacity is not reached. -/
def KeepsRows (config : VectorStoreConfig) (capacity : Nat) (database : Database F)
    (runs : List (List LogEntry)) : Prop :=
  (∀ item ∈ keptItems ext config capacity runs, item.Fits) →
    (config.autoTrimThreshold = 0 ∨
      (keptItems ext config capacity runs).length ≤ config.autoTrimThreshold) →
    (keptItems ext config capacity runs).length ≤ config.maxElements →
    (keptItems ext config capacity runs).length ≤ wordBound32 →
    ∃ d, Transition.run (daemonRun ext sp sq config capacity) database runs = some d ∧
      d.table.rows.map Row.item = keptItems ext config capacity runs

theorem callLogId_eq_iff {a b : LogEntry × Nat} : callLogId a = callLogId b ↔ SameStamp a b := by
  constructor
  · intro h
    have hdash : (45 : UInt8) ∉ ascii (toString (a.2 % wordBound)) ∧
        (45 : UInt8) ∉ ascii (toString (b.2 % wordBound)) :=
      ⟨fun hmem => absurd (isDigit_of_mem_nat hmem) (by decide),
        fun hmem => absurd (isDigit_of_mem_nat hmem) (by decide)⟩
    have hlast : ∀ x y : Bytes, (45 : UInt8) ∉ y →
        ((x ++ ascii "-" ++ y).reverse.takeWhile (· != 45)) = y.reverse := by
      intro x y hy
      rw [List.reverse_append, List.reverse_append, List.takeWhile_append_of_pos]
      · simp [ascii]
      · intro c hc
        simp only [bne_iff_ne, ne_eq]
        rintro rfl
        exact hy (List.mem_reverse.mp hc)
    have hcounter : ascii (toString (a.2 % wordBound)) = ascii (toString (b.2 % wordBound)) := by
      apply List.reverse_injective
      rw [← hlast (ascii (toString a.1.timestamp)) _ hdash.1,
        ← hlast (ascii (toString b.1.timestamp)) _ hdash.2]
      exact congrArg (fun x : Bytes => x.reverse.takeWhile (· != 45)) h
    unfold callLogId at h
    rw [hcounter] at h
    exact ⟨ascii_int_injective (List.append_cancel_right (List.append_cancel_right h)),
      ascii_nat_injective hcounter⟩
  · rintro ⟨htime, hcounter⟩
    rw [callLogId, callLogId, htime, hcounter]

theorem storeAll_inserted (entries : List LogEntry) (n : Nat) {s : Sink Q F}
    (hready : s.vectorStoreReady = true) (hcounter : s.entryCounter = n % wordBound) :
    (storeAll ext s entries).inserted.map insertedItem =
      s.inserted.map insertedItem ++ ((embedded ext entries).zipIdx n).map (callItem ext) := by
  induction entries generalizing s n with
  | nil => simp [storeAll, embedded]
  | cons entry entries ih =>
      unfold storeAll storeEmbedding
      rw [hready, if_pos rfl]
      cases hembedding : embeddingOf entry.fields with
      | none =>
          have hskip : embedded ext (entry :: entries) = embedded ext entries := by
            simp [embedded, hembedding]
          rw [hskip]
          exact ih n hready hcounter
      | some embedding =>
          cases hdump : ext.dump (metadataOf entry) with
          | none =>
              have hend : embedded ext (entry :: entries) = [] := by
                simp [embedded, hembedding, hdump]
              simp [hend]
          | some metadata =>
              have hnext : embedded ext (entry :: entries) = entry :: embedded ext entries := by
                simp [embedded, hembedding, hdump]
              have hitem : insertedItem (ascii (toString entry.timestamp) ++ ascii "-" ++
                  ascii (toString s.entryCounter), embedding.map ext.toFloat, metadata) =
                  callItem ext (entry, n) := by
                simp [insertedItem, callItem, callLogId, hembedding, hdump, hcounter]
              dsimp only [Option.bind_eq_bind, Option.bind_some, Option.pure_def]
              rw [hnext, List.zipIdx_cons, List.map_cons, ← hitem]
              refine Eq.trans (ih (n + 1) ?_ ?_) ?_
              · rfl
              · rw [hcounter, Nat.mod_add_mod]
              · rw [List.map_append, List.append_assoc]
                rfl

theorem runItems_eq (capacity : Nat) (entries : List LogEntry) :
    runItems ext capacity true entries = (numbered ext entries).map (callItem ext) :=
  storeAll_inserted ext entries 0 rfl rfl

theorem allItems_eq (capacity : Nat) (runs : List (List LogEntry)) :
    allItems ext capacity runs = (runs.flatMap (numbered ext)).map (callItem ext) := by
  rw [allItems, List.map_flatMap]
  exact List.flatMap_congr fun entries _ => runItems_eq ext capacity entries

/-- The log ids of all calls differ exactly when their stamps do. -/
theorem distinct_allItems_iff (capacity : Nat) (runs : List (List LogEntry)) :
    Distinct Item.logId (allItems ext capacity runs) ↔ Apart ext runs := by
  rw [Distinct, allItems_eq, List.map_map, List.Nodup, List.pairwise_map, Apart]
  constructor
  · exact fun h => h.imp fun hne hstamp => hne (callLogId_eq_iff.mpr hstamp)
  · exact fun h => h.imp fun hne heq => hne (callLogId_eq_iff.mp heq)

theorem embeddingOf_ne_nil {fields : Json} {embedding : List Int}
    (h : embeddingOf fields = some embedding) : embedding ≠ [] := by
  unfold embeddingOf at h
  split at h
  · split at h
    · rintro rfl
      simp [List.mapM_cons, Option.bind_eq_some_iff] at h
    · exact absurd h (by simp)
  · exact absurd h (by simp)

theorem runItems_ne_nil (capacity : Nat) {entries : List LogEntry} {item : Item F}
    (hitem : item ∈ runItems ext capacity true entries) :
    item.logId ≠ [] ∧ item.embedding ≠ [] := by
  rw [runItems_eq] at hitem
  obtain ⟨⟨entry, n⟩, hcall, rfl⟩ := List.mem_map.mp hitem
  have hentry : entry ∈ embedded ext entries := List.fst_mem_of_mem_zipIdx hcall
  have hsome : (embeddingOf entry.fields).isSome = true :=
    (List.mem_filter.mp ((List.takeWhile_sublist _).subset hentry)).2
  obtain ⟨embedding, hembedding⟩ := Option.isSome_iff_exists.mp hsome
  constructor
  · simp [callItem, callLogId, ascii]
  · simpa [callItem, hembedding] using embeddingOf_ne_nil hembedding

/-- A run appends the items of the dimension to the rows of the database. -/
theorem daemonRun_spec (hok : ∀ n, sq.ok n = true) {config : VectorStoreConfig} (capacity : Nat)
    {database : Database F} {entries : List LogEntry} {dim : Nat} {kept : List (Item F)}
    (hpersist : config.persist = true) (hdim : config.dim = 0 ∨ config.dim = dim)
    (hstored : database.Stored kept) (hnone : database.transaction = none)
    (hfirst : kept = [] → config.dim = 0 →
      ∀ item ∈ (runItems ext capacity true entries).head?, item.embedding.length = dim)
    (hfits : ∀ item ∈ ofLength dim (runItems ext capacity true entries), item.Fits)
    (hitems : Reloadable config (kept ++ ofLength dim (runItems ext capacity true entries)) dim) :
    ∃ d, daemonRun ext sp sq config capacity database entries = some d ∧
      d.transaction = none ∧
      d.Stored (kept ++ ofLength dim (runItems ext capacity true entries)) := by
  have hkept := hitems.sublist (List.sublist_append_left kept _)
  obtain ⟨s, hopen, hconfig, htable, htransaction, hs⟩ :=
    open_stored sp sq hok (s := { config := config, database := database }) rfl hdim hstored hkept
  have hchosen : 0 < dim ∧ (if kept = [] then config.dim else dim) = dim ∨
      (if kept = [] then config.dim else dim) = 0 ∧
        ∀ item ∈ (runItems ext capacity true entries).head?, item.embedding.length = dim := by
    cases kept with
    | nil =>
        rw [if_pos rfl]
        by_cases hzero : config.dim = 0
        · exact .inr ⟨hzero, hfirst rfl hzero⟩
        · have hsame := hdim.resolve_left hzero
          exact .inl ⟨hsame ▸ Nat.pos_of_ne_zero hzero, hsame⟩
    | cons item kept =>
        obtain ⟨-, hembedding, hlength⟩ := hkept.accepted item List.mem_cons_self
        exact .inl ⟨hlength ▸ List.length_pos_of_ne_nil hembedding, if_neg (List.cons_ne_nil _ _)⟩
  have hroom : kept.length + (ofLength dim (runItems ext capacity true entries)).length =
      (kept ++ ofLength dim (runItems ext capacity true entries)).length :=
    List.length_append.symm
  obtain ⟨t, hrun, hstill, hended, hwritten⟩ := inserts_append sp sq hok
    (runItems ext capacity true entries) hs (hstored.congr htable) (htransaction.trans hnone)
    (hconfig ▸ hpersist) hchosen (fun item hitem => runItems_ne_nil ext capacity hitem) hfits
    hitems.distinct
    (by rw [hconfig]; exact hitems.bound.imp id hroom.trans_le)
    (by rw [hconfig]; exact hroom.trans_le hitems.room) (hroom.trans_le hitems.length_le)
  have hclose : t.close.database = { t.database with transaction := none } := by
    rw [close, if_pos hstill]
    show t.database.close = _
    rw [Database.close, hended]
    rfl
  refine ⟨t.close.database, ?_, by rw [hclose], hwritten.congr (by rw [hclose])⟩
  rw [daemonRun, hopen]
  dsimp only [Option.bind_eq_bind, Option.bind_some]
  rw [hrun]
  rfl

/-- The run lemma, with the items that are kept of earlier runs. -/
theorem runs_spec (hok : ∀ n, sq.ok n = true) {config : VectorStoreConfig} (capacity : Nat)
    (runs : List (List LogEntry)) {database : Database F} {dim : Nat} {kept : List (Item F)}
    (hpersist : config.persist = true) (hdim : config.dim = 0 ∨ config.dim = dim)
    (hstored : database.Stored kept) (hnone : database.transaction = none)
    (hfirst : kept = [] → config.dim = 0 →
      ∀ item ∈ (allItems ext capacity runs).head?, item.embedding.length = dim)
    (hfits : ∀ item ∈ ofLength dim (allItems ext capacity runs), item.Fits)
    (hitems : Reloadable config (kept ++ ofLength dim (allItems ext capacity runs)) dim) :
    ∃ d, Transition.run (daemonRun ext sp sq config capacity) database runs = some d ∧
      d.Stored (kept ++ ofLength dim (allItems ext capacity runs)) := by
  induction runs generalizing database kept with
  | nil => exact ⟨database, rfl, by simpa [allItems, ofLength] using hstored⟩
  | cons entries runs ih =>
      have hall : allItems ext capacity (entries :: runs) =
          runItems ext capacity true entries ++ allItems ext capacity runs := List.flatMap_cons
      rw [hall, ofLength_append] at hfits hitems ⊢
      rw [hall] at hfirst
      rw [← List.append_assoc] at hitems ⊢
      obtain ⟨d, hrun, hended, hwritten⟩ := daemonRun_spec ext sp sq hok capacity hpersist hdim
        hstored hnone
        (by
          intro hnil hzero item hitem
          apply hfirst hnil hzero item
          rw [List.head?_append, hitem]
          rfl)
        (fun item hitem => hfits item (List.mem_append_left _ hitem))
        (hitems.sublist (List.sublist_append_left _ _))
      obtain ⟨e, hruns, he⟩ := ih hwritten hended
        (by
          intro hnil hzero item hitem
          obtain ⟨hkept, hempty⟩ := List.append_eq_nil_iff.mp hnil
          apply hfirst hkept hzero item
          cases hhead : (runItems ext capacity true entries).head? with
          | none => rw [List.head?_append, hhead, hitem]; rfl
          | some first =>
              have hlength := hfirst hkept hzero first (by rw [List.head?_append, hhead]; rfl)
              have hmem := mem_ofLength.mpr ⟨List.mem_of_head? hhead, hlength⟩
              rw [hempty] at hmem
              exact absurd hmem List.not_mem_nil)
        (fun item hitem => hfits item (List.mem_append_right _ hitem)) hitems
      exact ⟨e, Transition.run_cons_eq_some.mpr ⟨d, hrun, hruns⟩, he⟩

theorem storeDim_first (config : VectorStoreConfig) (items : List (Item F)) :
    config.dim = 0 → ∀ item ∈ items.head?, item.embedding.length = storeDim config items := by
  intro hzero item hitem
  rw [storeDim, if_pos hzero, hitem]
  rfl

theorem keepsRows_of_apart (hok : ∀ n, sq.ok n = true) {config : VectorStoreConfig}
    (hpersist : config.persist = true) (capacity : Nat) {database : Database F}
    (hempty : database.table.rows = []) (hnone : database.transaction = none)
    {runs : List (List LogEntry)} (h : Apart ext runs) :
    KeepsRows ext sp sq config capacity database runs := by
  intro hfits hbound hroom hlt
  have hdistinct : Distinct Item.logId (keptItems ext config capacity runs) :=
    ((distinct_allItems_iff ext capacity runs).mpr h).sublist List.filter_sublist
  have haccepted : ∀ item ∈ keptItems ext config capacity runs, item.logId ≠ [] ∧
      item.embedding ≠ [] ∧
      item.embedding.length = storeDim config (allItems ext capacity runs) := by
    intro item hitem
    obtain ⟨hmem, hlength⟩ := mem_ofLength.mp hitem
    obtain ⟨entries, -, hentries⟩ := List.mem_flatMap.mp hmem
    obtain ⟨hid, hembedding⟩ := runItems_ne_nil ext capacity hentries
    exact ⟨hid, hembedding, hlength⟩
  have hdim : config.dim = 0 ∨
      config.dim = storeDim config (allItems ext capacity runs) := by
    unfold storeDim
    split
    · exact .inl ‹_›
    · exact .inr rfl
  obtain ⟨d, hruns, hd⟩ := runs_spec ext sp sq hok capacity runs hpersist hdim
    (Database.Stored.of_empty hempty) hnone (fun _ => storeDim_first config _) hfits
    ⟨hdistinct, haccepted, hbound, hroom, hlt⟩
  exact ⟨d, hruns, hd.rows⟩

/-- Over all runs of the daemon no log id comes twice, and every embedding keeps its row,
exactly when no two calls have the same time at the same place in their runs. -/
theorem runs_keep_embeddings_iff (hok : ∀ n, sq.ok n = true) {config : VectorStoreConfig}
    (hpersist : config.persist = true) (capacity : Nat) {database : Database F}
    (hempty : database.table.rows = []) (hnone : database.transaction = none)
    (runs : List (List LogEntry)) :
    (((allItems ext capacity runs).map Item.logId).Nodup ∧
        KeepsRows ext sp sq config capacity database runs) ↔
      Apart ext runs := by
  constructor
  · exact fun h => (distinct_allItems_iff ext capacity runs).mp h.1
  · exact fun h => ⟨(distinct_allItems_iff ext capacity runs).mpr h,
      keepsRows_of_apart ext sp sq hok hpersist capacity hempty hnone h⟩

/-- An entry whose analyzer left one number as its embedding. -/
def embeddedEntry (timestamp : Int) (message : Bytes) : LogEntry where
  timestamp := timestamp
  message := message
  fields := .object [(ascii "embedding", .array [.number 1])]

theorem runs_keep_embeddings_iff_two :
    let runs := [[embeddedEntry 0 (ascii "disk full")], [embeddedEntry 1 (ascii "disk ok")]]
    (((allItems Daemon.plainLibraries 50000 runs).map Item.logId).Nodup ∧
        KeepsRows Daemon.plainLibraries gridSpace alwaysOk {} 50000 {} runs) ↔
      Apart Daemon.plainLibraries runs :=
  runs_keep_embeddings_iff Daemon.plainLibraries gridSpace alwaysOk (fun _ => rfl) rfl 50000 rfl
    rfl _

/-- Two runs that begin with an entry of the same time: one row is left. -/
theorem second_run_replaces :
    let runs := [[embeddedEntry 0 (ascii "disk full")], [embeddedEntry 0 (ascii "disk ok")]]
    (allItems Daemon.plainLibraries 50000 runs).map Item.logId = [ascii "0-0", ascii "0-0"] ∧
      ∃ d, Transition.run (daemonRun Daemon.plainLibraries gridSpace alwaysOk {} 50000) {} runs =
          some d ∧
        d.table.rows.map Row.logId = [ascii "0-0"] :=
  ⟨rfl, _, rfl, rfl⟩

end Embeddings

end LogMind
