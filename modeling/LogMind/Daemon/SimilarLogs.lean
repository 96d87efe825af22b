import LogMind.Daemon.Embeddings
import LogMind.Vector.StoreOrigins

/-!
# Similar logs

The output callbacks of several workers hand their embeddings to the vector store while
`SearchSimilar` reads it: an item that has got its log id waits for the mutex of the store, and the
waiting ones get it in any order. A hit names its entry by the log id, and its metadata tells the
rest.
-/

namespace LogMind

/-- The map that `SearchSimilar` makes of a result. -/
structure SimilarHit (Q R : Type) where
  logId : Q
  metadata : Q
  distance : R
  similarity : R

/-- A daemon, as far as its vectors are concerned. -/
structure SimilarLogs (Q F : Type) where
  sink : Sink Q F
  store : VectorStore F
  /-- The calls of `VectorStore::insert` that wait for its mutex. -/
  waiting : List (Item F) := []

namespace SimilarLogs

open VectorStore Embeddings

variable {Q F W D R : Type} [LinearOrder D] (ext : External Q F) (sp : Space (List F) D R)
  (sq : Sqlite F) (narrow : W → F) (similarity : R → R)

/-- `start()`, which opens the store. -/
def start (capacity : Nat) (config : VectorStoreConfig) (database : Database F) :
    Option (SimilarLogs Q F) := do
  let (ready, store) ← open_ sp sq { config := config, database := database }
  return {
    sink := { buffer := LogBuffer.new capacity, vectorStoreReady := ready }
    store := store }

def hitOf (query : List F) (item : Item F) : SimilarHit Q R :=
  let result := resultOf sp query item
  ⟨ext.fromStdString result.logId, ext.fromStdString result.metadata, result.distance,
    similarity result.distance⟩

/-- `DaemonAdaptor::SearchSimilar`; `narrow` is the cast of a `double` to a `float`. -/
def searchSimilar (s : VectorStore F) (embedding : List W) (topK : Nat) :
    Option (VectorStore F × List (SimilarHit Q R)) :=
  if embedding = [] ∨ topK = 0 then some (s, [])
  else do
    let (s, results) ← search sp s (embedding.map narrow) topK
    return (s, results.map fun result =>
      ⟨ext.fromStdString result.logId, ext.fromStdString result.metadata, result.distance,
        similarity result.distance⟩)

inductive Action (W : Type) where
  /-- `store_embedding` up to the call of `insert`. -/
  | output (entry : LogEntry)
  /-- One of the waiting calls. -/
  | insert (i : Nat)
  | searchSimilar (embedding : List W) (topK : Nat)

def step (s : SimilarLogs Q F) : Action W → Option (SimilarLogs Q F)
  | .output entry => do
      let sink ← storeEmbedding ext s.sink entry
      let called := sink.inserted.drop s.sink.inserted.length
      return { s with sink := sink, waiting := s.waiting ++ called.map insertedItem }
  | .insert i => do
      let item ← s.waiting[i]?
      let (_, store) ← VectorStore.insert sp sq s.store item
      return { s with store := store, waiting := s.waiting.eraseIdx i }
  | .searchSimilar embedding topK => do
      let (store, _) ← searchSimilar ext sp narrow similarity s.store embedding topK
      return { s with store := store }

/-- A row that the store was opened with, or an item of an entry. -/
def Known (rows : List (Row F)) (s : Sink Q F) (item : Item F) : Prop :=
  (∃ row ∈ rows, item = loadedItem row) ∨ item ∈ s.inserted.map insertedItem

/-- All that is live or waits is known. -/
structure Sound (rows : List (Row F)) (s : SimilarLogs Q F) : Prop where
  store : HoldsOnly (Known rows s.sink) s.store ∨
    s.sink.vectorStoreReady = false ∧ s.store.index = none
  waiting : ∀ item ∈ s.waiting, item ∈ s.sink.inserted.map insertedItem
  ready : s.sink.vectorStoreReady = false → s.sink.inserted = []

variable {rows : List (Row F)} {s t : SimilarLogs Q F}

theorem start_sound {capacity : Nat} {config : VectorStoreConfig} {database : Database F}
    (hmax : config.maxElements ≤ wordBound32)
    (hstart : start sp sq capacity config database = some s) :
    Sound database.table.rows s ∧ s.sink.inserted = [] ∧ s.sink.entryCounter = 0 := by
  obtain ⟨ready, store, hopen, hstore⟩ := open_holdsOnly sp sq
    (s := { config := config, database := database }) rfl rfl hmax
    (p := Known database.table.rows ({ buffer := LogBuffer.new capacity } : Sink Q F))
    fun row hrow => .inl ⟨row, hrow, rfl⟩
  rw [start, hopen] at hstart
  obtain rfl := Option.some.inj hstart
  exact ⟨⟨hstore, fun _ hitem => absurd hitem List.not_mem_nil, fun _ => rfl⟩, rfl, rfl⟩

/-- A call of `store_embedding` hands over one item at most, and none to a store that could not be
opened. -/
theorem storeEmbedding_inserted {a b : Sink Q F} {entry : LogEntry}
    (hstore : storeEmbedding ext a entry = some b) :
    b.vectorStoreReady = a.vectorStoreReady ∧ a.inserted <+: b.inserted ∧
      (a.vectorStoreReady = false → b.inserted = a.inserted) := by
  unfold storeEmbedding at hstore
  split at hstore
  · rename_i hready
    split at hstore
    · rw [← Option.some.inj hstore]
      exact ⟨rfl, List.prefix_rfl, fun _ => rfl⟩
    · simp only [Option.bind_eq_bind, Option.bind_eq_some_iff] at hstore
      obtain ⟨metadata, -, hstore⟩ := hstore
      rw [← Option.some.inj hstore]
      exact ⟨rfl, List.prefix_append _ _, fun hnot => absurd (hready.symm.trans hnot) (by simp)⟩
  · rw [← Option.some.inj hstore]
    exact ⟨rfl, List.prefix_rfl, fun _ => rfl⟩

theorem Sound.output (h : Sound rows s) {entry : LogEntry}
    (hstep : step ext sp sq narrow similarity s (.output entry) = some t) : Sound rows t := by
  simp only [step, Option.bind_eq_bind, Option.bind_eq_some_iff] at hstep
  obtain ⟨sink, hsink, hstep⟩ := hstep
  obtain rfl := Option.some.inj hstep
  obtain ⟨hready, hgrown, hsame⟩ := storeEmbedding_inserted ext hsink
  have hmono : ∀ item ∈ s.sink.inserted.map insertedItem,
      item ∈ sink.inserted.map insertedItem := by
    obtain ⟨called, hcalled⟩ := hgrown
    rw [← hcalled, List.map_append]
    exact fun _ hitem => List.mem_append_left _ hitem
  refine ⟨?_, fun item hitem => ?_, fun hnot => ?_⟩
  · exact h.store.imp (fun hstore => hstore.mono fun item hitem => hitem.imp_right (hmono item))
      fun hnone => ⟨hready.trans hnone.1, hnone.2⟩
  · rcases List.mem_append.mp hitem with hitem | hitem
    · exact hmono item (h.waiting item hitem)
    · rw [List.map_drop] at hitem
      exact List.mem_of_mem_drop hitem
  · rw [hready] at hnot
    rw [hsame hnot]
    exact h.ready hnot

theorem Sound.insert (h : Sound rows s) {i : Nat}
    (hstep : step ext sp sq narrow similarity s (.insert i) = some t) : Sound rows t := by
  simp only [step, Option.bind_eq_bind, Option.bind_eq_some_iff] at hstep
  obtain ⟨item, hitem, ⟨ok, store⟩, hinsert, hstep⟩ := hstep
  obtain rfl := Option.some.inj hstep
  have hmem := h.waiting item (List.mem_of_getElem? hitem)
  refine ⟨?_, fun other hother => h.waiting other (List.mem_of_mem_eraseIdx hother), h.ready⟩
  rcases h.store with hstore | ⟨hready, -⟩
  · obtain ⟨done, u, heq, hu, -⟩ := hstore.insertLocked sp sq (.inr hmem) true
    rw [VectorStore.insert, heq] at hinsert
    obtain ⟨-, rfl⟩ := Prod.mk.inj (Option.some.inj hinsert)
    exact .inl hu
  · rw [h.ready hready] at hmem
    exact absurd hmem List.not_mem_nil

/-- Every call of `SearchSimilar` is answered, with known items. -/
theorem Sound.searchSimilar [Preorder R] (hsqrt : Monotone sp.sqrt) (h : Sound rows s)
    (embedding : List W) (topK : Nat) :
    ∃ store found, searchSimilar ext sp narrow similarity s.store embedding topK =
        some (store, found.map (hitOf ext sp similarity (embedding.map narrow))) ∧
      Reports sp (Known rows s.sink) (embedding.map narrow) topK found ∧
      Sound rows { s with store := store } := by
  have hnil : Reports sp (Known rows s.sink) (embedding.map narrow) topK [] :=
    ⟨Nat.zero_le _, .nil, .nil, fun _ hitem => absurd hitem List.not_mem_nil⟩
  unfold SimilarLogs.searchSimilar
  split
  · exact ⟨s.store, [], rfl, hnil, h⟩
  · rcases h.store with hstore | ⟨hready, hnone⟩
    · obtain ⟨store, found, hsearch, hreports, hholds⟩ :=
        hstore.search sp hsqrt (embedding.map narrow) topK
      refine ⟨store, found, ?_, hreports, ⟨.inl hholds, h.waiting, h.ready⟩⟩
      rw [hsearch, Option.bind_eq_bind, Option.bind_some]
      dsimp only
      rw [List.map_map]
      rfl
    · refine ⟨s.store, [], ?_, hnil, h⟩
      rw [search, hnone]
      rfl

/-- The step lemma. -/
theorem Sound.step [Preorder R] (hsqrt : Monotone sp.sqrt) (h : Sound rows s) {action : Action W}
    (hstep : step ext sp sq narrow similarity s action = some t) : Sound rows t := by
  cases action with
  | output entry => exact h.output ext sp sq narrow similarity hstep
  | insert i => exact h.insert ext sp sq narrow similarity hstep
  | searchSimilar embedding topK =>
      obtain ⟨store, found, hsearch, -, hsound⟩ :=
        h.searchSimilar ext sp narrow similarity hsqrt embedding topK
      rw [SimilarLogs.step, hsearch] at hstep
      exact Option.some.inj hstep ▸ hsound

end SimilarLogs

end LogMind
