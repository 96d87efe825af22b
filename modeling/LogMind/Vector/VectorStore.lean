import LogMind.Vector.HNSWIndex
import LogMind.Vector.Database
import LogMind.Library.Transition
import Mathlib.Data.List.AList

/-!
# The vector store

The index in memory, the three maps between its nodes and the log ids, and the
table on disk. A node is never taken out of the index: it becomes a tombstone, with
an empty log id. Reading and trimming go through the same maps.

A result `none` is a null index that is used or an access out of range.
-/

namespace LogMind

structure VectorStoreConfig where
  hnswEfConstruction : Nat := 200
  hnswM : Nat := 16
  hnswEfSearch : Nat := 64
  /-- Zero: the first vector decides. -/
  dim : Nat := 0
  maxElements : Nat := 1000000
  persist : Bool := true
  /-- Zero: nothing is trimmed. -/
  autoTrimThreshold : Nat := 0

structure VectorStore (F : Type) where
  config : VectorStoreConfig
  /-- The file, also while it is closed. -/
  database : Database F := {}
  isOpen : Bool := false
  index : Option (HNSWIndex (List F)) := none
  dim : Nat := 0
  /-- The empty string marks a tombstone. -/
  idToLog : List Bytes := []
  idToMeta : List Bytes := []
  logToId : AList (fun _ : Bytes => Nat) := ∅
  trimCursor : Nat := 0

/-- What an insert gets. -/
structure Item (F : Type) where
  logId : Bytes
  embedding : List F
  metadata : Bytes

/-- What a search gives; the similarity is computed from the distance. -/
structure SearchResult (R : Type) where
  logId : Bytes
  metadata : Bytes
  distance : R

namespace VectorStore

variable {F D R : Type} [LinearOrder D] (sp : Space (List F) D R) (sq : Sqlite F)

/-- `VectorStore::size`. -/
def size (s : VectorStore F) : Nat := s.logToId.keys.length

def newIndex (s : VectorStore F) : HNSWIndex (List F) :=
  HNSWIndex.new s.config.hnswM s.config.hnswEfConstruction

def withDatabase (s : VectorStore F) (database : Database F) : VectorStore F :=
  { s with database := database }

def withCursor (s : VectorStore F) (trimCursor : Nat) : VectorStore F :=
  { s with trimCursor := trimCursor }

def resetIndex (s : VectorStore F) : VectorStore F :=
  { s with
    idToLog := []
    idToMeta := []
    logToId := ∅
    trimCursor := 0
    index := if 0 < s.dim then some s.newIndex else none }

def tombstone (s : VectorStore F) (id : Nat) : VectorStore F :=
  match s.index with
  | none => s
  | some x =>
      if s.idToLog.length ≤ id then s
      else { s with
        index := some (x.markDeleted id)
        idToLog := s.idToLog.set id []
        idToMeta := s.idToMeta.set id [] }

/-- The log id leaves the maps, its node stays as a tombstone. -/
def forget (s : VectorStore F) (logId : Bytes) (id : Nat) : VectorStore F :=
  { s.tombstone id with logToId := s.logToId.erase logId }

/-- `delete_row`: whether a row went. -/
def deleteRow (s : VectorStore F) (logId : Bytes) : Bool × VectorStore F :=
  if s.isOpen then
    let (changed, database) := s.database.deleteRow sq logId
    (changed, s.withDatabase database)
  else (false, s)

/-- The node under the cursor, which moves on; whether it was a live one. -/
def trimNext (s : VectorStore F) : Option (Bool × VectorStore F) := do
  let id := s.trimCursor % wordBound32
  let s := s.withCursor (s.trimCursor + 1)
  let victim ← s.idToLog[id]?
  if victim = [] then return (false, s)
  return (true, (deleteRow sq (s.forget victim id) victim).2)

/-- The `while` of `trim`, with the nodes between the cursor and the end. -/
def trimLoop : Nat → Nat → VectorStore F → Option (VectorStore F)
  | 0, _, s => some s
  | _ + 1, 0, s => some s
  | remaining + 1, excess + 1, s => do
      let (trimmed, s) ← trimNext sq s
      trimLoop remaining (if trimmed then excess else excess + 1) s

def trim (s : VectorStore F) : Option (VectorStore F) :=
  if s.config.autoTrimThreshold = 0 then some s
  else trimLoop sq (s.idToLog.length - s.trimCursor) (s.size - s.config.autoTrimThreshold) s

/-- The dimension and the index after the first vector. -/
def chooseDim (s : VectorStore F) (embedding : List F) : VectorStore F :=
  if s.dim = 0 then { s with dim := embedding.length, index := some s.newIndex } else s

/-- An older node under the log id becomes a tombstone. -/
def dropExisting (s : VectorStore F) (logId : Bytes) : VectorStore F :=
  match s.logToId.lookup logId with
  | some id => s.forget logId id
  | none => s

/-- The new node, behind the last one. -/
def addNode (s : VectorStore F) (item : Item F) : Option (VectorStore F) := do
  let newId := s.idToLog.length % wordBound32
  let x ← s.index
  let x ← HNSWIndex.addPoint sp x newId item.embedding
  return { s with
    index := some x
    idToLog := s.idToLog ++ [item.logId]
    idToMeta := s.idToMeta ++ [item.metadata]
    logToId :=
      if (s.logToId.lookup item.logId).isSome then s.logToId
      else s.logToId.insert item.logId newId }

/-- `write_row`, where rows are to be written at all. -/
def writeRow (s : VectorStore F) (item : Item F) (writeDb : Bool) : Bool × VectorStore F :=
  if writeDb && s.config.persist && s.isOpen then
    let (ok, database) := s.database.writeRow sq item.logId item.embedding item.metadata
    (ok, s.withDatabase database)
  else (true, s)

def insertLocked (s : VectorStore F) (item : Item F) (writeDb : Bool) :
    Option (Bool × VectorStore F) := do
  if item.logId = [] then return (false, s)
  if item.embedding = [] then return (false, s)
  let s := s.chooseDim item.embedding
  if item.embedding.length ≠ s.dim then return (false, s)
  if s.config.maxElements ≤ s.idToLog.length then return (false, s)
  let s ← addNode sp (s.dropExisting item.logId) item
  let (ok, s) := writeRow sq s item writeDb
  if ok then return (true, ← trim sq s)
  return (false, s)

def insert (s : VectorStore F) (item : Item F) : Option (Bool × VectorStore F) :=
  insertLocked sp sq s item true

/-- The loop of `insert_batch`, with the number of accepted items. -/
def insertAll : List (Item F) → Nat → VectorStore F → Option (Nat × VectorStore F)
  | [], ok, s => some (ok, s)
  | item :: items, ok, s => do
      let (accepted, s) ← insertLocked sp sq s item true
      insertAll items (if accepted then ok + 1 else ok) s

/-- `BEGIN IMMEDIATE` where rows are written: whether a transaction was begun. -/
def beginBatch (s : VectorStore F) : Bool × VectorStore F :=
  if s.config.persist && s.isOpen then
    let (ok, database) := s.database.begin_ sq
    (ok, s.withDatabase database)
  else (false, s)

/-- `COMMIT`, and `ROLLBACK` where that fails. -/
def endBatch (s : VectorStore F) : VectorStore F :=
  let (ok, database) := s.database.commit sq
  s.withDatabase (if ok then database else database.rollback sq)

/-- The items of a batch, as many as the shortest of the lists has. -/
def batchItems (logIds : List Bytes) (embeddings : List (List F)) (metadataList : List Bytes) :
    List (Item F) :=
  List.zipWith (fun logId (embedding, metadata) => ⟨logId, embedding, metadata⟩) logIds
    (embeddings.zip metadataList)

def insertBatch (s : VectorStore F) (logIds : List Bytes) (embeddings : List (List F))
    (metadataList : List Bytes) : Option (Nat × VectorStore F) := do
  let items := batchItems logIds embeddings metadataList
  if items.length = 0 then return (0, s)
  let (inTx, s) := beginBatch sq s
  let (ok, s) ← insertAll sp sq items 0 s
  return (ok, if inTx then endBatch sq s else s)

def clear (s : VectorStore F) : VectorStore F :=
  (if s.isOpen then s.withDatabase (s.database.deleteAll sq).2 else s).resetIndex

def remove (s : VectorStore F) (logId : Bytes) : Bool × VectorStore F :=
  let found := (s.logToId.lookup logId).isSome
  let (deleted, s) := deleteRow sq (s.dropExisting logId) logId
  (found || deleted, s)

/-- A row that `load_all` reads; the text columns come back as C strings. A row that was
deleted since the reading began is not seen. -/
def loadRow (s : VectorStore F) (row : Row F) : Option (VectorStore F) := do
  if ¬ (s.database.table.rows.any fun r => r.id = row.id) then return s
  if row.embedding = [] ∨ row.dimension ≤ 0 ∨
      (row.embedding.length * 4 : Nat) ≠ row.dimension * 4 then return s
  let item : Item F := ⟨cString row.logId, row.embedding, cString row.metadata⟩
  return (← insertLocked sp sq s item false).2

/-- The rows as `sqlite3_step` gives them, until it fails. -/
def loadRows : List (Row F) → VectorStore F → Option (VectorStore F)
  | [], s => some s
  | row :: rows, s => do
      let (ok, database) := s.database.execute sq id
      let s := s.withDatabase database
      if ok then loadRows rows (← loadRow sp sq s row)
      else return s

def loadAll (s : VectorStore F) : Option (Bool × VectorStore F) := do
  let s := s.resetIndex
  if ¬ s.isOpen then return (true, s)
  let (ok, database) := s.database.execute sq id
  let s := s.withDatabase database
  if ok then return (true, ← loadRows sp sq s.database.table.rows s)
  return (false, s)

/-- `sqlite3_open`, the pragmas, whose outcome is not asked for, and the preparation of
schema and statements. -/
def connect (s : VectorStore F) : Bool × VectorStore F :=
  let (opened, database) := s.database.execute sq id
  if opened then
    let (_, database) := database.execute sq id
    let (_, database) := database.execute sq id
    let (schema, database) := database.execute sq id
    if schema then
      let (prepared, database) := database.execute sq id
      (prepared, { s with database := database, isOpen := prepared })
    else (false, s.withDatabase database)
  else (false, s.withDatabase database)

def open_ (s : VectorStore F) : Option (Bool × VectorStore F) :=
  if s.isOpen then some (true, s)
  else
    let (ok, s) := connect sq s
    if ok then loadAll sp sq { s with dim := s.config.dim } else some (false, s)

def close (s : VectorStore F) : VectorStore F :=
  { s with
    database := if s.isOpen then s.database.close else s.database
    isOpen := false
    index := none
    idToLog := []
    idToMeta := []
    logToId := ∅
    trimCursor := 0 }

/-- `VectorStore::rebuild_index`. -/
def rebuildIndex (s : VectorStore F) : Option (Bool × VectorStore F) := loadAll sp sq s

/-- A result with the id and the metadata of its node. -/
def searchResult (s : VectorStore F) (hit : R × Nat) : Option (SearchResult R) := do
  let logId ← s.idToLog[hit.2]?
  let metadata ← s.idToMeta[hit.2]?
  return ⟨logId, metadata, hit.1⟩

/-- The results, and the store with the visited marks of its index. -/
def search (s : VectorStore F) (query : List F) (topK : Nat) :
    Option (VectorStore F × List (SearchResult R)) :=
  match s.index with
  | none => some (s, [])
  | some x =>
      if x.size = 0 ∨ query = [] ∨ topK = 0 ∨ query.length ≠ s.dim then some (s, [])
      else do
        let (x, hits) ← HNSWIndex.searchKnn sp x query topK s.config.hnswEfSearch
        let results ← hits.mapM (searchResult s)
        return ({ s with index := some x }, results)

/-- A call that changes the contents. -/
inductive Call (F : Type) where
  | insert (item : Item F)
  | insertBatch (logIds : List Bytes) (embeddings : List (List F)) (metadataList : List Bytes)
  | remove (logId : Bytes)
  | clear

def call (s : VectorStore F) : Call F → Option (VectorStore F)
  | .insert item => (insert sp sq s item).map Prod.snd
  | .insertBatch logIds embeddings metadataList =>
      (insertBatch sp sq s logIds embeddings metadataList).map Prod.snd
  | .remove logId => some (remove sq s logId).2
  | .clear => some (clear sq s)

/-- Everything that a store can be asked for. -/
inductive Action (F : Type) where
  | open_
  | close
  | rebuildIndex
  | search (query : List F) (topK : Nat)
  | call (c : Call F)

def step (s : VectorStore F) : Action F → Option (VectorStore F)
  | .open_ => (open_ sp sq s).map Prod.snd
  | .close => some s.close
  | .rebuildIndex => (rebuildIndex sp sq s).map Prod.snd
  | .search query topK => (search sp s query topK).map Prod.fst
  | .call c => call sp sq s c

end VectorStore

end LogMind
