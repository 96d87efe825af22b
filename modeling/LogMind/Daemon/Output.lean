import LogMind.Buffer.LogBuffer

/-!
# The output callback

Every entry that leaves the pipeline goes to the vector store, if a plugin left
an embedding in its fields, and into the log buffer, whose own callback turns it
into the map of the `LogEntryReceived` signal. Nothing here catches, and the
result `none` is an exception that leaves the callback.
-/

namespace LogMind

/-- The values of a `QVariantMap` under the keys of `log_entry_to_varmap`. -/
structure VarMap (Q : Type) where
  source : Q
  raw : Q
  timestamp : Nat
  level : Q
  message : Q
  module : Q
  fields : Q
  tags : Q
  metaJson : Q

/-- The libraries behind the callback: `dump()`, which may throw, the conversion of
`QString`, which does not, and the reading of a JSON number as a `float`. -/
structure External (Q F : Type) where
  dump : Json → Option Bytes
  fromStdString : Bytes → Q
  toFloat : Int → F

variable {Q F : Type}

def logEntryToVarmap (ext : External Q F) (entry : LogEntry) : Option (VarMap Q) := do
  let fields ← ext.dump entry.fields
  let tags ← ext.dump entry.tags
  let metaJson ← ext.dump entry.metaJson
  return {
    source := ext.fromStdString entry.source
    raw := ext.fromStdString entry.raw
    timestamp := (entry.timestamp % wordBound).toNat
    level := ext.fromStdString entry.level.name
    message := ext.fromStdString entry.message
    module := ext.fromStdString entry.module
    fields := ext.fromStdString fields
    tags := ext.fromStdString tags
    metaJson := ext.fromStdString metaJson }

/-- What the callback writes to: the buffer, the calls of `VectorStore::insert` and
the queued signals, both oldest first. -/
structure Sink (Q F : Type) where
  buffer : LogBuffer
  vectorStoreReady : Bool := true
  entryCounter : Nat := 0
  inserted : List (Bytes × List F × Bytes) := []
  signals : List (VarMap Q) := []

/-- The numbers under `embedding`; an array with anything else is skipped as a whole. -/
def embeddingOf (fields : Json) : Option (List Int) :=
  if fields.isObject then
    match fields.find (ascii "embedding") with
    | some (.array (item :: items)) =>
        (item :: items).mapM fun
          | .number n => some n
          | _ => none
    | _ => none
  else none

/-- The metadata stored with an embedding. -/
def metadataOf (entry : LogEntry) : Json :=
  .object [(ascii "level", .string entry.level.name), (ascii "message", .string entry.message),
    (ascii "module", .string entry.module), (ascii "source", .string entry.source)]

def storeEmbedding (ext : External Q F) (s : Sink Q F) (entry : LogEntry) :
    Option (Sink Q F) :=
  if s.vectorStoreReady then
    match embeddingOf entry.fields with
    | none => some s
    | some embedding => do
        let logId :=
          ascii (toString entry.timestamp) ++ ascii "-" ++ ascii (toString s.entryCounter)
        let metadata ← ext.dump (metadataOf entry)
        return { s with
          entryCounter := (s.entryCounter + 1) % wordBound
          inserted := s.inserted ++ [(logId, embedding.map ext.toFloat, metadata)] }
  else some s

/-- `LogBuffer::push` with the daemon's entry callback, which runs behind the push. -/
def pushEntry (ext : External Q F) (s : Sink Q F) (entry : LogEntry) : Option (Sink Q F) := do
  let varmap ← logEntryToVarmap ext entry
  return { s with buffer := s.buffer.push entry, signals := s.signals ++ [varmap] }

def outputCallback (ext : External Q F) : Sink Q F → List LogEntry → Option (Sink Q F)
  | s, [] => some s
  | s, entry :: entries => do
      let s ← storeEmbedding ext s entry
      let s ← pushEntry ext s entry
      outputCallback ext s entries

theorem dump_isSome_iff {dump : Json → Option Bytes} (hdump : Json.DumpThrowsIffInvalid dump)
    (j : Json) : (dump j).isSome ↔ j.valid = true := by
  rw [← Option.not_isNone, Bool.not_eq_true', Option.isNone_eq_false_iff, Option.isSome_iff_ne_none,
    Ne, hdump j, Bool.not_eq_false]

/-- The map can be built exactly when the three JSON members are valid. -/
theorem logEntryToVarmap_isSome_iff {ext : External Q F}
    (hdump : Json.DumpThrowsIffInvalid ext.dump) (entry : LogEntry) :
    (logEntryToVarmap ext entry).isSome ↔
      entry.fields.valid = true ∧ entry.tags.valid = true ∧ entry.metaJson.valid = true := by
  rw [← dump_isSome_iff hdump, ← dump_isSome_iff hdump, ← dump_isSome_iff hdump]
  unfold logEntryToVarmap
  cases ext.dump entry.fields <;> cases ext.dump entry.tags <;> cases ext.dump entry.metaJson <;>
    simp

/-- An entry without an embedding passes the callback exactly when the map of its
signal can be built. -/
theorem outputCallback_singleton_isSome_iff {ext : External Q F}
    (hdump : Json.DumpThrowsIffInvalid ext.dump) (s : Sink Q F) {entry : LogEntry}
    (hplain : entry.fields.find (ascii "embedding") = none) :
    (outputCallback ext s [entry]).isSome ↔
      entry.fields.valid = true ∧ entry.tags.valid = true ∧ entry.metaJson.valid = true := by
  have hstore : storeEmbedding ext s entry = some s := by
    simp [storeEmbedding, embeddingOf, hplain]
  rw [← logEntryToVarmap_isSome_iff hdump, outputCallback, hstore]
  simp only [Option.bind_eq_bind, Option.bind_some, outputCallback, pushEntry]
  cases logEntryToVarmap ext entry <;> simp

end LogMind
