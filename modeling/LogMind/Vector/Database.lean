import LogMind.Core.Bytes
import Mathlib.Data.List.TakeWhile

/-!
# The database behind the store

The `vectors` table as the statements of the store see it: a list of rows in the
order of their `AUTOINCREMENT` ids. The arguments of a statement are bound with the
lengths the source passes, which are `int`s. Whether a statement succeeds is up to
SQLite.
-/

namespace LogMind

/-- `static_cast<int>` of a `size_t`. -/
def asInt (n : Nat) : Int :=
  if n % wordBound32 < 2147483648 then (n % wordBound32 : Nat)
  else (n % wordBound32 : Nat) - (wordBound32 : Nat)

theorem asInt_of_lt {n : Nat} (h : n < 2147483648) : asInt n = n := by
  unfold asInt wordBound32
  rw [Nat.mod_eq_of_lt (by omega), if_pos h]

/-- The bytes up to the first NUL. -/
def cString (s : Bytes) : Bytes := s.takeWhile (· != 0)

theorem cString_of_no_nul {s : Bytes} (h : (0 : UInt8) ∉ s) : cString s = s := by
  apply List.takeWhile_eq_self_iff.mpr
  intro c hc
  simp only [bne_iff_ne, ne_eq]
  rintro rfl
  exact h hc

structure Row (F : Type) where
  id : Nat
  logId : Bytes
  embedding : List F
  dimension : Int
  metadata : Bytes

structure Table (F : Type) where
  rows : List (Row F) := []
  /-- The last id ever given out. -/
  lastId : Nat := 0

/-- How SQLite answers: the outcome of every statement by its number, and what a blob of
negative length is stored as, which it leaves undefined. -/
structure Sqlite (F : Type) where
  ok : Nat → Bool
  undefinedBlob : List F → List F

structure Database (F : Type) where
  table : Table F := {}
  /-- The table at the start of the open transaction. -/
  transaction : Option (Table F) := none
  /-- How many statements have run. -/
  executed : Nat := 0

namespace Database

variable {F : Type} (sq : Sqlite F)

/-- A statement that changes the table if it succeeds. -/
def execute (d : Database F) (f : Table F → Table F) : Bool × Database F :=
  if sq.ok d.executed then (true, { d with table := f d.table, executed := d.executed + 1 })
  else (false, { d with executed := d.executed + 1 })

theorem transaction_execute (d : Database F) (f : Table F → Table F) :
    (d.execute sq f).2.transaction = d.transaction := by
  unfold execute
  split <;> rfl

theorem table_execute_id (d : Database F) : (d.execute sq id).2.table = d.table := by
  unfold execute
  split <;> rfl

/-- `sqlite3_bind_text`: a negative length means a C string. -/
def bindText (s : Bytes) : Bytes :=
  let n := asInt s.length
  if n < 0 then cString s else s.take n.toNat

/-- `sqlite3_bind_blob` of an array of `float`. -/
def bindBlob (embedding : List F) : List F :=
  let n := asInt (embedding.length * 4 % wordBound)
  if n < 0 then sq.undefinedBlob embedding else embedding.take (n.toNat / 4)

/-- `INSERT OR REPLACE`. -/
def Table.replace (t : Table F) (logId : Bytes) (embedding : List F) (dimension : Int)
    (metadata : Bytes) : Table F where
  rows := t.rows.filter (fun row => row.logId ≠ logId) ++
    [⟨t.lastId + 1, logId, embedding, dimension, metadata⟩]
  lastId := t.lastId + 1

/-- `DELETE … WHERE log_id = ?`. -/
def Table.delete (t : Table F) (logId : Bytes) : Table F :=
  { t with rows := t.rows.filter fun row => row.logId ≠ logId }

def writeRow (d : Database F) (logId : Bytes) (embedding : List F) (metadata : Bytes) :
    Bool × Database F :=
  d.execute sq fun t =>
    Table.replace t (bindText logId) (bindBlob sq embedding) (asInt embedding.length)
      (bindText metadata)

/-- `delete_row`: whether the statement succeeded and changed something. -/
def deleteRow (d : Database F) (logId : Bytes) : Bool × Database F :=
  let (ok, after) := d.execute sq fun t => Table.delete t (bindText logId)
  (ok && after.table.rows.length != d.table.rows.length, after)

theorem transaction_deleteRow (d : Database F) (logId : Bytes) :
    (d.deleteRow sq logId).2.transaction = d.transaction :=
  d.transaction_execute sq fun t => Table.delete t (bindText logId)

/-- `DELETE FROM vectors`. -/
def deleteAll (d : Database F) : Bool × Database F :=
  d.execute sq fun t => { t with rows := [] }

/-- `BEGIN IMMEDIATE`, which fails inside a transaction. -/
def begin_ (d : Database F) : Bool × Database F :=
  let (ok, after) := d.execute sq id
  if ok && d.transaction.isNone then (true, { after with transaction := some d.table })
  else (false, after)

def commit (d : Database F) : Bool × Database F :=
  let (ok, after) := d.execute sq id
  if ok then (true, { after with transaction := none }) else (false, after)

/-- The table goes back to what it was at the start of the transaction. -/
def rollback (d : Database F) : Database F :=
  let (ok, after) := d.execute sq id
  if ok then { after with table := d.transaction.getD d.table, transaction := none } else after

/-- `sqlite3_close`, which rolls an open transaction back. -/
def close (d : Database F) : Database F :=
  { d with table := d.transaction.getD d.table, transaction := none }

end Database

end LogMind
