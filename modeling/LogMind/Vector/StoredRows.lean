import LogMind.Vector.VectorStore
import LogMind.Library.KeyedQueue

/-!
# The rows of the table

When no statement fails, the rows are a queue with keys as well: `INSERT OR REPLACE`
puts an item and `DELETE` erases one. This needs lengths that survive the `int` of
the bindings.
-/

namespace LogMind

open KeyedQueue

/-- A text that is bound and read back as it is. -/
structure Storable (s : Bytes) : Prop where
  length_lt : s.length < wordBound32
  no_nul : (0 : UInt8) ∉ s

instance (s : Bytes) : Decidable (Storable s) :=
  decidable_of_iff (s.length < wordBound32 ∧ (0 : UInt8) ∉ s)
    ⟨fun h => ⟨h.1, h.2⟩, fun h => ⟨h.1, h.2⟩⟩

namespace Item

variable {F : Type}

/-- An item that a row can hold. -/
structure Fits (item : Item F) : Prop where
  logId : Storable item.logId
  metadata : Storable item.metadata
  /-- Four bytes a number, counted in an `int`. -/
  embedding_lt : item.embedding.length < 536870912

instance (item : Item F) : Decidable item.Fits :=
  decidable_of_iff
    (Storable item.logId ∧ Storable item.metadata ∧ item.embedding.length < 536870912)
    ⟨fun h => ⟨h.1, h.2.1, h.2.2⟩, fun h => ⟨h.1, h.2, h.3⟩⟩

end Item

namespace Row

variable {F : Type}

def item (row : Row F) : Item F := ⟨row.logId, row.embedding, row.metadata⟩

end Row

namespace Database

variable {F : Type} (sq : Sqlite F) {d : Database F} {items : List (Item F)}

/-- The rows in the order of their ids are the items. -/
structure Stored (d : Database F) (items : List (Item F)) : Prop where
  rows : d.table.rows.map Row.item = items
  dimension : ∀ row ∈ d.table.rows, row.dimension = row.embedding.length
  fits : ∀ item ∈ items, item.Fits

theorem bindText_eq {s : Bytes} (h : Storable s) : bindText s = s := by
  have hlt := h.length_lt
  unfold bindText
  dsimp only
  by_cases hsmall : s.length < 2147483648
  · rw [asInt_of_lt hsmall, if_neg (by omega), Int.toNat_natCast, List.take_length]
  · have hneg : asInt s.length < 0 := by
      unfold asInt
      rw [Nat.mod_eq_of_lt hlt, if_neg hsmall]
      unfold wordBound32 at *
      omega
    rw [if_pos hneg, cString_of_no_nul h.no_nul]

theorem bindBlob_eq {embedding : List F} (h : embedding.length < 536870912) :
    bindBlob sq embedding = embedding := by
  have hbytes : embedding.length * 4 % wordBound = embedding.length * 4 := by
    unfold wordBound
    omega
  unfold bindBlob
  dsimp only
  rw [hbytes, asInt_of_lt (by omega), if_neg (by omega)]
  have hall : (((embedding.length * 4 : Nat) : Int)).toNat / 4 = embedding.length := by omega
  rw [hall, List.take_length]

/-- Of some log ids, `DELETE … WHERE log_id = ?` finds the one that is asked for. -/
def Binds (logId : Bytes) (ids : List Bytes) : Prop := ∀ k ∈ ids, k = bindText logId ↔ k = logId

instance (logId : Bytes) (ids : List Bytes) : Decidable (Binds logId ids) :=
  inferInstanceAs (Decidable (∀ k ∈ ids, _))

theorem binds_of_storable {logId : Bytes} (h : Storable logId) (ids : List Bytes) :
    Binds logId ids := fun _ _ => by rw [bindText_eq h]

/-- The bytes of `2 ^ 30` numbers are none in an `int`. -/
theorem bindBlob_wraps {embedding : List F} (h : embedding.length = 1073741824) :
    bindBlob sq embedding = [] := by
  have hbytes : asInt (1073741824 * 4 % wordBound) = 0 := by decide
  unfold bindBlob
  rw [h, hbytes]
  rfl

theorem execute_of_ok (hok : ∀ n, sq.ok n = true) (d : Database F) (f : Table F → Table F) :
    d.execute sq f = (true, { d with table := f d.table, executed := d.executed + 1 }) :=
  if_pos (hok _)

/-- The rows that a deletion leaves. -/
theorem rows_deleteRow (hok : ∀ n, sq.ok n = true) (d : Database F) {k : Bytes}
    (hk : Binds k (d.table.rows.map Row.logId)) :
    (d.deleteRow sq k).2.table.rows = d.table.rows.filter fun row => row.logId ≠ k := by
  unfold deleteRow
  rw [execute_of_ok sq hok]
  apply List.filter_congr
  exact fun row hrow => decide_eq_decide.mpr (not_congr (hk _ (List.mem_map_of_mem hrow)))

/-- The rows without a log id are the items without it. -/
theorem map_filter_rows (rows : List (Row F)) (k : Bytes) :
    (rows.filter fun row => row.logId ≠ k).map Row.item =
      erase Item.logId k (rows.map Row.item) := by
  rw [erase, List.filter_map]
  rfl

namespace Stored

theorem of_empty (h : d.table.rows = []) : Stored d [] := by
  refine ⟨by rw [h]; rfl, fun row hrow => ?_, fun _ hitem => (nomatch hitem)⟩
  rw [h] at hrow
  exact nomatch hrow

theorem writeRow (hok : ∀ n, sq.ok n = true) (h : Stored d items) {item : Item F}
    (hitem : item.Fits) :
    Stored (d.writeRow sq item.logId item.embedding item.metadata).2
      (put Item.logId items item) := by
  unfold Database.writeRow
  rw [execute_of_ok sq hok, bindText_eq hitem.logId, bindText_eq hitem.metadata,
    bindBlob_eq sq hitem.embedding_lt,
    asInt_of_lt (hitem.embedding_lt.trans (by decide))]
  refine ⟨?_, ?_, ?_⟩
  · show (_ ++ [_]).map Row.item = _
    rw [List.map_append, map_filter_rows, h.rows]
    rfl
  · intro row hrow
    rcases List.mem_append.mp hrow with hrow | hrow
    · exact h.dimension row (List.mem_filter.mp hrow).1
    · rw [List.mem_singleton.mp hrow]
  · intro other hother
    rcases List.mem_append.mp hother with hother | hother
    · exact h.fits other (mem_erase.mp hother).1
    · rwa [List.mem_singleton.mp hother]

theorem deleteRow (hok : ∀ n, sq.ok n = true) (h : Stored d items) {k : Bytes}
    (hk : Binds k (items.map Item.logId)) :
    Stored (d.deleteRow sq k).2 (erase Item.logId k items) := by
  have hids : d.table.rows.map Row.logId = items.map Item.logId := by
    rw [← h.rows, List.map_map]
    rfl
  have hrows := rows_deleteRow sq hok d (hids ▸ hk)
  refine ⟨?_, fun row hrow => ?_, fun item hitem => h.fits item (mem_erase.mp hitem).1⟩
  · rw [hrows, map_filter_rows, h.rows]
  · rw [hrows] at hrow
    exact h.dimension row (List.mem_filter.mp hrow).1

theorem deleteAll (hok : ∀ n, sq.ok n = true) : Stored (d.deleteAll sq).2 [] := by
  unfold Database.deleteAll
  rw [execute_of_ok sq hok]
  exact of_empty rfl

/-- Only the rows matter. -/
theorem congr (h : Stored d items) {e : Database F} (hrows : e.table.rows = d.table.rows) :
    Stored e items :=
  ⟨hrows ▸ h.rows, hrows ▸ h.dimension, h.fits⟩

end Stored

end Database

end LogMind
