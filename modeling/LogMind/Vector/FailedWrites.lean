import LogMind.Vector.StoreLifecycle

/-!
# Inserts that fail

An insert changes the maps and the index before it writes the row, so an insert whose
row cannot be written has changed them already. A batch counts its items before
`COMMIT`, which may fail as well. `Unchanged` is what a failed insert ought to leave
alone, and `Survives` says which items of a batch ought to be in the table at its end.
-/

namespace LogMind

open KeyedQueue

namespace Database

variable {F : Type} (sq : Sqlite F)

end Database

namespace VectorStore

variable {F D R : Type} [LinearOrder D] (sp : Space (List F) D R) (sq : Sqlite F)
variable {s t u : VectorStore F} {slots older younger : List (Item F)} {item other : Item F}
  {ok : Bool}

/-- The row of the item is to be written, and SQLite fails. -/
def FailsToWrite (s : VectorStore F) (item : Item F) : Prop :=
  s.Tries item ∧ s.config.persist = true ∧ sq.ok s.database.executed = false

theorem writeRow_of_open (hopen : s.isOpen = true) (item : Item F) :
    writeRow sq s item true =
      if s.config.persist then
        ((s.database.writeRow sq item.logId item.embedding item.metadata).1,
          s.withDatabase (s.database.writeRow sq item.logId item.embedding item.metadata).2)
      else (true, s) := by
  unfold writeRow
  rw [hopen]
  cases s.config.persist <;> rfl

section Batches

/-- The log ids of the items are bound as they are. -/
def BoundIds (items : List (Item F)) : Prop :=
  ∀ item ∈ items, Database.bindText item.logId = item.logId

theorem BoundIds.put {items : List (Item F)} (h : BoundIds items)
    (hitem : Database.bindText item.logId = item.logId) :
    BoundIds (put Item.logId items item) := by
  intro other hother
  rcases List.mem_append.mp hother with hother | hother
  · exact h other (mem_erase.mp hother).1
  · rw [List.mem_singleton.mp hother]
    exact hitem

end Batches

/-- The statement with this number fails. -/
def failsAt (n : Nat) : Sqlite Int := ⟨fun k => k != n, id⟩

end VectorStore

end LogMind
