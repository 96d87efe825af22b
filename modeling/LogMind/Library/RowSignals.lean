import Mathlib.Data.List.Basic

/-!
# Signals about the rows of a list

A list tells its observers which of its rows have changed, and an observer keeps a copy of the
rows by them. The observer reads the new rows from the list itself when it is told, and takes a
signal only if the rows it names are there.
-/

namespace RowSignals

variable {α : Type*}

inductive Change where
  /-- The rows from `first` to `last` are new. -/
  | inserted (first last : Nat)
  /-- The rows from `first` to `last` are gone. -/
  | removed (first last : Nat)
  | reset
  deriving DecidableEq

/-- The copy behind a signal, with the list as it is when the signal is received. -/
def receive (copy list : List α) : Change → Option (List α)
  | .inserted first last =>
      if first ≤ last ∧ first ≤ copy.length ∧ list.length = copy.length + (last - first + 1) then
        some (copy.take first ++ (list.drop first).take (last - first + 1) ++ copy.drop first)
      else none
  | .removed first last =>
      if first ≤ last ∧ last < copy.length ∧ list.length + (last - first + 1) = copy.length then
        some (copy.take first ++ copy.drop (last + 1))
      else none
  | .reset => some list

/-- New rows behind the last one. -/
theorem receive_appended (rows : List α) {new : List α} (hnew : new ≠ []) :
    receive rows (rows ++ new) (.inserted rows.length (rows.length + new.length - 1)) =
      some (rows ++ new) := by
  have hpos := List.length_pos_of_ne_nil hnew
  have hcount : rows.length + new.length - 1 - rows.length + 1 = new.length := by omega
  rw [receive, hcount, if_pos ⟨by omega, Nat.le_refl _, List.length_append⟩, List.take_length,
    List.drop_left, List.take_length, List.drop_length, List.append_nil]

/-- The first rows are gone. -/
theorem receive_dropped {rows : List α} {count : Nat} (hpos : 0 < count)
    (hle : count ≤ rows.length) :
    receive rows (rows.drop count) (.removed 0 (count - 1)) = some (rows.drop count) := by
  have hlength : (rows.drop count).length + (count - 1 - 0 + 1) = rows.length := by
    rw [List.length_drop]
    omega
  rw [receive, if_pos ⟨by omega, by omega, hlength⟩, List.take_zero, List.nil_append,
    Nat.sub_add_cancel hpos]

end RowSignals
