import Mathlib.Data.List.Basic

/-!
# Checked writes

A write through an index that is out of range gives `none`, as a read by `xs[i]?`
does, so that a result `some` says that every index on the way was in range.
-/

namespace Checked

variable {α : Type*}

def setAt (xs : List α) (i : ℕ) (a : α) : Option (List α) :=
  if i < xs.length then some (xs.set i a) else none

theorem setAt_of_lt {xs : List α} {i : ℕ} (h : i < xs.length) (a : α) :
    setAt xs i a = some (xs.set i a) := if_pos h

theorem setAt_eq_some {xs ys : List α} {i : ℕ} {a : α} (h : setAt xs i a = some ys) :
    ys = xs.set i a := by
  rw [setAt] at h
  split at h
  · exact (Option.some.inj h).symm
  · cases h

/-- `std::vector::resize`. -/
def resize (n : ℕ) (fill : α) (xs : List α) : List α :=
  xs.take n ++ List.replicate (n - xs.length) fill

/-- Growing by one. -/
theorem resize_succ (fill : α) (xs : List α) :
    resize (xs.length + 1) fill xs = xs ++ [fill] := by
  simp [resize, List.take_of_length_le]

theorem length_resize {n : ℕ} {xs : List α} (fill : α) (h : xs.length ≤ n) :
    (resize n fill xs).length = n := by
  rw [resize, List.take_of_length_le h, List.length_append, List.length_replicate]
  omega

theorem mem_resize {n : ℕ} {fill a : α} {xs : List α} (h : a ∈ resize n fill xs) :
    a ∈ xs ∨ a = fill := by
  rcases List.mem_append.mp h with htake | hfill
  · exact Or.inl (List.mem_of_mem_take htake)
  · exact Or.inr (List.eq_of_mem_replicate hfill)

theorem resize_replicate {m n : ℕ} (fill : α) (h : m ≤ n) :
    resize n fill (List.replicate m fill) = List.replicate n fill := by
  have hlength : (List.replicate m fill).length ≤ n := by
    rw [List.length_replicate]
    exact h
  rw [resize, List.take_of_length_le hlength, List.length_replicate, ← List.replicate_add,
    Nat.add_sub_cancel' h]

/-- Reads that are all in range. -/
theorem mapM_eq_map {β : Type*} {f : α → Option β} {g : α → β} {xs : List α}
    (h : ∀ x ∈ xs, f x = some (g x)) : xs.mapM f = some (xs.map g) := by
  induction xs with
  | nil => rfl
  | cons x xs ih =>
      rw [List.mapM_cons, h x List.mem_cons_self, ih fun y hy => h y (List.mem_cons_of_mem x hy)]
      rfl

end Checked
