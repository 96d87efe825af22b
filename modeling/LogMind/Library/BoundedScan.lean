import Mathlib.Data.List.Basic

/-!
# Scans that stop at a limit

`collect limit f xs acc` walks through `xs`, appends what `f` yields to the
accumulator and stops as soon as the accumulator holds `limit` elements. It is
the first `limit` elements of the scan without a limit, also when several scans
follow each other on one accumulator.
-/

namespace BoundedScan

variable {α β γ : Type*}

def collect (limit : ℕ) (f : α → Option β) : List α → List β → List β
  | [], acc => acc
  | x :: xs, acc =>
      if acc.length < limit then collect limit f xs (acc ++ (f x).toList) else acc

/-- The accumulator with everything the remaining scan may still add. -/
theorem collect_eq (limit : ℕ) (f : α → Option β) (xs : List α) (acc : List β)
    (hacc : acc.length ≤ limit) :
    collect limit f xs acc = (acc ++ xs.filterMap f).take limit := by
  induction xs generalizing acc with
  | nil => simp [collect, List.take_of_length_le hacc]
  | cons x xs ih =>
      by_cases hlt : acc.length < limit
      · have hnext : (acc ++ (f x).toList).length ≤ limit := by
          cases f x <;> simp <;> omega
        rw [collect, if_pos hlt, ih _ hnext]
        cases hx : f x <;> simp [hx]
      · have hfull : acc.length = limit := by omega
        rw [collect, if_neg hlt, ← hfull]
        simp

theorem collect_length_le (limit : ℕ) (f : α → Option β) (xs : List α) (acc : List β)
    (hacc : acc.length ≤ limit) : (collect limit f xs acc).length ≤ limit := by
  rw [collect_eq limit f xs acc hacc, List.length_take]
  exact Nat.min_le_left _ _

/-- Cutting a prefix to the limit first does not change what fits in it. -/
theorem take_take_append (limit : ℕ) (xs ys : List β) :
    (xs.take limit ++ ys).take limit = (xs ++ ys).take limit := by
  by_cases h : xs.length ≤ limit
  · rw [List.take_of_length_le h]
  · have hlen : (xs.take limit).length = limit := by simp; omega
    rw [List.take_append_of_le_length (by omega), List.take_append_of_le_length (by omega),
      List.take_take, Nat.min_self]

/-- One scan per block, all on one accumulator. -/
def collectBlocks (limit : ℕ) (f : α → Option β) (g : γ → List α) : List γ → List β → List β
  | [], acc => acc
  | b :: bs, acc =>
      if acc.length < limit then collectBlocks limit f g bs (collect limit f (g b) acc)
      else acc

theorem collectBlocks_eq (limit : ℕ) (f : α → Option β) (g : γ → List α) (bs : List γ)
    (acc : List β) (hacc : acc.length ≤ limit) :
    collectBlocks limit f g bs acc = (acc ++ (bs.flatMap g).filterMap f).take limit := by
  induction bs generalizing acc with
  | nil => simp [collectBlocks, List.take_of_length_le hacc]
  | cons b bs ih =>
      by_cases hlt : acc.length < limit
      · have hnext := collect_length_le limit f (g b) acc hacc
        rw [collectBlocks, if_pos hlt, ih _ hnext, collect_eq limit f (g b) acc hacc,
          take_take_append, List.flatMap_cons, List.filterMap_append, List.append_assoc]
      · have hfull : acc.length = limit := by omega
        rw [collectBlocks, if_neg hlt, ← hfull]
        simp

end BoundedScan
