import Mathlib.Algebra.BigOperators.Fin

/-!
# Splitting a list by a key

`onKey key k xs` keeps the elements of `xs` with the key `k`, in their order.
With finitely many keys the parts have together the length of the list, and a
part by a coarser key contains the parts by a finer one.
-/

namespace Keyed

variable {α κ ι : Type*} [DecidableEq κ] [DecidableEq ι]

def onKey (key : α → κ) (k : κ) (xs : List α) : List α := xs.filter fun x => key x = k

@[simp] theorem onKey_nil (key : α → κ) (k : κ) : onKey key k [] = [] := rfl

@[simp] theorem onKey_append (key : α → κ) (k : κ) (xs ys : List α) :
    onKey key k (xs ++ ys) = onKey key k xs ++ onKey key k ys := List.filter_append ..

/-- The parts by all keys have together the length of the list. -/
theorem sum_length_onKey [Fintype κ] (key : α → κ) (xs : List α) :
    ∑ k, (onKey key k xs).length = xs.length := by
  induction xs with
  | nil => simp
  | cons x xs ih =>
      have hcons : ∀ k, (onKey key k (x :: xs)).length =
          (if key x = k then 1 else 0) + (onKey key k xs).length := by
        intro k
        by_cases h : key x = k
        · simp [onKey, h, Nat.add_comm]
        · simp [onKey, h]
      simp only [hcons, Finset.sum_add_distrib, ih, Finset.sum_ite_eq, Finset.mem_univ,
        if_true, List.length_cons]
      omega

/-- A part by a finer key is read off the part by a coarser one. -/
theorem onKey_onKey_of_factor (key : α → κ) (coarse : κ → ι) (k : κ) (xs : List α) :
    onKey key k (onKey (fun x => coarse (key x)) (coarse k) xs) = onKey key k xs := by
  rw [onKey, onKey, onKey, List.filter_filter]
  apply List.filter_congr
  intro x _
  by_cases h : key x = k <;> simp [h]

end Keyed
