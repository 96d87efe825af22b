import Mathlib.Data.List.Pairwise
import Mathlib.Order.Basic

/-!
# Counters that are read one after the other

Some counters only grow. A reader takes their values one by one, while others go on counting, so
what it has read need never have been the values at one time. `Fit` says what the readings still
tell: each is the value at a moment of its own, the moments follow each other, and a law of the
counters holds at each of them.
-/

namespace Readings

variable {κ ν : Type*} [Preorder ν]

/-- The values at the moments of the readings. -/
structure Moments (law : (κ → ν) → Prop) (now : κ → ν) (moments : List (κ × (κ → ν))) : Prop where
  law : ∀ m ∈ moments, law m.2
  le_now : ∀ m ∈ moments, m.2 ≤ now
  ordered : moments.Pairwise fun m m' => m.2 ≤ m'.2

/-- What is read of a counter at a moment. -/
def reading (m : κ × (κ → ν)) : κ × ν := (m.1, m.2 m.1)

/-- The readings were made one after the other, up to now. -/
def Fit (law : (κ → ν) → Prop) (now : κ → ν) (readings : List (κ × ν)) : Prop :=
  ∃ moments, Moments law now moments ∧ readings = moments.map reading

variable {law : (κ → ν) → Prop} {now next : κ → ν} {readings taken : List (κ × ν)}

theorem Fit.nil (law : (κ → ν) → Prop) (now : κ → ν) : Fit law now [] :=
  ⟨[], ⟨nofun, nofun, .nil⟩, rfl⟩

/-- The counters grow. -/
theorem Fit.grow (h : Fit law now readings) (hle : now ≤ next) : Fit law next readings := by
  obtain ⟨moments, hmoments, rfl⟩ := h
  exact ⟨moments, ⟨hmoments.law, fun m hm => (hmoments.le_now m hm).trans hle, hmoments.ordered⟩,
    rfl⟩

/-- Some counters are read at once. -/
theorem Fit.read (h : Fit law now readings) (hlaw : law now) (counters : List κ) :
    Fit law now (readings ++ counters.map fun k => (k, now k)) := by
  obtain ⟨moments, hmoments, rfl⟩ := h
  have hnew : ∀ m ∈ counters.map fun k => (k, now), m.2 = now := by
    rintro m hm
    obtain ⟨k, -, rfl⟩ := List.mem_map.mp hm
    rfl
  refine ⟨moments ++ counters.map fun k => (k, now), ⟨?_, ?_, ?_⟩, ?_⟩
  · intro m hm
    rcases List.mem_append.mp hm with hm | hm
    · exact hmoments.law m hm
    · rw [hnew m hm]
      exact hlaw
  · intro m hm
    rcases List.mem_append.mp hm with hm | hm
    · exact hmoments.le_now m hm
    · exact (hnew m hm).le
  · refine List.pairwise_append.mpr ⟨hmoments.ordered, ?_, fun m hm m' hm' => ?_⟩
    · exact List.pairwise_map.mpr (List.pairwise_of_forall fun _ _ => le_refl now)
    · rw [hnew m' hm']
      exact hmoments.le_now m hm
  · rw [List.map_append, List.map_map]
    rfl

/-- What is left when readings are forgotten. -/
theorem Fit.sublist (h : Fit law now readings) (hsub : taken.Sublist readings) :
    Fit law now taken := by
  obtain ⟨moments, hmoments, rfl⟩ := h
  obtain ⟨kept, hkept, rfl⟩ := List.sublist_map_iff.mp hsub
  exact ⟨kept, ⟨fun m hm => hmoments.law m (hkept.subset hm),
    fun m hm => hmoments.le_now m (hkept.subset hm), hmoments.ordered.sublist hkept⟩, rfl⟩

variable {k l j : κ} {a b c : ν}

end Readings
