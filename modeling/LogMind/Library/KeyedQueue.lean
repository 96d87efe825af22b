import Mathlib.Data.List.Basic
import Mathlib.Data.List.Nodup

/-!
# Queues with keys

A list of elements with keys, oldest first, in which no key occurs twice. `put`
replaces the element with the same key by a new last one and `keepLast` drops
elements from the front until a bound is met. Erasing the keys of a front part
drops it.
-/

namespace KeyedQueue

variable {α κ : Type*} [DecidableEq κ]

def erase (key : α → κ) (k : κ) (xs : List α) : List α := xs.filter fun x => key x ≠ k

def put (key : α → κ) (xs : List α) (x : α) : List α := erase key (key x) xs ++ [x]

/-- How many elements are over a bound; zero stands for no bound. -/
def excess (bound : ℕ) (xs : List α) : ℕ := if bound = 0 then 0 else xs.length - bound

def keepLast (bound : ℕ) (xs : List α) : List α := xs.drop (excess bound xs)

/-- No key occurs twice. -/
def Distinct (key : α → κ) (xs : List α) : Prop := (xs.map key).Nodup

variable {key : α → κ} {xs ys : List α} {x : α} {k : κ}

theorem mem_erase : x ∈ erase key k xs ↔ x ∈ xs ∧ key x ≠ k := by
  simp [erase]

theorem erase_of_not_mem (h : k ∉ xs.map key) : erase key k xs = xs := by
  apply List.filter_eq_self.mpr
  intro x hx
  simp only [ne_eq, decide_not, Bool.not_eq_eq_eq_not, Bool.not_true, decide_eq_false_iff_not]
  rintro rfl
  exact h (List.mem_map_of_mem hx)

theorem mem_put {y : α} : y ∈ put key xs x ↔ (y ∈ xs ∧ key y ≠ key x) ∨ y = x := by
  simp [put, mem_erase]

theorem mem_map_put : k ∈ (put key xs x).map key ↔ k ∈ xs.map key ∨ k = key x := by
  simp only [List.mem_map, mem_put]
  constructor
  · rintro ⟨y, ⟨hy, -⟩ | rfl, rfl⟩
    · exact .inl ⟨y, hy, rfl⟩
    · exact .inr rfl
  · rintro (⟨y, hy, rfl⟩ | rfl)
    · by_cases hkey : key y = key x
      · exact ⟨x, .inr rfl, hkey.symm⟩
      · exact ⟨y, .inl ⟨hy, hkey⟩, rfl⟩
    · exact ⟨x, .inr rfl, rfl⟩

theorem mem_map_erase {j : κ} : j ∈ (erase key k xs).map key ↔ j ∈ xs.map key ∧ j ≠ k := by
  simp only [List.mem_map, mem_erase]
  constructor
  · rintro ⟨y, ⟨hy, hne⟩, rfl⟩
    exact ⟨⟨y, hy, rfl⟩, hne⟩
  · rintro ⟨⟨y, hy, rfl⟩, hne⟩
    exact ⟨y, ⟨hy, hne⟩, rfl⟩

theorem erase_append : erase key k (xs ++ ys) = erase key k xs ++ erase key k ys :=
  List.filter_append ..

/-- The keys that are left, for any list of the keys. -/
theorem perm_map_erase {ks : List κ} (hks : ks.Perm (xs.map key)) (h : Distinct key xs) (k : κ) :
    (ks.erase k).Perm ((erase key k xs).map key) := by
  have hfilter : (erase key k xs).map key = (xs.map key).erase k := by
    rw [List.Nodup.erase_eq_filter h, List.filter_map, erase]
    congr 1
    apply List.filter_congr
    intro x _
    simp [bne, beq_eq_decide]
  rw [hfilter]
  exact hks.erase k

/-- The element with a key is the only one erased with it. -/
theorem erase_middle (h : Distinct key (xs ++ x :: ys)) :
    erase key (key x) (xs ++ x :: ys) = xs ++ ys := by
  rw [Distinct, List.map_append, List.map_cons] at h
  have hmid := (List.nodup_middle.mp h)
  rw [List.nodup_cons, List.mem_append, not_or] at hmid
  rw [erase_append, erase_of_not_mem hmid.1.1]
  congr 1
  have hys : erase key (key x) ys = ys := erase_of_not_mem hmid.1.2
  rw [erase] at hys ⊢
  rw [List.filter_cons_of_neg (by simp), hys]

namespace Distinct

omit [DecidableEq κ] in
theorem nil : Distinct key ([] : List α) := List.nodup_nil

omit [DecidableEq κ] in
theorem sublist (h : Distinct key xs) (hsub : ys.Sublist xs) : Distinct key ys :=
  List.Nodup.sublist (hsub.map key) h

omit [DecidableEq κ] in
/-- A key of the back part does not occur in the front part. -/
theorem apart (h : Distinct key (xs ++ ys)) {y : α} (hy : y ∈ ys) : key y ∉ xs.map key := by
  rw [Distinct, List.map_append, List.nodup_append] at h
  exact fun hmem => h.2.2 _ hmem _ (List.mem_map_of_mem hy) rfl

theorem erase (h : Distinct key xs) (k : κ) : Distinct key (erase key k xs) :=
  h.sublist List.filter_sublist

omit [DecidableEq κ] in
theorem keepLast (h : Distinct key xs) (bound : ℕ) : Distinct key (keepLast bound xs) :=
  h.sublist (List.drop_sublist ..)

omit [DecidableEq κ] in
theorem concat (h : Distinct key xs) (hx : key x ∉ xs.map key) : Distinct key (xs ++ [x]) := by
  rw [Distinct, List.map_append, List.map_singleton, ← List.concat_eq_append]
  exact List.Nodup.concat hx h

theorem put (h : Distinct key xs) (x : α) : Distinct key (put key xs x) := by
  apply (h.erase (key x)).concat
  rw [List.mem_map]
  rintro ⟨y, hy, hkey⟩
  exact (mem_erase.mp hy).2 hkey

end Distinct

theorem excess_eq_zero {bound : ℕ} (h : bound = 0 ∨ xs.length ≤ bound) : excess bound xs = 0 := by
  unfold excess
  split <;> omega

theorem keepLast_of_le {bound : ℕ} (h : bound = 0 ∨ xs.length ≤ bound) :
    keepLast bound xs = xs := by
  rw [keepLast, excess_eq_zero h, List.drop_zero]

theorem length_keepLast_le (bound : ℕ) (h : 0 < bound) : (keepLast bound xs).length ≤ bound := by
  rw [keepLast, List.length_drop, excess, if_neg (by omega)]
  omega

theorem bound_keepLast (bound : ℕ) (xs : List α) :
    bound = 0 ∨ (keepLast bound xs).length ≤ bound := by
  rw [or_iff_not_imp_left]
  exact fun hzero => length_keepLast_le bound (Nat.pos_of_ne_zero hzero)

theorem take_append_keepLast (bound : ℕ) (xs : List α) :
    xs.take (excess bound xs) ++ keepLast bound xs = xs := List.take_append_drop ..

/-- Dropping from the front and then from what is left with more behind it. -/
theorem excess_keepLast_append (bound : ℕ) (xs ys : List α) :
    excess bound (xs ++ ys) = excess bound xs + excess bound (keepLast bound xs ++ ys) := by
  simp only [excess, keepLast, List.length_append, List.length_drop]
  split <;> omega

theorem keepLast_append (bound : ℕ) (xs ys : List α) :
    keepLast bound (keepLast bound xs ++ ys) = keepLast bound (xs ++ ys) := by
  have hle : excess bound xs ≤ xs.length := by
    unfold excess
    split <;> omega
  show _ = (xs ++ ys).drop (excess bound (xs ++ ys))
  rw [excess_keepLast_append bound xs ys, ← List.drop_drop, List.drop_append_of_le_length hle]
  rfl

theorem take_excess_append (bound : ℕ) (xs ys : List α) :
    xs.take (excess bound xs) ++
        (keepLast bound xs ++ ys).take (excess bound (keepLast bound xs ++ ys)) =
      (xs ++ ys).take (excess bound (xs ++ ys)) := by
  have hle : excess bound xs ≤ xs.length := by
    unfold excess
    split <;> omega
  rw [excess_keepLast_append bound xs ys, List.take_add, List.take_append_of_le_length hle,
    List.drop_append_of_le_length hle]
  rfl

/-- The last element is kept, whatever the bound is. -/
theorem mem_keepLast_concat (bound : ℕ) (xs : List α) (x : α) :
    x ∈ keepLast bound (xs ++ [x]) := by
  have hle : excess bound (xs ++ [x]) ≤ xs.length := by
    simp only [excess, List.length_append, List.length_singleton]
    split <;> omega
  rw [keepLast, List.drop_append_of_le_length hle]
  exact List.mem_append_right _ List.mem_cons_self

/-- Erasing the keys of the first elements drops them. -/
theorem erase_take (h : Distinct key xs) (n : ℕ) :
    (xs.take n).foldl (fun ys y => erase key (key y) ys) xs = xs.drop n := by
  induction n generalizing xs with
  | zero => rfl
  | succ n ih =>
      cases xs with
      | nil => rfl
      | cons x xs =>
          have hhead : erase key (key x) ([] ++ x :: xs) = [] ++ xs := erase_middle h
          have htail : Distinct key xs := h.sublist (List.sublist_cons_self x xs)
          rw [List.nil_append, List.nil_append] at hhead
          rw [List.take_succ_cons, List.foldl_cons, hhead, ih htail, List.drop_succ_cons]

/-- Filtering the keys of the first elements out drops them. -/
theorem filter_take (h : Distinct key xs) (n : ℕ) :
    xs.filter (fun x => key x ∉ (xs.take n).map key) = xs.drop n := by
  have hsplit : Distinct key (xs.take n ++ xs.drop n) := by
    rw [List.take_append_drop]
    exact h
  have hgone : (xs.take n).filter (fun x => key x ∉ (xs.take n).map key) = [] := by
    apply List.filter_eq_nil_iff.mpr
    intro x hx
    rw [decide_eq_true_eq, not_not]
    exact List.mem_map_of_mem hx
  have hkept : (xs.drop n).filter (fun x => key x ∉ (xs.take n).map key) = xs.drop n := by
    apply List.filter_eq_self.mpr
    intro x hx
    rw [decide_eq_true_eq]
    exact hsplit.apart hx
  calc xs.filter (fun x => key x ∉ (xs.take n).map key)
      = (xs.take n ++ xs.drop n).filter (fun x => key x ∉ (xs.take n).map key) := by
        rw [List.take_append_drop]
    _ = xs.drop n := by rw [List.filter_append, hgone, hkept, List.nil_append]

end KeyedQueue
