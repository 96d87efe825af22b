import Mathlib.Data.List.Basic
import Mathlib.Logic.Function.Basic

/-!
# Reference counts

A pool counts the references to its objects. `allocate` makes an object with one
reference, `acquire` copies one, and `release` drops one and destroys the object with
the last of them. `Sound` says that the counts are those of the holders: then an object
is destroyed as soon as nobody holds it, not earlier and only once. A copy needs a
holder to copy from; that is the only condition.
-/

namespace RefCount

variable {κ : Type*} [DecidableEq κ]

structure Pool (κ : Type*) where
  refs : κ → Nat
  /-- The objects that exist. -/
  live : List κ := []
  /-- The objects that were destroyed, in this order. -/
  destroyed : List κ := []

namespace Pool

/-- A new object, held once. -/
def allocate (p : Pool κ) (k : κ) : Pool κ :=
  { p with refs := Function.update p.refs k 1, live := k :: p.live }

def acquire (p : Pool κ) (k : κ) : Pool κ :=
  { p with refs := Function.update p.refs k (p.refs k + 1) }

/-- The last release destroys the object. -/
def release (p : Pool κ) (k : κ) : Pool κ :=
  if p.refs k = 1 then
    { refs := Function.update p.refs k 0
      live := p.live.erase k
      destroyed := p.destroyed ++ [k] }
  else { p with refs := Function.update p.refs k (p.refs k - 1) }

def acquireAll (p : Pool κ) (ks : List κ) : Pool κ := ks.foldl acquire p

def releaseAll (p : Pool κ) (ks : List κ) : Pool κ := ks.foldl release p

/-- The counts are those of the holders, and what was created lives or was destroyed. -/
structure Sound (p : Pool κ) (created : κ → Prop) (holders : List κ) : Prop where
  counts : ∀ k, p.refs k = holders.count k
  live_nodup : p.live.Nodup
  mem_live : ∀ k, k ∈ p.live ↔ k ∈ holders
  held : ∀ k ∈ holders, created k
  destroyed_nodup : p.destroyed.Nodup
  mem_destroyed : ∀ k, k ∈ p.destroyed ↔ created k ∧ k ∉ holders

variable {p : Pool κ} {created : κ → Prop} {holders holders' : List κ} {k : κ}

/-- The order of the holders does not matter. -/
theorem Sound.perm (h : p.Sound created holders) (hperm : holders.Perm holders') :
    p.Sound created holders' where
  counts k := (h.counts k).trans (hperm.count_eq k)
  live_nodup := h.live_nodup
  mem_live k := (h.mem_live k).trans hperm.mem_iff
  held k hk := h.held k (hperm.mem_iff.mpr hk)
  destroyed_nodup := h.destroyed_nodup
  mem_destroyed k := by rw [h.mem_destroyed, hperm.mem_iff]

theorem Sound.allocate (h : p.Sound created holders) (hk : ¬ created k) :
    (p.allocate k).Sound (fun i => created i ∨ i = k) (k :: holders) where
  counts i := by
    have hzero : holders.count k = 0 := List.count_eq_zero.mpr fun hmem => hk (h.held k hmem)
    show Function.update p.refs k 1 i = _
    by_cases hi : i = k
    · subst hi
      rw [Function.update_self, List.count_cons_self, hzero]
    · rw [Function.update_of_ne hi, List.count_cons_of_ne (Ne.symm hi)]
      exact h.counts i
  live_nodup := List.nodup_cons.mpr
    ⟨fun hmem => hk (h.held k ((h.mem_live k).mp hmem)), h.live_nodup⟩
  mem_live i := by
    show i ∈ k :: p.live ↔ i ∈ k :: holders
    rw [List.mem_cons, List.mem_cons, h.mem_live]
  held i hi := by
    rcases List.mem_cons.mp hi with hi | hi
    · exact .inr hi
    · exact .inl (h.held i hi)
  destroyed_nodup := h.destroyed_nodup
  mem_destroyed i := by
    rw [List.mem_cons, not_or]
    refine (h.mem_destroyed i).trans ⟨fun ⟨hcreated, hnot⟩ => ⟨.inl hcreated, ?_, hnot⟩,
      fun ⟨hcreated, hne, hnot⟩ => ⟨hcreated.resolve_right hne, hnot⟩⟩
    rintro rfl
    exact hk hcreated

/-- A copy is made from a holder. -/
theorem Sound.acquire (h : p.Sound created holders) (hk : k ∈ holders) :
    (p.acquire k).Sound created (k :: holders) where
  counts i := by
    show Function.update p.refs k (p.refs k + 1) i = _
    by_cases hi : i = k
    · subst hi
      rw [Function.update_self, List.count_cons_self, h.counts]
    · rw [Function.update_of_ne hi, List.count_cons_of_ne (Ne.symm hi)]
      exact h.counts i
  live_nodup := h.live_nodup
  mem_live i := by
    refine (h.mem_live i).trans ⟨List.mem_cons_of_mem k, fun hi => ?_⟩
    rcases List.mem_cons.mp hi with rfl | hi
    · exact hk
    · exact hi
  held i hi := by
    rcases List.mem_cons.mp hi with rfl | hi
    · exact h.held i hk
    · exact h.held i hi
  destroyed_nodup := h.destroyed_nodup
  mem_destroyed i := by
    refine (h.mem_destroyed i).trans (and_congr_right fun _ => not_congr ?_)
    refine ⟨List.mem_cons_of_mem k, fun hi => ?_⟩
    rcases List.mem_cons.mp hi with rfl | hi
    · exact hk
    · exact hi

theorem Sound.release (h : p.Sound created (k :: holders)) :
    (p.release k).Sound created holders := by
  have hcount : p.refs k = holders.count k + 1 := (h.counts k).trans List.count_cons_self
  have hother : ∀ i ≠ k, p.refs i = holders.count i :=
    fun i hi => (h.counts i).trans (List.count_cons_of_ne (Ne.symm hi))
  have hcreated := h.held k List.mem_cons_self
  unfold Pool.release
  split
  case isTrue hlast =>
    have hnone : k ∉ holders := List.count_eq_zero.mp (by omega)
    refine ⟨fun i => ?_, h.live_nodup.erase k, fun i => ?_,
      fun i hi => h.held i (List.mem_cons_of_mem k hi), ?_, fun i => ?_⟩
    · show Function.update p.refs k 0 i = _
      by_cases hi : i = k
      · subst hi
        rw [Function.update_self, List.count_eq_zero.mpr hnone]
      · rw [Function.update_of_ne hi]
        exact hother i hi
    · rw [h.live_nodup.mem_erase_iff, h.mem_live, List.mem_cons]
      refine ⟨fun ⟨hne, hor⟩ => hor.resolve_left hne, fun hi => ⟨?_, .inr hi⟩⟩
      rintro rfl
      exact hnone hi
    · refine List.nodup_append.mpr ⟨h.destroyed_nodup, List.pairwise_singleton _ k, ?_⟩
      intro i hi j hj heq
      rw [List.mem_singleton.mp hj] at heq
      subst heq
      exact ((h.mem_destroyed i).mp hi).2 List.mem_cons_self
    · rw [List.mem_append, h.mem_destroyed, List.mem_cons, not_or, List.mem_singleton]
      constructor
      · rintro (⟨hi, -, hnot⟩ | rfl)
        · exact ⟨hi, hnot⟩
        · exact ⟨hcreated, hnone⟩
      · rintro ⟨hi, hnot⟩
        by_cases hk : i = k
        · exact .inr hk
        · exact .inl ⟨hi, hk, hnot⟩
  case isFalse hmore =>
    have hmem : k ∈ holders := List.count_pos_iff.mp (by omega)
    have hsame : ∀ i, i ∈ k :: holders ↔ i ∈ holders := by
      intro i
      rw [List.mem_cons]
      refine ⟨fun hor => hor.elim (fun hi => hi ▸ hmem) id, .inr⟩
    refine ⟨fun i => ?_, h.live_nodup, fun i => (h.mem_live i).trans (hsame i),
      fun i hi => h.held i (List.mem_cons_of_mem k hi), h.destroyed_nodup, fun i => ?_⟩
    · show Function.update p.refs k (p.refs k - 1) i = _
      by_cases hi : i = k
      · subst hi
        rw [Function.update_self, hcount, Nat.add_sub_cancel]
      · rw [Function.update_of_ne hi]
        exact hother i hi
    · rw [h.mem_destroyed, hsame]

theorem Sound.acquireAll (h : p.Sound created holders) {ks : List κ} (hks : ∀ k ∈ ks, k ∈ holders) :
    (p.acquireAll ks).Sound created (ks ++ holders) := by
  induction ks generalizing p holders with
  | nil => exact h
  | cons k ks ih =>
      have hrest := ih (h.acquire (hks k List.mem_cons_self)) fun i hi =>
        List.mem_cons_of_mem k (hks i (List.mem_cons_of_mem k hi))
      exact hrest.perm List.perm_middle

theorem Sound.releaseAll {ks : List κ} (h : p.Sound created (ks ++ holders)) :
    (p.releaseAll ks).Sound created holders := by
  induction ks generalizing p with
  | nil => exact h
  | cons k ks ih => exact ih h.release

/-- Whoever is held has not been destroyed. -/
theorem Sound.not_destroyed (h : p.Sound created holders) (hk : k ∈ holders) :
    k ∉ p.destroyed := fun hmem => ((h.mem_destroyed k).mp hmem).2 hk

end Pool

end RefCount
