import Mathlib.Data.List.TakeWhile

/-!
# Sliding windows

A queue of times, oldest first. A new time goes to its back, and what the time puts out of the
window is popped off its front. While the times do not go back, the queue holds those of all
times so far that are in the window of the last one.
-/

namespace SlidingWindow

variable {τ : Type*}

/-- The queue behind a new time. -/
def slide (expired : τ → τ → Bool) (queue : List τ) (now : τ) : List τ :=
  (queue ++ [now]).dropWhile (expired now)

/-- What is not in the queue any more has expired at one of the times. -/
def Holds (expired : τ → τ → Bool) (queue times : List τ) : Prop :=
  ∃ gone, times = gone ++ queue ∧ ∀ t ∈ gone, ∃ past ∈ times, expired past t = true

theorem Holds.nil (expired : τ → τ → Bool) : Holds expired [] [] :=
  ⟨[], rfl, fun _ ht => absurd ht List.not_mem_nil⟩

variable {expired : τ → τ → Bool} {queue times : List τ} {now : τ}

/-- Only what is in the queue is looked at. -/
theorem dropWhile_congr {p q : τ → Bool} {xs : List τ} (h : ∀ t ∈ xs, p t = q t) :
    xs.dropWhile p = xs.dropWhile q := by
  induction xs with
  | nil => rfl
  | cons x xs ih =>
      obtain ⟨hx, hxs⟩ := List.forall_mem_cons.mp h
      rw [List.dropWhile_cons, List.dropWhile_cons, hx, ih hxs]

theorem Holds.mem (h : Holds expired queue times) {t : τ} (ht : t ∈ queue) : t ∈ times := by
  obtain ⟨gone, rfl, -⟩ := h
  exact List.mem_append_right _ ht

theorem Holds.slide (h : Holds expired queue times) (now : τ) :
    Holds expired (slide expired queue now) (times ++ [now]) := by
  obtain ⟨gone, htimes, hgone⟩ := h
  refine ⟨gone ++ (queue ++ [now]).takeWhile (expired now), ?_, ?_⟩
  · rw [List.append_assoc, SlidingWindow.slide, List.takeWhile_append_dropWhile, htimes,
      List.append_assoc]
  · intro t ht
    rcases List.mem_append.mp ht with ht | ht
    · obtain ⟨past, hpast, hexpired⟩ := hgone t ht
      exact ⟨past, List.mem_append_left _ hpast, hexpired⟩
    · exact ⟨now, List.mem_append_right _ List.mem_cons_self, List.mem_takeWhile_imp ht⟩

/-- Where what is dropped only stands in front of what is kept, dropping is filtering. -/
theorem dropWhile_eq_filter {p : τ → Bool} {xs : List τ}
    (h : xs.Pairwise fun s t => p t = true → p s = true) :
    xs.dropWhile p = xs.filter fun t => !p t := by
  induction xs with
  | nil => rfl
  | cons x xs ih =>
      obtain ⟨hx, hxs⟩ := List.pairwise_cons.mp h
      cases hp : p x with
      | true => rw [List.dropWhile_cons_of_pos hp, List.filter_cons_of_neg (by simp [hp]), ih hxs]
      | false =>
          have hall : ∀ t ∈ xs, (!p t) = true := by
            intro t ht
            rw [Bool.not_eq_true', Bool.eq_false_iff]
            intro htrue
            exact Bool.false_ne_true (hp.symm.trans (hx t ht htrue))
          rw [List.dropWhile_cons_of_neg (by simp [hp]), List.filter_cons_of_pos (by simp [hp]),
            List.filter_eq_self.mpr hall]

variable [LE τ]

/-- What has expired stays so, and so has all that is older. -/
structure Expiry (expired : τ → τ → Bool) : Prop where
  later : ∀ past now t, past ≤ now → expired past t = true → expired now t = true
  older : ∀ now s t, s ≤ t → expired now t = true → expired now s = true

/-- The queue behind a new time holds the times that are in its window. -/
theorem Holds.slide_eq (h : Holds expired queue times) (hexpiry : Expiry expired)
    (hsorted : (times ++ [now]).Pairwise (· ≤ ·)) :
    SlidingWindow.slide expired queue now = (times ++ [now]).filter fun t => !expired now t := by
  obtain ⟨gone, htimes, hgone⟩ := h
  have hpast : ∀ t ∈ times, t ≤ now := fun t ht =>
    (List.pairwise_append.mp hsorted).2.2 t ht now List.mem_cons_self
  have hnone : (gone.filter fun t => !expired now t) = [] := by
    rw [List.filter_eq_nil_iff]
    intro t ht
    obtain ⟨past, hmem, hexpired⟩ := hgone t ht
    simp [hexpiry.later past now t (hpast past hmem) hexpired]
  rw [htimes, List.append_assoc] at hsorted
  have hqueue := (List.pairwise_append.mp hsorted).2.1
  rw [htimes, List.append_assoc, List.filter_append, hnone, List.nil_append,
    SlidingWindow.slide]
  exact dropWhile_eq_filter (hqueue.imp fun hle => hexpiry.older now _ _ hle)

end SlidingWindow
