import Mathlib.Data.List.Basic
import Mathlib.Data.List.Infix

/-!
# Cutting a stream at its separators

`lines sep xs` are the pieces of `xs` that a separator ends, without it, and
`tail sep xs` is what follows the last separator. Feeding a stream in several
parts gives the same pieces as feeding it at once: the pieces of `xs ++ ys` are
those of `xs` followed by those of `tail sep xs ++ ys`. The elements are
arbitrary, so a reader may carry more than a byte in each of them.
-/

namespace Lines

variable {β γ : Type*} (sep : β → Bool)

/-- One more element in front of the pieces and the unfinished tail. -/
def consPiece (c : β) : List (List β) × List β → List (List β) × List β
  | ([], t) => ([], c :: t)
  | (l :: ls, t) => ((c :: l) :: ls, t)

/-- The finished pieces and the unfinished tail. -/
def split : List β → List (List β) × List β
  | [] => ([], [])
  | c :: cs => if sep c then ([] :: (split cs).1, (split cs).2) else consPiece c (split cs)

def lines (xs : List β) : List (List β) := (split sep xs).1

def tail (xs : List β) : List β := (split sep xs).2

@[simp] theorem lines_nil : lines sep [] = [] := rfl

@[simp] theorem tail_nil : tail sep [] = [] := rfl

theorem lines_cons_sep {c : β} (h : sep c = true) (cs : List β) :
    lines sep (c :: cs) = [] :: lines sep cs := by
  simp [lines, split, h]

theorem tail_cons_sep {c : β} (h : sep c = true) (cs : List β) :
    tail sep (c :: cs) = tail sep cs := by
  simp [tail, split, h]

/-- Elements without a separator in front of a stream belong to its first piece. -/
theorem split_append_of_forall_not {xs : List β} (h : ∀ c ∈ xs, sep c = false) (ys : List β) :
    split sep (xs ++ ys) =
      match split sep ys with
      | ([], t) => ([], xs ++ t)
      | (l :: ls, t) => ((xs ++ l) :: ls, t) := by
  induction xs with
  | nil =>
      rcases hy : split sep ys with ⟨_ | ⟨l, ls⟩, t⟩ <;> simp [hy]
  | cons c xs ih =>
      have hc : sep c = false := h c List.mem_cons_self
      have hxs := ih fun d hd => h d (List.mem_cons_of_mem _ hd)
      rw [List.cons_append, split, hc, hxs]
      rcases split sep ys with ⟨_ | ⟨l, ls⟩, t⟩ <;> simp [consPiece]

theorem lines_of_forall_not {xs : List β} (h : ∀ c ∈ xs, sep c = false) :
    lines sep xs = [] := by
  have hsplit := split_append_of_forall_not sep h []
  rw [List.append_nil] at hsplit
  simp [lines, hsplit, split]

theorem tail_of_forall_not {xs : List β} (h : ∀ c ∈ xs, sep c = false) :
    tail sep xs = xs := by
  have hsplit := split_append_of_forall_not sep h []
  rw [List.append_nil] at hsplit
  simp [tail, hsplit, split]

/-- A piece ends at the first separator. -/
theorem lines_append_sep {xs : List β} (h : ∀ c ∈ xs, sep c = false) {c : β}
    (hc : sep c = true) (ys : List β) :
    lines sep (xs ++ c :: ys) = xs :: lines sep ys := by
  rw [lines, split_append_of_forall_not sep h]
  simp [split, hc, lines]

theorem tail_append_sep {xs : List β} (h : ∀ c ∈ xs, sep c = false) {c : β}
    (hc : sep c = true) (ys : List β) :
    tail sep (xs ++ c :: ys) = tail sep ys := by
  rw [tail, split_append_of_forall_not sep h]
  simp [split, hc, tail]

/-- Pieces without a separator that are each followed by one are found again. -/
theorem lines_flatMap {ls : List (List β)} (h : ∀ l ∈ ls, ∀ c ∈ l, sep c = false) {d : β}
    (hd : sep d = true) (ys : List β) :
    lines sep (ls.flatMap (· ++ [d]) ++ ys) = ls ++ lines sep ys := by
  induction ls with
  | nil => rfl
  | cons l ls ih =>
      have hl := h l List.mem_cons_self
      have hls := ih fun l' hl' => h l' (List.mem_cons_of_mem l hl')
      rw [List.flatMap_cons, List.append_assoc, List.append_assoc, List.singleton_append,
        lines_append_sep sep hl hd, hls, List.cons_append]

/-- The tail holds no separator. -/
theorem tail_forall_not (xs : List β) : ∀ c ∈ tail sep xs, sep c = false := by
  induction xs with
  | nil => simp
  | cons c cs ih =>
      by_cases hc : sep c = true
      · rw [tail_cons_sep sep hc]
        exact ih
      · simp only [tail, split, hc] at ih ⊢
        rcases hs : split sep cs with ⟨_ | ⟨l, ls⟩, t⟩
        · rw [hs] at ih
          intro d hd
          rcases List.mem_cons.mp hd with rfl | hd
          · exact Bool.eq_false_iff.mpr hc
          · exact ih d hd
        · rw [hs] at ih
          exact ih

/-- No piece holds a separator. -/
theorem lines_forall_not (xs : List β) : ∀ l ∈ lines sep xs, ∀ c ∈ l, sep c = false := by
  induction xs with
  | nil => simp
  | cons c cs ih =>
      by_cases hc : sep c = true
      · rw [lines_cons_sep sep hc]
        intro l hl
        rcases List.mem_cons.mp hl with rfl | hl
        · simp
        · exact ih l hl
      · simp only [lines, split, if_neg hc] at ih ⊢
        rcases hs : split sep cs with ⟨_ | ⟨l, ls⟩, t⟩
        · simp [consPiece]
        · rw [hs] at ih
          intro piece hpiece d hd
          rcases List.mem_cons.mp hpiece with rfl | hpiece
          · rcases List.mem_cons.mp hd with rfl | hd
            · exact Bool.eq_false_iff.mpr hc
            · exact ih l List.mem_cons_self d hd
          · exact ih piece (List.mem_cons_of_mem l hpiece) d hd

/-- With one separator, the pieces with their separators and the tail are the stream. -/
theorem flatMap_lines {d : β} (hd : ∀ c, sep c = true ↔ c = d) (xs : List β) :
    (lines sep xs).flatMap (· ++ [d]) ++ tail sep xs = xs := by
  induction xs with
  | nil => rfl
  | cons c cs ih =>
      by_cases hc : sep c = true
      · rw [lines_cons_sep sep hc, tail_cons_sep sep hc, List.flatMap_cons, List.nil_append,
          List.append_assoc, ih, (hd c).mp hc, List.singleton_append]
      · simp only [lines, tail, split, if_neg hc] at ih ⊢
        rcases hs : split sep cs with ⟨_ | ⟨l, ls⟩, t⟩
        · rw [hs] at ih
          simpa [consPiece] using ih
        · rw [hs] at ih
          simpa [consPiece] using ih

/-- Feeding a stream in two parts: only the unfinished tail carries over. -/
theorem split_append (xs ys : List β) :
    split sep (xs ++ ys) =
      (lines sep xs ++ lines sep (tail sep xs ++ ys), tail sep (tail sep xs ++ ys)) := by
  induction xs with
  | nil => rfl
  | cons c cs ih =>
      by_cases hc : sep c = true
      · rw [lines_cons_sep sep hc, tail_cons_sep sep hc, List.cons_append, split, if_pos hc, ih]
        rfl
      · have hc' : sep c = false := Bool.eq_false_iff.mpr hc
        have htail := tail_forall_not sep cs
        rw [List.cons_append, split, if_neg hc, ih]
        simp only [lines, tail, split, if_neg hc] at htail ⊢
        rcases hs : split sep cs with ⟨_ | ⟨l, ls⟩, t⟩
        · rw [hs] at htail
          have hone : ∀ d ∈ [c], sep d = false := by simpa using hc'
          have hsplit := split_append_of_forall_not sep hone (t ++ ys)
          simp only [consPiece, List.cons_append, List.nil_append]
          rw [List.singleton_append] at hsplit
          rw [hsplit]
          rcases split sep (t ++ ys) with ⟨_ | ⟨l', ls'⟩, t'⟩ <;> rfl
        · simp [consPiece]

theorem lines_append (xs ys : List β) :
    lines sep (xs ++ ys) = lines sep xs ++ lines sep (tail sep xs ++ ys) := by
  rw [lines, split_append]

theorem tail_append (xs ys : List β) :
    tail sep (xs ++ ys) = tail sep (tail sep xs ++ ys) := by
  rw [tail, split_append]

/-- The pieces are taken from what stands in front of the tail. -/
theorem exists_front (xs : List β) :
    ∃ front, xs = front ++ tail sep xs ∧ (lines sep xs).flatten.Sublist front ∧
      (lines sep xs = [] → front = []) := by
  induction xs with
  | nil => exact ⟨[], rfl, List.Sublist.refl _, fun _ => rfl⟩
  | cons c cs ih =>
      obtain ⟨front, hcs, hsub, hnone⟩ := ih
      by_cases hc : sep c = true
      · rw [lines_cons_sep sep hc, tail_cons_sep sep hc]
        exact ⟨c :: front, congrArg (c :: ·) hcs, hsub.cons c, fun h => nomatch h⟩
      · simp only [lines, tail, split, if_neg hc] at hcs hsub hnone ⊢
        rcases hs : split sep cs with ⟨_ | ⟨l, ls⟩, t⟩
        · rw [hs] at hcs hnone
          obtain rfl := hnone rfl
          exact ⟨[], congrArg (c :: ·) hcs, List.Sublist.refl _, fun _ => rfl⟩
        · rw [hs] at hcs hsub
          exact ⟨c :: front, congrArg (c :: ·) hcs, hsub.cons_cons c, fun h => nomatch h⟩

/-- No piece and no tail is longer than `bound`. -/
def Within (bound : ℕ) (xs : List β) : Prop :=
  (∀ l ∈ lines sep xs, l.length ≤ bound) ∧ (tail sep xs).length ≤ bound

/-- What comes later can only lengthen the tail. -/
theorem Within.of_append {bound : ℕ} {xs ys : List β} (h : Within sep bound (xs ++ ys)) :
    Within sep bound xs := by
  obtain ⟨hlines, htail⟩ := h
  rw [lines_append] at hlines
  rw [tail_append] at htail
  refine ⟨fun l hl => hlines l (List.mem_append_left _ hl), ?_⟩
  have hsplit := split_append_of_forall_not sep (tail_forall_not sep xs) ys
  rcases hy : split sep ys with ⟨_ | ⟨l, ls⟩, t⟩
  · rw [hy] at hsplit
    rw [tail, hsplit, List.length_append] at htail
    omega
  · rw [hy] at hsplit
    have hmem : (tail sep xs ++ l) ∈ lines sep (tail sep xs ++ ys) := by
      simp [lines, hsplit]
    have hlen := hlines _ (List.mem_append_right _ hmem)
    rw [List.length_append] at hlen
    omega

/-- What stands in front can only lengthen the tail. -/
theorem tail_suffix_append (xs ys : List β) : tail sep ys <:+ tail sep (xs ++ ys) := by
  have hsplit := split_append_of_forall_not sep (tail_forall_not sep xs) ys
  rw [tail_append]
  show (split sep ys).2 <:+ (split sep (tail sep xs ++ ys)).2
  rcases hy : split sep ys with ⟨_ | ⟨l, ls⟩, t⟩
  · rw [hsplit, hy]
    exact List.suffix_append _ _
  · rw [hsplit, hy]

/-- The pieces that begin at a position or behind it. Where a piece is unfinished at
the position, the next separator ends that one. -/
def linesFrom (xs : List β) (start : ℕ) : List (List β) :=
  if (tail sep (xs.take start)).isEmpty then lines sep (xs.drop start)
  else (lines sep (xs.drop start)).drop 1

theorem linesFrom_of_length_le {xs : List β} {start : ℕ} (h : xs.length ≤ start) :
    linesFrom sep xs start = [] := by
  unfold linesFrom
  rw [List.drop_of_length_le h]
  split <;> rfl

/-- A stream that grows keeps its pieces. -/
theorem linesFrom_prefix {xs : List β} {start : ℕ} (h : start ≤ xs.length) (ys : List β) :
    linesFrom sep xs start <+: linesFrom sep (xs ++ ys) start := by
  have hlines : lines sep (xs.drop start) <+: lines sep (xs.drop start ++ ys) := by
    rw [lines_append]
    exact List.prefix_append _ _
  unfold linesFrom
  rw [List.take_append_of_le_length h, List.drop_append_of_le_length h]
  split
  · exact hlines
  · exact hlines.drop 1

/-- An unfinished piece in front changes the first piece only. -/
theorem drop_one_lines_sublist {t : List β} (h : ∀ c ∈ t, sep c = false) (ys : List β) :
    ((lines sep ys).drop 1).Sublist (lines sep (t ++ ys)) := by
  have hsplit := split_append_of_forall_not sep h ys
  show ((split sep ys).1.drop 1).Sublist (split sep (t ++ ys)).1
  rw [hsplit]
  rcases split sep ys with ⟨_ | ⟨l, ls⟩, t'⟩
  · exact List.Sublist.refl _
  · exact List.sublist_cons_self ..

/-- Reading from an earlier position finds them all. -/
theorem linesFrom_sublist (xs : List β) {first start : ℕ} (h : first ≤ start) :
    (linesFrom sep xs start).Sublist (lines sep (xs.drop first)) := by
  obtain ⟨middle, htake, hdrop⟩ : ∃ middle, xs.take start = xs.take first ++ middle ∧
      xs.drop first = middle ++ xs.drop start := by
    refine ⟨(xs.drop first).take (start - first), ?_, ?_⟩
    · rw [← List.take_add, Nat.add_sub_cancel' h]
    · conv_lhs => rw [← List.take_append_drop (start - first) (xs.drop first)]
      rw [List.drop_drop, Nat.add_sub_cancel' h]
  unfold linesFrom
  rw [htake, hdrop, lines_append]
  refine List.Sublist.trans ?_ (List.sublist_append_right _ _)
  split
  case isTrue hempty =>
    have htail : tail sep middle = [] := by
      have hsuffix := tail_suffix_append sep (xs.take first) middle
      rw [List.isEmpty_iff.mp hempty] at hsuffix
      exact List.suffix_nil.mp hsuffix
    rw [htail, List.nil_append]
  case isFalse => exact drop_one_lines_sublist sep (tail_forall_not sep middle) _

end Lines
