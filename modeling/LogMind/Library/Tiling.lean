import Mathlib.Data.List.Basic

/-!
# Tilings of an interval of identifiers

`Tiles first last lo bs hi` says that the blocks `bs`, each covering the
identifiers from `first b` to `last b`, cover `lo, …, hi - 1` one after another
without gap or overlap. The block type is arbitrary.
-/

namespace Tiling

variable {β : Type*} {first last : β → ℕ}

/-- The blocks cover the half-open interval from `lo` to `hi` in order. -/
def Tiles (first last : β → ℕ) : ℕ → List β → ℕ → Prop
  | lo, [], hi => lo = hi
  | lo, b :: bs, hi => first b = lo ∧ lo ≤ last b ∧ Tiles first last (last b + 1) bs hi

/-- The identifiers of one block. -/
def ids (first last : β → ℕ) (b : β) : List ℕ := List.range' (first b) (last b + 1 - first b)

@[simp] theorem tiles_nil (lo hi : ℕ) : Tiles first last lo [] hi ↔ lo = hi := Iff.rfl

theorem tiles_cons (lo hi : ℕ) (b : β) (bs : List β) :
    Tiles first last lo (b :: bs) hi ↔
      first b = lo ∧ lo ≤ last b ∧ Tiles first last (last b + 1) bs hi :=
  Iff.rfl

theorem Tiles.le {lo hi : ℕ} {bs : List β} (h : Tiles first last lo bs hi) : lo ≤ hi := by
  induction bs generalizing lo with
  | nil => exact Nat.le_of_eq h
  | cons b bs ih =>
      obtain ⟨_, hb, hbs⟩ := h
      have hle := ih hbs
      omega

/-- Every block lies inside the interval. -/
theorem Tiles.mem {lo hi : ℕ} {bs : List β} (h : Tiles first last lo bs hi) {b : β}
    (hb : b ∈ bs) : lo ≤ first b ∧ first b ≤ last b ∧ last b < hi := by
  induction bs generalizing lo with
  | nil => simp at hb
  | cons c bs ih =>
      obtain ⟨hf, hl, hbs⟩ := h
      have hle := hbs.le
      rcases List.mem_cons.mp hb with rfl | hb
      · omega
      · have hin := ih hbs hb
        omega

theorem tiles_append (lo hi : ℕ) (bs cs : List β) :
    Tiles first last lo (bs ++ cs) hi ↔
      ∃ mid, Tiles first last lo bs mid ∧ Tiles first last mid cs hi := by
  induction bs generalizing lo with
  | nil => simp
  | cons b bs ih =>
      simp only [List.cons_append, tiles_cons, ih]
      constructor
      · rintro ⟨hf, hl, mid, hbs, hcs⟩
        exact ⟨mid, ⟨hf, hl, hbs⟩, hcs⟩
      · rintro ⟨mid, ⟨hf, hl, hbs⟩, hcs⟩
        exact ⟨hf, hl, mid, hbs, hcs⟩

theorem tiles_append_singleton (lo hi : ℕ) (bs : List β) (b : β) :
    Tiles first last lo (bs ++ [b]) hi ↔
      Tiles first last lo bs (first b) ∧ first b ≤ last b ∧ hi = last b + 1 := by
  rw [tiles_append]
  constructor
  · rintro ⟨mid, hbs, hf, hl, hhi⟩
    subst hf
    exact ⟨hbs, hl, hhi.symm⟩
  · rintro ⟨hbs, hl, hhi⟩
    exact ⟨first b, hbs, rfl, hl, hhi.symm⟩

/-- Blocks of one width in front of the last block take their place in the interval. -/
theorem Tiles.length_le {lo hi width : ℕ} {bs : List β} (h : Tiles first last lo bs hi)
    (hne : bs ≠ []) (hwidth : ∀ b ∈ bs.dropLast, last b + 1 - first b = width) :
    lo + (bs.length - 1) * width < hi := by
  induction bs generalizing lo with
  | nil => exact absurd rfl hne
  | cons b bs ih =>
      obtain ⟨hf, hl, hbs⟩ := h
      cases bs with
      | nil =>
          have hhi : last b + 1 = hi := hbs
          simp only [List.length_cons, List.length_nil]
          omega
      | cons c bs =>
          have hb : last b + 1 - first b = width := hwidth b List.mem_cons_self
          have hrest := ih hbs (List.cons_ne_nil _ _) fun d hd =>
            hwidth d (List.mem_cons_of_mem b hd)
          have hmul : (bs.length + 1) * width = bs.length * width + width := Nat.succ_mul _ _
          simp only [List.length_cons, Nat.add_sub_cancel] at hrest ⊢
          omega

/-- Selecting from every block and joining is selecting from the interval. -/
theorem Tiles.flatMap_filter {lo hi : ℕ} {bs : List β} (h : Tiles first last lo bs hi)
    (p : ℕ → Bool) :
    bs.flatMap (fun b => (ids first last b).filter p) =
      (List.range' lo (hi - lo)).filter p := by
  induction bs generalizing lo with
  | nil =>
      have hlo : lo = hi := h
      simp [hlo]
  | cons b bs ih =>
      obtain ⟨hf, hl, hbs⟩ := h
      have hle := hbs.le
      have hlen : hi - lo = (last b + 1 - lo) + (hi - (last b + 1)) := by omega
      have hmid : lo + (last b + 1 - lo) = last b + 1 := by omega
      rw [List.flatMap_cons, ih hbs, hlen, ← List.range'_append_1, List.filter_append, hmid]
      simp only [ids, hf]

/-- The same read from the newest block down. -/
theorem Tiles.flatMap_reverse_filter {lo hi : ℕ} {bs : List β}
    (h : Tiles first last lo bs hi) (p : ℕ → Bool) :
    bs.reverse.flatMap (fun b => ((ids first last b).filter p).reverse) =
      ((List.range' lo (hi - lo)).filter p).reverse := by
  rw [← h.flatMap_filter p, List.reverse_flatMap]
  rfl

end Tiling
