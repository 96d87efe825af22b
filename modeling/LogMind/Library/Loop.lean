import Mathlib.Data.List.Basic
import Mathlib.Data.Sum.Basic

/-!
# Loops that may fail

`loop body` runs a body until it says stop. The body fails where the program
would, and so does the loop without fuel: a result `some` is a run that ends and
never failed. The rule asks for an invariant and a measure that every turn
decreases. `foldlM_spec` is the rule for a loop over a list, with an invariant
that speaks of the elements still to come.
-/

namespace Loop

variable {σ ρ α : Type*}

/-- `Sum.inl` goes on, `Sum.inr` stops. -/
def loop (body : σ → Option (σ ⊕ ρ)) : ℕ → σ → Option ρ
  | 0, _ => none
  | fuel + 1, s =>
      (body s).bind fun
        | .inl t => loop body fuel t
        | .inr r => some r

theorem loop_spec {body : σ → Option (σ ⊕ ρ)} (inv : σ → Prop) (measure : σ → ℕ)
    (post : ρ → Prop)
    (hbody : ∀ s, inv s →
      (∃ t, body s = some (.inl t) ∧ inv t ∧ measure t < measure s) ∨
        ∃ r, body s = some (.inr r) ∧ post r)
    (fuel : ℕ) (s : σ) (hs : inv s) (hfuel : measure s < fuel) :
    ∃ r, loop body fuel s = some r ∧ post r := by
  induction fuel generalizing s with
  | zero => omega
  | succ fuel ih =>
      rcases hbody s hs with ⟨t, hbody, ht, hlt⟩ | ⟨r, hbody, hr⟩
      · obtain ⟨r, hloop, hr⟩ := ih t ht (by omega)
        exact ⟨r, by simpa [loop, hbody] using hloop, hr⟩
      · exact ⟨r, by simp [loop, hbody], hr⟩

/-- What a loop that ends keeps, whether it always ends or not. -/
theorem loop_keeps {body : σ → Option (σ ⊕ ρ)} {inv : σ → Prop} {post : ρ → Prop}
    (hgo : ∀ s t, inv s → body s = some (.inl t) → inv t)
    (hstop : ∀ s r, inv s → body s = some (.inr r) → post r) {fuel : ℕ} {s : σ} {r : ρ}
    (hs : inv s) (hloop : loop body fuel s = some r) : post r := by
  induction fuel generalizing s with
  | zero => cases hloop
  | succ fuel ih =>
      rw [loop] at hloop
      obtain ⟨turn, hturn, hrest⟩ := Option.bind_eq_some_iff.mp hloop
      cases turn with
      | inl t => exact ih (hgo s t hs hturn) hrest
      | inr stopped => exact Option.some.inj hrest ▸ hstop s stopped hs hturn

/-- The loop over a list, with an invariant of the elements still to come. -/
theorem foldlM_spec {f : σ → α → Option σ} (inv : List α → σ → Prop)
    (hstep : ∀ a rest s, inv (a :: rest) s → ∃ t, f s a = some t ∧ inv rest t)
    (xs : List α) (s : σ) (hs : inv xs s) :
    ∃ t, xs.foldlM f s = some t ∧ inv [] t := by
  induction xs generalizing s with
  | nil => exact ⟨s, rfl, hs⟩
  | cons a xs ih =>
      obtain ⟨t, hf, ht⟩ := hstep a xs s hs
      obtain ⟨u, hrest, hu⟩ := ih t ht
      exact ⟨u, by rw [List.foldlM_cons, hf, Option.bind_eq_bind, Option.bind_some, hrest], hu⟩

/-- The loop over a list, with an invariant that every element keeps. -/
theorem foldlM_invariant {f : σ → α → Option σ} (inv : σ → Prop) (xs : List α)
    (hstep : ∀ a ∈ xs, ∀ s, inv s → ∃ t, f s a = some t ∧ inv t) (s : σ) (hs : inv s) :
    ∃ t, xs.foldlM f s = some t ∧ inv t := by
  have hrule := foldlM_spec (fun rest s => inv s ∧ ∀ a ∈ rest, a ∈ xs)
    (fun a rest s h => by
      obtain ⟨t, hf, ht⟩ := hstep a (h.2 a List.mem_cons_self) s h.1
      exact ⟨t, hf, ht, fun b hb => h.2 b (List.mem_cons_of_mem _ hb)⟩)
    xs s ⟨hs, fun _ h => h⟩
  obtain ⟨t, hfold, ht, _⟩ := hrule
  exact ⟨t, hfold, ht⟩

/-- What every element keeps, a loop over a list that ends keeps. -/
theorem foldlM_keeps {f : σ → α → Option σ} {inv : σ → Prop}
    (hstep : ∀ s a t, inv s → f s a = some t → inv t) {xs : List α} {s t : σ} (hs : inv s)
    (hfold : xs.foldlM f s = some t) : inv t := by
  induction xs generalizing s with
  | nil => exact Option.some.inj hfold ▸ hs
  | cons a xs ih =>
      rw [List.foldlM_cons, Option.bind_eq_bind] at hfold
      obtain ⟨u, hu, hrest⟩ := Option.bind_eq_some_iff.mp hfold
      exact ih (hstep s a u hs hu) hrest

/-! ## Simulation

A loop whose turns are those of another loop, read through a function of the state. Both
fail, or neither does. -/

section Simulation

variable {τ ρ' : Type*} {abs : σ → τ} {inv : σ → Prop}

theorem foldlM_simulates {f : σ → α → Option σ} {f' : τ → α → Option τ}
    (hstep : ∀ s a, inv s → (f s a).map abs = f' (abs s) a)
    (hinv : ∀ s a t, inv s → f s a = some t → inv t) (xs : List α) {s : σ} (hs : inv s) :
    (xs.foldlM f s).map abs = xs.foldlM f' (abs s) := by
  induction xs generalizing s with
  | nil => rfl
  | cons a xs ih =>
      rw [List.foldlM_cons, List.foldlM_cons, ← hstep s a hs]
      cases hf : f s a with
      | none => rfl
      | some t => exact ih (hinv s a t hs hf)

theorem loop_simulates {body : σ → Option (σ ⊕ ρ)} {body' : τ → Option (τ ⊕ ρ')} {out : ρ → ρ'}
    (hbody : ∀ s, inv s → (body s).map (Sum.map abs out) = body' (abs s))
    (hinv : ∀ s t, inv s → body s = some (.inl t) → inv t) (fuel : ℕ) {s : σ} (hs : inv s) :
    (loop body fuel s).map out = loop body' fuel (abs s) := by
  induction fuel generalizing s with
  | zero => rfl
  | succ fuel ih =>
      rw [loop, loop, ← hbody s hs]
      cases hturn : body s with
      | none => rfl
      | some turn =>
          cases turn with
          | inl t => exact ih (hinv s t hs hturn)
          | inr r => rfl

end Simulation

/-- A count strictly below another, as a measure. -/
theorem countP_lt_countP {p q : α → Bool} {xs : List α} {a : α} (hpq : ∀ b, p b → q b)
    (ha : a ∈ xs) (hq : q a = true) (hp : p a = false) : xs.countP p < xs.countP q := by
  induction xs with
  | nil => simp at ha
  | cons b xs ih =>
      have hle : xs.countP p ≤ xs.countP q := List.countP_mono_left fun b _ => hpq b
      rw [List.countP_cons, List.countP_cons]
      rcases List.mem_cons.mp ha with rfl | ha
      · rw [hq, hp]
        simp only [Bool.false_eq_true, if_false, if_true]
        omega
      · have hlt := ih ha
        have hb := hpq b
        cases hpb : p b
        · simp only [Bool.false_eq_true, if_false]
          omega
        · rw [hb hpb]
          omega

end Loop
