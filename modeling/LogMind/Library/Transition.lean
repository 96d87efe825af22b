import Mathlib.Data.List.Basic

/-!
# Runs of a transition function

A partial step function `step : σ → α → Option σ` says which action is enabled
in which state and what it does. `run` performs a sequence of actions and fails
when one of them is not enabled. `Meets` says that every action of a sequence
satisfies a condition in the state it is performed in.
-/

namespace Transition

variable {σ α : Type*}

def run (step : σ → α → Option σ) : σ → List α → Option σ
  | s, [] => some s
  | s, a :: as => (step s a).bind fun t => run step t as

/-- Every action of the run satisfies the condition in the state before it. -/
def Meets (step : σ → α → Option σ) (cond : σ → α → Prop) : σ → List α → Prop
  | _, [] => True
  | s, a :: as => cond s a ∧ ∀ t, step s a = some t → Meets step cond t as

theorem meets_cons_iff {step : σ → α → Option σ} {cond : σ → α → Prop} {s : σ} {a : α}
    {as : List α} :
    Meets step cond s (a :: as) ↔ cond s a ∧ ∀ t ∈ step s a, Meets step cond t as := Iff.rfl

instance decidableMeets (step : σ → α → Option σ) (cond : σ → α → Prop)
    [∀ s a, Decidable (cond s a)] : (s : σ) → (as : List α) → Decidable (Meets step cond s as)
  | _, [] => .isTrue trivial
  | _, _ :: as =>
      have := fun t => decidableMeets step cond t as
      decidable_of_iff _ meets_cons_iff.symm

theorem meets_of_forall {step : σ → α → Option σ} {cond : σ → α → Prop} (h : ∀ s a, cond s a)
    (s : σ) (as : List α) : Meets step cond s as := by
  induction as generalizing s with
  | nil => trivial
  | cons a as ih => exact ⟨h s a, fun t _ => ih t⟩

theorem run_cons_eq_some {step : σ → α → Option σ} {s t : σ} {a : α} {as : List α} :
    run step s (a :: as) = some t ↔ ∃ u, step s a = some u ∧ run step u as = some t := by
  simp [run, Option.bind_eq_some_iff]

theorem run_append (step : σ → α → Option σ) (s : σ) (as bs : List α) :
    run step s (as ++ bs) = (run step s as).bind fun t => run step t bs := by
  induction as generalizing s with
  | nil => rfl
  | cons a as ih =>
      simp only [List.cons_append, run]
      cases step s a with
      | none => rfl
      | some u => exact ih u

/-- What every step keeps, a run keeps. -/
theorem run_invariant {step : σ → α → Option σ} {inv : σ → Prop}
    (hstep : ∀ s a t, inv s → step s a = some t → inv t) {s t : σ} {as : List α}
    (hs : inv s) (hrun : run step s as = some t) : inv t := by
  induction as generalizing s with
  | nil => exact Option.some.inj hrun ▸ hs
  | cons a as ih =>
      obtain ⟨u, hu, hrest⟩ := run_cons_eq_some.mp hrun
      exact ih (hstep s a u hs hu) hrest

/-- Where every step is enabled and keeps the invariant, a run ends and keeps it. -/
theorem run_total {step : σ → α → Option σ} {inv : σ → Prop}
    (hstep : ∀ s a, inv s → ∃ t, step s a = some t ∧ inv t) {s : σ} (as : List α)
    (hs : inv s) : ∃ t, run step s as = some t ∧ inv t := by
  induction as generalizing s with
  | nil => exact ⟨s, rfl, hs⟩
  | cons a as ih =>
      obtain ⟨u, hu, hinv⟩ := hstep s a hs
      obtain ⟨t, hrest, ht⟩ := ih hinv
      exact ⟨t, run_cons_eq_some.mpr ⟨u, hu, hrest⟩, ht⟩

/-- What every step that meets the condition keeps, a run of such steps keeps. -/
theorem run_invariant_of_meets {step : σ → α → Option σ} {cond : σ → α → Prop}
    {inv : σ → Prop}
    (hstep : ∀ s a t, inv s → cond s a → step s a = some t → inv t) {s t : σ} {as : List α}
    (hs : inv s) (hmeets : Meets step cond s as) (hrun : run step s as = some t) : inv t := by
  induction as generalizing s with
  | nil => exact Option.some.inj hrun ▸ hs
  | cons a as ih =>
      obtain ⟨u, hu, hrest⟩ := run_cons_eq_some.mp hrun
      exact ih (hstep s a u hs hmeets.1 hu) (hmeets.2 u hu) hrest

/-- What every step with an action of some kind keeps, a run of such actions keeps. -/
theorem run_invariant_of_forall {step : σ → α → Option σ} {kind : α → Prop} {inv : σ → Prop}
    (hstep : ∀ s a t, inv s → kind a → step s a = some t → inv t) {s t : σ} {as : List α}
    (hs : inv s) (has : ∀ a ∈ as, kind a) (hrun : run step s as = some t) : inv t := by
  induction as generalizing s with
  | nil => exact Option.some.inj hrun ▸ hs
  | cons a as ih =>
      obtain ⟨u, hu, hrest⟩ := run_cons_eq_some.mp hrun
      exact ih (hstep s a u hs (has a List.mem_cons_self) hu)
        (fun b hb => has b (List.mem_cons_of_mem a hb)) hrest

/-- A run of steps that are simulated one by one is simulated. -/
theorem run_simulates {τ β : Type*} {step : σ → α → Option σ} {step' : τ → β → Option τ}
    {abs : σ → τ} {label : α → β} {inv : σ → Prop}
    (hstep : ∀ s a t, inv s → step s a = some t →
      step' (abs s) (label a) = some (abs t) ∧ inv t) {s t : σ} {as : List α}
    (hs : inv s) (hrun : run step s as = some t) :
    run step' (abs s) (as.map label) = some (abs t) ∧ inv t := by
  induction as generalizing s with
  | nil =>
      obtain rfl := Option.some.inj hrun
      exact ⟨rfl, hs⟩
  | cons a as ih =>
      obtain ⟨u, hu, hrest⟩ := run_cons_eq_some.mp hrun
      obtain ⟨hu', hinv⟩ := hstep s a u hs hu
      obtain ⟨hrest', ht⟩ := ih hinv hrest
      exact ⟨run_cons_eq_some.mpr ⟨abs u, hu', hrest'⟩, ht⟩

/-- Where a good step is one that keeps the invariant, all steps of a run are good exactly
when the invariant holds in every state on the way. -/
theorem meets_iff_prefixes {step : σ → α → Option σ} {good : σ → σ → Prop}
    {wf inv : σ → Prop}
    (hstep : ∀ s a t, wf s → inv s → step s a = some t → wf t ∧ (good s t ↔ inv t))
    {s : σ} (hwf : wf s) (hs : inv s) (as : List α) :
    Meets step (fun s a => ∀ t, step s a = some t → good s t) s as ↔
      ∀ bs, bs <+: as → ∀ t, run step s bs = some t → inv t := by
  induction as generalizing s with
  | nil =>
      refine ⟨fun _ bs hbs t hrun => ?_, fun _ => trivial⟩
      obtain rfl := List.prefix_nil.mp hbs
      exact Option.some.inj hrun ▸ hs
  | cons a as ih =>
      constructor
      · rintro ⟨hgood, hrest⟩ bs hbs t hrun
        cases bs with
        | nil => exact Option.some.inj hrun ▸ hs
        | cons b bs =>
            obtain ⟨rfl, hrest'⟩ := List.cons_prefix_cons.mp hbs
            obtain ⟨u, hu, hrun⟩ := run_cons_eq_some.mp hrun
            obtain ⟨hwf', hiff⟩ := hstep s b u hwf hs hu
            exact (ih hwf' (hiff.mp (hgood u hu))).mp (hrest u hu) bs hrest' t hrun
      · intro hall
        have hnext : ∀ u, step s a = some u → inv u := by
          intro u hu
          exact hall [a] (List.cons_prefix_cons.mpr ⟨rfl, List.nil_prefix⟩) u
            (run_cons_eq_some.mpr ⟨u, hu, rfl⟩)
        refine ⟨fun u hu => (hstep s a u hwf hs hu).2.mpr (hnext u hu), fun u hu => ?_⟩
        apply (ih (hstep s a u hwf hs hu).1 (hnext u hu)).mpr
        intro bs hbs t hrun
        exact hall (a :: bs) (List.cons_prefix_cons.mpr ⟨rfl, hbs⟩) t
          (run_cons_eq_some.mpr ⟨u, hu, hrun⟩)

/-- Two conditions that agree wherever the invariant holds, and whose steps keep it, are met
by the same runs. -/
theorem meets_congr {step : σ → α → Option σ} {cond cond' : σ → α → Prop} {inv : σ → Prop}
    (hstep : ∀ s a t, inv s → cond s a → step s a = some t → inv t)
    (hiff : ∀ s a, inv s → (cond s a ↔ cond' s a)) {s : σ} (hs : inv s) (as : List α) :
    Meets step cond s as ↔ Meets step cond' s as := by
  induction as generalizing s with
  | nil => exact Iff.rfl
  | cons a as ih =>
      rw [meets_cons_iff, meets_cons_iff, ← hiff s a hs]
      apply and_congr_right
      exact fun hcond => forall_congr' fun t => forall_congr' fun ht =>
        ih (hstep s a t hs hcond ht)

end Transition
