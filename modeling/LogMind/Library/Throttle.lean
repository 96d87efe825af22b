import Mathlib.Data.List.AList

/-!
# Limiting repeated events

Two ways to hold back events that come too often. A table of last times blocks a key
for a while after its last event. It decides as the full history of the events does, and
forgetting the times that block no longer changes no decision. A rate limit counts the
events of a window and starts the next one with the first event behind its end. Each
window holds as many events as the limit allows, and no interval of the length of a
window meets more than two of them.
-/

namespace Throttle

/-! ## A table of last times -/

section Table

variable {κ : Type*} [DecidableEq κ] {window : Int} {table : AList fun _ : κ => Int}
  {history : List (Int × κ)} {last : Int}

/-- Forgets the times that block no longer. -/
def purge (window now : Int) (table : AList fun _ : κ => Int) : AList fun _ : κ => Int :=
  ⟨table.entries.filter fun entry => now - entry.2 < window,
    table.nodupKeys.sublist List.filter_sublist⟩

/-- The table decides as the history does, from the last event on. -/
structure Remembers (window : Int) (table : AList fun _ : κ => Int) (history : List (Int × κ))
    (last : Int) : Prop where
  past : ∀ event ∈ history, event.1 ≤ last
  blocks : ∀ now, last ≤ now → ∀ key,
    (∃ t ∈ table.lookup key, now - t < window) ↔
      ∃ event ∈ history, event.2 = key ∧ now - event.1 < window

theorem mem_lookup_purge {now : Int} {key : κ} {t : Int} :
    t ∈ (purge window now table).lookup key ↔ t ∈ table.lookup key ∧ now - t < window := by
  rw [AList.mem_lookup_iff, AList.mem_lookup_iff, purge, List.mem_filter]
  simp

theorem Remembers.empty : Remembers window (∅ : AList fun _ : κ => Int) [] last := by
  constructor
  · intro event hevent
    exact absurd hevent List.not_mem_nil
  · intro now _ key
    simp

theorem Remembers.later (h : Remembers window table history last) {now : Int} (hle : last ≤ now) :
    Remembers window table history now :=
  ⟨fun event hevent => Int.le_trans (h.past event hevent) hle,
    fun next hnext => h.blocks next (Int.le_trans hle hnext)⟩

/-- What is forgotten would not have blocked later either. -/
theorem Remembers.purge (h : Remembers window table history last) :
    Remembers window (purge window last table) history last := by
  refine ⟨h.past, fun now hnow key => (Iff.trans ?_ (h.blocks now hnow key))⟩
  constructor
  · rintro ⟨t, ht, hblocks⟩
    exact ⟨t, (mem_lookup_purge.mp ht).1, hblocks⟩
  · rintro ⟨t, ht, hblocks⟩
    exact ⟨t, mem_lookup_purge.mpr ⟨ht, by omega⟩, hblocks⟩

/-- An event of a key is the one that blocks it from now on. -/
theorem Remembers.insert (h : Remembers window table history last) (key : κ) :
    Remembers window (table.insert key last) (history ++ [(last, key)]) last := by
  constructor
  · intro event hevent
    rcases List.mem_append.mp hevent with hold | hnew
    · exact h.past event hold
    · exact Int.le_of_eq (congrArg Prod.fst (List.mem_singleton.mp hnew))
  · intro now hnow other
    by_cases hsame : other = key
    · subst hsame
      rw [AList.lookup_insert]
      constructor
      · rintro ⟨t, ht, hblocks⟩
        obtain rfl := Option.some.inj ht
        exact ⟨(last, other), by simp, rfl, hblocks⟩
      · rintro ⟨event, hevent, -, hblocks⟩
        refine ⟨last, rfl, ?_⟩
        rcases List.mem_append.mp hevent with hold | hnew
        · have hpast := h.past event hold
          omega
        · rw [List.mem_singleton.mp hnew] at hblocks
          exact hblocks
    · rw [AList.lookup_insert_ne hsame, h.blocks now hnow other]
      constructor
      · rintro ⟨event, hevent, hkey⟩
        exact ⟨event, List.mem_append_left _ hevent, hkey⟩
      · rintro ⟨event, hevent, hkey, hblocks⟩
        refine ⟨event, (List.mem_append.mp hevent).resolve_right fun hnew => hsame ?_, hkey,
          hblocks⟩
        rw [← hkey, List.mem_singleton.mp hnew]

end Table

/-! ## Windows of a rate limit -/

section Windows

variable {length : Int} {limit : Nat}

/-- A window with the times of its events. -/
structure Window where
  start : Int
  times : List Int := []

/-- The windows up to now, the newest first. -/
structure Spaced (length : Int) (limit : Nat) (windows : List Window) : Prop where
  limited : ∀ w ∈ windows, w.times.length ≤ limit
  begun : ∀ w ∈ windows, ∀ t ∈ w.times, w.start ≤ t
  apart : windows.Pairwise fun newer older =>
    older.start + length ≤ newer.start ∧ ∀ t ∈ older.times, t ≤ newer.start

/-- The events of all windows in an interval of the length of a window. -/
def within (length a : Int) (windows : List Window) : List Int :=
  (windows.flatMap Window.times).filter fun t => a ≤ t ∧ t < a + length

theorem within_cons (a : Int) (w : Window) (windows : List Window) :
    within length a (w :: windows) =
      (w.times.filter fun t => a ≤ t ∧ t < a + length) ++ within length a windows := by
  rw [within, List.flatMap_cons, List.filter_append]
  rfl

/-- Windows whose events are all over when the interval begins do not count. -/
theorem within_eq_nil {a : Int} {windows : List Window}
    (h : ∀ w ∈ windows, ∀ t ∈ w.times, t < a) : within length a windows = [] := by
  rw [within, List.filter_eq_nil_iff]
  intro t ht
  obtain ⟨w, hw, ht⟩ := List.mem_flatMap.mp ht
  have hover := h w hw t ht
  simp only [decide_eq_true_eq, not_and]
  omega

/-- An interval of the length of a window meets two windows at most. -/
theorem Spaced.length_within_le {windows : List Window} (h : Spaced length limit windows)
    (a : Int) :
    (within length a windows).length ≤ 2 * limit := by
  induction windows with
  | nil => exact Nat.zero_le _
  | cons newest windows ih =>
      obtain ⟨hlimited, hbegun, hapart⟩ := h
      obtain ⟨hnewest, hapart⟩ := List.pairwise_cons.mp hapart
      have hrest := ih ⟨fun w hw => hlimited w (List.mem_cons_of_mem _ hw),
        fun w hw => hbegun w (List.mem_cons_of_mem _ hw), hapart⟩
      rw [within_cons, List.length_append]
      cases hmeets : newest.times.filter fun t => a ≤ t ∧ t < a + length with
      | nil =>
          rw [List.length_nil, Nat.zero_add]
          exact hrest
      | cons t times =>
          -- Behind an event of the newest window only the one before it can still be met.
          have hmem : t ∈ newest.times.filter fun t => a ≤ t ∧ t < a + length := by
            rw [hmeets]
            exact List.mem_cons_self
          obtain ⟨ht, hbound⟩ := List.mem_filter.mp hmem
          have hstart := hbegun newest List.mem_cons_self t ht
          have hbound : a ≤ t ∧ t < a + length := of_decide_eq_true hbound
          have hfirst : (t :: times).length ≤ limit := by
            rw [← hmeets]
            exact Nat.le_trans (List.length_filter_le _ _) (hlimited newest List.mem_cons_self)
          have hsecond : (within length a windows).length ≤ limit := by
            cases windows with
            | nil => exact Nat.zero_le _
            | cons previous older =>
                have hprevious := (hnewest previous List.mem_cons_self).1
                have hnone : within length a older = [] := by
                  apply within_eq_nil
                  intro w hw t ht
                  have hle := ((List.pairwise_cons.mp hapart).1 w hw).2 t ht
                  omega
                rw [within_cons, hnone, List.append_nil]
                exact Nat.le_trans (List.length_filter_le _ _)
                  (hlimited previous (List.mem_cons_of_mem _ List.mem_cons_self))
          omega

end Windows

end Throttle
