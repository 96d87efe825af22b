import LogMind.Buffer.Search

/-!
# What a push does to the answer of a search

The substring scan answers while no message has every word of the query. The first entry
with all of them switches the search to the index, which then finds that entry alone.
Apart from this the answer only grows.
-/

namespace LogMind

namespace LogBuffer

/-- The entry is the first one with every word of the query. -/
def SwitchesToIndex (items : List LogEntry) (query : Bytes) (entry : LogEntry) : Prop :=
  tokenize query ≠ [] ∧ (∀ e ∈ items, hasEveryToken (tokenize query) e = false) ∧
    hasEveryToken (tokenize query) entry = true

instance (items : List LogEntry) (query : Bytes) (entry : LogEntry) :
    Decidable (SwitchesToIndex items query entry) :=
  inferInstanceAs (Decidable (tokenize query ≠ [] ∧
    (∀ e ∈ items, hasEveryToken (tokenize query) e = false) ∧
    hasEveryToken (tokenize query) entry = true))

theorem query_ne_of_tokenize {query : Bytes} (h : tokenize query ≠ []) : query ≠ [] := by
  rintro rfl
  exact h rfl

/-- A limit that no answer can reach is no limit. -/
theorem take_filter_of_length_le {live : List LogEntry} {limit : Nat} (h : live.length ≤ limit)
    (p : LogEntry → Bool) : (live.filter p).take limit = live.filter p :=
  List.take_of_length_le ((List.length_filter_le p live).trans h)

/-- The answer on a longer list of entries, unless the new one switches to the index. -/
theorem referenceSearch_cons_sublist {live : List LogEntry} {query : Bytes} {entry : LogEntry}
    {limit : Nat} (hlimit : live.length + 1 ≤ limit)
    (hstay : ¬ SwitchesToIndex live query entry) :
    (referenceSearch live query limit).Sublist
      (referenceSearch (entry :: live) query limit) := by
  have hlive : live.length ≤ limit := Nat.le_of_succ_le hlimit
  have hcons : (entry :: live).length ≤ limit := hlimit
  have hgrows : ∀ p : LogEntry → Bool,
      (live.filter p).Sublist ((entry :: live).filter p) := fun p =>
    (List.sublist_cons_self entry live).filter p
  unfold referenceSearch
  by_cases hquery : query = []
  · rw [if_pos hquery, if_pos hquery, List.take_of_length_le hlive,
      List.take_of_length_le hcons]
    exact List.sublist_cons_self entry live
  rw [if_neg hquery, if_neg hquery, take_filter_of_length_le hlive,
    take_filter_of_length_le hlive, take_filter_of_length_le hcons,
    take_filter_of_length_le hcons]
  by_cases hwords : tokenize query = []
  · rw [if_neg (fun h => h.1 hwords), if_neg (fun h => h.1 hwords)]
    exact hgrows _
  by_cases hhits : live.filter (hasEveryToken (tokenize query)) = []
  · -- the entry has not every word either, so both answers are scans
    have hentry : hasEveryToken (tokenize query) entry = false := by
      rw [List.filter_eq_nil_iff] at hhits
      rw [← Bool.not_eq_true]
      intro hhas
      exact hstay ⟨hwords, fun e he => by simpa using hhits e he, hhas⟩
    have hnone : (entry :: live).filter (hasEveryToken (tokenize query)) = [] := by
      rw [List.filter_cons_of_neg (by simp [hentry]), hhits]
    rw [if_neg (fun h => h.2 hhits), if_neg (fun h => h.2 hnone)]
    exact hgrows _
  · have hsome : (entry :: live).filter (hasEveryToken (tokenize query)) ≠ [] := by
      intro hnone
      have hsub := hgrows (hasEveryToken (tokenize query))
      rw [hnone] at hsub
      exact hhits (List.sublist_nil.mp hsub)
    rw [if_pos ⟨hwords, hhits⟩, if_pos ⟨hwords, hsome⟩]
    exact hgrows _

/-- The entry that switches to the index is the whole answer. -/
theorem referenceSearch_cons_of_switch {live : List LogEntry} {query : Bytes} {entry : LogEntry}
    {limit : Nat} (hlimit : 0 < limit) (hswitch : SwitchesToIndex live query entry) :
    referenceSearch (entry :: live) query limit = [entry] := by
  obtain ⟨hwords, hnone, hentry⟩ := hswitch
  have hhits : (entry :: live).filter (hasEveryToken (tokenize query)) = [entry] := by
    rw [List.filter_cons_of_pos hentry, List.filter_eq_nil_iff.mpr]
    intro e he
    rw [hnone e he]
    exact Bool.false_ne_true
  unfold referenceSearch
  rw [if_neg (query_ne_of_tokenize hwords), hhits, if_pos ⟨hwords, List.cons_ne_nil _ _⟩,
    List.take_of_length_le hlimit]

theorem switchesToIndex_reverse {items : List LogEntry} {query : Bytes} {entry : LogEntry} :
    SwitchesToIndex items.reverse query entry ↔ SwitchesToIndex items query entry := by
  simp [SwitchesToIndex]

/-- A push that evicts nothing keeps what a search has found, in its order, unless the
entry is the first one with every word of the query: then it is found alone. -/
theorem search_push (capacity : Nat) (history : List LogEntry) (entry : LogEntry)
    (hbound : history.length + 1 < wordBound)
    (hkept : ((after capacity history).push entry).items =
      (after capacity history).items ++ [entry]) (query : Bytes) (limit : Nat)
    (hlimit : (after capacity history).items.length + 1 ≤ limit) :
    if SwitchesToIndex (after capacity history).items query entry then
      ((after capacity history).push entry).search query limit = [entry]
    else ((after capacity history).search query limit).Sublist
      (((after capacity history).push entry).search query limit) := by
  have hbefore := after_holds capacity history (by omega)
  have hafter := hbefore.push entry hbound
  have hlength : (history ++ [entry]).length < wordBound := by simpa using hbound
  rw [hbefore.search_eq (by omega), hafter.search_eq hlength, hkept, List.reverse_append,
    List.reverse_singleton, List.singleton_append]
  split
  · rename_i hswitch
    exact referenceSearch_cons_of_switch (by omega) (switchesToIndex_reverse.mpr hswitch)
  · rename_i hstay
    exact referenceSearch_cons_sublist (by simpa using hlimit)
      fun h => hstay (switchesToIndex_reverse.mp h)

/-- A word that comes twice. -/
theorem search_push_disk :
    let history : List LogEntry := [{ message := ascii "disk full" }]
    let entry : LogEntry := { message := ascii "disk ok" }
    if SwitchesToIndex (after 10 history).items (ascii "disk") entry then
      ((after 10 history).push entry).search (ascii "disk") 5 = [entry]
    else ((after 10 history).search (ascii "disk") 5).Sublist
      (((after 10 history).push entry).search (ascii "disk") 5) :=
  search_push 10 [{ message := ascii "disk full" }] { message := ascii "disk ok" } (by decide) rfl
    (ascii "disk") 5 (by decide)

/-- The entry `error` is found by the substring `err` until an entry has the word. -/
theorem search_push_err :
    let history : List LogEntry := [{ message := ascii "error" }]
    let entry : LogEntry := { message := ascii "err" }
    ((after 10 history).push entry).items = (after 10 history).items ++ [entry] ∧
      (after 10 history).items.length + 1 ≤ 5 ∧
      (after 10 history).search (ascii "err") 5 = history ∧
      ¬ (after 10 history).search (ascii "err") 5 ⊆
        ((after 10 history).push entry).search (ascii "err") 5 := by
  refine ⟨rfl, by decide, rfl, fun hsub => ?_⟩
  have hmem : ({ message := ascii "error" } : LogEntry) ∈
      [({ message := ascii "error" } : LogEntry)] := List.mem_singleton_self _
  have hfound : (ascii "error") ∈
      (((after 10 [{ message := ascii "error" }]).push { message := ascii "err" }).search
        (ascii "err") 5).map LogEntry.message :=
    List.mem_map_of_mem (hsub hmem)
  exact absurd hfound (by decide)

end LogBuffer

end LogMind
