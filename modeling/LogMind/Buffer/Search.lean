import LogMind.Buffer.Invariant
import Mathlib.Data.List.Infix

/-!
# Searching is scanning

`referenceSearch` says what a search means on the list of live entries, newest
first: the entries with every word of the query, or, when there are none, those
that contain the query as a substring. The index answers the first part segment
by segment; this file shows that its answer is that of the scan, on every buffer
a sequence of pushes can produce.
-/

namespace LogMind

namespace LogBuffer

/-- The live entries, newest first, after a sequence of pushes. -/
def liveEntries (capacity : Nat) (history : List LogEntry) : List LogEntry :=
  history.reverse.take (if capacity = 0 then 1 else capacity)

/-- Whether a message has every token of the list. -/
def hasEveryToken (tokens : List Bytes) (e : LogEntry) : Bool :=
  tokens.all fun token => (tokenize e.message).contains token

/-- A search by scanning the live entries. -/
def referenceSearch (live : List LogEntry) (query : Bytes) (limit : Nat) : List LogEntry :=
  if query = [] then live.take limit
  else if tokenize query ≠ [] ∧ live.filter (hasEveryToken (tokenize query)) ≠ [] then
    (live.filter (hasEveryToken (tokenize query))).take limit
  else (live.filter fun e => toLower query <:+: toLower e.message).take limit

/-! ## One segment -/

/-- The shortest list is that of one of the tokens, and no token is missing. -/
theorem findShortest_some (seg : Segment) (tokens : List Bytes) (shortest : Option Bytes)
    {best : Bytes} (h : findShortest seg tokens shortest = some (some best)) :
    best ∈ tokens ∨ shortest = some best := by
  induction tokens generalizing shortest with
  | nil =>
      right
      simpa [findShortest] using h
  | cons token tokens ih =>
      rw [findShortest] at h
      split at h
      · simp at h
      · split at h
        · rcases ih _ h with hmem | heq
          · exact Or.inl (List.mem_cons_of_mem _ hmem)
          · exact Or.inl (by simp [Option.some.inj heq])
        · rename_i kept
          split at h
          · rcases ih _ h with hmem | heq
            · exact Or.inl (List.mem_cons_of_mem _ hmem)
            · exact Or.inl (by simp [Option.some.inj heq])
          · rcases ih _ h with hmem | heq
            · exact Or.inl (List.mem_cons_of_mem _ hmem)
            · exact Or.inr heq

/-- The search for the shortest list fails only on a token without a list. -/
theorem findShortest_none (seg : Segment) (tokens : List Bytes) (shortest : Option Bytes)
    (h : findShortest seg tokens shortest = none) :
    ∃ token ∈ tokens, seg.postings token = [] := by
  induction tokens generalizing shortest with
  | nil => simp [findShortest] at h
  | cons token tokens ih =>
      rw [findShortest] at h
      split at h
      · rename_i hmissing
        exact ⟨token, List.mem_cons_self, by simp [Segment.postings, hmissing]⟩
      · have hrest : ∃ t ∈ tokens, seg.postings t = [] := by
          split at h
          · exact ih _ h
          · split at h
            · exact ih _ h
            · exact ih _ h
        obtain ⟨t, hmem, hnil⟩ := hrest
        exact ⟨t, List.mem_cons_of_mem _ hmem, hnil⟩

/-- It finds no list at all only without tokens. -/
theorem findShortest_some_none (seg : Segment) (tokens : List Bytes) (shortest : Option Bytes)
    (h : findShortest seg tokens shortest = some none) : tokens = [] := by
  induction tokens generalizing shortest with
  | nil => rfl
  | cons token tokens ih =>
      have hnil : findShortest seg [] (some token) ≠ some none := by simp [findShortest]
      rw [findShortest] at h
      split at h
      · simp at h
      · split at h
        · rw [ih _ h] at h
          exact absurd h hnil
        · split at h
          · rw [ih _ h] at h
            exact absurd h hnil
          · rw [ih _ h] at h
            simp [findShortest] at h

theorem filterPostings_eq (seg : Segment) (shortest : Bytes) (tokens : List Bytes)
    (result : List Nat) :
    filterPostings seg shortest tokens result =
      result.filter fun id => tokens.all fun token =>
        token == shortest || (seg.postings token).contains id := by
  induction tokens generalizing result with
  | nil => simp [filterPostings]
  | cons token tokens ih =>
      rw [filterPostings]
      split
      · rename_i hsame
        simp [ih, hsame]
      · rename_i hother
        have hkept : result.filter (fun id => (token :: tokens).all fun t =>
            t == shortest || (seg.postings t).contains id) =
            (result.filter fun id => (seg.postings token).contains id).filter fun id =>
              tokens.all fun t => t == shortest || (seg.postings t).contains id := by
          rw [List.filter_filter]
          apply List.filter_congr
          intro id _
          rw [List.all_cons, beq_eq_false_iff_ne.mpr hother, Bool.false_or, Bool.and_comm]
        dsimp only
        split
        · rename_i hempty
          rw [hkept, List.isEmpty_iff.mp hempty, List.filter_nil]
        · rw [ih, hkept]

/-- A lookup selects the identifiers of the range that have every token. -/
theorem lookupSegment_eq (history : List LogEntry) (seg : Segment) (tokens : List Bytes)
    (hne : tokens ≠ [])
    (hpost : ∀ token, seg.postings token = idsWithToken history seg token) :
    lookupSegment seg tokens =
      seg.ids.filter fun id => tokens.all fun token => hasToken history token id := by
  have hcontains : ∀ token, ∀ id ∈ seg.ids,
      (seg.postings token).contains id = hasToken history token id := by
    intro token id hid
    rw [hpost, idsWithToken, Bool.eq_iff_iff, List.contains_iff_mem, List.mem_filter]
    exact ⟨fun h => h.2, fun h => ⟨hid, h⟩⟩
  unfold lookupSegment
  split
  · rename_i shortest hfound
    have hmem : shortest ∈ tokens := by
      rcases findShortest_some seg tokens none hfound with hmem | hnone
      · exact hmem
      · simp at hnone
    rw [filterPostings_eq, hpost, idsWithToken, List.filter_filter]
    apply List.filter_congr
    intro id hid
    rw [Bool.eq_iff_iff]
    simp only [Bool.and_eq_true, List.all_eq_true, Bool.or_eq_true, beq_iff_eq]
    constructor
    · rintro ⟨hall, hshort⟩ token htoken
      rcases hall token htoken with hsame | hlisted
      · rwa [hsame]
      · rwa [hcontains token id hid] at hlisted
    · intro hall
      refine ⟨fun token htoken => Or.inr ?_, hall shortest hmem⟩
      rw [hcontains token id hid]
      exact hall token htoken
  · rename_i hnot
    symm
    rw [List.filter_eq_nil_iff]
    intro id hid hall
    cases hfind : findShortest seg tokens none with
    | none =>
        obtain ⟨token, htoken, hnil⟩ := findShortest_none seg tokens none hfind
        have hhas := List.all_eq_true.mp hall token htoken
        rw [← hcontains token id hid, hnil] at hhas
        simp at hhas
    | some found =>
        cases found with
        | none => exact hne (findShortest_some_none seg tokens none hfind)
        | some best => exact hnot best hfind

/-! ## From identifiers to entries -/

/-- Reading a list by its positions gives it back. -/
theorem filterMap_getElem? (start : Nat) (items : List LogEntry) :
    (List.range' start items.length).filterMap (fun id => items[id - start]?) = items := by
  induction items generalizing start with
  | nil => simp
  | cons e items ih =>
      rw [List.length_cons, List.range'_succ, List.filterMap_cons]
      simp only [Nat.sub_self, List.getElem?_cons_zero]
      congr 1
      conv_rhs => rw [← ih (start + 1)]
      apply List.filterMap_congr
      intro id hid
      rw [List.mem_range'_1] at hid
      have hsub : id - start = (id - (start + 1)) + 1 := by omega
      rw [hsub, List.getElem?_cons_succ]

theorem Holds.length_items {b : LogBuffer} {capacity : Nat} {history : List LogEntry}
    (h : Holds b capacity history) :
    b.oldestId + b.items.length = history.length + 1 := by
  rw [h.oldest_eq, h.items_eq, List.length_drop]
  omega

/-- An identifier names its entry while the entry is in the ring. -/
theorem entryForLocked_eq (b : LogBuffer) {id : Nat} (hid : id < wordBound) :
    b.entryForLocked id = if id < b.oldestId then none else b.items[id - b.oldestId]? := by
  unfold entryForLocked
  split
  · rfl
  · rename_i hge
    rw [sub64_of_le (by omega) hid]

/-- Looking up the live identifiers of a selection is selecting the live entries. -/
theorem Holds.filterMap_entryForLocked {b : LogBuffer} {capacity : Nat}
    {history : List LogEntry} (h : Holds b capacity history)
    (hbound : history.length < wordBound) (tokens : List Bytes) {first : Nat}
    (hfirst : first ≤ b.oldestId) :
    ((List.range' first (history.length + 1 - first)).filter fun id =>
        tokens.all fun token => hasToken history token id).filterMap b.entryForLocked =
      b.items.filter (hasEveryToken tokens) := by
  have hlen := h.length_items
  have hsplit : history.length + 1 - first =
      (b.oldestId - first) + b.items.length := by omega
  have hmid : first + (b.oldestId - first) = b.oldestId := by omega
  rw [hsplit, ← List.range'_append_1, hmid, List.filter_append, List.filterMap_append]
  have hstale : ((List.range' first (b.oldestId - first)).filter fun id =>
      tokens.all fun token => hasToken history token id).filterMap b.entryForLocked = [] := by
    rw [List.filterMap_eq_nil_iff]
    intro id hid
    have hrange := List.mem_of_mem_filter hid
    rw [List.mem_range'_1] at hrange
    rw [b.entryForLocked_eq (by omega), if_pos (by omega)]
  rw [hstale, List.nil_append, List.filterMap_filter]
  conv_rhs => rw [← filterMap_getElem? b.oldestId b.items, List.filter_filterMap]
  apply List.filterMap_congr
  intro id hid
  rw [List.mem_range'_1] at hid
  have hentry : b.entryForLocked id = b.items[id - b.oldestId]? := by
    rw [b.entryForLocked_eq (by omega), if_neg (by omega)]
  have hsame : b.items[id - b.oldestId]? = history[id - 1]? := by
    have hold := h.oldest_eq
    rw [h.items_eq, List.getElem?_drop]
    congr 1
    omega
  have htoken : ∀ token, hasToken history token id =
      ((b.items[id - b.oldestId]?).any fun e => (tokenize e.message).contains token) := by
    intro token
    rw [hasToken, hsame]
    cases history[id - 1]? <;> rfl
  rw [hentry]
  cases hget : b.items[id - b.oldestId]? with
  | none => simp
  | some e => simp [htoken, hget, hasEveryToken, Option.filter]

/-! ## The whole search -/

theorem Holds.searchIndex_eq {b : LogBuffer} {capacity : Nat} {history : List LogEntry}
    (h : Holds b capacity history) (hbound : history.length < wordBound) (tokens : List Bytes)
    (hne : tokens ≠ []) (limit : Nat) :
    b.searchIndex tokens limit =
      (b.items.reverse.filter (hasEveryToken tokens)).take limit := by
  obtain ⟨first, _, hfirst, htiles⟩ := h.tiles
  have hblocks : b.segments.reverse.flatMap (fun seg => (lookupSegment seg tokens).reverse) =
      b.segments.reverse.flatMap (fun seg => (seg.ids.filter fun id =>
        tokens.all fun token => hasToken history token id).reverse) := by
    apply List.flatMap_congr
    intro seg hseg
    rw [lookupSegment_eq history seg tokens hne
      (h.postings_eq seg (List.mem_reverse.mp hseg))]
  have htiled := htiles.flatMap_reverse_filter fun id =>
    tokens.all fun token => hasToken history token id
  rw [searchIndex, BoundedScan.collectBlocks_eq _ _ _ _ _ (Nat.zero_le _), hblocks]
  change (List.take limit ([] ++ List.filterMap _ (List.flatMap (fun seg =>
    ((Tiling.ids Segment.firstId Segment.lastId seg).filter _).reverse) _))) = _
  rw [htiled, List.nil_append, List.filterMap_reverse,
    h.filterMap_entryForLocked hbound tokens hfirst, List.filter_reverse]

theorem searchScan_eq (b : LogBuffer) (query : Bytes) (limit : Nat) :
    b.searchScan query limit =
      (b.items.reverse.filter fun e => toLower query <:+: toLower e.message).take limit := by
  rw [searchScan, BoundedScan.collect_eq _ _ _ _ (Nat.zero_le _), List.nil_append]
  congr 1
  rw [← List.filterMap_eq_filter]
  apply List.filterMap_congr
  intro e _
  by_cases hc : containsCi e.message (toLower query) = true
  · simp [hc, Option.guard, (containsCi_toLower_iff _ _).mp hc]
  · simp [hc, Option.guard, (containsCi_toLower_iff _ _).not.mp hc]

/-- On a buffer related to its history the search is the scan of its entries. -/
theorem Holds.search_eq {b : LogBuffer} {capacity : Nat} {history : List LogEntry}
    (h : Holds b capacity history) (hbound : history.length < wordBound) (query : Bytes)
    (limit : Nat) : b.search query limit = referenceSearch b.items.reverse query limit := by
  unfold search referenceSearch
  split
  · rename_i hnone
    rcases hnone with hzero | hempty
    · simp [hzero]
    · simp [List.isEmpty_iff.mp hempty]
  · rename_i hsome
    have hlimit : 0 < limit := by
      by_contra hzero
      exact hsome (Or.inl (by omega))
    by_cases hquery : query = []
    · rw [if_pos (by simp [hquery]), if_pos hquery,
        BoundedScan.collect_eq _ _ _ _ (Nat.zero_le _)]
      simp
    · rw [if_neg (by simpa using hquery), if_neg hquery]
      dsimp only
      by_cases htokens : tokenize query = []
      · simp [htokens, searchScan_eq]
      · rw [h.searchIndex_eq hbound _ htokens, searchScan_eq]
        by_cases hhits : b.items.reverse.filter (hasEveryToken (tokenize query)) = []
        · simp [htokens, hhits]
        · have htake : (b.items.reverse.filter
              (hasEveryToken (tokenize query))).take limit ≠ [] := by
            simp only [ne_eq, List.take_eq_nil_iff, not_or]
            exact ⟨by omega, hhits⟩
          simp only [List.isEmpty_iff, htokens, htake, if_false, ne_eq, not_false_eq_true,
            hhits, and_self, if_true]

theorem Holds.items_reverse {b : LogBuffer} {capacity : Nat} {history : List LogEntry}
    (h : Holds b capacity history) : b.items.reverse = history.reverse.take capacity := by
  rw [h.items_eq, List.reverse_drop]
  by_cases hle : capacity ≤ history.length
  · congr 1
    omega
  · rw [List.take_of_length_le (by simp; omega), List.take_of_length_le (by simp; omega)]

theorem referenceSearch_sublist (live : List LogEntry) (query : Bytes) (limit : Nat) :
    (referenceSearch live query limit).Sublist live := by
  unfold referenceSearch
  split
  · exact List.take_sublist _ _
  · split
    · exact (List.take_sublist _ _).trans List.filter_sublist
    · exact (List.take_sublist _ _).trans List.filter_sublist

/-- A search of any reachable buffer answers as the scan of its live entries,
and its answer takes every entry at most once and from the live ones only. -/
theorem search_after_eq_reference (capacity : Nat) (history : List LogEntry)
    (hbound : history.length < wordBound) (query : Bytes) (limit : Nat) :
    (after capacity history).items.reverse = liveEntries capacity history ∧
      (after capacity history).search query limit =
        referenceSearch (liveEntries capacity history) query limit ∧
      ((after capacity history).search query limit).Sublist
        (liveEntries capacity history) := by
  have h := after_holds capacity history hbound
  have hlive : (after capacity history).items.reverse = liveEntries capacity history :=
    h.items_reverse
  have hsearch := h.search_eq hbound query limit
  rw [hlive] at hsearch
  exact ⟨hlive, hsearch, hsearch ▸ referenceSearch_sublist _ query limit⟩

/-- A buffer of two entries after three pushes, searched by a word. -/
theorem search_after_eq_reference_three :
    let history : List LogEntry :=
      [{ message := ascii "a b" }, { message := ascii "B c" }, { message := ascii "b" }]
    (after 2 history).items.reverse = liveEntries 2 history ∧
      (after 2 history).search (ascii "b") 5 =
        referenceSearch (liveEntries 2 history) (ascii "b") 5 ∧
      ((after 2 history).search (ascii "b") 5).Sublist (liveEntries 2 history) :=
  search_after_eq_reference 2 _ (by decide) (ascii "b") 5

end LogBuffer

end LogMind
