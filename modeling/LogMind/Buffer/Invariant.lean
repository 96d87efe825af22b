import LogMind.Buffer.LogBuffer
import LogMind.Library.Tiling
import Mathlib.Data.List.Induction

/-!
# What a push keeps

`Holds b capacity history` relates a buffer to everything ever pushed into it:
the ring is the end of the history, the identifiers are positions in the
history, the segments tile the identifiers from some point at or before the
oldest one, and every list of a segment is exactly the part of its range whose
message has the token. The eviction of whole segments leaves the lists of the
others alone, so stale identifiers only ever lie before the oldest one.
-/

namespace LogMind

namespace Segment

/-- The identifiers of the segment's range. -/
def ids (seg : Segment) : List Nat := Tiling.ids firstId lastId seg

@[simp] theorem addPosting_firstId (id : Nat) (seg : Segment) (token : Bytes) :
    (seg.addPosting id token).firstId = seg.firstId := rfl

@[simp] theorem addPosting_lastId (id : Nat) (seg : Segment) (token : Bytes) :
    (seg.addPosting id token).lastId = seg.lastId := rfl

theorem addPosting_postings_self (id : Nat) (seg : Segment) (token : Bytes) :
    (seg.addPosting id token).postings token =
      if (seg.postings token).getLast? = some id then seg.postings token
      else seg.postings token ++ [id] := by
  conv_lhs => rw [postings, addPosting]
  simp

theorem addPosting_postings_ne (id : Nat) (seg : Segment) {token other : Bytes}
    (h : other ≠ token) : (seg.addPosting id token).postings other = seg.postings other := by
  conv_lhs => rw [postings, addPosting]
  simp [AList.lookup_insert_ne h, postings]

theorem addPosting_getLast (id : Nat) (seg : Segment) (token : Bytes) :
    ((seg.addPosting id token).postings token).getLast? = some id := by
  rw [addPosting_postings_self]
  split
  · assumption
  · simp

@[simp] theorem foldl_addPosting_firstId (id : Nat) (tokens : List Bytes) (seg : Segment) :
    (tokens.foldl (addPosting id) seg).firstId = seg.firstId := by
  induction tokens generalizing seg with
  | nil => rfl
  | cons token tokens ih => rw [List.foldl_cons, ih, addPosting_firstId]

@[simp] theorem foldl_addPosting_lastId (id : Nat) (tokens : List Bytes) (seg : Segment) :
    (tokens.foldl (addPosting id) seg).lastId = seg.lastId := by
  induction tokens generalizing seg with
  | nil => rfl
  | cons token tokens ih => rw [List.foldl_cons, ih, addPosting_lastId]

/-- A list that ends in the identifier is not touched again. -/
theorem foldl_addPosting_of_getLast (id : Nat) (tokens : List Bytes) (seg : Segment)
    (token : Bytes) (hlast : (seg.postings token).getLast? = some id) :
    (tokens.foldl (addPosting id) seg).postings token = seg.postings token := by
  induction tokens generalizing seg with
  | nil => rfl
  | cons t tokens ih =>
      have hkeep : (seg.addPosting id t).postings token = seg.postings token := by
        by_cases h : token = t
        · subst h
          rw [addPosting_postings_self, if_pos hlast]
        · exact addPosting_postings_ne id seg h
      rw [List.foldl_cons, ih _ (by rw [hkeep, hlast]), hkeep]

/-- The words of one message add its identifier once to each of their lists. -/
theorem foldl_addPosting_postings (id : Nat) (tokens : List Bytes) (seg : Segment)
    (token : Bytes) (hfresh : (seg.postings token).getLast? ≠ some id) :
    (tokens.foldl (addPosting id) seg).postings token =
      seg.postings token ++ if tokens.contains token then [id] else [] := by
  induction tokens generalizing seg with
  | nil => simp
  | cons t tokens ih =>
      rw [List.foldl_cons]
      by_cases h : token = t
      · subst h
        rw [foldl_addPosting_of_getLast id tokens _ token (addPosting_getLast id seg token),
          addPosting_postings_self, if_neg hfresh]
        simp
      · have hkeep := addPosting_postings_ne id seg h
        rw [ih _ (by rw [hkeep]; exact hfresh), hkeep]
        simp [h]

end Segment

namespace LogBuffer

/-- Whether the entry pushed as number `id` has the token. -/
def hasToken (history : List LogEntry) (token : Bytes) (id : Nat) : Bool :=
  match history[id - 1]? with
  | none => false
  | some e => (tokenize e.message).contains token

/-- The identifiers a segment must list for a token. -/
def idsWithToken (history : List LogEntry) (seg : Segment) (token : Bytes) : List Nat :=
  seg.ids.filter (hasToken history token)

structure Holds (b : LogBuffer) (capacity : Nat) (history : List LogEntry) : Prop where
  capacity_pos : 0 < capacity
  capacity_eq : b.capacity = capacity
  items_eq : b.items = history.drop (history.length - capacity)
  oldest_eq : b.oldestId = history.length - capacity + 1
  next_eq : b.nextId = (history.length + 1) % wordBound
  tiles : ∃ first, 0 < first ∧ first ≤ b.oldestId ∧
    Tiling.Tiles Segment.firstId Segment.lastId first b.segments (history.length + 1)
  postings_eq : ∀ seg ∈ b.segments, ∀ token,
    seg.postings token = idsWithToken history seg token

theorem hasToken_append (history : List LogEntry) (entry : LogEntry) (token : Bytes) {id : Nat}
    (hpos : 0 < id) (hid : id ≤ history.length) :
    hasToken (history ++ [entry]) token id = hasToken history token id := by
  unfold hasToken
  rw [List.getElem?_append_left (by omega)]

theorem hasToken_append_self (history : List LogEntry) (entry : LogEntry) (token : Bytes) :
    hasToken (history ++ [entry]) token (history.length + 1) =
      (tokenize entry.message).contains token := by
  simp [hasToken]

theorem mem_ids (seg : Segment) (id : Nat) :
    id ∈ seg.ids ↔ seg.firstId ≤ id ∧ id ≤ seg.lastId := by
  simp only [Segment.ids, Tiling.ids, List.mem_range'_1]
  omega

/-- Entries pushed later do not change the lists of a closed segment. -/
theorem idsWithToken_append (history : List LogEntry) (entry : LogEntry) (seg : Segment)
    (token : Bytes) (hfirst : 0 < seg.firstId) (hlast : seg.lastId ≤ history.length) :
    idsWithToken (history ++ [entry]) seg token = idsWithToken history seg token := by
  apply List.filter_congr
  intro id hid
  rw [mem_ids] at hid
  exact hasToken_append history entry token (by omega) (by omega)

/-- Extending the range of a segment by the new entry extends its lists by it. -/
theorem idsWithToken_extend (history : List LogEntry) (entry : LogEntry) (seg : Segment)
    (token : Bytes) (hfirst : 0 < seg.firstId) (hle : seg.firstId ≤ history.length + 1)
    (hlast : seg.lastId = history.length + 1) :
    idsWithToken (history ++ [entry]) seg token =
      (List.range' seg.firstId (history.length + 1 - seg.firstId)).filter
          (hasToken history token) ++
        if (tokenize entry.message).contains token then [history.length + 1] else [] := by
  have hlen : seg.lastId + 1 - seg.firstId = (history.length + 1 - seg.firstId) + 1 := by omega
  have hend : seg.firstId + (history.length + 1 - seg.firstId) = history.length + 1 := by omega
  rw [idsWithToken, Segment.ids, Tiling.ids, hlen, ← List.range'_append_1, hend,
    List.filter_append]
  congr 1
  · apply List.filter_congr
    intro id hid
    rw [List.mem_range'_1] at hid
    exact hasToken_append history entry token (by omega) (by omega)
  · simp only [List.range'_one, List.filter_singleton, hasToken_append_self]
    cases (tokenize entry.message).contains token <;> rfl

/-- The counters do not wrap and the front is cut to the capacity. -/
theorem discardFront_eq (capacity : Nat) (items : List LogEntry) (oldest discarded : Nat)
    (hoverflow : oldest + (items.length - capacity) < wordBound) :
    (discardFront capacity items oldest discarded).1 = items.drop (items.length - capacity) ∧
      (discardFront capacity items oldest discarded).2.1 =
        oldest + (items.length - capacity) := by
  induction items generalizing oldest discarded with
  | nil => simp [discardFront]
  | cons e items ih =>
      rw [discardFront]
      split
      · rename_i hlen
        simp only [List.length_cons] at hlen hoverflow ⊢
        have hstep : (oldest + 1) % wordBound = oldest + 1 := Nat.mod_eq_of_lt (by omega)
        have hdrop : items.length + 1 - capacity = (items.length - capacity) + 1 := by omega
        have hrest := ih (oldest + 1) ((discarded + 1) % wordBound) (by omega)
        rw [hstep, hdrop, List.drop_succ_cons]
        exact ⟨hrest.1, by rw [hrest.2]; omega⟩
      · rename_i hlen
        have hzero : (e :: items).length - capacity = 0 := by omega
        rw [hzero]
        exact ⟨rfl, rfl⟩

theorem dropStale_subset (oldest : Nat) (segments : List Segment) :
    ∀ seg ∈ dropStale oldest segments, seg ∈ segments := by
  induction segments with
  | nil => simp [dropStale]
  | cons front rest ih =>
      intro seg hseg
      cases rest with
      | nil => simpa [dropStale] using hseg
      | cons next rest =>
          rw [dropStale] at hseg
          split at hseg
          · exact List.mem_cons_of_mem _ (ih seg hseg)
          · exact hseg

/-- What eviction leaves still tiles the identifiers from the oldest one on. -/
theorem dropStale_tiles (oldest hi : Nat) (segments : List Segment) {first : Nat}
    (hpos : 0 < first) (hfirst : first ≤ oldest)
    (htiles : Tiling.Tiles Segment.firstId Segment.lastId first segments hi) :
    ∃ first', 0 < first' ∧ first' ≤ oldest ∧
      Tiling.Tiles Segment.firstId Segment.lastId first' (dropStale oldest segments) hi := by
  induction segments generalizing first with
  | nil => exact ⟨first, hpos, hfirst, htiles⟩
  | cons front rest ih =>
      cases rest with
      | nil => exact ⟨first, hpos, hfirst, htiles⟩
      | cons next rest =>
          rw [dropStale]
          split
          · rename_i hstale
            exact ih (by omega) (by omega) htiles.2.2
          · exact ⟨first, hpos, hfirst, htiles⟩

/-- The segment that takes the new entry closes the tiling at it. -/
theorem openSegment_tiles (span id : Nat) (segments : List Segment) {first : Nat}
    (htiles : Tiling.Tiles Segment.firstId Segment.lastId first segments id) :
    Tiling.Tiles Segment.firstId Segment.lastId first
      ((openSegment span segments id).1 ++ [(openSegment span segments id).2]) (id + 1) := by
  unfold openSegment
  cases hback : segments.getLast? with
  | none =>
      have hnil : segments = [] := List.getLast?_eq_none_iff.mp hback
      subst hnil
      have hid : first = id := htiles
      simp [Tiling.tiles_cons, hid]
  | some back =>
      have hsplit : segments = segments.dropLast ++ [back] :=
        (List.dropLast_append_getLast? back hback).symm
      simp only
      split
      · rw [Tiling.tiles_append_singleton]
        exact ⟨htiles, le_refl _, rfl⟩
      · rw [hsplit, Tiling.tiles_append_singleton] at htiles
        rw [Tiling.tiles_append_singleton]
        exact ⟨htiles.1, by simp only; omega, rfl⟩

theorem openSegment_closed_subset (span id : Nat) (segments : List Segment) :
    ∀ seg ∈ (openSegment span segments id).1, seg ∈ segments := by
  intro seg hseg
  unfold openSegment at hseg
  split at hseg
  · exact hseg
  · split at hseg
    · exact hseg
    · exact List.dropLast_subset _ hseg

/-- The lists of the segment that takes the new entry cover its range so far. -/
theorem openSegment_postings (span : Nat) (segments : List Segment) (history : List LogEntry)
    {first : Nat} (hpos : 0 < first)
    (htiles : Tiling.Tiles Segment.firstId Segment.lastId first segments (history.length + 1))
    (hpost : ∀ seg ∈ segments, ∀ token, seg.postings token = idsWithToken history seg token)
    (token : Bytes) :
    let seg := (openSegment span segments (history.length + 1)).2
    0 < seg.firstId ∧ seg.firstId ≤ history.length + 1 ∧ seg.lastId = history.length + 1 ∧
      seg.postings token =
        (List.range' seg.firstId (history.length + 1 - seg.firstId)).filter
          (hasToken history token) := by
  unfold openSegment
  split
  · simp [Segment.postings]
  · rename_i back hback
    split
    · simp [Segment.postings]
    · have hmem : back ∈ segments := List.mem_of_getLast? hback
      have hin := htiles.mem hmem
      have hlast : back.lastId = history.length := by
        have hsplit : segments = segments.dropLast ++ [back] :=
          (List.dropLast_append_getLast? back hback).symm
        rw [hsplit, Tiling.tiles_append_singleton] at htiles
        omega
      have hlist := hpost back hmem token
      rw [idsWithToken, Segment.ids, Tiling.ids, hlast] at hlist
      exact ⟨by simp only; omega, by simp only; omega, rfl, hlist⟩

theorem indexEntryLocked_segments (b : LogBuffer) (message : Bytes) (id : Nat) :
    (b.indexEntryLocked message id).segments =
      (openSegment b.segmentSpan b.segments id).1 ++
        [(tokenize message).foldl (Segment.addPosting id)
          (openSegment b.segmentSpan b.segments id).2] := rfl

/-- What the index holds after the new entry has been added to it. -/
theorem indexEntryLocked_postings (b : LogBuffer) (history : List LogEntry) (entry : LogEntry)
    {first : Nat} (hpos : 0 < first)
    (htiles : Tiling.Tiles Segment.firstId Segment.lastId first b.segments
      (history.length + 1))
    (hpost : ∀ seg ∈ b.segments, ∀ token, seg.postings token = idsWithToken history seg token) :
    ∀ seg ∈ (b.indexEntryLocked entry.message (history.length + 1)).segments, ∀ token,
      seg.postings token = idsWithToken (history ++ [entry]) seg token := by
  intro seg hseg token
  rw [indexEntryLocked_segments] at hseg
  rcases List.mem_append.mp hseg with hclosed | hopened
  · have hmem := openSegment_closed_subset _ _ _ seg hclosed
    have hin := htiles.mem hmem
    rw [hpost seg hmem token, idsWithToken_append history entry seg token (by omega) (by omega)]
  · rw [List.mem_singleton] at hopened
    subst hopened
    obtain ⟨hfirst, hle, hlast, hlist⟩ :=
      openSegment_postings b.segmentSpan b.segments history hpos htiles hpost token
    have hfresh : ((openSegment b.segmentSpan b.segments (history.length + 1)).2.postings
        token).getLast? ≠ some (history.length + 1) := by
      rw [hlist]
      intro hlast
      have hmem := List.mem_of_mem_filter (List.mem_of_getLast? hlast)
      rw [List.mem_range'_1] at hmem
      omega
    rw [Segment.foldl_addPosting_postings _ _ _ _ hfresh, hlist,
      idsWithToken_extend history entry _ token (by simpa using hfirst) (by simpa using hle)
        (by simpa using hlast)]
    simp

/-- The tiling after the new entry has been added to the index. -/
theorem indexEntryLocked_tiles (b : LogBuffer) (message : Bytes) (id : Nat) {first : Nat}
    (htiles : Tiling.Tiles Segment.firstId Segment.lastId first b.segments id) :
    Tiling.Tiles Segment.firstId Segment.lastId first
      (b.indexEntryLocked message id).segments (id + 1) := by
  have hopen := openSegment_tiles b.segmentSpan id b.segments htiles
  rw [Tiling.tiles_append_singleton] at hopen
  rw [indexEntryLocked_segments, Tiling.tiles_append_singleton]
  simpa using hopen

/-- The identifier of the front after the entry has been stored. -/
def storedOldestId (b : LogBuffer) : Nat := if b.items.isEmpty then b.nextId else b.oldestId

theorem push_items (b : LogBuffer) (entry : LogEntry) :
    (b.push entry).items =
      (discardFront b.capacity (b.items ++ [entry]) b.storedOldestId b.totalDiscarded).1 := rfl

theorem push_oldestId (b : LogBuffer) (entry : LogEntry) :
    (b.push entry).oldestId =
      (discardFront b.capacity (b.items ++ [entry]) b.storedOldestId b.totalDiscarded).2.1 := rfl

theorem push_segments (b : LogBuffer) (entry : LogEntry) :
    (b.push entry).segments =
      dropStale (b.push entry).oldestId (b.indexEntryLocked entry.message b.nextId).segments :=
  rfl

/-- One push keeps the relation to the history, as long as identifiers do not wrap. -/
theorem Holds.push {b : LogBuffer} {capacity : Nat} {history : List LogEntry}
    (h : Holds b capacity history) (entry : LogEntry)
    (hbound : history.length + 1 < wordBound) :
    Holds (b.push entry) capacity (history ++ [entry]) := by
  obtain ⟨first, hpos, hfirst, htiles⟩ := h.tiles
  have hcap := h.capacity_pos
  have hid : b.nextId = history.length + 1 := by
    rw [h.next_eq]
    exact Nat.mod_eq_of_lt hbound
  have hlength : b.items.length = history.length - (history.length - capacity) := by
    rw [h.items_eq, List.length_drop]
  have hoverflow : (b.items ++ [entry]).length - capacity =
      (history.length + 1 - capacity) - (history.length - capacity) := by
    rw [List.length_append, List.length_singleton]
    omega
  have hstored : b.storedOldestId = history.length - capacity + 1 := by
    unfold storedOldestId
    split
    · rename_i hempty
      have hzero : b.items.length = 0 := by simpa using hempty
      omega
    · exact h.oldest_eq
  obtain ⟨hitems, holdest⟩ := discardFront_eq capacity (b.items ++ [entry]) b.storedOldestId
    b.totalDiscarded (by rw [hoverflow, hstored]; omega)
  have holdest' : (b.push entry).oldestId = history.length + 1 - capacity + 1 := by
    rw [push_oldestId, h.capacity_eq, holdest, hoverflow, hstored]
    omega
  have hindexTiles := indexEntryLocked_tiles b entry.message (history.length + 1) htiles
  have hindexPost := indexEntryLocked_postings b history entry hpos htiles h.postings_eq
  obtain ⟨first', hpos', hfirst', htiles'⟩ := dropStale_tiles (b.push entry).oldestId
    (history.length + 1 + 1) _ hpos (by rw [holdest']; have := h.oldest_eq; omega) hindexTiles
  refine ⟨hcap, h.capacity_eq, ?_, ?_, ?_, ?_, ?_⟩
  · have hdrop : b.items ++ [entry] =
        (history ++ [entry]).drop (history.length - capacity) := by
      rw [h.items_eq, List.drop_append_of_le_length (by omega)]
    rw [push_items, h.capacity_eq, hitems, hoverflow, hdrop, List.drop_drop]
    congr 1
    rw [List.length_append, List.length_singleton]
    omega
  · rw [holdest', List.length_append, List.length_singleton]
  · change (b.nextId + 1) % wordBound = _
    rw [hid, List.length_append, List.length_singleton]
  · rw [push_segments, hid, List.length_append, List.length_singleton]
    exact ⟨first', hpos', hfirst', htiles'⟩
  · intro seg hseg token
    rw [push_segments, hid] at hseg
    exact hindexPost seg (dropStale_subset _ _ seg hseg) token

theorem new_holds (capacity : Nat) :
    Holds (new capacity) (if capacity = 0 then 1 else capacity) [] := by
  refine ⟨by split <;> omega, rfl, by simp [new], by simp [new], rfl, ⟨1, by omega, ?_, rfl⟩, ?_⟩
  · simp [new]
  · intro seg hseg
    simp [new] at hseg

/-- Every reachable buffer is related to what has been pushed into it. -/
theorem after_holds (capacity : Nat) (history : List LogEntry)
    (hbound : history.length < wordBound) :
    Holds (after capacity history) (if capacity = 0 then 1 else capacity) history := by
  induction history using List.reverseRecOn with
  | nil => exact new_holds capacity
  | append_singleton history entry ih =>
      rw [List.length_append, List.length_singleton] at hbound
      have hpush := (ih (by omega)).push entry hbound
      rwa [after, List.foldl_append, List.foldl_cons, List.foldl_nil]

end LogBuffer

end LogMind
