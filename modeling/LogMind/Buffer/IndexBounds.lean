import LogMind.Buffer.Ring

/-!
# The size of the index

A segment takes identifiers until it spans as many as it may, and a segment leaves as a
whole when its last identifier has left the ring. So the segments in front of the last one
are all of the full span, and only one of them reaches behind the oldest entry.
-/

namespace LogMind

namespace LogBuffer

/-- The number of identifiers in the range of a segment. -/
def width (seg : Segment) : Nat := seg.lastId + 1 - seg.firstId

/-- What the segments span. -/
structure Spans (b : LogBuffer) : Prop where
  full : ∀ seg ∈ b.segments.dropLast, width seg = b.segmentSpan
  le : ∀ seg ∈ b.segments, width seg ≤ b.segmentSpan
  live : ∀ front next rest, b.segments = front :: next :: rest → b.oldestId ≤ front.lastId

/-- The identifier of the newest entry. -/
def newestId (b : LogBuffer) : Nat := sub64 b.nextId 1

/-- The index covers the ring and not much more. -/
structure Bounded (b : LogBuffer) (history : List LogEntry) : Prop where
  covers : ∃ first, first ≤ b.oldestId ∧
    Tiling.Tiles Segment.firstId Segment.lastId first b.segments (b.newestId + 1) ∧
    b.newestId + 1 - first ≤ b.capacity + b.segmentSpan - 1
  full : ∀ seg ∈ b.segments.dropLast, width seg = b.segmentSpan
  increasing : ∀ seg ∈ b.segments, ∀ token, (seg.postings token).Pairwise (· < ·)
  exact : ∀ seg ∈ b.segments, ∀ token id, id ∈ seg.postings token ↔
    (seg.firstId ≤ id ∧ id ≤ seg.lastId) ∧ ∃ e ∈ history[id - 1]?, token ∈ tokenize e.message
  count : b.segments.length ≤ 1 + (b.capacity - 1 + (b.segmentSpan - 1)) / b.segmentSpan
  count_le : 1 + (b.capacity - 1 + (b.segmentSpan - 1)) / b.segmentSpan ≤ 10
  recent : ∀ seg ∈ b.segments, ∀ token, ∀ id ∈ seg.postings token,
    b.oldestId < id + b.segmentSpan

/-! ## One push -/

theorem dropStale_suffix (oldest : Nat) (segments : List Segment) :
    dropStale oldest segments <:+ segments := by
  induction segments with
  | nil => exact List.suffix_rfl
  | cons front rest ih =>
      cases rest with
      | nil => exact List.suffix_rfl
      | cons next rest =>
          rw [dropStale]
          split
          · exact ih.trans (List.suffix_cons _ _)
          · exact List.suffix_rfl

/-- Eviction stops at a segment that still has an identifier of the ring. -/
theorem dropStale_live (oldest : Nat) (segments : List Segment) {front next : Segment}
    {rest : List Segment} (h : dropStale oldest segments = front :: next :: rest) :
    oldest ≤ front.lastId := by
  induction segments with
  | nil => cases h
  | cons first segments ih =>
      cases segments with
      | nil => cases h
      | cons second segments =>
          rw [dropStale] at h
          split at h
          · exact ih h
          · rename_i hlive
            obtain ⟨rfl, -⟩ := List.cons.inj h
            exact Nat.le_of_not_lt hlive

theorem dropLast_suffix {segments rest : List Segment} (h : rest <:+ segments) :
    ∀ seg ∈ rest.dropLast, seg ∈ segments.dropLast := by
  intro seg hseg
  obtain ⟨front, rfl⟩ := h
  cases rest with
  | nil => cases hseg
  | cons first rest =>
      rw [List.dropLast_append_of_ne_nil (List.cons_ne_nil _ _)]
      exact List.mem_append_right _ hseg

/-- A segment that may not take more spans as much as it may. -/
theorem isFull_iff {span : Nat} {seg : Segment} (hpos : 0 < seg.firstId)
    (hle : seg.firstId ≤ seg.lastId) (hbound : seg.lastId < wordBound) :
    seg.isFull span = true ↔ span ≤ width seg := by
  have hsub : sub64 seg.lastId seg.firstId = seg.lastId - seg.firstId := sub64_of_le hle hbound
  have hwidth : seg.lastId - seg.firstId + 1 = width seg := by
    unfold width
    omega
  have hmod : width seg % wordBound = width seg := by
    apply Nat.mod_eq_of_lt
    unfold width
    omega
  rw [Segment.isFull, hsub, hwidth, hmod, decide_eq_true_eq]

/-- The segments after the entry has been added to the index. -/
theorem Spans.indexEntry {b : LogBuffer} (h : Spans b) (hspan : 0 < b.segmentSpan)
    (message : Bytes) {first id : Nat} (hpos : 0 < first) (hid : id ≤ wordBound)
    (htiles : Tiling.Tiles Segment.firstId Segment.lastId first b.segments id) :
    (∀ seg ∈ (b.indexEntryLocked message id).segments.dropLast, width seg = b.segmentSpan) ∧
      ∀ seg ∈ (b.indexEntryLocked message id).segments, width seg ≤ b.segmentSpan := by
  rw [indexEntryLocked_segments, List.dropLast_concat]
  have hwidth : ∀ seg : Segment,
      width ((tokenize message).foldl (Segment.addPosting id) seg) = width seg := by
    intro seg
    simp [width]
  have hnew : width { firstId := id, lastId := id } ≤ b.segmentSpan := by
    simp only [width]
    omega
  suffices hopen : (∀ seg ∈ (openSegment b.segmentSpan b.segments id).1,
      width seg = b.segmentSpan) ∧
        width (openSegment b.segmentSpan b.segments id).2 ≤ b.segmentSpan by
    refine ⟨hopen.1, ?_⟩
    intro seg hseg
    rcases List.mem_append.mp hseg with hclosed | hlast
    · exact Nat.le_of_eq (hopen.1 seg hclosed)
    · rw [List.mem_singleton.mp hlast, hwidth]
      exact hopen.2
  unfold openSegment
  cases hback : b.segments.getLast? with
  | none =>
      rw [List.getLast?_eq_none_iff.mp hback]
      exact ⟨by simp, hnew⟩
  | some back =>
      have hsplit : b.segments = b.segments.dropLast ++ [back] :=
        (List.dropLast_append_getLast? back hback).symm
      have hmem : back ∈ b.segments := List.mem_of_getLast? hback
      have hin := htiles.mem hmem
      have hfull : back.isFull b.segmentSpan = true ↔ b.segmentSpan ≤ width back :=
        isFull_iff (by omega) hin.2.1 (by omega)
      simp only
      split
      · rename_i hisFull
        refine ⟨?_, hnew⟩
        intro seg hseg
        rw [hsplit] at hseg
        rcases List.mem_append.mp hseg with hclosed | hlast
        · exact h.full seg hclosed
        · rw [List.mem_singleton.mp hlast]
          exact Nat.le_antisymm (h.le back hmem) (hfull.mp hisFull)
      · rename_i hroom
        refine ⟨h.full, ?_⟩
        rw [hsplit, Tiling.tiles_append_singleton] at htiles
        rw [hfull] at hroom
        simp only [width] at hroom ⊢
        omega

theorem Spans.push {b : LogBuffer} {capacity : Nat} {history : List LogEntry} (h : Spans b)
    (hb : Holds b capacity history) (hspan : 0 < b.segmentSpan) (entry : LogEntry)
    (hbound : history.length + 1 < wordBound) : Spans (b.push entry) := by
  obtain ⟨first, hpos, -, htiles⟩ := hb.tiles
  have hid : b.nextId = history.length + 1 := by rw [hb.next_eq, Nat.mod_eq_of_lt hbound]
  rw [← hid] at htiles
  obtain ⟨hfull, hle⟩ := h.indexEntry hspan entry.message hpos (by omega) htiles
  have hsuffix := dropStale_suffix (b.push entry).oldestId
    (b.indexEntryLocked entry.message b.nextId).segments
  constructor
  · intro seg hseg
    rw [push_segments] at hseg
    exact hfull seg (dropLast_suffix hsuffix seg hseg)
  · intro seg hseg
    rw [push_segments] at hseg
    exact hle seg (hsuffix.subset hseg)
  · intro front next rest hsegments
    rw [push_segments] at hsegments
    exact dropStale_live _ _ hsegments

@[simp] theorem after_capacity (capacity : Nat) (history : List LogEntry) :
    (after capacity history).capacity = max 1 capacity := by
  induction history using List.reverseRecOn with
  | nil =>
      change (if capacity = 0 then 1 else capacity) = max 1 capacity
      split <;> omega
  | append_singleton history entry ih =>
      rw [after_append]
      exact ih

@[simp] theorem after_segmentSpan (capacity : Nat) (history : List LogEntry) :
    (after capacity history).segmentSpan = max 1024 (max 1 capacity / 8) := by
  induction history using List.reverseRecOn with
  | nil =>
      have heffective : (if capacity = 0 then 1 else capacity) = max 1 capacity := by
        split <;> omega
      change max 1024 ((if capacity = 0 then 1 else capacity) / 8) = _
      rw [heffective]
  | append_singleton history entry ih =>
      rw [after_append]
      exact ih

theorem after_spans (capacity : Nat) (history : List LogEntry)
    (hbound : history.length < wordBound) : Spans (after capacity history) := by
  induction history using List.reverseRecOn with
  | nil => exact ⟨by simp [after, new], by simp [after, new], by simp [after, new]⟩
  | append_singleton history entry ih =>
      rw [List.length_append, List.length_singleton] at hbound
      rw [after_append]
      apply (ih (by omega)).push (after_holds capacity history (by omega)) _ entry hbound
      rw [after_segmentSpan]
      omega

/-! ## What the index holds -/

/-- The segments begin less than one span before the oldest entry. -/
theorem Spans.first_gt {b : LogBuffer} {capacity : Nat} {history : List LogEntry} (h : Spans b)
    (hb : Holds b capacity history) (hspan : 0 < b.segmentSpan) {first : Nat}
    (hpos : 0 < first) (htiles : Tiling.Tiles Segment.firstId Segment.lastId first b.segments
      (history.length + 1)) : b.oldestId < first + b.segmentSpan := by
  have holdest := hb.oldest_eq
  have hcap := hb.capacity_pos
  cases hsegments : b.segments with
  | nil =>
      rw [hsegments, Tiling.tiles_nil] at htiles
      omega
  | cons front rest =>
      have hfirst := htiles.mem (hsegments ▸ List.mem_cons_self : front ∈ b.segments)
      rw [hsegments, Tiling.tiles_cons] at htiles
      cases rest with
      | nil =>
          have hle := h.le front (by rw [hsegments]; exact List.mem_cons_self)
          have hend := htiles.2.2
          rw [Tiling.tiles_nil] at hend
          unfold width at hle
          omega
      | cons next rest =>
          have hfull := h.full front (by rw [hsegments]; exact List.mem_cons_self)
          have hlive := h.live front next rest hsegments
          unfold width at hfull
          omega

theorem newestId_eq {b : LogBuffer} {capacity : Nat} {history : List LogEntry}
    (hb : Holds b capacity history) (hbound : history.length < wordBound) :
    b.newestId = history.length := by
  unfold newestId sub64
  rw [hb.next_eq]
  unfold wordBound at hbound ⊢
  omega

theorem mem_idsWithToken {history : List LogEntry} {seg : Segment} {token : Bytes} {id : Nat} :
    id ∈ idsWithToken history seg token ↔
      (seg.firstId ≤ id ∧ id ≤ seg.lastId) ∧
        ∃ e ∈ history[id - 1]?, token ∈ tokenize e.message := by
  rw [idsWithToken, List.mem_filter, mem_ids]
  apply and_congr_right
  intro _
  unfold hasToken
  cases history[id - 1]? <;> simp

/-- The segments are as few as the capacity and the span allow. -/
theorem segments_length_le {b : LogBuffer} {capacity : Nat} {history : List LogEntry}
    (h : Spans b) (hb : Holds b capacity history) (hspan : 0 < b.segmentSpan) :
    b.segments.length ≤ 1 + (capacity - 1 + (b.segmentSpan - 1)) / b.segmentSpan := by
  obtain ⟨first, hpos, -, htiles⟩ := hb.tiles
  have hgt := h.first_gt hb hspan hpos htiles
  have holdest := hb.oldest_eq
  have hcap := hb.capacity_pos
  by_cases hfew : b.segments.length ≤ 1
  · exact hfew.trans (Nat.le_add_right 1 _)
  · have hne : b.segments ≠ [] := by
      intro hnil
      rw [hnil] at hfew
      exact hfew (Nat.zero_le 1)
    have hlength := htiles.length_le hne h.full
    obtain ⟨more, hmore⟩ : ∃ more, b.segments.length = more + 2 := ⟨_, (Nat.sub_add_cancel
      (by omega : 2 ≤ b.segments.length)).symm⟩
    have hmul : (more + 2 - 1) * b.segmentSpan = more * b.segmentSpan + b.segmentSpan :=
      Nat.succ_mul _ _
    rw [hmore] at hlength ⊢
    have hdiv : more + 1 ≤ (capacity - 1 + (b.segmentSpan - 1)) / b.segmentSpan := by
      rw [Nat.le_div_iff_mul_le hspan, Nat.succ_mul]
      omega
    omega

theorem Spans.bounded {b : LogBuffer} {history : List LogEntry} (h : Spans b)
    (hb : Holds b b.capacity history) (hspan_eq : b.segmentSpan = max 1024 (b.capacity / 8))
    (hbound : history.length < wordBound) : b.Bounded history := by
  have hspan : 0 < b.segmentSpan := by omega
  obtain ⟨first, hpos, hfirst, htiles⟩ := hb.tiles
  have hgt := h.first_gt hb hspan hpos htiles
  have holdest := hb.oldest_eq
  have hnewest := newestId_eq hb hbound
  have hcap := hb.capacity_pos
  refine ⟨?_, h.full, ?_, ?_, segments_length_le h hb hspan, ?_, ?_⟩
  · rw [hnewest]
    exact ⟨first, hfirst, htiles, by omega⟩
  · intro seg hseg token
    rw [hb.postings_eq seg hseg token]
    exact List.Pairwise.filter _ List.pairwise_lt_range'
  · intro seg hseg token id
    rw [hb.postings_eq seg hseg token]
    exact mem_idsWithToken
  · have hlt : (b.capacity - 1 + (b.segmentSpan - 1)) / b.segmentSpan < 10 := by
      rw [Nat.div_lt_iff_lt_mul hspan]
      omega
    exact Nat.add_comm 1 _ ▸ hlt
  · intro seg hseg token id hid
    rw [hb.postings_eq seg hseg token, mem_idsWithToken] at hid
    have hin := htiles.mem hseg
    omega

/-- After fewer than 2^64 pushes the index covers the ring and at most one span more. -/
theorem after_bounded (capacity : Nat) (history : List LogEntry)
    (hbound : history.length < wordBound) :
    (after capacity history).capacity = max 1 capacity ∧
      (after capacity history).segmentSpan = max 1024 (max 1 capacity / 8) ∧
      (after capacity history).Bounded history := by
  have hcapacity := after_capacity capacity history
  have hspan := after_segmentSpan capacity history
  refine ⟨hcapacity, hspan, ?_⟩
  have hb := after_holds capacity history hbound
  rw [← hb.capacity_eq] at hb
  apply (after_spans capacity history hbound).bounded hb _ hbound
  rw [hspan, hcapacity]

/-- Two messages with one word. -/
theorem after_bounded_two :
    (after 0 [{ message := ascii "up" }, { message := ascii "up" }]).Bounded
      [{ message := ascii "up" }, { message := ascii "up" }] :=
  (after_bounded 0 _ (by decide)).2.2

/-! ## Identifiers that wrap -/

theorem dropStale_zero (segments : List Segment) : dropStale 0 segments = segments := by
  cases segments with
  | nil => rfl
  | cons front rest =>
      cases rest with
      | nil => rfl
      | cons next rest => rw [dropStale, if_neg (Nat.not_lt_zero _)]

/-- The segment of the first identifier is never left by a new entry. -/
theorem openSegment_firstId (span id : Nat) {segments : List Segment} (hne : segments ≠ [])
    (hfirst : ∀ seg ∈ segments, 0 < seg.firstId) :
    (∃ seg ∈ (openSegment span segments id).1, 0 < seg.firstId) ∨
      0 < (openSegment span segments id).2.firstId := by
  unfold openSegment
  cases hback : segments.getLast? with
  | none => exact absurd (List.getLast?_eq_none_iff.mp hback) hne
  | some back =>
      have hmem : back ∈ segments := List.mem_of_getLast? hback
      simp only
      split
      · exact .inl ⟨back, hmem, hfirst back hmem⟩
      · exact .inr (hfirst back hmem)

/-- The push number 2^64 gets the identifier zero, below every segment. -/
theorem push_wraps {history : List LogEntry} (hlength : history.length + 1 = wordBound)
    (entry : LogEntry) : ¬ ((after 1 history).push entry).Bounded (history ++ [entry]) := by
  have hb := after_holds 1 history (by omega)
  have hone : (if (1 : Nat) = 0 then 1 else 1) = 1 := rfl
  rw [hone] at hb
  have hnext : (after 1 history).nextId = 0 := by rw [hb.next_eq, hlength, Nat.mod_self]
  have hnewest : ((after 1 history).push entry).newestId = 0 := by
    change sub64 (((after 1 history).nextId + 1) % wordBound) 1 = 0
    rw [hnext]
    rfl
  have hsize : (after 1 history).items.length = 1 := by
    have hitems := hb.length_items
    have holdest := hb.oldest_eq
    unfold wordBound at hlength
    omega
  have holdest : ((after 1 history).push entry).oldestId = 0 := by
    obtain ⟨e, hitems⟩ := List.length_eq_one_iff.mp hsize
    have hstored : (after 1 history).storedOldestId = history.length := by
      rw [storedOldestId, hitems, List.isEmpty_cons, if_neg Bool.false_ne_true, hb.oldest_eq]
      unfold wordBound at hlength
      omega
    rw [push_oldestId, hb.capacity_eq, hitems, hstored, List.singleton_append, discardFront,
      if_pos (by simp), discardFront, if_neg (by simp), hlength, Nat.mod_self]
  obtain ⟨first, hpos, hfirst, htiles⟩ := hb.tiles
  have hne : (after 1 history).segments ≠ [] := by
    intro hnil
    rw [hnil, Tiling.tiles_nil] at htiles
    have heq := hb.oldest_eq
    unfold wordBound at hlength
    omega
  intro hbounded
  obtain ⟨low, -, hcover, -⟩ := hbounded.covers
  rw [hnewest, push_segments, holdest, dropStale_zero, hnext] at hcover
  have hin : ∀ seg ∈ ((after 1 history).indexEntryLocked entry.message 0).segments,
      seg.firstId = 0 := by
    intro seg hseg
    have hmem := hcover.mem hseg
    omega
  rw [indexEntryLocked_segments] at hin
  rcases openSegment_firstId (after 1 history).segmentSpan 0 hne
    (fun seg hseg => Nat.lt_of_lt_of_le hpos (htiles.mem hseg).1) with ⟨seg, hseg, hlt⟩ | hlt
  · exact absurd (hin seg (List.mem_append_left _ hseg)) (Nat.ne_of_gt hlt)
  · have hzero := hin _ (List.mem_append_right _ (List.mem_singleton_self _))
    rw [Segment.foldl_addPosting_firstId] at hzero
    exact absurd hzero (Nat.ne_of_gt hlt)

/-- A ring of one entry after 2^64 pushes of one message. -/
theorem index_wraps :
    ¬ (after 1 (List.replicate wordBound { message := ascii "up" })).Bounded
      (List.replicate wordBound { message := ascii "up" }) := by
  have hlast : List.replicate wordBound ({ message := ascii "up" } : LogEntry) =
      List.replicate (wordBound - 1) { message := ascii "up" } ++ [{ message := ascii "up" }] :=
    List.replicate_succ'
  rw [hlast, after_append]
  apply push_wraps
  rw [List.length_replicate]
  rfl

end LogBuffer

end LogMind
