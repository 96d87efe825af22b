import LogMind.Vector.VectorStore
import LogMind.Vector.HNSWGraph
import LogMind.Library.KeyedQueue

/-!
# The maps of the store agree

`Holds s slots` says that an open store holds `slots`, one for each node of the
index, where a tombstone is a slot with an empty log id. What an operation does to
the store is then what it does to the slots, and the live ones among them are a
queue with keys.
-/

namespace LogMind

open KeyedQueue

/-- What is left of an item in its tombstone. -/
def Item.blank {F : Type} (item : Item F) : Item F := { item with logId := [], metadata := [] }

namespace VectorStore

variable {F D R : Type} [LinearOrder D] (sp : Space (List F) D R) (sq : Sqlite F)

/-- The slots that are no tombstones. -/
def live (slots : List (Item F)) : List (Item F) := slots.filter fun item => item.logId ≠ []

theorem live_append (xs ys : List (Item F)) : live (xs ++ ys) = live xs ++ live ys :=
  List.filter_append ..

theorem live_cons_of_ne {item : Item F} (h : item.logId ≠ []) (xs : List (Item F)) :
    live (item :: xs) = item :: live xs := List.filter_cons_of_pos (by simpa using h)

theorem live_cons_of_eq {item : Item F} (h : item.logId = []) (xs : List (Item F)) :
    live (item :: xs) = live xs := List.filter_cons_of_neg (by simpa using h)

theorem live_length_le (slots : List (Item F)) : (live slots).length ≤ slots.length :=
  List.length_filter_le ..

/-- The nodes of the index are the slots. -/
structure Indexed (x : HNSWIndex (List F)) (slots : List (Item F)) : Prop where
  wellFormed : x.WellFormed
  data : x.data = slots.map Item.embedding
  deleted : x.deleted = slots.map fun item => decide (item.logId = [])
  deletedCount : x.deletedCount = slots.countP fun item => decide (item.logId = [])

structure Holds (s : VectorStore F) (slots : List (Item F)) : Prop where
  isOpen : s.isOpen = true
  idToLog : s.idToLog = slots.map Item.logId
  idToMeta : s.idToMeta = slots.map Item.metadata
  /-- The index is there as soon as there is a dimension. -/
  index : (s.dim = 0 ∧ s.index = none ∧ slots = []) ∨
    (0 < s.dim ∧ ∃ x, s.index = some x ∧ Indexed x slots)
  keys : s.logToId.keys.Perm ((live slots).map Item.logId)
  lookup : ∀ k i, s.logToId.lookup k = some i ↔ s.idToLog[i]? = some k ∧ k ≠ []
  cursor_le : s.trimCursor ≤ slots.length
  cursor : ∀ item ∈ slots.take s.trimCursor, item.logId = []
  length_le : slots.length ≤ wordBound32

/-- What no operation but opening and closing changes, apart from the database. -/
structure Frame (s t : VectorStore F) : Prop where
  config : t.config = s.config
  dim : t.dim = s.dim

variable {s t u : VectorStore F} {x : HNSWIndex (List F)} {slots pre post : List (Item F)}
  {item : Item F} {k : Bytes} {i : Nat}

theorem Frame.trans (h : Frame s t) (g : Frame t u) : Frame s u :=
  ⟨g.config.trans h.config, g.dim.trans h.dim⟩

theorem Indexed.count (h : Indexed x slots) : x.count = slots.length := by
  rw [← h.wellFormed.linked.data_length, h.data, List.length_map]

theorem Indexed.size (h : Indexed x slots) (hle : slots.length ≤ wordBound32) :
    x.size = (live slots).length := by
  have hsplit := slots.length_eq_countP_add_countP fun item => decide (item.logId = [])
  have hlive : (live slots).length =
      slots.countP fun item => decide (¬ decide (item.logId = []) = true) := by
    rw [live, List.countP_eq_length_filter]
    simp
  rw [HNSWIndex.size, h.count, h.deletedCount, sub64_of_le (by omega)]
  · omega
  · unfold wordBound32 wordBound at *
    omega

/-- A live node becomes a tombstone. -/
theorem Indexed.markDeleted (h : Indexed x (pre ++ item :: post)) (hitem : item.logId ≠ []) :
    Indexed (x.markDeleted pre.length) (pre ++ item.blank :: post) := by
  have hfalse : x.deleted[pre.length]? = some false := by
    rw [h.deleted]
    simp [hitem]
  have hmark : x.markDeleted pre.length =
      { x with deleted := x.deleted.set pre.length true, deletedCount := x.deletedCount + 1 } :=
    if_pos hfalse
  refine ⟨HNSWIndex.markDeleted_wellFormed h.wellFormed _, ?_, ?_, ?_⟩
  · rw [hmark, h.data]
    simp [Item.blank]
  · rw [hmark, h.deleted]
    simp [Item.blank]
  · rw [hmark, h.deletedCount]
    simp [Item.blank, hitem]
    omega

theorem forget_eq (hx : s.index = some x) (hi : i < s.idToLog.length) :
    s.forget k i =
      { s with
        index := some (x.markDeleted i)
        idToLog := s.idToLog.set i []
        idToMeta := s.idToMeta.set i []
        logToId := s.logToId.erase k } := by
  simp only [forget, tombstone, hx, if_neg (not_le.mpr hi)]

namespace Holds

theorem distinct (h : Holds s slots) : Distinct Item.logId (live slots) :=
  h.keys.nodup_iff.mp s.logToId.keys_nodup

theorem size (h : Holds s slots) : s.size = (live slots).length := by
  rw [VectorStore.size, h.keys.length_eq, List.length_map]

/-- The index of a live slot under its log id. -/
theorem exists_slot (h : Holds s slots) (hk : s.logToId.lookup k = some i) :
    k ≠ [] ∧ ∃ pre item post, slots = pre ++ item :: post ∧ pre.length = i ∧ item.logId = k := by
  obtain ⟨hget, hne⟩ := (h.lookup k i).mp hk
  rw [h.idToLog, List.getElem?_map, Option.map_eq_some_iff] at hget
  obtain ⟨item, hitem, rfl⟩ := hget
  obtain ⟨hlt, rfl⟩ := List.getElem?_eq_some_iff.mp hitem
  exact ⟨hne, slots.take i, slots[i], slots.drop (i + 1), by simp, by simp; omega, rfl⟩

theorem length_idToLog (h : Holds s slots) : s.idToLog.length = slots.length := by
  rw [h.idToLog, List.length_map]

theorem live_blank (h : Holds s (pre ++ item :: post)) (hitem : item.logId ≠ []) :
    live (pre ++ item.blank :: post) =
      erase Item.logId item.logId (live (pre ++ item :: post)) := by
  have hdistinct := h.distinct
  rw [live_append, live_cons_of_ne hitem] at hdistinct
  rw [live_append, live_append, live_cons_of_ne hitem, live_cons_of_eq rfl,
    erase_middle hdistinct]

/-- A live slot becomes a tombstone. -/
theorem forget (h : Holds s (pre ++ item :: post)) (hitem : item.logId ≠ []) :
    Holds (s.forget item.logId pre.length) (pre ++ item.blank :: post) ∧
      Frame s (s.forget item.logId pre.length) ∧
      (s.forget item.logId pre.length).database = s.database ∧
      (s.forget item.logId pre.length).trimCursor = s.trimCursor := by
  obtain ⟨-, -, hnil⟩ | ⟨hdim, x, hx, hindexed⟩ := h.index
  · simp at hnil
  have hlt : pre.length < s.idToLog.length := by
    rw [h.length_idToLog]
    simp
  have hself : s.logToId.lookup item.logId = some pre.length := by
    rw [h.lookup, h.idToLog]
    exact ⟨by simp, hitem⟩
  rw [forget_eq hx hlt]
  refine ⟨⟨h.isOpen, ?_, ?_, .inr ⟨hdim, _, rfl, hindexed.markDeleted hitem⟩, ?_, ?_, ?_, ?_, ?_⟩,
    ⟨rfl, rfl⟩, rfl, rfl⟩
  · show s.idToLog.set pre.length [] = _
    rw [h.idToLog]
    simp [Item.blank]
  · show s.idToMeta.set pre.length [] = _
    rw [h.idToMeta]
    simp [Item.blank]
  · rw [live_blank h hitem]
    show (s.logToId.erase item.logId).keys.Perm _
    rw [AList.keys_erase]
    exact perm_map_erase h.keys h.distinct _
  · intro k i
    show (s.logToId.erase item.logId).lookup k = some i ↔
      (s.idToLog.set pre.length [])[i]? = some k ∧ k ≠ []
    have hget : s.idToLog[pre.length]? = some item.logId := ((h.lookup _ _).mp hself).1
    by_cases hi : pre.length = i
    · rw [← hi, List.getElem?_set_self', hget]
      have hempty : (some ([] : Bytes) = some k ∧ k ≠ []) ↔ False := by
        refine ⟨fun hnew => hnew.2 (Option.some.inj hnew.1).symm, False.elim⟩
      refine Iff.trans ?_ hempty.symm
      rw [iff_false]
      intro hold
      by_cases hk : k = item.logId
      · rw [hk, AList.lookup_erase] at hold
        exact nomatch hold
      · rw [AList.lookup_erase_ne hk, h.lookup, hget] at hold
        exact hk (Option.some.inj hold.1).symm
    · rw [List.getElem?_set_ne hi]
      by_cases hk : k = item.logId
      · rw [hk, AList.lookup_erase, ← h.lookup, hself, Option.some.injEq]
        exact ⟨fun hnone => (nomatch hnone), fun heq => absurd heq hi⟩
      · rw [AList.lookup_erase_ne hk, h.lookup]
  · simpa using h.cursor_le
  · intro other hother
    have hcursor := h.cursor
    rw [List.take_append] at hcursor hother
    cases hrest : s.trimCursor - pre.length with
    | zero =>
        rw [hrest, List.take_zero, List.append_nil] at hother
        exact hcursor other (List.mem_append_left _ hother)
    | succ n =>
        rw [hrest, List.take_succ_cons] at hcursor
        exact absurd (hcursor item (by simp)) hitem
  · simpa using h.length_le

/-- The cursor may pass a tombstone. -/
theorem advance (h : Holds s (pre ++ item :: post)) (hcursor : s.trimCursor = pre.length)
    (hitem : item.logId = []) :
    Holds (s.withCursor (s.trimCursor + 1)) (pre ++ item :: post) := by
  refine ⟨h.isOpen, h.idToLog, h.idToMeta, h.index, h.keys, h.lookup, ?_, ?_, h.length_le⟩
  · show s.trimCursor + 1 ≤ _
    rw [hcursor]
    simp
  · intro other hother
    have hold := h.cursor
    rw [hcursor] at hold
    change other ∈ List.take (s.trimCursor + 1) _ at hother
    rw [hcursor, List.take_append, List.take_of_length_le (by omega), Nat.add_sub_cancel_left,
      List.take_succ_cons, List.take_zero, List.mem_append, List.mem_singleton] at hother
    rcases hother with hother | rfl
    · exact hold other (by simpa using hother)
    · exact hitem

/-- The database is apart from the maps. -/
theorem withDatabase (h : Holds s slots) (database : Database F) :
    Holds (s.withDatabase database) slots :=
  ⟨h.isOpen, h.idToLog, h.idToMeta, h.index, h.keys, h.lookup, h.cursor_le, h.cursor,
    h.length_le⟩

end Holds

theorem deleteRow_eq (hopen : s.isOpen = true) :
    (deleteRow sq s k).2 = s.withDatabase (s.database.deleteRow sq k).2 := by
  rw [deleteRow, if_pos hopen]

/-- The database after the rows of some items are deleted. -/
def deletedRows (database : Database F) (items : List (Item F)) : Database F :=
  items.foldl (fun d item => (d.deleteRow sq item.logId).2) database

/-- The slot under the cursor is no live one afterwards. -/
theorem trimNext_spec (h : Holds s (pre ++ item :: post)) (hcursor : s.trimCursor = pre.length) :
    ∃ t slot, trimNext sq s = some (decide (item.logId ≠ []), t) ∧ slot.logId = [] ∧
      Holds t (pre ++ slot :: post) ∧ Frame s t ∧ t.trimCursor = pre.length + 1 ∧
      t.database = deletedRows sq s.database (live [item]) := by
  have hmod : s.trimCursor % wordBound32 = pre.length := by
    have hle := h.length_le
    rw [List.length_append, List.length_cons] at hle
    rw [hcursor, Nat.mod_eq_of_lt (by omega)]
  have hget : (s.withCursor (s.trimCursor + 1)).idToLog[pre.length]? = some item.logId := by
    show s.idToLog[pre.length]? = _
    rw [h.idToLog]
    simp
  unfold trimNext
  dsimp only
  rw [hmod, hget, Option.bind_eq_bind, Option.bind_some]
  by_cases hitem : item.logId = []
  · refine ⟨s.withCursor (s.trimCursor + 1), item, ?_, hitem, h.advance hcursor hitem, ⟨rfl, rfl⟩,
      congrArg (· + 1) hcursor, ?_⟩
    · rw [if_pos hitem]
      simp [hitem]
    · rw [live_cons_of_eq hitem]
      rfl
  · obtain ⟨hheld, hframe, hdatabase, hforgotten⟩ := h.forget hitem
    obtain ⟨-, -, hnil⟩ | ⟨-, x, hx, -⟩ := h.index
    · simp at hnil
    have hcommute : (s.withCursor (s.trimCursor + 1)).forget item.logId pre.length =
        (s.forget item.logId pre.length).withCursor (s.trimCursor + 1) := by
      have hlt : pre.length < s.idToLog.length := by
        rw [h.length_idToLog]
        simp
      have hmoved : (s.withCursor (s.trimCursor + 1)).forget item.logId pre.length = _ :=
        forget_eq hx hlt
      rw [hmoved, forget_eq hx hlt]
      rfl
    have hnext := hheld.advance (hforgotten.trans hcursor) rfl
    rw [hforgotten] at hnext
    refine ⟨(deleteRow sq ((s.withCursor (s.trimCursor + 1)).forget item.logId pre.length)
      item.logId).2, item.blank, ?_, rfl, ?_⟩
    · rw [if_neg hitem]
      simp [hitem]
    · rw [hcommute, deleteRow_eq sq hnext.isOpen]
      refine ⟨hnext.withDatabase _, ⟨hframe.config, hframe.dim⟩, congrArg (· + 1) hcursor, ?_⟩
      rw [live_cons_of_ne hitem]
      show ((s.forget item.logId pre.length).database.deleteRow sq item.logId).2 = _
      rw [hdatabase]
      rfl

theorem live_of_blank {slots : List (Item F)} (h : ∀ item ∈ slots, item.logId = []) :
    live slots = [] := by
  apply List.filter_eq_nil_iff.mpr
  intro item hitem
  simp [h item hitem]

/-- The loop drops live slots from the front. -/
theorem trimLoop_spec (post : List (Item F)) (excess : Nat) (h : Holds s (pre ++ post))
    (hcursor : s.trimCursor = pre.length) (hexcess : excess ≤ (live post).length) :
    ∃ t slots, trimLoop sq post.length excess s = some t ∧ Holds t slots ∧ Frame s t ∧
      slots.length = (pre ++ post).length ∧ live slots = (live post).drop excess ∧
      t.database = deletedRows sq s.database ((live post).take excess) := by
  have hpre : live pre = [] := by
    apply live_of_blank
    intro other hother
    apply h.cursor
    rw [hcursor]
    simpa using hother
  have hstay : live (pre ++ post) = live post := by rw [live_append, hpre, List.nil_append]
  induction post generalizing pre excess s with
  | nil =>
      obtain rfl : excess = 0 := Nat.le_zero.mp hexcess
      exact ⟨s, _, rfl, h, ⟨rfl, rfl⟩, rfl, hstay, rfl⟩
  | cons item post ih =>
      cases excess with
      | zero => exact ⟨s, _, rfl, h, ⟨rfl, rfl⟩, rfl, hstay, rfl⟩
      | succ excess =>
          obtain ⟨t, slot, hnext, hslot, hheld, hframe, hmoved, hdatabase⟩ :=
            trimNext_spec sq h hcursor
          rw [List.append_cons pre slot post] at hheld
          have hpre' : live (pre ++ [slot]) = [] := by
            rw [live_append, hpre, live_cons_of_eq hslot]
            rfl
          have hlength : (pre ++ [slot] ++ post).length = (pre ++ item :: post).length := by simp
          have hstay' : live (pre ++ [slot] ++ post) = live post := by
            rw [live_append, hpre', List.nil_append]
          rw [List.length_cons, trimLoop, hnext, Option.bind_eq_bind, Option.bind_some]
          dsimp only
          by_cases hitem : item.logId = []
          · rw [live_cons_of_eq hitem] at hexcess
            obtain ⟨u, slots, hloop, hu, hframe', hlen, hlive, hrows⟩ :=
              ih (excess + 1) hheld (by simpa using hmoved) hexcess hpre' hstay'
            refine ⟨u, slots, by simpa [hitem] using hloop, hu, hframe.trans hframe',
              hlen.trans hlength, ?_, ?_⟩
            · rw [live_cons_of_eq hitem, hlive]
            · rw [live_cons_of_eq hitem, hrows, hdatabase, live_cons_of_eq hitem]
              rfl
          · rw [live_cons_of_ne hitem, List.length_cons] at hexcess
            obtain ⟨u, slots, hloop, hu, hframe', hlen, hlive, hrows⟩ :=
              ih excess hheld (by simpa using hmoved) (by omega) hpre' hstay'
            refine ⟨u, slots, by simpa [hitem] using hloop, hu, hframe.trans hframe',
              hlen.trans hlength, ?_, ?_⟩
            · rw [live_cons_of_ne hitem, hlive, List.drop_succ_cons]
            · rw [live_cons_of_ne hitem, hrows, hdatabase, live_cons_of_ne hitem,
                List.take_succ_cons]
              rfl

/-- The loop as `trim` starts it: the oldest live slots go. -/
theorem trimLoop_drops (h : Holds s slots) {excess : Nat} (hexcess : excess ≤ (live slots).length) :
    ∃ t slots', trimLoop sq (s.idToLog.length - s.trimCursor) excess s = some t ∧
      Holds t slots' ∧ Frame s t ∧ slots'.length = slots.length ∧
      live slots' = (live slots).drop excess ∧
      t.database = deletedRows sq s.database ((live slots).take excess) := by
  have hsplit : slots = slots.take s.trimCursor ++ slots.drop s.trimCursor :=
    (List.take_append_drop ..).symm
  have hfront : live (slots.take s.trimCursor) = [] := live_of_blank h.cursor
  have hstay : live slots = live (slots.drop s.trimCursor) := by
    rw [hsplit, live_append, hfront, List.nil_append, List.take_append_drop]
  have hcursor : s.trimCursor = (slots.take s.trimCursor).length := by
    rw [List.length_take, Nat.min_eq_left h.cursor_le]
  obtain ⟨t, slots', hloop, ht, hframe, hlen, hlive, hrows⟩ :=
    trimLoop_spec sq (slots.drop s.trimCursor) excess (hsplit ▸ h) hcursor (hstay ▸ hexcess)
  rw [h.length_idToLog]
  refine ⟨t, slots', by simpa using hloop, ht, hframe, by rw [hlen, ← hsplit], ?_, ?_⟩
  · rw [hlive, ← hstay]
  · rw [hrows, ← hstay]

theorem trim_spec (h : Holds s slots) :
    ∃ t slots', trim sq s = some t ∧ Holds t slots' ∧ Frame s t ∧
      slots'.length = slots.length ∧
      live slots' = keepLast s.config.autoTrimThreshold (live slots) ∧
      t.database = deletedRows sq s.database
        ((live slots).take (excess s.config.autoTrimThreshold (live slots))) := by
  unfold trim
  by_cases hzero : s.config.autoTrimThreshold = 0
  · rw [if_pos hzero, keepLast, excess, if_pos hzero]
    exact ⟨s, slots, rfl, h, ⟨rfl, rfl⟩, rfl, rfl, rfl⟩
  · rw [if_neg hzero, keepLast, excess, if_neg hzero, h.size]
    exact trimLoop_drops sq h (Nat.sub_le _ _)

/-- No live slot has the log id afterwards. -/
theorem dropExisting_spec (h : Holds s slots) (k : Bytes) :
    ∃ slots', Holds (s.dropExisting k) slots' ∧ Frame s (s.dropExisting k) ∧
      slots'.length = slots.length ∧ live slots' = erase Item.logId k (live slots) ∧
      (s.dropExisting k).database = s.database := by
  unfold dropExisting
  cases hk : s.logToId.lookup k with
  | none =>
      refine ⟨slots, h, ⟨rfl, rfl⟩, rfl, ?_, rfl⟩
      refine (erase_of_not_mem fun hmem => ?_).symm
      exact AList.lookup_eq_none.mp hk (AList.mem_keys.mpr (h.keys.mem_iff.mpr hmem))
  | some i =>
      obtain ⟨hne, pre, item, post, rfl, rfl, rfl⟩ := h.exists_slot hk
      obtain ⟨hheld, hframe, hdatabase, -⟩ := h.forget hne
      exact ⟨_, hheld, hframe, by simp, h.live_blank hne, hdatabase⟩

/-- A new index holds nothing. -/
theorem indexed_new (M efConstruction : Nat) :
    Indexed (HNSWIndex.new M efConstruction : HNSWIndex (List F)) [] :=
  ⟨HNSWIndex.new_wellFormed M efConstruction, rfl, rfl, rfl⟩

theorem chooseDim_spec (h : Holds s slots) {embedding : List F} (hne : embedding ≠ []) :
    Holds (s.chooseDim embedding) slots ∧ 0 < (s.chooseDim embedding).dim ∧
      (s.chooseDim embedding).dim = (if s.dim = 0 then embedding.length else s.dim) ∧
      (s.chooseDim embedding).config = s.config ∧
      (s.chooseDim embedding).database = s.database := by
  unfold chooseDim
  by_cases hdim : s.dim = 0
  · obtain ⟨-, -, rfl⟩ | ⟨hpos, -⟩ := h.index
    · rw [if_pos hdim, if_pos hdim]
      have hpos : 0 < embedding.length := List.length_pos_iff.mpr hne
      exact ⟨⟨h.isOpen, h.idToLog, h.idToMeta, .inr ⟨hpos, _, rfl, indexed_new _ _⟩, h.keys,
        h.lookup, h.cursor_le, h.cursor, h.length_le⟩, hpos, rfl, rfl, rfl⟩
    · omega
  · rw [if_neg hdim, if_neg hdim]
    exact ⟨h, by omega, rfl, rfl, rfl⟩

theorem Indexed.addPoint (h : Indexed x slots) (hitem : item.logId ≠ []) :
    ∃ y, HNSWIndex.addPoint sp x slots.length item.embedding = some y ∧
      Indexed y (slots ++ [item]) := by
  obtain ⟨links, visited, counter, entry, maxLevel, level, hadd, hwf, -⟩ :=
    HNSWIndex.addPoint_spec sp h.wellFormed item.embedding
  rw [h.count] at hadd
  refine ⟨_, hadd, hwf, ?_, ?_, ?_⟩
  · show x.data ++ [item.embedding] = _
    rw [h.data, List.map_append, List.map_singleton]
  · show x.deleted ++ [false] = _
    rw [h.deleted, List.map_append, List.map_singleton, decide_eq_false hitem]
  · show x.deletedCount = _
    rw [h.deletedCount, List.countP_append]
    simp [hitem]

theorem addNode_spec (h : Holds s slots) (hdim : 0 < s.dim) (hitem : item.logId ≠ [])
    (hnew : item.logId ∉ (live slots).map Item.logId) (hlt : slots.length < wordBound32) :
    ∃ t, addNode sp s item = some t ∧ Holds t (slots ++ [item]) ∧ Frame s t ∧
      t.database = s.database := by
  obtain ⟨hzero, -⟩ | ⟨-, x, hx, hindexed⟩ := h.index
  · omega
  obtain ⟨y, hadd, hy⟩ := hindexed.addPoint sp hitem
  have hkeys : item.logId ∉ s.logToId.keys := fun hmem => hnew (h.keys.mem_iff.mp hmem)
  have hnone : s.logToId.lookup item.logId = none := by
    rw [AList.lookup_eq_none, AList.mem_keys]
    exact hkeys
  have hmod : s.idToLog.length % wordBound32 = slots.length := by
    rw [h.length_idToLog, Nat.mod_eq_of_lt hlt]
  refine ⟨{ s with
    index := some y
    idToLog := s.idToLog ++ [item.logId]
    idToMeta := s.idToMeta ++ [item.metadata]
    logToId := s.logToId.insert item.logId slots.length }, ?_, ?_, ⟨rfl, rfl⟩, rfl⟩
  · unfold addNode
    dsimp only
    rw [hmod, hx, Option.bind_eq_bind, Option.bind_some, hadd, Option.bind_some, hnone]
    rfl
  · refine ⟨h.isOpen, ?_, ?_, .inr ⟨hdim, y, rfl, hy⟩, ?_, ?_, ?_, ?_, ?_⟩
    · show s.idToLog ++ [item.logId] = _
      rw [h.idToLog, List.map_append, List.map_singleton]
    · show s.idToMeta ++ [item.metadata] = _
      rw [h.idToMeta, List.map_append, List.map_singleton]
    · show (s.logToId.insert item.logId slots.length).keys.Perm _
      rw [AList.keys, AList.entries_insert_of_notMem hkeys, List.keys_cons, live_append,
        live_cons_of_ne hitem, List.map_append]
      exact (h.keys.cons _).trans (List.perm_append_singleton _ _).symm
    · intro k i
      show (s.logToId.insert item.logId slots.length).lookup k = some i ↔
        (s.idToLog ++ [item.logId])[i]? = some k ∧ k ≠ []
      by_cases hk : k = item.logId
      · rw [hk, AList.lookup_insert, Option.some.injEq]
        refine ⟨fun hi => ⟨by rw [← hi, ← h.length_idToLog]; simp, hitem⟩, fun hget => ?_⟩
        by_cases hi : i < s.idToLog.length
        · rw [List.getElem?_append_left hi] at hget
          exact nomatch hnone.symm.trans ((h.lookup _ _).mpr hget)
        · have hbound := (List.getElem?_eq_some_iff.mp hget.1).1
          rw [List.length_append, List.length_singleton] at hbound
          rw [← h.length_idToLog]
          omega
      · rw [AList.lookup_insert_ne hk, h.lookup]
        by_cases hi : i < s.idToLog.length
        · rw [List.getElem?_append_left hi]
        · rw [List.getElem?_append_right (by omega), List.getElem?_eq_none (by omega)]
          refine ⟨fun hold => (nomatch hold.1), fun hget => ?_⟩
          have hmem := List.mem_of_getElem? hget.1
          exact absurd (List.mem_singleton.mp hmem) hk
    · show s.trimCursor ≤ _
      rw [List.length_append]
      exact h.cursor_le.trans (Nat.le_add_right _ _)
    · intro other hother
      change other ∈ List.take s.trimCursor _ at hother
      rw [List.take_append_of_le_length h.cursor_le] at hother
      exact h.cursor other hother
    · rw [List.length_append, List.length_singleton]
      omega

end VectorStore

end LogMind
