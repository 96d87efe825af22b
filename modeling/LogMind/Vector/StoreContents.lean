import LogMind.Vector.StoreRefinement

/-!
# What an open store holds

The contents are read off the maps and the index. Opening a store reads the table
through the insert path, and from there every run of calls follows the reference.
-/

namespace LogMind

open KeyedQueue

namespace VectorStore

variable {F D R : Type} [LinearOrder D] (sp : Space (List F) D R) (sq : Sqlite F)
variable {s t : VectorStore F} {slots : List (Item F)}

/-- The slots, with the embeddings of their nodes. -/
def nodes (s : VectorStore F) : List (Item F) :=
  batchItems s.idToLog ((s.index.map HNSWIndex.data).getD []) s.idToMeta

/-- The live items in the order of their nodes. -/
def contents (s : VectorStore F) : List (Item F) := live s.nodes

/-- The reference that holds what the store holds. -/
def snapshot (s : VectorStore F) : Reference F := ⟨s.dim, s.contents, s.idToLog.length⟩

/-- The store and its structures agree on the items. -/
structure Agrees (s : VectorStore F) (items : List (Item F)) : Prop where
  contents : s.contents = items
  size : s.size = items.length
  inverse : ∀ k i, s.logToId.lookup k = some i ↔ s.idToLog[i]? = some k ∧ k ≠ []
  tombstones : ∀ (i : Nat) (k : Bytes), s.idToLog[i]? = some k →
    s.index.bind (fun x => x.deleted[i]?) = some (decide (k = []))
  indexSize : (s.index.map HNSWIndex.size).getD 0 = items.length
  trimmed : ∀ i < s.trimCursor, s.idToLog[i]? = some []

theorem batchItems_map (slots : List (Item F)) :
    batchItems (slots.map Item.logId) (slots.map Item.embedding) (slots.map Item.metadata) =
      slots := by
  induction slots with
  | nil => rfl
  | cons item slots ih => exact congrArg (item :: ·) ih

namespace Holds

theorem nodes (h : Holds s slots) : s.nodes = slots := by
  unfold VectorStore.nodes
  obtain ⟨-, hx, rfl⟩ | ⟨-, x, hx, hindexed⟩ := h.index
  · rw [h.idToLog]
    rfl
  · rw [h.idToLog, h.idToMeta, hx, Option.map_some, Option.getD_some, hindexed.data,
      batchItems_map]

theorem snapshot (h : Holds s slots) : s.snapshot = reference s slots := by
  rw [VectorStore.snapshot, contents, h.nodes, h.length_idToLog]
  rfl

theorem agrees (h : Holds s slots) : Agrees s (live slots) := by
  refine ⟨by rw [contents, h.nodes], h.size, h.lookup, ?_, ?_, ?_⟩
  · intro i k hk
    rw [h.idToLog, List.getElem?_map, Option.map_eq_some_iff] at hk
    obtain ⟨item, hitem, rfl⟩ := hk
    obtain ⟨-, -, rfl⟩ | ⟨-, x, hx, hindexed⟩ := h.index
    · exact nomatch hitem
    · rw [hx, Option.bind_some, hindexed.deleted, List.getElem?_map, hitem]
      rfl
  · obtain ⟨-, hx, rfl⟩ | ⟨-, x, hx, hindexed⟩ := h.index
    · rw [hx]
      rfl
    · rw [hx, Option.map_some, Option.getD_some, hindexed.size h.length_le]
  · intro i hi
    have hlt : i < slots.length := lt_of_lt_of_le hi h.cursor_le
    have hmem : slots[i] ∈ slots.take s.trimCursor :=
      List.mem_take_iff_getElem.mpr ⟨i, by omega, rfl⟩
    rw [h.idToLog, List.getElem?_map, List.getElem?_eq_getElem hlt, Option.map_some,
      h.cursor _ hmem]

end Holds

theorem Refines.snapshot {r : Reference F} (h : Refines s r) : s.snapshot = r := by
  obtain ⟨slots, hslots, rfl⟩ := h
  exact hslots.snapshot

theorem Refines.agrees {r : Reference F} (h : Refines s r) : Agrees s r.items := by
  obtain ⟨slots, hslots, rfl⟩ := h
  exact hslots.agrees

section Loading

/-- A row takes at most one node. -/
theorem loadRow_refines (hok : ∀ n, sq.ok n = true) {r : Reference F} (h : Refines s r)
    (row : Row F) (hroom : r.used < s.config.maxElements) (hlt : r.used < wordBound32) :
    ∃ t r', loadRow sp sq s row = some t ∧ Refines t r' ∧ t.config = s.config ∧
      r'.used ≤ r.used + 1 := by
  unfold loadRow
  split
  · exact ⟨s, r, rfl, h, rfl, Nat.le_succ _⟩
  · split
    · exact ⟨s, r, rfl, h, rfl, Nat.le_succ _⟩
    · have hle := r.used_insert_le s.config.autoTrimThreshold
        ⟨cString row.logId, row.embedding, cString row.metadata⟩
      obtain ⟨ok, t, hinsert, ht, hconfig, -, -⟩ :=
        insert_refines sp sq hok h ⟨cString row.logId, row.embedding, cString row.metadata⟩ false
          hroom (by omega)
      dsimp only
      rw [hinsert]
      exact ⟨t, _, rfl, ht, hconfig, hle⟩

theorem loadRows_refines (hok : ∀ n, sq.ok n = true) (rows : List (Row F)) {r : Reference F}
    (h : Refines s r) (hroom : r.used + rows.length ≤ s.config.maxElements)
    (hlt : r.used + rows.length ≤ wordBound32) :
    ∃ t r', loadRows sp sq rows s = some t ∧ Refines t r' ∧ t.config = s.config ∧
      r'.used ≤ r.used + rows.length := by
  induction rows generalizing s r with
  | nil => exact ⟨s, r, rfl, h, rfl, le_rfl⟩
  | cons row rows ih =>
      rw [List.length_cons] at hroom hlt
      obtain ⟨d, hexecute⟩ : ∃ d, s.database.execute sq id = (true, d) :=
        ⟨_, Database.execute_of_ok sq hok _ _⟩
      obtain ⟨t, r', hrow, ht, hconfig, hle⟩ :=
        loadRow_refines sp sq hok (h.withDatabase d) row
          (show r.used < s.config.maxElements by omega) (by omega)
      have hconfig : t.config = s.config := hconfig
      obtain ⟨u, r'', hrows, hu, hconfig', hle'⟩ := ih ht (by rw [hconfig]; omega) (by omega)
      refine ⟨u, r'', ?_, hu, hconfig'.trans hconfig, ?_⟩
      · rw [loadRows, hexecute]
        dsimp only
        rw [if_pos rfl, hrow]
        exact hrows
      · rw [List.length_cons]
        omega

theorem connect_eq (hok : ∀ n, sq.ok n = true) (s : VectorStore F) :
    connect sq s =
      (true, { s with
        database := { s.database with executed := s.database.executed + 5 }
        isOpen := true }) := by
  unfold connect
  simp only [Database.execute_of_ok sq hok]
  rfl

theorem loadAll_eq (hok : ∀ n, sq.ok n = true) (hopen : s.isOpen = true) :
    loadAll sp sq s =
      (loadRows sp sq s.database.table.rows (s.resetIndex.withDatabase
        { s.database with executed := s.database.executed + 1 })).map fun t => (true, t) := by
  have hexecute : s.resetIndex.database.execute sq id =
      (true, { s.database with executed := s.database.executed + 1 }) :=
    Database.execute_of_ok sq hok _ _
  have hstill : ¬ ¬ s.resetIndex.isOpen = true := not_not.mpr hopen
  unfold loadAll
  dsimp only
  rw [if_neg hstill, hexecute]
  dsimp only
  rw [if_pos rfl]
  show (loadRows sp sq s.database.table.rows _).bind _ = _
  cases loadRows sp sq s.database.table.rows _ <;> rfl

/-- The store that the rows are loaded into. -/
def opening (s : VectorStore F) : VectorStore F :=
  VectorStore.withDatabase
    ({ s with dim := s.config.dim, isOpen := true } : VectorStore F).resetIndex
    { s.database with executed := s.database.executed + 6 }

theorem opening_refines (s : VectorStore F) : Refines s.opening ⟨s.config.dim, [], 0⟩ :=
  ⟨[], (resetIndex_holds { s with dim := s.config.dim, isOpen := true } rfl).withDatabase _, rfl⟩

/-- Where nothing fails, opening a closed store reads its table. -/
theorem open_eq (hok : ∀ n, sq.ok n = true) (hclosed : s.isOpen = false) :
    open_ sp sq s =
      (loadRows sp sq s.database.table.rows s.opening).map fun t => (true, t) := by
  unfold open_
  rw [hclosed, connect_eq sq hok]
  dsimp only
  rw [if_neg Bool.false_ne_true, if_pos rfl, loadAll_eq sp sq hok rfl]
  rfl

/-- Opening a store gives one that follows the reference. -/
theorem open_refines (hok : ∀ n, sq.ok n = true) (hclosed : s.isOpen = false)
    (hroom : s.database.table.rows.length ≤ s.config.maxElements)
    (hlt : s.database.table.rows.length ≤ wordBound32) :
    ∃ t r, open_ sp sq s = some (true, t) ∧ Refines t r ∧ t.config = s.config ∧
      r.used ≤ s.database.table.rows.length := by
  obtain ⟨t, r, hload, ht, hconfig, hle⟩ := loadRows_refines sp sq hok s.database.table.rows
    s.opening_refines (by rw [Nat.zero_add]; exact hroom) (by rw [Nat.zero_add]; exact hlt)
  refine ⟨t, r, ?_, ht, hconfig, by rwa [Nat.zero_add] at hle⟩
  rw [open_eq sp sq hok hclosed, hload]
  rfl

end Loading

/-- Every run of calls on a store that was opened gives what the reference gives, as
long as no index has had more than `2 ^ 32` nodes. -/
theorem run_agrees (hok : ∀ n, sq.ok n = true) (hclosed : s.isOpen = false)
    {opened : VectorStore F} (hopen : open_ sp sq s = some (true, opened)) (calls : List (Call F))
    (hroom : s.database.table.rows.length + inserts calls < s.config.maxElements)
    (hrows : s.database.table.rows.length ≤ wordBound32)
    (hused : ∀ earlier, earlier <+: calls →
      (opened.snapshot.run s.config.autoTrimThreshold earlier).used ≤ wordBound32) :
    ∃ t, Transition.run (call sp sq) opened calls = some t ∧
      Agrees t (opened.snapshot.run s.config.autoTrimThreshold calls).items := by
  obtain ⟨t, r, hopen', ht, hconfig, hle⟩ := open_refines sp sq hok hclosed (by omega) hrows
  obtain rfl : t = opened := by
    rw [hopen'] at hopen
    exact congrArg Prod.snd (Option.some.inj hopen)
  rw [← hconfig] at hroom hused ⊢
  rw [ht.snapshot] at hused ⊢
  obtain ⟨u, hrun, hu, -⟩ := run_refines sp sq hok calls ht (by omega) hused
  exact ⟨u, hrun, hu.agrees⟩

/-- Vectors of integers. -/
def gridSpace : Space (List Int) Int Int where
  distanceSq a b := (List.zipWith (fun x y => (x - y) * (x - y)) a b).foldl (· + ·) 0
  sqrt := id
  zero := []
  randomLevel _ := 0

def alwaysOk : Sqlite Int := ⟨fun _ => true, id⟩

/-- A store on an empty file that keeps two items. -/
def smallStore : VectorStore Int := { config := { autoTrimThreshold := 2 } }

def smallCalls : List (Call Int) :=
  [.insert ⟨[97], [1], []⟩, .insertBatch [[98], [97], [99]] [[2], [3], [4]] [[], [], []],
    .remove [97], .insert ⟨[100], [5, 5], []⟩]

theorem run_agrees_small :
    ∃ t, Transition.run (call gridSpace alwaysOk) smallStore.opening smallCalls = some t ∧
      Agrees t (smallStore.opening.snapshot.run 2 smallCalls).items :=
  run_agrees gridSpace alwaysOk (fun _ => rfl) (rfl : smallStore.isOpen = false) rfl smallCalls
    (by decide) (by decide) fun earlier hearlier =>
      (used_run_le 2 smallStore.opening.snapshot hearlier).trans (by decide)

example : (smallStore.opening.snapshot.run 2 smallCalls).items.map Item.logId = [[99]] := by decide

section Wrapping

variable {item : Item F}

/-- Behind `2 ^ 32` nodes the next one gets the id of the first. -/
theorem addNode_wraps (hlength : s.idToLog.length = wordBound32)
    (hnew : s.logToId.lookup item.logId = none) (hadd : addNode sp s item = some t) :
    t.idToLog = s.idToLog ++ [item.logId] ∧ t.logToId.lookup item.logId = some 0 ∧
      t.config = s.config := by
  unfold addNode at hadd
  dsimp only at hadd
  rw [hlength, Nat.mod_self, hnew] at hadd
  simp only [Option.bind_eq_bind, Option.bind_eq_some_iff] at hadd
  obtain ⟨x, -, y, -, hadd⟩ := hadd
  rw [← Option.some.inj hadd]
  exact ⟨rfl, AList.lookup_insert _, rfl⟩

/-- An insert into a store of one item, whose index has `2 ^ 32` nodes. -/
theorem insert_wraps (hok : ∀ n, sq.ok n = true) (h : Holds s slots)
    (hlength : slots.length = wordBound32) (hone : ∀ other ∈ live slots, other.logId = item.logId)
    (haccepts : (reference s slots).Accepts item) (hdim : s.dim ≠ 0)
    (hthreshold : s.config.autoTrimThreshold = 0) (hroom : slots.length < s.config.maxElements)
    {ok : Bool} (hinsert : insertLocked sp sq s item true = some (ok, t)) :
    t.logToId.lookup item.logId = some 0 ∧ t.idToLog[0]? = some [] := by
  obtain ⟨hid, hembedding, hlen⟩ := haccepts
  have hdim' : item.embedding.length = s.dim := hlen.resolve_left hdim
  have hkept : s.chooseDim item.embedding = s := if_neg hdim
  obtain ⟨dropped, hdropped, hframe, hlength', hlive, -⟩ := dropExisting_spec h item.logId
  have hnone : live dropped = [] := by
    rw [hlive]
    apply List.eq_nil_iff_forall_not_mem.mpr
    intro other hother
    exact (mem_erase.mp hother).2 (hone other (mem_erase.mp hother).1)
  have hnew : (s.dropExisting item.logId).logToId.lookup item.logId = none := by
    rw [AList.lookup_eq_none, AList.mem_keys, hdropped.keys.mem_iff, hnone]
    exact List.not_mem_nil
  have hwords : (s.dropExisting item.logId).idToLog.length = wordBound32 := by
    rw [hdropped.length_idToLog, hlength', hlength]
  have hfirst : (s.dropExisting item.logId).idToLog[0]? = some [] := by
    have hpos : 0 < dropped.length := by
      rw [hlength', hlength]
      decide
    have hblank : dropped[0].logId = [] := by
      by_contra hne
      have hmem : dropped[0] ∈ live dropped :=
        List.mem_filter.mpr ⟨List.getElem_mem hpos, by simpa using hne⟩
      rw [hnone] at hmem
      exact nomatch hmem
    rw [hdropped.idToLog, List.getElem?_map, List.getElem?_eq_getElem hpos, Option.map_some, hblank]
  unfold insertLocked at hinsert
  dsimp only at hinsert
  rw [hkept, if_neg hid, if_neg hembedding, if_neg (not_not.mpr hdim'),
    if_neg (by rw [h.length_idToLog]; omega), Option.bind_eq_bind,
    Option.bind_eq_some_iff] at hinsert
  obtain ⟨a, hadd, hinsert⟩ := hinsert
  obtain ⟨hlogs, hlookup, hconfig⟩ := addNode_wraps sp hwords hnew hadd
  have hwrite : writeRow sq a item true =
      (true, a.withDatabase (writeRow sq a item true).2.database) := by
    rw [writeRow_eq sq rfl rfl rfl item true, writeRow_ok sq hok]
    rfl
  rw [hwrite] at hinsert
  have htrim : trim sq (a.withDatabase (writeRow sq a item true).2.database) =
      some (a.withDatabase (writeRow sq a item true).2.database) :=
    if_pos (by
      show a.config.autoTrimThreshold = 0
      rw [hconfig, hframe.config, hthreshold])
  dsimp only at hinsert
  rw [if_pos rfl, htrim] at hinsert
  have ht := congrArg Prod.snd (Option.some.inj hinsert)
  rw [← show a.withDatabase _ = t from ht]
  refine ⟨hlookup, ?_⟩
  show a.idToLog[0]? = some []
  rw [hlogs, List.getElem?_append_left (by rw [hwords]; decide), hfirst]

/-- One more insert under the same log id than an id can count. -/
def wrappingCalls (item : Item F) (n : Nat) : List (Call F) := List.replicate n (.insert item)

theorem inserts_wrappingCalls (item : Item F) (n : Nat) : inserts (wrappingCalls item n) = n := by
  induction n with
  | zero => rfl
  | succ n ih =>
      show 1 + inserts (wrappingCalls item n) = n + 1
      rw [ih, Nat.add_comm]

theorem run_wrappingCalls (item : Item F) (hid : item.logId ≠ []) (hembedding : item.embedding ≠ [])
    (r : Reference F) (hdim : r.dim = item.embedding.length)
    (hitems : ∀ other ∈ r.items, other.logId = item.logId) (n : Nat) :
    (∀ other ∈ (r.run 0 (wrappingCalls item n)).items, other.logId = item.logId) ∧
      (r.run 0 (wrappingCalls item n)).used = r.used + n ∧
      (r.run 0 (wrappingCalls item n)).dim = item.embedding.length := by
  induction n generalizing r with
  | zero => exact ⟨hitems, rfl, hdim⟩
  | succ n ih =>
      have hstep : r.insert 0 item = ⟨item.embedding.length, put Item.logId r.items item,
          r.used + 1⟩ := by
        rw [Reference.insert, if_pos ⟨hid, hembedding, .inr hdim.symm⟩]
        rfl
      obtain ⟨hall, hused, hagain⟩ := ih (r.insert 0 item) (by rw [hstep]) (by
        intro other hother
        rw [hstep] at hother
        rcases List.mem_append.mp hother with hother | hother
        · exact hitems other (mem_erase.mp hother).1
        · rw [List.mem_singleton.mp hother])
      refine ⟨hall, ?_, hagain⟩
      have hone : (r.insert 0 item).used = r.used + 1 := by rw [hstep]
      rw [hone] at hused
      exact hused.trans (by omega)

end Wrapping

/-- Room for more nodes than there are ids. -/
def wideStore : VectorStore Int := { config := { dim := 1, maxElements := 8589934592 } }

/-- After `2 ^ 32 + 1` inserts the maps disagree: the last node is looked up under the
number of the first. -/
theorem run_wraps :
    open_ gridSpace alwaysOk wideStore = some (true, wideStore.opening) ∧
      0 + inserts (wrappingCalls (⟨[97], [1], []⟩ : Item Int) (wordBound32 + 1)) <
        wideStore.config.maxElements ∧
      ¬ ∃ t, Transition.run (call gridSpace alwaysOk) wideStore.opening
          (wrappingCalls ⟨[97], [1], []⟩ (wordBound32 + 1)) = some t ∧
        Agrees t (wideStore.opening.snapshot.run 0
          (wrappingCalls ⟨[97], [1], []⟩ (wordBound32 + 1))).items := by
  refine ⟨rfl, by rw [inserts_wrappingCalls]; decide, ?_⟩
  rintro ⟨t, hrun, hagrees⟩
  obtain ⟨hall, hused, hdim⟩ := run_wrappingCalls (⟨[97], [1], []⟩ : Item Int) (by decide)
    (by decide) ⟨1, [], 0⟩ rfl (fun _ hother => absurd hother List.not_mem_nil) wordBound32
  obtain ⟨u, hfirst, ⟨slots, hslots, href⟩, hconfig, -⟩ := run_refines gridSpace alwaysOk
    (fun _ => rfl) (wrappingCalls (⟨[97], [1], []⟩ : Item Int) wordBound32)
    wideStore.opening_refines (by rw [inserts_wrappingCalls]; decide) fun earlier hearlier =>
      (used_run_le 0 ⟨1, [], 0⟩ hearlier).trans (by rw [inserts_wrappingCalls]; decide)
  rw [wrappingCalls, List.replicate_succ', Transition.run_append] at hrun
  rw [← wrappingCalls, hfirst, Option.bind_some, Transition.run_cons_eq_some] at hrun
  obtain ⟨v, hcall, hrun⟩ := hrun
  obtain rfl : v = t := Option.some.inj hrun
  have href : reference u slots =
      (⟨1, [], 0⟩ : Reference Int).run 0 (wrappingCalls ⟨[97], [1], []⟩ wordBound32) := href
  rw [← href] at hall hused hdim
  have hlength : slots.length = wordBound32 := hused.trans (Nat.zero_add _)
  have hone : u.dim = 1 := hdim
  rw [call, insert, Option.map_eq_some_iff] at hcall
  obtain ⟨⟨ok, w⟩, hinsert, rfl⟩ := hcall
  obtain ⟨hlookup, hzero⟩ := insert_wraps gridSpace alwaysOk (fun _ => rfl) hslots hlength hall
    ⟨by decide, by decide, .inr hone.symm⟩ (by rw [hone]; decide) (by rw [hconfig]; rfl)
    (by rw [hconfig, hlength]; decide) hinsert
  have hinverse := (hagrees.inverse _ _).mp hlookup
  rw [hzero] at hinverse
  exact absurd hinverse.1 (by decide)

end VectorStore

end LogMind
