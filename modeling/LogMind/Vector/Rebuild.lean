import LogMind.Vector.Capacity
import LogMind.Vector.StoreRestart

/-!
# Rebuilding the index

`rebuild_index` forgets the maps and the index and loads the table again. What it gives
is what the table says, so the question is what the table of a store can say: rows of log
ids that are not live are there only when the capacity was reached while the store was
opened, and live items without a row only when nothing is written.
-/

namespace LogMind

open KeyedQueue

namespace VectorStore

variable {F D R : Type} [LinearOrder D] (sp : Space (List F) D R) (sq : Sqlite F)
variable {s t : VectorStore F} {slots : List (Item F)} {item : Item F} {k : Bytes} {dim : Nat}

/-- The rows that the store would load again. -/
def rows (s : VectorStore F) : List (Item F) := readable s.dim s.database.table.rows

/-- What holds of a store and its table between the calls. -/
structure Tracked (s : VectorStore F) (slots : List (Item F)) : Prop where
  holds : Holds s slots
  clean : s.database.table.Clean
  storable : ∀ item ∈ live slots, Storable item.logId
  /-- Without a dimension there is nothing to read. -/
  blank : s.dim = 0 → ∀ row ∈ s.database.table.rows, ¬ row.WellFormed
  /-- The rows of log ids that are not live come last, and have met a full index. -/
  split : ∃ front skipped, s.rows = front ++ skipped ∧
    (∀ item ∈ front, item.logId ∈ (live slots).map Item.logId) ∧
    (∀ item ∈ skipped, item.logId ∉ (live slots).map Item.logId) ∧
    (skipped = [] ∨ s.config.maxElements ≤ slots.length)
  room : slots.length ≤ s.config.maxElements
  bound : s.config.autoTrimThreshold = 0 ∨ (live slots).length ≤ s.config.autoTrimThreshold
  written : s.config.persist = true → ∀ item ∈ live slots, item ∈ s.rows

/-- The rows of a store that has just read its table. -/
theorem Tracked.load (hok : ∀ n, sq.ok n = true) (h : Holds s [])
    (hclean : s.database.table.Clean) (hlt : s.database.table.rows.length ≤ wordBound32 ∨
      s.config.maxElements ≤ wordBound32) :
    ∃ t slots, loadRows sp sq s.database.table.rows s = some t ∧ t.config = s.config ∧
      Tracked t slots := by
  obtain ⟨loaded, hloaded⟩ : ∃ loaded, loaded = (readable (loadDim s.dim s.database.table.rows)
      s.database.table.rows).take (s.config.maxElements - ([] : List (Item F)).length) := ⟨_, rfl⟩
  obtain ⟨skipped, hskipped⟩ : ∃ skipped, skipped = (readable (loadDim s.dim
      s.database.table.rows) s.database.table.rows).drop s.config.maxElements := ⟨_, rfl⟩
  have hsplit : readable (loadDim s.dim s.database.table.rows) s.database.table.rows =
      loaded ++ skipped := by
    rw [hloaded, hskipped]
    exact (List.take_append_drop ..).symm
  have hdistinct : Distinct Item.logId (loaded ++ skipped) :=
    hsplit ▸ readable_distinct hclean.unique _
  have hroom : loaded.length ≤ s.config.maxElements := by
    rw [hloaded, List.length_take]
    exact Nat.min_le_left _ _
  have hfew : loaded.length ≤ s.database.table.rows.length := by
    rw [hloaded, List.length_take, readable, List.length_map]
    exact (Nat.min_le_right _ _).trans (List.length_filter_le _ _)
  obtain ⟨t, slots, hload, ht, hdim, hconfig, hlen, hlive, -, hrows⟩ :=
    loadRows_spec sp sq hok s.database.table.rows (Loading.initial h hclean) hloaded
      (by
        rw [List.length_nil, Nat.zero_add]
        exact hlt.elim hfew.trans hroom.trans)
  have hempty : live [] ++ loaded = loaded := rfl
  rw [hempty] at hlive hrows
  rw [List.length_nil, Nat.zero_add] at hlen
  have hsub : ∀ row ∈ t.database.table.rows, row ∈ s.database.table.rows := by
    rw [hrows]
    exact fun row hrow => (List.mem_filter.mp hrow).1
  have hread : t.rows = live slots ++ skipped := by
    have hdrop : loaded.filter (fun item => item.logId ∉ (loaded.take
        (excess s.config.autoTrimThreshold loaded)).map Item.logId) = live slots := by
      rw [hlive, keepLast, ← filter_take (hdistinct.sublist (List.sublist_append_left _ _))]
      exact List.filter_congr fun _ _ => decide_eq_decide.mpr Iff.rfl
    have hkept : skipped.filter (fun item => item.logId ∉ (loaded.take
        (excess s.config.autoTrimThreshold loaded)).map Item.logId) = skipped := by
      apply List.filter_eq_self.mpr
      intro item hitem
      rw [decide_eq_true_eq]
      exact fun hmem => hdistinct.apart hitem (((List.take_sublist _ _).map _).subset hmem)
    rw [VectorStore.rows, hdim, hrows, readable_filter, hsplit, List.filter_append, hdrop, hkept]
  refine ⟨t, slots, hload, hconfig, ht, hclean.filter hrows, ?_, ?_, ?_, ?_, ?_, ?_⟩
  · intro item hitem
    rw [hlive] at hitem
    have hmem : item ∈ loaded ++ skipped :=
      List.mem_append_left _ (List.mem_of_mem_drop hitem)
    rw [← hsplit] at hmem
    obtain ⟨row, hrow, -, rfl⟩ := mem_readable.mp hmem
    exact (hclean.texts row hrow).1
  · intro hzero row hrow
    exact not_wellFormed_of_loadDim (hdim ▸ hzero) row (hsub row hrow)
  · refine ⟨live slots, skipped, hread, fun item hitem => List.mem_map_of_mem hitem, ?_, ?_⟩
    · intro item hitem hmem
      rw [hlive] at hmem
      exact hdistinct.apart hitem (((List.drop_sublist _ _).map _).subset hmem)
    · rw [hconfig, hlen, hloaded, hskipped, List.length_take, List.drop_eq_nil_iff,
        List.length_nil]
      omega
  · rw [hconfig, hlen]
    exact hroom
  · rw [hconfig, hlive]
    exact bound_keepLast _ _
  · intro _ item hitem
    rw [hread]
    exact List.mem_append_left _ hitem

namespace Tracked

theorem withDatabase (h : Tracked s slots) {database : Database F}
    (hrows : database.table.rows = s.database.table.rows) :
    Tracked (s.withDatabase database) slots := by
  have hsame : (s.withDatabase database).rows = s.rows := congrArg (readable s.dim) hrows
  refine ⟨h.holds.withDatabase database, ⟨?_, ?_⟩, h.storable, ?_, ?_, h.room, h.bound, ?_⟩
  · exact (congrArg (List.map Row.logId) hrows).symm ▸ h.clean.unique
  · exact fun row hrow => h.clean.texts row (hrows ▸ hrow)
  · exact fun hzero row hrow => h.blank hzero row (hrows ▸ hrow)
  · rw [hsame]
    exact h.split
  · rw [hsame]
    exact h.written

/-- Another dimension is as good for the rows of a store that has none. -/
theorem readable_eq (h : Tracked s slots) (hdim : s.dim ≠ 0 → dim = s.dim) :
    readable dim s.database.table.rows = s.rows := by
  by_cases hzero : s.dim = 0
  · rw [VectorStore.rows, readable_of_none (h.blank hzero), readable_of_none (h.blank hzero)]
  · rw [hdim hzero, VectorStore.rows]

theorem untried (h : Tracked s slots) (ht : Holds t slots) (hconfig : t.config = s.config)
    (hdatabase : t.database = s.database) (hdim : s.dim ≠ 0 → t.dim = s.dim) :
    Tracked t slots := by
  have hrows : t.rows = s.rows := by
    rw [VectorStore.rows, hdatabase]
    exact h.readable_eq hdim
  refine ⟨ht, hdatabase ▸ h.clean, h.storable, ?_, ?_, hconfig ▸ h.room, hconfig ▸ h.bound, ?_⟩
  · intro hzero
    rw [hdatabase]
    apply h.blank
    by_contra hpos
    exact hpos ((hdim hpos).symm.trans hzero)
  · rw [hrows, hconfig]
    exact h.split
  · rw [hrows, hconfig]
    exact h.written

end Tracked

/-- What an insert puts into the index can be deleted by its log id and, where rows are
written, read back. -/
def ItemFits (s : VectorStore F) (item : Item F) : Prop :=
  s.Tries item → Storable item.logId ∧ (s.config.persist = true → item.Fits)

/-- The same of the items of a batch, one after the other. -/
def ItemsFit : List (Item F) → VectorStore F → Prop
  | [], _ => True
  | item :: items, s =>
      s.ItemFits item ∧ ∀ r ∈ insertLocked sp sq s item true, ItemsFit items r.2

/-- What a call writes and what it asks for survive the bindings. -/
def CallFits (s : VectorStore F) : Call F → Prop
  | .insert item => s.ItemFits item
  | .insertBatch logIds embeddings metadataList =>
      ItemsFit sp sq (batchItems logIds embeddings metadataList) (beginBatch sq s).2
  | .remove logId => Database.Binds logId (s.database.table.rows.map Row.logId)
  | .clear => True

/-- Every call of a sequence does, in the state before it. -/
def CallsFit (s : VectorStore F) (calls : List (Call F)) : Prop :=
  Transition.Meets (call sp sq) (CallFits sp sq) s calls

/-- The rows of the table before the trim of an insert. -/
theorem rows_writeRow (hok : ∀ n, sq.ok n = true) (hopen : s.isOpen = true)
    (hfits : s.config.persist = true → item.Fits) : ∃ id,
    (writeRow sq s item true).2.database.table.rows =
      if s.config.persist then
        (s.database.table.rows.filter fun row => row.logId ≠ item.logId) ++
          [⟨id, item.logId, item.embedding, item.embedding.length, item.metadata⟩]
      else s.database.table.rows := by
  refine ⟨s.database.table.lastId + 1, ?_⟩
  unfold writeRow
  rw [hopen, Bool.true_and, Bool.and_true]
  split
  case isTrue hpersist =>
    have hfits := hfits hpersist
    unfold Database.writeRow
    rw [Database.execute_of_ok sq hok, Database.bindText_eq hfits.logId,
      Database.bindText_eq hfits.metadata, Database.bindBlob_eq sq hfits.embedding_lt,
      asInt_of_lt (hfits.embedding_lt.trans (by decide))]
    rfl
  case isFalse => rfl

namespace Tracked

/-- The table between the write and the trim of an insert. -/
theorem writeRow (hok : ∀ n, sq.ok n = true) (h : Tracked s slots)
    (hfits : s.config.persist = true → item.Fits)
    (haccepts : (reference s slots).Accepts item) :
    (writeRow sq s item true).2.database.table.Clean ∧
      readable item.embedding.length (VectorStore.writeRow sq s item true).2.database.table.rows =
        if s.config.persist then put Item.logId s.rows item else s.rows := by
  obtain ⟨id, hrows⟩ := rows_writeRow sq hok h.holds.isOpen hfits
  have hread : readable item.embedding.length s.database.table.rows = s.rows :=
    h.readable_eq fun hpos => haccepts.2.2.resolve_left hpos
  by_cases hpersist : s.config.persist = true
  · rw [if_pos hpersist] at hrows ⊢
    constructor
    · constructor
      · rw [hrows, List.map_append, List.map_singleton, List.nodup_append]
        refine ⟨h.clean.unique.sublist (List.filter_sublist.map _), List.nodup_singleton _, ?_⟩
        rintro _ hleft _ hright rfl
        obtain ⟨row, hrow, heq⟩ := List.mem_map.mp hleft
        exact of_decide_eq_true (List.mem_filter.mp hrow).2
          (heq.trans (List.mem_singleton.mp hright))
      · rw [hrows]
        intro row hrow
        rcases List.mem_append.mp hrow with hrow | hrow
        · exact h.clean.texts row (List.mem_filter.mp hrow).1
        · rw [List.mem_singleton.mp hrow]
          exact ⟨(hfits hpersist).logId, (hfits hpersist).metadata⟩
    · rw [hrows, readable_append, readable_erase, hread, readable_cons_of_pos]
      · rfl
      · exact ⟨⟨haccepts.1, haccepts.2.1, rfl⟩, rfl⟩
  · rw [if_neg hpersist] at hrows ⊢
    exact ⟨⟨hrows ▸ h.clean.unique, hrows ▸ h.clean.texts⟩, hrows ▸ hread⟩

theorem insertLocked_of_accepts (hok : ∀ n, sq.ok n = true) (h : Tracked s slots)
    (hstorable : Storable item.logId) (hfits : s.config.persist = true → item.Fits)
    (haccepts : (reference s slots).Accepts item) (hroom : slots.length < s.config.maxElements)
    (hlt : slots.length < wordBound32) :
    ∃ t slots', insertLocked sp sq s item true = some (true, t) ∧ t.config = s.config ∧
      Tracked t slots' := by
  obtain ⟨hclean, hread⟩ := h.writeRow sq hok hfits haccepts
  obtain ⟨t, slots', hinsert, ht, hconfig, href, hdatabase⟩ :=
    insertLocked_accepted sp sq hok h.holds haccepts true hroom hlt
  rw [Reference.insert, if_pos haccepts] at href
  have hdim : t.dim = item.embedding.length := congrArg Reference.dim href
  have hlive : live slots' = keepLast s.config.autoTrimThreshold
      (put Item.logId (live slots) item) := congrArg Reference.items href
  have hlen : slots'.length = slots.length + 1 := congrArg Reference.used href
  have hput : ∀ other ∈ put Item.logId (live slots) item, Storable other.logId := by
    intro other hother
    rcases mem_put.mp hother with ⟨hother, -⟩ | rfl
    · exact h.storable other hother
    · exact hstorable
  have hrows := rows_deletedRows sq hok ((put Item.logId (live slots) item).take
    (excess s.config.autoTrimThreshold (put Item.logId (live slots) item)))
    (fun other hother => hput other (List.mem_of_mem_take hother))
    (VectorStore.writeRow sq s item true).2.database
  rw [← hdatabase] at hrows
  have hkept : t.rows = (if s.config.persist then put Item.logId s.rows item else s.rows).filter
      fun other => other.logId ∉ ((put Item.logId (live slots) item).take
        (excess s.config.autoTrimThreshold (put Item.logId (live slots) item))).map Item.logId := by
    rw [VectorStore.rows, hdim, hrows, readable_filter, hread]
  have hsplit : Distinct Item.logId ((put Item.logId (live slots) item).take
      (excess s.config.autoTrimThreshold (put Item.logId (live slots) item)) ++ live slots') := by
    rw [hlive, take_append_keepLast]
    exact h.holds.distinct.put item
  refine ⟨t, slots', hinsert, hconfig, ht, hclean.filter hrows, ?_, ?_,
    ⟨t.rows, [], (List.append_nil _).symm, ?_, fun _ hother => absurd hother List.not_mem_nil,
      .inl rfl⟩, ?_, ?_, ?_⟩
  · rw [hlive]
    exact fun other hother => hput other (List.mem_of_mem_drop hother)
  · intro hzero
    exact absurd (List.length_eq_zero_iff.mp (hdim.symm.trans hzero)) haccepts.2.1
  · -- a row that is left has a log id of the queue, and not one of its dropped front
    intro other hother
    rw [hkept, List.mem_filter, decide_eq_true_eq] at hother
    obtain ⟨front, skipped, hfront, hids, -, hfull⟩ := h.split
    obtain rfl : skipped = [] := hfull.resolve_right (not_le.mpr hroom)
    rw [List.append_nil] at hfront
    have hmem : other.logId ∈ (put Item.logId (live slots) item).map Item.logId := by
      rw [mem_map_put]
      obtain ⟨hother, -⟩ := hother
      split at hother
      · rcases mem_put.mp hother with ⟨hother, -⟩ | rfl
        · exact .inl (hids other (hfront ▸ hother))
        · exact .inr rfl
      · exact .inl (hids other (hfront ▸ hother))
    rw [← take_append_keepLast s.config.autoTrimThreshold (put Item.logId (live slots) item),
      ← hlive, List.map_append, List.mem_append] at hmem
    exact hmem.resolve_left hother.2
  · rw [hconfig, hlen]
    exact hroom
  · rw [hconfig, hlive]
    exact bound_keepLast _ _
  · intro hpersist other hother
    rw [hconfig] at hpersist
    rw [hkept, if_pos hpersist, List.mem_filter, decide_eq_true_eq, mem_put]
    constructor
    · rw [hlive] at hother
      rcases mem_put.mp (List.mem_of_mem_drop hother) with ⟨hother, hne⟩ | rfl
      · exact .inl ⟨h.written hpersist other hother, hne⟩
      · exact .inr rfl
    · exact hsplit.apart hother

/-- The step lemma of an insert. -/
theorem insertLocked (hok : ∀ n, sq.ok n = true) (h : Tracked s slots) (hfits : s.ItemFits item)
    {ok : Bool} (hinsert : insertLocked sp sq s item true = some (ok, t)) (hrange : t.InRange) :
    t.config = s.config ∧ ∃ slots', Tracked t slots' := by
  by_cases htries : s.Tries item
  · have hgrown := (insertLocked_grows sp sq hinsert).2 htries
    rw [h.holds.length_idToLog] at hgrown
    obtain ⟨haccepts, hroom⟩ := (tries_iff h.holds item).mp htries
    obtain ⟨hstorable, hwritten⟩ := hfits htries
    obtain ⟨u, slots', heq, hconfig, hu⟩ :=
      h.insertLocked_of_accepts sp sq hok hstorable hwritten haccepts hroom (hgrown.trans hrange)
    rw [heq] at hinsert
    obtain ⟨-, rfl⟩ := Prod.mk.inj (Option.some.inj hinsert)
    exact ⟨hconfig, slots', hu⟩
  · obtain ⟨u, heq, hu, hconfig, hdatabase, hdim⟩ := insertLocked_untried sp sq h.holds htries true
    rw [heq] at hinsert
    obtain ⟨-, rfl⟩ := Prod.mk.inj (Option.some.inj hinsert)
    refine ⟨hconfig, slots, h.untried hu hconfig hdatabase fun hpos => ?_⟩
    rw [hdim]
    split
    · exact (‹(reference s slots).Accepts item›.2.2).resolve_left hpos
    · rfl

theorem insertAll (hok : ∀ n, sq.ok n = true) (items : List (Item F)) (count : Nat)
    {count' : Nat} (h : Tracked s slots) (hfits : ItemsFit sp sq items s)
    (hinsert : insertAll sp sq items count s = some (count', t)) (hrange : t.InRange) :
    t.config = s.config ∧ ∃ slots', Tracked t slots' := by
  induction items generalizing s slots count with
  | nil =>
      obtain ⟨-, rfl⟩ := Prod.mk.inj (Option.some.inj hinsert)
      exact ⟨rfl, slots, h⟩
  | cons item items ih =>
      rw [VectorStore.insertAll, Option.bind_eq_bind, Option.bind_eq_some_iff] at hinsert
      obtain ⟨⟨ok, u⟩, hfirst, hrest⟩ := hinsert
      obtain ⟨hconfig, slots', hu⟩ := h.insertLocked sp sq hok hfits.1 hfirst
        (hrange.of_grows (insertAll_grows sp sq items _ hrest))
      obtain ⟨hconfig', ht⟩ := ih _ hu (hfits.2 _ hfirst) hrest
      exact ⟨hconfig'.trans hconfig, ht⟩

theorem erase (hok : ∀ n, sq.ok n = true) (h : Tracked s slots)
    (hk : Database.Binds k (s.database.table.rows.map Row.logId)) :
    (remove sq s k).2.config = s.config ∧ ∃ slots', Tracked (remove sq s k).2 slots' := by
  obtain ⟨slots', hdropped, hframe, hlen, hlive, hsame⟩ := dropExisting_spec h.holds k
  have hremove : (remove sq s k).2 =
      (s.dropExisting k).withDatabase (s.database.deleteRow sq k).2 := by
    rw [← hsame]
    exact deleteRow_eq sq hdropped.isOpen
  have hrows : (remove sq s k).2.database.table.rows =
      s.database.table.rows.filter fun row => row.logId ≠ k := by
    rw [hremove]
    exact Database.rows_deleteRow sq hok s.database hk
  have hconfig : (remove sq s k).2.config = s.config := by
    rw [hremove]
    exact hframe.config
  have hdim : (remove sq s k).2.dim = s.dim := by
    rw [hremove]
    exact hframe.dim
  have hread : (remove sq s k).2.rows = KeyedQueue.erase Item.logId k s.rows := by
    rw [VectorStore.rows, hdim, hrows, readable_erase, VectorStore.rows]
  have hids : ∀ j, j ∈ (live slots').map Item.logId ↔
      j ∈ (live slots).map Item.logId ∧ j ≠ k := by
    intro j
    rw [hlive]
    exact mem_map_erase
  refine ⟨hconfig, slots', ?_, h.clean.filter hrows, ?_, ?_, ?_, ?_, ?_, ?_⟩
  · rw [hremove]
    exact hdropped.withDatabase _
  · rw [hlive]
    exact fun item hitem => h.storable item (mem_erase.mp hitem).1
  · rw [hdim, hrows]
    exact fun hzero row hrow => h.blank hzero row (List.mem_filter.mp hrow).1
  · obtain ⟨front, skipped, hfront, hin, hout, hfull⟩ := h.split
    refine ⟨KeyedQueue.erase Item.logId k front, KeyedQueue.erase Item.logId k skipped,
      by rw [hread, hfront, erase_append], fun item hitem => ?_, fun item hitem hmem => ?_, ?_⟩
    · obtain ⟨hmem, hne⟩ := mem_erase.mp hitem
      exact (hids _).mpr ⟨hin item hmem, hne⟩
    · exact hout item (mem_erase.mp hitem).1 ((hids _).mp hmem).1
    · rw [hconfig, hlen]
      refine hfull.imp (fun hnil => ?_) id
      rw [hnil]
      rfl
  · rw [hconfig, hlen]
    exact h.room
  · rw [hconfig, hlive]
    exact h.bound.imp id (List.length_filter_le _ _).trans
  · rw [hconfig, hread, hlive]
    intro hpersist item hitem
    obtain ⟨hmem, hne⟩ := mem_erase.mp hitem
    exact mem_erase.mpr ⟨h.written hpersist item hmem, hne⟩

/-- The step lemma of a call. -/
theorem call (hok : ∀ n, sq.ok n = true) (h : Tracked s slots) {c : Call F}
    (hfits : CallFits sp sq s c) (hcall : call sp sq s c = some t) (hrange : t.InRange) :
    t.config = s.config ∧ ∃ slots', Tracked t slots' := by
  cases c with
  | insert item =>
      obtain ⟨⟨ok, u⟩, hinsert, rfl⟩ := Option.map_eq_some_iff.mp hcall
      exact h.insertLocked sp sq hok hfits hinsert hrange
  | insertBatch logIds embeddings metadataList =>
      obtain ⟨⟨count, u⟩, hinsert, rfl⟩ := Option.map_eq_some_iff.mp hcall
      simp only [insertBatch] at hinsert
      split at hinsert
      · obtain ⟨-, rfl⟩ := Prod.mk.inj (Option.some.inj hinsert)
        exact ⟨rfl, slots, h⟩
      · rw [Option.bind_eq_bind, Option.bind_eq_some_iff] at hinsert
        obtain ⟨⟨count', w⟩, hall, hend⟩ := hinsert
        obtain ⟨-, rfl⟩ := Prod.mk.inj (Option.some.inj hend)
        obtain ⟨inTx, d, hbegin, htable, -⟩ := beginBatch_spec sq s
        rw [CallFits, hbegin] at hfits
        rw [hbegin] at hall hrange ⊢
        have hw : w.InRange := by
          cases inTx
          · exact hrange
          · rw [if_pos rfl, endBatch_eq sq hok] at hrange
            exact hrange
        obtain ⟨hconfig, slots', htracked⟩ := (h.withDatabase
          (congrArg Table.rows htable)).insertAll sp sq hok _ 0 hfits hall hw
        cases inTx
        · exact ⟨hconfig, slots', htracked⟩
        · rw [if_pos rfl, endBatch_eq sq hok]
          exact ⟨hconfig, slots', htracked.withDatabase rfl⟩
  | remove k =>
      obtain rfl : (remove sq s k).2 = t := Option.some.inj hcall
      exact h.erase sq hok hfits
  | clear =>
      obtain rfl : clear sq s = t := Option.some.inj hcall
      have hclear : clear sq s = (s.withDatabase (s.database.deleteAll sq).2).resetIndex := by
        rw [clear, if_pos h.holds.isOpen]
      have hrows : (clear sq s).database.table.rows = [] := by
        rw [hclear]
        show (s.database.deleteAll sq).2.table.rows = []
        rw [Database.deleteAll, Database.execute_of_ok sq hok]
      have hnone : (clear sq s).rows = [] := by
        rw [VectorStore.rows, hrows]
        rfl
      have hconfig : (clear sq s).config = s.config := by
        rw [hclear]
        rfl
      refine ⟨hconfig, [], ?_, ⟨?_, ?_⟩, fun _ hitem => absurd hitem List.not_mem_nil, ?_,
        ⟨[], [], hnone, fun _ hitem => absurd hitem List.not_mem_nil,
          fun _ hitem => absurd hitem List.not_mem_nil, .inl rfl⟩, Nat.zero_le _,
        .inr (Nat.zero_le _), fun _ _ hitem => absurd hitem List.not_mem_nil⟩
      · rw [hclear]
        exact resetIndex_holds _ h.holds.isOpen
      · rw [hrows]
        exact List.nodup_nil
      · rw [hrows]
        exact fun _ hrow => absurd hrow List.not_mem_nil
      · rw [hrows]
        exact fun _ _ hrow => absurd hrow List.not_mem_nil

/-- The run lemma. -/
theorem run (hok : ∀ n, sq.ok n = true) (calls : List (Call F)) (h : Tracked s slots)
    (hfits : CallsFit sp sq s calls) (hrange : CallsInRange sp sq s calls)
    (hrun : Transition.run (VectorStore.call sp sq) s calls = some t) :
    t.config = s.config ∧ ∃ slots', Tracked t slots' := by
  induction calls generalizing s slots with
  | nil => exact Option.some.inj hrun ▸ ⟨rfl, slots, h⟩
  | cons c calls ih =>
      obtain ⟨u, hu, hrest⟩ := Transition.run_cons_eq_some.mp hrun
      obtain ⟨hconfig, slots', hheld⟩ := h.call sp sq hok hfits.1 hu (hrange.1 u hu)
      obtain ⟨hconfig', ht⟩ := ih hheld (hfits.2 u hu) (hrange.2 u hu) hrest
      exact ⟨hconfig'.trans hconfig, ht⟩

end Tracked

/-- The live items have their rows, and the rows of other log ids meet a full index. -/
def Rebuildable (s : VectorStore F) : Prop :=
  (∀ item ∈ s.contents, item ∈ s.rows) ∧
    ((∀ item ∈ s.rows, item.logId ∈ s.contents.map Item.logId) ∨
      s.size = s.config.maxElements)

/-- The live items are as before, and every node is one of them. -/
def SameWithoutTombstones (s t : VectorStore F) : Prop :=
  t.contents.Perm s.contents ∧ t.idToLog.length = t.size

namespace Tracked

theorem rows_distinct (h : Tracked s slots) : Distinct Item.logId s.rows :=
  readable_distinct h.clean.unique s.dim

/-- No two rows have the same log id. -/
theorem eq_of_logId_eq (h : Tracked s slots) {x y : Item F} (hx : x ∈ s.rows) (hy : y ∈ s.rows)
    (hid : x.logId = y.logId) : x = y :=
  List.inj_on_of_nodup_map h.rows_distinct hx hy hid

/-- The rows of the live log ids are the live items, if these have their rows. -/
theorem front_perm (h : Tracked s slots) {front skipped : List (Item F)}
    (hrows : s.rows = front ++ skipped)
    (hin : ∀ item ∈ front, item.logId ∈ (live slots).map Item.logId)
    (hout : ∀ item ∈ skipped, item.logId ∉ (live slots).map Item.logId)
    (hcovered : ∀ item ∈ live slots, item ∈ s.rows) : front.Perm (live slots) := by
  have hfront : ∀ item ∈ front, item ∈ s.rows := fun item hitem =>
    hrows ▸ List.mem_append_left _ hitem
  have hdistinct := h.rows_distinct
  rw [hrows] at hdistinct
  rw [List.perm_ext_iff_of_nodup
    (hdistinct.sublist (List.sublist_append_left _ _)).of_map h.holds.distinct.of_map]
  intro item
  constructor
  · intro hitem
    obtain ⟨other, hother, hid⟩ := List.mem_map.mp (hin item hitem)
    exact h.eq_of_logId_eq (hfront item hitem) (hcovered other hother) hid.symm ▸ hother
  · intro hitem
    have hmem := hcovered item hitem
    rw [hrows] at hmem
    exact (List.mem_append.mp hmem).resolve_right fun hskipped =>
      hout item hskipped (List.mem_map_of_mem hitem)

theorem live_length_le (h : Tracked s slots) : (live slots).length ≤ s.config.maxElements :=
  (VectorStore.live_length_le slots).trans h.room

/-- A rebuild loads as many of the rows as there is room for. -/
theorem rebuild (hok : ∀ n, sq.ok n = true) (h : Tracked s slots) :
    ∃ t slots', rebuildIndex sp sq s = some (true, t) ∧ Holds t slots' ∧
      slots'.length = (s.rows.take s.config.maxElements).length ∧
      live slots' =
        keepLast s.config.autoTrimThreshold (s.rows.take s.config.maxElements) := by
  have hstart := (resetIndex_holds s h.holds.isOpen).withDatabase
    { s.database with executed := s.database.executed + 1 }
  have hdim : loadDim s.dim s.database.table.rows = s.dim := by
    by_cases hzero : s.dim = 0
    · have hnone : s.database.table.rows.find? (fun row => row.WellFormed) = none :=
        List.find?_eq_none.mpr fun row hrow => by simpa using h.blank hzero row hrow
      rw [loadDim, if_pos hzero, hnone, hzero]
      rfl
    · exact loadDim_of_pos hzero _
  have hlt : (s.rows.take s.config.maxElements).length ≤ wordBound32 := by
    obtain ⟨front, skipped, hrows, hin, -, hnil | hfull⟩ := h.split
    · have hdistinct := h.rows_distinct
      rw [hnil, List.append_nil] at hrows
      rw [hrows] at hdistinct ⊢
      have hsub : (front.map Item.logId).Subperm ((live slots).map Item.logId) := by
        apply List.subperm_of_subset hdistinct
        intro k hk
        obtain ⟨item, hitem, rfl⟩ := List.mem_map.mp hk
        exact hin item hitem
      have hle := hsub.length_le
      rw [List.length_map, List.length_map] at hle
      exact ((List.length_take_le' _ _).trans hle).trans
        ((VectorStore.live_length_le slots).trans h.holds.length_le)
    · rw [List.length_take]
      exact (Nat.min_le_left _ _).trans (hfull.trans h.holds.length_le)
  have hloading := Loading.initial hstart h.clean
  obtain ⟨t, slots', hload, ht, -, -, hlen, hlive, -⟩ := loadRows_spec sp sq hok
    s.database.table.rows hloading
    (show s.rows.take s.config.maxElements = (readable (loadDim s.dim s.database.table.rows)
      s.database.table.rows).take s.config.maxElements by rw [hdim]; rfl)
    ((Nat.zero_add _).trans_le hlt)
  refine ⟨t, slots', ?_, ht, hlen.trans (Nat.zero_add _), hlive⟩
  rw [rebuildIndex, loadAll_eq sp sq hok h.holds.isOpen, hload]
  rfl

/-- A rebuild keeps the contents exactly when the table has them. -/
theorem rebuild_iff (hok : ∀ n, sq.ok n = true) (h : Tracked s slots) :
    ∃ t, rebuildIndex sp sq s = some (true, t) ∧
      (SameWithoutTombstones s t ↔ s.Rebuildable) := by
  obtain ⟨t, slots', hrebuild, ht, hlen, hlive⟩ := h.rebuild sp sq hok
  obtain ⟨front, skipped, hrows, hin, hout, hfull⟩ := h.split
  have hcontents : s.contents = live slots := h.holds.agrees.contents
  have hcontents' : t.contents = live slots' := ht.agrees.contents
  refine ⟨t, hrebuild, ?_⟩
  rw [SameWithoutTombstones, Rebuildable, hcontents, hcontents', ht.length_idToLog, ht.size,
    h.holds.size, hlen, hlive]
  constructor
  · rintro ⟨hperm, -⟩
    have hcovered : ∀ item ∈ live slots, item ∈ s.rows := fun item hitem =>
      List.mem_of_mem_take (List.mem_of_mem_drop (hperm.mem_iff.mpr hitem))
    refine ⟨hcovered, ?_⟩
    have hfront := h.front_perm hrows hin hout hcovered
    cases hskipped : skipped with
    | nil =>
        left
        rw [hrows, hskipped, List.append_nil]
        exact hin
    | cons first rest =>
        right
        apply le_antisymm h.live_length_le
        by_contra hroom
        -- with room left the last row that is loaded is one of the skipped ones
        obtain ⟨last, before, hlast, hmem⟩ : ∃ last before,
            s.rows.take s.config.maxElements = before ++ [last] ∧ last ∈ skipped := by
          have hlt : front.length < s.config.maxElements := hfront.length_eq ▸ not_le.mp hroom
          have htake : s.rows.take s.config.maxElements =
              front ++ skipped.take (s.config.maxElements - front.length) := by
            rw [hrows, List.take_append, List.take_of_length_le hlt.le]
          rcases List.eq_nil_or_concat
              (skipped.take (s.config.maxElements - front.length)) with
            hnil | ⟨rest', last, hlast⟩
          · rw [List.take_eq_nil_iff, hskipped] at hnil
            exact absurd hnil (by simp; omega)
          · rw [List.concat_eq_append] at hlast
            have hmem : last ∈ skipped.take (s.config.maxElements - front.length) := by
              rw [hlast]
              exact List.mem_append_right _ List.mem_cons_self
            exact ⟨last, front ++ rest', by rw [htake, hlast, List.append_assoc],
              List.mem_of_mem_take hmem⟩
        rw [hlast] at hperm
        exact hout last hmem (List.mem_map_of_mem (hperm.mem_iff.mp (mem_keepLast_concat _ _ _)))
  · rintro ⟨hcovered, hother⟩
    have hfront := h.front_perm hrows hin hout hcovered
    have htake : s.rows.take s.config.maxElements = front := by
      rcases hother with hother | hsize
      · have hnil : skipped = [] := by
          apply List.eq_nil_iff_forall_not_mem.mpr
          exact fun item hitem =>
            hout item hitem (hother item (hrows ▸ List.mem_append_right _ hitem))
        rw [hrows, hnil, List.append_nil]
        exact List.take_of_length_le (hfront.length_eq.trans_le h.live_length_le)
      · rw [hrows, ← hsize, ← hfront.length_eq, List.take_left]
    have hshort : s.config.autoTrimThreshold = 0 ∨
        front.length ≤ s.config.autoTrimThreshold :=
      h.bound.imp id hfront.length_eq.trans_le
    rw [htake, keepLast_of_le hshort]
    exact ⟨hfront, rfl⟩

end Tracked

/-- Opening a store on any clean table. -/
theorem open_tracked (hok : ∀ n, sq.ok n = true) (hclosed : s.isOpen = false)
    (hclean : s.database.table.Clean) (hlt : s.database.table.rows.length ≤ wordBound32 ∨
      s.config.maxElements ≤ wordBound32) :
    ∃ t slots, open_ sp sq s = some (true, t) ∧ t.config = s.config ∧ Tracked t slots := by
  obtain ⟨t, slots, hload, hconfig, ht⟩ := Tracked.load sp sq hok
    ((resetIndex_holds { s with dim := s.config.dim, isOpen := true } rfl).withDatabase
      { s.database with executed := s.database.executed + 6 }) hclean hlt
  refine ⟨t, slots, ?_, hconfig, ht⟩
  rw [open_eq sp sq hok hclosed]
  exact congrArg (Option.map fun t => (true, t)) hload

/-- In every state that calls on an opened store reach, a rebuild keeps the live items and
leaves no tombstone exactly when every live item has its row, and no other row can be read
or `max_elements` items are live. Where rows are written, every live item has its row. -/
theorem rebuild_keeps_contents_iff (hok : ∀ n, sq.ok n = true) (hclosed : s.isOpen = false)
    (hclean : s.database.table.Clean) (hlt : s.database.table.rows.length ≤ wordBound32 ∨
      s.config.maxElements ≤ wordBound32)
    {opened : VectorStore F} (hopen : open_ sp sq s = some (true, opened)) (calls : List (Call F))
    (hfits : CallsFit sp sq opened calls) (hrange : CallsInRange sp sq opened calls)
    (hrun : Transition.run (call sp sq) opened calls = some t) :
    ∃ u, rebuildIndex sp sq t = some (true, u) ∧
      (SameWithoutTombstones t u ↔ t.Rebuildable) ∧
      (s.config.persist = true → ∀ item ∈ t.contents, item ∈ t.rows) := by
  obtain ⟨loaded, slots, hopen', hconfig, hloaded⟩ := open_tracked sp sq hok hclosed hclean hlt
  obtain rfl : loaded = opened := by
    rw [hopen'] at hopen
    exact congrArg Prod.snd (Option.some.inj hopen)
  obtain ⟨hconfig', slots', ht⟩ := hloaded.run sp sq hok calls hfits hrange hrun
  obtain ⟨u, hrebuild, hiff⟩ := ht.rebuild_iff sp sq hok
  refine ⟨u, hrebuild, hiff, fun hpersist => ?_⟩
  rw [ht.holds.agrees.contents]
  exact ht.written (hconfig'.trans hconfig ▸ hpersist)

/-- A store on an empty file that writes nothing to it. -/
def memoryStore : VectorStore Int := { config := { persist := false } }

theorem rebuild_keeps_contents_iff_memory : ∃ t u,
    Transition.run (call gridSpace alwaysOk) memoryStore.opening [.insert ⟨[97], [1], []⟩] =
        some t ∧
      rebuildIndex gridSpace alwaysOk t = some (true, u) ∧
      (SameWithoutTombstones t u ↔ t.Rebuildable) := by
  obtain ⟨t, hrun⟩ : ∃ t, Transition.run (call gridSpace alwaysOk) memoryStore.opening
      [.insert ⟨[97], [1], []⟩] = some t := ⟨_, rfl⟩
  have hrange : CallsInRange gridSpace alwaysOk memoryStore.opening [.insert ⟨[97], [1], []⟩] := by
    decide
  obtain ⟨u, hrebuild, hiff, -⟩ := rebuild_keeps_contents_iff gridSpace alwaysOk (fun _ => rfl)
    (rfl : memoryStore.isOpen = false) ⟨List.nodup_nil, fun _ hrow => absurd hrow List.not_mem_nil⟩
    (.inl (by decide)) rfl [.insert ⟨[97], [1], []⟩]
    ⟨fun _ => ⟨by decide, nofun⟩, fun _ _ => trivial⟩ hrange hrun
  exact ⟨t, u, hrun, hrebuild, hiff⟩

/-- What such a store holds does not outlive a rebuild. -/
theorem rebuild_forgets : ∃ t u,
    Transition.run (step gridSpace alwaysOk) memoryStore
        [.open_, .call (.insert ⟨[97], [1], []⟩)] = some t ∧
      rebuildIndex gridSpace alwaysOk t = some (true, u) ∧
      t.contents = [⟨[97], [1], []⟩] ∧ u.contents = [] :=
  ⟨_, _, rfl, rfl, rfl, rfl⟩

end VectorStore

end LogMind
