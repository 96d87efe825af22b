import LogMind.Vector.StoreLifecycle

/-!
# What a load makes of any table

A row is passed over when it is malformed, when its log id is empty, when it has another
dimension than the store, or when the index is full. The others become the items of the
store, and a trim on the way deletes rows that have been read before.
-/

namespace LogMind

open KeyedQueue

namespace Row

variable {F : Type}

/-- The row passes the checks of `load_all`, and its log id is not empty. -/
def WellFormed (row : Row F) : Prop :=
  row.logId ≠ [] ∧ row.embedding ≠ [] ∧ row.dimension = row.embedding.length

instance (row : Row F) : Decidable row.WellFormed := inferInstanceAs (Decidable (_ ∧ _))

/-- A row that a store of the dimension can take up. -/
def Readable (dim : Nat) (row : Row F) : Prop := row.WellFormed ∧ row.embedding.length = dim

instance (dim : Nat) (row : Row F) : Decidable (row.Readable dim) :=
  inferInstanceAs (Decidable (_ ∧ _))

end Row

/-- A table under the `UNIQUE` constraint of the schema whose texts come back as they are. -/
structure Table.Clean {F : Type} (t : Table F) : Prop where
  unique : (t.rows.map Row.logId).Nodup
  texts : ∀ row ∈ t.rows, Storable row.logId ∧ Storable row.metadata

theorem Table.Clean.filter {F : Type} {t t' : Table F} (h : t.Clean) {p : Row F → Bool}
    (hrows : t'.rows = t.rows.filter p) : t'.Clean := by
  constructor
  · rw [hrows]
    exact h.unique.sublist (List.filter_sublist.map _)
  · rw [hrows]
    exact fun row hrow => h.texts row (List.mem_filter.mp hrow).1

namespace VectorStore

variable {F D R : Type} [LinearOrder D] (sp : Space (List F) D R) (sq : Sqlite F)
variable {s t u : VectorStore F} {slots slots' slots'' items later : List (Item F)} {row : Row F}
  {rows : List (Row F)} {dim : Nat}

/-- The items that a store of the dimension can read, in the order of the rows. -/
def readable (dim : Nat) (rows : List (Row F)) : List (Item F) :=
  (rows.filter fun row => row.Readable dim).map Row.item

/-- The dimension after a load: the first well-formed row decides where there is none. -/
def loadDim (dim : Nat) (rows : List (Row F)) : Nat :=
  if dim = 0 then ((rows.find? fun row => row.WellFormed).map fun row =>
    row.embedding.length).getD 0
  else dim

theorem mem_readable {item : Item F} :
    item ∈ readable dim rows ↔ ∃ row ∈ rows, row.Readable dim ∧ row.item = item := by
  simp [readable, and_assoc]

theorem readable_cons_of_pos (h : row.Readable dim) (rows : List (Row F)) :
    readable dim (row :: rows) = row.item :: readable dim rows := by
  simp [readable, h]

theorem readable_cons_of_neg (h : ¬ row.Readable dim) (rows : List (Row F)) :
    readable dim (row :: rows) = readable dim rows := by
  simp [readable, h]

theorem readable_append (dim : Nat) (xs ys : List (Row F)) :
    readable dim (xs ++ ys) = readable dim xs ++ readable dim ys := by
  simp [readable]

/-- The rows that are left without some log ids are read as the items without them. -/
theorem readable_filter (dim : Nat) (rows : List (Row F)) (ks : List Bytes) :
    readable dim (rows.filter fun row => row.logId ∉ ks) =
      (readable dim rows).filter fun item => item.logId ∉ ks := by
  rw [readable, List.filter_filter, readable, List.filter_map, List.filter_filter]
  congr 1
  apply List.filter_congr
  intro row _
  exact Bool.and_comm ..

theorem readable_erase (dim : Nat) (rows : List (Row F)) (k : Bytes) :
    readable dim (rows.filter fun row => row.logId ≠ k) =
      erase Item.logId k (readable dim rows) := by
  simpa [erase] using readable_filter dim rows [k]

theorem readable_distinct (hunique : (rows.map Row.logId).Nodup) (dim : Nat) :
    Distinct Item.logId (readable dim rows) := by
  rw [Distinct, readable, List.map_map]
  exact hunique.sublist (List.filter_sublist.map Row.logId)

theorem readable_of_none (h : ∀ row ∈ rows, ¬ row.WellFormed) (dim : Nat) :
    readable dim rows = [] := by
  rw [readable, List.map_eq_nil_iff, List.filter_eq_nil_iff]
  intro row hrow
  simpa using fun hreadable : row.Readable dim => h row hrow hreadable.1

theorem loadDim_cons_of_pos (hdim : dim = 0) (h : row.WellFormed) (rows : List (Row F)) :
    loadDim dim (row :: rows) = row.embedding.length := by
  simp [loadDim, hdim, h]

theorem loadDim_cons_of_neg (h : ¬ row.WellFormed) (rows : List (Row F)) :
    loadDim dim (row :: rows) = loadDim dim rows := by
  simp [loadDim, h]

theorem loadDim_nil (dim : Nat) : loadDim dim ([] : List (Row F)) = dim := by
  by_cases h : dim = 0 <;> simp [loadDim, h]

theorem loadDim_of_pos (h : dim ≠ 0) (rows : List (Row F)) : loadDim dim rows = dim :=
  if_neg h

/-- Where the dimension stays zero there is nothing to read. -/
theorem not_wellFormed_of_loadDim (h : loadDim dim rows = 0) :
    ∀ row ∈ rows, ¬ row.WellFormed := by
  intro row hrow hwf
  obtain ⟨first, hfirst⟩ : ∃ first, rows.find? (fun row => row.WellFormed) = some first := by
    rw [← Option.isSome_iff_exists, List.find?_isSome]
    exact ⟨row, hrow, decide_eq_true hwf⟩
  unfold loadDim at h
  split at h
  · rw [hfirst] at h
    have hfound := List.find?_some hfirst
    exact (of_decide_eq_true hfound).2.1 (List.length_eq_zero_iff.mp h)
  · exact absurd h ‹_›

/-- Deleting the rows of some items leaves the rows of the other log ids. -/
theorem rows_deletedRows (hok : ∀ n, sq.ok n = true) (victims : List (Item F))
    (hvictims : ∀ item ∈ victims, Storable item.logId) (d : Database F) :
    (deletedRows sq d victims).table.rows =
      d.table.rows.filter fun row => row.logId ∉ victims.map Item.logId := by
  induction victims generalizing d with
  | nil => exact (List.filter_eq_self.mpr fun row _ => by simp).symm
  | cons item victims ih =>
      show (deletedRows sq (d.deleteRow sq item.logId).2 victims).table.rows = _
      rw [ih (fun other hother => hvictims other (List.mem_cons_of_mem _ hother)),
        Database.rows_deleteRow sq hok d
          (Database.binds_of_storable (hvictims item List.mem_cons_self) _), List.filter_filter]
      apply List.filter_congr
      intro row _
      rw [List.map_cons, ← Bool.decide_and]
      simp only [List.mem_cons, not_or, and_comm, ne_eq]

/-- A store before it loads some rows, under log ids that it does not hold. -/
structure Loading (s : VectorStore F) (slots : List (Item F)) (rows : List (Row F)) : Prop where
  holds : Holds s slots
  present : ∀ row ∈ rows, row ∈ s.database.table.rows
  texts : ∀ row ∈ rows, Storable row.logId ∧ Storable row.metadata
  storable : ∀ item ∈ live slots, Storable item.logId
  distinct : ((live slots).map Item.logId ++ rows.map Row.logId).Nodup
  bound : s.config.autoTrimThreshold = 0 ∨ (live slots).length ≤ s.config.autoTrimThreshold

/-- The items have come behind those of the store, and the rows of those that had to go for
them are deleted. -/
structure Loads (s : VectorStore F) (slots items : List (Item F)) (t : VectorStore F)
    (slots' : List (Item F)) : Prop where
  config : t.config = s.config
  length : slots'.length = slots.length + items.length
  kept : live slots' = keepLast s.config.autoTrimThreshold (live slots ++ items)
  transaction : t.database.transaction = s.database.transaction
  rows : t.database.table.rows = s.database.table.rows.filter fun row =>
    row.logId ∉ ((live slots ++ items).take
      (excess s.config.autoTrimThreshold (live slots ++ items))).map Item.logId

theorem Loads.nil
    (hbound : s.config.autoTrimThreshold = 0 ∨ (live slots).length ≤ s.config.autoTrimThreshold)
    (hconfig : t.config = s.config) (htable : t.database.table = s.database.table)
    (htransaction : t.database.transaction = s.database.transaction) :
    Loads s slots [] t slots := by
  refine ⟨hconfig, rfl, ?_, htransaction, ?_⟩
  · rw [List.append_nil, keepLast_of_le hbound]
  · rw [htable, List.append_nil, excess_eq_zero hbound]
    exact (List.filter_eq_self.mpr fun row _ => by simp).symm

/-- One load after the other. -/
theorem Loads.append (h : Loads s slots items t slots') (g : Loads t slots' later u slots'') :
    Loads s slots (items ++ later) u slots'' := by
  have hkept := g.kept
  have hrows := g.rows
  have hsplit := take_excess_append s.config.autoTrimThreshold (live slots ++ items) later
  rw [h.config, h.kept] at hkept hrows
  rw [List.append_assoc] at hsplit
  refine ⟨g.config.trans h.config, ?_, ?_, g.transaction.trans h.transaction, ?_⟩
  · rw [g.length, h.length, List.length_append, Nat.add_assoc]
  · rw [hkept, keepLast_append, List.append_assoc]
  · rw [hrows, h.rows, List.filter_filter]
    apply List.filter_congr
    intro row _
    rw [← hsplit, List.map_append, ← Bool.decide_and]
    simp only [List.mem_append, not_or, and_comm]

namespace Loading

theorem initial (h : Holds s []) (hclean : s.database.table.Clean) :
    Loading s [] s.database.table.rows :=
  ⟨h, fun _ hrow => hrow, hclean.texts, fun _ hitem => absurd hitem List.not_mem_nil,
    hclean.unique, .inr (Nat.zero_le _)⟩

theorem withDatabase (h : Loading s slots rows) {database : Database F}
    (htable : database.table = s.database.table) : Loading (s.withDatabase database) slots rows :=
  ⟨h.holds.withDatabase database, fun row hrow => htable ▸ h.present row hrow, h.texts,
    h.storable, h.distinct, h.bound⟩

/-- The items of a store that has loaded the first row, or passed it over. -/
theorem storable_append (h : Loading s slots (row :: rows)) (hitems : items.Sublist [row.item]) :
    ∀ item ∈ live slots ++ items, Storable item.logId := by
  intro item hitem
  rcases List.mem_append.mp hitem with hitem | hitem
  · exact h.storable item hitem
  · rw [List.mem_singleton.mp (hitems.subset hitem)]
    exact (h.texts row List.mem_cons_self).1

theorem distinct_append (h : Loading s slots (row :: rows)) (hitems : items.Sublist [row.item]) :
    ((live slots ++ items).map Item.logId ++ rows.map Row.logId).Nodup := by
  have hdistinct := h.distinct
  rw [List.map_cons, ← List.singleton_append, ← List.append_assoc] at hdistinct
  rw [List.map_append]
  exact hdistinct.sublist (((hitems.map Item.logId).append_left _).append_right _)

/-- The other rows are still to be loaded. -/
theorem tail (h : Loading s slots (row :: rows)) (hitems : items.Sublist [row.item])
    (ht : Holds t slots') (hloads : Loads s slots items t slots') : Loading t slots' rows := by
  have hstorable := h.storable_append hitems
  have hdistinct := h.distinct_append hitems
  refine ⟨ht, fun other hother => ?_, fun other hother => h.texts other
    (List.mem_cons_of_mem row hother), fun item hitem => ?_, ?_, ?_⟩
  · rw [hloads.rows, List.mem_filter, decide_eq_true_eq]
    refine ⟨h.present other (List.mem_cons_of_mem row hother), fun hmem => ?_⟩
    obtain ⟨item, hitem, heq⟩ := List.mem_map.mp hmem
    exact (List.nodup_append.mp hdistinct).2.2 _
      (List.mem_map_of_mem (List.mem_of_mem_take hitem)) _ (List.mem_map_of_mem hother) heq
  · rw [hloads.kept] at hitem
    exact hstorable item (List.mem_of_mem_drop hitem)
  · rw [hloads.kept]
    exact hdistinct.sublist (((List.drop_sublist _ _).map _).append_right _)
  · rw [hloads.config, hloads.kept]
    exact bound_keepLast _ _

theorem new (h : Loading s slots (row :: rows)) :
    row.item.logId ∉ (live slots).map Item.logId := by
  have hdistinct := h.distinct
  rw [List.map_cons, List.nodup_append] at hdistinct
  exact fun hmem => hdistinct.2.2 _ hmem _ List.mem_cons_self rfl

end Loading

/-- A row that is no good to `load_all` leaves the store alone. -/
theorem loadRow_of_malformed
    (h : row.embedding = [] ∨ row.dimension ≤ 0 ∨
      (row.embedding.length * 4 : Nat) ≠ row.dimension * 4) : loadRow sp sq s row = some s := by
  unfold loadRow
  rw [if_pos h]
  split <;> rfl

/-- Any other row that is still there is inserted as it is. -/
theorem loadRow_of_present (hpresent : row ∈ s.database.table.rows) (hlogId : Storable row.logId)
    (hmetadata : Storable row.metadata)
    (h : ¬ (row.embedding = [] ∨ row.dimension ≤ 0 ∨
      (row.embedding.length * 4 : Nat) ≠ row.dimension * 4)) :
    loadRow sp sq s row = (insertLocked sp sq s row.item false).map Prod.snd := by
  have hany : (s.database.table.rows.any fun r => r.id = row.id) = true :=
    List.any_eq_true.mpr ⟨row, hpresent, by simp⟩
  unfold loadRow
  rw [if_neg (not_not.mpr hany), if_neg h]
  dsimp only
  rw [cString_of_no_nul hlogId.no_nul, cString_of_no_nul hmetadata.no_nul]
  show (insertLocked sp sq s row.item false).bind _ = _
  cases insertLocked sp sq s row.item false <;> rfl

theorem wellFormed_iff : row.WellFormed ↔ row.logId ≠ [] ∧
    ¬ (row.embedding = [] ∨ row.dimension ≤ 0 ∨
      ((row.embedding.length * 4 : Nat) : Int) ≠ row.dimension * 4) := by
  constructor
  · rintro ⟨hid, hembedding, hdimension⟩
    have hpos := List.length_pos_of_ne_nil hembedding
    refine ⟨hid, ?_⟩
    push Not
    exact ⟨hembedding, by omega, by omega⟩
  · rintro ⟨hid, h⟩
    push Not at h
    exact ⟨hid, h.1, by omega⟩

/-- A row that is not readable, or comes to a full index, takes no node. -/
theorem loadRow_skips (h : Loading s slots (row :: rows))
    (hskip : row.WellFormed → s.dim = 0 ∨ row.embedding.length = s.dim →
      s.config.maxElements ≤ slots.length) :
    ∃ t, loadRow sp sq s row = some t ∧ Holds t slots ∧ t.dim = loadDim s.dim [row] ∧
      Loads s slots [] t slots := by
  obtain ⟨hlogId, hmetadata⟩ := h.texts row List.mem_cons_self
  have hpresent := h.present row List.mem_cons_self
  have hsame : Loads s slots [] s slots := Loads.nil h.bound rfl rfl rfl
  by_cases hgood : row.embedding = [] ∨ row.dimension ≤ 0 ∨
      ((row.embedding.length * 4 : Nat) : Int) ≠ row.dimension * 4
  · have hnot : ¬ row.WellFormed := fun hwf => (wellFormed_iff.mp hwf).2 hgood
    refine ⟨s, loadRow_of_malformed sp sq hgood, h.holds, ?_, hsame⟩
    rw [loadDim_cons_of_neg hnot, loadDim_nil]
  rw [loadRow_of_present sp sq hpresent hlogId hmetadata hgood]
  by_cases haccepts : (reference s slots).Accepts row.item
  · have hwf : row.WellFormed := wellFormed_iff.mpr ⟨haccepts.1, hgood⟩
    have hfull : ¬ s.Tries row.item := fun htries =>
      absurd ((tries_iff h.holds _).mp htries).2 (not_lt.mpr (hskip hwf haccepts.2.2))
    obtain ⟨t, hinsert, ht, hconfig, hdatabase, hdim⟩ :=
      insertLocked_untried sp sq h.holds hfull false
    refine ⟨t, by rw [hinsert]; rfl, ht, ?_,
      Loads.nil h.bound hconfig (hdatabase ▸ rfl) (hdatabase ▸ rfl)⟩
    rw [hdim, if_pos haccepts]
    show row.embedding.length = _
    by_cases hzero : s.dim = 0
    · rw [loadDim_cons_of_pos hzero hwf]
    · rw [loadDim_of_pos hzero]
      exact haccepts.2.2.resolve_left hzero
  · refine ⟨s, by rw [insertLocked_rejected sp sq s slots haccepts false]; rfl, h.holds, ?_, hsame⟩
    by_cases hzero : s.dim = 0
    · have hnot : ¬ row.WellFormed := fun hwf => haccepts ⟨hwf.1, hwf.2.1, .inl hzero⟩
      rw [loadDim_cons_of_neg hnot, loadDim_nil]
    · rw [loadDim_of_pos hzero]

/-- A readable row becomes the last item while there is room. -/
theorem loadRow_takes (hok : ∀ n, sq.ok n = true) (h : Loading s slots (row :: rows))
    (hwf : row.WellFormed) (hdim : s.dim = 0 ∨ row.embedding.length = s.dim)
    (hroom : slots.length < s.config.maxElements) (hlt : slots.length < wordBound32) :
    ∃ t slots', loadRow sp sq s row = some t ∧ Holds t slots' ∧
      t.dim = row.embedding.length ∧ Loads s slots [row.item] t slots' := by
  obtain ⟨hlogId, hmetadata⟩ := h.texts row List.mem_cons_self
  have haccepts : (reference s slots).Accepts row.item := ⟨hwf.1, hwf.2.1, hdim⟩
  have hput : put Item.logId (live slots) row.item = live slots ++ [row.item] := by
    rw [put, erase_of_not_mem h.new]
  obtain ⟨t, slots', hinsert, ht, hconfig, href, hdatabase⟩ :=
    insertLocked_accepted sp sq hok h.holds haccepts false hroom hlt
  rw [hput] at hdatabase
  rw [Reference.insert, if_pos haccepts] at href
  have hlive := congrArg Reference.items href
  change live slots' = keepLast _ (put Item.logId (live slots) row.item) at hlive
  rw [hput] at hlive
  refine ⟨t, slots', ?_, ht, congrArg Reference.dim href, hconfig,
    congrArg Reference.used href, hlive, ?_, ?_⟩
  · rw [loadRow_of_present sp sq (h.present row List.mem_cons_self) hlogId hmetadata
      (wellFormed_iff.mp hwf).2, hinsert]
    rfl
  · rw [hdatabase]
    exact transaction_deletedRows sq s.database _
  · rw [hdatabase]
    apply rows_deletedRows sq hok
    exact fun item hitem =>
      h.storable_append (List.Sublist.refl _) item (List.mem_of_mem_take hitem)

theorem loadDim_cons (dim : Nat) (row : Row F) (rows : List (Row F)) :
    loadDim (loadDim dim [row]) rows = loadDim dim (row :: rows) := by
  by_cases hwf : row.WellFormed
  · by_cases hzero : dim = 0
    · rw [loadDim_cons_of_pos hzero hwf, loadDim_cons_of_pos hzero hwf]
      exact loadDim_of_pos (fun hlength => hwf.2.1 (List.length_eq_zero_iff.mp hlength)) rows
    · rw [loadDim_of_pos hzero, loadDim_of_pos hzero, loadDim_of_pos hzero]
  · rw [loadDim_cons_of_neg hwf, loadDim_cons_of_neg hwf]
    rw [loadDim_nil]

/-- A well-formed row that fits the dimension before it is readable in the end. -/
theorem readable_loadDim (hwf : row.WellFormed) (hdim : dim = 0 ∨ row.embedding.length = dim)
    (rows : List (Row F)) : row.Readable (loadDim dim (row :: rows)) := by
  refine ⟨hwf, ?_⟩
  by_cases hzero : dim = 0
  · rw [loadDim_cons_of_pos hzero hwf]
  · rw [loadDim_of_pos hzero]
    exact hdim.resolve_left hzero

theorem dim_of_readable_loadDim (h : row.Readable (loadDim dim (row :: rows))) :
    dim = 0 ∨ row.embedding.length = dim := by
  by_cases hzero : dim = 0
  · exact .inl hzero
  · exact .inr (h.2.trans (loadDim_of_pos hzero _))

/-- Loading rows of new log ids puts the readable ones behind the items, as far as there
is room, and trims. -/
theorem loadRows_spec (hok : ∀ n, sq.ok n = true) (rows : List (Row F))
    (h : Loading s slots rows) {loaded : List (Item F)}
    (hloaded : loaded = (readable (loadDim s.dim rows) rows).take
      (s.config.maxElements - slots.length))
    (hlt : slots.length + loaded.length ≤ wordBound32) :
    ∃ t slots', loadRows sp sq rows s = some t ∧ Holds t slots' ∧ t.dim = loadDim s.dim rows ∧
      Loads s slots loaded t slots' := by
  induction rows generalizing s slots loaded with
  | nil =>
      obtain rfl : loaded = [] := by simpa [readable] using hloaded
      exact ⟨s, slots, rfl, h.holds, (loadDim_nil _).symm, Loads.nil h.bound rfl rfl rfl⟩
  | cons row rows ih =>
      obtain ⟨d, hexecute, htable, htransaction⟩ : ∃ d, s.database.execute sq id = (true, d) ∧
          d.table = s.database.table ∧ d.transaction = s.database.transaction :=
        ⟨_, Database.execute_of_ok sq hok _ _, rfl, rfl⟩
      have hread := h.withDatabase htable
      have hopened : Loads s slots [] (s.withDatabase d) slots :=
        Loads.nil h.bound rfl htable htransaction
      have hload : ∀ t, loadRow sp sq (s.withDatabase d) row = some t →
          loadRows sp sq (row :: rows) s = loadRows sp sq rows t := by
        intro t ht
        rw [loadRows, hexecute]
        dsimp only
        rw [if_pos rfl, ht]
        rfl
      by_cases htakes : row.Readable (loadDim s.dim (row :: rows)) ∧
          slots.length < s.config.maxElements
      · obtain ⟨hreadable, hroom⟩ := htakes
        obtain ⟨rest, hrest, rfl⟩ : ∃ rest,
            rest = (readable (loadDim s.dim (row :: rows)) rows).take
              (s.config.maxElements - (slots.length + 1)) ∧ loaded = row.item :: rest := by
          refine ⟨_, rfl, ?_⟩
          rw [hloaded, readable_cons_of_pos hreadable,
            show s.config.maxElements - slots.length =
              s.config.maxElements - (slots.length + 1) + 1 by omega, List.take_succ_cons]
        rw [List.length_cons] at hlt
        obtain ⟨t, slots', hrow, ht, hdim, hfirst⟩ := loadRow_takes sp sq hok hread hreadable.1
          (dim_of_readable_loadDim hreadable) hroom (by omega)
        have hlen : slots'.length = slots.length + 1 := hfirst.length
        have hnext : loadDim t.dim rows = loadDim s.dim (row :: rows) := by
          rw [hdim, ← hreadable.2]
          exact loadDim_of_pos (fun hzero => hreadable.1.2.1 (List.length_eq_zero_iff.mp hzero)) _
        obtain ⟨u, slots'', hrows, hu, hudim, hothers⟩ :=
          ih (hread.tail (List.Sublist.refl _) ht hfirst)
            (show rest = _ by rw [hnext, hfirst.config, hlen]; exact hrest) (by omega)
        rw [hload t hrow]
        exact ⟨u, slots'', hrows, hu, hudim.trans hnext, (hopened.append hfirst).append hothers⟩
      · have hskip : row.WellFormed → s.dim = 0 ∨ row.embedding.length = s.dim →
            s.config.maxElements ≤ slots.length := by
          intro hwf hdim
          by_contra hroom
          exact htakes ⟨readable_loadDim hwf hdim rows, not_le.mp hroom⟩
        obtain ⟨t, hrow, ht, hdim, hfirst⟩ := loadRow_skips sp sq hread hskip
        have hnext : loadDim t.dim rows = loadDim s.dim (row :: rows) := by
          rw [hdim]
          exact loadDim_cons s.dim row rows
        have hrest : loaded = (readable (loadDim s.dim (row :: rows)) rows).take
            (s.config.maxElements - slots.length) := by
          rw [hloaded]
          by_cases hreadable : row.Readable (loadDim s.dim (row :: rows))
          · rw [Nat.sub_eq_zero_of_le (not_lt.mp fun hroom => htakes ⟨hreadable, hroom⟩)]
            rfl
          · rw [readable_cons_of_neg hreadable]
        obtain ⟨u, slots'', hrows, hu, hudim, hothers⟩ :=
          ih (hread.tail (List.nil_sublist _) ht hfirst)
            (show loaded = _ by rw [hnext, hfirst.config]; exact hrest) hlt
        rw [hload t hrow]
        exact ⟨u, slots'', hrows, hu, hudim.trans hnext, (hopened.append hfirst).append hothers⟩

end VectorStore

end LogMind
