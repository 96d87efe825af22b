import LogMind.Vector.LoadedRows

/-!
# Closing and opening again

The rows a store leaves behind are its items. Loading them puts the items one after
the other, and a queue whose items are put one after the other is the queue.
-/

namespace LogMind

open KeyedQueue

/-- What every run of the reference keeps, from a configured dimension. -/
structure Reference.Sound {F : Type} (threshold dim : Nat) (r : Reference F) : Prop where
  dim : dim = 0 ∨ r.dim = dim
  items : ∀ item ∈ r.items, item.logId ≠ [] ∧ item.embedding ≠ [] ∧ item.embedding.length = r.dim
  bound : threshold = 0 ∨ r.items.length ≤ threshold

namespace Reference

variable {F : Type} {threshold dim : Nat} {r : Reference F}

theorem Sound.initial : (⟨dim, [], 0⟩ : Reference F).Sound threshold dim :=
  ⟨.inr rfl, fun _ hitem => (nomatch hitem), .inr (Nat.zero_le _)⟩

theorem Sound.insert (h : r.Sound threshold dim) (item : Item F) :
    (r.insert threshold item).Sound threshold dim := by
  unfold Reference.insert
  split
  case isFalse => exact h
  case isTrue haccepts =>
    obtain ⟨hid, hembedding, hdim⟩ := haccepts
    refine ⟨?_, fun other hother => ?_, ?_⟩
    · show dim = 0 ∨ item.embedding.length = dim
      have hold := h.dim
      omega
    · rcases List.mem_append.mp (List.mem_of_mem_drop hother) with hother | hother
      · obtain ⟨hotherId, hotherEmbedding, hlength⟩ := h.items other (mem_erase.mp hother).1
        have hpos := List.length_pos_iff.mpr hotherEmbedding
        exact ⟨hotherId, hotherEmbedding, hlength.trans (hdim.resolve_left (by omega)).symm⟩
      · rw [List.mem_singleton.mp hother]
        exact ⟨hid, hembedding, rfl⟩
    · exact bound_keepLast threshold _

theorem Sound.insertAll (h : r.Sound threshold dim) (items : List (Item F)) :
    (items.foldl (Reference.insert threshold) r).Sound threshold dim := by
  induction items generalizing r with
  | nil => exact h
  | cons item items ih => exact ih (h.insert item)

theorem Sound.call (h : r.Sound threshold dim) (c : VectorStore.Call F) :
    (r.call threshold c).Sound threshold dim := by
  cases c with
  | insert item => exact h.insert item
  | insertBatch logIds embeddings metadataList =>
      exact h.insertAll (VectorStore.batchItems logIds embeddings metadataList)
  | remove k =>
      refine ⟨h.dim, fun item hitem => h.items item (mem_erase.mp hitem).1, ?_⟩
      exact h.bound.imp id fun hle => (List.length_filter_le ..).trans hle
  | clear => exact ⟨h.dim, fun _ hitem => (nomatch hitem), .inr (Nat.zero_le _)⟩

theorem Sound.run (h : r.Sound threshold dim) (calls : List (VectorStore.Call F)) :
    (r.run threshold calls).Sound threshold dim := by
  induction calls generalizing r with
  | nil => exact h
  | cons c calls ih => exact ih (h.call c)

end Reference

namespace VectorStore

variable {F D R : Type} [LinearOrder D] (sp : Space (List F) D R) (sq : Sqlite F)
variable {s t : VectorStore F} {slots : List (Item F)}

/-- The stores drop the same items when a trim drops any number of them. -/
def SameVictims (s t : VectorStore F) : Prop :=
  ∀ excess ≤ s.size, ∃ s' t',
    trimLoop sq (s.idToLog.length - s.trimCursor) excess s = some s' ∧
    trimLoop sq (t.idToLog.length - t.trimCursor) excess t = some t' ∧
    s'.contents = s.contents.drop excess ∧ t'.contents = s.contents.drop excess

theorem Refines.trimLoop {r : Reference F} (h : Refines s r) {excess : Nat}
    (hexcess : excess ≤ r.items.length) :
    ∃ t, trimLoop sq (s.idToLog.length - s.trimCursor) excess s = some t ∧
      t.contents = r.items.drop excess := by
  obtain ⟨slots, hslots, rfl⟩ := h
  obtain ⟨t, slots', hloop, ht, -, -, hlive, -⟩ := trimLoop_drops sq hslots hexcess
  exact ⟨t, hloop, ht.agrees.contents.trans hlive⟩

theorem Refines.sameVictims {r r' : Reference F} (hs : Refines s r) (ht : Refines t r')
    (hitems : r'.items = r.items) : SameVictims sq s t := by
  intro excess hexcess
  rw [hs.agrees.size] at hexcess
  obtain ⟨s', hloop, hcontents⟩ := hs.trimLoop sq hexcess
  obtain ⟨t', hloop', hcontents'⟩ := ht.trimLoop sq (hitems ▸ hexcess)
  rw [hs.agrees.contents]
  exact ⟨s', t', hloop, hloop', hcontents, hcontents'.trans (by rw [hitems])⟩

/-- Items that an index of the given dimension can take up from their rows. -/
structure Reloadable (config : VectorStoreConfig) (items : List (Item F)) (dim : Nat) : Prop where
  distinct : Distinct Item.logId items
  accepted : ∀ item ∈ items,
    item.logId ≠ [] ∧ item.embedding ≠ [] ∧ item.embedding.length = dim
  bound : config.autoTrimThreshold = 0 ∨ items.length ≤ config.autoTrimThreshold
  room : items.length ≤ config.maxElements
  length_le : items.length ≤ wordBound32

omit [LinearOrder D] in
theorem Reloadable.sublist {config : VectorStoreConfig} {xs ys : List (Item F)} {dim : Nat}
    (h : Reloadable config ys dim) (hsub : xs.Sublist ys) : Reloadable config xs dim :=
  ⟨h.distinct.sublist hsub, fun item hitem => h.accepted item (hsub.subset hitem),
    h.bound.imp id hsub.length_le.trans, hsub.length_le.trans h.room,
    hsub.length_le.trans h.length_le⟩

/-- The rows of some items, loaded into an empty store, give the items. -/
theorem loadRows_stored (hok : ∀ n, sq.ok n = true) {empty dim : Nat} {items : List (Item F)}
    (h : Refines s ⟨empty, [], 0⟩) (hempty : empty = 0 ∨ empty = dim)
    (hstored : s.database.Stored items) (hitems : Reloadable s.config items dim) :
    ∃ t, loadRows sp sq s.database.table.rows s = some t ∧ t.config = s.config ∧
      t.database.table.rows = s.database.table.rows ∧
      t.database.transaction = s.database.transaction ∧
      Refines t ⟨if items = [] then empty else dim, items, items.length⟩ := by
  obtain ⟨slots, hslots, href⟩ := h
  obtain rfl : slots = [] := List.length_eq_zero_iff.mp (congrArg Reference.used href)
  obtain rfl : s.dim = empty := congrArg Reference.dim href
  have hmem : ∀ row ∈ s.database.table.rows, row.item ∈ items := fun row hrow =>
    hstored.rows ▸ List.mem_map_of_mem hrow
  have hreadable : ∀ row ∈ s.database.table.rows, row.Readable dim := by
    intro row hrow
    obtain ⟨hid, hembedding, hdim⟩ := hitems.accepted row.item (hmem row hrow)
    exact ⟨⟨hid, hembedding, hstored.dimension row hrow⟩, hdim⟩
  have hall : readable dim s.database.table.rows = items := by
    rw [readable, List.filter_eq_self.mpr fun row hrow => decide_eq_true (hreadable row hrow)]
    exact hstored.rows
  have hdim : loadDim s.dim s.database.table.rows = if items = [] then s.dim else dim := by
    cases hrows : s.database.table.rows with
    | nil =>
        rw [if_pos (hstored.rows.symm.trans (by rw [hrows]; rfl))]
        exact loadDim_nil _
    | cons row rows =>
        have hrow : row ∈ s.database.table.rows := hrows ▸ List.mem_cons_self
        obtain ⟨hwf, hlength⟩ := hreadable row hrow
        rw [if_neg (List.ne_nil_of_mem (hmem row hrow))]
        by_cases hzero : s.dim = 0
        · rw [loadDim_cons_of_pos hzero hwf, hlength]
        · rw [loadDim_of_pos hzero]
          exact hempty.resolve_left hzero
  have hloaded : items = (readable (loadDim s.dim s.database.table.rows)
      s.database.table.rows).take (s.config.maxElements - ([] : List (Item F)).length) := by
    rw [hdim]
    by_cases hnil : items = []
    · have hrows : s.database.table.rows = [] := List.map_eq_nil_iff.mp (hstored.rows.trans hnil)
      rw [hrows, hnil]
      exact List.take_nil.symm
    · rw [if_neg hnil, hall]
      exact (List.take_of_length_le hitems.room).symm
  have hclean : s.database.table.Clean := by
    constructor
    · have hids := hitems.distinct
      rw [Distinct, ← hstored.rows, List.map_map] at hids
      exact hids
    · intro row hrow
      have hfits := hstored.fits _ (hmem row hrow)
      exact ⟨hfits.logId, hfits.metadata⟩
  obtain ⟨t, slots', hload, ht, htdim, hconfig, hlen, hlive, htransaction, hrows⟩ :=
    loadRows_spec sp sq hok s.database.table.rows (Loading.initial hslots hclean) hloaded
      ((Nat.zero_add _).trans_le hitems.length_le)
  have hkept : live [] ++ items = items := rfl
  rw [hkept] at hlive hrows
  rw [excess_eq_zero hitems.bound] at hrows
  refine ⟨t, hload, hconfig, ?_, htransaction, slots', ht, ?_⟩
  · rw [hrows]
    exact List.filter_eq_self.mpr fun row _ => by simp
  · rw [reference, htdim, hdim, hlive, keepLast_of_le hitems.bound, hlen, List.length_nil,
      Nat.zero_add]

/-- Opening a store gives the items of its rows. -/
theorem open_stored (hok : ∀ n, sq.ok n = true) (hclosed : s.isOpen = false) {dim : Nat}
    {items : List (Item F)} (hdim : s.config.dim = 0 ∨ s.config.dim = dim)
    (hstored : s.database.Stored items) (hitems : Reloadable s.config items dim) :
    ∃ t, open_ sp sq s = some (true, t) ∧ t.config = s.config ∧
      t.database.table.rows = s.database.table.rows ∧
      t.database.transaction = s.database.transaction ∧
      Refines t ⟨if items = [] then s.config.dim else dim, items, items.length⟩ := by
  obtain ⟨t, hload, ht⟩ := loadRows_stored sp sq hok s.opening_refines hdim
    (hstored.congr (e := s.opening.database) rfl) hitems
  refine ⟨t, ?_, ht⟩
  rw [open_eq sp sq hok hclosed]
  exact congrArg (Option.map fun t => (true, t)) hload

/-- A store whose rows are its items, closed and opened again. -/
theorem reopen_refines (hok : ∀ n, sq.ok n = true) {r : Reference F} (h : Refines s r)
    (hnone : s.database.transaction = none) (hstored : s.database.Stored r.items)
    (hsound : r.Sound s.config.autoTrimThreshold s.config.dim)
    (hroom : r.used ≤ s.config.maxElements) (hlt : r.used ≤ wordBound32) :
    ∃ t, open_ sp sq s.close = some (true, t) ∧ ∃ r', Refines t r' ∧ r'.items = r.items := by
  obtain ⟨hopen, hle⟩ : s.isOpen = true ∧ r.items.length ≤ r.used := by
    obtain ⟨slots, hslots, rfl⟩ := h
    exact ⟨hslots.isOpen, live_length_le slots⟩
  have htable : s.close.database.table = s.database.table := by
    rw [close, if_pos hopen]
    show s.database.transaction.getD s.database.table = _
    rw [hnone]
    rfl
  obtain ⟨t, hreopen, -, -, -, ht⟩ := open_stored sp sq hok (s := s.close) rfl
    (hsound.dim.imp id Eq.symm) (hstored.congr (congrArg Table.rows htable))
    ⟨h.distinct, hsound.items, hsound.bound, hle.trans hroom, hle.trans hlt⟩
  exact ⟨t, hreopen, _, ht, rfl⟩

/-- The items of one length among some. -/
def ofLength (dim : Nat) (items : List (Item F)) : List (Item F) :=
  items.filter fun item => item.embedding.length = dim

theorem ofLength_append (dim : Nat) (xs ys : List (Item F)) :
    ofLength dim (xs ++ ys) = ofLength dim xs ++ ofLength dim ys := List.filter_append ..

theorem mem_ofLength {dim : Nat} {items : List (Item F)} {item : Item F} :
    item ∈ ofLength dim items ↔ item ∈ items ∧ item.embedding.length = dim := by
  simp [ofLength]

theorem ofLength_cons_of_eq {dim : Nat} {item : Item F} (h : item.embedding.length = dim)
    (items : List (Item F)) : ofLength dim (item :: items) = item :: ofLength dim items :=
  List.filter_cons_of_pos (by simpa using h)

theorem ofLength_cons_of_ne {dim : Nat} {item : Item F} (h : item.embedding.length ≠ dim)
    (items : List (Item F)) : ofLength dim (item :: items) = ofLength dim items :=
  List.filter_cons_of_neg (by simpa using h)

/-- Inserts of new log ids append the items of the dimension, which the first of them
decides where there is none. -/
theorem inserts_append (hok : ∀ n, sq.ok n = true) {dim : Nat} (items : List (Item F))
    {r : Reference F} (h : Refines s r) (hstored : s.database.Stored r.items)
    (hnone : s.database.transaction = none) (hpersist : s.config.persist = true)
    (hdim : 0 < dim ∧ r.dim = dim ∨ r.dim = 0 ∧ ∀ item ∈ items.head?, item.embedding.length = dim)
    (hitems : ∀ item ∈ items, item.logId ≠ [] ∧ item.embedding ≠ [])
    (hfits : ∀ item ∈ ofLength dim items, item.Fits)
    (hdistinct : Distinct Item.logId (r.items ++ ofLength dim items))
    (hbound : s.config.autoTrimThreshold = 0 ∨
      r.items.length + (ofLength dim items).length ≤ s.config.autoTrimThreshold)
    (hroom : r.used + (ofLength dim items).length ≤ s.config.maxElements)
    (hlt : r.used + (ofLength dim items).length ≤ wordBound32) :
    ∃ t, Transition.run (call sp sq) s (items.map Call.insert) = some t ∧ t.isOpen = true ∧
      t.database.transaction = none ∧ t.database.Stored (r.items ++ ofLength dim items) := by
  induction items generalizing s r with
  | nil =>
      obtain ⟨slots, hslots, rfl⟩ := h
      exact ⟨s, rfl, hslots.isOpen, hnone, by simpa [ofLength] using hstored⟩
  | cons item items ih =>
      obtain ⟨hid, hembedding⟩ := hitems item List.mem_cons_self
      have hrest := fun other hother => hitems other (List.mem_cons_of_mem item hother)
      by_cases hlength : item.embedding.length = dim
      · rw [ofLength_cons_of_eq hlength] at hfits hdistinct hbound hroom hlt ⊢
        rw [List.length_cons] at hbound hroom hlt
        have hpos : 0 < dim := hlength ▸ List.length_pos_of_ne_nil hembedding
        have haccepts : r.Accepts item := by
          refine ⟨hid, hembedding, ?_⟩
          rcases hdim with ⟨-, hdim⟩ | ⟨hdim, -⟩
          · exact .inr (hlength.trans hdim.symm)
          · exact .inl hdim
        have hfirst : Distinct Item.logId (r.items ++ [item]) :=
          hdistinct.sublist (by simp)
        have hnew : item.logId ∉ r.items.map Item.logId :=
          hfirst.apart (List.mem_singleton_self item)
        have hinsert : r.insert s.config.autoTrimThreshold item =
            ⟨dim, r.items ++ [item], r.used + 1⟩ := by
          rw [Reference.insert, if_pos haccepts, hlength, put, erase_of_not_mem hnew,
            keepLast_of_le (hbound.imp id fun hle => by
              rw [List.length_append, List.length_singleton]
              omega)]
        obtain ⟨t, hcall, ht, hconfig, htransaction, hwritten⟩ :=
          call_refines sp sq hok h (.insert item) (by show r.used + 1 ≤ _; omega)
            (by rw [Reference.call, hinsert]; show r.used + 1 ≤ _; omega)
        rw [Reference.call, hinsert] at ht hwritten
        obtain ⟨u, hrun, hu⟩ := ih ht
          (hwritten hpersist (fun _ => hfits item List.mem_cons_self) hstored) (htransaction hnone)
          (hconfig ▸ hpersist) (.inl ⟨hpos, rfl⟩) hrest
          (fun other hother => hfits other (List.mem_cons_of_mem item hother))
          (by rw [List.append_assoc]; exact hdistinct)
          (by
            rw [hconfig, List.length_append, List.length_singleton]
            exact hbound.imp id fun hle => by omega)
          (by rw [hconfig]; show r.used + 1 + _ ≤ _; omega) (by show r.used + 1 + _ ≤ _; omega)
        refine ⟨u, Transition.run_cons_eq_some.mpr ⟨t, hcall, hrun⟩, ?_⟩
        rw [List.append_assoc] at hu
        exact hu
      · rw [ofLength_cons_of_ne hlength] at hfits hdistinct hbound hroom hlt ⊢
        have hchosen := hdim.resolve_right fun hzero => hlength (hzero.2 item rfl)
        obtain ⟨slots, hslots, rfl⟩ := h
        have hrejected : ¬ (reference s slots).Accepts item := by
          rintro ⟨-, -, hzero | hsame⟩
          · exact absurd (hchosen.2.symm.trans hzero) (Nat.ne_of_gt hchosen.1)
          · exact hlength (hsame.trans hchosen.2)
        have hinsert := insertLocked_rejected sp sq s slots hrejected true
        obtain ⟨u, hrun, hu⟩ := ih ⟨slots, hslots, rfl⟩ hstored hnone hpersist (.inl hchosen) hrest
          hfits hdistinct hbound hroom hlt
        refine ⟨u, Transition.run_cons_eq_some.mpr ⟨s, ?_, hrun⟩, hu⟩
        rw [call, insert, hinsert]
        rfl

/-- Closing a store and opening it again gives the same items in the same order, where what
is written fits and no index has had more than `2 ^ 32` nodes. -/
theorem run_restart (hok : ∀ n, sq.ok n = true) (hclosed : s.isOpen = false)
    (hempty : s.database.table.rows = []) (hnone : s.database.transaction = none)
    (hpersist : s.config.persist = true) (calls : List (Call F))
    (hfits : (⟨s.config.dim, [], 0⟩ : Reference F).FitsRun s.config.autoTrimThreshold calls)
    (hroom : inserts calls < s.config.maxElements)
    (hused : ∀ earlier, earlier <+: calls →
      ((⟨s.config.dim, [], 0⟩ : Reference F).run s.config.autoTrimThreshold earlier).used ≤
        wordBound32) :
    ∃ opened t reopened, open_ sp sq s = some (true, opened) ∧
      Transition.run (call sp sq) opened calls = some t ∧
      open_ sp sq t.close = some (true, reopened) ∧
      reopened.contents = t.contents ∧ reopened.size = t.size ∧ SameVictims sq t reopened := by
  have hopen : open_ sp sq s = some (true, s.opening) := by
    rw [open_eq sp sq hok hclosed, hempty]
    rfl
  obtain ⟨t, hrun, ht, hconfig, hended, hwritten⟩ :=
    run_refines sp sq hok calls s.opening_refines (by rw [Nat.zero_add]; exact hroom.le) hused
  have hconfig : t.config = s.config := hconfig
  have hstored := hwritten hpersist hfits (Database.Stored.of_empty hempty)
  obtain ⟨reopened, hreopen, hitems⟩ := reopen_refines sp sq hok ht (hended hnone) hstored
    (by rw [hconfig]; exact Reference.Sound.run .initial calls)
    (by
      rw [hconfig]
      have hle := used_run_le s.config.autoTrimThreshold ⟨s.config.dim, [], 0⟩
        (List.prefix_refl calls)
      exact hle.trans (by rw [Nat.zero_add]; exact hroom.le))
    (hused calls (List.prefix_refl calls))
  refine ⟨s.opening, t, reopened, hopen, hrun, hreopen, ?_⟩
  obtain ⟨r', hr', hsame⟩ := hitems
  refine ⟨?_, ?_, ht.sameVictims sq hr' hsame⟩
  · rw [hr'.agrees.contents, hsame]
    exact ht.agrees.contents.symm
  · rw [hr'.agrees.size, hsame]
    exact ht.agrees.size.symm

theorem run_restart_small :
    ∃ opened t reopened, open_ gridSpace alwaysOk smallStore = some (true, opened) ∧
      Transition.run (call gridSpace alwaysOk) opened smallCalls = some t ∧
      open_ gridSpace alwaysOk t.close = some (true, reopened) ∧
      reopened.contents = t.contents ∧ reopened.size = t.size ∧
      SameVictims alwaysOk t reopened :=
  run_restart gridSpace alwaysOk (fun _ => rfl) (rfl : smallStore.isOpen = false) rfl rfl rfl
    smallCalls (by decide) (by decide) fun earlier hearlier =>
      (used_run_le 2 ⟨0, [], 0⟩ hearlier).trans (by decide)

/-- The only row of a table, when it has no embedding. -/
theorem open_of_empty_row (hok : ∀ n, sq.ok n = true) (hclosed : s.isOpen = false) {row : Row F}
    (hrows : s.database.table.rows = [row]) (hempty : row.embedding = []) :
    ∃ t, open_ sp sq s = some (true, t) ∧ t.contents = [] := by
  obtain ⟨d, hexecute⟩ : ∃ d, s.opening.database.execute sq id = (true, d) :=
    ⟨_, Database.execute_of_ok sq hok _ _⟩
  refine ⟨s.opening.withDatabase d, ?_, (s.opening_refines.withDatabase d).agrees.contents⟩
  rw [open_eq sp sq hok hclosed, hrows, loadRows, hexecute]
  dsimp only
  rw [if_pos rfl, loadRow_of_malformed sp sq (.inl hempty)]
  rfl

/-- A store on an empty file whose index has two slots. -/
def twoSlotStore : VectorStore Int := { config := { maxElements := 2 } }

/-- The length of a blob of `2 ^ 30` numbers wraps to zero, and the store comes back
without it. -/
theorem restart_drops {item : Item Int} (hid : item.logId ≠ [])
    (hlength : item.embedding.length = 1073741824) :
    ∃ opened t reopened, open_ gridSpace alwaysOk twoSlotStore = some (true, opened) ∧
      Transition.run (call gridSpace alwaysOk) opened [.insert item] = some t ∧
      open_ gridSpace alwaysOk t.close = some (true, reopened) ∧
      t.contents = [item] ∧ reopened.contents = [] := by
  have hne : item.embedding ≠ [] := by
    rw [← List.length_pos_iff, hlength]
    decide
  obtain ⟨slots, hslots, href⟩ := twoSlotStore.opening_refines
  have haccepts : (reference twoSlotStore.opening slots).Accepts item := by
    rw [href]
    exact ⟨hid, hne, .inl rfl⟩
  obtain rfl : slots = [] := List.length_eq_zero_iff.mp (congrArg Reference.used href)
  obtain ⟨t, slots', hinsert, ht, -, href', hdatabase⟩ :=
    insertLocked_accepted gridSpace alwaysOk (fun _ => rfl) hslots haccepts true (by decide)
      (by decide)
  have hcontents : t.contents = [item] := by
    have hitems : live slots' = _ := congrArg Reference.items href'
    rw [ht.agrees.contents, hitems, Reference.insert, if_pos haccepts]
    rfl
  have hrows : t.close.database.table.rows =
      [⟨1, Database.bindText item.logId, Database.bindBlob alwaysOk item.embedding,
        asInt item.embedding.length, Database.bindText item.metadata⟩] := by
    rw [close, if_pos ht.isOpen, hdatabase]
    rfl
  obtain ⟨reopened, hopen, hempty⟩ := open_of_empty_row gridSpace alwaysOk (fun _ => rfl)
    (rfl : t.close.isOpen = false) hrows (Database.bindBlob_wraps alwaysOk hlength)
  refine ⟨twoSlotStore.opening, t, reopened, rfl, ?_, hopen, hcontents, hempty⟩
  refine Transition.run_cons_eq_some.mpr ⟨t, ?_, rfl⟩
  rw [call, insert, hinsert]
  rfl

theorem run_restart_long :
    ∃ opened t reopened, open_ gridSpace alwaysOk twoSlotStore = some (true, opened) ∧
      Transition.run (call gridSpace alwaysOk) opened
        [.insert ⟨[97], List.replicate 1073741824 0, []⟩] = some t ∧
      open_ gridSpace alwaysOk t.close = some (true, reopened) ∧
      t.contents = [⟨[97], List.replicate 1073741824 0, []⟩] ∧ reopened.contents = [] :=
  restart_drops (by simp) List.length_replicate

end VectorStore

end LogMind
