import LogMind.Vector.StoreInvariant
import LogMind.Vector.StoredRows

/-!
# The store is a queue with keys

What the store is for: a queue of items, oldest first, with one item for each log
id. An accepted insert replaces the item with its log id by a new last one, and the
oldest items go until the threshold is met.
-/

namespace LogMind

open KeyedQueue

/-- The queue, with the dimension and the number of inserts accepted since the last
clearing. -/
structure Reference (F : Type) where
  dim : Nat
  items : List (Item F)
  used : Nat

namespace Reference

variable {F : Type}

def Accepts (r : Reference F) (item : Item F) : Prop :=
  item.logId ≠ [] ∧ item.embedding ≠ [] ∧ (r.dim = 0 ∨ item.embedding.length = r.dim)

instance (r : Reference F) (item : Item F) : Decidable (r.Accepts item) :=
  inferInstanceAs (Decidable (_ ∧ _))

def insert (threshold : Nat) (r : Reference F) (item : Item F) : Reference F :=
  if r.Accepts item then
    { dim := item.embedding.length
      items := keepLast threshold (put Item.logId r.items item)
      used := r.used + 1 }
  else r

def call (threshold : Nat) (r : Reference F) : VectorStore.Call F → Reference F
  | .insert item => r.insert threshold item
  | .insertBatch logIds embeddings metadataList =>
      (VectorStore.batchItems logIds embeddings metadataList).foldl (insert threshold) r
  | .remove logId => { r with items := erase Item.logId logId r.items }
  | .clear => { r with items := [], used := 0 }

def run (threshold : Nat) (r : Reference F) (calls : List (VectorStore.Call F)) : Reference F :=
  calls.foldl (call threshold) r

/-- The items of a batch that are accepted survive the bindings. -/
def FitsAll (threshold : Nat) : Reference F → List (Item F) → Prop
  | _, [] => True
  | r, item :: items =>
      (r.Accepts item → item.Fits) ∧ FitsAll threshold (r.insert threshold item) items

instance decidableFitsAll (threshold : Nat) :
    (r : Reference F) → (items : List (Item F)) → Decidable (r.FitsAll threshold items)
  | _, [] => .isTrue trivial
  | r, item :: items =>
      have := decidableFitsAll threshold (r.insert threshold item) items
      inferInstanceAs (Decidable ((r.Accepts item → item.Fits) ∧ _))

/-- What a call writes and what it asks for survive the bindings. -/
def Fits (threshold : Nat) (r : Reference F) : VectorStore.Call F → Prop
  | .insert item => r.Accepts item → item.Fits
  | .insertBatch logIds embeddings metadataList =>
      r.FitsAll threshold (VectorStore.batchItems logIds embeddings metadataList)
  | .remove logId => Database.Binds logId (r.items.map Item.logId)
  | .clear => True

instance (threshold : Nat) (r : Reference F) :
    (c : VectorStore.Call F) → Decidable (r.Fits threshold c)
  | .insert item => inferInstanceAs (Decidable (r.Accepts item → item.Fits))
  | .insertBatch _ _ _ => inferInstanceAs (Decidable (r.FitsAll threshold _))
  | .remove logId => inferInstanceAs (Decidable (Database.Binds logId _))
  | .clear => inferInstanceAs (Decidable True)

/-- Every call of a sequence does, in the state before it. -/
def FitsRun (threshold : Nat) (r : Reference F) (calls : List (VectorStore.Call F)) : Prop :=
  Transition.Meets (fun r c => some (r.call threshold c)) (Fits threshold) r calls

instance (threshold : Nat) (r : Reference F) (calls : List (VectorStore.Call F)) :
    Decidable (r.FitsRun threshold calls) := inferInstanceAs (Decidable (Transition.Meets _ _ _ _))

theorem le_used_insert (threshold : Nat) (r : Reference F) (item : Item F) :
    r.used ≤ (r.insert threshold item).used := by
  unfold insert
  split
  · exact Nat.le_succ _
  · exact le_rfl

theorem used_insert_le (threshold : Nat) (r : Reference F) (item : Item F) :
    (r.insert threshold item).used ≤ r.used + 1 := by
  unfold insert
  split
  · exact le_rfl
  · exact Nat.le_succ _

theorem used_insertAll_le (threshold : Nat) (r : Reference F) (items : List (Item F)) :
    (items.foldl (insert threshold) r).used ≤ r.used + items.length := by
  induction items generalizing r with
  | nil => exact le_rfl
  | cons item items ih =>
      have hstep := used_insert_le threshold r item
      have hrest := ih (r.insert threshold item)
      rw [List.foldl_cons, List.length_cons]
      omega

theorem le_used_insertAll (threshold : Nat) (r : Reference F) (items : List (Item F)) :
    r.used ≤ (items.foldl (insert threshold) r).used := by
  induction items generalizing r with
  | nil => exact le_rfl
  | cons item items ih => exact (le_used_insert threshold r item).trans (ih _)

end Reference

namespace VectorStore

variable {F D R : Type} [LinearOrder D] (sp : Space (List F) D R) (sq : Sqlite F)
variable {s t : VectorStore F} {slots : List (Item F)}

/-- How the reference sees a store. -/
def reference (s : VectorStore F) (slots : List (Item F)) : Reference F :=
  ⟨s.dim, live slots, slots.length⟩

theorem writeRow_ok (hok : ∀ n, sq.ok n = true) (s : VectorStore F) (item : Item F)
    (writeDb : Bool) : (writeRow sq s item writeDb).1 = true := by
  unfold writeRow
  split
  · simp [Database.writeRow, Database.execute, hok]
  · rfl

theorem transaction_writeRow (s : VectorStore F) (item : Item F) (writeDb : Bool) :
    (writeRow sq s item writeDb).2.database.transaction = s.database.transaction := by
  unfold writeRow
  split
  · exact s.database.transaction_execute sq fun t =>
      Database.Table.replace t (Database.bindText item.logId) (Database.bindBlob sq item.embedding)
        (asInt item.embedding.length) (Database.bindText item.metadata)
  · rfl

/-- What is written depends on the configuration and the database only. -/
theorem writeRow_eq (hconfig : t.config = s.config) (hopen : t.isOpen = s.isOpen)
    (hdatabase : t.database = s.database) (item : Item F) (writeDb : Bool) :
    writeRow sq t item writeDb =
      ((writeRow sq s item writeDb).1,
        t.withDatabase (writeRow sq s item writeDb).2.database) := by
  unfold writeRow
  rw [hconfig, hopen, hdatabase]
  split
  · rfl
  · show (true, t) = (true, t.withDatabase s.database)
    rw [← hdatabase]
    rfl

/-- An item that is accepted and finds room gets a node before its row is written. -/
theorem insertLocked_tried (h : Holds s slots) {item : Item F}
    (haccepts : (reference s slots).Accepts item) (hroom : slots.length < s.config.maxElements)
    (hlt : slots.length < wordBound32) (writeDb : Bool) :
    ∃ a slots', Holds a slots' ∧ a.config = s.config ∧ a.dim = item.embedding.length ∧
      slots'.length = slots.length + 1 ∧ live slots' = put Item.logId (live slots) item ∧
      insertLocked sp sq s item writeDb =
        if (writeRow sq s item writeDb).1 then
          (trim sq (a.withDatabase (writeRow sq s item writeDb).2.database)).map fun t => (true, t)
        else some (false, a.withDatabase (writeRow sq s item writeDb).2.database) := by
  obtain ⟨hid, hembedding, hdim⟩ := haccepts
  obtain ⟨hchosen, hpos, hchoice, hconfig, hdatabase⟩ := chooseDim_spec h hembedding
  have hlength : item.embedding.length = (s.chooseDim item.embedding).dim := by
    rw [hchoice]
    split
    · rfl
    · exact hdim.resolve_left ‹_›
  obtain ⟨dropped, hdropped, hframe, hlen, hlive, hsame⟩ := dropExisting_spec hchosen item.logId
  have hnew : item.logId ∉ (live dropped).map Item.logId := by
    rw [hlive, List.mem_map]
    rintro ⟨other, hother, hsameId⟩
    exact (mem_erase.mp hother).2 hsameId
  obtain ⟨a, hadd, hadded, haddframe, haddsame⟩ :=
    addNode_spec sp hdropped (hframe.dim ▸ hpos) hid hnew (by omega)
  have haconfig : a.config = s.config := (hframe.trans haddframe).config.trans hconfig
  have hrow := writeRow_eq sq haconfig (hadded.isOpen.trans h.isOpen.symm)
    (haddsame.trans (hsame.trans hdatabase)) item writeDb
  refine ⟨a, dropped ++ [item], hadded, haconfig, ?_, ?_, ?_, ?_⟩
  · exact (hframe.trans haddframe).dim.trans hlength.symm
  · rw [List.length_append, hlen]
    rfl
  · rw [live_append, hlive, live_cons_of_ne hid]
    rfl
  · have hchosenRoom : ¬ (s.chooseDim item.embedding).config.maxElements ≤
        (s.chooseDim item.embedding).idToLog.length := by
      rw [hconfig, hchosen.length_idToLog]
      omega
    unfold insertLocked
    dsimp only
    rw [if_neg hid, if_neg hembedding, if_neg (not_not.mpr hlength), if_neg hchosenRoom, hadd,
      Option.bind_eq_bind, Option.bind_some, hrow]
    dsimp only
    split
    · cases trim sq (a.withDatabase (writeRow sq s item writeDb).2.database) <;> rfl
    · rfl

/-- An accepted insert. -/
theorem insertLocked_accepted (hok : ∀ n, sq.ok n = true) (h : Holds s slots) {item : Item F}
    (haccepts : (reference s slots).Accepts item) (writeDb : Bool)
    (hroom : slots.length < s.config.maxElements) (hlt : slots.length < wordBound32) :
    ∃ t slots', insertLocked sp sq s item writeDb = some (true, t) ∧ Holds t slots' ∧
      t.config = s.config ∧
      reference t slots' = (reference s slots).insert s.config.autoTrimThreshold item ∧
      t.database = deletedRows sq (writeRow sq s item writeDb).2.database
        ((put Item.logId (live slots) item).take
          (excess s.config.autoTrimThreshold (put Item.logId (live slots) item))) := by
  obtain ⟨a, added, hadded, hconfig, hdim, hlen, hput, hinsert⟩ :=
    insertLocked_tried sp sq h haccepts hroom hlt writeDb
  obtain ⟨t, slots', htrim, ht, htframe, htlen, htlive, htdatabase⟩ :=
    trim_spec sq (hadded.withDatabase (writeRow sq s item writeDb).2.database)
  change live slots' = keepLast a.config.autoTrimThreshold _ at htlive
  change t.database = deletedRows sq _ (List.take (excess a.config.autoTrimThreshold _) _)
    at htdatabase
  rw [hconfig, hput] at htlive htdatabase
  rw [if_pos (writeRow_ok sq hok s item writeDb), htrim] at hinsert
  refine ⟨t, slots', hinsert, ht, htframe.config.trans hconfig, ?_, htdatabase⟩
  rw [Reference.insert, if_pos haccepts, reference, htframe.dim.trans hdim, htlive, htlen, hlen]
  rfl

/-- A rejected insert. -/
theorem insertLocked_rejected (s : VectorStore F) (slots : List (Item F)) {item : Item F}
    (hrejects : ¬ (reference s slots).Accepts item) (writeDb : Bool) :
    insertLocked sp sq s item writeDb = some (false, s) := by
  unfold insertLocked
  dsimp only
  by_cases hid : item.logId = []
  · rw [if_pos hid]
    rfl
  rw [if_neg hid]
  by_cases hembedding : item.embedding = []
  · rw [if_pos hembedding]
    rfl
  rw [if_neg hembedding]
  have hdim : ¬ (s.dim = 0 ∨ item.embedding.length = s.dim) :=
    fun hdim => hrejects ⟨hid, hembedding, hdim⟩
  rw [not_or] at hdim
  have hkept : s.chooseDim item.embedding = s := if_neg hdim.1
  rw [hkept, if_pos hdim.2]
  rfl

/-- The database deletes one row after the other. -/
theorem stored_deletedRows (hok : ∀ n, sq.ok n = true) {d : Database F} {items : List (Item F)}
    (h : d.Stored items) (victims : List (Item F)) (hvictims : ∀ item ∈ victims, item.Fits) :
    (deletedRows sq d victims).Stored
      (victims.foldl (fun items item => erase Item.logId item.logId items) items) := by
  induction victims generalizing d items with
  | nil => exact h
  | cons item victims ih =>
      have hitem := Database.binds_of_storable (hvictims item List.mem_cons_self).logId
      exact ih (h.deleteRow sq hok (hitem _))
        fun other hother => hvictims other (List.mem_cons_of_mem _ hother)

theorem transaction_deletedRows (d : Database F) (victims : List (Item F)) :
    (deletedRows sq d victims).transaction = d.transaction := by
  induction victims generalizing d with
  | nil => rfl
  | cons item victims ih => exact (ih _).trans (d.transaction_deleteRow sq item.logId)

/-- The store is the queue of the reference. -/
def Refines (s : VectorStore F) (r : Reference F) : Prop :=
  ∃ slots, Holds s slots ∧ reference s slots = r

theorem Refines.distinct {r : Reference F} (h : Refines s r) : Distinct Item.logId r.items := by
  obtain ⟨slots, hslots, rfl⟩ := h
  exact hslots.distinct

/-- The step lemma of an insert. -/
theorem insert_refines (hok : ∀ n, sq.ok n = true) {r : Reference F} (h : Refines s r)
    (item : Item F) (writeDb : Bool) (hroom : r.used < s.config.maxElements)
    (hused : (r.insert s.config.autoTrimThreshold item).used ≤ wordBound32) :
    ∃ ok t, insertLocked sp sq s item writeDb = some (ok, t) ∧
      Refines t (r.insert s.config.autoTrimThreshold item) ∧
      t.config = s.config ∧ t.database.transaction = s.database.transaction ∧
      (writeDb = true → s.config.persist = true → (r.Accepts item → item.Fits) →
        s.database.Stored r.items →
        t.database.Stored (r.insert s.config.autoTrimThreshold item).items) := by
  obtain ⟨slots, hslots, rfl⟩ := h
  by_cases haccepts : (reference s slots).Accepts item
  · have hlt : slots.length < wordBound32 := by
      rw [Reference.insert, if_pos haccepts] at hused
      exact hused
    obtain ⟨t, slots', hinsert, ht, hconfig, href, hdatabase⟩ :=
      insertLocked_accepted sp sq hok hslots haccepts writeDb hroom hlt
    refine ⟨true, t, hinsert, ⟨slots', ht, href⟩, hconfig, ?_, ?_⟩
    · rw [hdatabase, transaction_deletedRows]
      exact transaction_writeRow sq s item writeDb
    · intro hwrite hpersist hitem hstored
      have hrow : (writeRow sq s item writeDb).2.database =
          (s.database.writeRow sq item.logId item.embedding item.metadata).2 := by
        rw [writeRow, hwrite, hpersist, hslots.isOpen]
        rfl
      have hput := hstored.writeRow sq hok (hitem haccepts)
      have hall := stored_deletedRows sq hok hput
        ((put Item.logId (live slots) item).take
          (excess s.config.autoTrimThreshold (put Item.logId (live slots) item)))
        fun other hother => hput.fits other (List.mem_of_mem_take hother)
      change Database.Stored _ (List.foldl _ (put Item.logId (live slots) item) _) at hall
      rw [erase_take (hslots.distinct.put item)] at hall
      rw [hdatabase, hrow, Reference.insert, if_pos haccepts]
      exact hall
  · refine ⟨false, s, insertLocked_rejected sp sq s slots haccepts writeDb, ?_, rfl, rfl, ?_⟩
    · rw [Reference.insert, if_neg haccepts]
      exact ⟨slots, hslots, rfl⟩
    · intro _ _ _ hstored
      rwa [Reference.insert, if_neg haccepts]

theorem insertAll_refines (hok : ∀ n, sq.ok n = true) (items : List (Item F)) (count : Nat)
    {r : Reference F} (h : Refines s r) (hroom : r.used + items.length ≤ s.config.maxElements)
    (hused : (items.foldl (Reference.insert s.config.autoTrimThreshold) r).used ≤ wordBound32) :
    ∃ count' t, insertAll sp sq items count s = some (count', t) ∧
      Refines t (items.foldl (Reference.insert s.config.autoTrimThreshold) r) ∧
      t.config = s.config ∧ t.database.transaction = s.database.transaction ∧
      (s.config.persist = true → r.FitsAll s.config.autoTrimThreshold items →
        s.database.Stored r.items → t.database.Stored
          (items.foldl (Reference.insert s.config.autoTrimThreshold) r).items) := by
  induction items generalizing s r count with
  | nil => exact ⟨count, s, rfl, h, rfl, rfl, fun _ _ hstored => hstored⟩
  | cons item items ih =>
      rw [List.length_cons] at hroom
      have hmore := (Reference.le_used_insertAll s.config.autoTrimThreshold
        (r.insert s.config.autoTrimThreshold item) items).trans hused
      have hstep := r.used_insert_le s.config.autoTrimThreshold item
      obtain ⟨ok, t, hinsert, ht, hconfig, htransaction, hstored⟩ :=
        insert_refines sp sq hok h item true (by omega) hmore
      rw [← hconfig] at ht hroom hused hstored hstep ⊢
      obtain ⟨count', u, hrest, hu, hconfig', htransaction', hstored'⟩ :=
        ih (if ok then count + 1 else count) ht (by omega) hused
      refine ⟨count', u, ?_, hu, hconfig', htransaction'.trans htransaction, ?_⟩
      · rw [insertAll, hinsert, Option.bind_eq_bind, Option.bind_some]
        exact hrest
      · intro hpersist hitems hs
        exact hstored' hpersist hitems.2 (hstored rfl hpersist hitems.1 hs)

/-- How many inserts a call tries. -/
def Call.inserts : Call F → Nat
  | .insert _ => 1
  | .insertBatch logIds embeddings metadataList =>
      (batchItems logIds embeddings metadataList).length
  | .remove _ => 0
  | .clear => 0

/-- How many inserts the calls of a sequence try. -/
def inserts : List (Call F) → Nat
  | [] => 0
  | c :: calls => c.inserts + inserts calls

theorem Refines.withDatabase {r : Reference F} (h : Refines s r) (database : Database F) :
    Refines (s.withDatabase database) r := by
  obtain ⟨slots, hslots, rfl⟩ := h
  exact ⟨slots, hslots.withDatabase database, rfl⟩

theorem beginBatch_spec (s : VectorStore F) :
    ∃ inTx d, beginBatch sq s = (inTx, s.withDatabase d) ∧ d.table = s.database.table ∧
      (s.database.transaction = none → inTx = false → d.transaction = none) := by
  unfold beginBatch
  split
  · refine ⟨(s.database.begin_ sq).1, (s.database.begin_ sq).2, rfl, ?_⟩
    unfold Database.begin_
    dsimp only
    split
    · exact ⟨s.database.table_execute_id sq, fun _ htrue => (nomatch htrue)⟩
    · exact ⟨s.database.table_execute_id sq,
        fun hnone _ => (s.database.transaction_execute sq id).trans hnone⟩
  · exact ⟨false, s.database, rfl, rfl, fun hnone _ => hnone⟩

theorem endBatch_eq (hok : ∀ n, sq.ok n = true) (s : VectorStore F) :
    endBatch sq s = s.withDatabase
      { s.database with transaction := none, executed := s.database.executed + 1 } := by
  unfold endBatch Database.commit
  rw [Database.execute_of_ok sq hok]
  rfl

theorem resetIndex_holds (s : VectorStore F) (hopen : s.isOpen = true) :
    Holds s.resetIndex [] := by
  refine ⟨hopen, rfl, rfl, ?_, List.Perm.refl _, ?_, le_rfl, fun _ hitem => ?_, Nat.zero_le _⟩
  · by_cases hdim : 0 < s.dim
    · exact .inr ⟨hdim, s.newIndex, if_pos hdim, indexed_new _ _⟩
    · exact .inl ⟨Nat.eq_zero_of_not_pos hdim, if_neg hdim, rfl⟩
  · intro k i
    show (∅ : AList fun _ : Bytes => Nat).lookup k = some i ↔
      ([] : List Bytes)[i]? = some k ∧ k ≠ []
    simp
  · simp at hitem

/-- The step lemma of a call. -/
theorem call_refines (hok : ∀ n, sq.ok n = true) {r : Reference F} (h : Refines s r) (c : Call F)
    (hroom : r.used + c.inserts ≤ s.config.maxElements)
    (hused : (r.call s.config.autoTrimThreshold c).used ≤ wordBound32) :
    ∃ t, call sp sq s c = some t ∧ Refines t (r.call s.config.autoTrimThreshold c) ∧
      t.config = s.config ∧
      (s.database.transaction = none → t.database.transaction = none) ∧
      (s.config.persist = true → r.Fits s.config.autoTrimThreshold c →
        s.database.Stored r.items →
          t.database.Stored (r.call s.config.autoTrimThreshold c).items) := by
  cases c with
  | insert item =>
      obtain ⟨ok, t, hinsert, ht, hconfig, htransaction, hstored⟩ :=
        insert_refines sp sq hok h item true (Nat.lt_of_succ_le hroom) hused
      refine ⟨t, ?_, ht, hconfig, fun hnone => htransaction.trans hnone, hstored rfl⟩
      rw [call, insert, hinsert]
      rfl
  | insertBatch logIds embeddings metadataList =>
      rw [Call.inserts] at hroom
      rw [Reference.call] at hused ⊢
      by_cases hempty : (batchItems logIds embeddings metadataList).length = 0
      · have hnil : batchItems logIds embeddings metadataList = [] :=
          List.length_eq_zero_iff.mp hempty
        refine ⟨s, ?_, by rw [hnil]; exact h, rfl, id,
          fun _ _ hstored => by rw [hnil]; exact hstored⟩
        rw [call, insertBatch, if_pos hempty]
        rfl
      · obtain ⟨inTx, d, hbegin, htable, hnone⟩ := beginBatch_spec sq s
        obtain ⟨count, t, hinsert, ht, hconfig, htransaction, hstored⟩ :=
          insertAll_refines sp sq hok (batchItems logIds embeddings metadataList) 0
            (h.withDatabase d) hroom hused
        have hcall : call sp sq s (.insertBatch logIds embeddings metadataList) =
            some (if inTx then endBatch sq t else t) := by
          rw [call, insertBatch, if_neg hempty, hbegin]
          dsimp only
          rw [hinsert]
          rfl
        have hrows : d.table.rows = s.database.table.rows := congrArg Table.rows htable
        refine ⟨_, hcall, ?_⟩
        cases inTx with
        | false =>
            exact ⟨ht, hconfig, fun hs => htransaction.trans (hnone hs rfl),
              fun hpersist hfits hs => hstored hpersist hfits (hs.congr hrows)⟩
        | true =>
            rw [if_pos rfl, endBatch_eq sq hok]
            exact ⟨ht.withDatabase _, hconfig, fun _ => rfl,
              fun hpersist hfits hs => (hstored hpersist hfits (hs.congr hrows)).congr rfl⟩
  | remove k =>
      obtain ⟨slots, hslots, rfl⟩ := h
      obtain ⟨slots', hdropped, hframe, hlen, hlive, hsame⟩ := dropExisting_spec hslots k
      have hcall : (remove sq s k).2 =
          (s.dropExisting k).withDatabase (s.database.deleteRow sq k).2 := by
        rw [← hsame]
        exact deleteRow_eq sq hdropped.isOpen
      refine ⟨_, congrArg some hcall, ⟨slots', hdropped.withDatabase _, ?_⟩, hframe.config,
        fun hnone => (s.database.transaction_deleteRow sq k).trans hnone,
        fun _ hk hstored => hstored.deleteRow sq hok hk⟩
      rw [reference, hlive, hlen]
      show (⟨(s.dropExisting k).dim, _, _⟩ : Reference F) = _
      rw [hframe.dim]
      rfl
  | clear =>
      obtain ⟨slots, hslots, rfl⟩ := h
      have hcall : clear sq s = (s.withDatabase (s.database.deleteAll sq).2).resetIndex := by
        rw [clear, if_pos hslots.isOpen]
      refine ⟨_, congrArg some hcall, ⟨[], resetIndex_holds _ hslots.isOpen, rfl⟩, rfl,
        fun hnone => ?_, fun _ _ _ => Database.Stored.deleteAll sq hok⟩
      exact (s.database.transaction_execute sq fun t => { t with rows := [] }).trans hnone

theorem used_call_le (threshold : Nat) (r : Reference F) (c : Call F) :
    (r.call threshold c).used ≤ r.used + c.inserts := by
  cases c with
  | insert item => exact r.used_insert_le threshold item
  | insertBatch logIds embeddings metadataList =>
      exact r.used_insertAll_le threshold (batchItems logIds embeddings metadataList)
  | remove k => exact le_rfl
  | clear => exact Nat.zero_le _

/-- No earlier state has used more than all calls try to. -/
theorem used_run_le (threshold : Nat) (r : Reference F) {calls earlier : List (Call F)}
    (h : earlier <+: calls) :
    (r.run threshold earlier).used ≤ r.used + inserts calls := by
  induction earlier generalizing r calls with
  | nil => exact Nat.le_add_right _ _
  | cons c earlier ih =>
      obtain ⟨rest, rfl⟩ := h
      have hstep := used_call_le threshold r c
      have hrest := ih (r.call threshold c) (List.prefix_append earlier rest)
      rw [List.cons_append, inserts]
      exact hrest.trans (by omega)

/-- The run lemma. -/
theorem run_refines (hok : ∀ n, sq.ok n = true) (calls : List (Call F)) {r : Reference F}
    (h : Refines s r)
    (hroom : r.used + inserts calls ≤ s.config.maxElements)
    (hused : ∀ earlier, earlier <+: calls →
      (r.run s.config.autoTrimThreshold earlier).used ≤ wordBound32) :
    ∃ t, Transition.run (call sp sq) s calls = some t ∧
      Refines t (r.run s.config.autoTrimThreshold calls) ∧ t.config = s.config ∧
      (s.database.transaction = none → t.database.transaction = none) ∧
      (s.config.persist = true → r.FitsRun s.config.autoTrimThreshold calls →
        s.database.Stored r.items →
          t.database.Stored (r.run s.config.autoTrimThreshold calls).items) := by
  induction calls generalizing s r with
  | nil => exact ⟨s, rfl, h, rfl, id, fun _ _ hstored => hstored⟩
  | cons c calls ih =>
      rw [inserts] at hroom
      have hstep := used_call_le s.config.autoTrimThreshold r c
      obtain ⟨t, hcall, ht, hconfig, htransaction, hstored⟩ :=
        call_refines sp sq hok h c (by omega) (hused [c] (by simp))
      rw [← hconfig] at ht hroom hused hstored hstep ⊢
      obtain ⟨u, hrun, hu, hconfig', htransaction', hstored'⟩ := ih ht (by omega)
        fun earlier hearlier => hused (c :: earlier) (List.cons_prefix_cons.mpr ⟨rfl, hearlier⟩)
      refine ⟨u, Transition.run_cons_eq_some.mpr ⟨t, hcall, hrun⟩, hu, hconfig',
        fun hnone => htransaction' (htransaction hnone), fun hpersist hfits hs => ?_⟩
      exact hstored' hpersist (hfits.2 _ rfl) (hstored hpersist hfits.1 hs)

end VectorStore

end LogMind
