import LogMind.Vector.StoreLifecycle

/-!
# The capacity counts slots

`max_elements` bounds the slots of the index, and only `clear` and a load give slots
back: what a trim, a removal or an overwrite leaves behind is a tombstone, which keeps
its slot. So every accepted insert since the last clearing counts, whether its item is
still there or not.
-/

namespace LogMind

open KeyedQueue

namespace VectorStore

variable {F D R : Type} [LinearOrder D] (sp : Space (List F) D R) (sq : Sqlite F)
variable {s t : VectorStore F} {slots : List (Item F)} {item : Item F} {ok : Bool}

/-- Where nothing fails, an insert is accepted just when it gets to the index, and takes
one slot then. -/
theorem insertLocked_slots (hok : ∀ n, sq.ok n = true) (h : Holds s slots) {writeDb : Bool}
    (hinsert : insertLocked sp sq s item writeDb = some (ok, t)) (hrange : t.InRange) :
    ok = decide (s.Tries item) ∧
      t.idToLog.length = s.idToLog.length + if ok then 1 else 0 := by
  by_cases htries : s.Tries item
  · have hgrown := (insertLocked_grows sp sq hinsert).2 htries
    obtain ⟨haccepts, hroom⟩ := (tries_iff h item).mp htries
    rw [h.length_idToLog] at hgrown ⊢
    obtain ⟨u, slots', heq, hu, -, href, -⟩ := insertLocked_accepted sp sq hok h haccepts writeDb
      hroom (hgrown.trans hrange)
    rw [heq] at hinsert
    obtain ⟨rfl, rfl⟩ := Prod.mk.inj (Option.some.inj hinsert)
    have hused : slots'.length = slots.length + 1 := by
      have hfield := congrArg Reference.used href
      rw [Reference.insert, if_pos haccepts] at hfield
      exact hfield
    rw [hu.length_idToLog, hused, if_pos rfl]
    exact ⟨(decide_eq_true htries).symm, rfl⟩
  · obtain ⟨u, heq, hu, -⟩ := insertLocked_untried sp sq h htries writeDb
    rw [heq] at hinsert
    obtain ⟨rfl, rfl⟩ := Prod.mk.inj (Option.some.inj hinsert)
    rw [hu.length_idToLog, h.length_idToLog, if_neg Bool.false_ne_true]
    exact ⟨(decide_eq_false htries).symm, rfl⟩

/-- A batch takes one slot for every item it counts. -/
theorem insertAll_slots (hok : ∀ n, sq.ok n = true) (items : List (Item F)) (count : Nat)
    {count' : Nat} (h : Holds s slots)
    (hinsert : insertAll sp sq items count s = some (count', t)) (hrange : t.InRange) :
    t.idToLog.length + count = s.idToLog.length + count' := by
  induction items generalizing s slots count with
  | nil =>
      obtain ⟨rfl, rfl⟩ := Prod.mk.inj (Option.some.inj hinsert)
      rfl
  | cons item items ih =>
      rw [insertAll, Option.bind_eq_bind, Option.bind_eq_some_iff] at hinsert
      obtain ⟨⟨ok, u⟩, hfirst, hrest⟩ := hinsert
      have hrangeU : u.InRange := hrange.of_grows (insertAll_grows sp sq items _ hrest)
      obtain ⟨slots', hu⟩ := insertLocked_holds sp sq h hfirst hrangeU
      have hone := (insertLocked_slots sp sq hok h hfirst hrangeU).2
      have hmore := ih _ hu hrest
      cases ok <;> simp at hone hmore <;> omega

/-- The slots in use after a call, from those before it and what the call answers. -/
def slotsAfter (s : VectorStore F) (used : Nat) : Call F → Nat
  | .insert item =>
      if ((insert sp sq s item).map Prod.fst).getD false then used + 1 else used
  | .insertBatch logIds embeddings metadataList =>
      used + ((insertBatch sp sq s logIds embeddings metadataList).map Prod.fst).getD 0
  | .remove _ => used
  | .clear => 0

/-- The slots in use after some calls. -/
def slotsUsed : VectorStore F → Nat → List (Call F) → Nat
  | _, used, [] => used
  | s, used, c :: calls =>
      match call sp sq s c with
      | none => used
      | some t => slotsUsed t (slotsAfter sp sq s used c) calls

/-- The step lemma of a call. -/
theorem call_slots (hok : ∀ n, sq.ok n = true) (h : Holds s slots) {c : Call F}
    (hcall : call sp sq s c = some t) (hrange : t.InRange) :
    t.idToLog.length = slotsAfter sp sq s s.idToLog.length c := by
  cases c with
  | insert item =>
      obtain ⟨⟨ok, u⟩, hinsert, rfl⟩ := Option.map_eq_some_iff.mp hcall
      have hslots := (insertLocked_slots sp sq hok h hinsert hrange).2
      rw [slotsAfter, hinsert]
      cases ok <;> simpa using hslots
  | insertBatch logIds embeddings metadataList =>
      obtain ⟨⟨count, u⟩, hinsert, rfl⟩ := Option.map_eq_some_iff.mp hcall
      rw [slotsAfter, hinsert]
      obtain ⟨-, rfl, rfl⟩ | ⟨-, d, e, w, -, hall, rfl⟩ := insertBatch_cases sp sq hinsert
      · rfl
      · have hslots := insertAll_slots sp sq hok _ 0 (h.withDatabase d) hall hrange
        exact hslots
  | remove k =>
      obtain rfl : (remove sq s k).2 = t := Option.some.inj hcall
      obtain ⟨slots', hdropped, -, hlen, -⟩ := dropExisting_spec h k
      show (deleteRow sq (s.dropExisting k) k).2.idToLog.length = s.idToLog.length
      rw [deleteRow_eq sq hdropped.isOpen, h.length_idToLog, ← hlen]
      exact hdropped.length_idToLog
  | clear =>
      obtain rfl : clear sq s = t := Option.some.inj hcall
      rfl

/-- A sequence of calls in which the ids of the nodes do not wrap. -/
def CallsInRange (s : VectorStore F) (calls : List (Call F)) : Prop :=
  Transition.Meets (call sp sq) (fun s c => ∀ t ∈ call sp sq s c, t.InRange) s calls

instance (s : VectorStore F) (calls : List (Call F)) : Decidable (CallsInRange sp sq s calls) :=
  inferInstanceAs (Decidable (Transition.Meets _ _ _ _))

/-- The run lemma. -/
theorem run_slots (hok : ∀ n, sq.ok n = true) (calls : List (Call F)) (h : Holds s slots)
    (hrange : CallsInRange sp sq s calls) (hrun : Transition.run (call sp sq) s calls = some t) :
    (∃ slots', Holds t slots') ∧
      t.idToLog.length = slotsUsed sp sq s s.idToLog.length calls := by
  induction calls generalizing s slots with
  | nil => exact Option.some.inj hrun ▸ ⟨⟨slots, h⟩, rfl⟩
  | cons c calls ih =>
      obtain ⟨u, hu, hrest⟩ := Transition.run_cons_eq_some.mp hrun
      have hrangeU : u.InRange := hrange.1 u hu
      obtain ⟨slots', hheld⟩ := call_holds sp sq h hu hrangeU
      rw [slotsUsed, hu]
      dsimp only
      rw [← call_slots sp sq hok h hu hrangeU]
      exact ih hheld (hrange.2 u hu) hrest

/-- In every state that calls on an opened store reach, an insert of a log id and a vector of
the dimension of the store is accepted just when the rows that were loaded and the inserts
that were accepted since the last clearing are fewer than `max_elements`, whatever has
become of their items. -/
theorem run_accepts_iff_slots (hok : ∀ n, sq.ok n = true) (hclosed : s.isOpen = false)
    {opened : VectorStore F} (hopen : open_ sp sq s = some (true, opened))
    (hopened : opened.InRange) (calls : List (Call F)) (hrange : CallsInRange sp sq opened calls)
    (hrun : Transition.run (call sp sq) opened calls = some t)
    (hlt : slotsUsed sp sq opened opened.idToLog.length calls < wordBound32) (item : Item F)
    (hid : item.logId ≠ []) (hembedding : item.embedding ≠ [])
    (hdim : t.dim = 0 ∨ item.embedding.length = t.dim) :
    ∃ u, insert sp sq t item = some
      (decide (slotsUsed sp sq opened opened.idToLog.length calls < t.config.maxElements), u) := by
  have hisOpen : opened.isOpen = true := by
    rw [open_eq sp sq hok hclosed] at hopen
    obtain ⟨u, hload, hpair⟩ := Option.map_eq_some_iff.mp hopen
    obtain ⟨-, rfl⟩ := Prod.mk.inj hpair
    exact (loadRows_grows sp sq _ hload).isOpen
  obtain ⟨slots, hslots⟩ := open_sane sp sq (Sane.of_closed hclosed) hopen hopened hisOpen
  obtain ⟨⟨slots', ht⟩, hused⟩ := run_slots sp sq hok calls hslots hrange hrun
  rw [← hused, ht.length_idToLog] at hlt ⊢
  have haccepts : (reference t slots').Accepts item := ⟨hid, hembedding, hdim⟩
  by_cases hroom : slots'.length < t.config.maxElements
  · obtain ⟨u, _, hinsert, -⟩ := insertLocked_accepted sp sq hok ht haccepts true hroom hlt
    rw [decide_eq_true hroom]
    exact ⟨u, hinsert⟩
  · have hnot : ¬ t.Tries item := fun htries => hroom ((tries_iff ht item).mp htries).2
    obtain ⟨u, hinsert, -⟩ := insertLocked_untried sp sq ht hnot true
    rw [decide_eq_false hroom]
    exact ⟨u, hinsert⟩

/-- A store with two slots that keeps one item. -/
def tightStore : VectorStore Int := { config := { maxElements := 2, autoTrimThreshold := 1 } }

def twoInserts : List (Call Int) := [.insert ⟨[97], [1], []⟩, .insert ⟨[98], [2], []⟩]

theorem run_accepts_iff_slots_two : ∃ t u,
    Transition.run (call gridSpace alwaysOk) tightStore.opening twoInserts = some t ∧
      insert gridSpace alwaysOk t ⟨[99], [3], []⟩ = some
        (decide (slotsUsed gridSpace alwaysOk tightStore.opening 0 twoInserts <
          t.config.maxElements), u) := by
  obtain ⟨t, hrun, hdim⟩ : ∃ t,
      Transition.run (call gridSpace alwaysOk) tightStore.opening twoInserts = some t ∧
        t.dim = 1 := ⟨_, rfl, rfl⟩
  have hrange : CallsInRange gridSpace alwaysOk tightStore.opening twoInserts := by
    decide
  have hused : slotsUsed gridSpace alwaysOk tightStore.opening 0 twoInserts = 2 := rfl
  obtain ⟨u, hinsert⟩ := run_accepts_iff_slots gridSpace alwaysOk (fun _ => rfl)
    (rfl : tightStore.isOpen = false) rfl (Nat.zero_le _) twoInserts hrange hrun
    (hused ▸ (by decide : 2 < wordBound32)) ⟨[99], [3], []⟩ (by decide) (by decide)
    (.inr hdim.symm)
  exact ⟨t, u, hrun, hinsert⟩

/-- After two inserts the store holds one item of at most two and takes no other, not even
one under the log id that it holds. -/
theorem trimmed_store_is_full : ∃ t u v,
    Transition.run (step gridSpace alwaysOk) tightStore
        (.open_ :: twoInserts.map Action.call) = some t ∧
      t.isOpen = true ∧ t.size = 1 ∧ t.config.maxElements = 2 ∧ t.dim = 1 ∧
      t.contents = [⟨[98], [2], []⟩] ∧
      insert gridSpace alwaysOk t ⟨[99], [3], []⟩ = some (false, u) ∧
      insert gridSpace alwaysOk t ⟨[98], [3], []⟩ = some (false, v) :=
  ⟨_, _, _, rfl, rfl, rfl, rfl, rfl, rfl, rfl, rfl⟩

end VectorStore

end LogMind
