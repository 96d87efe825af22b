import LogMind.Vector.StoreJournal
import LogMind.Vector.HNSWTombstones

/-!
# What a search reports

A hit of the index is the number of a node, and its log id and metadata are read from the
maps. A live node is one that the index has not marked, so the results are live vectors
of the store, and with the journal they are the most recent accepted ones.
-/

namespace LogMind

open Checked

namespace VectorStore

variable {F D R : Type} [LinearOrder D] (sp : Space (List F) D R) (sq : Sqlite F)
variable {s t : VectorStore F} {slots : List (Item F)} {item : Item F} {r : Journal F}

/-- An item as a result of the query. -/
def resultOf (query : List F) (item : Item F) : SearchResult R :=
  ⟨item.logId, item.metadata, sp.sqrt (sp.distanceSq query item.embedding)⟩

/-- What the results of a search ought to be. -/
structure Answers [LE R] (r : Journal F) (query : List F) (topK : Nat)
    (results : List (SearchResult R)) : Prop where
  length_le : results.length ≤ topK
  sorted : results.Pairwise fun a b => a.distance ≤ b.distance
  distinct : (results.map SearchResult.logId).Nodup
  named : ∀ result ∈ results, result.logId ≠ []
  /-- Each result is a live vector, and the most recent one of its log id. -/
  live : ∀ result ∈ results, ∃ item ∈ r.live,
    r.latest result.logId = some item ∧ result = resultOf sp query item

omit [LinearOrder D] in
theorem Answers.nil [LE R] (r : Journal F) (query : List F) (topK : Nat) :
    Answers sp r query topK [] :=
  ⟨Nat.zero_le topK, .nil, .nil, fun _ hresult => absurd hresult List.not_mem_nil,
    fun _ hresult => absurd hresult List.not_mem_nil⟩

omit [LinearOrder D] in
/-- A hit that is not deleted is a live slot with its distance. -/
theorem Indexed.hit {x : HNSWIndex (List F)} (h : Indexed x slots) {query : List F} {id : Nat}
    {distance : R} (hlive : x.deleted[id]? = some false)
    (hdistance : (HNSWIndex.distance sp x query id).map sp.sqrt = some distance) :
    ∃ item, slots[id]? = some item ∧ item.logId ≠ [] ∧
      distance = sp.sqrt (sp.distanceSq query item.embedding) := by
  rw [h.deleted, List.getElem?_map, Option.map_eq_some_iff] at hlive
  obtain ⟨item, hitem, hid⟩ := hlive
  refine ⟨item, hitem, of_decide_eq_false hid, ?_⟩
  rw [HNSWIndex.distance, h.data, List.getElem?_map, hitem] at hdistance
  exact (Option.some.inj hdistance).symm

/-- The node of a hit is looked up in the maps. -/
theorem Holds.searchResult (h : Holds s slots) {hit : R × Nat}
    (hitem : slots[hit.2]? = some item) :
    searchResult s hit = some ⟨item.logId, item.metadata, hit.1⟩ := by
  simp [VectorStore.searchResult, h.idToLog, h.idToMeta, hitem]

/-- Different live nodes have different log ids. -/
theorem Holds.logIds_nodup (h : Holds s slots) {ids : List Nat} (hnodup : ids.Nodup)
    {node : Nat → Item F} (hnode : ∀ id ∈ ids, slots[id]? = some (node id) ∧
      (node id).logId ≠ []) : (ids.map fun id => (node id).logId).Nodup := by
  apply List.Nodup.of_map fun k => s.logToId.lookup k
  have hids : (ids.map fun id => (node id).logId).map (fun k => s.logToId.lookup k) =
      ids.map some := by
    rw [List.map_map]
    apply List.map_congr_left
    intro id hid
    obtain ⟨hget, hne⟩ := hnode id hid
    show s.logToId.lookup (node id).logId = some id
    rw [h.lookup, h.idToLog, List.getElem?_map, hget]
    exact ⟨rfl, hne⟩
  rw [hids]
  exact hnodup.map (Option.some_injective Nat)

omit [LinearOrder D] in
/-- Hits of live nodes, by distance and each of them once, answer the query. -/
theorem Recorded.answers [LE R] (h : Recorded s slots r) {query : List F} {topK : Nat}
    {hits : List (R × Nat)} {node : Nat → Item F} (hlength : hits.length ≤ topK)
    (hsorted : hits.Pairwise fun a b => a.1 ≤ b.1) (hnodup : (hits.map Prod.snd).Nodup)
    (hnode : ∀ hit ∈ hits, slots[hit.2]? = some (node hit.2) ∧ (node hit.2).logId ≠ [] ∧
      hit.1 = sp.sqrt (sp.distanceSq query (node hit.2).embedding)) :
    Answers sp r query topK (hits.map fun hit => resultOf sp query (node hit.2)) := by
  have hlogIds : ((hits.map Prod.snd).map fun id => (node id).logId).Nodup := by
    apply h.holds.logIds_nodup hnodup
    intro id hid
    obtain ⟨hit, hhit, rfl⟩ := List.mem_map.mp hid
    exact ⟨(hnode hit hhit).1, (hnode hit hhit).2.1⟩
  constructor
  · rw [List.length_map]
    exact hlength
  · rw [List.pairwise_map]
    apply hsorted.imp_of_mem
    intro a b ha hb hab
    rw [(hnode a ha).2.2, (hnode b hb).2.2] at hab
    exact hab
  · rw [List.map_map] at hlogIds ⊢
    exact hlogIds
  · intro result hresult
    obtain ⟨hit, hhit, rfl⟩ := List.mem_map.mp hresult
    exact (hnode hit hhit).2.1
  · intro result hresult
    obtain ⟨hit, hhit, rfl⟩ := List.mem_map.mp hresult
    obtain ⟨hget, hne, -⟩ := hnode hit hhit
    have hmem : node hit.2 ∈ r.live := by
      rw [← h.live]
      exact List.mem_filter.mpr ⟨List.mem_of_getElem? hget, decide_eq_true hne⟩
    exact ⟨node hit.2, hmem, h.current _ hmem, rfl⟩

/-- A search of a store that holds what its journal says answers by the journal. -/
theorem search_answers [Preorder R] (hsqrt : Monotone sp.sqrt) (h : Recorded s slots r)
    (query : List F) (topK : Nat) :
    ∃ u results, search sp s query topK = some (u, results) ∧
      Answers sp r query topK results := by
  obtain ⟨-, hnone, -⟩ | ⟨-, x, hx, hindexed⟩ := h.holds.index
  · refine ⟨s, [], ?_, Answers.nil sp r query topK⟩
    rw [search, hnone]
  by_cases hempty : x.size = 0 ∨ query = [] ∨ topK = 0 ∨ query.length ≠ s.dim
  · refine ⟨s, [], ?_, Answers.nil sp r query topK⟩
    rw [search, hx]
    exact if_pos hempty
  obtain ⟨y, hits, hknn, hlength, hsorted, hnodup, hlive⟩ :=
    HNSWIndex.searchKnn_sound sp hsqrt hindexed.wellFormed query topK s.config.hnswEfSearch
  obtain ⟨node, hnode⟩ : ∃ node : Nat → Item F, ∀ hit ∈ hits,
      slots[hit.2]? = some (node hit.2) ∧ (node hit.2).logId ≠ [] ∧
        hit.1 = sp.sqrt (sp.distanceSq query (node hit.2).embedding) := by
    refine ⟨fun id => slots.getD id ⟨[], [], []⟩, fun hit hhit => ?_⟩
    obtain ⟨item, hget, hitem⟩ := hindexed.hit sp (hlive hit hhit).1 (hlive hit hhit).2
    dsimp only
    rw [List.getD_eq_getElem?_getD, hget]
    exact ⟨rfl, hitem⟩
  have hread : hits.mapM (searchResult s) =
      some (hits.map fun hit => resultOf sp query (node hit.2)) := by
    apply mapM_eq_map
    intro hit hhit
    obtain ⟨hget, -, hdistance⟩ := hnode hit hhit
    rw [h.holds.searchResult hget, hdistance]
    rfl
  refine ⟨{ s with index := some y }, _, ?_, h.answers sp hlength hsorted hnodup hnode⟩
  rw [search, hx]
  dsimp only
  rw [if_neg hempty, hknn, Option.bind_eq_bind, Option.bind_some, hread]
  rfl

/-- In every run in which the rows can be written and the ids do not wrap, a search of the
open store answers by the journal, for every query. -/
theorem run_search_answers [Preorder R] (hsqrt : Monotone sp.sqrt) {actions : List (Action F)}
    (hclosed : s.isOpen = false) (hrange : RunsInRange sp sq s actions)
    (hwrites : Transition.Meets (step sp sq) (Writes sp sq) s actions)
    (hrun : Transition.run (step sp sq) s actions = some t) (hopen : t.isOpen = true)
    (query : List F) (topK : Nat) :
    ∃ u results, search sp t query topK = some (u, results) ∧
      Answers sp (journal sp sq s {} actions) query topK results := by
  have hstart : s.Known ({} : Journal F) := Known.of_closed hclosed
  obtain ⟨slots, hrecorded⟩ := run_known sp sq hstart hrange hwrites hrun hopen
  exact search_answers sp hsqrt hrecorded query topK

theorem writes_of_ok (hok : ∀ n, sq.ok n = true) (s : VectorStore F) (a : Action F) :
    Writes sp sq s a := by
  intro _ c _ hfails
  exact Bool.false_ne_true (hfails.2.2.symm.trans (hok _))

def twoVersions : List (Action Int) :=
  [.open_, .call (.insert ⟨[97], [1], [49]⟩), .call (.insert ⟨[97], [2], [50]⟩)]

theorem run_search_answers_two : ∃ t u results,
    Transition.run (step gridSpace alwaysOk) smallStore twoVersions = some t ∧
      search gridSpace t [5] 3 = some (u, results) ∧
      Answers gridSpace (journal gridSpace alwaysOk smallStore {} twoVersions) [5] 3 results := by
  obtain ⟨t, hrun, hopen⟩ : ∃ t,
      Transition.run (step gridSpace alwaysOk) smallStore twoVersions = some t ∧
        t.isOpen = true := ⟨_, rfl, rfl⟩
  have hrange : RunsInRange gridSpace alwaysOk smallStore twoVersions := by
    decide
  obtain ⟨u, results, hsearch, hanswers⟩ :=
    run_search_answers gridSpace alwaysOk monotone_id rfl hrange
      (Transition.meets_of_forall (writes_of_ok gridSpace alwaysOk fun _ => rfl) _ _) hrun hopen
      [5] 3
  exact ⟨t, u, results, hrun, hsearch, hanswers⟩

/-- The vector of an insert that was refused is reported, with its metadata. -/
theorem search_reports_refused : ∃ t u results,
    Transition.run (step gridSpace (failsAt 7)) smallStore twoVersions = some t ∧
      t.isOpen = true ∧ search gridSpace t [5] 3 = some (u, results) ∧
      (journal gridSpace (failsAt 7) smallStore {} twoVersions).accepted =
        [⟨[97], [1], [49]⟩] ∧
      results = [⟨[97], [50], 9⟩] ∧
      ¬ Answers gridSpace (journal gridSpace (failsAt 7) smallStore {} twoVersions) [5] 3
        results := by
  obtain ⟨t, u, hrun, hopen, hsearch⟩ : ∃ t u,
      Transition.run (step gridSpace (failsAt 7)) smallStore twoVersions = some t ∧
        t.isOpen = true ∧ search gridSpace t [5] 3 = some (u, [⟨[97], [50], 9⟩]) :=
    ⟨_, _, rfl, rfl, rfl⟩
  refine ⟨t, u, _, hrun, hopen, hsearch, rfl, rfl, fun hanswers => ?_⟩
  obtain ⟨item, hlive, -, hresult⟩ := hanswers.live _ (List.mem_singleton_self _)
  obtain rfl : item = ⟨[97], [1], [49]⟩ := List.mem_singleton.mp hlive
  exact absurd (congrArg SearchResult.metadata hresult) (by decide)

end VectorStore

end LogMind
