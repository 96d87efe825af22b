import LogMind.Vector.HNSWSearch
import Mathlib.Data.Finset.Range
import Mathlib.Data.Finset.Filter

/-!
# The search with a visited set

What the visited marks stand for: the same search of a layer with a set of nodes that is empty
at its start. The set is that of the nodes with the current stamp. So the search with marks is
this one turn by turn, in any graph, if no mark has the stamp to begin with.
-/

namespace LogMind

open Checked Loop

namespace HNSWIndex

variable {V D R : Type}

/-- The visited set and the two queues. -/
structure SetSearch (D : Type) where
  seen : Finset Nat
  toVisit : List (Cand D)
  found : List (Cand D)

section Definitions

variable [LinearOrder D]

/-- One neighbour, which is passed over when it has been seen. -/
def visitUnseen (sp : Space V D R) (x : HNSWIndex V) (q : V) (ef skip : Nat)
    (s : SetSearch D) (nb : Nat) : Option (SetSearch D) :=
  if nb = skip ∨ nb ∈ s.seen then some s
  else do
    let d ← distance sp x q nb
    if ← accepts ef s.found d then
      return {
        seen := insert nb s.seen
        toVisit := s.toVisit.orderedInsert (· ≤ ·) (toLex (d, nb))
        found := keepNearest ef s.found (toLex (d, nb)) }
    return { s with seen := insert nb s.seen }

def setTurn (sp : Space V D R) (x : HNSWIndex V) (q : V) (ef layer skip : Nat)
    (s : SetSearch D) : Option (SetSearch D ⊕ SetSearch D) :=
  match s.toVisit with
  | [] => some (.inr s)
  | cur :: rest => do
      let far ← s.found.head?
      if (ofLex far).1 < (ofLex cur).1 then return .inr s
      let nbs ← x.neighbors (ofLex cur).2 layer
      let s ← nbs.foldlM (visitUnseen sp x q ef skip) { s with toVisit := rest }
      return .inl s

/-- The candidates of a search that has seen its start and no other node. -/
def freshSearchLayer (sp : Space V D R) (x : HNSWIndex V) (q : V) (ep ef layer skip : Nat) :
    Option (List (Cand D)) := do
  let d0 ← distance sp x q ep
  let s ← loop (setTurn sp x q ef layer skip) (x.data.length + 1)
    ⟨{ep}, [toLex (d0, ep)], [toLex (d0, ep)]⟩
  return s.found.reverse

end Definitions

/-! ## The nodes with the stamp -/

/-- The search that the marks with the stamp stand for. -/
def Search.forget (stamp : Nat) (s : Search D) : SetSearch D where
  seen := (Finset.range s.visited.length).filter fun id => s.visited[id]? = some stamp
  toVisit := s.toVisit
  found := s.found

theorem Search.mem_seen {stamp : Nat} {s : Search D} {id : Nat} :
    id ∈ (s.forget stamp).seen ↔ s.visited[id]? = some stamp := by
  rw [Search.forget, Finset.mem_filter, Finset.mem_range]
  constructor
  · exact fun h => h.2
  · intro h
    exact ⟨(List.getElem?_eq_some_iff.mp h).1, h⟩

/-- Stamping a node adds it to the set. -/
theorem Search.seen_set {stamp : Nat} {s t : Search D} {nb : Nat} (hnb : nb < s.visited.length)
    (ht : t.visited = s.visited.set nb stamp) :
    (t.forget stamp).seen = insert nb (s.forget stamp).seen := by
  ext id
  rw [Search.mem_seen, Finset.mem_insert, Search.mem_seen, ht, List.getElem?_set]
  by_cases hid : nb = id
  · simp [hid.symm, hnb]
  · simp [hid, Ne.symm hid]

/-- The start of a search, where no mark has the stamp. -/
theorem forget_startSearch {x : HNSWIndex V} (hfresh : ∀ m ∈ x.visited, m ≠ x.visitCounter)
    {ep : Nat} (hep : ep < x.visited.length) (d0 : D) :
    (startSearch x d0 ep).forget x.visitCounter =
      ⟨{ep}, [toLex (d0, ep)], [toLex (d0, ep)]⟩ := by
  have hseen : ((startSearch x d0 ep).forget x.visitCounter).seen = {ep} := by
    ext id
    rw [Search.mem_seen, Finset.mem_singleton, startSearch, List.getElem?_set]
    by_cases hid : ep = id
    · simp [hid.symm, hep]
    · simp only [hid, if_false, Ne.symm hid, iff_false]
      intro hmark
      exact hfresh _ (List.mem_of_getElem? hmark) rfl
  rw [Search.forget, SetSearch.mk.injEq]
  exact ⟨hseen, rfl, rfl⟩

/-! ## The search turn by turn -/

section Simulation

variable [LinearOrder D] (sp : Space V D R) {x : HNSWIndex V} {q : V} {ef layer skip stamp : Nat}

/-- There is a mark for each vector, and none is newer than the stamp. -/
structure Search.Marked (x : HNSWIndex V) (stamp : Nat) (s : Search D) : Prop where
  length_eq : s.visited.length = x.data.length
  marks : ∀ m ∈ s.visited, m ≤ stamp

/-- A neighbour leaves as many marks as there were. -/
theorem visitNeighbor_marked {s t : Search D} {nb : Nat} (hs : s.Marked x stamp)
    (h : visitNeighbor sp x q ef skip stamp s nb = some t) : t.Marked x stamp := by
  rw [visitNeighbor] at h
  split at h
  · exact Option.some.inj h ▸ hs
  obtain ⟨mark, -, h⟩ := Option.bind_eq_some_iff.mp h
  split at h
  · exact Option.some.inj h ▸ hs
  obtain ⟨visited, hset, h⟩ := Option.bind_eq_some_iff.mp h
  obtain ⟨d, -, h⟩ := Option.bind_eq_some_iff.mp h
  obtain ⟨b, -, h⟩ := Option.bind_eq_some_iff.mp h
  obtain rfl := setAt_eq_some hset
  have hlength : (s.visited.set nb stamp).length = x.data.length :=
    List.length_set.trans hs.length_eq
  split at h <;>
    · obtain rfl := Option.some.inj h
      exact ⟨hlength, le_of_mem_set hs.marks⟩

/-- A neighbour without the stamp is stamped, as an unseen one is added to the set. -/
theorem visitNeighbor_forget_unseen {s : Search D} {nb mark : Nat} (hskip : nb ≠ skip)
    (hmark : s.visited[nb]? = some mark) (hne : mark ≠ stamp) :
    (visitNeighbor sp x q ef skip stamp s nb).map (Search.forget stamp) =
      visitUnseen sp x q ef skip (s.forget stamp) nb := by
  have hlt : nb < s.visited.length := (List.getElem?_eq_some_iff.mp hmark).1
  have hunseen : ¬ (nb = skip ∨ nb ∈ (s.forget stamp).seen) := by
    rintro (h | h)
    · exact hskip h
    · rw [Search.mem_seen, hmark] at h
      exact hne (Option.some.inj h)
  rw [visitNeighbor, visitUnseen, if_neg hskip, if_neg hunseen, hmark]
  simp only [Option.bind_eq_bind, Option.bind_some, if_neg hne, setAt_of_lt hlt]
  cases distance sp x q nb with
  | none => rfl
  | some d =>
      simp only [Option.bind_some]
      cases haccepts : accepts ef s.found d with
      | none =>
          have hsame : accepts ef (s.forget stamp).found d = none := haccepts
          rw [hsame]
          rfl
      | some b =>
          have hsame : accepts ef (s.forget stamp).found d = some b := haccepts
          rw [hsame]
          cases b with
          | true =>
              refine congrArg some ?_
              rw [Search.forget, SetSearch.mk.injEq]
              exact ⟨Search.seen_set hlt rfl, rfl, rfl⟩
          | false =>
              refine congrArg some ?_
              rw [Search.forget, SetSearch.mk.injEq]
              exact ⟨Search.seen_set hlt rfl, rfl, rfl⟩

theorem visitNeighbor_forget {s : Search D} (nb : Nat) (hs : s.Marked x stamp) :
    (visitNeighbor sp x q ef skip stamp s nb).map (Search.forget stamp) =
      visitUnseen sp x q ef skip (s.forget stamp) nb := by
  by_cases hskip : nb = skip
  · rw [visitNeighbor, visitUnseen, if_pos hskip, if_pos (Or.inl hskip)]
    rfl
  cases hmark : s.visited[nb]? with
  | some mark =>
      by_cases hstamp : mark = stamp
      · rw [visitNeighbor, visitUnseen, if_neg hskip, hmark,
          if_pos (Or.inr (Search.mem_seen.mpr (hstamp ▸ hmark))), Option.bind_eq_bind,
          Option.bind_some, if_pos hstamp]
        rfl
      · exact visitNeighbor_forget_unseen sp hskip hmark hstamp
  | none =>
      -- behind the last mark there is no vector either
      have hdist : distance sp x q nb = none := by
        rw [distance, List.getElem?_eq_none (hs.length_eq ▸ List.getElem?_eq_none_iff.mp hmark)]
        rfl
      have hunseen : ¬ (nb = skip ∨ nb ∈ (s.forget stamp).seen) := by
        rintro (h | h)
        · exact hskip h
        · rw [Search.mem_seen, hmark] at h
          cases h
      rw [visitNeighbor, visitUnseen, if_neg hskip, hmark, hdist, if_neg hunseen]
      rfl

/-- The turn that goes on with the next candidate keeps the marks, the last one all of the
state. -/
theorem searchTurn_marked {s t : Search D} (hs : s.Marked x stamp)
    (h : searchTurn sp x q ef layer skip stamp s = some (.inl t)) : t.Marked x stamp := by
  rw [searchTurn] at h
  split at h
  · cases Option.some.inj h
  · rename_i cur rest hvisit
    obtain ⟨far, -, h⟩ := Option.bind_eq_some_iff.mp h
    split at h
    · cases Option.some.inj h
    obtain ⟨nbs, -, h⟩ := Option.bind_eq_some_iff.mp h
    obtain ⟨u, hfold, h⟩ := Option.bind_eq_some_iff.mp h
    obtain rfl := Sum.inl.inj (Option.some.inj h)
    exact foldlM_keeps (fun s nb t hs h => visitNeighbor_marked sp hs h)
      (show Search.Marked x stamp { s with toVisit := rest } from ⟨hs.length_eq, hs.marks⟩) hfold

theorem searchTurn_stops {s t : Search D}
    (h : searchTurn sp x q ef layer skip stamp s = some (.inr t)) : t = s := by
  rw [searchTurn] at h
  split at h
  · exact (Sum.inr.inj (Option.some.inj h)).symm
  · obtain ⟨far, -, h⟩ := Option.bind_eq_some_iff.mp h
    split at h
    · exact (Sum.inr.inj (Option.some.inj h)).symm
    obtain ⟨nbs, -, h⟩ := Option.bind_eq_some_iff.mp h
    obtain ⟨u, -, h⟩ := Option.bind_eq_some_iff.mp h
    cases Option.some.inj h

theorem searchTurn_forget {s : Search D} (hs : s.Marked x stamp) :
    (searchTurn sp x q ef layer skip stamp s).map (Sum.map (Search.forget stamp)
        (Search.forget stamp)) = setTurn sp x q ef layer skip (s.forget stamp) := by
  obtain ⟨visited, toVisit, found⟩ := s
  cases toVisit with
  | nil => rfl
  | cons cur rest =>
      cases found with
      | nil => rfl
      | cons far found =>
          have hfold (nbs : List Nat) :
              (nbs.foldlM (visitNeighbor sp x q ef skip stamp) ⟨visited, rest, far :: found⟩).map
                  (Search.forget stamp) =
                nbs.foldlM (visitUnseen sp x q ef skip)
                  (Search.forget stamp ⟨visited, rest, far :: found⟩) :=
            foldlM_simulates (fun s nb hs => visitNeighbor_forget sp nb hs)
              (fun s nb t hs h => visitNeighbor_marked sp hs h) nbs
              (show Search.Marked x stamp ⟨visited, rest, far :: found⟩ from
                ⟨hs.length_eq, hs.marks⟩)
          simp only [searchTurn, setTurn, Search.forget, List.head?_cons, Option.bind_eq_bind,
            Option.bind_some] at hfold ⊢
          split
          · rfl
          cases x.neighbors (ofLex cur).2 layer with
          | none => rfl
          | some nbs =>
              simp only [Option.bind_some]
              rw [← hfold nbs]
              cases nbs.foldlM (visitNeighbor sp x q ef skip stamp) _ <;> rfl

end Simulation

/-! ## Stamps and marks -/

/-- There is a mark for each vector, and none is newer than the last stamp. -/
structure Stamped (x : HNSWIndex V) : Prop where
  data_length : x.data.length = x.levels.length
  visited_length : x.visited.length = x.levels.length
  marks : ∀ m ∈ x.visited, m ≤ x.visitCounter
  counter_lt : x.visitCounter < wordBound32

theorem Stamped.marks_length {x : HNSWIndex V} (h : x.Stamped) :
    x.visited.length = x.data.length :=
  h.visited_length.trans h.data_length.symm

/-- No mark has the new stamp, also when the counter wraps and the marks are cleared. -/
theorem Stamped.fresh {x : HNSWIndex V} (h : x.Stamped) :
    ∀ m ∈ x.nextVisitStamp.visited, m ≠ x.nextVisitStamp.visitCounter := by
  obtain ⟨visited, counter, hx, -, hmarks, -⟩ := nextVisitStamp_eq h.marks h.counter_lt
  rw [hx]
  intro m hm
  exact Nat.ne_of_lt (hmarks m hm)

section Searches

variable (sp : Space V D R) {x : HNSWIndex V} {q : V} {ef layer skip ep : Nat}

theorem Stamped.startSearch_marked (h : x.Stamped) (d0 : D) :
    (startSearch x.nextVisitStamp d0 ep).Marked x x.nextVisitStamp.visitCounter := by
  obtain ⟨visited, counter, hx, hlength, hmarks, -⟩ := nextVisitStamp_eq h.marks h.counter_lt
  rw [hx]
  refine ⟨?_, le_of_mem_set fun m hm => (hmarks m hm).le⟩
  exact (List.length_set.trans hlength).trans h.marks_length

/-- A node with a vector has a mark. -/
theorem Stamped.lt_of_distance (h : x.Stamped) {d0 : D} (hd0 : distance sp x q ep = some d0) :
    ep < x.visited.length := by
  obtain ⟨b, hb, -⟩ := Option.map_eq_some_iff.mp hd0
  exact h.marks_length ▸ (List.getElem?_eq_some_iff.mp hb).1

variable [LinearOrder D]

/-- Searches read neither the marks of the index nor its counter. -/
theorem searchTurn_nextVisitStamp (h : x.Stamped) (stamp : Nat) :
    searchTurn sp x.nextVisitStamp q ef layer skip stamp =
      searchTurn sp x q ef layer skip stamp := by
  obtain ⟨visited, counter, hx, -⟩ := nextVisitStamp_eq h.marks h.counter_lt
  rw [hx]
  rfl

/-- A search of a layer leaves marks that are not newer than its stamp, and nothing else. -/
theorem Stamped.searchLayer_stamped (h : x.Stamped) {y : HNSWIndex V} {candidates : List (Cand D)}
    (hsearch : searchLayer sp x q ep ef layer skip = some (y, candidates)) :
    y.Stamped ∧ ∃ visited counter, y = x.withMarks visited counter := by
  cases hd0 : distance sp x q ep with
  | none =>
      obtain ⟨visited, counter, hx, -⟩ := nextVisitStamp_eq h.marks h.counter_lt
      have hd0' : distance sp (x.withMarks visited counter) q ep = none := hd0
      rw [searchLayer, hx] at hsearch
      simp only [hd0', Option.bind_eq_bind, Option.bind_none, reduceCtorEq] at hsearch
  | some d0 =>
      rw [searchLayer_eq sp ef h.marks h.counter_lt hd0 (h.lt_of_distance sp hd0),
        searchTurn_nextVisitStamp sp h] at hsearch
      obtain ⟨s, hloop, hy⟩ := Option.map_eq_some_iff.mp hsearch
      have hs : s.Marked x x.nextVisitStamp.visitCounter :=
        loop_keeps (fun s t hs hturn => searchTurn_marked sp hs hturn)
          (fun s t hs hturn => searchTurn_stops sp hturn ▸ hs) (h.startSearch_marked d0) hloop
      obtain ⟨visited, counter, hx, -, -, hbelow⟩ := nextVisitStamp_eq h.marks h.counter_lt
      rw [hx] at hy hs
      obtain ⟨rfl, -⟩ := Prod.mk.inj hy
      exact ⟨⟨h.data_length, hs.length_eq.trans h.data_length, hs.marks, hbelow⟩, _, _, rfl⟩

/-- A search of a layer finds what it would find with an empty set. -/
theorem Stamped.searchLayer_eq_fresh (h : x.Stamped) :
    (searchLayer sp x q ep ef layer skip).map Prod.snd =
      freshSearchLayer sp x q ep ef layer skip := by
  cases hd0 : distance sp x q ep with
  | none =>
      obtain ⟨visited, counter, hx, -⟩ := nextVisitStamp_eq h.marks h.counter_lt
      have hd0' : distance sp (x.withMarks visited counter) q ep = none := hd0
      rw [searchLayer, freshSearchLayer, hx, hd0]
      simp only [hd0', Option.bind_eq_bind, Option.bind_none, Option.map_none]
  | some d0 =>
      have hep := h.lt_of_distance sp hd0
      have hloop : (loop (searchTurn sp x q ef layer skip x.nextVisitStamp.visitCounter)
            (x.data.length + 1) (startSearch x.nextVisitStamp d0 ep)).map
              (Search.forget x.nextVisitStamp.visitCounter) =
          loop (setTurn sp x q ef layer skip) (x.data.length + 1)
            ((startSearch x.nextVisitStamp d0 ep).forget x.nextVisitStamp.visitCounter) :=
        loop_simulates (fun s hs => searchTurn_forget sp hs)
          (fun s t hs hturn => searchTurn_marked sp hs hturn) _ (h.startSearch_marked d0)
      have hep' : ep < x.nextVisitStamp.visited.length := by
        obtain ⟨visited, counter, hx, hlength, -⟩ := nextVisitStamp_eq h.marks h.counter_lt
        rw [hx, withMarks_visited, hlength]
        exact hep
      rw [forget_startSearch h.fresh hep'] at hloop
      rw [searchLayer_eq sp ef h.marks h.counter_lt hd0 hep, freshSearchLayer, hd0,
        searchTurn_nextVisitStamp sp h]
      simp only [Option.bind_eq_bind, Option.bind_some]
      rw [← hloop]
      cases loop (searchTurn sp x q ef layer skip _) _ _ <;> rfl

end Searches

end HNSWIndex

end LogMind
