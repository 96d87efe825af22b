import LogMind.Vector.HNSWPool
import Mathlib.Data.Set.Card

/-!
# How much the search of a layer finds

While the queue has room, nothing that is seen is dropped and nothing is left unvisited. So
a search that ends with room has seen all that can be reached, and any other search ends
with a full queue.
-/

namespace LogMind

namespace HNSWIndex

variable {V D R : Type}

/-- The nodes that the links of a layer reach without the skipped one. -/
def reachable (x : HNSWIndex V) (layer skip ep : Nat) : Set Nat :=
  {id | Relation.ReflTransGen (x.Hop layer skip) ep id}

variable {x : HNSWIndex V} {n layer skip ep ef stamp : Nat}

theorem LayerGraph.mem_of_reachable (h : x.LayerGraph n layer) (hlt : ep < n) {nbs : List Nat}
    (hnbs : x.neighbors ep layer = some nbs) {id : Nat} (hid : id ∈ x.reachable layer skip ep) :
    id < n ∧ ∃ nbs', x.neighbors id layer = some nbs' := by
  rcases Relation.ReflTransGen.cases_tail hid with rfl | ⟨a, -, list, hlist, hmem, -⟩
  · exact ⟨hlt, nbs, hnbs⟩
  · exact h.closed a list hlist id hmem

/-- A walk from the start stays in what can be reached. -/
theorem LayerGraph.walkable (h : x.LayerGraph n layer) (hlt : ep < n) {nbs : List Nat}
    (hnbs : x.neighbors ep layer = some nbs) :
    Walkable x n layer (fun nb => nb = skip) (· ∈ x.reachable layer skip ep) := by
  intro id hid
  obtain ⟨hid_lt, list, hlist⟩ := h.mem_of_reachable hlt hnbs hid
  refine ⟨hid_lt, list, hlist, ?_⟩
  intro nb hnb hskip
  exact Relation.ReflTransGen.tail hid ⟨list, hlist, hnb, hskip⟩

theorem LayerGraph.reachable_finite (h : x.LayerGraph n layer) (hlt : ep < n) {nbs : List Nat}
    (hnbs : x.neighbors ep layer = some nbs) : (x.reachable layer skip ep).Finite :=
  (Set.finite_lt_nat n).subset fun _ hid => (h.mem_of_reachable hlt hnbs hid).1

section Search

variable [LinearOrder D] {sp : Space V D R} {q : V} {s : Search D} {P : Nat → Prop}

/-- Without a full queue nothing is dropped. -/
theorem not_dropped_of_lt (hroom : s.found.length < ef) (id : Nat) (d : D) :
    ¬ Dropped ef s id d :=
  fun h => absurd h.2.1 (Nat.ne_of_lt hroom)

/-- A search that ends with room in the queue has kept all that can be reached. -/
theorem Settled.all_found (hs : Settled sp x q n ef layer skip stamp ep P s)
    (hn : x.data.length = n) (hroom : s.found.length < ef) {id : Nat}
    (hid : id ∈ x.reachable layer skip ep) : id ∈ s.found.map idOf := by
  have hwalk : Relation.ReflTransGen (fun a b => x.Hop layer skip a b ∧ True) ep id :=
    Relation.ReflTransGen.mono (fun a b hhop => ⟨hhop, trivial⟩) _ _ hid
  have hseen := hs.reached sp hn (fun id d _ _ => not_dropped_of_lt hroom id d) hwalk
  exact hs.mem_found sp hn hseen fun d _ => not_dropped_of_lt hroom id d

/-- The number of candidates is the size of the queue or of all that can be reached. -/
theorem Settled.found_length
    (hs : Settled sp x q n ef layer skip stamp ep (· ∈ x.reachable layer skip ep) s)
    (hn : x.data.length = n) (hfinite : (x.reachable layer skip ep).Finite) :
    s.found.length = min ef (x.reachable layer skip ep).ncard := by
  have hsub : ((s.found.map idOf).toFinset : Set Nat) ⊆ x.reachable layer skip ep := by
    intro id hid
    rw [Finset.mem_coe, List.mem_toFinset, List.mem_map] at hid
    obtain ⟨c, hc, rfl⟩ := hid
    exact (hs.sound.found c hc).ok
  have hcard : (s.found.map idOf).toFinset.card = s.found.length := by
    rw [List.toFinset_card_of_nodup hs.sound.nodup, List.length_map]
  have hle := Set.ncard_le_ncard hsub hfinite
  rw [Set.ncard_coe_finset, hcard] at hle
  have hbound := hs.length_le
  by_cases hroom : s.found.length < ef
  · have hsup : x.reachable layer skip ep ⊆ ((s.found.map idOf).toFinset : Set Nat) := by
      intro id hid
      rw [Finset.mem_coe, List.mem_toFinset]
      exact hs.all_found hn hroom hid
    have hge := Set.ncard_le_ncard hsup (Finset.finite_toSet _)
    rw [Set.ncard_coe_finset, hcard] at hge
    omega
  · omega

/-- With a queue for all of them, every node that can be reached is found. -/
theorem Settled.found_all
    (hs : Settled sp x q n ef layer skip stamp ep (· ∈ x.reachable layer skip ep) s)
    (hn : x.data.length = n) (hfinite : (x.reachable layer skip ep).Finite)
    (hef : (x.reachable layer skip ep).ncard ≤ ef) {id : Nat}
    (hid : id ∈ x.reachable layer skip ep) : id ∈ s.found.map idOf := by
  have hlength := hs.found_length hn hfinite
  rw [Nat.min_eq_right hef] at hlength
  by_contra hnot
  have hsub : ((s.found.map idOf).toFinset : Set Nat) ⊂ x.reachable layer skip ep := by
    rw [Set.ssubset_iff_of_subset]
    · exact ⟨id, hid, by simpa using hnot⟩
    · intro other hother
      rw [Finset.mem_coe, List.mem_toFinset, List.mem_map] at hother
      obtain ⟨c, hc, rfl⟩ := hother
      exact (hs.sound.found c hc).ok
  have hlt := Set.ncard_lt_ncard hsub hfinite
  rw [Set.ncard_coe_finset, List.toFinset_card_of_nodup hs.sound.nodup, List.length_map] at hlt
  omega

/-- The nearest candidate is not farther than the start. -/
theorem Settled.nearest_le (hs : Settled sp x q n ef layer skip stamp ep P s) {d0 : D}
    (hd0 : distance sp x q ep = some d0) :
    ∃ first ∈ s.found.reverse.head?, (ofLex first).1 ≤ d0 := by
  obtain ⟨first, rest, hcons⟩ := List.exists_cons_of_ne_nil
    (List.reverse_ne_nil_iff.mpr hs.sound.found_ne)
  refine ⟨first, by rw [hcons]; rfl, ?_⟩
  have hfirst : first ∈ s.found := by
    rw [← List.mem_reverse, hcons]
    exact List.mem_cons_self
  rcases hs.kept ep d0 hs.start hd0 with hkept | hbeyond
  · obtain ⟨c, hc, hid⟩ := List.mem_map.mp hkept
    have hdist : (ofLex c).1 = d0 := by
      have hreached := (hs.sound.found c hc).dist
      rw [hid, hd0] at hreached
      exact (Option.some.inj hreached).symm
    have hsorted : s.found.reverse.Pairwise (· ≤ ·) := List.pairwise_reverse.mpr hs.found_sorted
    rw [hcons] at hsorted
    have hmem : c ∈ first :: rest := by
      rw [← hcons, List.mem_reverse]
      exact hc
    exact hdist ▸ Prod.Lex.monotone_fst _ _ (hsorted.rel_head hmem)
  · exact hbeyond.2 first hfirst

end Search

/-- The search of a layer ends with as many of the nodes that can be reached as there is place
for, sorted by distance and id, the first of them not farther than the start. -/
theorem searchLayer_length [LinearOrder D] (sp : Space V D R) (q : V) {nbs : List Nat}
    (h : x.LayerGraph n layer) (hlt : ep < n) (hnbs : x.neighbors ep layer = some nbs)
    (hskip : ep ≠ skip) (hef : 1 ≤ ef) :
    ∃ y candidates, searchLayer sp x q ep ef layer skip = some (y, candidates) ∧
      candidates.Pairwise (· ≤ ·) ∧ (candidates.map idOf).Nodup ∧
      (∀ c ∈ candidates, distance sp x q (idOf c) = some (ofLex c).1) ∧
      (∀ c ∈ candidates, idOf c ∈ x.reachable layer skip ep ∧ idOf c ≠ skip) ∧
      candidates.length = min ef (x.reachable layer skip ep).ncard ∧
      (∀ d0, distance sp x q ep = some d0 → ∃ first ∈ candidates.head?, (ofLex first).1 ≤ d0) ∧
      ((x.reachable layer skip ep).ncard ≤ ef →
        ∀ id ∈ x.reachable layer skip ep, id ∈ candidates.map idOf) := by
  have hfinite : (x.reachable layer skip ep).Finite := h.reachable_finite hlt hnbs
  obtain ⟨counter, s, hsearch, hs⟩ := h.searchLayer_settled sp q (h.walkable hlt hnbs)
    (show ep ∈ x.reachable layer skip ep from .refl) hef
  refine ⟨_, _, hsearch, List.pairwise_reverse.mpr hs.found_sorted, ?_, ?_, ?_, ?_, ?_, ?_⟩
  · rw [List.map_reverse, List.nodup_reverse]
    exact hs.sound.nodup
  · intro c hc
    exact (hs.sound.found c (List.mem_reverse.mp hc)).dist
  · intro c hc
    have hreach := (hs.sound.found c (List.mem_reverse.mp hc)).ok
    refine ⟨hreach, ?_⟩
    rcases Relation.ReflTransGen.cases_tail hreach with heq | ⟨a, -, list, -, -, hne⟩
    · exact heq ▸ hskip
    · exact hne
  · rw [List.length_reverse, hs.found_length h.data_length hfinite]
  · intro d0 hd0
    exact hs.nearest_le hd0
  · intro hall id hid
    rw [List.map_reverse, List.mem_reverse]
    exact hs.found_all h.data_length hfinite hall hid

/-- Two points with a link in each direction. -/
def twoPoints : HNSWIndex Int where
  M := 2
  M_max0 := 4
  efConstruction := 2
  data := [3, 8]
  links := [[[1]], [[0]]]
  visited := [0, 0]

theorem twoPoints_layerGraph : twoPoints.LayerGraph 2 0 := by
  refine ⟨rfl, rfl, by decide, by decide, ?_⟩
  intro id nbs hnbs nb hnb
  match id, hnbs with
  | 0, hnbs =>
      obtain rfl : [1] = nbs := Option.some.inj hnbs
      obtain rfl := List.mem_singleton.mp hnb
      exact ⟨by decide, [0], rfl⟩
  | 1, hnbs =>
      obtain rfl : [0] = nbs := Option.some.inj hnbs
      obtain rfl := List.mem_singleton.mp hnb
      exact ⟨by decide, [1], rfl⟩
  | id + 2, hnbs => cases hnbs

theorem searchLayer_length_two :
    ∃ y candidates, searchLayer line twoPoints 7 0 1 0 kNoSkip = some (y, candidates) ∧
      candidates.length = min 1 (twoPoints.reachable 0 kNoSkip 0).ncard := by
  obtain ⟨y, candidates, hsearch, -, -, -, -, hlength, -, -⟩ :=
    searchLayer_length line 7 twoPoints_layerGraph (by decide : 0 < 2) (rfl : _ = some [1])
      (by decide : 0 ≠ kNoSkip) (le_refl 1)
  exact ⟨y, candidates, hsearch, hlength⟩

end HNSWIndex

end LogMind
