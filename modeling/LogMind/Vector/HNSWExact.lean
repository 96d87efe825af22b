import LogMind.Vector.HNSWGraph
import Mathlib.Data.List.Induction
import Mathlib.Data.List.Pairwise
import Mathlib.Logic.Relation

/-!
# Small indexes are searched exactly

While no list of layer 0 has been pruned, layer 0 is a connected undirected graph.
A search that may keep every node then takes no early exit, rejects no neighbour and
finds all nodes, so that its result is that of brute force.
-/

namespace LogMind

open Checked Loop

namespace HNSWIndex

variable {V D R : Type}

/-- An edge of layer 0. -/
def Adjacent (x : HNSWIndex V) (a b : Nat) : Prop :=
  ∃ nbs, x.neighbors a 0 = some nbs ∧ b ∈ nbs

section Search

variable [LinearOrder D] (sp : Space V D R) {x : HNSWIndex V} {q : V} {n ef skip stamp ep : Nat}

/-- What the search of layer 0 keeps when it may keep every node: both queues hold what
was reached, nothing is dropped, and the neighbours of what was visited are reached. -/
structure Exhaustive (x : HNSWIndex V) (q : V) (n stamp ep : Nat) (visiting : Nat → Prop)
    (s : Search D) : Prop where
  sound : Sound sp x q n stamp (x.OnLayer n 0 n) s
  sorted : s.found.Pairwise (· ≥ ·)
  queued : ∀ c ∈ s.toVisit, c ∈ s.found
  marked : ∀ id, s.visited[id]? = some stamp → id ∈ s.found.map idOf
  start : ep ∈ s.found.map idOf
  closed : ∀ c ∈ s.found, c ∈ s.toVisit ∨ visiting (idOf c) ∨
    ∀ nb, x.Adjacent (idOf c) nb → nb ∈ s.found.map idOf

/-- Distinct nodes are not more than all nodes. -/
theorem length_le_of_nodup {ids : List Nat} (hnodup : ids.Nodup) (hlt : ∀ id ∈ ids, id < n) :
    ids.length ≤ n := by
  have hsub : ids.Subperm (List.range n) :=
    List.subperm_of_subset hnodup fun id hid => List.mem_range.mpr (hlt id hid)
  simpa using hsub.length_le

omit [LinearOrder D] in
/-- A new node finds the queue short of all nodes. -/
theorem Sound.length_lt {s : Search D} (hs : Sound sp x q n stamp (x.OnLayer n 0 n) s) {nb : Nat}
    (hnb : nb < n) (hnew : nb ∉ s.found.map idOf) : s.found.length < n := by
  have hnodup : (nb :: s.found.map idOf).Nodup := List.nodup_cons.mpr ⟨hnew, hs.nodup⟩
  have hle : (nb :: s.found.map idOf).length ≤ n := length_le_of_nodup hnodup (by
    intro id hid
    rcases List.mem_cons.mp hid with rfl | hid
    · exact hnb
    · obtain ⟨c, hc, rfl⟩ := List.mem_map.mp hid
      exact (hs.found c hc).ok.1)
  rw [List.length_cons, List.length_map] at hle
  exact hle

/-- One neighbour: it is reached afterwards, and everything reached before still is. -/
theorem visitNeighbor_exhaustive (hn : x.data.length = n) (hef : n ≤ ef)
    {visiting : Nat → Prop} {s : Search D} (hs : Exhaustive sp x q n stamp ep visiting s)
    {nb : Nat} (hnb : nb < n) (hskip : nb ≠ skip) :
    ∃ t, visitNeighbor sp x q ef skip stamp s nb = some t ∧
      Exhaustive sp x q n stamp ep visiting t ∧ pending stamp t ≤ pending stamp s ∧
      nb ∈ t.found.map idOf ∧ ∀ id ∈ s.found.map idOf, id ∈ t.found.map idOf := by
  obtain ⟨t, hvisit, hsound, hpending⟩ := visitNeighbor_sound sp ef hn hs.sound hnb
    fun _ => (⟨hnb, Nat.zero_le _, hnb.ne⟩ : x.OnLayer n 0 n nb)
  rcases visitNeighbor_cases sp ef hn hs.sound hnb hskip with
    ⟨hmark, hsame⟩ | ⟨mark, d, b, hmark, hne, hd, haccepts, hstep⟩
  · obtain rfl := Option.some.inj (hsame.symm.trans hvisit)
    exact ⟨s, hsame, hs, hpending, hs.marked nb hmark, fun _ h => h⟩
  · have hlt := hs.sound.length_lt sp hnb (hs.sound.fresh sp hmark hne)
    obtain rfl : b = true := by
      rw [accepts, if_pos (by omega)] at haccepts
      exact (Option.some.inj haccepts).symm
    rw [if_pos rfl] at hstep
    have hkeep : keepNearest ef s.found (toLex (d, nb)) =
        s.found.orderedInsert (· ≥ ·) (toLex (d, nb)) := by
      unfold keepNearest
      dsimp only
      rw [if_neg]
      rw [List.orderedInsert_length]
      omega
    rw [hkeep] at hstep
    obtain rfl := Option.some.inj (hstep.symm.trans hvisit)
    have hmem : ∀ c, c ∈ s.found.orderedInsert (· ≥ ·) (toLex (d, nb)) ↔
        c = toLex (d, nb) ∨ c ∈ s.found := fun c => List.mem_orderedInsert _
    have hids : ∀ id, id ∈ (s.found.orderedInsert (· ≥ ·) (toLex (d, nb))).map idOf ↔
        id = nb ∨ id ∈ s.found.map idOf := by
      intro id
      simp only [List.mem_map, hmem]
      constructor
      · rintro ⟨c, rfl | hc, rfl⟩
        · exact Or.inl rfl
        · exact Or.inr ⟨c, hc, rfl⟩
      · rintro (rfl | ⟨c, hc, rfl⟩)
        · exact ⟨_, Or.inl rfl, rfl⟩
        · exact ⟨c, Or.inr hc, rfl⟩
    refine ⟨_, hvisit, ⟨hsound, hs.sorted.orderedInsert _ _, ?_, ?_, ?_, ?_⟩, hpending,
      (hids nb).mpr (Or.inl rfl), fun id hid => (hids id).mpr (Or.inr hid)⟩
    · intro c hc
      rcases (List.mem_orderedInsert _).mp hc with rfl | hc
      · exact (hmem _).mpr (Or.inl rfl)
      · exact (hmem c).mpr (Or.inr (hs.queued c hc))
    · intro id hid
      by_cases heq : id = nb
      · exact (hids id).mpr (Or.inl heq)
      · rw [List.getElem?_set_ne (Ne.symm heq)] at hid
        exact (hids id).mpr (Or.inr (hs.marked id hid))
    · exact (hids ep).mpr (Or.inr hs.start)
    · intro c hc
      rcases (hmem c).mp hc with rfl | hc
      · exact Or.inl ((List.mem_orderedInsert _).mpr (Or.inl rfl))
      · rcases hs.closed c hc with hqueue | hvisiting | hall
        · exact Or.inl ((List.mem_orderedInsert _).mpr (Or.inr hqueue))
        · exact Or.inr (Or.inl hvisiting)
        · exact Or.inr (Or.inr fun nb' hadj => (hids nb').mpr (Or.inr (hall nb' hadj)))

/-- Taking a candidate off the queue. -/
theorem Exhaustive.pop {s : Search D} {cur : Cand D} {rest : List (Cand D)}
    (hs : Exhaustive sp x q n stamp ep (fun _ => False) s) (hvisit : s.toVisit = cur :: rest) :
    Exhaustive sp x q n stamp ep (fun id => id = idOf cur) { s with toVisit := rest } := by
  have hmem : ∀ c ∈ rest, c ∈ s.toVisit := by
    intro c hc
    rw [hvisit]
    exact List.mem_cons_of_mem _ hc
  refine ⟨⟨hs.sound.visited_length, hs.sound.marks, hs.sound.found_ne, hs.sound.found,
    fun c hc => hs.sound.toVisit c (hmem c hc), hs.sound.nodup⟩, hs.sorted,
    fun c hc => hs.queued c (hmem c hc), hs.marked, hs.start, ?_⟩
  intro c hc
  rcases hs.closed c hc with hqueue | hfalse | hall
  · rw [hvisit] at hqueue
    rcases List.mem_cons.mp hqueue with rfl | hqueue
    · exact Or.inr (Or.inl rfl)
    · exact Or.inl hqueue
  · exact hfalse.elim
  · exact Or.inr (Or.inr hall)

/-- All neighbours of the candidate taken off. -/
theorem visitNeighbors_exhaustive (hn : x.data.length = n) (hef : n ≤ ef) {s : Search D}
    {cur : Nat} (hs : Exhaustive sp x q n stamp ep (fun id => id = cur) s) {nbs : List Nat}
    (hnbs : x.neighbors cur 0 = some nbs) (hlt : ∀ nb ∈ nbs, nb < n ∧ nb ≠ skip) :
    ∃ t, nbs.foldlM (visitNeighbor sp x q ef skip stamp) s = some t ∧
      Exhaustive sp x q n stamp ep (fun _ => False) t ∧ pending stamp t ≤ pending stamp s := by
  obtain ⟨t, hfold, ⟨ht, hpending, hdone⟩, _⟩ := foldlM_spec
    (fun remaining t => (Exhaustive sp x q n stamp ep (fun id => id = cur) t ∧
        pending stamp t ≤ pending stamp s ∧
        ∀ nb ∈ nbs, nb ∈ remaining ∨ nb ∈ t.found.map idOf) ∧ ∀ nb ∈ remaining, nb ∈ nbs)
    (fun nb remaining t ht => by
      obtain ⟨⟨ht, hle, hdone⟩, hsub⟩ := ht
      obtain ⟨hlt, hskip⟩ := hlt nb (hsub nb List.mem_cons_self)
      obtain ⟨u, hvisit, hu, hle', hnb, hkeep⟩ :=
        visitNeighbor_exhaustive sp hn hef ht hlt hskip
      refine ⟨u, hvisit, ⟨hu, hle'.trans hle, ?_⟩, fun a ha => hsub a (List.mem_cons_of_mem _ ha)⟩
      intro a ha
      rcases hdone a ha with hremaining | hfound
      · rcases List.mem_cons.mp hremaining with rfl | hremaining
        · exact Or.inr hnb
        · exact Or.inl hremaining
      · exact Or.inr (hkeep a hfound))
    nbs s ⟨⟨hs, le_rfl, fun nb hnb => Or.inl hnb⟩, fun _ h => h⟩
  refine ⟨t, hfold, ⟨ht.sound, ht.sorted, ht.queued, ht.marked, ht.start, ?_⟩, hpending⟩
  intro c hc
  rcases ht.closed c hc with hqueue | heq | hall
  · exact Or.inl hqueue
  · refine Or.inr (Or.inr fun nb hadj => ?_)
    obtain ⟨nbs', hnbs', hnb⟩ := hadj
    rw [heq] at hnbs'
    obtain rfl := Option.some.inj (hnbs.symm.trans hnbs')
    exact (hdone nb hnb).resolve_left List.not_mem_nil
  · exact Or.inr (Or.inr hall)

/-- One turn never stops early: the farthest node found is at least as far as the one
taken off the queue, which is one of those found. -/
theorem searchTurn_exhaustive (h : x.Linked n) (hskip : n ≤ skip) (hef : n ≤ ef) {s : Search D}
    (hs : Exhaustive sp x q n stamp ep (fun _ => False) s) :
    (∃ t, searchTurn sp x q ef 0 skip stamp s = some (.inl t) ∧
        Exhaustive sp x q n stamp ep (fun _ => False) t ∧ pending stamp t < pending stamp s) ∨
      searchTurn sp x q ef 0 skip stamp s = some (.inr s) ∧ s.toVisit = [] := by
  unfold searchTurn
  cases hvisit : s.toVisit with
  | nil => exact Or.inr ⟨rfl, rfl⟩
  | cons cur rest =>
      obtain ⟨far, found, hfound⟩ := List.exists_cons_of_ne_nil hs.sound.found_ne
      have hcur : cur ∈ s.toVisit := by rw [hvisit]; exact List.mem_cons_self
      have hfar : ¬ (ofLex far).1 < (ofLex cur).1 := by
        have hsorted := hs.sorted
        have hmem := hs.queued cur hcur
        rw [hfound] at hsorted hmem
        exact not_lt.mpr (Prod.Lex.monotone_fst _ _ (hsorted.rel_head hmem))
      have hok := (hs.sound.toVisit cur hcur).ok
      obtain ⟨nbs, hnbs⟩ := h.exists_neighbors hok.1 hok.2.1
      have hlt : ∀ nb ∈ nbs, nb < n ∧ nb ≠ skip := by
        intro nb hnb
        have hlt := (h.points _ 0 nbs hnbs nb hnb).1
        exact ⟨hlt, by omega⟩
      obtain ⟨t, hfold, ht, hpending⟩ :=
        visitNeighbors_exhaustive sp h.data_length hef (hs.pop sp hvisit) hnbs hlt
      refine Or.inl ⟨t, ?_, ht, ?_⟩
      · simp only [hfound, List.head?_cons, Option.bind_eq_bind, Option.bind_some, if_neg hfar]
        change (x.neighbors (idOf cur) 0).bind _ = _
        simp only [hfound] at hfold
        rw [hnbs, Option.bind_some, hfold]
        rfl
      · have hpop : pending stamp { s with toVisit := rest } + 1 = pending stamp s := by
          simp only [pending, hvisit, List.length_cons]
          omega
        omega

/-- When the queue is empty, everything reachable from a node found is found. -/
theorem Exhaustive.reachable {s : Search D}
    (hs : Exhaustive sp x q n stamp ep (fun _ => False) s) (hempty : s.toVisit = []) {id : Nat}
    (hreach : Relation.ReflTransGen x.Adjacent ep id) : id ∈ s.found.map idOf := by
  induction hreach with
  | refl => exact hs.start
  | tail _ hadj ih =>
      obtain ⟨c, hc, rfl⟩ := List.mem_map.mp ih
      rcases hs.closed c hc with hqueue | hfalse | hall
      · rw [hempty] at hqueue
        exact absurd hqueue List.not_mem_nil
      · exact hfalse.elim
      · exact hall _ hadj

/-- All nodes with their distances, in the order of their ids. -/
def allCandidates (sp : Space V D R) (q : V) (data : List V) : List (Cand D) :=
  data.zipIdx.map fun p => toLex (sp.distanceSq q p.1, p.2)

omit [LinearOrder D] in
theorem mem_allCandidates {c : Cand D} :
    c ∈ allCandidates sp q x.data ↔ distance sp x q (idOf c) = some (ofLex c).1 := by
  unfold allCandidates distance
  rw [List.mem_map, Option.map_eq_some_iff]
  constructor
  · rintro ⟨⟨v, i⟩, hmem, rfl⟩
    exact ⟨v, List.mem_zipIdx_iff_getElem?.mp hmem, rfl⟩
  · rintro ⟨v, hget, hdist⟩
    refine ⟨(v, idOf c), List.mem_zipIdx_iff_getElem?.mpr hget, ?_⟩
    rw [hdist]
    rfl

omit [LinearOrder D] in
theorem allCandidates_nodup (data : List V) : (allCandidates sp q data).Nodup := by
  apply List.Nodup.of_map idOf
  have hids : (allCandidates sp q data).map idOf = data.zipIdx.map Prod.snd := by
    rw [allCandidates, List.map_map]
    rfl
  rw [hids, List.zipIdx_map_snd]
  exact List.nodup_range'

/-- The candidates of an exhaustive search are all nodes, sorted. -/
theorem Exhaustive.found_eq {s : Search D} (hn : x.data.length = n)
    (hs : Exhaustive sp x q n stamp ep (fun _ => False) s) (hempty : s.toVisit = [])
    (hall : ∀ id < n, Relation.ReflTransGen x.Adjacent ep id) :
    s.found.reverse = (allCandidates sp q x.data).insertionSort (· ≤ ·) := by
  have hperm : s.found.Perm (allCandidates sp q x.data) := by
    apply (List.perm_ext_iff_of_nodup hs.sound.nodup.of_map (allCandidates_nodup sp _)).mpr
    intro c
    rw [mem_allCandidates]
    constructor
    · exact fun hc => (hs.sound.found c hc).dist
    · intro hdist
      obtain ⟨v, hget, _⟩ := Option.map_eq_some_iff.mp hdist
      have hlt := (List.getElem?_eq_some_iff.mp hget).1
      obtain ⟨d, hd, hid⟩ := List.mem_map.mp (hs.reachable sp hempty (hall (idOf c) (by omega)))
      have hsame := (hs.sound.found d hd).dist
      rw [hid, hdist] at hsame
      have heq : c = d := by
        refine congrArg toLex (Prod.ext (Option.some.inj hsame) ?_)
        exact hid.symm
      rw [heq]
      exact hd
  have hsorted : s.found.reverse.Pairwise (· ≤ ·) := List.pairwise_reverse.mpr hs.sorted
  exact ((s.found.reverse_perm.trans hperm).trans
    (List.perm_insertionSort _ _).symm).eq_of_pairwise' hsorted (List.pairwise_insertionSort _ _)

omit [LinearOrder D] in
/-- Only the start has the stamp at the start. -/
theorem eq_of_startSearch_mark {marks : List Nat} {d0 : D} (hmarks : ∀ m ∈ marks, m < stamp)
    {id : Nat} (hid : (startSearch (x.withMarks marks stamp) d0 ep).visited[id]? = some stamp) :
    id = ep := by
  by_contra hne
  change (marks.set ep stamp)[id]? = some stamp at hid
  rw [List.getElem?_set_ne (Ne.symm hne)] at hid
  exact absurd (hmarks _ (List.mem_of_getElem? hid)) (lt_irrefl _)

theorem startSearch_exhaustive {marks : List Nat} (hlength : marks.length = n)
    (hmarks : ∀ m ∈ marks, m < stamp) (hep : ep < n) {d0 : D}
    (hd0 : distance sp x q ep = some d0) :
    Exhaustive sp x q n stamp ep (fun _ => False)
      (startSearch (x.withMarks marks stamp) d0 ep) :=
  ⟨startSearch_sound sp hlength hmarks (⟨hep, Nat.zero_le _, hep.ne⟩ : x.OnLayer n 0 n ep) hep hd0,
    List.pairwise_singleton _ _, fun _ hc => hc,
    fun _ hid => List.mem_singleton.mpr (eq_of_startSearch_mark hmarks hid),
    List.mem_singleton.mpr rfl, fun _ hc => Or.inl hc⟩

variable (q) in
/-- A search of layer 0 that may keep every node yields all nodes, nearest first. -/
theorem searchLayer_exhaustive (h : x.Linked n) (hskip : n ≤ skip) (hef : n ≤ ef) (hep : ep < n)
    (hall : ∀ id < n, Relation.ReflTransGen x.Adjacent ep id) :
    ∃ visited counter, searchLayer sp x q ep ef 0 skip =
      some (x.withMarks visited counter,
        (allCandidates sp q x.data).insertionSort (· ≤ ·)) := by
  have hstart : ∀ marks counter d0, marks.length = n → (∀ m ∈ marks, m < counter) →
      distance sp x q ep = some d0 → Exhaustive sp x q n counter ep (fun _ => False)
        (startSearch (x.withMarks marks counter) d0 ep) :=
    fun marks counter d0 hlength hfresh hd0 => startSearch_exhaustive sp hlength hfresh hep hd0
  obtain ⟨counter, s, hsearch, -, hs, hempty⟩ := searchLayer_rule sp h.data_length
    h.visited_length h.marks h.counter_lt hep hstart fun counter s hs => by
      rcases searchTurn_exhaustive sp h hskip hef hs with hnext | ⟨hstop, hempty⟩
      · exact Or.inl hnext
      · exact Or.inr ⟨s, hstop, And.intro hs hempty⟩
  rw [hs.found_eq sp h.data_length hempty hall] at hsearch
  exact ⟨s.visited, counter, hsearch⟩

end Search

section Graph

variable {x y : HNSWIndex V} {n cap level : Nat} {vec : V}

theorem grown_neighbors_of_lt (h : x.Linked n) {a : Nat} (ha : a < n) (lc : Nat) :
    (x.grown vec level).neighbors a lc = x.neighbors a lc := by
  show (x.links ++ [List.replicate (level + 1) []])[a]?.bind _ = x.links[a]?.bind _
  rw [List.getElem?_append_left (by rw [h.links_length]; exact ha)]

/-- The list of a node and the node itself are distinct nodes. -/
theorem Linked.length_succ_le (h : x.Linked n) {a lc : Nat} {nbs : List Nat}
    (hnbs : x.neighbors a lc = some nbs) : nbs.length + 1 ≤ n := by
  have hnodup : (a :: nbs).Nodup := List.nodup_cons.mpr
    ⟨fun ha => (h.points a lc nbs hnbs a ha).2.1 rfl, h.nodup a lc nbs hnbs⟩
  apply length_le_of_nodup hnodup
  intro id hid
  rcases List.mem_cons.mp hid with rfl | hid
  · exact (h.le_of_neighbors hnbs).1
  · exact (h.points a lc nbs hnbs id hid).1

/-- With a cap that no list can pass, a new node adds its edges in both directions and
takes none away. -/
theorem adjacent_of_joined (h : x.Linked n) (hcap : n ≤ cap)
    (hjoined : Joined (x.grown vec level) (n + 1) n 0 cap y) :
    ∃ nearest : List Nat, nearest ≠ [] ∧ (∀ nb ∈ nearest, nb < n) ∧ ∀ a b,
      y.Adjacent a b ↔ x.Adjacent a b ∨ (a = n ∧ b ∈ nearest) ∨ (b = n ∧ a ∈ nearest) := by
  obtain ⟨nearest, hne, hon, hlist, hsame, hback⟩ := hjoined
  have hlt : ∀ nb ∈ nearest, nb < n := by
    intro nb hnb
    have hnb := hon nb hnb
    have hne := hnb.2.2
    have hlt := hnb.1
    omega
  refine ⟨nearest, hne, hlt, ?_⟩
  intro a b
  by_cases ha : a = n
  · subst ha
    have hx : ¬ x.Adjacent a b := by
      rintro ⟨nbs, hnbs, _⟩
      exact absurd (h.le_of_neighbors hnbs).1 (lt_irrefl _)
    constructor
    · rintro ⟨nbs, hnbs, hb⟩
      obtain rfl := Option.some.inj (hlist.symm.trans hnbs)
      exact Or.inr (Or.inl ⟨rfl, hb⟩)
    · rintro (hadj | ⟨_, hb⟩ | ⟨_, hmem⟩)
      · exact absurd hadj hx
      · exact ⟨nearest, hlist, hb⟩
      · exact absurd (hlt a hmem) (lt_irrefl _)
  · by_cases hmem : a ∈ nearest
    · have hold : (x.grown vec level).neighbors a 0 = x.neighbors a 0 :=
        grown_neighbors_of_lt h (hlt a hmem) 0
      obtain ⟨nbs, hnbs⟩ := h.exists_neighbors (hlt a hmem) (Nat.zero_le _)
      obtain ⟨list, hylist, _, hext⟩ := hback a hmem nbs (hold.trans hnbs)
      have hlist_eq := hext ((h.length_succ_le hnbs).trans hcap)
      constructor
      · rintro ⟨nbs', hnbs', hb⟩
        obtain rfl := Option.some.inj (hylist.symm.trans hnbs')
        rw [hlist_eq] at hb
        rcases List.mem_append.mp hb with hb | hb
        · exact Or.inl ⟨nbs, hnbs, hb⟩
        · exact Or.inr (Or.inr ⟨List.mem_singleton.mp hb, hmem⟩)
      · rintro (⟨nbs', hnbs', hb⟩ | ⟨hn, _⟩ | ⟨hb, _⟩)
        · obtain rfl := Option.some.inj (hnbs.symm.trans hnbs')
          exact ⟨list, hylist, by rw [hlist_eq]; exact List.mem_append_left _ hb⟩
        · exact absurd hn ha
        · exact ⟨list, hylist, by rw [hlist_eq, hb]; simp⟩
    · have hy := hsame a ha hmem
      constructor
      · rintro ⟨nbs, hnbs, hb⟩
        rw [hy] at hnbs
        rcases grown_neighbors h vec level hnbs with hold | ⟨hn, _⟩
        · exact Or.inl ⟨nbs, hold, hb⟩
        · exact absurd hn ha
      · rintro (⟨nbs, hnbs, hb⟩ | ⟨hn, _⟩ | ⟨_, hnear⟩)
        · refine ⟨nbs, ?_, hb⟩
          rw [hy, grown_neighbors_of_lt h (h.le_of_neighbors hnbs).1 0]
          exact hnbs
        · exact absurd hn ha
        · exact absurd hnear hmem

/-- Layer 0 as an undirected graph in one piece. -/
structure Connected (x : HNSWIndex V) : Prop where
  symm : ∀ a b, x.Adjacent a b → x.Adjacent b a
  reach : ∀ a < x.count, ∀ b < x.count, Relation.ReflTransGen x.Adjacent a b

/-- A new node that leads to an old one and back joins the piece. -/
theorem reach_of_joined {r : Nat → Nat → Prop} {nb : Nat} (hnb : nb < n)
    (hold : ∀ a < n, ∀ b < n, Relation.ReflTransGen r a b)
    (hto : Relation.ReflTransGen r n nb) (hfrom : Relation.ReflTransGen r nb n) :
    ∀ a < n + 1, ∀ b < n + 1, Relation.ReflTransGen r a b := by
  intro a ha b hb
  have htonb : Relation.ReflTransGen r a nb := by
    by_cases hlast : a = n
    · rw [hlast]
      exact hto
    · exact hold a (by omega) nb hnb
  have hfromnb : Relation.ReflTransGen r nb b := by
    by_cases hlast : b = n
    · rw [hlast]
      exact hfrom
    · exact hold nb hnb b (by omega)
  exact htonb.trans hfromnb

theorem Connected.of_joined (h : x.Linked x.count) (hconn : x.Connected)
    (hcap : x.count ≤ cap) (hcount : y.count = x.count + 1)
    (hjoined : Joined (x.grown vec level) (x.count + 1) x.count 0 cap y) : y.Connected := by
  obtain ⟨nearest, hne, hlt, hadj⟩ := adjacent_of_joined h hcap hjoined
  obtain ⟨nb, hnb⟩ := List.exists_mem_of_ne_nil nearest hne
  have hold : ∀ a b, Relation.ReflTransGen x.Adjacent a b →
      Relation.ReflTransGen y.Adjacent a b :=
    fun a b hab => Relation.ReflTransGen.mono
      (fun a b hedge => (hadj a b).mpr (Or.inl hedge)) a b hab
  have hto : y.Adjacent nb x.count := (hadj _ _).mpr (Or.inr (Or.inr ⟨rfl, hnb⟩))
  have hfrom : y.Adjacent x.count nb := (hadj _ _).mpr (Or.inr (Or.inl ⟨rfl, hnb⟩))
  constructor
  · intro a b hab
    rcases (hadj a b).mp hab with hab | ⟨ha, hb⟩ | ⟨hb, ha⟩
    · exact (hadj b a).mpr (Or.inl (hconn.symm a b hab))
    · exact (hadj b a).mpr (Or.inr (Or.inr ⟨ha, hb⟩))
    · exact (hadj b a).mpr (Or.inr (Or.inl ⟨hb, ha⟩))
  · rw [hcount]
    exact reach_of_joined (hlt nb hnb)
      (fun a ha b hb => hold a b (hconn.reach a ha b hb)) (.single hfrom) (.single hto)

/-- A single node has no edge. -/
theorem Connected.of_count_one (h : x.Linked x.count) (hcount : x.count = 1) : x.Connected := by
  constructor
  · rintro a b ⟨nbs, hnbs, hb⟩
    have ha := (h.le_of_neighbors hnbs).1
    obtain ⟨hlt, hne, _⟩ := h.points a 0 nbs hnbs b hb
    omega
  · intro a ha b hb
    obtain rfl : a = b := by omega
    exact Relation.ReflTransGen.refl

end Graph

/-- What brute force works on: the points in the order they were added and the ids of
those deleted. -/
structure Reference (V : Type) where
  points : List V := []
  deleted : List Nat := []

namespace Reference

def call (r : Reference V) : Call V → Reference V
  | .addPoint vec => { r with points := r.points ++ [vec] }
  | .markDeleted id =>
      if id < r.points.length then { r with deleted := id :: r.deleted } else r
  | .searchKnn _ _ _ => r

def after (calls : List (Call V)) : Reference V := calls.foldl call {}

/-- The points that are not deleted, ordered by distance and id and cut to the first
`k`. -/
def nearest {E : Type} [LinearOrder E] (r : Reference V) (dist : V → E) (k : Nat) :
    List (E × Nat) :=
  ((((r.points.zipIdx.filter fun p => p.2 ∉ r.deleted).map fun p =>
    (toLex (dist p.1, p.2) : E ×ₗ Nat)).insertionSort (· ≤ ·)).take k).map ofLex

theorem call_length_le (r : Reference V) (c : Call V) :
    r.points.length ≤ (r.call c).points.length := by
  cases c with
  | addPoint vec => simp [call]
  | markDeleted id =>
      rw [call]
      split <;> exact le_rfl
  | searchKnn query k ef => exact le_rfl

end Reference

section Exact

variable [LinearOrder D] (sp : Space V D R) {x : HNSWIndex V} {r : Reference V}

/-- The index holds the points of the reference, and its layer 0 has never lost an
edge. -/
structure Mirrors (x : HNSWIndex V) (r : Reference V) : Prop where
  wf : x.WellFormed
  points : x.data = r.points
  deleted : ∀ id < x.count, x.deleted[id]? = some (decide (id ∈ r.deleted))
  deleted_lt : ∀ id ∈ r.deleted, id < x.count
  connected : x.Connected

omit [LinearOrder D] in
theorem Mirrors.count_eq (h : Mirrors x r) : x.count = r.points.length := by
  rw [← h.points, h.wf.linked.data_length]

theorem addPoint_mirrors (h : Mirrors x r) (vec : V) (hsmall : r.points.length ≤ x.M_max0) :
    ∃ y, addPoint sp x x.count vec = some y ∧ Mirrors y (r.call (.addPoint vec)) ∧
      y.M_max0 = x.M_max0 := by
  obtain ⟨links, visited, counter, entry, maxLevel, level, hadd, hwf, hjoined⟩ :=
    addPoint_spec sp h.wf vec
  have hcount := h.count_eq
  refine ⟨_, hadd, ⟨hwf, ?_, ?_, ?_, ?_⟩, rfl⟩
  · show x.data ++ [vec] = r.points ++ [vec]
    rw [h.points]
  · intro id hid
    change id < x.count + 1 at hid
    show (x.deleted ++ [false])[id]? = some (decide (id ∈ r.deleted))
    by_cases hlt : id < x.count
    · rw [List.getElem?_append_left (by rw [h.wf.linked.deleted_length]; exact hlt)]
      exact h.deleted id hlt
    · obtain rfl : id = x.count := by omega
      have hnot : x.count ∉ r.deleted := fun hmem => absurd (h.deleted_lt _ hmem) (lt_irrefl _)
      rw [List.getElem?_append_right (by rw [h.wf.linked.deleted_length]),
        h.wf.linked.deleted_length, Nat.sub_self, decide_eq_false hnot]
      rfl
  · intro id hid
    exact Nat.lt_succ_of_lt (h.deleted_lt id hid)
  · by_cases hzero : x.count = 0
    · apply Connected.of_count_one hwf.linked
      show x.count + 1 = 1
      omega
    · exact Connected.of_joined h.wf.linked h.connected (by omega) rfl
        (hjoined (by omega))

omit [LinearOrder D] in
theorem markDeleted_mirrors (h : Mirrors x r) (id : Nat) :
    Mirrors (x.markDeleted id) (r.call (.markDeleted id)) := by
  have hwf := markDeleted_wellFormed h.wf id
  have hcount := h.count_eq
  by_cases hid : id < x.count
  · have hcall : r.call (.markDeleted id) = { r with deleted := id :: r.deleted } :=
      if_pos (by omega)
    rw [hcall]
    by_cases hmem : id ∈ r.deleted
    · have hsame : x.markDeleted id = x := by
        rw [markDeleted, h.deleted id hid, decide_eq_true hmem]
        rfl
      rw [hsame]
      refine ⟨h.wf, h.points, ?_, ?_, h.connected⟩
      · intro a ha
        rw [h.deleted a ha]
        refine congrArg some (decide_eq_decide.mpr ⟨List.mem_cons_of_mem _, fun h => ?_⟩)
        rcases List.mem_cons.mp h with rfl | h
        · exact hmem
        · exact h
      · intro a ha
        rcases List.mem_cons.mp ha with rfl | ha
        · exact hid
        · exact h.deleted_lt a ha
    · have hset : x.markDeleted id = { x with
          deleted := x.deleted.set id true, deletedCount := x.deletedCount + 1 } := by
        rw [markDeleted, h.deleted id hid, decide_eq_false hmem]
        rfl
      rw [hset] at hwf ⊢
      refine ⟨hwf, h.points, ?_, ?_, ⟨h.connected.symm, h.connected.reach⟩⟩
      · intro a ha
        show (x.deleted.set id true)[a]? = some (decide (a ∈ id :: r.deleted))
        by_cases heq : a = id
        · subst heq
          rw [List.getElem?_set_self (by rw [h.wf.linked.deleted_length]; exact hid),
            decide_eq_true List.mem_cons_self]
        · rw [List.getElem?_set_ne (Ne.symm heq), h.deleted a ha]
          refine congrArg some (decide_eq_decide.mpr ⟨List.mem_cons_of_mem _, fun h => ?_⟩)
          exact (List.mem_cons.mp h).resolve_left heq
      · intro a ha
        rcases List.mem_cons.mp ha with rfl | ha
        · exact hid
        · exact h.deleted_lt a ha
  · have hcall : r.call (.markDeleted id) = r := if_neg (by omega)
    have hsame : x.markDeleted id = x := by
      rw [markDeleted, List.getElem?_eq_none (by rw [h.wf.linked.deleted_length]; omega)]
      rfl
    rw [hcall, hsame]
    exact h

theorem call_mirrors (h : Mirrors x r) (c : Call V)
    (hsmall : (r.call c).points.length ≤ x.M_max0 + 1) :
    ∃ y, call sp x c = some y ∧ Mirrors y (r.call c) ∧ y.M_max0 = x.M_max0 := by
  cases c with
  | addPoint vec =>
      apply addPoint_mirrors sp h vec
      simpa [Reference.call] using hsmall
  | markDeleted id =>
      refine ⟨_, rfl, markDeleted_mirrors h id, ?_⟩
      unfold markDeleted
      split <;> rfl
  | searchKnn query k ef =>
      obtain ⟨visited, counter, result, hsearch, hwf⟩ := searchKnn_spec sp h.wf query k ef
      exact ⟨x.withMarks visited counter, by rw [call, hsearch]; rfl,
        ⟨hwf, h.points, h.deleted, h.deleted_lt, ⟨h.connected.symm, h.connected.reach⟩⟩, rfl⟩

theorem run_mirrors (M efConstruction : Nat) (calls : List (Call V))
    (hsmall : (Reference.after calls).points.length ≤ 2 * max M 2 % wordBound + 1) :
    ∃ x, Transition.run (call sp) (new M efConstruction) calls = some x ∧
      Mirrors x (Reference.after calls) ∧ x.M_max0 = 2 * max M 2 % wordBound := by
  induction calls using List.reverseRecOn with
  | nil =>
      refine ⟨_, rfl, ⟨new_wellFormed M efConstruction, rfl, ?_, ?_, ?_⟩, rfl⟩
      · exact fun id hid => absurd hid (Nat.not_lt_zero id)
      · exact fun id hid => absurd hid List.not_mem_nil
      · refine ⟨?_, fun a ha => absurd ha (Nat.not_lt_zero a)⟩
        rintro a b ⟨nbs, hnbs, _⟩
        simp [new, neighbors] at hnbs
  | append_singleton calls c ih =>
      have hafter : Reference.after (calls ++ [c]) = (Reference.after calls).call c := by
        simp [Reference.after]
      rw [hafter] at hsmall ⊢
      obtain ⟨x, hrun, hx, hM⟩ := ih ((Reference.call_length_le _ c).trans hsmall)
      obtain ⟨y, hcall, hy, hM'⟩ := call_mirrors sp hx c (by rw [hM]; exact hsmall)
      refine ⟨y, ?_, hy, hM'.trans hM⟩
      rw [Transition.run_append, hrun, Option.bind_some]
      exact Transition.run_cons_eq_some.mpr ⟨y, hcall, rfl⟩

omit [LinearOrder D] in
/-- The loop over the candidates is a filter cut to `k`. -/
theorem collectResults_eq (k : Nat) (alive : Nat → Bool) (candidates : List (Cand D))
    (hdead : ∀ c ∈ candidates, x.deleted[idOf c]? = some (!alive (idOf c)))
    (result : List (R × Nat)) (hk : result.length < k) :
    collectResults sp x k candidates result =
      some (result ++ ((candidates.filter fun c => alive (idOf c)).take
        (k - result.length)).map fun c => (sp.sqrt (ofLex c).1, idOf c)) := by
  induction candidates generalizing result with
  | nil => simp [collectResults]
  | cons c candidates ih =>
      have hrest := ih fun d hd => hdead d (List.mem_cons_of_mem _ hd)
      have hc := hdead c List.mem_cons_self
      rw [collectResults]
      change x.deleted[idOf c]?.bind _ = _
      rw [hc, Option.bind_some]
      cases halive : alive (idOf c) with
      | false =>
          rw [List.filter_cons_of_neg (by simp [halive]), Bool.not_false, if_pos rfl]
          exact hrest result hk
      | true =>
          obtain ⟨m, hm⟩ : ∃ m, k - result.length = m + 1 := ⟨k - result.length - 1, by omega⟩
          rw [List.filter_cons_of_pos (by simp [halive]), hm, List.take_succ_cons, List.map_cons,
            Bool.not_true, if_neg (by decide)]
          dsimp only
          have hlen : (result ++ [(sp.sqrt (ofLex c).1, (ofLex c).2)]).length =
              result.length + 1 := by simp
          by_cases hfull : k ≤ (result ++ [(sp.sqrt (ofLex c).1, (ofLex c).2)]).length
          · obtain rfl : m = 0 := by omega
            rw [if_pos hfull, List.take_zero]
            rfl
          · have hm' : k - (result.length + 1) = m := by omega
            rw [if_neg hfull, hrest _ (by omega), hlen, hm', List.append_assoc]
            rfl

/-- A filter goes through a sort. -/
theorem filter_insertionSort {E : Type} [LinearOrder E] (p : E → Bool) (l : List E) :
    (l.insertionSort (· ≤ ·)).filter p = (l.filter p).insertionSort (· ≤ ·) :=
  (((List.perm_insertionSort _ l).filter p).trans
    (List.perm_insertionSort _ (l.filter p)).symm).eq_of_pairwise'
      ((List.pairwise_insertionSort _ l).filter p) (List.pairwise_insertionSort _ _)

/-- The sorted candidates without the deleted ones, cut to `k`, are the nearest points. -/
theorem nearest_eq (h : Mirrors x r) (query : V) (k : Nat) :
    r.nearest (sp.distanceSq query) k =
      ((((allCandidates sp query x.data).insertionSort (· ≤ ·)).filter
        fun c => decide (idOf c ∉ r.deleted)).take k).map ofLex := by
  rw [filter_insertionSort, Reference.nearest, allCandidates, h.points, List.filter_map]
  rfl

/-- While no list of layer 0 can pass its cap and no node has the id that a search skips,
a search that may keep every node agrees with brute force. -/
theorem searchKnn_eq_nearest (h : Mirrors x r) (hids : r.points.length < wordBound32)
    (query : V) {k ef : Nat} (hk : 1 ≤ k) (hef : r.points.length ≤ max k ef) :
    ∃ y, searchKnn sp x query k ef =
      some (y, (r.nearest (sp.distanceSq query) k).map fun p => (sp.sqrt p.1, p.2)) := by
  have hcount := h.count_eq
  rw [searchKnn]
  by_cases hzero : x.count = 0
  · have hnil : r.points = [] := List.length_eq_zero_iff.mp (by omega)
    refine ⟨x, ?_⟩
    rw [if_pos (Or.inl hzero), Reference.nearest, hnil]
    simp
  · have hlinked := h.wf.linked
    obtain ⟨hlt, hlevel, _⟩ := h.wf.entry (by omega)
    obtain ⟨ep, hdescend, hep⟩ := descend_spec sp hlinked query 0
      (fun a l nbs hnbs hmem => absurd (hlinked.points a l nbs hnbs _ hmem).1 (lt_irrefl _))
      x.maxLevel (⟨hlt, hlevel.ge, hlt.ne⟩ : x.OnLayer x.count x.maxLevel x.count x.entry)
    have hskip : x.count ≤ kNoSkip := by
      unfold wordBound32 at hids
      unfold kNoSkip
      omega
    obtain ⟨visited, counter, hsearch⟩ := searchLayer_exhaustive sp query hlinked hskip
      (show x.count ≤ max k ef by omega) hep.1 (fun id hid => h.connected.reach ep hep.1 id hid)
    refine ⟨x.withMarks visited counter, ?_⟩
    have hdead : ∀ c ∈ (allCandidates sp query x.data).insertionSort (· ≤ ·),
        x.deleted[idOf c]? = some (!decide (idOf c ∉ r.deleted)) := by
      intro c hc
      have hdist := (mem_allCandidates sp).mp ((List.perm_insertionSort _ _).mem_iff.mp hc)
      obtain ⟨v, hget, _⟩ := Option.map_eq_some_iff.mp hdist
      have hid := (List.getElem?_eq_some_iff.mp hget).1
      rw [hlinked.data_length] at hid
      rw [h.deleted _ hid]
      simp
    have hdead' : ∀ c ∈ (allCandidates sp query x.data).insertionSort (· ≤ ·),
        (x.withMarks visited counter).deleted[idOf c]? =
          some (!decide (idOf c ∉ r.deleted)) := hdead
    have hcollect := collectResults_eq sp k (fun id => decide (id ∉ r.deleted)) _ hdead' [] hk
    rw [if_neg (by omega), hdescend, Option.bind_eq_bind, Option.bind_some, hsearch,
      Option.bind_eq_bind, Option.bind_some]
    dsimp only
    rw [hcollect, nearest_eq sp h, List.map_map]
    rfl

/-- A strictly monotone function of the distance leaves the order alone. -/
theorem nearest_map [LinearOrder R] {f : D → R} (hf : StrictMono f) (dist : V → D) (k : Nat) :
    (r.nearest dist k).map (fun p => (f p.1, p.2)) = r.nearest (fun v => f (dist v)) k := by
  have hsort := List.map_insertionSort (fun a b : D ×ₗ Nat => a ≤ b)
    (fun a b : R ×ₗ Nat => a ≤ b) (fun c => toLex (f (ofLex c).1, (ofLex c).2))
    ((r.points.zipIdx.filter fun p => p.2 ∉ r.deleted).map fun p => toLex (dist p.1, p.2))
    (fun a _ b _ => by
      rw [Prod.Lex.le_iff, Prod.Lex.le_iff]
      simp only [ofLex_toLex, hf.lt_iff_lt, hf.injective.eq_iff])
  rw [List.map_map] at hsort
  unfold Reference.nearest
  change _ = (((((r.points.zipIdx.filter fun p => p.2 ∉ r.deleted).map
    ((fun c : D ×ₗ Nat => (toLex (f (ofLex c).1, (ofLex c).2) : R ×ₗ Nat)) ∘
      fun p => toLex (dist p.1, p.2)))).insertionSort (· ≤ ·)).take k).map ofLex
  rw [← hsort, ← List.map_take, List.map_map, List.map_map]
  rfl

/-- For every sequence of calls with so few points that no list of layer 0 can pass its
cap, a search that may keep every node returns the points that are not deleted, ordered
by distance and id and cut to the first `k`. -/
theorem run_searchKnn_exact [LinearOrder R] (M efConstruction : Nat) (calls : List (Call V))
    (hsmall : (Reference.after calls).points.length ≤ 2 * max M 2 % wordBound + 1)
    (hids : (Reference.after calls).points.length < wordBound32) (query : V) {k ef : Nat}
    (hk : 1 ≤ k) (hef : (Reference.after calls).points.length ≤ max k ef) :
    ∃ x y result, Transition.run (call sp) (new M efConstruction) calls = some x ∧
      searchKnn sp x query k ef = some (y, result) ∧
      result = ((Reference.after calls).nearest (sp.distanceSq query) k).map
        (fun p => (sp.sqrt p.1, p.2)) ∧
      (StrictMono sp.sqrt →
        result = (Reference.after calls).nearest (fun v => sp.sqrt (sp.distanceSq query v)) k) := by
  obtain ⟨x, hrun, hx, _⟩ := run_mirrors sp M efConstruction calls hsmall
  obtain ⟨y, hsearch⟩ := searchKnn_eq_nearest sp hx hids query hk hef
  exact ⟨x, y, _, hrun, hsearch, rfl, fun hsqrt => nearest_map hsqrt _ k⟩

end Exact

/-- Points on a line. -/
def line : Space Int Int Int where
  distanceSq a b := (a - b) * (a - b)
  sqrt := id
  zero := 0
  randomLevel _ := 0

theorem run_searchKnn_exact_three :
    ∃ x y result,
      Transition.run (call line) (new 16 200)
        [.addPoint 5, .addPoint 3, .markDeleted 0, .addPoint 9] = some x ∧
      searchKnn line x 4 2 64 = some (y, result) ∧
      result = (Reference.after [.addPoint 5, .addPoint 3, .markDeleted 0, .addPoint 9]).nearest
        (fun v => line.sqrt (line.distanceSq 4 v)) 2 := by
  obtain ⟨x, y, result, hrun, hsearch, -, hnearest⟩ := run_searchKnn_exact line 16 200
    [.addPoint 5, .addPoint 3, .markDeleted 0, .addPoint 9] (by decide) (by decide) 4
    (show 1 ≤ 2 by decide) (show 3 ≤ max 2 64 by decide)
  exact ⟨x, y, result, hrun, hsearch, hnearest strictMono_id⟩

/-- With `M` half the bound of `size_t` the cap of layer 0 wraps to zero: the back link to
the second of two points is pruned at once, and the search misses it. -/
theorem searchKnn_wrapped_cap :
    (Reference.after [Call.addPoint (0 : Int), .addPoint 1]).points.length ≤
        2 * max 9223372036854775808 2 + 1 ∧
      (Reference.after [Call.addPoint (0 : Int), .addPoint 1]).points.length ≤ max 2 64 ∧
      ((Transition.run (call line) (new 9223372036854775808 200)
        [.addPoint 0, .addPoint 1]).bind fun x => (searchKnn line x 0 2 64).map Prod.snd) =
          some [(0, 0)] ∧
      ((Reference.after [.addPoint 0, .addPoint 1]).nearest (line.distanceSq 0) 2).map
        (fun p => (line.sqrt p.1, p.2)) = [(0, 0), (1, 1)] := by
  decide

end HNSWIndex

end LogMind
