import LogMind.Library.Transition
import LogMind.Vector.HNSWSearch

/-!
# The graph stays well formed

`Linked x n` says that the arrays of the index have one place for each of `n`
nodes and that every neighbour list is one a walk may follow. It also holds while
the newest node is linked in some layers only: the lists of a layer do not mention
it before its turn. `WellFormed` adds the entry point.
-/

namespace LogMind

open Checked Loop

namespace HNSWIndex

variable {V D R : Type}

def levelOf (x : HNSWIndex V) (id : Nat) : Nat := x.levels[id]?.getD 0

/-- The bound of the lists of a layer. -/
def listBound (M layer : Nat) : Nat := if layer = 0 then 2 * M else M

structure Linked (x : HNSWIndex V) (n : Nat) : Prop where
  data_length : x.data.length = n
  links_length : x.links.length = n
  levels_length : x.levels.length = n
  deleted_length : x.deleted.length = n
  visited_length : x.visited.length = n
  /-- No mark is newer than the last stamp. -/
  marks : ∀ m ∈ x.visited, m ≤ x.visitCounter
  counter_lt : x.visitCounter < wordBound32
  /-- A node has a list in each layer up to its level. -/
  layers : ∀ id layers, x.links[id]? = some layers → layers.length = x.levelOf id + 1
  /-- A neighbour is another node of at least that level. -/
  points : ∀ id lc nbs, x.neighbors id lc = some nbs →
    ∀ nb ∈ nbs, nb < n ∧ nb ≠ id ∧ lc ≤ x.levelOf nb
  nodup : ∀ id lc nbs, x.neighbors id lc = some nbs → nbs.Nodup
  short : ∀ id lc nbs, x.neighbors id lc = some nbs → nbs.length ≤ listBound x.M lc

structure WellFormed (x : HNSWIndex V) : Prop where
  linked : x.Linked x.count
  M_ge : 2 ≤ x.M
  M_max0_le : x.M_max0 ≤ 2 * x.M
  /-- The entry point is a node of the highest level. -/
  entry : 0 < x.count → x.entry < x.count ∧ x.levelOf x.entry = x.maxLevel ∧
    ∀ id < x.count, x.levelOf id ≤ x.maxLevel

/-- A node of a layer other than `id`. -/
def OnLayer (x : HNSWIndex V) (n lc id c : Nat) : Prop :=
  c < n ∧ lc ≤ x.levelOf c ∧ c ≠ id

section Lists

variable {x : HNSWIndex V} {n id lc : Nat}

theorem neighbors_eq_some {nbs : List Nat} :
    x.neighbors id lc = some nbs ↔
      ∃ layers, x.links[id]? = some layers ∧ layers[lc]? = some nbs :=
  Option.bind_eq_some_iff

theorem Linked.exists_neighbors (h : x.Linked n) (hid : id < n) (hlc : lc ≤ x.levelOf id) :
    ∃ nbs, x.neighbors id lc = some nbs := by
  have hlt : id < x.links.length := by rw [h.links_length]; exact hid
  have hget : x.links[id]? = some x.links[id] := List.getElem?_eq_getElem hlt
  have hlayers := h.layers id _ hget
  exact ⟨_, neighbors_eq_some.mpr ⟨_, hget, List.getElem?_eq_getElem (by omega)⟩⟩

theorem Linked.le_of_neighbors (h : x.Linked n) {nbs : List Nat}
    (hnbs : x.neighbors id lc = some nbs) : id < n ∧ lc ≤ x.levelOf id := by
  obtain ⟨layers, hlayers, hlist⟩ := neighbors_eq_some.mp hnbs
  have hlength := h.layers id layers hlayers
  have hid := (List.getElem?_eq_some_iff.mp hlayers).1
  have hlc := (List.getElem?_eq_some_iff.mp hlist).1
  rw [h.links_length] at hid
  exact ⟨hid, by omega⟩

/-- A walk in a layer stays among its nodes, and off the node that it skips or that no
list mentions. -/
theorem Linked.walkable (h : x.Linked n) {skip : Nat → Prop}
    (hskip : ∀ a nbs, x.neighbors a lc = some nbs → id ∈ nbs → skip id) :
    Walkable x n lc skip (x.OnLayer n lc id) := by
  intro a ha
  obtain ⟨nbs, hnbs⟩ := h.exists_neighbors ha.1 ha.2.1
  refine ⟨ha.1, nbs, hnbs, ?_⟩
  intro nb hnb hne
  obtain ⟨hlt, _, hle⟩ := h.points a lc nbs hnbs nb hnb
  refine ⟨hlt, hle, ?_⟩
  rintro rfl
  exact hne (hskip a nbs hnbs hnb)

/-- The marks of a search are not part of the graph. -/
theorem Linked.with_visited (h : x.Linked n) {visited : List Nat} {counter : Nat}
    (hvisited : visited.length = n) (hmarks : ∀ m ∈ visited, m ≤ counter)
    (hcounter : counter < wordBound32) : (x.withMarks visited counter).Linked n :=
  { h with visited_length := hvisited, marks := hmarks, counter_lt := hcounter }

/-- Writing a list changes that list. -/
theorem setNeighbors_spec {layers : List (List Nat)} (hlayers : x.links[id]? = some layers)
    (hlc : lc < layers.length) (list : List Nat) :
    x.setNeighbors id lc list =
        some (x.withLinks (x.links.set id (layers.set lc list))) ∧
      ∀ a l, (x.withLinks (x.links.set id (layers.set lc list))).neighbors a l =
        if a = id ∧ l = lc then some list else x.neighbors a l := by
  have hid := (List.getElem?_eq_some_iff.mp hlayers).1
  refine ⟨by rw [setNeighbors, hlayers]; simp [setAt_of_lt hlc], ?_⟩
  intro a l
  show ((x.links.set id (layers.set lc list))[a]?.bind fun layers => layers[l]?) =
    if a = id ∧ l = lc then some list else x.links[a]?.bind fun layers => layers[l]?
  by_cases ha : a = id
  · subst ha
    rw [List.getElem?_set_self hid, hlayers, Option.bind_some, Option.bind_some]
    by_cases hl : l = lc
    · subst hl
      rw [List.getElem?_set_self hlc, if_pos ⟨rfl, rfl⟩]
    · rw [List.getElem?_set_ne (Ne.symm hl), if_neg fun h => hl h.2]
  · rw [List.getElem?_set_ne (Ne.symm ha), if_neg fun h => ha h.1]

/-- Writing a list that a walk may follow keeps the graph linked. -/
theorem Linked.setNeighbors (h : x.Linked n) (hid : id < n) (hlc : lc ≤ x.levelOf id)
    {list : List Nat} (hpoints : ∀ nb ∈ list, nb < n ∧ nb ≠ id ∧ lc ≤ x.levelOf nb)
    (hnodup : list.Nodup) (hshort : list.length ≤ listBound x.M lc) :
    ∃ links, x.setNeighbors id lc list = some (x.withLinks links) ∧
      (x.withLinks links).Linked n ∧
      ∀ a l, (x.withLinks links).neighbors a l =
        if a = id ∧ l = lc then some list else x.neighbors a l := by
  have hlt : id < x.links.length := by rw [h.links_length]; exact hid
  have hget : x.links[id]? = some x.links[id] := List.getElem?_eq_getElem hlt
  have hlayers := h.layers id _ hget
  obtain ⟨hset, hneighbors⟩ := setNeighbors_spec hget (show lc < x.links[id].length by omega) list
  refine ⟨_, hset, ?_, hneighbors⟩
  have hrule : ∀ (good : Nat → Nat → List Nat → Prop), good id lc list →
      (∀ a l nbs, x.neighbors a l = some nbs → good a l nbs) → ∀ a l nbs,
      (x.withLinks (x.links.set id (x.links[id].set lc list))).neighbors a l = some nbs →
      good a l nbs := by
    intro good hnew hold a l nbs hnbs
    rw [hneighbors] at hnbs
    split at hnbs
    · rename_i heq
      obtain ⟨rfl, rfl⟩ := heq
      exact Option.some.inj hnbs ▸ hnew
    · exact hold a l nbs hnbs
  refine ⟨h.data_length, (List.length_set).trans h.links_length, h.levels_length,
    h.deleted_length, h.visited_length, h.marks, h.counter_lt, ?_, ?_, ?_, ?_⟩
  · intro a layers ha
    change (x.links.set id (x.links[id].set lc list))[a]? = some layers at ha
    by_cases hne : a = id
    · subst hne
      rw [List.getElem?_set_self hlt] at ha
      rw [← Option.some.inj ha, List.length_set, hlayers]
      rfl
    · rw [List.getElem?_set_ne (Ne.symm hne)] at ha
      exact h.layers a layers ha
  · exact hrule (fun a l nbs => ∀ nb ∈ nbs, nb < n ∧ nb ≠ a ∧ l ≤ x.levelOf nb) hpoints h.points
  · exact hrule (fun _ _ nbs => nbs.Nodup) hnodup h.nodup
  · exact hrule (fun _ l nbs => nbs.length ≤ listBound x.M l) hshort h.short

/-- The distances of a list of nodes. -/
theorem mapM_distance (sp : Space V D R) (base : V) {links : List Nat}
    (hn : x.data.length = n) (hlinks : ∀ nb ∈ links, nb < n) :
    ∃ scratch : List (Cand D),
      (links.mapM fun id => (distance sp x base id).map fun d => toLex (d, id)) =
        some scratch ∧ scratch.map idOf = links := by
  induction links with
  | nil => exact ⟨[], rfl, rfl⟩
  | cons nb links ih =>
      obtain ⟨scratch, hscratch, hids⟩ := ih fun a ha => hlinks a (List.mem_cons_of_mem _ ha)
      obtain ⟨d, hd⟩ : ∃ d, distance sp x base nb = some d :=
        distance_of_lt sp hn (hlinks nb List.mem_cons_self)
      refine ⟨toLex (d, nb) :: scratch, ?_, ?_⟩
      · rw [List.mapM_cons, hd, hscratch]
        rfl
      · rw [List.map_cons, hids]
        rfl

/-- What is left of a list is a part of it. -/
theorem shrinkLinks_spec [LinearOrder D] (sp : Space V D R) {owner cap : Nat} {links : List Nat}
    (hn : x.data.length = n) (howner : owner < n) (hlinks : ∀ nb ∈ links, nb < n)
    (hcap : cap ≤ links.length) :
    ∃ out, shrinkLinks sp x owner links cap = some out ∧ out.length = cap ∧
      (∀ nb ∈ out, nb ∈ links) ∧ (links.Nodup → out.Nodup) := by
  have hlt : owner < x.data.length := by omega
  have hget : x.data[owner]? = some x.data[owner] := List.getElem?_eq_getElem hlt
  obtain ⟨scratch, hscratch, hids⟩ := mapM_distance sp x.data[owner] hn hlinks
  have hperm : ((scratch.insertionSort (· ≤ ·)).map idOf).Perm links :=
    hids ▸ (List.perm_insertionSort _ scratch).map idOf
  have hsub : (((scratch.insertionSort (· ≤ ·)).take cap).map idOf).Sublist
      ((scratch.insertionSort (· ≤ ·)).map idOf) := (List.take_sublist _ _).map idOf
  have hlen : scratch.length = links.length := by rw [← hids, List.length_map]
  refine ⟨((scratch.insertionSort (· ≤ ·)).take cap).map idOf, ?_, ?_, ?_, ?_⟩
  · rw [shrinkLinks, hget, Option.bind_eq_bind, Option.bind_some, hscratch,
      Option.bind_eq_bind, Option.bind_some, if_pos (by omega)]
    rfl
  · rw [List.length_map, List.length_take, List.length_insertionSort, hlen]
    exact Nat.min_eq_left hcap
  · exact fun nb hnb => hperm.mem_iff.mp (hsub.subset hnb)
  · exact fun hnodup => (hperm.nodup_iff.mpr hnodup).sublist hsub

theorem takeNearest_eq (m : Nat) (candidates : List (Cand D)) (out : List Nat)
    (hout : out.length < m) :
    takeNearest m candidates out = out ++ (candidates.map idOf).take (m - out.length) := by
  induction candidates generalizing out with
  | nil => simp [takeNearest]
  | cons c candidates ih =>
      obtain ⟨r, hr⟩ : ∃ r, m - out.length = r + 1 := ⟨m - out.length - 1, by omega⟩
      rw [takeNearest, List.map_cons, hr, List.take_succ_cons]
      have hlen : (out ++ [(ofLex c).2]).length = out.length + 1 := by simp
      by_cases hfull : m ≤ (out ++ [(ofLex c).2]).length
      · obtain rfl : r = 0 := by omega
        rw [if_pos hfull, List.take_zero]
        rfl
      · rw [if_neg hfull, ih _ (by omega), hlen, List.append_assoc]
        have hrest : m - (out.length + 1) = r := by omega
        rw [hrest]
        rfl

end Lists

section Connect

variable [LinearOrder D] (sp : Space V D R) {x : HNSWIndex V} {n id lc cap : Nat}

/-- A list behind the back link to `id`: nothing else is new, and nothing is lost while
it fits. -/
def Extended (id cap : Nat) (nbs list : List Nat) : Prop :=
  (∀ a ∈ list, a ∈ nbs ∨ a = id) ∧ (nbs.length + 1 ≤ cap → list = nbs ++ [id])

theorem linkBack_spec (h : x.Linked n) (hid : id < n) (hidlc : lc ≤ x.levelOf id)
    (hcap : cap ≤ listBound x.M lc) {nb : Nat} (hnb : x.OnLayer n lc id nb) {nbs : List Nat}
    (hnbs : x.neighbors nb lc = some nbs) (hfresh : id ∉ nbs) :
    ∃ links list, linkBack sp id lc cap x nb = some (x.withLinks links) ∧
      (x.withLinks links).Linked n ∧ Extended id cap nbs list ∧
      ∀ a l, (x.withLinks links).neighbors a l =
        if a = nb ∧ l = lc then some list else x.neighbors a l := by
  obtain ⟨hlt, hle, hne⟩ := hnb
  have hback : ∀ a ∈ nbs ++ [id], a < n ∧ a ≠ nb ∧ lc ≤ x.levelOf a := by
    intro a ha
    rcases List.mem_append.mp ha with ha | ha
    · exact h.points nb lc nbs hnbs a ha
    · rw [List.mem_singleton.mp ha]
      exact ⟨hid, hne.symm, hidlc⟩
  have hnodup : (nbs ++ [id]).Nodup :=
    List.nodup_append.mpr ⟨h.nodup nb lc nbs hnbs, List.nodup_singleton id, by
      intro a ha b hb hab
      rw [hab, List.mem_singleton.mp hb] at ha
      exact hfresh ha⟩
  obtain ⟨list, hlist, hsub, hlistnodup, hshort, hext⟩ : ∃ list,
      (if cap < (nbs ++ [id]).length then shrinkLinks sp x nb (nbs ++ [id]) cap
        else some (nbs ++ [id])) = some list ∧ (∀ a ∈ list, a ∈ nbs ++ [id]) ∧ list.Nodup ∧
      list.length ≤ cap ∧ (nbs.length + 1 ≤ cap → list = nbs ++ [id]) := by
    split
    · rename_i hfull
      obtain ⟨out, hout, hlen, hsub, hkeep⟩ := shrinkLinks_spec sp h.data_length hlt
        (fun a ha => (hback a ha).1) (Nat.le_of_lt hfull)
      refine ⟨out, hout, hsub, hkeep hnodup, hlen.le, ?_⟩
      intro hfits
      rw [List.length_append, List.length_singleton] at hfull
      omega
    · rename_i hfits
      exact ⟨_, rfl, fun _ ha => ha, hnodup, by omega, fun _ => rfl⟩
  obtain ⟨links, hset, hlinked, hneighbors⟩ := h.setNeighbors hlt hle
    (fun a ha => hback a (hsub a ha)) hlistnodup (hshort.trans hcap)
  refine ⟨links, list, ?_, hlinked, ⟨?_, hext⟩, hneighbors⟩
  · rw [linkBack, hnbs, Option.bind_eq_bind, Option.bind_some]
    dsimp only
    rw [hlist, Option.bind_some]
    exact hset
  · intro a ha
    rcases List.mem_append.mp (hsub a ha) with ha | ha
    · exact Or.inl ha
    · exact Or.inr (List.mem_singleton.mp ha)

/-- In the middle of the loop over `nearest`: `rest` are the nodes whose lists are still
as they were. -/
structure BackLinking (x : HNSWIndex V) (n id lc cap : Nat) (nearest rest : List Nat)
    (y : HNSWIndex V) : Prop where
  eq : ∃ links, y = (x.withLinks links)
  linked : y.Linked n
  nodup : rest.Nodup
  sub : ∀ a ∈ rest, a ∈ nearest
  same : ∀ a l, (l = lc → a ∉ nearest ∨ a ∈ rest) → y.neighbors a l = x.neighbors a l
  done : ∀ a ∈ nearest, a ∉ rest → ∀ nbs, x.neighbors a lc = some nbs →
    ∃ list, y.neighbors a lc = some list ∧ Extended id cap nbs list

theorem BackLinking.step {nearest : List Nat} (h : x.Linked n) (hid : id < n)
    (hidlc : lc ≤ x.levelOf id) (hcap : cap ≤ listBound x.M lc)
    (hnearest : ∀ nb ∈ nearest, x.OnLayer n lc id nb)
    (hfresh : ∀ a nbs, x.neighbors a lc = some nbs → a ∈ nearest → id ∉ nbs) (nb : Nat)
    (rest : List Nat) (y : HNSWIndex V) (hy : BackLinking x n id lc cap nearest (nb :: rest) y) :
    ∃ z, linkBack sp id lc cap y nb = some z ∧ BackLinking x n id lc cap nearest rest z := by
  obtain ⟨links, rfl⟩ := hy.eq
  obtain ⟨hnb, hrest⟩ := List.nodup_cons.mp hy.nodup
  have hmem : nb ∈ nearest := hy.sub nb List.mem_cons_self
  obtain ⟨nbs, hnbs⟩ := h.exists_neighbors (hnearest nb hmem).1 (hnearest nb hmem).2.1
  have hlist := hy.same nb lc fun _ => Or.inr List.mem_cons_self
  obtain ⟨links', list, hback, hlinked, hext, hneighbors⟩ :=
    linkBack_spec sp hy.linked hid hidlc hcap (hnearest nb hmem) (hlist.trans hnbs)
      (hfresh nb nbs hnbs hmem)
  refine ⟨_, hback, ⟨links', rfl⟩, hlinked, hrest,
    fun a ha => hy.sub a (List.mem_cons_of_mem _ ha), ?_, ?_⟩
  · intro a l hal
    have hne : ¬ (a = nb ∧ l = lc) := by
      rintro ⟨rfl, rfl⟩
      exact (hal rfl).elim (fun h => h hmem) hnb
    rw [hneighbors, if_neg hne]
    exact hy.same a l fun hl => (hal hl).imp_right (List.mem_cons_of_mem _)
  · intro a ha hnot nbs' hnbs'
    by_cases heq : a = nb
    · subst heq
      obtain rfl := Option.some.inj (hnbs.symm.trans hnbs')
      exact ⟨list, by rw [hneighbors, if_pos ⟨rfl, rfl⟩], hext⟩
    · obtain ⟨list', hlist', hext'⟩ := hy.done a ha
        (fun hmem => (List.mem_cons.mp hmem).elim heq hnot) nbs' hnbs'
      exact ⟨list', by rw [hneighbors, if_neg fun h => heq h.1, hlist'], hext'⟩

/-- The back links of a layer, one after the other. -/
theorem linkBacks_spec (h : x.Linked n) (hid : id < n) (hidlc : lc ≤ x.levelOf id)
    (hcap : cap ≤ listBound x.M lc) {nearest : List Nat} (hnodup : nearest.Nodup)
    (hnearest : ∀ nb ∈ nearest, x.OnLayer n lc id nb)
    (hfresh : ∀ a nbs, x.neighbors a lc = some nbs → a ∈ nearest → id ∉ nbs) :
    ∃ y, nearest.foldlM (linkBack sp id lc cap) x = some y ∧
      BackLinking x n id lc cap nearest [] y :=
  foldlM_spec (BackLinking x n id lc cap nearest)
    (BackLinking.step sp h hid hidlc hcap hnearest hfresh) nearest x
    ⟨⟨x.links, rfl⟩, h, hnodup, fun _ ha => ha, fun _ _ _ => rfl,
      fun _ ha hnot => absurd ha hnot⟩

/-- How a layer changes when `id` joins it. -/
def Joined (x : HNSWIndex V) (n id lc cap : Nat) (y : HNSWIndex V) : Prop :=
  ∃ nearest, nearest ≠ [] ∧ (∀ nb ∈ nearest, x.OnLayer n lc id nb) ∧
    y.neighbors id lc = some nearest ∧
    (∀ a, a ≠ id → a ∉ nearest → y.neighbors a lc = x.neighbors a lc) ∧
    ∀ a ∈ nearest, ∀ nbs, x.neighbors a lc = some nbs →
      ∃ list, y.neighbors a lc = some list ∧ Extended id cap nbs list

/-- The cap of a layer. -/
def layerCap (x : HNSWIndex V) (lc : Nat) : Nat := if lc = 0 then x.M_max0 else x.M

theorem connectLayer_spec (h : x.Linked n) (hM : 2 ≤ x.M) (hM0 : x.M_max0 ≤ 2 * x.M)
    (hid : id < n) (hidlc : lc ≤ x.levelOf id)
    (hfresh : ∀ a nbs, x.neighbors a lc = some nbs → id ∉ nbs) {ep : Nat}
    (hep : x.OnLayer n lc id ep) (q : V) :
    ∃ links visited counter ep',
      connectLayer sp id q lc x ep =
        some ((x.withMarks visited counter).withLinks links, ep') ∧
      x.OnLayer n lc id ep' ∧
      ((x.withMarks visited counter).withLinks links).Linked n ∧
      (∀ a l, l ≠ lc →
        ((x.withMarks visited counter).withLinks links).neighbors a l = x.neighbors a l) ∧
      Joined x n id lc (x.layerCap lc) ((x.withMarks visited counter).withLinks links) := by
  have hwalk : Walkable x n lc (fun nb => nb = id) (x.OnLayer n lc id) :=
    h.walkable fun _ _ _ _ => rfl
  obtain ⟨visited, counter, candidates, hsearch, hvisited, hmarks, hcounter, hne, hon, hnodup⟩ :=
    searchLayer_spec sp q h.data_length h.visited_length h.marks h.counter_lt hwalk
      (fun a nbs hnbs nb hnb => (h.points a lc nbs hnbs nb hnb).1) hep x.efConstruction
  have hnearest : takeNearest (x.withMarks visited counter).M candidates [] =
      (candidates.map idOf).take x.M :=
    takeNearest_eq x.M candidates [] (by simp; omega)
  have hmem : ∀ nb ∈ (candidates.map idOf).take x.M, x.OnLayer n lc id nb := by
    intro nb hnb
    obtain ⟨c, hc, rfl⟩ := List.mem_map.mp (List.mem_of_mem_take hnb)
    exact hon c hc
  have hshort : ((candidates.map idOf).take x.M).length ≤ listBound x.M lc := by
    have hle : ((candidates.map idOf).take x.M).length ≤ x.M := by
      rw [List.length_take]
      exact Nat.min_le_left _ _
    unfold listBound
    split <;> omega
  have hcap : x.layerCap lc ≤ listBound x.M lc := by
    unfold layerCap listBound
    split <;> omega
  obtain ⟨links, hset, hlinked, hneighbors⟩ :=
    (h.with_visited hvisited hmarks hcounter).setNeighbors hid hidlc
      (fun nb hnb => ⟨(hmem nb hnb).1, (hmem nb hnb).2.2, (hmem nb hnb).2.1⟩)
      (hnodup.sublist (List.take_sublist _ _)) hshort
  obtain ⟨y, hfold, hy⟩ := linkBacks_spec sp hlinked hid hidlc hcap
    (hnodup.sublist (List.take_sublist x.M _)) hmem (fun a nbs hnbs ha => by
      rw [hneighbors, if_neg fun h => (hmem a ha).2.2 h.1] at hnbs
      exact hfresh a nbs hnbs)
  obtain ⟨links', rfl⟩ := hy.eq
  have hother : ∀ a l, (a = id → l ≠ lc) →
      ((x.withMarks visited counter).withLinks links).neighbors a l =
        x.neighbors a l := by
    intro a l hal
    exact (hneighbors a l).trans (if_neg fun h => hal h.1 h.2)
  obtain ⟨c, rest, rfl⟩ := List.exists_cons_of_ne_nil hne
  refine ⟨links', visited, counter, idOf c, ?_, hon c List.mem_cons_self, hy.linked, ?_, ?_⟩
  · rw [connectLayer, hsearch, Option.bind_eq_bind, Option.bind_some]
    dsimp only
    rw [hnearest, hset, Option.bind_eq_bind, Option.bind_some]
    exact Option.bind_eq_some_iff.mpr ⟨_, hfold, rfl⟩
  · intro a l hl
    exact (hy.same a l fun h => absurd h hl).trans (hother a l fun _ => hl)
  · refine ⟨((c :: rest).map idOf).take x.M, ?_, hmem, ?_, ?_, ?_⟩
    · obtain ⟨m, hm⟩ : ∃ m, x.M = m + 1 := ⟨x.M - 1, by omega⟩
      rw [hm, List.map_cons, List.take_succ_cons]
      exact List.cons_ne_nil _ _
    · exact (hy.same id lc fun _ => Or.inl fun hid => (hmem id hid).2.2 rfl).trans
        ((hneighbors id lc).trans (if_pos ⟨rfl, rfl⟩))
    · intro a ha hnot
      exact (hy.same a lc fun _ => Or.inl hnot).trans (hother a lc fun h => absurd h ha)
    · intro a ha nbs hnbs
      exact hy.done a ha List.not_mem_nil nbs
        ((hother a lc fun h => absurd h (hmem a ha).2.2).trans hnbs)

/-- The layers from the top down: the lower ones do not mention `id` before its turn. -/
theorem connect_spec (q : V) (k : Nat) (h : x.Linked n) (hM : 2 ≤ x.M)
    (hM0 : x.M_max0 ≤ 2 * x.M) (hid : id < n) (hk : k ≤ x.levelOf id + 1)
    (hfresh : ∀ a l nbs, l < k → x.neighbors a l = some nbs → id ∉ nbs) {ep : Nat}
    (hep : ∀ l, l + 1 = k → x.OnLayer n l id ep) :
    ∃ links visited counter,
      connect sp id q k x ep = some ((x.withMarks visited counter).withLinks links) ∧
      ((x.withMarks visited counter).withLinks links).Linked n ∧
      (0 < k →
        Joined x n id 0 x.M_max0 ((x.withMarks visited counter).withLinks links)) := by
  induction k generalizing x ep with
  | zero => exact ⟨x.links, x.visited, x.visitCounter, rfl, h, fun h0 => absurd h0 (by omega)⟩
  | succ lc ih =>
      obtain ⟨links, visited, counter, ep', hlayer, hep', hlinked, hothers, hjoined⟩ :=
        connectLayer_spec sp h hM hM0 hid (by omega)
          (fun a nbs => hfresh a lc nbs (Nat.lt_succ_self lc)) (hep lc rfl) q
      obtain ⟨links', visited', counter', hconnect, hlinked', hjoined'⟩ :=
        ih hlinked hM hM0 (show lc ≤ x.levelOf id + 1 by omega)
          (fun a l nbs hl hnbs => hfresh a l nbs (by omega) ((hothers a l (by omega)) ▸ hnbs))
          (fun l hl => (⟨hep'.1, by have := hep'.2.1; omega, hep'.2.2⟩ : x.OnLayer n l id ep'))
      refine ⟨links', visited', counter', ?_, hlinked', fun _ => ?_⟩
      · rw [connect, hlayer]
        exact hconnect
      · cases lc with
        | zero =>
            rw [connect] at hconnect
            have heq : (x.withMarks visited counter).withLinks links =
                (x.withMarks visited' counter').withLinks links' := Option.some.inj hconnect
            rw [← heq]
            exact hjoined
        | succ lc =>
            obtain ⟨nearest, hne, hon, hlist, hsame, hback⟩ := hjoined' (by omega)
            refine ⟨nearest, hne, hon, hlist, ?_, ?_⟩
            · intro a ha hnot
              exact (hsame a ha hnot).trans (hothers a 0 (by omega))
            · intro a ha nbs hnbs
              exact hback a ha nbs ((hothers a 0 (by omega)).trans hnbs)

/-- The descent stays off `id` while no list mentions it. -/
theorem descend_spec (h : x.Linked n) (q : V) (level : Nat)
    (hfresh : ∀ a l nbs, x.neighbors a l = some nbs → id ∉ nbs) (lc : Nat) {ep : Nat}
    (hep : x.OnLayer n lc id ep) :
    ∃ ep', descend sp x q level lc ep = some ep' ∧ x.OnLayer n (min level lc) id ep' := by
  induction lc generalizing ep with
  | zero => exact ⟨ep, rfl, by rw [Nat.min_zero]; exact hep⟩
  | succ lc ih =>
      rw [descend]
      by_cases hlevel : level < lc + 1
      · have hwalk : Walkable x n (lc + 1) (fun _ => False) (x.OnLayer n (lc + 1) id) :=
          h.walkable fun a nbs hnbs hmem => hfresh a _ nbs hnbs hmem
        obtain ⟨r, hgreedy, hdescended⟩ := greedyDescend_spec sp q h.data_length hwalk hep
        have hr := hdescended.ok
        obtain ⟨ep', hdescend, hep'⟩ :=
          ih (⟨hr.1, by have := hr.2.1; omega, hr.2.2⟩ : x.OnLayer n lc id r)
        refine ⟨ep', ?_, ?_⟩
        · rw [if_pos hlevel, hgreedy]
          exact hdescend
        · rw [Nat.min_eq_left (by omega)] at hep' ⊢
          exact hep'
      · rw [if_neg hlevel]
        exact ⟨ep, rfl, hep.1, (Nat.min_le_right _ _).trans hep.2.1, hep.2.2⟩

end Connect

section Calls

variable (sp : Space V D R) {x : HNSWIndex V} {n : Nat}

/-- The index with one more node of a level and no link to it. -/
def grown (x : HNSWIndex V) (vec : V) (level : Nat) : HNSWIndex V :=
  { x with
    data := x.data ++ [vec]
    links := x.links ++ [List.replicate (level + 1) []]
    levels := x.levels ++ [level]
    deleted := x.deleted ++ [false]
    visited := x.visited ++ [0]
    drawn := x.drawn + 1 }

theorem set_length_append {α : Type} {xs : List α} {a b : α} (h : xs.length = n) :
    (xs ++ [a]).set n b = xs ++ [b] := by
  subst h
  simp

theorem allocate_eq (h : x.Linked n) (vec : V) :
    allocate sp x n vec = some (x.grown vec (sp.randomLevel x.drawn)) := by
  have hgrow : ∀ {α : Type} (fill : α) (xs : List α), xs.length = n →
      resize (n + 1) fill xs = xs ++ [fill] := by
    intro α fill xs hlen
    rw [← hlen, resize_succ]
  have hset : ∀ {α : Type} (fill a : α) (xs : List α), xs.length = n →
      setAt (xs ++ [fill]) n a = some (xs ++ [a]) := by
    intro α fill a xs hlen
    rw [setAt_of_lt (by simp [hlen]), set_length_append hlen]
  rw [allocate, ensureCapacity]
  dsimp only
  rw [if_neg (by rw [h.levels_length]; omega)]
  simp only [hgrow _ _ h.data_length, hgrow _ _ h.links_length, hgrow _ _ h.levels_length,
    hgrow _ _ h.deleted_length, hgrow _ _ h.visited_length, hset _ _ _ h.data_length,
    hset _ _ _ h.links_length, hset _ _ _ h.levels_length, hset _ _ _ h.deleted_length,
    Option.bind_eq_bind, Option.bind_some]
  rfl

theorem grown_levelOf_of_lt (hlen : x.levels.length = n) (vec : V) (level : Nat) {id : Nat}
    (hid : id < n) : (x.grown vec level).levelOf id = x.levelOf id := by
  show (x.levels ++ [level])[id]?.getD 0 = x.levels[id]?.getD 0
  rw [List.getElem?_append_left (by omega)]

theorem grown_levelOf_self (hlen : x.levels.length = n) (vec : V) (level : Nat) :
    (x.grown vec level).levelOf n = level := by
  show (x.levels ++ [level])[n]?.getD 0 = level
  subst hlen
  simp

/-- The lists of the other nodes are as before, and the new one has empty lists. -/
theorem grown_neighbors (h : x.Linked n) (vec : V) (level : Nat) {id lc : Nat} {nbs : List Nat}
    (hnbs : (x.grown vec level).neighbors id lc = some nbs) :
    x.neighbors id lc = some nbs ∨ (id = n ∧ nbs = []) := by
  obtain ⟨layers, hlayers, hlist⟩ := neighbors_eq_some.mp hnbs
  change (x.links ++ [List.replicate (level + 1) []])[id]? = some layers at hlayers
  by_cases hid : id < n
  · rw [List.getElem?_append_left (by rw [h.links_length]; exact hid)] at hlayers
    exact Or.inl (neighbors_eq_some.mpr ⟨layers, hlayers, hlist⟩)
  · rw [List.getElem?_append_right (by rw [h.links_length]; omega), h.links_length,
      List.getElem?_singleton] at hlayers
    split at hlayers
    · rename_i heq
      rw [← Option.some.inj hlayers, List.getElem?_replicate] at hlist
      split at hlist
      · exact Or.inr ⟨by omega, (Option.some.inj hlist).symm⟩
      · exact absurd hlist (by simp)
    · exact absurd hlayers (by simp)

theorem Linked.grown (h : x.Linked n) (vec : V) (level : Nat) :
    (x.grown vec level).Linked (n + 1) := by
  have hlevel : ∀ id < n, (x.grown vec level).levelOf id = x.levelOf id :=
    fun id hid => grown_levelOf_of_lt h.levels_length vec level hid
  refine ⟨by simp [HNSWIndex.grown, h.data_length], by simp [HNSWIndex.grown, h.links_length],
    by simp [HNSWIndex.grown, h.levels_length], by simp [HNSWIndex.grown, h.deleted_length],
    by simp [HNSWIndex.grown, h.visited_length], ?_, h.counter_lt, ?_, ?_, ?_, ?_⟩
  · intro m hm
    rcases List.mem_append.mp hm with hm | hm
    · exact h.marks m hm
    · rw [List.mem_singleton.mp hm]
      exact Nat.zero_le _
  · intro id layers hlayers
    change (x.links ++ [List.replicate (level + 1) []])[id]? = some layers at hlayers
    by_cases hid : id < n
    · rw [List.getElem?_append_left (by rw [h.links_length]; exact hid)] at hlayers
      rw [hlevel id hid]
      exact h.layers id layers hlayers
    · have hlt := (List.getElem?_eq_some_iff.mp hlayers).1
      rw [List.length_append, h.links_length, List.length_singleton] at hlt
      obtain rfl : id = n := by omega
      rw [List.getElem?_append_right (by rw [h.links_length]), h.links_length, Nat.sub_self,
        List.getElem?_cons_zero] at hlayers
      rw [← Option.some.inj hlayers, List.length_replicate, grown_levelOf_self h.levels_length]
  · intro id lc nbs hnbs nb hnb
    rcases grown_neighbors h vec level hnbs with hold | ⟨rfl, rfl⟩
    · obtain ⟨hlt, hne, hle⟩ := h.points id lc nbs hold nb hnb
      exact ⟨by omega, hne, by rw [hlevel nb hlt]; exact hle⟩
    · exact absurd hnb List.not_mem_nil
  · intro id lc nbs hnbs
    rcases grown_neighbors h vec level hnbs with hold | ⟨rfl, rfl⟩
    · exact h.nodup id lc nbs hold
    · exact List.nodup_nil
  · intro id lc nbs hnbs
    rcases grown_neighbors h vec level hnbs with hold | ⟨rfl, rfl⟩
    · exact h.short id lc nbs hold
    · exact Nat.zero_le _

/-- The index behind `++m_count`. -/
def counted (x : HNSWIndex V) (entry maxLevel : Nat) : HNSWIndex V :=
  { x with entry := entry, maxLevel := maxLevel, count := x.count + 1 }

theorem Linked.counted (h : x.Linked n) (entry maxLevel : Nat) :
    (x.counted entry maxLevel).Linked n :=
  ⟨h.data_length, h.links_length, h.levels_length, h.deleted_length, h.visited_length, h.marks,
    h.counter_lt, h.layers, h.points, h.nodup, h.short⟩

/-- No list mentions the new node. -/
theorem grown_fresh (h : x.Linked n) (vec : V) (level : Nat) {a lc : Nat} {nbs : List Nat}
    (hnbs : (x.grown vec level).neighbors a lc = some nbs) : n ∉ nbs := by
  intro hmem
  rcases grown_neighbors h vec level hnbs with hold | ⟨_, rfl⟩
  · exact absurd (h.points a lc nbs hold n hmem).1 (by omega)
  · exact List.not_mem_nil hmem

variable [LinearOrder D]

/-- Linking the newest node, and how layer 0 changes with it. -/
theorem link_spec (h : x.Linked (x.count + 1)) (hM : 2 ≤ x.M) (hM0 : x.M_max0 ≤ 2 * x.M)
    (hfresh : ∀ a l nbs, x.neighbors a l = some nbs → x.count ∉ nbs)
    (hentry : 0 < x.count → x.entry < x.count ∧ x.levelOf x.entry = x.maxLevel ∧
      ∀ id < x.count, x.levelOf id ≤ x.maxLevel) :
    ∃ links visited counter entry maxLevel,
      link sp x x.count (x.levelOf x.count) =
        some (((x.withMarks visited counter).withLinks links).counted entry maxLevel) ∧
      (((x.withMarks visited counter).withLinks links).counted entry maxLevel).WellFormed ∧
      (0 < x.count → Joined x (x.count + 1) x.count 0 x.M_max0
        (((x.withMarks visited counter).withLinks links).counted entry maxLevel)) := by
  by_cases hzero : x.count = 0
  · refine ⟨x.links, x.visited, x.visitCounter, x.count, x.levelOf x.count, ?_,
      ⟨h.counted _ _, hM, hM0, fun _ => ⟨Nat.lt_succ_self _, rfl, ?_⟩⟩, fun hpos => by omega⟩
    · have hone : x.count + 1 = 1 := by omega
      rw [link, if_pos hzero]
      show _ = some { x with
        entry := x.count, maxLevel := x.levelOf x.count, count := x.count + 1 }
      rw [hone]
    · intro id hid
      obtain rfl : id = x.count := by
        change id < x.count + 1 at hid
        omega
      exact le_rfl
  · obtain ⟨hlt, hlevel, hmax⟩ := hentry (by omega)
    obtain ⟨q, hq⟩ : ∃ q, x.data[x.count]? = some q :=
      ⟨_, List.getElem?_eq_getElem (by rw [h.data_length]; omega)⟩
    obtain ⟨ep, hdescend, hep⟩ := descend_spec sp h q (x.levelOf x.count) hfresh x.maxLevel
      (⟨by omega, hlevel.ge, by omega⟩ : x.OnLayer (x.count + 1) x.maxLevel x.count x.entry)
    obtain ⟨links, visited, counter, hconnect, hlinked, hjoined⟩ :=
      connect_spec sp q (min (x.levelOf x.count) x.maxLevel + 1) h hM hM0 (by omega)
        (by have := Nat.min_le_left (x.levelOf x.count) x.maxLevel; omega)
        (fun a l nbs _ => hfresh a l nbs) (fun l hl => by
          obtain rfl : l = min (x.levelOf x.count) x.maxLevel := by omega
          exact hep)
    have hall : ∀ m, x.maxLevel ≤ m → x.levelOf x.count ≤ m →
        ∀ id < x.count + 1, x.levelOf id ≤ m := by
      intro m hold hnew id hid
      by_cases hid' : id < x.count
      · exact (hmax id hid').trans hold
      · obtain rfl : id = x.count := by omega
        exact hnew
    have hlink : ∀ z, (if x.maxLevel < x.levelOf x.count then
          some (((x.withMarks visited counter).withLinks links).counted x.count
            (x.levelOf x.count))
        else some (((x.withMarks visited counter).withLinks links).counted x.entry x.maxLevel)) =
          some z → link sp x x.count (x.levelOf x.count) = some z := by
      intro z hz
      rw [link, if_neg hzero, hq, Option.bind_eq_bind, Option.bind_some, hdescend,
        Option.bind_eq_bind, Option.bind_some, hconnect, Option.bind_eq_bind, Option.bind_some]
      exact hz
    by_cases hnew : x.maxLevel < x.levelOf x.count
    · refine ⟨links, visited, counter, x.count, x.levelOf x.count, hlink _ (if_pos hnew),
        ⟨hlinked.counted _ _, hM, hM0, fun _ => ⟨Nat.lt_succ_self _, rfl, ?_⟩⟩,
        fun _ => hjoined (by omega)⟩
      exact hall _ hnew.le le_rfl
    · refine ⟨links, visited, counter, x.entry, x.maxLevel, hlink _ (if_neg hnew),
        ⟨hlinked.counted _ _, hM, hM0, fun _ => ⟨Nat.lt_succ_of_lt hlt, hlevel, ?_⟩⟩,
        fun _ => hjoined (by omega)⟩
      exact hall _ le_rfl (not_lt.mp hnew)

/-- A new point. -/
theorem addPoint_spec (h : x.WellFormed) (vec : V) :
    ∃ links visited counter entry maxLevel level,
      addPoint sp x x.count vec = some ((((x.grown vec level).withMarks visited counter).withLinks
        links).counted entry maxLevel) ∧
      ((((x.grown vec level).withMarks visited counter).withLinks links).counted entry
        maxLevel).WellFormed ∧
      (0 < x.count → Joined (x.grown vec level) (x.count + 1) x.count 0 x.M_max0
        ((((x.grown vec level).withMarks visited counter).withLinks links).counted entry
          maxLevel)) := by
  have hself := grown_levelOf_self h.linked.levels_length vec (sp.randomLevel x.drawn)
  have hother : ∀ id < x.count,
      (x.grown vec (sp.randomLevel x.drawn)).levelOf id = x.levelOf id :=
    fun id hid => grown_levelOf_of_lt h.linked.levels_length vec _ hid
  obtain ⟨links, visited, counter, entry, maxLevel, hlink, hwf, hjoined⟩ :=
    link_spec sp (h.linked.grown vec (sp.randomLevel x.drawn)) h.M_ge h.M_max0_le
      (fun a l nbs => grown_fresh h.linked vec _) (fun hpos => by
        obtain ⟨hlt, hlevel, hmax⟩ := h.entry hpos
        exact ⟨hlt, (hother _ hlt).trans hlevel,
          fun id hid => (hother id hid).le.trans (hmax id hid)⟩)
  refine ⟨links, visited, counter, entry, maxLevel, sp.randomLevel x.drawn, ?_, hwf, hjoined⟩
  have hlevel : (x.grown vec (sp.randomLevel x.drawn)).levels[x.count]? =
      some (sp.randomLevel x.drawn) := by
    show (x.levels ++ [sp.randomLevel x.drawn])[x.count]? = _
    rw [← h.linked.levels_length]
    simp
  rw [addPoint, allocate_eq sp h.linked, Option.bind_eq_bind, Option.bind_some, hlevel,
    Option.bind_eq_bind, Option.bind_some]
  have hlink' : link sp (x.grown vec (sp.randomLevel x.drawn)) x.count
      ((x.grown vec (sp.randomLevel x.drawn)).levelOf x.count) = _ := hlink
  rw [hself] at hlink'
  exact hlink'

omit [LinearOrder D] in
/-- Every candidate can be looked up. -/
theorem collectResults_isSome (k : Nat) (candidates : List (Cand D))
    (hlt : ∀ c ∈ candidates, idOf c < x.deleted.length) (result : List (R × Nat)) :
    ∃ out, collectResults sp x k candidates result = some out := by
  induction candidates generalizing result with
  | nil => exact ⟨result, rfl⟩
  | cons c candidates ih =>
      have hc := hlt c List.mem_cons_self
      have hrest := ih fun d hd => hlt d (List.mem_cons_of_mem _ hd)
      rw [collectResults]
      change ∃ out, x.deleted[idOf c]?.bind _ = some out
      rw [List.getElem?_eq_getElem hc, Option.bind_some]
      split
      · exact hrest result
      · dsimp only
        split
        · exact ⟨_, rfl⟩
        · exact hrest _

/-- A search changes the visited marks only. -/
theorem searchKnn_spec (h : x.WellFormed) (query : V) (k ef : Nat) :
    ∃ visited counter result,
      searchKnn sp x query k ef = some (x.withMarks visited counter, result) ∧
      (x.withMarks visited counter).WellFormed := by
  rw [searchKnn]
  by_cases hempty : x.count = 0 ∨ k = 0
  · rw [if_pos hempty]
    exact ⟨x.visited, x.visitCounter, [], rfl, h⟩
  · rw [if_neg hempty]
    have hpos : 0 < x.count := by omega
    obtain ⟨hlt, hlevel, _⟩ := h.entry hpos
    have hnot : ∀ a l nbs, x.neighbors a l = some nbs → x.count ∉ nbs := by
      intro a l nbs hnbs hmem
      exact absurd (h.linked.points a l nbs hnbs _ hmem).1 (lt_irrefl _)
    obtain ⟨ep, hdescend, hep⟩ := descend_spec sp h.linked query 0 hnot x.maxLevel
      (⟨hlt, hlevel.ge, hlt.ne⟩ : x.OnLayer x.count x.maxLevel x.count x.entry)
    have hwalk : Walkable x x.count 0 (fun nb => nb = kNoSkip) (x.OnLayer x.count 0 x.count) :=
      h.linked.walkable fun a nbs hnbs hmem => absurd hmem (hnot a 0 nbs hnbs)
    obtain ⟨visited, counter, candidates, hsearch, hvisited, hmarks, hcounter, _, hon, _⟩ :=
      searchLayer_spec sp query h.linked.data_length h.linked.visited_length h.linked.marks
        h.linked.counter_lt hwalk
        (fun a nbs hnbs nb hnb => (h.linked.points a 0 nbs hnbs nb hnb).1)
        (⟨hep.1, Nat.zero_le _, hep.2.2⟩ : x.OnLayer x.count 0 x.count ep) (max k ef)
    obtain ⟨result, hcollect⟩ : ∃ out,
        collectResults sp (x.withMarks visited counter) k candidates [] = some out := by
      refine collectResults_isSome sp k candidates ?_ []
      intro c hc
      show idOf c < x.deleted.length
      rw [h.linked.deleted_length]
      exact (hon c hc).1
    refine ⟨visited, counter, result, ?_,
      ⟨h.linked.with_visited hvisited hmarks hcounter, h.M_ge, h.M_max0_le, h.entry⟩⟩
    rw [hdescend, Option.bind_eq_bind, Option.bind_some, hsearch, Option.bind_eq_bind,
      Option.bind_some]
    dsimp only
    rw [hcollect]
    rfl

omit [LinearOrder D] in
/-- A tombstone is not part of the graph. -/
theorem markDeleted_wellFormed (h : x.WellFormed) (id : Nat) : (x.markDeleted id).WellFormed := by
  unfold markDeleted
  split
  · exact ⟨⟨h.linked.data_length, h.linked.links_length, h.linked.levels_length,
      (List.length_set).trans h.linked.deleted_length, h.linked.visited_length, h.linked.marks,
      h.linked.counter_lt, h.linked.layers, h.linked.points, h.linked.nodup, h.linked.short⟩,
      h.M_ge, h.M_max0_le, h.entry⟩
  · exact h

theorem new_wellFormed (M efConstruction : Nat) :
    (new M efConstruction : HNSWIndex V).WellFormed := by
  refine ⟨⟨rfl, rfl, rfl, rfl, rfl, ?_, (show 0 < wordBound32 by decide), ?_, ?_, ?_, ?_⟩,
    le_max_right _ _, Nat.mod_le _ _,
    fun hpos => absurd hpos (lt_irrefl 0)⟩
  all_goals
    intros
    simp_all [new, neighbors]

/-- What a call keeps. -/
theorem call_spec (h : x.WellFormed) (c : Call V) :
    ∃ y, call sp x c = some y ∧ y.WellFormed ∧ y.M = x.M ∧ y.M_max0 = x.M_max0 := by
  cases c with
  | addPoint vec =>
      obtain ⟨_, _, _, _, _, _, hadd, hwf, _⟩ := addPoint_spec sp h vec
      exact ⟨_, hadd, hwf, rfl, rfl⟩
  | markDeleted id =>
      refine ⟨_, rfl, markDeleted_wellFormed h id, ?_⟩
      unfold markDeleted
      split <;> exact ⟨rfl, rfl⟩
  | searchKnn query k ef =>
      obtain ⟨visited, counter, result, hsearch, hwf⟩ := searchKnn_spec sp h query k ef
      exact ⟨x.withMarks visited counter, by rw [call, hsearch]; rfl, hwf, rfl, rfl⟩

/-- Every sequence of calls runs without an access out of range and leaves the graph
well formed, with lists of at most `max M 2` neighbours above layer 0 and twice as
many in layer 0. -/
theorem run_wellFormed (M efConstruction : Nat) (calls : List (Call V)) :
    ∃ x, Transition.run (call sp) (new M efConstruction) calls = some x ∧ x.M = max M 2 ∧
      x.WellFormed := by
  obtain ⟨x, hrun, hwf, hM⟩ := Transition.run_total
    (fun (x : HNSWIndex V) c (hx : x.WellFormed ∧ x.M = max M 2) => by
      obtain ⟨y, hcall, hy, hM, _⟩ := call_spec sp hx.1 c
      exact ⟨y, hcall, hy, hM.trans hx.2⟩)
    calls ⟨new_wellFormed M efConstruction, rfl⟩
  exact ⟨x, hrun, hM, hwf⟩

end Calls

end HNSWIndex

end LogMind
