import LogMind.Vector.FreshSearch

/-!
# The stamps of a run

The marks of all the searches so far lie in one array, which grows with zeros as points come
in. No mark is ever newer than the counter, which only the wrap takes back, and that clears the
marks. So no search finds its own stamp, however many there were before it.
-/

namespace LogMind

open Checked Loop

namespace HNSWIndex

variable {V D R : Type}

/-- A call of a member function, with the id of a point as the caller gives it. -/
inductive Operation (V : Type) where
  | addPoint (id : Nat) (vec : V)
  | markDeleted (id : Nat)
  | searchKnn (query : V) (k ef : Nat)

/-- A call of `search_layer`: the index it is made on, and its arguments. -/
structure LayerSearch (V : Type) where
  index : HNSWIndex V
  query : V
  ep : Nat
  ef : Nat
  layer : Nat
  skip : Nat

section Definitions

variable [LinearOrder D]

/-- The call with its results; only a search has some. -/
def perform (sp : Space V D R) (x : HNSWIndex V) :
    Operation V → Option (HNSWIndex V × List (R × Nat))
  | .addPoint id vec => (addPoint sp x id vec).map fun y => (y, [])
  | .markDeleted id => some (x.markDeleted id, [])
  | .searchKnn query k ef => searchKnn sp x query k ef

/-- The results of each call, up to the first that fails. -/
def answers (call : HNSWIndex V → Operation V → Option (HNSWIndex V × List (R × Nat))) :
    HNSWIndex V → List (Operation V) → List (Option (List (R × Nat)))
  | _, [] => []
  | x, op :: ops =>
      match call x op with
      | none => [none]
      | some (y, result) => some result :: answers call y ops

/-- The searches that `connect` makes, one in each layer. -/
def connectSearches (sp : Space V D R) (id : Nat) (q : V) :
    Nat → HNSWIndex V → Nat → List (LayerSearch V)
  | 0, _, _ => []
  | lc + 1, x, ep =>
      ⟨x, q, ep, x.efConstruction, lc, id⟩ ::
        match connectLayer sp id q lc x ep with
        | none => []
        | some (y, ep) => connectSearches sp id q lc y ep

def addPointSearches (sp : Space V D R) (x : HNSWIndex V) (id : Nat) (vec : V) :
    Option (List (LayerSearch V)) := do
  let x ← allocate sp x id vec
  let level ← x.levels[id]?
  if x.count = 0 then return []
  let q ← x.data[id]?
  let ep ← descend sp x q level x.maxLevel x.entry
  return connectSearches sp id q (min level x.maxLevel + 1) x ep

def searchKnnSearches (sp : Space V D R) (x : HNSWIndex V) (query : V) (k ef : Nat) :
    Option (List (LayerSearch V)) := do
  if x.count = 0 ∨ k = 0 then return []
  let ep ← descend sp x query 0 x.maxLevel x.entry
  return [⟨x, query, ep, max k ef, 0, kNoSkip⟩]

/-- The searches of a layer that a call makes, also when it fails behind one of them. -/
def layerSearches (sp : Space V D R) (x : HNSWIndex V) : Operation V → List (LayerSearch V)
  | .addPoint id vec => (addPointSearches sp x id vec).getD []
  | .markDeleted _ => []
  | .searchKnn query k ef => (searchKnnSearches sp x query k ef).getD []

def runSearches (sp : Space V D R) : HNSWIndex V → List (Operation V) → List (LayerSearch V)
  | _, [] => []
  | x, op :: ops =>
      layerSearches sp x op ++
        match perform sp x op with
        | none => []
        | some (y, _) => runSearches sp y ops

end Definitions

/-! ## What an operation keeps of the marks -/

variable {x : HNSWIndex V}

theorem new_stamped (M efConstruction : Nat) : (new M efConstruction : HNSWIndex V).Stamped :=
  ⟨rfl, rfl, fun _ hm => absurd hm List.not_mem_nil, (by decide : 0 < wordBound32)⟩

/-- Room for more points comes with zeros for marks. -/
theorem Stamped.ensureCapacity (h : x.Stamped) (sp : Space V D R) (id : Nat) :
    (ensureCapacity sp x id).Stamped := by
  unfold HNSWIndex.ensureCapacity
  dsimp only
  split
  · exact h
  · rename_i hroom
    have hlevels : x.levels.length ≤ id + 1 := by omega
    have hdata : x.data.length ≤ id + 1 := h.data_length ▸ hlevels
    have hvisited : x.visited.length ≤ id + 1 := h.visited_length ▸ hlevels
    refine ⟨?_, ?_, ?_, h.counter_lt⟩
    · exact (length_resize _ hdata).trans (length_resize _ hlevels).symm
    · exact (length_resize _ hvisited).trans (length_resize _ hlevels).symm
    · intro m hm
      rcases mem_resize hm with hold | rfl
      · exact h.marks m hold
      · exact Nat.zero_le _

/-- A point in the arrays leaves the marks alone. -/
theorem Stamped.allocate (h : x.Stamped) (sp : Space V D R) {id : Nat} {vec : V}
    {y : HNSWIndex V} (hy : allocate sp x id vec = some y) : y.Stamped := by
  have hroom := h.ensureCapacity sp id
  obtain ⟨data, hdata, hy⟩ := Option.bind_eq_some_iff.mp hy
  obtain ⟨deleted, -, hy⟩ := Option.bind_eq_some_iff.mp hy
  obtain ⟨levels, hlevels, hy⟩ := Option.bind_eq_some_iff.mp hy
  obtain ⟨links, -, hy⟩ := Option.bind_eq_some_iff.mp hy
  obtain rfl := Option.some.inj hy
  obtain rfl := setAt_eq_some hdata
  obtain rfl := setAt_eq_some hlevels
  refine ⟨?_, ?_, hroom.marks, hroom.counter_lt⟩
  · exact List.length_set.trans (hroom.data_length.trans List.length_set.symm)
  · exact hroom.visited_length.trans List.length_set.symm

theorem Stamped.withLinks (h : x.Stamped) (links : List (List (List Nat))) :
    (x.withLinks links).Stamped :=
  ⟨h.data_length, h.visited_length, h.marks, h.counter_lt⟩

theorem Stamped.setNeighbors (h : x.Stamped) {id layer : Nat} {list : List Nat}
    {y : HNSWIndex V} (hy : x.setNeighbors id layer list = some y) : y.Stamped := by
  obtain ⟨layers, -, hy⟩ := Option.bind_eq_some_iff.mp hy
  obtain ⟨written, -, hy⟩ := Option.bind_eq_some_iff.mp hy
  exact Option.some.inj hy ▸ h.withLinks _

theorem Stamped.markDeleted (h : x.Stamped) (id : Nat) : (x.markDeleted id).Stamped := by
  unfold HNSWIndex.markDeleted
  split
  · exact ⟨h.data_length, h.visited_length, h.marks, h.counter_lt⟩
  · exact h

section Keeps

variable [LinearOrder D] (sp : Space V D R) {id lc : Nat} {q : V}

theorem Stamped.linkBack (h : x.Stamped) {cap nb : Nat} {y : HNSWIndex V}
    (hy : linkBack sp id lc cap x nb = some y) : y.Stamped := by
  obtain ⟨back, -, hy⟩ := Option.bind_eq_some_iff.mp hy
  obtain ⟨list, -, hy⟩ := Option.bind_eq_some_iff.mp hy
  exact h.setNeighbors hy

theorem Stamped.connectLayer (h : x.Stamped) {ep ep' : Nat} {y : HNSWIndex V}
    (hy : connectLayer sp id q lc x ep = some (y, ep')) : y.Stamped := by
  obtain ⟨⟨z, candidates⟩, hsearch, hy⟩ := Option.bind_eq_some_iff.mp hy
  obtain ⟨w, hset, hy⟩ := Option.bind_eq_some_iff.mp hy
  obtain ⟨u, hback, hy⟩ := Option.bind_eq_some_iff.mp hy
  obtain ⟨rfl, -⟩ := Prod.mk.inj (Option.some.inj hy)
  have hz : z.Stamped := (h.searchLayer_stamped sp hsearch).1
  exact foldlM_keeps (fun s nb t hs ht => hs.linkBack sp ht) (hz.setNeighbors hset) hback

theorem Stamped.connect (h : x.Stamped) {k ep : Nat} {y : HNSWIndex V}
    (hy : connect sp id q k x ep = some y) : y.Stamped := by
  induction k generalizing x ep with
  | zero => exact Option.some.inj hy ▸ h
  | succ lc ih =>
      obtain ⟨⟨z, ep'⟩, hlayer, hy⟩ := Option.bind_eq_some_iff.mp hy
      exact ih (h.connectLayer sp hlayer) hy

theorem Stamped.link (h : x.Stamped) {level : Nat} {y : HNSWIndex V}
    (hy : link sp x id level = some y) : y.Stamped := by
  rw [HNSWIndex.link] at hy
  split at hy
  · obtain rfl := Option.some.inj hy
    exact ⟨h.data_length, h.visited_length, h.marks, h.counter_lt⟩
  obtain ⟨q, -, hy⟩ := Option.bind_eq_some_iff.mp hy
  obtain ⟨ep, -, hy⟩ := Option.bind_eq_some_iff.mp hy
  obtain ⟨z, hconnect, hy⟩ := Option.bind_eq_some_iff.mp hy
  have hz := h.connect sp hconnect
  split at hy <;>
    · obtain rfl := Option.some.inj hy
      exact ⟨hz.data_length, hz.visited_length, hz.marks, hz.counter_lt⟩

/-- No operation leaves a mark that is newer than the last stamp. -/
theorem Stamped.perform (h : x.Stamped) {op : Operation V} {y : HNSWIndex V}
    {result : List (R × Nat)} (hy : perform sp x op = some (y, result)) : y.Stamped := by
  cases op with
  | addPoint id vec =>
      obtain ⟨z, hadd, hz⟩ := Option.map_eq_some_iff.mp hy
      obtain ⟨rfl, -⟩ := Prod.mk.inj hz
      obtain ⟨w, hallocate, hadd⟩ := Option.bind_eq_some_iff.mp hadd
      obtain ⟨level, -, hlink⟩ := Option.bind_eq_some_iff.mp hadd
      exact (h.allocate sp hallocate).link sp hlink
  | markDeleted id =>
      obtain ⟨rfl, -⟩ := Prod.mk.inj (Option.some.inj hy)
      exact h.markDeleted id
  | searchKnn query k ef =>
      rw [HNSWIndex.perform, HNSWIndex.searchKnn] at hy
      split at hy
      · obtain ⟨rfl, -⟩ := Prod.mk.inj (Option.some.inj hy)
        exact h
      obtain ⟨ep, -, hy⟩ := Option.bind_eq_some_iff.mp hy
      obtain ⟨⟨z, candidates⟩, hsearch, hy⟩ := Option.bind_eq_some_iff.mp hy
      obtain ⟨results, -, hy⟩ := Option.bind_eq_some_iff.mp hy
      obtain ⟨rfl, -⟩ := Prod.mk.inj (Option.some.inj hy)
      exact (h.searchLayer_stamped sp hsearch).1

/-! ## The searches of a run -/

theorem connectSearches_stamped (h : x.Stamped) (k : Nat) (ep : Nat) :
    ∀ s ∈ connectSearches sp id q k x ep, s.index.Stamped := by
  induction k generalizing x ep with
  | zero => exact fun s hs => absurd hs List.not_mem_nil
  | succ lc ih =>
      intro s hs
      rw [connectSearches] at hs
      rcases List.mem_cons.mp hs with rfl | hs
      · exact h
      · split at hs
        · cases hs
        · rename_i y ep' hlayer
          exact ih (h.connectLayer sp hlayer) ep' s hs

theorem addPointSearches_stamped (h : x.Stamped) {vec : V} {searches : List (LayerSearch V)}
    (hsearches : addPointSearches sp x id vec = some searches) :
    ∀ s ∈ searches, s.index.Stamped := by
  obtain ⟨y, hallocate, hsearches⟩ := Option.bind_eq_some_iff.mp hsearches
  obtain ⟨level, -, hsearches⟩ := Option.bind_eq_some_iff.mp hsearches
  split at hsearches
  · obtain rfl := Option.some.inj hsearches
    exact fun s hs => absurd hs List.not_mem_nil
  obtain ⟨q, -, hsearches⟩ := Option.bind_eq_some_iff.mp hsearches
  obtain ⟨ep, -, hsearches⟩ := Option.bind_eq_some_iff.mp hsearches
  obtain rfl := Option.some.inj hsearches
  exact connectSearches_stamped sp (h.allocate sp hallocate) _ ep

theorem searchKnnSearches_stamped (h : x.Stamped) {k ef : Nat} {searches : List (LayerSearch V)}
    (hsearches : searchKnnSearches sp x q k ef = some searches) :
    ∀ s ∈ searches, s.index.Stamped := by
  rw [searchKnnSearches] at hsearches
  split at hsearches
  · obtain rfl := Option.some.inj hsearches
    exact fun s hs => absurd hs List.not_mem_nil
  obtain ⟨ep, -, hsearches⟩ := Option.bind_eq_some_iff.mp hsearches
  obtain rfl := Option.some.inj hsearches
  intro s hs
  rw [List.mem_singleton.mp hs]
  exact h

/-- A call makes its searches on indexes whose marks are not newer than the last stamp. -/
theorem layerSearches_stamped (h : x.Stamped) (op : Operation V) :
    ∀ s ∈ layerSearches sp x op, s.index.Stamped := by
  intro s hs
  cases op with
  | addPoint id vec =>
      rw [layerSearches] at hs
      cases hsearches : addPointSearches sp x id vec with
      | none =>
          rw [hsearches] at hs
          cases hs
      | some searches =>
          rw [hsearches] at hs
          exact addPointSearches_stamped sp h hsearches s hs
  | markDeleted id => cases hs
  | searchKnn query k ef =>
      rw [layerSearches] at hs
      cases hsearches : searchKnnSearches sp x query k ef with
      | none =>
          rw [hsearches] at hs
          cases hs
      | some searches =>
          rw [hsearches] at hs
          exact searchKnnSearches_stamped sp h hsearches s hs

theorem runSearches_stamped (h : x.Stamped) (ops : List (Operation V)) :
    ∀ s ∈ runSearches sp x ops, s.index.Stamped := by
  induction ops generalizing x with
  | nil => exact fun s hs => absurd hs List.not_mem_nil
  | cons op ops ih =>
      intro s hs
      rw [runSearches] at hs
      rcases List.mem_append.mp hs with hs | hs
      · exact layerSearches_stamped sp h op s hs
      · split at hs
        · cases hs
        · rename_i y result hperform
          exact ih (h.perform sp hperform) s hs

end Keeps

end HNSWIndex

end LogMind
