import LogMind.Vector.VisitStamps

/-!
# The index without marks

The same index, with a new visited set for each search of a layer. Its array of marks stays
cleared. Every run of the index with marks gives the answers of a run of this one, and leaves
what this one is left with when its marks are cleared.
-/

namespace LogMind

open Checked Loop

namespace HNSWIndex

variable {V D R : Type}

section Definitions

variable [LinearOrder D]

def freshConnectLayer (sp : Space V D R) (id : Nat) (q : V) (lc : Nat) (x : HNSWIndex V)
    (ep : Nat) : Option (HNSWIndex V × Nat) := do
  let candidates ← freshSearchLayer sp x q ep x.efConstruction lc id
  let nearest := takeNearest x.M candidates []
  let cap := if lc = 0 then x.M_max0 else x.M
  let x ← x.setNeighbors id lc nearest
  let x ← nearest.foldlM (linkBack sp id lc cap) x
  return (x, match candidates with
    | [] => ep
    | c :: _ => (ofLex c).2)

def freshConnect (sp : Space V D R) (id : Nat) (q : V) :
    Nat → HNSWIndex V → Nat → Option (HNSWIndex V)
  | 0, x, _ => some x
  | lc + 1, x, ep => do
      let (x, ep) ← freshConnectLayer sp id q lc x ep
      freshConnect sp id q lc x ep

def freshLink (sp : Space V D R) (x : HNSWIndex V) (id level : Nat) : Option (HNSWIndex V) :=
  if x.count = 0 then some { x with entry := id, maxLevel := level, count := 1 }
  else do
    let q ← x.data[id]?
    let ep ← descend sp x q level x.maxLevel x.entry
    let x ← freshConnect sp id q (min level x.maxLevel + 1) x ep
    if x.maxLevel < level then
      return { x with maxLevel := level, entry := id, count := x.count + 1 }
    return { x with count := x.count + 1 }

def freshAddPoint (sp : Space V D R) (x : HNSWIndex V) (id : Nat) (vec : V) :
    Option (HNSWIndex V) := do
  let x ← allocate sp x id vec
  let level ← x.levels[id]?
  freshLink sp x id level

def freshSearchKnn (sp : Space V D R) (x : HNSWIndex V) (query : V) (k ef : Nat) :
    Option (HNSWIndex V × List (R × Nat)) := do
  if x.count = 0 ∨ k = 0 then return (x, [])
  let ep ← descend sp x query 0 x.maxLevel x.entry
  let candidates ← freshSearchLayer sp x query ep (max k ef) 0 kNoSkip
  let result ← collectResults sp x k candidates []
  return (x, result)

def freshPerform (sp : Space V D R) (x : HNSWIndex V) :
    Operation V → Option (HNSWIndex V × List (R × Nat))
  | .addPoint id vec => (freshAddPoint sp x id vec).map fun y => (y, [])
  | .markDeleted id => some (x.markDeleted id, [])
  | .searchKnn query k ef => freshSearchKnn sp x query k ef

end Definitions

/-! ## Clearing the marks -/

/-- The index with no mark set. -/
def cleared (x : HNSWIndex V) : HNSWIndex V := x.withMarks (List.replicate x.levels.length 0) 0

variable {x : HNSWIndex V}

section Fields

variable (x : HNSWIndex V)

@[simp] theorem cleared_M : x.cleared.M = x.M := rfl

@[simp] theorem cleared_M_max0 : x.cleared.M_max0 = x.M_max0 := rfl

@[simp] theorem cleared_efConstruction : x.cleared.efConstruction = x.efConstruction := rfl

@[simp] theorem cleared_count : x.cleared.count = x.count := rfl

@[simp] theorem cleared_maxLevel : x.cleared.maxLevel = x.maxLevel := rfl

@[simp] theorem cleared_entry : x.cleared.entry = x.entry := rfl

@[simp] theorem cleared_data : x.cleared.data = x.data := rfl

@[simp] theorem cleared_links : x.cleared.links = x.links := rfl

@[simp] theorem cleared_levels : x.cleared.levels = x.levels := rfl

@[simp] theorem cleared_deleted : x.cleared.deleted = x.deleted := rfl

@[simp] theorem cleared_drawn : x.cleared.drawn = x.drawn := rfl

@[simp] theorem cleared_neighbors (id layer : Nat) :
    x.cleared.neighbors id layer = x.neighbors id layer := rfl

/-- What a search of a layer leaves is cleared as what it started with. -/
@[simp] theorem cleared_withMarks (visited : List Nat) (counter : Nat) :
    (x.withMarks visited counter).cleared = x.cleared := rfl

end Fields

theorem setNeighbors_cleared (x : HNSWIndex V) (id layer : Nat) (list : List Nat) :
    (x.setNeighbors id layer list).map cleared = x.cleared.setNeighbors id layer list := by
  rw [setNeighbors, setNeighbors, cleared_links]
  cases x.links[id]? with
  | none => rfl
  | some layers =>
      simp only [Option.bind_eq_bind, Option.bind_some]
      cases setAt layers layer list with
      | none => rfl
      | some written => rfl

theorem markDeleted_cleared (x : HNSWIndex V) (id : Nat) :
    (x.markDeleted id).cleared = x.cleared.markDeleted id := by
  rw [markDeleted, markDeleted, cleared_deleted]
  split <;> rfl

/-- Room for more points leaves as many cleared marks as there are points. -/
theorem ensureCapacity_cleared (sp : Space V D R) (x : HNSWIndex V) (id : Nat) :
    (ensureCapacity sp x id).cleared = ensureCapacity sp x.cleared id := by
  unfold ensureCapacity
  rw [cleared_levels]
  dsimp only
  split
  · rfl
  · rename_i hroom
    have hle : x.levels.length ≤ id + 1 := by omega
    have hmarks : resize (id + 1) 0 x.cleared.visited =
        List.replicate (resize (id + 1) 0 x.levels).length 0 := by
      rw [length_resize 0 hle]
      exact resize_replicate 0 hle
    rw [hmarks]
    rfl

theorem allocate_cleared (sp : Space V D R) (x : HNSWIndex V) (id : Nat) (vec : V) :
    (allocate sp x id vec).map cleared = allocate sp x.cleared id vec := by
  rw [allocate, allocate, ← ensureCapacity_cleared]
  generalize ensureCapacity sp x id = y
  simp only [cleared_data, cleared_deleted, cleared_levels, cleared_links, cleared_drawn]
  cases setAt y.data id vec with
  | none => rfl
  | some data =>
      cases setAt y.deleted id false with
      | none => rfl
      | some deleted =>
          cases hset : setAt y.levels id (sp.randomLevel y.drawn) with
          | none => rfl
          | some levels =>
              cases setAt y.links id (List.replicate (sp.randomLevel y.drawn + 1) []) with
              | none => rfl
              | some links =>
                  have hlength : levels.length = y.levels.length := by
                    rw [setAt_eq_some hset, List.length_set]
                  simp [cleared, withMarks, hlength]

section Searches

variable (sp : Space V D R) {q : V} {node lc : Nat}

theorem collectResults_cleared (k : Nat) (candidates : List (Cand D)) (result : List (R × Nat)) :
    collectResults sp x.cleared k candidates result =
      collectResults sp x k candidates result := by
  induction candidates generalizing result with
  | nil => rfl
  | cons c candidates ih =>
      rw [collectResults, collectResults, cleared_deleted]
      simp only [ih]

variable [LinearOrder D]

theorem descend_cleared (level lc ep : Nat) :
    descend sp x.cleared q level lc ep = descend sp x q level lc ep := by
  induction lc generalizing ep with
  | zero => rfl
  | succ lc ih =>
      have hgreedy : greedyDescend sp x.cleared q ep (lc + 1) =
          greedyDescend sp x q ep (lc + 1) := rfl
      rw [descend, descend, hgreedy]
      simp only [ih]

/-- The search with a set on the cleared index is the one with stamps. -/
theorem freshSearchLayer_cleared (h : x.Stamped) (ep ef layer skip : Nat) :
    freshSearchLayer sp x.cleared q ep ef layer skip =
      (searchLayer sp x q ep ef layer skip).map Prod.snd :=
  (h.searchLayer_eq_fresh sp).symm

theorem linkBack_cleared (cap : Nat) (x : HNSWIndex V) (nb : Nat) :
    (linkBack sp node lc cap x nb).map cleared = linkBack sp node lc cap x.cleared nb := by
  have hshrink (back : List Nat) :
      shrinkLinks sp x.cleared nb back cap = shrinkLinks sp x nb back cap := rfl
  rw [linkBack, linkBack, cleared_neighbors]
  cases x.neighbors nb lc with
  | none => rfl
  | some back =>
      simp only [hshrink, Option.bind_eq_bind, Option.bind_some]
      cases if cap < (back ++ [node]).length then shrinkLinks sp x nb (back ++ [node]) cap
        else some (back ++ [node]) with
      | none => rfl
      | some list => exact setNeighbors_cleared x nb lc list

theorem linkBacks_cleared (cap : Nat) (x : HNSWIndex V) (nbs : List Nat) :
    (nbs.foldlM (linkBack sp node lc cap) x).map cleared =
      nbs.foldlM (linkBack sp node lc cap) x.cleared := by
  have hstep : ∀ (y : HNSWIndex V) (nb : Nat), True →
      (linkBack sp node lc cap y nb).map cleared = linkBack sp node lc cap y.cleared nb :=
    fun y nb _ => linkBack_cleared sp cap y nb
  exact foldlM_simulates hstep (fun _ _ _ _ _ => trivial) nbs trivial

/-- A layer is connected as with a visited set of its own. -/
theorem connectLayer_cleared (h : x.Stamped) (ep : Nat) :
    (connectLayer sp node q lc x ep).map (fun r => (r.1.cleared, r.2)) =
      freshConnectLayer sp node q lc x.cleared ep := by
  rw [connectLayer, freshConnectLayer, cleared_efConstruction, freshSearchLayer_cleared sp h]
  cases hsearch : searchLayer sp x q ep x.efConstruction lc node with
  | none => rfl
  | some found =>
      obtain ⟨y, candidates⟩ := found
      obtain ⟨visited, counter, hy⟩ := (h.searchLayer_stamped sp hsearch).2
      have hcleared : x.cleared = y.cleared := by rw [hy, cleared_withMarks]
      rw [hcleared]
      simp only [Option.bind_eq_bind, Option.bind_some, Option.map_some, cleared_M,
        cleared_M_max0, ← setNeighbors_cleared]
      cases setNeighbors y node lc (takeNearest y.M candidates []) with
      | none => rfl
      | some w =>
          simp only [Option.map_some, Option.bind_some, ← linkBacks_cleared]
          cases List.foldlM (linkBack sp node lc (if lc = 0 then y.M_max0 else y.M)) w
              (takeNearest y.M candidates []) with
          | none => rfl
          | some u => rfl

theorem connect_cleared (h : x.Stamped) (k ep : Nat) :
    (connect sp node q k x ep).map cleared = freshConnect sp node q k x.cleared ep := by
  induction k generalizing x ep with
  | zero => rfl
  | succ lc ih =>
      rw [connect, freshConnect, ← connectLayer_cleared sp h]
      cases hlayer : connectLayer sp node q lc x ep with
      | none => rfl
      | some next => exact ih (h.connectLayer sp hlayer) next.2

theorem link_cleared (h : x.Stamped) (level : Nat) :
    (link sp x node level).map cleared = freshLink sp x.cleared node level := by
  rw [link, freshLink]
  simp only [cleared_count, cleared_data, cleared_maxLevel, cleared_entry, descend_cleared]
  split
  · rfl
  cases x.data[node]? with
  | none => rfl
  | some q =>
      simp only [Option.bind_eq_bind, Option.bind_some]
      cases descend sp x q level x.maxLevel x.entry with
      | none => rfl
      | some ep =>
          simp only [Option.bind_some, ← connect_cleared sp h]
          cases connect sp node q (min level x.maxLevel + 1) x ep with
          | none => rfl
          | some y =>
              simp only [Option.map_some, Option.bind_some]
              rw [cleared_maxLevel]
              split <;> rfl

theorem addPoint_cleared (h : x.Stamped) (vec : V) :
    (addPoint sp x node vec).map cleared = freshAddPoint sp x.cleared node vec := by
  rw [addPoint, freshAddPoint, ← allocate_cleared]
  cases hallocate : allocate sp x node vec with
  | none => rfl
  | some y =>
      simp only [Option.map_some, Option.bind_eq_bind, Option.bind_some, cleared_levels]
      cases y.levels[node]? with
      | none => rfl
      | some level => exact link_cleared sp (h.allocate sp hallocate) level

theorem searchKnn_cleared (h : x.Stamped) (k ef : Nat) :
    (searchKnn sp x q k ef).map (fun r => (r.1.cleared, r.2)) =
      freshSearchKnn sp x.cleared q k ef := by
  rw [searchKnn, freshSearchKnn]
  simp only [cleared_count, cleared_maxLevel, cleared_entry, descend_cleared,
    collectResults_cleared, freshSearchLayer_cleared sp h]
  split
  · rfl
  cases descend sp x q 0 x.maxLevel x.entry with
  | none => rfl
  | some ep =>
      simp only [Option.bind_eq_bind, Option.bind_some]
      cases hsearch : searchLayer sp x q ep (max k ef) 0 kNoSkip with
      | none => rfl
      | some found =>
          obtain ⟨y, candidates⟩ := found
          obtain ⟨visited, counter, rfl⟩ := (h.searchLayer_stamped sp hsearch).2
          have hcollect : collectResults sp (x.withMarks visited counter) k candidates [] =
              collectResults sp x k candidates [] := by
            rw [← collectResults_cleared, cleared_withMarks, collectResults_cleared]
          simp only [Option.bind_some, Option.map_some, hcollect]
          cases collectResults sp x k candidates [] with
          | none => rfl
          | some results => rfl

/-- A call gives the results that it gives with visited sets. -/
theorem perform_cleared (h : x.Stamped) (op : Operation V) :
    (perform sp x op).map (fun r => (r.1.cleared, r.2)) = freshPerform sp x.cleared op := by
  cases op with
  | addPoint node vec =>
      rw [perform, freshPerform, ← addPoint_cleared sp h]
      cases addPoint sp x node vec with
      | none => rfl
      | some y => rfl
  | markDeleted node =>
      rw [perform, freshPerform, ← markDeleted_cleared]
      rfl
  | searchKnn query k ef => exact searchKnn_cleared sp h k ef

theorem answers_cleared (h : x.Stamped) (ops : List (Operation V)) :
    answers (perform sp) x ops = answers (freshPerform sp) x.cleared ops := by
  induction ops generalizing x with
  | nil => rfl
  | cons op ops ih =>
      rw [answers, answers, ← perform_cleared sp h op]
      cases hperform : perform sp x op with
      | none => rfl
      | some next => exact congrArg _ (ih (h.perform sp hperform))

/-- In every run, however often the counter has wrapped, a search of a layer finds no mark with
its stamp and returns what it returns with an empty set; so the run gives the answers of the
index without marks. -/
theorem run_stamps_fresh (M efConstruction : Nat) (ops : List (Operation V)) :
    (∀ s ∈ runSearches sp (new M efConstruction) ops,
      (∀ mark ∈ s.index.nextVisitStamp.visited, mark ≠ s.index.nextVisitStamp.visitCounter) ∧
      (searchLayer sp s.index s.query s.ep s.ef s.layer s.skip).map Prod.snd =
        freshSearchLayer sp s.index s.query s.ep s.ef s.layer s.skip) ∧
    answers (perform sp) (new M efConstruction) ops =
      answers (freshPerform sp) (new M efConstruction) ops := by
  refine ⟨?_, answers_cleared sp (new_stamped M efConstruction) ops⟩
  intro s hs
  have hstamped := runSearches_stamped sp (new_stamped M efConstruction) ops s hs
  exact ⟨hstamped.fresh, hstamped.searchLayer_eq_fresh sp⟩

end Searches

end HNSWIndex

end LogMind
