import LogMind.Core.Bytes
import LogMind.Library.Checked
import LogMind.Library.Loop
import Mathlib.Data.List.Sort
import Mathlib.Data.Prod.Lex

/-!
# The HNSW index

A graph in layers over the vectors. A new node gets a random level and a list of
neighbours in each layer up to it; a search descends greedily from the entry point
to layer 0 and looks around there for the nearest nodes.

Vectors, distances and random levels are parameters. A row of `m_data` is one
element of `data`. A priority queue is the list of its elements, best first. Every
access is checked: the result `none` is an index out of range, the top of an empty
queue, or a loop that takes more turns than there are nodes.
-/

namespace LogMind

open Checked Loop

/-- Vectors `V`, square distances `D` and the distances `R` a search returns. -/
structure Space (V D R : Type) where
  distanceSq : V → V → D
  sqrt : D → R
  /-- The row a `resize` of `m_data` fills in. -/
  zero : V
  /-- The levels `random_level` draws, in order. -/
  randomLevel : Nat → Nat

structure HNSWIndex (V : Type) where
  M : Nat
  M_max0 : Nat
  efConstruction : Nat
  count : Nat := 0
  deletedCount : Nat := 0
  maxLevel : Nat := 0
  entry : Nat := 0
  data : List V := []
  /-- The neighbours by node and layer. -/
  links : List (List (List Nat)) := []
  levels : List Nat := []
  deleted : List Bool := []
  visited : List Nat := []
  visitCounter : Nat := 0
  /-- How many levels have been drawn. -/
  drawn : Nat := 0

/-- A square distance with an id, in the order of `std::pair`. -/
abbrev Cand (D : Type) := D ×ₗ Nat

namespace HNSWIndex

variable {V D R : Type} [LinearOrder D]

/-- The constructor; the product for layer 0 is one of `size_t`. -/
def new (M efConstruction : Nat) : HNSWIndex V where
  M := max M 2
  M_max0 := 2 * max M 2 % wordBound
  efConstruction := max efConstruction (max M 2)

/-- The id that `search_knn` skips. -/
def kNoSkip : Nat := 4294967295

def neighbors (x : HNSWIndex V) (id layer : Nat) : Option (List Nat) :=
  x.links[id]?.bind fun layers => layers[layer]?

def withLinks (x : HNSWIndex V) (links : List (List (List Nat))) : HNSWIndex V :=
  { x with links := links }

def withMarks (x : HNSWIndex V) (visited : List Nat) (counter : Nat) : HNSWIndex V :=
  { x with visited := visited, visitCounter := counter }

@[simp] theorem withMarks_visited (x : HNSWIndex V) (visited : List Nat) (counter : Nat) :
    (x.withMarks visited counter).visited = visited := rfl

@[simp] theorem withMarks_visitCounter (x : HNSWIndex V) (visited : List Nat) (counter : Nat) :
    (x.withMarks visited counter).visitCounter = counter := rfl

@[simp] theorem withMarks_data (x : HNSWIndex V) (visited : List Nat) (counter : Nat) :
    (x.withMarks visited counter).data = x.data := rfl

def setNeighbors (x : HNSWIndex V) (id layer : Nat) (list : List Nat) :
    Option (HNSWIndex V) := do
  let layers ← x.links[id]?
  let layers ← setAt layers layer list
  return x.withLinks (x.links.set id layers)

/-- `distance_sq(a, id)`. -/
def distance (sp : Space V D R) (x : HNSWIndex V) (a : V) (id : Nat) : Option D :=
  x.data[id]?.map fun b => sp.distanceSq a b

def ensureCapacity (sp : Space V D R) (x : HNSWIndex V) (id : Nat) : HNSWIndex V :=
  let need := id + 1
  if need ≤ x.levels.length then x
  else { x with
    data := resize need sp.zero x.data
    links := resize need [] x.links
    levels := resize need 0 x.levels
    deleted := resize need false x.deleted
    visited := resize need 0 x.visited }

/-- The best distance, the node that has it and whether the sweep improved it. -/
structure Descent (D : Type) where
  best : D
  ep : Nat
  improved : Bool

def tryNeighbor (sp : Space V D R) (x : HNSWIndex V) (q : V) (s : Descent D) (nb : Nat) :
    Option (Descent D) :=
  (distance sp x q nb).map fun d => if d < s.best then ⟨d, nb, true⟩ else s

/-- One turn of the `while`: the list of the node the turn starts at is swept to its
end, also when a better node turns up on the way. -/
def descendTurn (sp : Space V D R) (x : HNSWIndex V) (q : V) (layer : Nat) (s : Descent D) :
    Option (Descent D ⊕ Nat) := do
  let nbs ← x.neighbors s.ep layer
  let t ← nbs.foldlM (tryNeighbor sp x q) { s with improved := false }
  return if t.improved then .inl t else .inr t.ep

def greedyDescend (sp : Space V D R) (x : HNSWIndex V) (q : V) (ep layer : Nat) :
    Option Nat := do
  let best ← distance sp x q ep
  loop (descendTurn sp x q layer) (x.data.length + 1) ⟨best, ep, true⟩

/-- The descent from a layer down to the one above `level`. -/
def descend (sp : Space V D R) (x : HNSWIndex V) (q : V) (level : Nat) :
    Nat → Nat → Option Nat
  | 0, ep => some ep
  | lc + 1, ep =>
      if level < lc + 1 then do
        let ep ← greedyDescend sp x q ep (lc + 1)
        descend sp x q level lc ep
      else some ep

structure Search (D : Type) where
  visited : List Nat
  /-- Nearest first. -/
  toVisit : List (Cand D)
  /-- Farthest first. -/
  found : List (Cand D)

/-- A new stamp, and the marks it is new for. -/
def nextVisitStamp (x : HNSWIndex V) : HNSWIndex V :=
  let counter := (x.visitCounter + 1) % wordBound32
  if counter = 0 then x.withMarks (List.replicate x.visited.length 0) 1
  else x.withMarks x.visited counter

/-- `found.size() < ef || d < found.top().first`. -/
def accepts (ef : Nat) (found : List (Cand D)) (d : D) : Option Bool :=
  if found.length < ef then some true
  else found.head?.map fun far => decide (d < (ofLex far).1)

/-- `found` behind an `emplace` and the `pop` that keeps it at `ef`. -/
def keepNearest (ef : Nat) (found : List (Cand D)) (c : Cand D) : List (Cand D) :=
  let found := found.orderedInsert (· ≥ ·) c
  if ef < found.length then found.tail else found

def visitNeighbor (sp : Space V D R) (x : HNSWIndex V) (q : V) (ef skip stamp : Nat)
    (s : Search D) (nb : Nat) : Option (Search D) :=
  if nb = skip then some s
  else do
    let mark ← s.visited[nb]?
    if mark = stamp then return s
    let visited ← setAt s.visited nb stamp
    let d ← distance sp x q nb
    if ← accepts ef s.found d then
      return {
        visited := visited
        toVisit := s.toVisit.orderedInsert (· ≤ ·) (toLex (d, nb))
        found := keepNearest ef s.found (toLex (d, nb)) }
    return { s with visited := visited }

def searchTurn (sp : Space V D R) (x : HNSWIndex V) (q : V) (ef layer skip stamp : Nat)
    (s : Search D) : Option (Search D ⊕ Search D) :=
  match s.toVisit with
  | [] => some (.inr s)
  | cur :: rest => do
      let far ← s.found.head?
      if (ofLex far).1 < (ofLex cur).1 then return .inr s
      let nbs ← x.neighbors (ofLex cur).2 layer
      let s ← nbs.foldlM (visitNeighbor sp x q ef skip stamp) { s with toVisit := rest }
      return .inl s

/-- The candidates by ascending distance, and the index with its visited marks. -/
def searchLayer (sp : Space V D R) (x : HNSWIndex V) (q : V) (ep ef layer skip : Nat) :
    Option (HNSWIndex V × List (Cand D)) := do
  let x := x.nextVisitStamp
  let d0 ← distance sp x q ep
  let visited ← setAt x.visited ep x.visitCounter
  let s ← loop (searchTurn sp x q ef layer skip x.visitCounter) (x.data.length + 1)
    ⟨visited, [toLex (d0, ep)], [toLex (d0, ep)]⟩
  return (x.withMarks s.visited x.visitCounter, s.found.reverse)

def takeNearest (m : Nat) : List (Cand D) → List Nat → List Nat
  | [], out => out
  | c :: candidates, out =>
      let out := out ++ [(ofLex c).2]
      if m ≤ out.length then out else takeNearest m candidates out

/-- The `cap` nearest of a list, nearest first; it must have that many. -/
def shrinkLinks (sp : Space V D R) (x : HNSWIndex V) (owner : Nat) (links : List Nat)
    (cap : Nat) : Option (List Nat) := do
  let base ← x.data[owner]?
  let scratch ← links.mapM fun id => (distance sp x base id).map fun d => toLex (d, id)
  if cap ≤ scratch.length then
    return ((scratch.insertionSort (· ≤ ·)).take cap).map fun c => (ofLex c).2
  none

/-- The back link to a new node. -/
def linkBack (sp : Space V D R) (id lc cap : Nat) (x : HNSWIndex V) (nb : Nat) :
    Option (HNSWIndex V) := do
  let back ← x.neighbors nb lc
  let back := back ++ [id]
  let back ← (if cap < back.length then shrinkLinks sp x nb back cap else some back)
  x.setNeighbors nb lc back

/-- One layer of a new node: its neighbours, their back links and the node the next
layer starts from. -/
def connectLayer (sp : Space V D R) (id : Nat) (q : V) (lc : Nat) (x : HNSWIndex V) (ep : Nat) :
    Option (HNSWIndex V × Nat) := do
  let (x, candidates) ← searchLayer sp x q ep x.efConstruction lc id
  let nearest := takeNearest x.M candidates []
  let cap := if lc = 0 then x.M_max0 else x.M
  let x ← x.setNeighbors id lc nearest
  let x ← nearest.foldlM (linkBack sp id lc cap) x
  return (x, match candidates with
    | [] => ep
    | c :: _ => (ofLex c).2)

/-- The layers below a bound, from the top down. -/
def connect (sp : Space V D R) (id : Nat) (q : V) :
    Nat → HNSWIndex V → Nat → Option (HNSWIndex V)
  | 0, x, _ => some x
  | lc + 1, x, ep => do
      let (x, ep) ← connectLayer sp id q lc x ep
      connect sp id q lc x ep

def allocate (sp : Space V D R) (x : HNSWIndex V) (id : Nat) (vec : V) :
    Option (HNSWIndex V) := do
  let x := ensureCapacity sp x id
  let data ← setAt x.data id vec
  let deleted ← setAt x.deleted id false
  let level := sp.randomLevel x.drawn
  let levels ← setAt x.levels id level
  let links ← setAt x.links id (List.replicate (level + 1) [])
  return { x with
    data := data
    deleted := deleted
    levels := levels
    links := links
    drawn := x.drawn + 1 }

def link (sp : Space V D R) (x : HNSWIndex V) (id level : Nat) : Option (HNSWIndex V) :=
  if x.count = 0 then some { x with entry := id, maxLevel := level, count := 1 }
  else do
    let q ← x.data[id]?
    let ep ← descend sp x q level x.maxLevel x.entry
    let x ← connect sp id q (min level x.maxLevel + 1) x ep
    if x.maxLevel < level then
      return { x with maxLevel := level, entry := id, count := x.count + 1 }
    return { x with count := x.count + 1 }

def addPoint (sp : Space V D R) (x : HNSWIndex V) (id : Nat) (vec : V) :
    Option (HNSWIndex V) := do
  let x ← allocate sp x id vec
  let level ← x.levels[id]?
  link sp x id level

/-- The loop that drops the deleted candidates and stops at `k` results. -/
def collectResults (sp : Space V D R) (x : HNSWIndex V) (k : Nat) :
    List (Cand D) → List (R × Nat) → Option (List (R × Nat))
  | [], result => some result
  | c :: candidates, result => do
      if ← x.deleted[(ofLex c).2]? then collectResults sp x k candidates result
      else
        let result := result ++ [(sp.sqrt (ofLex c).1, (ofLex c).2)]
        if k ≤ result.length then return result
        collectResults sp x k candidates result

/-- The results, and the index with its visited marks. -/
def searchKnn (sp : Space V D R) (x : HNSWIndex V) (query : V) (k ef : Nat) :
    Option (HNSWIndex V × List (R × Nat)) := do
  if x.count = 0 ∨ k = 0 then return (x, [])
  let ep ← descend sp x query 0 x.maxLevel x.entry
  let (x, candidates) ← searchLayer sp x query ep (max k ef) 0 kNoSkip
  let result ← collectResults sp x k candidates []
  return (x, result)

def markDeleted (x : HNSWIndex V) (id : Nat) : HNSWIndex V :=
  if x.deleted[id]? = some false then
    { x with deleted := x.deleted.set id true, deletedCount := x.deletedCount + 1 }
  else x

def size (x : HNSWIndex V) : Nat := sub64 x.count x.deletedCount

/-- A call of the public interface; points get the ids 0, 1, 2, … -/
inductive Call (V : Type) where
  | addPoint (vec : V)
  | markDeleted (id : Nat)
  | searchKnn (query : V) (k ef : Nat)

def call (sp : Space V D R) (x : HNSWIndex V) : Call V → Option (HNSWIndex V)
  | .addPoint vec => addPoint sp x x.count vec
  | .markDeleted id => some (x.markDeleted id)
  | .searchKnn query k ef => (searchKnn sp x query k ef).map Prod.fst

end HNSWIndex

end LogMind
