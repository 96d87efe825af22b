import LogMind.Vector.HNSWExact
import Mathlib.Logic.Relation

/-!
# Where the greedy descent ends

A turn sweeps the list of the node it starts at to its end, also when it has moved on to a
closer one. So only a turn that moves nowhere has swept the list of the node it ends at, and
that turn is the last one.
-/

namespace LogMind

namespace HNSWIndex

variable {V D R : Type}

/-- A link of the layer from one node to another. -/
def LinksTo (x : HNSWIndex V) (layer a b : Nat) : Prop :=
  ∃ nbs, x.neighbors a layer = some nbs ∧ b ∈ nbs

/-- The links of the layer lead to nodes with a vector and a list in the layer. -/
def LinksInside (x : HNSWIndex V) (layer : Nat) : Prop :=
  ∀ a b, x.LinksTo layer a b → b < x.data.length ∧ ∃ nbs, x.neighbors b layer = some nbs

/-- What the links of a layer reach from a node is a place to walk in. -/
theorem LinksInside.walkable {x : HNSWIndex V} {layer ep : Nat} (h : x.LinksInside layer)
    (hep : ep < x.data.length) {nbs : List Nat} (hnbs : x.neighbors ep layer = some nbs) :
    Walkable x x.data.length layer (fun _ => False)
      (Relation.ReflTransGen (x.LinksTo layer) ep) := by
  intro id hid
  have hnode : id < x.data.length ∧ ∃ list, x.neighbors id layer = some list := by
    rcases Relation.ReflTransGen.cases_tail hid with rfl | ⟨a, -, hlink⟩
    · exact ⟨hep, nbs, hnbs⟩
    · exact h a id hlink
  obtain ⟨hlt, list, hlist⟩ := hnode
  exact ⟨hlt, list, hlist, fun nb hnb _ => hid.tail ⟨list, hlist, hnb⟩⟩

variable [LinearOrder D] (sp : Space V D R)

/-- The greedy descent ends at a node that the links of the layer reach from its start, not
farther than the start, and with no neighbour that is closer. -/
theorem greedyDescend_local_minimum (x : HNSWIndex V) (q : V) {layer ep : Nat}
    (hlinks : x.LinksInside layer) (hep : ep < x.data.length)
    (hlayer : ∃ nbs, x.neighbors ep layer = some nbs) :
    ∃ r d d0, greedyDescend sp x q ep layer = some r ∧
      Relation.ReflTransGen (x.LinksTo layer) ep r ∧
      distance sp x q r = some d ∧ distance sp x q ep = some d0 ∧ d ≤ d0 ∧
      ∀ nb, x.LinksTo layer r nb → ∃ d', distance sp x q nb = some d' ∧ ¬ d' < d := by
  obtain ⟨nbs, hnbs⟩ := hlayer
  have hwalk := hlinks.walkable hep hnbs
  obtain ⟨r, hgreedy, hr⟩ := greedyDescend_spec sp q rfl hwalk .refl
  obtain ⟨d, hd⟩ := distance_of_lt sp (q := q) rfl (hwalk r hr.ok).1
  obtain ⟨d0, hd0⟩ := distance_of_lt sp (q := q) rfl hep
  refine ⟨r, d, d0, hgreedy, hr.ok, hd, hd0, hr.le d d0 hd hd0, ?_⟩
  intro nb hlink
  obtain ⟨d', hd'⟩ := distance_of_lt sp (q := q) rfl (hlinks r nb hlink).1
  obtain ⟨list, hlist, hnb⟩ := hlink
  exact ⟨d', hd', not_lt.mpr (hr.least list hlist nb hnb d d' hd hd')⟩

/-- Three points on a line, each with one link, around a circle. -/
def circle : HNSWIndex Int where
  M := 2
  M_max0 := 4
  efConstruction := 2
  data := [0, 4, 9]
  links := [[[1]], [[2]], [[0]]]

theorem circle_linksInside : circle.LinksInside 0 := by
  rintro a b ⟨nbs, hnbs, hb⟩
  match a, hnbs with
  | 0, hnbs =>
      obtain rfl : [1] = nbs := Option.some.inj hnbs
      obtain rfl := List.mem_singleton.mp hb
      exact ⟨by decide, [2], rfl⟩
  | 1, hnbs =>
      obtain rfl : [2] = nbs := Option.some.inj hnbs
      obtain rfl := List.mem_singleton.mp hb
      exact ⟨by decide, [0], rfl⟩
  | 2, hnbs =>
      obtain rfl : [0] = nbs := Option.some.inj hnbs
      obtain rfl := List.mem_singleton.mp hb
      exact ⟨by decide, [1], rfl⟩
  | a + 3, hnbs => cases hnbs

/-- From the first point the descent towards 5 goes to the second one and no further. -/
theorem greedyDescend_local_minimum_circle :
    greedyDescend line circle 5 0 0 = some 1 ∧
      ∃ r d d0, greedyDescend line circle 5 0 0 = some r ∧
        distance line circle 5 r = some d ∧ distance line circle 5 0 = some d0 ∧ d ≤ d0 := by
  obtain ⟨r, d, d0, hgreedy, -, hd, hd0, hle, -⟩ := greedyDescend_local_minimum line circle 5
    circle_linksInside (by decide : 0 < 3) ⟨[1], rfl⟩
  exact ⟨by decide, r, d, d0, hgreedy, hd, hd0, hle⟩

end HNSWIndex

end LogMind
