import LogMind.Vector.HNSWPool

/-!
# Tombstones in the candidate pool

`search_knn` drops the deleted points after the pool is filled, so tombstones compete
with live points for its `max(k, ef)` places. A live point is sure of its place while
no more than `max(k, ef) - k` tombstones are as near, on the way to it as well.
-/

namespace LogMind

namespace HNSWIndex

variable {V D R : Type}

/-- The search of layer 0 can get from one node to the other. -/
def Reaches (x : HNSWIndex V) (a b : Nat) : Prop :=
  Relation.ReflTransGen (x.Hop 0 kNoSkip) a b

section Results

variable [LinearOrder D] (sp : Space V D R) {x : HNSWIndex V} {q : V} {k ef ep stamp : Nat}

/-- Another node within reach of `ep` that is deleted and as near to the query as `id`. -/
structure Covers (x : HNSWIndex V) (q : V) (ep id t : Nat) : Prop where
  ne : t ≠ id
  reached : x.Reaches ep t
  deleted : x.deleted[t]? = some true
  le : ∃ d e, distance sp x q t = some d ∧ distance sp x q id = some e ∧ d ≤ e

/-- No more than `spare` other tombstones within reach are as near as the node. -/
def Clear (x : HNSWIndex V) (q : V) (ep spare id : Nat) : Prop :=
  ∀ ts : List Nat, ts.Nodup → (∀ t ∈ ts, Covers sp x q ep id t) → ts.length ≤ spare

/-- The nodes that a search from `ep` is about. -/
def Within (x : HNSWIndex V) (ep id : Nat) : Prop :=
  x.OnLayer x.count 0 x.count id ∧ x.Reaches ep id

omit [LinearOrder D] in
theorem Within.walkable (h : x.Linked x.count) :
    Walkable x x.count 0 (fun nb => nb = kNoSkip) (x.Within ep) := by
  rintro a ⟨ha, hreach⟩
  obtain ⟨nbs, hnbs⟩ := h.exists_neighbors ha.1 ha.2.1
  refine ⟨ha.1, nbs, hnbs, fun nb hnb hskip => ?_⟩
  have hlt : nb < x.count := (h.points a 0 nbs hnbs nb hnb).1
  exact ⟨⟨hlt, Nat.zero_le _, hlt.ne⟩, hreach.tail ⟨nbs, hnbs, hnb, hskip⟩⟩

/-- What `search_knn` asks of a candidate. -/
def alive (x : HNSWIndex V) (id : Nat) : Bool := decide (x.deleted[id]? = some false)

omit [LinearOrder D] in
theorem deleted_eq_alive (h : x.Linked x.count) {id : Nat} (hid : id < x.count) :
    x.deleted[id]? = some (!x.alive id) := by
  obtain ⟨b, hb⟩ : ∃ b, x.deleted[id]? = some b :=
    ⟨_, List.getElem?_eq_getElem (by rw [h.deleted_length]; exact hid)⟩
  cases b <;> simp [alive, hb]

/-- The descent lands on a node. -/
theorem descend_isSome (h : x.WellFormed) (hpos : 0 < x.count) (query : V) :
    ∃ ep, descend sp x query 0 x.maxLevel x.entry = some ep ∧ x.OnLayer x.count 0 x.count ep := by
  obtain ⟨hlt, hlevel, -⟩ := h.entry hpos
  obtain ⟨ep, hdescend, hep⟩ := descend_spec sp h.linked query 0
    (fun a l nbs hnbs hmem => absurd (h.linked.points a l nbs hnbs _ hmem).1 (lt_irrefl _))
    x.maxLevel (⟨hlt, hlevel.ge, hlt.ne⟩ : x.OnLayer x.count x.maxLevel x.count x.entry)
  exact ⟨ep, hdescend, hep.1, Nat.zero_le _, hep.2.2⟩

/-- A search returns the first `k` live points of the pool. -/
theorem searchKnn_settled (h : x.WellFormed) (hpos : 0 < x.count) (hk : 1 ≤ k)
    (hdescend : descend sp x q 0 x.maxLevel x.entry = some ep) :
    ep < x.count ∧ ∃ counter s,
      Settled sp x q x.count (max k ef) 0 kNoSkip counter ep (x.Within ep) s ∧
      searchKnn sp x q k ef = some (x.withMarks s.visited counter,
        ((s.found.reverse.filter fun c => x.alive (idOf c)).take k).map
          fun c => (sp.sqrt (ofLex c).1, idOf c)) := by
  obtain ⟨ep', hdescend', hep⟩ := descend_isSome sp h hpos q
  obtain rfl := Option.some.inj (hdescend.symm.trans hdescend')
  obtain ⟨counter, s, hsearch, hs⟩ := searchLayer_settled sp q h.linked
    (Within.walkable h.linked) (⟨hep, .refl⟩ : x.Within ep ep) (show 1 ≤ max k ef by omega)
  have hdead : ∀ c ∈ s.found.reverse, (x.withMarks s.visited counter).deleted[idOf c]? =
      some (!x.alive (idOf c)) := by
    intro c hc
    exact deleted_eq_alive h.linked (hs.sound.found c (List.mem_reverse.mp hc)).ok.1.1
  have hcollect := collectResults_eq sp k x.alive s.found.reverse hdead [] hk
  refine ⟨hep.1, counter, s, hs, ?_⟩
  rw [searchKnn, if_neg (by omega), hdescend, Option.bind_eq_bind, Option.bind_some, hsearch,
    Option.bind_eq_bind, Option.bind_some]
  dsimp only
  rw [hcollect]
  rfl

/-- The results of a search are distinct points that are not deleted, nearest first. -/
theorem searchKnn_sound [Preorder R] (hsqrt : Monotone sp.sqrt) (h : x.WellFormed) (q : V)
    (k ef : Nat) :
    ∃ y result, searchKnn sp x q k ef = some (y, result) ∧ result.length ≤ k ∧
      (result.Pairwise fun a b => a.1 ≤ b.1) ∧ (result.map Prod.snd).Nodup ∧
      ∀ hit ∈ result, x.deleted[hit.2]? = some false ∧
        (distance sp x q hit.2).map sp.sqrt = some hit.1 := by
  by_cases hnone : x.count = 0 ∨ k = 0
  · refine ⟨x, [], ?_, Nat.zero_le k, List.Pairwise.nil, List.nodup_nil, ?_⟩
    · rw [searchKnn, if_pos hnone]
      rfl
    · exact fun hit hhit => absurd hhit List.not_mem_nil
  obtain ⟨hpos, hk⟩ := not_or.mp hnone
  obtain ⟨ep, hdescend, -⟩ := descend_isSome sp h (Nat.pos_of_ne_zero hpos) q
  obtain ⟨-, counter, s, hs, hsearch⟩ :=
    searchKnn_settled sp h (Nat.pos_of_ne_zero hpos) (Nat.pos_of_ne_zero hk) hdescend
  have hsub : ((s.found.reverse.filter fun c => x.alive (idOf c)).take k).Sublist
      s.found.reverse := (List.take_sublist _ _).trans List.filter_sublist
  refine ⟨_, _, hsearch, ?_, ?_, ?_, ?_⟩
  · rw [List.length_map]
    exact List.length_take_le _ _
  · rw [List.pairwise_map]
    have hsorted : s.found.reverse.Pairwise (· ≤ ·) := List.pairwise_reverse.mpr hs.found_sorted
    apply (hsorted.sublist hsub).imp
    intro a b hab
    exact hsqrt (Prod.Lex.monotone_fst_ofLex hab)
  · rw [List.map_map]
    have hids : (s.found.reverse.map idOf).Nodup := by
      rw [List.map_reverse, List.nodup_reverse]
      exact hs.sound.nodup
    exact hids.sublist (hsub.map idOf)
  · intro hit hhit
    obtain ⟨c, hc, rfl⟩ := List.mem_map.mp hhit
    have halive := (List.mem_filter.mp (List.mem_of_mem_take hc)).2
    have hreached := hs.sound.found c (List.mem_reverse.mp (hsub.subset hc))
    constructor
    · exact of_decide_eq_true halive
    · rw [hreached.dist]
      rfl

end Results

end HNSWIndex

end LogMind
