import LogMind.Vector.HNSWTombstones

/-!
# What pruning costs

`add_point` links a new node both ways, and `shrink_links` takes the farthest node out of
a back list that got too long. A node can lose its last incoming link to that, the new
node at once. While every link taken out still leads to its end through others, layer 0
stays in one piece, and a search that may keep every node returns them all.
-/

namespace LogMind

namespace HNSWIndex

variable {V D R : Type}

/-- A step of `add_point`; points get the ids 0, 1, 2, … -/
def addNext [LinearOrder D] (sp : Space V D R) (x : HNSWIndex V) (vec : V) :
    Option (HNSWIndex V) :=
  addPoint sp x x.count vec

/-- Every node of layer 0 leads to every other. -/
def OnePiece (x : HNSWIndex V) : Prop :=
  ∀ a < x.count, ∀ b < x.count, Relation.ReflTransGen x.Adjacent a b

/-- What a new point leaves of the links there were, and of those back to it: where one
was taken out, others lead to its end. -/
structure Harmless (x y : HNSWIndex V) : Prop where
  old : ∀ a b, x.Adjacent a b → Relation.ReflTransGen y.Adjacent a b
  back : ∀ nb, y.Adjacent x.count nb → Relation.ReflTransGen y.Adjacent nb x.count

section Search

variable [LinearOrder D] (sp : Space V D R) {x : HNSWIndex V} {q : V} {n k ef ep stamp : Nat}

omit [LinearOrder D] in
/-- Without a node of the id that `search_knn` skips, its steps are the links. -/
theorem reaches_iff (h : x.Linked n) (hids : n < wordBound32) {a b : Nat} :
    x.Reaches a b ↔ Relation.ReflTransGen x.Adjacent a b := by
  constructor
  · apply Relation.ReflTransGen.mono
    rintro a b ⟨nbs, hnbs, hb, -⟩
    exact ⟨nbs, hnbs, hb⟩
  · apply Relation.ReflTransGen.mono
    rintro a b ⟨nbs, hnbs, hb⟩
    have hlt : b < n := (h.points a 0 nbs hnbs b hb).1
    refine ⟨nbs, hnbs, hb, ?_⟩
    unfold wordBound32 at hids
    unfold kNoSkip
    omega

/-- With a place for every node, what is kept is what can be reached. -/
theorem Settled.mem_found_iff (h : x.Linked x.count) (hef : x.count ≤ ef) {s : Search D}
    (hs : Settled sp x q x.count ef 0 kNoSkip stamp ep (x.Within ep) s) (hep : ep < x.count)
    (id : Nat) : id ∈ s.found.map idOf ↔ x.Reaches ep id := by
  have hlt : ∀ id ∈ s.found.map idOf, id < x.count := by
    intro id hid
    obtain ⟨c, hc, rfl⟩ := List.mem_map.mp hid
    exact (hs.sound.found c hc).ok.1.1
  constructor
  · intro hid
    obtain ⟨c, hc, rfl⟩ := List.mem_map.mp hid
    exact (hs.sound.found c hc).ok.2
  · intro hreach
    by_cases hfull : s.found.length = ef
    · -- a full queue holds all nodes
      have hid : id < x.count := by
        rcases Relation.ReflTransGen.cases_tail hreach with rfl | ⟨a, -, nbs, hnbs, hmem, -⟩
        · exact hep
        · exact (h.points a 0 nbs hnbs id hmem).1
      have hsub : (s.found.map idOf).Subperm (List.range x.count) :=
        List.subperm_of_subset hs.sound.nodup fun a ha => List.mem_range.mpr (hlt a ha)
      have hperm := hsub.perm_of_length_le (by
        rw [List.length_range, List.length_map]
        omega)
      exact hperm.mem_iff.mpr (List.mem_range.mpr hid)
    · have hnear : ∀ id e, ¬ Dropped ef s id e := fun id e hdropped => hfull hdropped.2.1
      have hmark := hs.reached sp h.data_length (fun id e (_ : True) _ => hnear id e)
        (Relation.ReflTransGen.mono (fun a b hhop => ⟨hhop, trivial⟩) _ _ hreach)
      exact hs.mem_found sp h.data_length hmark fun e _ => hnear id e

/-- In an index without tombstones a search that may keep every node returns the nodes
that can be reached from where the descent lands. -/
theorem searchKnn_reachable (h : x.WellFormed) (hdead : ∀ dead ∈ x.deleted, dead = false)
    (hids : x.count < wordBound32) (hk : x.count ≤ k)
    (hdescend : descend sp x q 0 x.maxLevel x.entry = some ep) :
    ∃ y result, searchKnn sp x q k ef = some (y, result) ∧ (result.map Prod.snd).Nodup ∧
      ∀ id, id ∈ result.map Prod.snd ↔
        id < x.count ∧ Relation.ReflTransGen x.Adjacent ep id := by
  by_cases hzero : x.count = 0
  · refine ⟨x, [], by rw [searchKnn, if_pos (.inl hzero)]; rfl, List.nodup_nil, fun id => ?_⟩
    simp [hzero]
  obtain ⟨hep, counter, s, hs, hsearch⟩ :=
    searchKnn_settled sp h (by omega) (show 1 ≤ k by omega) hdescend
  have hlt : ∀ c ∈ s.found, idOf c < x.count := fun c hc => (hs.sound.found c hc).ok.1.1
  have halive : (s.found.reverse.filter fun c => x.alive (idOf c)) = s.found.reverse := by
    apply List.filter_eq_self.mpr
    intro c hc
    have hget := deleted_eq_alive h.linked (hlt c (List.mem_reverse.mp hc))
    have hlive : (!x.alive (idOf c)) = false := hdead _ (List.mem_of_getElem? hget)
    simpa using hlive
  have hlength : s.found.reverse.length ≤ k := by
    have hle := length_le_of_nodup hs.sound.nodup fun id hid => by
      obtain ⟨c, hc, rfl⟩ := List.mem_map.mp hid
      exact hlt c hc
    rw [List.length_map] at hle
    rw [List.length_reverse]
    omega
  rw [halive, List.take_of_length_le hlength] at hsearch
  have hresult : (s.found.reverse.map fun c => (sp.sqrt (ofLex c).1, idOf c)).map Prod.snd =
      (s.found.map idOf).reverse := by
    rw [List.map_map, ← List.map_reverse]
    rfl
  refine ⟨_, _, hsearch, ?_, fun id => ?_⟩
  · rw [hresult, List.nodup_reverse]
    exact hs.sound.nodup
  · rw [hresult, List.mem_reverse, hs.mem_found_iff sp h.linked (by omega) hep,
      reaches_iff h.linked hids]
    refine ⟨fun hreach => ⟨?_, hreach⟩, And.right⟩
    rcases Relation.ReflTransGen.cases_tail hreach with rfl | ⟨a, -, nbs, hnbs, hmem⟩
    · exact hep
    · exact (h.linked.points a 0 nbs hnbs id hmem).1

end Search

section Steps

variable [LinearOrder D] (sp : Space V D R) {x y : HNSWIndex V} {vec : V}

/-- What a new point does to the index. -/
structure Added (x : HNSWIndex V) (vec : V) (y : HNSWIndex V) : Prop where
  wf : y.WellFormed
  count : y.count = x.count + 1
  M_max0 : y.M_max0 = x.M_max0
  data : y.data = x.data ++ [vec]
  deleted : y.deleted = x.deleted ++ [false]
  joined : 0 < x.count →
    ∃ level, Joined (x.grown vec level) (x.count + 1) x.count 0 x.M_max0 y

theorem addNext_spec (h : x.WellFormed) (vec : V) :
    ∃ y, addNext sp x vec = some y ∧ Added x vec y := by
  obtain ⟨links, visited, counter, entry, maxLevel, level, hadd, hwf, hjoined⟩ :=
    addPoint_spec sp h vec
  exact ⟨_, hadd, hwf, rfl, rfl, rfl, rfl, fun hpos => ⟨level, hjoined hpos⟩⟩

/-- The new point has a neighbour among the older nodes. -/
theorem Added.exists_neighbor (hy : Added x vec y) (hpos : 0 < x.count) :
    ∃ nb < x.count, y.Adjacent x.count nb := by
  obtain ⟨level, nearest, hne, hon, hlist, -⟩ := hy.joined hpos
  obtain ⟨nb, hnb⟩ := List.exists_mem_of_ne_nil nearest hne
  obtain ⟨hlt, -, hother⟩ := hon nb hnb
  exact ⟨nb, by omega, nearest, hlist, hnb⟩

/-- One step: layer 0 is still in one piece exactly when what was taken out was
harmless. -/
theorem Added.harmless_iff (h : x.WellFormed) (hpiece : x.OnePiece) (hy : Added x vec y) :
    Harmless x y ↔ y.OnePiece := by
  constructor
  · intro hharmless
    rw [OnePiece, hy.count]
    by_cases hzero : x.count = 0
    · intro a ha b hb
      obtain rfl : a = b := by omega
      exact .refl
    · obtain ⟨nb, hnb, hedge⟩ := hy.exists_neighbor (by omega)
      have hold : ∀ a < x.count, ∀ b < x.count, Relation.ReflTransGen y.Adjacent a b :=
        fun a ha b hb => Relation.reflTransGen_closed hharmless.old a b (hpiece a ha b hb)
      exact reach_of_joined hnb hold (.single hedge) (hharmless.back nb hedge)
  · intro hone
    constructor
    · rintro a b ⟨nbs, hnbs, hb⟩
      have ha : a < x.count := (h.linked.le_of_neighbors hnbs).1
      have hb : b < x.count := (h.linked.points a 0 nbs hnbs b hb).1
      exact hone a (by rw [hy.count]; omega) b (by rw [hy.count]; omega)
    · rintro nb ⟨nbs, hnbs, hnb⟩
      have hlt : nb < y.count := (hy.wf.linked.points _ 0 nbs hnbs nb hnb).1
      exact hone nb hlt x.count (by rw [hy.count]; omega)

/-- As long as every list has room nothing is taken out. -/
theorem Added.harmless_of_fits (h : x.WellFormed) (hy : Added x vec y)
    (hfits : x.count ≤ x.M_max0) : Harmless x y := by
  by_cases hzero : x.count = 0
  · constructor
    · rintro a b ⟨nbs, hnbs, -⟩
      exact absurd (h.linked.le_of_neighbors hnbs).1 (by omega)
    · rintro nb ⟨nbs, hnbs, hnb⟩
      obtain ⟨hlt, hne, -⟩ := hy.wf.linked.points _ 0 nbs hnbs nb hnb
      rw [hy.count] at hlt
      omega
  · obtain ⟨level, hjoined⟩ := hy.joined (by omega)
    obtain ⟨nearest, -, hlt, hadj⟩ := adjacent_of_joined h.linked hfits hjoined
    constructor
    · exact fun a b hab => .single ((hadj a b).mpr (.inl hab))
    · intro nb hedge
      rcases (hadj _ _).mp hedge with ⟨nbs, hnbs, -⟩ | ⟨-, hnb⟩ | ⟨-, hmem⟩
      · exact absurd (h.linked.le_of_neighbors hnbs).1 (lt_irrefl _)
      · exact .single ((hadj _ _).mpr (.inr (.inr ⟨rfl, hnb⟩)))
      · exact absurd (hlt _ hmem) (lt_irrefl _)

/-- Every pruning of layer 0 in a run is harmless. -/
def Unbroken (M efConstruction : Nat) (vecs : List V) : Prop :=
  Transition.Meets (addNext sp) (fun x vec => ∀ y, addNext sp x vec = some y → Harmless x y)
    (new M efConstruction) vecs

/-- The index after a run holds the points and no tombstone. -/
theorem run_addNext (M efConstruction : Nat) (vecs : List V) :
    ∃ x, Transition.run (addNext sp) (new M efConstruction) vecs = some x ∧ x.WellFormed ∧
      x.data = vecs ∧ ∀ dead ∈ x.deleted, dead = false := by
  induction vecs using List.reverseRecOn with
  | nil =>
      exact ⟨_, rfl, new_wellFormed M efConstruction, rfl, fun _ h => absurd h List.not_mem_nil⟩
  | append_singleton vecs vec ih =>
      obtain ⟨x, hrun, hwf, hdata, hdead⟩ := ih
      obtain ⟨y, hadd, hy⟩ := addNext_spec sp hwf vec
      refine ⟨y, ?_, hy.wf, by rw [hy.data, hdata], fun dead hmem => ?_⟩
      · rw [Transition.run_append, hrun, Option.bind_some]
        exact Transition.run_cons_eq_some.mpr ⟨y, hadd, rfl⟩
      · rw [hy.deleted] at hmem
        rcases List.mem_append.mp hmem with hmem | hmem
        · exact hdead dead hmem
        · exact List.mem_singleton.mp hmem

/-- Runs of so few points that no list can get too long. -/
theorem meets_of_fits (h : x.WellFormed) (vecs : List V)
    (hfits : x.count + vecs.length ≤ x.M_max0 + 1) :
    Transition.Meets (addNext sp) (fun x vec => ∀ y, addNext sp x vec = some y → Harmless x y)
      x vecs := by
  induction vecs generalizing x with
  | nil => trivial
  | cons vec vecs ih =>
      rw [List.length_cons] at hfits
      obtain ⟨y, hadd, hy⟩ := addNext_spec sp h vec
      have hstep : ∀ z, addNext sp x vec = some z → z = y :=
        fun z hz => Option.some.inj (hz.symm.trans hadd)
      refine ⟨fun z hz => ?_, fun z hz => ?_⟩
      · obtain rfl := hstep z hz
        exact hy.harmless_of_fits h (by omega)
      · obtain rfl := hstep z hz
        exact ih hy.wf (by rw [hy.count, hy.M_max0]; omega)

/-- A run is unbroken exactly when layer 0 is in one piece all the time. -/
theorem unbroken_iff (M efConstruction : Nat) (vecs : List V) :
    Unbroken sp M efConstruction vecs ↔ ∀ before, before <+: vecs → ∀ y,
      Transition.run (addNext sp) (new M efConstruction) before = some y → y.OnePiece := by
  have hstep : ∀ x vec y, WellFormed x → OnePiece x → addNext sp x vec = some y →
      WellFormed y ∧ (Harmless x y ↔ OnePiece y) := by
    intro x vec y hwf hpiece hadd
    obtain ⟨z, hadd', hz⟩ := addNext_spec sp hwf vec
    obtain rfl := Option.some.inj (hadd.symm.trans hadd')
    exact ⟨hz.wf, hz.harmless_iff hwf hpiece⟩
  have hnew : OnePiece (new M efConstruction : HNSWIndex V) :=
    fun a ha => absurd ha (Nat.not_lt_zero a)
  exact Transition.meets_iff_prefixes hstep (new_wellFormed M efConstruction) hnew vecs

/-- For every sequence of points, a search that may keep every node returns those that can
be reached from where the descent lands. In an unbroken run these are all points; a run is
unbroken exactly when layer 0 is in one piece all the time, and every run of no more points
than a full list of layer 0 and its owner is. -/
theorem run_addNext_reachable (M efConstruction : Nat) (vecs : List V) :
    ∃ x, Transition.run (addNext sp) (new M efConstruction) vecs = some x ∧ x.data = vecs ∧
      (∀ query ep, descend sp x query 0 x.maxLevel x.entry = some ep →
        (vecs.length < wordBound32 → ∀ k ef, vecs.length ≤ k →
          ∃ y result, searchKnn sp x query k ef = some (y, result) ∧
            (result.map Prod.snd).Nodup ∧ ∀ id, id ∈ result.map Prod.snd ↔
              id < vecs.length ∧ Relation.ReflTransGen x.Adjacent ep id) ∧
        (Unbroken sp M efConstruction vecs →
          ∀ id < vecs.length, Relation.ReflTransGen x.Adjacent ep id)) ∧
      (Unbroken sp M efConstruction vecs ↔ ∀ before, before <+: vecs → ∀ y,
        Transition.run (addNext sp) (new M efConstruction) before = some y → y.OnePiece) ∧
      (vecs.length ≤ 2 * max M 2 % wordBound + 1 → Unbroken sp M efConstruction vecs) := by
  obtain ⟨x, hrun, hwf, hdata, hdead⟩ := run_addNext sp M efConstruction vecs
  have hcount : x.count = vecs.length := by rw [← hwf.linked.data_length, hdata]
  refine ⟨x, hrun, hdata, fun query ep hdescend => ⟨fun hids k ef hk => ?_,
    fun hunbroken id hid => ?_⟩, unbroken_iff sp M efConstruction vecs, fun hfits => ?_⟩
  · rw [← hcount] at hids hk ⊢
    exact searchKnn_reachable sp hwf hdead hids hk hdescend
  · obtain ⟨ep', hdescend', hep⟩ := descend_isSome sp hwf (by omega) query
    obtain rfl := Option.some.inj (hdescend.symm.trans hdescend')
    have hpiece : x.OnePiece :=
      (unbroken_iff sp M efConstruction vecs).mp hunbroken vecs List.prefix_rfl x hrun
    exact hpiece ep hep.1 id (by omega)
  · apply meets_of_fits sp (new_wellFormed M efConstruction)
    show 0 + vecs.length ≤ 2 * max M 2 % wordBound + 1
    omega

end Steps

/-- Five equal points fill each other's lists, so that the back links to a sixth point
elsewhere are taken out at once: no search finds it. -/
theorem pruned_point_is_lost :
    ∃ x ep y result, Transition.run (addNext line) (new 2 200) [0, 0, 0, 0, 0, 100] = some x ∧
      descend line x 100 0 x.maxLevel x.entry = some ep ∧
      ¬ Relation.ReflTransGen x.Adjacent ep 5 ∧
      searchKnn line x 100 6 64 = some (y, result) ∧ 5 ∉ result.map Prod.snd := by
  obtain ⟨x, hrun, hwf, hdata, hdead⟩ := run_addNext line 2 200 [0, 0, 0, 0, 0, 100]
  have hcount : x.count = 6 := by rw [← hwf.linked.data_length, hdata]; rfl
  obtain ⟨ep, hdescend, -⟩ := descend_isSome line hwf (by omega) 100
  obtain ⟨y, result, hsearch, -, hmem⟩ : ∃ y result,
      searchKnn line x 100 6 64 = some (y, result) ∧ (result.map Prod.snd).Nodup ∧
      ∀ id, id ∈ result.map Prod.snd ↔
        id < x.count ∧ Relation.ReflTransGen x.Adjacent ep id :=
    searchKnn_reachable line hwf hdead (by rw [hcount]; decide) hcount.le hdescend
  have hids : ((Transition.run (addNext line) (new 2 200) [0, 0, 0, 0, 0, 100]).bind fun x =>
      (searchKnn line x 100 6 64).map fun p => p.2.map Prod.snd) = some [0, 1, 2, 3, 4] := by
    decide
  rw [hrun, Option.bind_some, hsearch] at hids
  have hresult : result.map Prod.snd = [0, 1, 2, 3, 4] := Option.some.inj hids
  have hlost : 5 ∉ result.map Prod.snd := by
    rw [hresult]
    decide
  refine ⟨x, ep, y, result, hrun, hdescend, fun hreach => ?_, hsearch, hlost⟩
  exact hlost ((hmem 5).mpr ⟨by omega, hreach⟩)

end HNSWIndex

end LogMind
