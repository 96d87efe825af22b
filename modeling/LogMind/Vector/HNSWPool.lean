import LogMind.Vector.HNSWExact

/-!
# The search of a layer with a bounded queue

`search_layer` keeps the nearest `ef` nodes it has seen. What it has seen and does not
keep, and what it has seen and does not look around, is as far as everything it keeps:
`Beyond`. So a node that is nearer than something kept at the end, and that can be
reached through such nodes, is kept itself.
-/

namespace LogMind

open Loop

namespace HNSWIndex

variable {V D R : Type}

/-- A step that a search of the layer may take. -/
def Hop (x : HNSWIndex V) (layer skip a b : Nat) : Prop :=
  ∃ nbs, x.neighbors a layer = some nbs ∧ b ∈ nbs ∧ b ≠ skip

/-- The queue is full of candidates that are not farther than `d`. -/
def Beyond (ef : Nat) (s : Search D) (d : D) [LE D] : Prop :=
  s.found.length = ef ∧ ∀ c ∈ s.found, (ofLex c).1 ≤ d

/-- A node at distance `d` that the queue has no place for. -/
def Dropped (ef : Nat) (s : Search D) (id : Nat) (d : D) [LE D] : Prop :=
  id ∉ s.found.map idOf ∧ Beyond ef s d

/-- The links of a layer lead from its nodes to its nodes, and no visited mark is newer than
the last stamp. -/
structure LayerGraph (x : HNSWIndex V) (n layer : Nat) : Prop where
  data_length : x.data.length = n
  visited_length : x.visited.length = n
  marks : ∀ m ∈ x.visited, m ≤ x.visitCounter
  counter_lt : x.visitCounter < wordBound32
  closed : ∀ id nbs, x.neighbors id layer = some nbs →
    ∀ nb ∈ nbs, nb < n ∧ ∃ nbs', x.neighbors nb layer = some nbs'

/-- The layers of an index are such graphs. -/
theorem Linked.layerGraph {x : HNSWIndex V} {n : Nat} (h : x.Linked n) (layer : Nat) :
    x.LayerGraph n layer := by
  refine ⟨h.data_length, h.visited_length, h.marks, h.counter_lt, ?_⟩
  intro id nbs hnbs nb hnb
  obtain ⟨hlt, -, hle⟩ := h.points id layer nbs hnbs nb hnb
  exact ⟨hlt, h.exists_neighbors hlt hle⟩

section Search

variable [LinearOrder D] (sp : Space V D R) {x : HNSWIndex V} {q : V}
  {n ef layer skip stamp ep : Nat} {P : Nat → Prop}

/-- What the loop of `search_layer` keeps of the nodes it has seen. -/
structure BestFirst (x : HNSWIndex V) (q : V) (n ef layer skip stamp : Nat) (P : Nat → Prop)
    (visiting : Nat → Prop) (s : Search D) : Prop where
  sound : Sound sp x q n stamp P s
  found_sorted : s.found.Pairwise (· ≥ ·)
  queue_sorted : s.toVisit.Pairwise (· ≤ ·)
  length_le : s.found.length ≤ ef
  kept : ∀ id d, s.visited[id]? = some stamp → distance sp x q id = some d →
    id ∈ s.found.map idOf ∨ Beyond ef s d
  closed : ∀ id d, s.visited[id]? = some stamp → distance sp x q id = some d →
    id ∈ s.toVisit.map idOf ∨ visiting id ∨
      (∀ nb, x.Hop layer skip id nb → s.visited[nb]? = some stamp) ∨ Dropped ef s id d

omit [LinearOrder D] in
/-- Marks are not taken back. -/
theorem mark_set {visited : List Nat} {id nb : Nat} (hnb : nb < visited.length)
    (h : visited[id]? = some stamp) : (visited.set nb stamp)[id]? = some stamp := by
  rw [List.getElem?_set]
  split
  · rfl
  · exact h

/-- A candidate that enters leaves nearer ones in the queue than before. -/
theorem Beyond.keepNearest {found : List (Cand D)} {visited visited' : List Nat}
    {toVisit toVisit' : List (Cand D)} {c : Cand D} {d : D}
    (h : Beyond ef ⟨visited, toVisit, found⟩ d)
    (haccepts : accepts ef found (ofLex c).1 = some true)
    (hne : found ≠ []) :
    Beyond ef ⟨visited', toVisit', keepNearest ef found c⟩ d := by
  obtain ⟨hlength, hle⟩ := h
  change found.length = ef at hlength
  obtain ⟨far, rest, rfl⟩ := List.exists_cons_of_ne_nil hne
  have hnear : (ofLex c).1 < (ofLex far).1 := by
    rw [accepts, if_neg (by omega)] at haccepts
    simpa using haccepts
  constructor
  · show (HNSWIndex.keepNearest ef (far :: rest) c).length = ef
    unfold HNSWIndex.keepNearest
    dsimp only
    rw [List.orderedInsert_length, if_pos (by omega), List.length_tail,
      List.orderedInsert_length]
    omega
  · intro e he
    rcases mem_keepNearest he with rfl | he
    · exact hnear.le.trans (hle far List.mem_cons_self)
    · exact hle e he

/-- What leaves the queue is not nearer than what stays. -/
theorem mem_or_beyond_of_keepNearest {found : List (Cand D)} {visited : List Nat}
    {toVisit : List (Cand D)} {c e : Cand D} (hsorted : found.Pairwise (· ≥ ·))
    (hlength : found.length ≤ ef) (he : e ∈ found.orderedInsert (· ≥ ·) c) :
    e ∈ keepNearest ef found c ∨
      Beyond ef ⟨visited, toVisit, keepNearest ef found c⟩ (ofLex e).1 := by
  have hinsert := hsorted.orderedInsert c found
  have hcount : (found.orderedInsert (· ≥ ·) c).length = found.length + 1 :=
    List.orderedInsert_length _ found c
  by_cases hfull : ef < (found.orderedInsert (· ≥ ·) c).length
  · have hkeep : keepNearest ef found c = (found.orderedInsert (· ≥ ·) c).tail := if_pos hfull
    rw [hkeep]
    obtain ⟨far, rest, hcons⟩ := List.exists_cons_of_ne_nil
      (List.ne_nil_of_length_pos (l := found.orderedInsert (· ≥ ·) c) (by omega))
    rw [hcons] at he hinsert hcount ⊢
    rcases List.mem_cons.mp he with rfl | he
    · refine .inr ⟨?_, fun e' he' => ?_⟩
      · show rest.length = ef
        rw [hcons, hcount] at hfull
        rw [List.length_cons] at hcount
        omega
      · exact Prod.Lex.monotone_fst _ _ ((List.pairwise_cons.mp hinsert).1 e' he')
    · exact .inl he
  · have hkeep : keepNearest ef found c = found.orderedInsert (· ≥ ·) c := if_neg hfull
    rw [hkeep]
    exact .inl he

theorem keepNearest_length_le {found : List (Cand D)} {c : Cand D}
    (hlength : found.length ≤ ef) : (keepNearest ef found c).length ≤ ef := by
  unfold keepNearest
  dsimp only
  split
  · rw [List.length_tail, List.orderedInsert_length]
    omega
  · omega

/-- What is not accepted is as far as everything kept. -/
theorem beyond_of_rejected {s : Search D} {d : D} (hsorted : s.found.Pairwise (· ≥ ·))
    (hlength : s.found.length ≤ ef) (hne : s.found ≠ [])
    (hrejected : accepts ef s.found d = some false) : Beyond ef s d := by
  unfold accepts at hrejected
  split at hrejected
  case isTrue => exact absurd (Option.some.inj hrejected).symm Bool.false_ne_true
  case isFalse hfull =>
    obtain ⟨far, rest, hfound⟩ := List.exists_cons_of_ne_nil hne
    rw [hfound] at hrejected hsorted
    have hfar : (ofLex far).1 ≤ d := by simpa using hrejected
    refine ⟨le_antisymm hlength (not_lt.mp hfull), fun c hc => ?_⟩
    rw [hfound] at hc
    exact (Prod.Lex.monotone_fst _ _ (hsorted.rel_head hc)).trans hfar

section Visit

variable {visiting : Nat → Prop} {s : Search D} {nb : Nat} {d : D}

/-- A node that is seen and not accepted. -/
theorem BestFirst.reject (hs : BestFirst sp x q n ef layer skip stamp P visiting s)
    (hlt : nb < s.visited.length) (hfresh : nb ∉ s.found.map idOf)
    (hd : distance sp x q nb = some d)
    (hrejected : accepts ef s.found d = some false)
    (hsound : Sound sp x q n stamp P { s with visited := s.visited.set nb stamp }) :
    BestFirst sp x q n ef layer skip stamp P visiting
      { s with visited := s.visited.set nb stamp } := by
  have hbeyond : Beyond ef s d :=
    beyond_of_rejected hs.found_sorted hs.length_le hs.sound.found_ne hrejected
  have hold : ∀ id : Nat, id ≠ nb → (s.visited.set nb stamp)[id]? = some stamp →
      s.visited[id]? = some stamp := by
    intro id hid hset
    rwa [List.getElem?_set_ne (Ne.symm hid)] at hset
  refine ⟨hsound, hs.found_sorted, hs.queue_sorted, hs.length_le, fun id e hid he => ?_,
    fun id e hid he => ?_⟩
  · by_cases heq : id = nb
    · subst heq
      obtain rfl := Option.some.inj (hd.symm.trans he)
      exact .inr hbeyond
    · exact hs.kept id e (hold id heq hid) he
  · by_cases heq : id = nb
    · subst heq
      obtain rfl := Option.some.inj (hd.symm.trans he)
      exact .inr (.inr (.inr ⟨hfresh, hbeyond⟩))
    · rcases hs.closed id e (hold id heq hid) he with hqueue | hvisiting | hall | hfar
      · exact .inl hqueue
      · exact .inr (.inl hvisiting)
      · exact .inr (.inr (.inl fun nb' hhop => mark_set hlt (hall nb' hhop)))
      · exact .inr (.inr (.inr hfar))

/-- A node that enters both queues. -/
theorem BestFirst.accept (hs : BestFirst sp x q n ef layer skip stamp P visiting s)
    (hlt : nb < s.visited.length) (hd : distance sp x q nb = some d)
    (haccepts : accepts ef s.found d = some true)
    (hsound : Sound sp x q n stamp P ⟨s.visited.set nb stamp,
      s.toVisit.orderedInsert (· ≤ ·) (toLex (d, nb)), keepNearest ef s.found (toLex (d, nb))⟩) :
    BestFirst sp x q n ef layer skip stamp P visiting ⟨s.visited.set nb stamp,
      s.toVisit.orderedInsert (· ≤ ·) (toLex (d, nb)),
      keepNearest ef s.found (toLex (d, nb))⟩ := by
  have hold : ∀ id : Nat, id ≠ nb → (s.visited.set nb stamp)[id]? = some stamp →
      s.visited[id]? = some stamp := by
    intro id hid hset
    rwa [List.getElem?_set_ne (Ne.symm hid)] at hset
  refine ⟨hsound, ?_, hs.queue_sorted.orderedInsert _ _, keepNearest_length_le hs.length_le,
    fun id e hid he => ?_, fun id e hid he => ?_⟩
  · exact (hs.found_sorted.orderedInsert _ _).sublist (keepNearest_sublist ef s.found _)
  · have hdist : ∀ c ∈ s.found.orderedInsert (· ≥ ·) (toLex (d, nb)),
        distance sp x q (idOf c) = some (ofLex c).1 := by
      intro c hc
      rcases (List.mem_orderedInsert _).mp hc with rfl | hc
      · exact hd
      · exact (hs.sound.found c hc).dist
    have hseen : ∃ c ∈ s.found.orderedInsert (· ≥ ·) (toLex (d, nb)), idOf c = id ∨
        Beyond ef s e := by
      by_cases heq : id = nb
      · exact ⟨_, (List.mem_orderedInsert _).mpr (.inl rfl), .inl heq.symm⟩
      · rcases hs.kept id e (hold id heq hid) he with hfound | hfar
        · obtain ⟨c, hc, hcid⟩ := List.mem_map.mp hfound
          exact ⟨c, (List.mem_orderedInsert _).mpr (.inr hc), .inl hcid⟩
        · exact ⟨_, (List.mem_orderedInsert _).mpr (.inl rfl), .inr hfar⟩
    obtain ⟨c, hc, rfl | hfar⟩ := hseen
    · rcases mem_or_beyond_of_keepNearest hs.found_sorted hs.length_le hc with hmem | hfar
      · exact .inl (List.mem_map_of_mem hmem)
      · exact .inr (Option.some.inj ((hdist c hc).symm.trans he) ▸ hfar)
    · exact .inr (hfar.keepNearest haccepts hs.sound.found_ne)
  · have hids : ∀ id, id = nb ∨ id ∈ s.toVisit.map idOf →
        id ∈ (s.toVisit.orderedInsert (· ≤ ·) (toLex (d, nb))).map idOf := by
      rintro id (rfl | hid)
      · exact List.mem_map.mpr ⟨_, (List.mem_orderedInsert _).mpr (.inl rfl), rfl⟩
      · obtain ⟨c, hc, rfl⟩ := List.mem_map.mp hid
        exact List.mem_map_of_mem ((List.mem_orderedInsert _).mpr (.inr hc))
    by_cases heq : id = nb
    · exact .inl (hids id (.inl heq))
    · rcases hs.closed id e (hold id heq hid) he with hqueue | hvisiting | hall | hfar
      · exact .inl (hids id (.inr hqueue))
      · exact .inr (.inl hvisiting)
      · exact .inr (.inr (.inl fun nb' hhop => mark_set hlt (hall nb' hhop)))
      · refine .inr (.inr (.inr ⟨fun hmem => ?_, hfar.2.keepNearest haccepts hs.sound.found_ne⟩))
        obtain ⟨c, hc, hcid⟩ := List.mem_map.mp hmem
        rcases mem_keepNearest hc with rfl | hc
        · exact heq hcid.symm
        · exact hfar.1 (hcid ▸ List.mem_map_of_mem hc)

/-- One neighbour: it has its mark afterwards, and what had a mark still has it. -/
theorem visitNeighbor_bestFirst (hn : x.data.length = n)
    (hs : BestFirst sp x q n ef layer skip stamp P visiting s) (hnb : nb < n)
    (hP : nb ≠ skip → P nb) :
    ∃ t, visitNeighbor sp x q ef skip stamp s nb = some t ∧
      BestFirst sp x q n ef layer skip stamp P visiting t ∧ pending stamp t ≤ pending stamp s ∧
      (nb ≠ skip → t.visited[nb]? = some stamp) ∧
      ∀ id : Nat, s.visited[id]? = some stamp → t.visited[id]? = some stamp := by
  obtain ⟨t, hvisit, hsound, hpending⟩ := visitNeighbor_sound sp ef hn hs.sound hnb hP
  by_cases hskip : nb = skip
  · obtain rfl := Option.some.inj ((if_pos hskip).symm.trans hvisit)
    exact ⟨s, hvisit, hs, hpending, fun hne => absurd hskip hne, fun _ h => h⟩
  rcases visitNeighbor_cases sp ef hn hs.sound hnb hskip with
    ⟨hmark, hsame⟩ | ⟨mark, d, b, hmark, hne, hd, haccepts, hstep⟩
  · obtain rfl := Option.some.inj (hsame.symm.trans hvisit)
    exact ⟨s, hsame, hs, hpending, fun _ => hmark, fun _ h => h⟩
  have hlt : nb < s.visited.length := by rw [hs.sound.visited_length]; exact hnb
  have hself : (s.visited.set nb stamp)[nb]? = some stamp := List.getElem?_set_self hlt
  obtain rfl := Option.some.inj (hstep.symm.trans hvisit)
  cases b with
  | false =>
      exact ⟨_, hvisit, hs.reject sp hlt (hs.sound.fresh sp hmark hne) hd haccepts hsound, hpending,
        fun _ => hself, fun id => mark_set hlt⟩
  | true =>
      exact ⟨_, hvisit, hs.accept sp hlt hd haccepts hsound, hpending, fun _ => hself,
        fun id => mark_set hlt⟩

end Visit

/-- Taking a candidate off the queue. -/
theorem BestFirst.pop {s : Search D} {cur : Cand D} {rest : List (Cand D)}
    (hs : BestFirst sp x q n ef layer skip stamp P (fun _ => False) s)
    (hvisit : s.toVisit = cur :: rest) :
    BestFirst sp x q n ef layer skip stamp P (fun id => id = idOf cur)
      { s with toVisit := rest } := by
  have hqueue := hs.queue_sorted
  rw [hvisit] at hqueue
  refine ⟨⟨hs.sound.visited_length, hs.sound.marks, hs.sound.found_ne, hs.sound.found,
    fun c hc => hs.sound.toVisit c (hvisit ▸ List.mem_cons_of_mem _ hc), hs.sound.nodup⟩,
    hs.found_sorted, (List.pairwise_cons.mp hqueue).2, hs.length_le, hs.kept,
    fun id d hid hd => ?_⟩
  rcases hs.closed id d hid hd with hmem | hfalse | hrest
  · rw [hvisit, List.map_cons] at hmem
    rcases List.mem_cons.mp hmem with rfl | hmem
    · exact .inr (.inl rfl)
    · exact .inl hmem
  · exact hfalse.elim
  · exact .inr (.inr hrest)

/-- All neighbours of the candidate taken off. -/
theorem visitNeighbors_bestFirst (hn : x.data.length = n) {s : Search D} {cur : Nat}
    (hs : BestFirst sp x q n ef layer skip stamp P (fun id => id = cur) s) {nbs : List Nat}
    (hnbs : x.neighbors cur layer = some nbs)
    (hgood : ∀ nb ∈ nbs, nb < n ∧ (nb ≠ skip → P nb)) :
    ∃ t, nbs.foldlM (visitNeighbor sp x q ef skip stamp) s = some t ∧
      BestFirst sp x q n ef layer skip stamp P (fun _ => False) t ∧
      pending stamp t ≤ pending stamp s ∧
      (∀ nb, x.Hop layer skip cur nb → t.visited[nb]? = some stamp) ∧
      ∀ id : Nat, s.visited[id]? = some stamp → t.visited[id]? = some stamp := by
  obtain ⟨t, hfold, ⟨ht, hpending, hdone, hkeep⟩, -⟩ := foldlM_spec
    (fun remaining t => (BestFirst sp x q n ef layer skip stamp P (fun id => id = cur) t ∧
        pending stamp t ≤ pending stamp s ∧
        (∀ nb ∈ nbs, nb ≠ skip → nb ∈ remaining ∨ t.visited[nb]? = some stamp) ∧
        ∀ id : Nat, s.visited[id]? = some stamp → t.visited[id]? = some stamp) ∧
      ∀ nb ∈ remaining, nb ∈ nbs)
    (fun nb remaining t ht => by
      obtain ⟨⟨ht, hle, hdone, hkeep⟩, hsub⟩ := ht
      obtain ⟨hlt, hP⟩ := hgood nb (hsub nb List.mem_cons_self)
      obtain ⟨u, hvisit, hu, hle', hmark, hkeep'⟩ := visitNeighbor_bestFirst sp hn ht hlt hP
      refine ⟨u, hvisit, ⟨hu, hle'.trans hle, ?_, fun id hid => hkeep' id (hkeep id hid)⟩,
        fun a ha => hsub a (List.mem_cons_of_mem _ ha)⟩
      intro a ha hskip
      rcases hdone a ha hskip with hremaining | hmarked
      · rcases List.mem_cons.mp hremaining with rfl | hremaining
        · exact .inr (hmark hskip)
        · exact .inl hremaining
      · exact .inr (hkeep' a hmarked))
    nbs s ⟨⟨hs, le_rfl, fun nb hnb _ => .inl hnb, fun _ h => h⟩, fun _ h => h⟩
  have hhops : ∀ nb, x.Hop layer skip cur nb → t.visited[nb]? = some stamp := by
    rintro nb ⟨nbs', hnbs', hnb, hskip⟩
    obtain rfl := Option.some.inj (hnbs.symm.trans hnbs')
    exact (hdone nb hnb hskip).resolve_left List.not_mem_nil
  refine ⟨t, hfold, ⟨ht.sound, ht.found_sorted, ht.queue_sorted, ht.length_le, ht.kept, ?_⟩,
    hpending, hhops, hkeep⟩
  intro id d hid hd
  rcases ht.closed id d hid hd with hqueue | heq | hrest
  · exact .inl hqueue
  · exact .inr (.inr (.inl fun nb hhop => hhops nb (heq ▸ hhop)))
  · exact .inr (.inr hrest)

/-- What is left when the loop stops: a node with a mark is looked around, or as far as
everything kept. The start is always looked around. -/
structure Settled (x : HNSWIndex V) (q : V) (n ef layer skip stamp ep : Nat) (P : Nat → Prop)
    (s : Search D) : Prop where
  sound : Sound sp x q n stamp P s
  found_sorted : s.found.Pairwise (· ≥ ·)
  length_le : s.found.length ≤ ef
  start : s.visited[ep]? = some stamp
  origin : ∀ nb, x.Hop layer skip ep nb → s.visited[nb]? = some stamp
  kept : ∀ id d, s.visited[id]? = some stamp → distance sp x q id = some d →
    id ∈ s.found.map idOf ∨ Beyond ef s d
  closed : ∀ id d, s.visited[id]? = some stamp → distance sp x q id = some d →
    (∀ nb, x.Hop layer skip id nb → s.visited[nb]? = some stamp) ∨ Dropped ef s id d

/-- The start has been looked around, or nothing has happened yet. -/
structure Started (x : HNSWIndex V) (layer skip stamp ep : Nat) (s : Search D) : Prop where
  start : s.visited[ep]? = some stamp
  origin : (∀ nb, x.Hop layer skip ep nb → s.visited[nb]? = some stamp) ∨
    ∃ c, idOf c = ep ∧ s.toVisit = [c] ∧ s.found = [c]

/-- When the nearest candidate to visit is farther than all that is kept, so is what has
been seen and not looked around. -/
theorem BestFirst.settled {s : Search D} {cur far : Cand D} {rest found : List (Cand D)}
    (hs : BestFirst sp x q n ef layer skip stamp P (fun _ => False) s)
    (hstarted : Started x layer skip stamp ep s) (hvisit : s.toVisit = cur :: rest)
    (hfound : s.found = far :: found) (hfar : (ofLex far).1 < (ofLex cur).1) :
    Settled sp x q n ef layer skip stamp ep P s := by
  refine ⟨hs.sound, hs.found_sorted, hs.length_le, hstarted.start, ?_, hs.kept, ?_⟩
  · rcases hstarted.origin with hall | ⟨c, -, hqueue, hkept⟩
    · exact hall
    · obtain ⟨rfl, -⟩ := List.cons.inj (hvisit.symm.trans hqueue)
      obtain ⟨rfl, -⟩ := List.cons.inj (hfound.symm.trans hkept)
      exact absurd hfar (lt_irrefl _)
  · intro id d hid hd
    rcases hs.closed id d hid hd with hmem | hfalse | hrest
    · obtain ⟨c, hc, rfl⟩ := List.mem_map.mp hmem
      have hdist : (ofLex c).1 = d := Option.some.inj ((hs.sound.toVisit c hc).dist.symm.trans hd)
      have hcur : (ofLex cur).1 ≤ d := by
        have hqueue := hs.queue_sorted
        rw [hvisit] at hqueue hc
        exact (Prod.Lex.monotone_fst _ _ (hqueue.rel_head hc)).trans hdist.le
      -- what is kept is not as far as `cur`
      have hnot : idOf c ∉ s.found.map idOf := by
        intro hkept
        obtain ⟨e, he, heid⟩ := List.mem_map.mp hkept
        have hedist : (ofLex e).1 = d := by
          have hsame := (hs.sound.found e he).dist
          rw [heid, hd] at hsame
          exact (Option.some.inj hsame).symm
        have hefar : (ofLex e).1 ≤ (ofLex far).1 := by
          have hsorted := hs.found_sorted
          rw [hfound] at hsorted he
          exact Prod.Lex.monotone_fst _ _ (hsorted.rel_head he)
        exact absurd (hcur.trans (hedist.ge.trans hefar)) (not_le.mpr hfar)
      exact .inr ⟨hnot, (hs.kept _ d hid hd).resolve_left hnot⟩
    · exact hfalse.elim
    · exact hrest

/-- One turn: a candidate is looked around, or the search is settled. -/
theorem searchTurn_bestFirst (hn : x.data.length = n)
    (hwalk : Walkable x n layer (fun nb => nb = skip) P)
    (hbound : ∀ id nbs, x.neighbors id layer = some nbs → ∀ nb ∈ nbs, nb < n) {s : Search D}
    (hs : BestFirst sp x q n ef layer skip stamp P (fun _ => False) s)
    (hstarted : Started x layer skip stamp ep s) :
    (∃ t, searchTurn sp x q ef layer skip stamp s = some (.inl t) ∧
        (BestFirst sp x q n ef layer skip stamp P (fun _ => False) t ∧
          Started x layer skip stamp ep t) ∧ pending stamp t < pending stamp s) ∨
      ∃ t, searchTurn sp x q ef layer skip stamp s = some (.inr t) ∧
        Settled sp x q n ef layer skip stamp ep P t := by
  unfold searchTurn
  cases hvisit : s.toVisit with
  | nil =>
      refine .inr ⟨s, rfl, hs.sound, hs.found_sorted, hs.length_le, hstarted.start, ?_, hs.kept, ?_⟩
      · rcases hstarted.origin with hall | ⟨c, -, hqueue, -⟩
        · exact hall
        · exact absurd (hvisit.symm.trans hqueue).symm (List.cons_ne_nil _ _)
      · intro id d hid hd
        rcases hs.closed id d hid hd with hmem | hfalse | hrest
        · rw [hvisit] at hmem
          exact absurd hmem List.not_mem_nil
        · exact hfalse.elim
        · exact hrest
  | cons cur rest =>
      obtain ⟨far, found, hfound⟩ := List.exists_cons_of_ne_nil hs.sound.found_ne
      simp only [hfound, List.head?_cons, Option.bind_eq_bind, Option.bind_some]
      split
      case isTrue hfar =>
        exact .inr ⟨s, rfl, hs.settled sp hstarted hvisit hfound hfar⟩
      case isFalse =>
        have hcur : cur ∈ s.toVisit := by rw [hvisit]; exact List.mem_cons_self
        obtain ⟨_, nbs, hnbs, hclosed⟩ := hwalk _ (hs.sound.toVisit cur hcur).ok
        obtain ⟨t, hfold, ht, hpending, hhops, hkeep⟩ := visitNeighbors_bestFirst sp hn
          (hs.pop sp hvisit) hnbs fun nb hnb => ⟨hbound _ _ hnbs nb hnb, hclosed nb hnb⟩
        refine .inl ⟨t, ?_, ⟨ht, hkeep ep hstarted.start, .inl ?_⟩, ?_⟩
        · change (x.neighbors (idOf cur) layer).bind _ = _
          rw [hnbs, Option.bind_some]
          simp only [hfound] at hfold
          rw [hfold]
          rfl
        · rcases hstarted.origin with hall | ⟨c, rfl, hqueue, -⟩
          · exact fun nb hhop => hkeep nb (hall nb hhop)
          · obtain ⟨rfl, -⟩ := List.cons.inj (hvisit.symm.trans hqueue)
            exact hhops
        · have hpop : pending stamp { s with toVisit := rest } + 1 = pending stamp s := by
            simp only [pending, hvisit, List.length_cons]
            omega
          omega

theorem startSearch_bestFirst {marks : List Nat} (hlength : marks.length = n)
    (hmarks : ∀ m ∈ marks, m < stamp) (hep : P ep) (hlt : ep < n) (hef : 1 ≤ ef) {d0 : D}
    (hd0 : distance sp x q ep = some d0) :
    BestFirst sp x q n ef layer skip stamp P (fun _ => False)
        (startSearch (x.withMarks marks stamp) d0 ep) ∧
      Started x layer skip stamp ep (startSearch (x.withMarks marks stamp) d0 ep) := by
  have hfirst : ∀ id : Nat,
      (startSearch (x.withMarks marks stamp) d0 ep).visited[id]? = some stamp → id ∈ [ep] :=
    fun id hid => List.mem_singleton.mpr (eq_of_startSearch_mark hmarks hid)
  have hstart : (startSearch (x.withMarks marks stamp) d0 ep).visited[ep]? = some stamp := by
    show (marks.set ep stamp)[ep]? = some stamp
    rw [List.getElem?_set_self (by omega)]
  refine ⟨⟨startSearch_sound sp hlength hmarks hep hlt hd0, List.pairwise_singleton _ _,
    List.pairwise_singleton _ _, hef, ?_, ?_⟩, hstart, ?_⟩
  · exact fun id d hid _ => .inl (hfirst id hid)
  · exact fun id d hid _ => .inl (hfirst id hid)
  · exact .inr ⟨_, rfl, rfl, rfl⟩

variable (q) in
/-- The search of a layer yields what is kept of a settled search. -/
theorem LayerGraph.searchLayer_settled (h : x.LayerGraph n layer)
    (hwalk : Walkable x n layer (fun nb => nb = skip) P) (hep : P ep) (hef : 1 ≤ ef) :
    ∃ counter s, searchLayer sp x q ep ef layer skip =
        some (x.withMarks s.visited counter, s.found.reverse) ∧
      Settled sp x q n ef layer skip counter ep P s := by
  have hlt : ep < n := (hwalk ep hep).1
  have hstart : ∀ marks counter d0, marks.length = n → (∀ m ∈ marks, m < counter) →
      distance sp x q ep = some d0 →
      BestFirst sp x q n ef layer skip counter P (fun _ => False)
          (startSearch (x.withMarks marks counter) d0 ep) ∧
        Started x layer skip counter ep (startSearch (x.withMarks marks counter) d0 ep) :=
    fun marks counter d0 hlength hfresh hd0 =>
      startSearch_bestFirst sp hlength hfresh hep hlt hef hd0
  obtain ⟨counter, s, hsearch, -, hs⟩ := searchLayer_rule sp h.data_length h.visited_length
    h.marks h.counter_lt hlt hstart fun counter s hs =>
      searchTurn_bestFirst sp h.data_length hwalk
        (fun a nbs hnbs nb hnb => (h.closed a nbs hnbs nb hnb).1) hs.1 hs.2
  exact ⟨counter, s, hsearch, hs⟩

variable (q) in
theorem searchLayer_settled (h : x.Linked n)
    (hwalk : Walkable x n layer (fun nb => nb = skip) P) (hep : P ep) (hef : 1 ≤ ef) :
    ∃ counter s, searchLayer sp x q ep ef layer skip =
        some (x.withMarks s.visited counter, s.found.reverse) ∧
      Settled sp x q n ef layer skip counter ep P s :=
  (h.layerGraph layer).searchLayer_settled sp q hwalk hep hef

/-- Nodes that are not dropped, and the nodes next to these, are seen. -/
theorem Settled.reached {s : Search D} (hs : Settled sp x q n ef layer skip stamp ep P s)
    (hn : x.data.length = n) {near : Nat → Prop}
    (hnear : ∀ id d, near id → distance sp x q id = some d → ¬ Dropped ef s id d) {id : Nat}
    (hreach : Relation.ReflTransGen (fun a b => x.Hop layer skip a b ∧ near b) ep id) :
    s.visited[id]? = some stamp := by
  induction hreach with
  | refl => exact hs.start
  | @tail b c hab hbc ih =>
      have hstep : ∀ nb, x.Hop layer skip b nb → s.visited[nb]? = some stamp := by
        rcases Relation.ReflTransGen.cases_tail hab with rfl | ⟨a, -, -, hb⟩
        · exact hs.origin
        · have hlt : b < n := by
            rw [← hs.sound.visited_length]
            exact (List.getElem?_eq_some_iff.mp ih).1
          obtain ⟨d, hd⟩ : ∃ d, distance sp x q b = some d := distance_of_lt sp hn hlt
          exact (hs.closed b d ih hd).resolve_right (hnear b d hb hd)
      exact hstep c hbc.1

/-- A node that is seen and not dropped is kept. -/
theorem Settled.mem_found {s : Search D} (hs : Settled sp x q n ef layer skip stamp ep P s)
    (hn : x.data.length = n) {id : Nat} (hid : s.visited[id]? = some stamp)
    (hnear : ∀ d, distance sp x q id = some d → ¬ Dropped ef s id d) :
    id ∈ s.found.map idOf := by
  have hlt : id < n := by
    rw [← hs.sound.visited_length]
    exact (List.getElem?_eq_some_iff.mp hid).1
  obtain ⟨d, hd⟩ : ∃ d, distance sp x q id = some d := distance_of_lt sp hn hlt
  rcases hs.kept id d hid hd with hkept | hbeyond
  · exact hkept
  · by_contra hnot
    exact hnear d hd ⟨hnot, hbeyond⟩

end Search

end HNSWIndex

end LogMind
