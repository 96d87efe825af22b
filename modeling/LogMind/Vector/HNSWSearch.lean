import LogMind.Vector.HNSWIndex

/-!
# The walks of the index

A walk starts at a node with a property `P` that the neighbours of such a node in
the layer have too. It ends, makes no access out of range and yields nodes with
the property. What `P` is, is left to the layer and the caller.
-/

namespace LogMind

open Checked Loop

namespace HNSWIndex

variable {V D R : Type}

/-- A property a walk in the layer stays in, but for the node it skips. -/
def Walkable (x : HNSWIndex V) (n layer : Nat) (skip : Nat → Prop) (P : Nat → Prop) : Prop :=
  ∀ id, P id → id < n ∧ ∃ nbs, x.neighbors id layer = some nbs ∧
    ∀ nb ∈ nbs, ¬ skip nb → P nb

theorem distance_of_lt (sp : Space V D R) {x : HNSWIndex V} {q : V} {n id : Nat}
    (hn : x.data.length = n) (hid : id < n) :
    ∃ d, distance sp x q id = some d := by
  have hlt : id < x.data.length := by omega
  refine ⟨sp.distanceSq q x.data[id], ?_⟩
  rw [distance, List.getElem?_eq_getElem hlt, Option.map_some]

section Greedy

variable [LinearOrder D] (sp : Space V D R) {x : HNSWIndex V} {q : V} {layer : Nat}
  {P : Nat → Prop}

/-- The node of a descent is valid and its distance is the one recorded. -/
def Descent.Valid (x : HNSWIndex V) (q : V) (P : Nat → Prop) (s : Descent D) : Prop :=
  P s.ep ∧ distance sp x q s.ep = some s.best

/-- What the sweep of a list keeps of the turn it belongs to, with the neighbours still to
come. -/
structure Sweep (x : HNSWIndex V) (q : V) (P : Nat → Prop) (nbs : List Nat) (s : Descent D)
    (rest : List Nat) (t : Descent D) : Prop where
  valid : t.Valid sp x q P
  le : t.best ≤ s.best
  closer : t.improved = true → t.best < s.best
  still : t.improved = false → t.ep = s.ep
  swept : ∀ nb ∈ nbs, nb ∈ rest ∨ ∀ d, distance sp x q nb = some d → t.best ≤ d

/-- One neighbour less to come, when the best distance is not above its own. -/
theorem Sweep.swept_next {nbs rest : List Nat} {nb : Nat} {s t : Descent D}
    (ht : Sweep sp x q P nbs s (nb :: rest) t) {d best : D} (hd : distance sp x q nb = some d)
    (hle : best ≤ t.best) (hnext : best ≤ d) :
    ∀ other ∈ nbs, other ∈ rest ∨ ∀ d', distance sp x q other = some d' → best ≤ d' := by
  intro other hother
  rcases ht.swept other hother with hmem | hswept
  · rcases List.mem_cons.mp hmem with rfl | hrest
    · refine Or.inr fun d' hd' => ?_
      rw [hd] at hd'
      exact Option.some.inj hd' ▸ hnext
    · exact Or.inl hrest
  · exact Or.inr fun d' hd' => hle.trans (hswept d' hd')

theorem tryNeighbor_spec {n : Nat} (hn : x.data.length = n) {nbs rest : List Nat} {nb : Nat}
    {s t : Descent D} (ht : Sweep sp x q P nbs s (nb :: rest) t) (hnb : nb < n) (hP : P nb) :
    ∃ u, tryNeighbor sp x q t nb = some u ∧ Sweep sp x q P nbs s rest u := by
  obtain ⟨d, hd⟩ := distance_of_lt sp hn hnb
  rw [tryNeighbor, hd, Option.map_some]
  by_cases hlt : d < t.best
  · rw [if_pos hlt]
    exact ⟨_, rfl, ⟨hP, hd⟩, hlt.le.trans ht.le, fun _ => hlt.trans_le ht.le, by simp,
      ht.swept_next sp hd hlt.le le_rfl⟩
  · rw [if_neg hlt]
    exact ⟨t, rfl, ht.valid, ht.le, ht.closer, ht.still,
      ht.swept_next sp hd le_rfl (not_lt.mp hlt)⟩

/-- A turn ends closer, or at the node it started at, whose neighbours are not closer. -/
theorem descendTurn_spec {n : Nat} (hn : x.data.length = n)
    (hwalk : Walkable x n layer (fun _ => False) P) {s : Descent D} (hs : s.Valid sp x q P) :
    (∃ t, descendTurn sp x q layer s = some (.inl t) ∧ t.Valid sp x q P ∧ t.best < s.best) ∨
      descendTurn sp x q layer s = some (.inr s.ep) ∧
        ∀ nbs, x.neighbors s.ep layer = some nbs →
          ∀ nb ∈ nbs, ∀ d, distance sp x q nb = some d → s.best ≤ d := by
  obtain ⟨_, nbs, hnbs, hclosed⟩ := hwalk s.ep hs.1
  obtain ⟨t, hfold, hsweep, -⟩ := foldlM_spec
    (fun rest t => Sweep sp x q P nbs s rest t ∧ ∀ nb ∈ rest, nb ∈ nbs)
    (fun nb rest t ht => by
      have hP := hclosed nb (ht.2 nb List.mem_cons_self) not_false
      obtain ⟨u, hu, hsweep⟩ := tryNeighbor_spec sp hn ht.1 (hwalk nb hP).1 hP
      exact ⟨u, hu, hsweep, fun other hother => ht.2 other (List.mem_cons_of_mem _ hother)⟩)
    nbs { s with improved := false }
    ⟨⟨hs, le_rfl, by simp, fun _ => rfl, fun _ hnb => Or.inl hnb⟩, fun _ hnb => hnb⟩
  have hturn : descendTurn sp x q layer s =
      some (if t.improved then .inl t else .inr t.ep) := by
    rw [descendTurn, hnbs, Option.bind_eq_bind, Option.bind_some, hfold]
    rfl
  cases himproved : t.improved with
  | true =>
      refine Or.inl ⟨t, ?_, hsweep.valid, hsweep.closer himproved⟩
      rw [hturn, himproved, if_pos rfl]
  | false =>
      have hep : t.ep = s.ep := hsweep.still himproved
      refine Or.inr ⟨?_, ?_⟩
      · rw [hturn, himproved, ← hep]
        rfl
      · intro list hlist nb hnb d hd
        rw [hnbs] at hlist
        obtain rfl := Option.some.inj hlist
        have hbest : s.best = t.best := by
          have hdist := hsweep.valid.2
          rw [hep, hs.2] at hdist
          exact Option.some.inj hdist
        exact hbest ▸ (hsweep.swept nb hnb).resolve_left List.not_mem_nil d hd

/-- Where a greedy descent ends: not farther than it started, and not farther than any
neighbour. -/
structure Descended (x : HNSWIndex V) (q : V) (layer : Nat) (P : Nat → Prop) (ep r : Nat) :
    Prop where
  ok : P r
  le : ∀ d d0, distance sp x q r = some d → distance sp x q ep = some d0 → d ≤ d0
  least : ∀ nbs, x.neighbors r layer = some nbs → ∀ nb ∈ nbs,
    ∀ d d', distance sp x q r = some d → distance sp x q nb = some d' → d ≤ d'

variable (q) in
/-- The greedy descent ends, since the best distance falls in every turn but the last,
and it is that of a node. -/
theorem greedyDescend_spec {n ep : Nat} (hn : x.data.length = n)
    (hwalk : Walkable x n layer (fun _ => False) P) (hep : P ep) :
    ∃ r, greedyDescend sp x q ep layer = some r ∧ Descended sp x q layer P ep r := by
  obtain ⟨best, hbest⟩ := distance_of_lt sp hn (hwalk ep hep).1
  obtain ⟨r, hloop, hr⟩ := loop_spec (fun s : Descent D => s.Valid sp x q P ∧ s.best ≤ best)
    (fun s : Descent D => x.data.countP fun b => sp.distanceSq q b < s.best)
    (Descended sp x q layer P ep)
    (fun s hs => by
      rcases descendTurn_spec sp hn hwalk hs.1 with ⟨t, hturn, ht, hlt⟩ | ⟨hturn, hleast⟩
      · refine Or.inl ⟨t, hturn, ⟨ht, hlt.le.trans hs.2⟩, ?_⟩
        obtain ⟨b, hb, hdist⟩ := Option.map_eq_some_iff.mp ht.2
        have hmem : b ∈ x.data := List.mem_of_getElem? hb
        refine countP_lt_countP ?_ hmem ?_ ?_
        · intro c hc
          rw [decide_eq_true_eq] at hc ⊢
          exact hc.trans hlt
        · rw [decide_eq_true_eq, hdist]
          exact hlt
        · rw [decide_eq_false_iff_not, hdist]
          exact lt_irrefl _
      · refine Or.inr ⟨s.ep, hturn, hs.1.1, ?_, ?_⟩
        · intro d d0 hd hd0
          rw [hs.1.2] at hd
          rw [hbest] at hd0
          rw [← Option.some.inj hd, ← Option.some.inj hd0]
          exact hs.2
        · intro nbs hnbs nb hnb d d' hd hd'
          rw [hs.1.2] at hd
          rw [← Option.some.inj hd]
          exact hleast nbs hnbs nb hnb d' hd')
    (x.data.length + 1) ⟨best, ep, true⟩ ⟨⟨hep, hbest⟩, le_rfl⟩
    (Nat.lt_succ_of_le List.countP_le_length)
  exact ⟨r, by rw [greedyDescend, hbest, Option.bind_eq_bind, Option.bind_some, hloop], hr⟩

end Greedy

/-- The id of a candidate. -/
def idOf (c : Cand D) : Nat := (ofLex c).2

section Layer

variable (sp : Space V D R)

/-- A candidate with the property, its own distance and the stamp. -/
structure Reached (x : HNSWIndex V) (q : V) (stamp : Nat) (P : Nat → Prop)
    (visited : List Nat) (c : Cand D) : Prop where
  ok : P (idOf c)
  dist : distance sp x q (idOf c) = some (ofLex c).1
  mark : visited[idOf c]? = some stamp

/-- What the loop of `search_layer` keeps in any graph. -/
structure Sound (x : HNSWIndex V) (q : V) (n stamp : Nat) (P : Nat → Prop)
    (s : Search D) : Prop where
  visited_length : s.visited.length = n
  marks : ∀ m ∈ s.visited, m ≤ stamp
  found_ne : s.found ≠ []
  found : ∀ c ∈ s.found, Reached sp x q stamp P s.visited c
  toVisit : ∀ c ∈ s.toVisit, Reached sp x q stamp P s.visited c
  nodup : (s.found.map idOf).Nodup

/-- The nodes without the stamp and the candidates still to visit. -/
def pending (stamp : Nat) (s : Search D) : Nat :=
  s.visited.countP (fun mark => decide (mark ≠ stamp)) + s.toVisit.length

variable {x : HNSWIndex V} {q : V} {n layer skip stamp : Nat} {P : Nat → Prop}

/-- Stamping one more node keeps what was reached. -/
theorem Reached.set_stamp {visited : List Nat} {c : Cand D} {nb : Nat}
    (h : Reached sp x q stamp P visited c) (hnb : nb < visited.length) :
    Reached sp x q stamp P (visited.set nb stamp) c := by
  refine ⟨h.ok, h.dist, ?_⟩
  rw [List.getElem?_set]
  split
  · rfl
  · exact h.mark

/-- A node with the stamp is no new candidate. -/
theorem Sound.fresh {s : Search D} (hs : Sound sp x q n stamp P s) {nb mark : Nat}
    (hmark : s.visited[nb]? = some mark) (hne : mark ≠ stamp) : nb ∉ s.found.map idOf := by
  intro hmem
  obtain ⟨c, hc, rfl⟩ := List.mem_map.mp hmem
  rw [(hs.found c hc).mark] at hmark
  exact hne (Option.some.inj hmark).symm

/-- Stamping a node takes it from those without the stamp. -/
theorem countP_stamp {visited : List Nat} {nb mark : Nat} (hmark : visited[nb]? = some mark)
    (hne : mark ≠ stamp) :
    (visited.set nb stamp).countP (fun m => decide (m ≠ stamp)) + 1 =
      visited.countP fun m => decide (m ≠ stamp) := by
  obtain ⟨hlt, hget⟩ := List.getElem?_eq_some_iff.mp hmark
  have hpos : 0 < visited.countP fun m => decide (m ≠ stamp) :=
    List.countP_pos_iff.mpr ⟨mark, List.mem_of_getElem? hmark, by simpa using hne⟩
  have hold : decide (visited[nb] ≠ stamp) = true := by
    rw [hget]
    exact decide_eq_true hne
  have hnew : decide (stamp ≠ stamp) = false := decide_eq_false (not_not_intro rfl)
  rw [List.countP_set hlt, hold, hnew]
  simp only [if_true, Bool.false_eq_true, if_false]
  omega

/-- A new stamp on top of older ones. -/
theorem le_of_mem_set {visited : List Nat} {nb : Nat} (h : ∀ m ∈ visited, m ≤ stamp) :
    ∀ m ∈ visited.set nb stamp, m ≤ stamp := by
  intro m hm
  rcases List.mem_or_eq_of_mem_set hm with hm | rfl
  · exact h m hm
  · exact le_rfl

/-- The state `search_layer` starts its loop in. -/
def startSearch (x : HNSWIndex V) (d0 : D) (ep : Nat) : Search D where
  visited := x.visited.set ep x.visitCounter
  toVisit := [toLex (d0, ep)]
  found := [toLex (d0, ep)]

theorem startSearch_sound {marks : List Nat} (hlength : marks.length = n)
    (hmarks : ∀ m ∈ marks, m < stamp) {ep : Nat} (hep : P ep) (hlt : ep < n) {d0 : D}
    (hd0 : distance sp x q ep = some d0) :
    Sound sp x q n stamp P (startSearch (x.withMarks marks stamp) d0 ep) := by
  have hreached : Reached sp x q stamp P (marks.set ep stamp) (toLex (d0, ep)) := by
    refine ⟨hep, hd0, ?_⟩
    show (marks.set ep stamp)[ep]? = some stamp
    rw [List.getElem?_set_self (by omega)]
  refine ⟨by simp [startSearch, hlength], le_of_mem_set fun m hm => (hmarks m hm).le,
    by simp [startSearch], ?_, ?_, by simp [startSearch]⟩
  · intro c hc
    rw [List.mem_singleton.mp hc]
    exact hreached
  · intro c hc
    rw [List.mem_singleton.mp hc]
    exact hreached

/-- No more than all nodes are pending at the start. -/
theorem pending_startSearch_le (hvisited : x.visited.length = n) {ep : Nat} (hlt : ep < n)
    (d0 : D) : pending x.visitCounter (startSearch x d0 ep) ≤ n := by
  have hstamped : x.visitCounter ∈ x.visited.set ep x.visitCounter :=
    List.mem_set (show ep < x.visited.length by omega) x.visitCounter
  have hcount : (x.visited.set ep x.visitCounter).countP (fun m => decide (m ≠ x.visitCounter)) <
      (x.visited.set ep x.visitCounter).countP (fun _ => true) :=
    countP_lt_countP (by simp) hstamped rfl (by simp)
  rw [List.countP_true, List.length_set] at hcount
  simp only [pending, startSearch, List.length_singleton]
  omega

/-- Nothing but the visited marks changes with a new stamp, and no mark has it. -/
theorem nextVisitStamp_eq (hmarks : ∀ m ∈ x.visited, m ≤ x.visitCounter)
    (hcounter : x.visitCounter < wordBound32) :
    ∃ visited counter, x.nextVisitStamp = x.withMarks visited counter ∧
      visited.length = x.visited.length ∧ (∀ m ∈ visited, m < counter) ∧
      counter < wordBound32 := by
  unfold nextVisitStamp
  dsimp only
  split
  · refine ⟨_, _, rfl, List.length_replicate, ?_, by decide⟩
    intro m hm
    rw [List.eq_of_mem_replicate hm]
    exact Nat.zero_lt_one
  · rename_i hwrap
    refine ⟨_, _, rfl, rfl, ?_, Nat.mod_lt _ (by decide)⟩
    have hnext : (x.visitCounter + 1) % wordBound32 = x.visitCounter + 1 := by
      unfold wordBound32 at *
      omega
    intro m hm
    rw [hnext]
    exact Nat.lt_succ_of_le (hmarks m hm)

variable [LinearOrder D]

theorem keepNearest_sublist (ef : Nat) (found : List (Cand D)) (c : Cand D) :
    (keepNearest ef found c).Sublist (found.orderedInsert (· ≥ ·) c) := by
  unfold keepNearest
  dsimp only
  split
  · exact List.tail_sublist _
  · exact List.Sublist.refl _

theorem keepNearest_ne_nil (ef : Nat) {found : List (Cand D)} (hfound : found ≠ [])
    (c : Cand D) : keepNearest ef found c ≠ [] := by
  have hlen : (found.orderedInsert (· ≥ ·) c).length = found.length + 1 :=
    List.orderedInsert_length _ found c
  have hpos : 0 < found.length := List.length_pos_iff.mpr hfound
  apply List.ne_nil_of_length_pos
  unfold keepNearest
  dsimp only
  split
  · rw [List.length_tail, hlen]
    omega
  · rw [hlen]
    omega

theorem mem_keepNearest {ef : Nat} {found : List (Cand D)} {c d : Cand D}
    (h : d ∈ keepNearest ef found c) : d = c ∨ d ∈ found :=
  (List.mem_orderedInsert _).mp ((keepNearest_sublist ef found c).subset h)

theorem accepts_isSome (ef : Nat) {found : List (Cand D)} (hfound : found ≠ []) (d : D) :
    ∃ b, accepts ef found d = some b := by
  unfold accepts
  split
  · exact ⟨true, rfl⟩
  · cases found with
    | nil => exact absurd rfl hfound
    | cons far found => exact ⟨_, rfl⟩

/-- One neighbour: it has the stamp already and nothing happens, or it is stamped and
may become a candidate. -/
theorem visitNeighbor_cases (ef : Nat) (hn : x.data.length = n) {s : Search D}
    (hs : Sound sp x q n stamp P s) {nb : Nat} (hnb : nb < n) (hskip : nb ≠ skip) :
    (s.visited[nb]? = some stamp ∧ visitNeighbor sp x q ef skip stamp s nb = some s) ∨
      ∃ mark d b, s.visited[nb]? = some mark ∧ mark ≠ stamp ∧
        distance sp x q nb = some d ∧ accepts ef s.found d = some b ∧
        visitNeighbor sp x q ef skip stamp s nb =
          some (if b then {
              visited := s.visited.set nb stamp
              toVisit := s.toVisit.orderedInsert (· ≤ ·) (toLex (d, nb))
              found := keepNearest ef s.found (toLex (d, nb)) }
            else { s with visited := s.visited.set nb stamp }) := by
  have hlt : nb < s.visited.length := by rw [hs.visited_length]; exact hnb
  have hget : s.visited[nb]? = some s.visited[nb] := List.getElem?_eq_getElem hlt
  by_cases hmark : s.visited[nb] = stamp
  · refine Or.inl ⟨by rw [hget, hmark], ?_⟩
    rw [visitNeighbor, if_neg hskip, hget, Option.bind_eq_bind, Option.bind_some, if_pos hmark]
    rfl
  · obtain ⟨d, hd⟩ := distance_of_lt sp hn hnb
    obtain ⟨b, hb⟩ := accepts_isSome ef hs.found_ne d
    refine Or.inr ⟨s.visited[nb], d, b, hget, hmark, hd, hb, ?_⟩
    rw [visitNeighbor, if_neg hskip, hget, Option.bind_eq_bind, Option.bind_some, if_neg hmark,
      setAt_of_lt hlt, hd]
    simp only [Option.bind_eq_bind, Option.bind_some, hb]
    cases b <;> rfl

theorem visitNeighbor_sound (ef : Nat) (hn : x.data.length = n) {s : Search D}
    (hs : Sound sp x q n stamp P s) {nb : Nat} (hnb : nb < n) (hP : nb ≠ skip → P nb) :
    ∃ t, visitNeighbor sp x q ef skip stamp s nb = some t ∧ Sound sp x q n stamp P t ∧
      pending stamp t ≤ pending stamp s := by
  by_cases hskip : nb = skip
  · exact ⟨s, if_pos hskip, hs, le_rfl⟩
  rcases visitNeighbor_cases sp ef hn hs hnb hskip with
    ⟨_, hsame⟩ | ⟨mark, d, b, hmark, hne, hd, _, hstep⟩
  · exact ⟨s, hsame, hs, le_rfl⟩
  have hlt : nb < s.visited.length := by rw [hs.visited_length]; exact hnb
  have hcount := countP_stamp hmark hne
  have hnew : Reached sp x q stamp P (s.visited.set nb stamp) (toLex (d, nb)) := by
    refine ⟨hP hskip, hd, ?_⟩
    show (s.visited.set nb stamp)[nb]? = some stamp
    rw [List.getElem?_set_self hlt]
  refine ⟨_, hstep, ?_⟩
  cases b with
  | false =>
      refine ⟨⟨by simp [hs.visited_length], le_of_mem_set hs.marks, hs.found_ne, ?_, ?_,
        hs.nodup⟩, ?_⟩
      · exact fun c hc => (hs.found c hc).set_stamp sp hlt
      · exact fun c hc => (hs.toVisit c hc).set_stamp sp hlt
      · simp only [pending, Bool.false_eq_true, if_false]
        omega
  | true =>
      refine ⟨⟨by simp [hs.visited_length], le_of_mem_set hs.marks,
        keepNearest_ne_nil ef hs.found_ne _, ?_, ?_, ?_⟩, ?_⟩
      · intro c hc
        rcases mem_keepNearest hc with rfl | hc
        · exact hnew
        · exact (hs.found c hc).set_stamp sp hlt
      · intro c hc
        rcases (List.mem_orderedInsert _).mp hc with rfl | hc
        · exact hnew
        · exact (hs.toVisit c hc).set_stamp sp hlt
      · have hperm : ((s.found.orderedInsert (· ≥ ·) (toLex (d, nb))).map idOf).Perm
            (nb :: s.found.map idOf) := (List.perm_orderedInsert _ _ _).map idOf
        have hall : ((s.found.orderedInsert (· ≥ ·) (toLex (d, nb))).map idOf).Nodup :=
          hperm.nodup_iff.mpr (List.nodup_cons.mpr ⟨hs.fresh sp hmark hne, hs.nodup⟩)
        exact hall.sublist ((keepNearest_sublist ef s.found _).map idOf)
      · simp only [pending, if_true]
        rw [List.orderedInsert_length]
        omega

/-- One turn: the candidate is taken off, and its neighbours become pending at most
once each. -/
theorem searchTurn_sound (ef : Nat) (hn : x.data.length = n)
    (hwalk : Walkable x n layer (fun nb => nb = skip) P)
    (hbound : ∀ id nbs, x.neighbors id layer = some nbs → ∀ nb ∈ nbs, nb < n) {s : Search D}
    (hs : Sound sp x q n stamp P s) :
    (∃ t, searchTurn sp x q ef layer skip stamp s = some (.inl t) ∧
        Sound sp x q n stamp P t ∧ pending stamp t < pending stamp s) ∨
      ∃ t, searchTurn sp x q ef layer skip stamp s = some (.inr t) ∧
        Sound sp x q n stamp P t := by
  unfold searchTurn
  cases hvisit : s.toVisit with
  | nil => exact Or.inr ⟨s, rfl, hs⟩
  | cons cur rest =>
      obtain ⟨far, found, hfound⟩ := List.exists_cons_of_ne_nil hs.found_ne
      have hcur : cur ∈ s.toVisit := by rw [hvisit]; exact List.mem_cons_self
      obtain ⟨_, nbs, hnbs, hclosed⟩ := hwalk _ (hs.toVisit cur hcur).ok
      have hrest : Sound sp x q n stamp P { s with toVisit := rest } :=
        ⟨hs.visited_length, hs.marks, hs.found_ne, hs.found,
          fun c hc => hs.toVisit c (by rw [hvisit]; exact List.mem_cons_of_mem _ hc), hs.nodup⟩
      have hpop : pending stamp { s with toVisit := rest } + 1 = pending stamp s := by
        simp only [pending, hvisit, List.length_cons]
        omega
      obtain ⟨t, hfold, ht, hpending⟩ := foldlM_invariant
        (fun t => Sound sp x q n stamp P t ∧
          pending stamp t ≤ pending stamp { s with toVisit := rest }) nbs
        (fun nb hnb t ht => by
          obtain ⟨u, hstep, hu, hle⟩ := visitNeighbor_sound sp ef hn ht.1
            (hbound _ _ hnbs nb hnb) (hclosed nb hnb)
          exact ⟨u, hstep, hu, hle.trans ht.2⟩)
        { s with toVisit := rest } ⟨hrest, le_rfl⟩
      simp only [hfound, List.head?_cons, Option.bind_eq_bind, Option.bind_some]
      split
      · exact Or.inr ⟨s, rfl, hs⟩
      · refine Or.inl ⟨t, ?_, ht, by omega⟩
        change (x.neighbors (idOf cur) layer).bind _ = _
        rw [hnbs, Option.bind_some]
        simp only [hfound] at hfold
        rw [hfold]
        rfl

/-- `search_layer` is its loop, on the index with a new stamp. -/
theorem searchLayer_eq (ef : Nat) (hmarks : ∀ m ∈ x.visited, m ≤ x.visitCounter)
    (hcounter : x.visitCounter < wordBound32) {ep : Nat} {d0 : D}
    (hd0 : distance sp x q ep = some d0)
    (hep : ep < x.visited.length) :
    searchLayer sp x q ep ef layer skip =
      (loop (searchTurn sp x.nextVisitStamp q ef layer skip x.nextVisitStamp.visitCounter)
        (x.data.length + 1) (startSearch x.nextVisitStamp d0 ep)).map fun s =>
          (x.nextVisitStamp.withMarks s.visited x.nextVisitStamp.visitCounter,
            s.found.reverse) := by
  obtain ⟨visited, counter, hx, hlen, _⟩ := nextVisitStamp_eq hmarks hcounter
  rw [searchLayer, hx]
  have hd0' : distance sp (x.withMarks visited counter) q ep =
      some d0 := hd0
  simp only [Option.bind_eq_bind, hd0', Option.bind_some, startSearch, withMarks_visited,
    withMarks_visitCounter, withMarks_data, setAt_of_lt (show ep < visited.length by omega)]
  cases loop (searchTurn sp _ q ef layer skip counter) _ _ <;> rfl

/-- A search of a layer ends, since no more than all the nodes are ever pending. What its
turns keep of the start holds when it stops. -/
theorem searchLayer_rule {ef ep : Nat} {inv post : Nat → Search D → Prop}
    (hn : x.data.length = n) (hvisited : x.visited.length = n)
    (hmarks : ∀ m ∈ x.visited, m ≤ x.visitCounter) (hcounter : x.visitCounter < wordBound32)
    (hep : ep < n)
    (hstart : ∀ marks counter d0, marks.length = n → (∀ m ∈ marks, m < counter) →
      distance sp x q ep = some d0 → inv counter (startSearch (x.withMarks marks counter) d0 ep))
    (hturn : ∀ counter s, inv counter s →
      (∃ t, searchTurn sp x q ef layer skip counter s = some (.inl t) ∧ inv counter t ∧
        pending counter t < pending counter s) ∨
      ∃ t, searchTurn sp x q ef layer skip counter s = some (.inr t) ∧ post counter t) :
    ∃ counter s, searchLayer sp x q ep ef layer skip =
        some (x.withMarks s.visited counter, s.found.reverse) ∧
      counter < wordBound32 ∧ post counter s := by
  obtain ⟨d0, hd0⟩ := distance_of_lt sp hn hep
  obtain ⟨marks, counter, hx, hlen, hfresh, hbelow⟩ := nextVisitStamp_eq hmarks hcounter
  have hlength : (x.withMarks marks counter).visited.length = n := hlen.trans hvisited
  have hpending : pending counter (startSearch (x.withMarks marks counter) d0 ep) ≤ n :=
    pending_startSearch_le hlength hep d0
  obtain ⟨s, hloop, hs⟩ := loop_spec (inv counter) (pending counter) (post counter)
    (hturn counter) (x.data.length + 1) _ (hstart marks counter d0 hlength hfresh hd0) (by omega)
  refine ⟨counter, s, ?_, hbelow, hs⟩
  rw [searchLayer_eq sp ef hmarks hcounter hd0 (by omega), hx]
  exact Option.map_eq_some_iff.mpr ⟨s, hloop, rfl⟩

variable (q) in
/-- The candidates of a search of a layer are distinct nodes with the property. -/
theorem searchLayer_spec (hn : x.data.length = n) (hvisited : x.visited.length = n)
    (hmarks : ∀ m ∈ x.visited, m ≤ x.visitCounter) (hcounter : x.visitCounter < wordBound32)
    (hwalk : Walkable x n layer (fun nb => nb = skip) P)
    (hbound : ∀ id nbs, x.neighbors id layer = some nbs → ∀ nb ∈ nbs, nb < n) {ep : Nat}
    (hep : P ep) (ef : Nat) :
    ∃ visited counter candidates, searchLayer sp x q ep ef layer skip =
        some (x.withMarks visited counter, candidates) ∧
      visited.length = n ∧ (∀ m ∈ visited, m ≤ counter) ∧ counter < wordBound32 ∧
      candidates ≠ [] ∧ (∀ c ∈ candidates, P (idOf c)) ∧
      (candidates.map idOf).Nodup := by
  have hlt : ep < n := (hwalk ep hep).1
  have hstart : ∀ marks counter d0, marks.length = n → (∀ m ∈ marks, m < counter) →
      distance sp x q ep = some d0 →
      Sound sp x q n counter P (startSearch (x.withMarks marks counter) d0 ep) :=
    fun marks counter d0 hlength hfresh hd0 => startSearch_sound sp hlength hfresh hep hlt hd0
  obtain ⟨counter, s, hsearch, hbelow, hs⟩ := searchLayer_rule sp hn hvisited hmarks hcounter hlt
    hstart fun counter s hs => searchTurn_sound sp ef hn hwalk hbound hs
  refine ⟨s.visited, counter, s.found.reverse, hsearch, hs.visited_length, hs.marks, hbelow,
    by simpa using hs.found_ne, ?_, ?_⟩
  · intro c hc
    exact (hs.found c (List.mem_reverse.mp hc)).ok
  · rw [List.map_reverse, List.nodup_reverse]
    exact hs.nodup

end Layer

end HNSWIndex

end LogMind
