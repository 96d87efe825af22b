import LogMind.Pipeline.Workers

/-!
# Sharding loses and reorders nothing

For every shard the lines accepted are, in this order, the finished ones, the one
its worker is busy with, and those in its queue. The relation is kept by every
step of a producer, of a worker and of the stopping thread, so it holds after any
interleaving; counting gives the conservation of lines, selecting a source gives
its order, and a worker that has returned has left nothing behind.
-/

namespace LogMind

namespace Worker

/-- The line the worker has taken and not yet finished. -/
def inFlight (w : Worker) : List Job :=
  match w.phase with
  | .taken job => [job]
  | .called job => [job]
  | _ => []

/-- The line `process_raw_now` is running on. -/
def underWay (w : Worker) : List Job :=
  match w.phase with
  | .called job => [job]
  | _ => []

end Worker

namespace Shards

variable {n : Nat}

@[simp] theorem setWorker_workers_self (s : Shards n) (i : Fin n) (w : Worker) :
    (s.setWorker i w).workers i = w := by
  simp [setWorker]

theorem setWorker_workers_ne (s : Shards n) {i j : Fin n} (h : j ≠ i) (w : Worker) :
    (s.setWorker i w).workers j = s.workers j := by
  simp [setWorker, Function.update_of_ne h]

variable [NeZero n]

/-- The relation between one worker and the lines of its shard. -/
structure ShardHolds (capacity : Nat) (stop : StopPhase) (accepted reached finished : List Job)
    (w : Worker) : Prop where
  accepted_eq : accepted = finished ++ w.inFlight ++ w.queue
  reached_eq : reached = finished ++ w.underWay
  queue_le : w.queue.length ≤ capacity
  busy_eq : w.busy = !w.inFlight.isEmpty
  returned_empty : w.phase = .returned → w.queue = [] ∧ w.stopping = true
  stopping_ne : w.stopping = true → stop ≠ .running

/-- The lines of one shard. -/
def onShard (hash : Bytes → Nat) (i : Fin n) (jobs : List Job) : List Job :=
  Keyed.onKey (fun job => shardOf hash n job.1) i jobs

structure Holds (hash : Bytes → Nat) (s : Shards n) : Prop where
  shard : ∀ i, ShardHolds s.queueCapacity s.stop (onShard hash i s.accepted)
    (onShard hash i s.reached) (onShard hash i s.finished) (s.workers i)
  joined : ∀ k, s.stop = .joining k → ∀ i : Fin n, i.1 < k → (s.workers i).phase = .returned
  stopped : s.stop = .stopped → ∀ i, (s.workers i).phase = .returned

theorem startWorkers_holds (hash : Bytes → Nat) (queueCapacity : Nat) :
    Holds hash (startWorkers n queueCapacity) := by
  refine ⟨fun i => ⟨rfl, rfl, Nat.zero_le _, rfl, ?_, ?_⟩, ?_, ?_⟩ <;>
    simp [startWorkers]

namespace Holds

variable {hash : Bytes → Nat} {s : Shards n}

/-- A worker that has returned holds no line. -/
theorem empty_of_returned (h : Holds hash s) {i : Fin n}
    (hreturned : (s.workers i).phase = .returned) :
    (s.workers i).queue = [] ∧ (s.workers i).inFlight = [] ∧ (s.workers i).underWay = [] := by
  refine ⟨((h.shard i).returned_empty hreturned).1, ?_, ?_⟩
  · simp [Worker.inFlight, hreturned]
  · simp [Worker.underWay, hreturned]

/-- A step of one worker that keeps the relation of its own shard, and records
only lines of that shard, keeps the relation of all. -/
theorem setWorker (h : Holds hash s) (i : Fin n) (w : Worker) (accepted reached finished : List Job)
    (hphase : (s.workers i).phase = .returned → w.phase = .returned)
    (haccepted : ∀ job ∈ accepted, shardOf hash n job.1 = i)
    (hreached : ∀ job ∈ reached, shardOf hash n job.1 = i)
    (hfinished : ∀ job ∈ finished, shardOf hash n job.1 = i)
    (hw : ShardHolds s.queueCapacity s.stop (onShard hash i s.accepted ++ accepted)
      (onShard hash i s.reached ++ reached) (onShard hash i s.finished ++ finished) w) :
    Holds hash { s.setWorker i w with
      accepted := s.accepted ++ accepted
      reached := s.reached ++ reached
      finished := s.finished ++ finished } := by
  have hself : ∀ jobs : List Job, (∀ job ∈ jobs, shardOf hash n job.1 = i) →
      onShard hash i jobs = jobs := by
    intro jobs hjobs
    rw [onShard, Keyed.onKey, List.filter_eq_self]
    intro job hjob
    simpa using hjobs job hjob
  have hother : ∀ j, j ≠ i → ∀ jobs : List Job, (∀ job ∈ jobs, shardOf hash n job.1 = i) →
      onShard hash j jobs = [] := by
    intro j hj jobs hjobs
    rw [onShard, Keyed.onKey, List.filter_eq_nil_iff]
    intro job hjob hkey
    exact hj ((of_decide_eq_true hkey).symm.trans (hjobs job hjob))
  have hreturned : ∀ j, (s.workers j).phase = .returned →
      ((s.setWorker i w).workers j).phase = .returned := by
    intro j hj
    by_cases hij : j = i
    · subst hij
      rw [setWorker_workers_self]
      exact hphase hj
    · rwa [setWorker_workers_ne s hij]
  refine ⟨fun j => ?_, fun k hk j hj => hreturned j (h.joined k hk j hj),
    fun hs j => hreturned j (h.stopped hs j)⟩
  by_cases hij : j = i
  · subst hij
    simp only [onShard, Keyed.onKey_append, setWorker_workers_self] at hself hw ⊢
    rw [hself accepted haccepted, hself reached hreached, hself finished hfinished]
    exact hw
  · have hj := h.shard j
    simp only [onShard, Keyed.onKey_append] at hother hj ⊢
    rw [hother j hij accepted haccepted, hother j hij reached hreached,
      hother j hij finished hfinished, List.append_nil, List.append_nil, List.append_nil]
    change ShardHolds _ _ _ _ _ ((s.setWorker i w).workers j)
    rw [setWorker_workers_ne s hij]
    exact hj

theorem processRaw (h : Holds hash s) (hrunning : s.stop = .running) (job : Job) :
    Holds hash (s.processRaw (shardOf hash n job.1) job) := by
  unfold Shards.processRaw
  dsimp only
  split
  · exact ⟨h.shard, h.joined, h.stopped⟩
  · rename_i hroom
    have hi := h.shard (shardOf hash n job.1)
    have hset := h.setWorker (shardOf hash n job.1)
      { s.workers (shardOf hash n job.1) with
        queue := (s.workers (shardOf hash n job.1)).queue ++ [job] }
      [job] [] [] id (by simp) (by simp) (by simp) ⟨?_, ?_, ?_, hi.busy_eq, ?_, hi.stopping_ne⟩
    · simp only [List.append_nil] at hset
      exact hset
    · rw [List.append_nil, hi.accepted_eq, List.append_assoc]
      rfl
    · rw [List.append_nil, List.append_nil]
      exact hi.reached_eq
    · simp only [List.length_append, List.length_singleton]
      omega
    · intro hreturned
      have hstop := (hi.returned_empty hreturned).2
      exact absurd hrunning (hi.stopping_ne hstop)

theorem take (h : Holds hash s) {i : Fin n} {job : Job} {queue : List Job}
    (hphase : (s.workers i).phase = .waiting) (hqueue : (s.workers i).queue = job :: queue) :
    Holds hash (s.setWorker i
      { s.workers i with queue := queue, busy := true, phase := .taken job }) := by
  have hi := h.shard i
  have hset := h.setWorker i
    { s.workers i with queue := queue, busy := true, phase := .taken job } [] [] []
    (by simp [hphase]) (by simp) (by simp) (by simp) ⟨?_, ?_, ?_, rfl, by simp, hi.stopping_ne⟩
  · simp only [List.append_nil] at hset
    exact hset
  · rw [List.append_nil, List.append_nil, hi.accepted_eq, hqueue]
    simp [Worker.inFlight, hphase]
  · rw [List.append_nil, List.append_nil, hi.reached_eq]
    simp [Worker.underWay, hphase]
  · have hle := hi.queue_le
    rw [hqueue, List.length_cons] at hle
    exact Nat.le_of_succ_le hle

/-- The line a worker is busy with is one of its shard. -/
theorem shardOf_inFlight (h : Holds hash s) {i : Fin n} {job : Job}
    (hjob : job ∈ (s.workers i).inFlight) : shardOf hash n job.1 = i := by
  have hmem : job ∈ onShard hash i s.accepted := by
    rw [(h.shard i).accepted_eq]
    simp [hjob]
  rw [onShard, Keyed.onKey, List.mem_filter] at hmem
  exact of_decide_eq_true hmem.2

theorem call (h : Holds hash s) {i : Fin n} {job : Job}
    (hphase : (s.workers i).phase = .taken job) :
    Holds hash { s.setWorker i { s.workers i with phase := .called job } with
      reached := s.reached ++ [job] } := by
  have hi := h.shard i
  have hjob : shardOf hash n job.1 = i :=
    h.shardOf_inFlight (by simp [Worker.inFlight, hphase])
  have hset := h.setWorker i { s.workers i with phase := .called job } [] [job] []
    (by simp [hphase]) (by simp) (by simpa using hjob) (by simp)
    ⟨?_, ?_, hi.queue_le, ?_, by simp, hi.stopping_ne⟩
  · simp only [List.append_nil] at hset
    exact hset
  · rw [List.append_nil, List.append_nil, hi.accepted_eq]
    simp [Worker.inFlight, hphase]
  · rw [hi.reached_eq]
    simp [Worker.underWay, hphase]
  · rw [hi.busy_eq]
    simp [Worker.inFlight, hphase]

theorem finish (h : Holds hash s) {i : Fin n} {job : Job}
    (hphase : (s.workers i).phase = .called job) :
    Holds hash { s.setWorker i { s.workers i with busy := false, phase := .waiting } with
      finished := s.finished ++ [job] } := by
  have hi := h.shard i
  have hjob : shardOf hash n job.1 = i :=
    h.shardOf_inFlight (by simp [Worker.inFlight, hphase])
  have hset := h.setWorker i { s.workers i with busy := false, phase := .waiting } [] [] [job]
    (by simp [hphase]) (by simp) (by simp) (by simpa using hjob)
    ⟨?_, ?_, hi.queue_le, rfl, by simp, hi.stopping_ne⟩
  · simp only [List.append_nil] at hset
    exact hset
  · rw [List.append_nil, hi.accepted_eq]
    simp [Worker.inFlight, hphase]
  · rw [List.append_nil, hi.reached_eq]
    simp [Worker.underWay, hphase]

theorem leave (h : Holds hash s) {i : Fin n} (hphase : (s.workers i).phase = .waiting)
    (hqueue : (s.workers i).queue = []) (hstopping : (s.workers i).stopping = true) :
    Holds hash (s.setWorker i { s.workers i with phase := .returned }) := by
  have hi := h.shard i
  have hset := h.setWorker i { s.workers i with phase := .returned } [] [] []
    (fun _ => rfl) (by simp) (by simp) (by simp)
    ⟨?_, ?_, hi.queue_le, ?_, fun _ => ⟨hqueue, hstopping⟩, hi.stopping_ne⟩
  · simp only [List.append_nil] at hset
    exact hset
  · rw [List.append_nil, List.append_nil, hi.accepted_eq]
    simp [Worker.inFlight, hphase]
  · rw [List.append_nil, List.append_nil, hi.reached_eq]
    simp [Worker.underWay, hphase]
  · rw [hi.busy_eq]
    simp [Worker.inFlight, hphase]

/-- The flag of a worker is set only after the stopping thread has begun. -/
theorem signal (h : Holds hash s) {k : Nat} (hstop : s.stop = .signalling k) (hk : k < n) :
    Holds hash { s.setWorker ⟨k, hk⟩ { s.workers ⟨k, hk⟩ with stopping := true } with
      stop := .signalling (k + 1) } := by
  have hi := h.shard ⟨k, hk⟩
  have hset := h.setWorker ⟨k, hk⟩ { s.workers ⟨k, hk⟩ with stopping := true } [] [] []
    (fun hr => hr) (by simp) (by simp) (by simp)
    ⟨?_, ?_, hi.queue_le, hi.busy_eq, fun hr => ⟨(hi.returned_empty hr).1, rfl⟩,
      fun _ => by simp [hstop]⟩
  rotate_left
  · rw [List.append_nil, List.append_nil]
    exact hi.accepted_eq
  · rw [List.append_nil, List.append_nil]
    exact hi.reached_eq
  simp only [List.append_nil] at hset
  refine ⟨fun j => ?_, by simp, by simp⟩
  have hj := hset.shard j
  exact ⟨hj.accepted_eq, hj.reached_eq, hj.queue_le, hj.busy_eq, hj.returned_empty, by simp⟩

theorem stopThread (h : Holds hash s) {stop : StopPhase} (hne : stop ≠ .running)
    (hjoined : ∀ k, stop = .joining k → ∀ i : Fin n, i.1 < k → (s.workers i).phase = .returned)
    (hstopped : stop = .stopped → ∀ i, (s.workers i).phase = .returned) :
    Holds hash { s with stop := stop } := by
  refine ⟨fun i => ?_, hjoined, hstopped⟩
  have hi := h.shard i
  exact ⟨hi.accepted_eq, hi.reached_eq, hi.queue_le, hi.busy_eq, hi.returned_empty,
    fun _ => hne⟩

theorem step (h : Holds hash s) {action : Action n} {t : Shards n}
    (hstep : s.step hash action = some t) : Holds hash t := by
  cases action with
  | processRaw job =>
      simp only [Shards.step] at hstep
      split at hstep
      · rename_i hrunning
        exact Option.some.inj hstep ▸ h.processRaw hrunning job
      · simp at hstep
  | take i =>
      simp only [Shards.step] at hstep
      split at hstep
      · rename_i hphase hqueue
        exact Option.some.inj hstep ▸ h.take hphase hqueue
      · simp at hstep
  | call i =>
      simp only [Shards.step] at hstep
      split at hstep
      · rename_i hphase
        exact Option.some.inj hstep ▸ h.call hphase
      · simp at hstep
  | finish i =>
      simp only [Shards.step] at hstep
      split at hstep
      · rename_i hphase
        exact Option.some.inj hstep ▸ h.finish hphase
      · simp at hstep
  | leave i =>
      simp only [Shards.step] at hstep
      split at hstep
      · rename_i hphase hqueue
        split at hstep
        · rename_i hstopping
          exact Option.some.inj hstep ▸ h.leave hphase hqueue hstopping
        · simp at hstep
      · simp at hstep
  | stopWorkers =>
      simp only [Shards.step] at hstep
      split at hstep
      · exact Option.some.inj hstep ▸ h.stopThread (by simp) (by simp) (by simp)
      · simp at hstep
  | signal =>
      simp only [Shards.step] at hstep
      split at hstep
      · rename_i k hstop
        split at hstep
        · rename_i hk
          exact Option.some.inj hstep ▸ h.signal hstop hk
        · exact Option.some.inj hstep ▸ h.stopThread (by simp) (by simp) (by simp)
      · simp at hstep
  | join =>
      simp only [Shards.step] at hstep
      split at hstep
      · rename_i k hstop
        split at hstep
        · rename_i hk
          split at hstep
          · rename_i hreturned
            refine Option.some.inj hstep ▸ h.stopThread (by simp) ?_ (by simp)
            intro k' hk' i hi
            obtain rfl := StopPhase.joining.inj hk'
            by_cases hik : i.1 = k
            · obtain rfl : i = ⟨k, hk⟩ := Fin.ext hik
              exact hreturned
            · exact h.joined k hstop i (by omega)
          · simp at hstep
        · rename_i hk
          refine Option.some.inj hstep ▸ h.stopThread (by simp) (by simp) ?_
          intro _ i
          exact h.joined k hstop i (by omega)
      · simp at hstep

/-! ## What the relation says about all shards together -/

/-- Lines accepted are finished, queued, or the one a busy worker holds. -/
theorem conservation (h : Holds hash s) :
    s.accepted.length = s.finished.length + ∑ i, (s.workers i).queue.length +
      (Finset.univ.filter fun i => (s.workers i).busy = true).card := by
  have hbusy : ∀ i, (s.workers i).inFlight.length =
      if (s.workers i).busy = true then 1 else 0 := by
    intro i
    rw [(h.shard i).busy_eq]
    cases hphase : (s.workers i).phase <;> simp [Worker.inFlight, hphase]
  have hshard : ∀ i, (onShard hash i s.accepted).length =
      (onShard hash i s.finished).length + (s.workers i).queue.length +
        if (s.workers i).busy = true then 1 else 0 := by
    intro i
    rw [(h.shard i).accepted_eq, List.length_append, List.length_append, ← hbusy i]
    omega
  rw [← Keyed.sum_length_onKey (fun job : Job => shardOf hash n job.1) s.accepted,
    ← Keyed.sum_length_onKey (fun job : Job => shardOf hash n job.1) s.finished,
    Finset.card_filter, ← Finset.sum_add_distrib, ← Finset.sum_add_distrib]
  exact Finset.sum_congr rfl fun i _ => hshard i

/-- The lines of a source, read off the lines of its shard. -/
theorem ofSource_onShard (hash : Bytes → Nat) (m : Nat) [NeZero m] (source : Bytes)
    (jobs : List Job) :
    Keyed.onKey Prod.fst source (onShard hash (shardOf hash m source) jobs) =
      Keyed.onKey Prod.fst source jobs :=
  Keyed.onKey_onKey_of_factor Prod.fst (shardOf hash m) source jobs

/-- The lines of a source reach `process_raw_now` in the order they were accepted. -/
theorem reached_prefix (h : Holds hash s) (source : Bytes) :
    Keyed.onKey Prod.fst source s.reached <+: Keyed.onKey Prod.fst source s.accepted := by
  have hi := h.shard (shardOf hash n source)
  have hunder : (s.workers (shardOf hash n source)).underWay <+:
      (s.workers (shardOf hash n source)).inFlight := by
    cases hphase : (s.workers (shardOf hash n source)).phase <;>
      simp [Worker.underWay, Worker.inFlight, hphase]
  rw [← ofSource_onShard hash n source s.reached, ← ofSource_onShard hash n source s.accepted,
    hi.reached_eq, hi.accepted_eq]
  apply List.IsPrefix.filter
  rw [List.append_assoc]
  exact (List.prefix_append_right_inj _).mpr (hunder.trans (List.prefix_append _ _))

/-- When `stop_workers` has returned, every accepted line has been processed. -/
theorem reached_of_stopped (h : Holds hash s) (hstopped : s.stop = .stopped) (source : Bytes) :
    Keyed.onKey Prod.fst source s.reached = Keyed.onKey Prod.fst source s.accepted ∧
      Keyed.onKey Prod.fst source s.finished = Keyed.onKey Prod.fst source s.accepted := by
  have hi := h.shard (shardOf hash n source)
  obtain ⟨hqueue, hflight, hunder⟩ := h.empty_of_returned (h.stopped hstopped _)
  have haccepted := hi.accepted_eq
  have hreached := hi.reached_eq
  rw [hqueue, hflight, List.append_nil, List.append_nil] at haccepted
  rw [hunder, List.append_nil] at hreached
  rw [← ofSource_onShard hash n source s.reached, ← ofSource_onShard hash n source s.accepted,
    ← ofSource_onShard hash n source s.finished, hreached, haccepted]
  exact ⟨rfl, rfl⟩

end Holds

theorem step_queueCapacity {hash : Bytes → Nat} {s t : Shards n} {action : Action n}
    (hstep : s.step hash action = some t) : t.queueCapacity = s.queueCapacity := by
  cases action with
  | processRaw job =>
      simp only [Shards.step] at hstep
      split at hstep
      · rw [← Option.some.inj hstep, Shards.processRaw]
        dsimp only
        split <;> rfl
      · simp at hstep
  | _ =>
      simp only [Shards.step] at hstep
      repeat' split at hstep
      all_goals first
        | exact Option.some.inj hstep ▸ rfl
        | simp at hstep

/-- A call of `process_raw` counts its line as dropped or puts it at the end of
the queue of its shard. -/
theorem step_processRaw {hash : Bytes → Nat} {s t : Shards n} {job : Job}
    (hstep : s.step hash (.processRaw job) = some t) :
    t = { s with totalDropped := s.totalDropped + 1 } ∨
      (t.totalDropped = s.totalDropped ∧ t.accepted = s.accepted ++ [job] ∧
        (t.workers (shardOf hash n job.1)).queue =
          (s.workers (shardOf hash n job.1)).queue ++ [job]) := by
  simp only [Shards.step] at hstep
  split at hstep
  · rw [← Option.some.inj hstep, Shards.processRaw]
    dsimp only
    split
    · exact Or.inl rfl
    · exact Or.inr ⟨rfl, rfl, by simp⟩
  · simp at hstep

/-- Any interleaving of producers, workers and the stopping thread: each call drops
its line or enqueues it, accepted lines are conserved, queues stay bounded, and the
lines of a source reach `process_raw_now` in their order, all of them when
`stop_workers` has returned. -/
theorem run_conserves (hash : Bytes → Nat) (n : Nat) [NeZero n] (queueCapacity : Nat)
    (actions : List (Action n)) (s : Shards n)
    (hrun : Transition.run (step hash) (startWorkers n queueCapacity) actions = some s) :
    (∀ job t, s.step hash (.processRaw job) = some t →
        t = { s with totalDropped := s.totalDropped + 1 } ∨
          (t.totalDropped = s.totalDropped ∧ t.accepted = s.accepted ++ [job] ∧
            (t.workers (shardOf hash n job.1)).queue =
              (s.workers (shardOf hash n job.1)).queue ++ [job])) ∧
      s.accepted.length = s.finished.length + ∑ i, (s.workers i).queue.length +
        (Finset.univ.filter fun i => (s.workers i).busy = true).card ∧
      (∀ i, (s.workers i).queue.length ≤ max queueCapacity 1) ∧
      (∀ source, Keyed.onKey Prod.fst source s.reached <+:
        Keyed.onKey Prod.fst source s.accepted) ∧
      (s.stop = .stopped → ∀ source,
        Keyed.onKey Prod.fst source s.reached = Keyed.onKey Prod.fst source s.accepted ∧
          Keyed.onKey Prod.fst source s.finished = Keyed.onKey Prod.fst source s.accepted) := by
  have h : Holds hash s :=
    Transition.run_invariant (fun _ _ _ h hstep => h.step hstep)
      (startWorkers_holds hash queueCapacity) hrun
  have hkeep : ∀ (u : Shards n) (a : Action n) (v : Shards n),
      u.queueCapacity = (startWorkers n queueCapacity).queueCapacity → u.step hash a = some v →
        v.queueCapacity = (startWorkers n queueCapacity).queueCapacity :=
    fun _ _ _ heq hstep => (step_queueCapacity hstep).trans heq
  have hcapacity := Transition.run_invariant hkeep rfl hrun
  refine ⟨fun job t => step_processRaw, h.conservation, fun i => ?_, h.reached_prefix,
    h.reached_of_stopped⟩
  have hle := (h.shard i).queue_le
  rw [hcapacity] at hle
  simp only [startWorkers] at hle
  split at hle <;> omega

/-- Two lines of one source through a single worker, until it has been joined. -/
theorem run_conserves_two :
    let actions : List (Action 1) :=
      [.processRaw ([1], [2]), .processRaw ([1], [3]), .take 0, .call 0, .stopWorkers,
        .signal, .finish 0, .take 0, .call 0, .finish 0, .leave 0, .signal, .join, .join]
    let s := (Transition.run (step List.length) (startWorkers 1 4) actions).get (by decide)
    s.reached = [([1], [2]), ([1], [3])] ∧
      Keyed.onKey Prod.fst [1] s.reached = Keyed.onKey Prod.fst [1] s.accepted :=
  ⟨by decide, ((run_conserves List.length 1 4 _ _ (Option.some_get _).symm).2.2.2.2
    (by decide) [1]).1⟩

end Shards

end LogMind
