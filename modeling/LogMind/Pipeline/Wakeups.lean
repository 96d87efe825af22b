import LogMind.Pipeline.Flush
import Mathlib.Data.List.Infix

/-!
# No wakeup is lost

A worker sleeps only with an empty queue, and a caller of `flush` only while there is a
line in the queue, or the worker has one, or is about to notify. So the two never sleep
on one condition variable at a time, and a notification that is meant for the worker
cannot go to a caller of `flush` instead. A call of `flush` has passed a worker when it
has finished every line that it had accepted before, and later steps keep that.
-/

namespace LogMind

namespace LoopWorker

/-- The line the worker has taken and not yet finished. -/
def inFlight (w : LoopWorker) : List Job :=
  match w.phase with
  | .taken job => [job]
  | _ => []

/-- The phases between taking a line and `busy = false`. -/
def holds (w : LoopWorker) : Bool :=
  match w.phase with
  | .taken _ | .processed => true
  | _ => false

/-- What lets a caller of `flush` sleep. -/
def Pending (w : LoopWorker) : Prop := w.queue ≠ [] ∨ w.busy = true ∨ w.phase = .notifying

/-- The relation between a worker and its lines, and what lets it sleep. -/
structure Sound (stop : StopThread) (i : Nat) (w : LoopWorker) : Prop where
  blocked : w.phase = .blocked → w.queue = [] ∧ (w.stopping = true → stop = .notifying i)
  busy : w.busy = w.holds
  lines : w.accepted = w.finished ++ w.inFlight ++ w.queue
  stopping : w.stopping = true → stop ≠ .running

theorem Sound.wake {stop : StopThread} {i : Nat} {w : LoopWorker} (h : w.Sound stop i)
    (hphase : w.phase = .blocked) : Sound stop i { w with phase := .ready } := by
  have hbusy := h.busy
  have hlines := h.lines
  unfold holds at hbusy
  unfold inFlight at hlines
  rw [hphase] at hbusy hlines
  exact ⟨fun hready => (by cases hready), hbusy, hlines, h.stopping⟩

theorem Sound.wakeWorker {stop : StopThread} {i : Nat} {w : LoopWorker} (h : w.Sound stop i) :
    Sound stop i (Barrier.wakeWorker w) := by
  unfold Barrier.wakeWorker
  split
  case isTrue hphase => exact h.wake hphase
  case isFalse => exact h

end LoopWorker

/-- The caller is behind the test of a worker. -/
def FlushPhase.Passed : FlushPhase → Nat → Prop
  | .idle, _ => False
  | .ready k, i | .blocked k, i => i < k
  | .returned, _ => True

namespace Barrier

variable {n m : Nat}

/-- A thread is about to notify all that wait for a worker. -/
def AboutToNotify (s : Barrier n m) (i : Fin n) : Prop :=
  (s.workers i).phase = .notifying ∨ s.stop = .notifying i

structure Sound (s : Barrier n m) : Prop where
  workers : ∀ i, (s.workers i).Sound s.stop i
  waiting : ∀ f (i : Fin n), (s.calls f).phase = .blocked i →
    (s.workers i).Pending ∧ ((s.workers i).stopping = true → s.stop = .notifying i)
  before : ∀ f i, (s.calls f).before i <+: (s.workers i).accepted
  passed : s.stop = .running → ∀ f (i : Fin n), (s.calls f).phase.Passed i →
    (s.calls f).before i <+: (s.workers i).finished

variable {s t : Barrier n m} {i : Fin n} {f : Fin m}

theorem startWorkers_sound (queueCapacity : Nat) : Sound (startWorkers n m queueCapacity) := by
  refine ⟨fun i => ⟨fun hphase => (by cases hphase), rfl, rfl, fun hstop => (by cases hstop)⟩,
    fun f i hphase => (by cases hphase), fun f i => List.nil_prefix, fun _ f i hpassed => ?_⟩
  exact False.elim hpassed

/-- A notification goes to a thread that sleeps, if there is one. -/
theorem notifyOne_cases {woken : Option (Waiter m)}
    (h : s.notifyOne i woken = some t) :
    (woken = none ∧ ¬ s.Waits i .worker ∧ t = s) ∨ ∃ w, s.Waits i w ∧ t = s.wake i w := by
  cases woken with
  | none =>
      change (if _ then some s else none) = some t at h
      by_cases hnone : ¬ s.Waits i .worker ∧ ∀ f, ¬ s.Waits i (.call f)
      · rw [if_pos hnone] at h
        exact .inl ⟨rfl, hnone.1, (Option.some.inj h).symm⟩
      · rw [if_neg hnone] at h
        cases h
  | some w =>
      change (if _ then some _ else none) = some t at h
      by_cases hwaits : s.Waits i w
      · rw [if_pos hwaits] at h
        exact .inr ⟨w, hwaits, (Option.some.inj h).symm⟩
      · rw [if_neg hwaits] at h
        cases h

namespace Sound

/-- A worker does something: its lines only become more, and the callers that sleep
still have something to wait for. -/
theorem setWorker (h : Sound s) (i : Fin n) {w : LoopWorker} (hw : w.Sound s.stop i)
    (haccepted : (s.workers i).accepted <+: w.accepted)
    (hfinished : (s.workers i).finished <+: w.finished)
    (hwaiting : ∀ f, (s.calls f).phase = .blocked i →
      w.Pending ∧ (w.stopping = true → s.stop = .notifying i)) : Sound (s.setWorker i w) := by
  have hworkers : ∀ j, (s.setWorker i w).workers j = if j = i then w else s.workers j :=
    fun j => Function.update_apply ..
  refine ⟨fun j => ?_, fun f j hphase => ?_, fun f j => ?_, fun hrunning f j hpassed => ?_⟩
  · rw [hworkers]
    split
    case isTrue hj => exact hj ▸ hw
    case isFalse => exact h.workers j
  · rw [hworkers]
    split
    case isTrue hj => exact hj ▸ hwaiting f (hj ▸ hphase)
    case isFalse => exact h.waiting f j hphase
  · rw [hworkers]
    split
    case isTrue hj => exact (h.before f j).trans (hj ▸ haccepted)
    case isFalse => exact h.before f j
  · rw [hworkers]
    split
    case isTrue hj => exact (h.passed hrunning f j hpassed).trans (hj ▸ hfinished)
    case isFalse => exact h.passed hrunning f j hpassed

/-- A caller does something. -/
theorem setCall (h : Sound s) (f : Fin m) {c : FlushCall n}
    (hwaiting : ∀ i : Fin n, c.phase = .blocked i →
      (s.workers i).Pending ∧ ((s.workers i).stopping = true → s.stop = .notifying i))
    (hbefore : ∀ i, c.before i <+: (s.workers i).accepted)
    (hpassed : s.stop = .running → ∀ i : Fin n, c.phase.Passed i →
      c.before i <+: (s.workers i).finished) : Sound (s.setCall f c) := by
  have hcalls : ∀ g, (s.setCall f c).calls g = if g = f then c else s.calls g :=
    fun g => Function.update_apply ..
  refine ⟨h.workers, fun g j hphase => ?_, fun g j => ?_, fun hrunning g j hgone => ?_⟩
  · rw [hcalls] at hphase
    split at hphase
    case isTrue => exact hwaiting j hphase
    case isFalse => exact h.waiting g j hphase
  · rw [hcalls]
    split
    case isTrue => exact hbefore j
    case isFalse => exact h.before g j
  · rw [hcalls] at hgone ⊢
    split at hgone
    case isTrue hg =>
      rw [if_pos hg]
      exact hpassed hrunning j hgone
    case isFalse hg =>
      rw [if_neg hg]
      exact h.passed hrunning g j hgone

/-- The stopping thread goes on while it is not about to notify. -/
theorem withStop (h : Sound s) {stop : StopThread} (hstop : stop ≠ .running)
    (hquiet : ∀ i : Fin n, s.stop ≠ .notifying i) : Sound { s with stop := stop } := by
  refine ⟨fun i => ⟨fun hphase => ?_, (h.workers i).busy, (h.workers i).lines, fun _ => hstop⟩,
    fun f i hphase => ?_, h.before, fun hrunning => absurd hrunning hstop⟩
  · obtain ⟨hqueue, hset⟩ := (h.workers i).blocked hphase
    exact ⟨hqueue, fun hstopping => absurd (hset hstopping) (hquiet i)⟩
  · obtain ⟨hpending, hset⟩ := h.waiting f i hphase
    exact ⟨hpending, fun hstopping => absurd (hset hstopping) (hquiet i)⟩

/-- With nothing to wait for, no caller sleeps. -/
theorem not_blocked_of_drained (h : Sound s) (hqueue : (s.workers i).queue = [])
    (hbusy : (s.workers i).busy = false)
    (hphase : (s.workers i).phase ≠ .notifying) (f : Fin m) : (s.calls f).phase ≠ .blocked i := by
  intro hblocked
  rcases (h.waiting f i hblocked).1 with hne | htrue | hnotifying
  · exact hne hqueue
  · exact Bool.false_ne_true (hbusy.symm.trans htrue)
  · exact hphase hnotifying

/-- While a worker sleeps no caller of `flush` does. -/
theorem not_blocked_of_asleep (h : Sound s) (hblocked : (s.workers i).phase = .blocked)
    (f : Fin m) : (s.calls f).phase ≠ .blocked i := by
  have hbusy := (h.workers i).busy
  unfold LoopWorker.holds at hbusy
  rw [hblocked] at hbusy
  refine h.not_blocked_of_drained ((h.workers i).blocked hblocked).1 hbusy ?_ f
  rw [hblocked]
  exact LoopPhase.noConfusion

theorem wake (h : Sound s) {w : Waiter m} (hwaits : s.Waits i w) : Sound (s.wake i w) := by
  cases w with
  | worker =>
      exact h.setWorker i ((h.workers i).wake hwaits) (List.prefix_refl _) (List.prefix_refl _)
        fun f hblocked => absurd hblocked (h.not_blocked_of_asleep hwaits f)
  | call f =>
      have hwaits : (s.calls f).phase = .blocked i := hwaits
      refine h.setCall f (fun j hphase => (by cases hphase)) (h.before f)
        fun hrunning j hpassed => ?_
      refine h.passed hrunning f j ?_
      rw [hwaits]
      exact hpassed

/-- Behind a notification of all no thread sleeps on the condition variable. -/
theorem notifyAll {stop : StopThread} (i : Fin n)
    (hself : (wakeWorker (s.workers i)).Sound stop i)
    (hworkers : ∀ j ≠ i, (s.workers j).Sound stop j)
    (hwaiting : ∀ f (j : Fin n), j ≠ i → (s.calls f).phase = .blocked j →
      (s.workers j).Pending ∧ ((s.workers j).stopping = true → stop = .notifying j))
    (hbefore : ∀ f j, (s.calls f).before j <+: (s.workers j).accepted)
    (hpassed : stop = .running → ∀ f (j : Fin n), (s.calls f).phase.Passed j →
      (s.calls f).before j <+: (s.workers j).finished) :
    Sound { s.notifyAll i with stop := stop } := by
  have hother : ∀ j ≠ i, (s.notifyAll i).workers j = s.workers j :=
    fun j hj => Function.update_of_ne hj ..
  have hlines : ∀ j, ((s.notifyAll i).workers j).accepted = (s.workers j).accepted ∧
      ((s.notifyAll i).workers j).finished = (s.workers j).finished := by
    intro j
    by_cases hj : j = i
    · subst hj
      have hsame : (s.notifyAll j).workers j = wakeWorker (s.workers j) := Function.update_self ..
      rw [hsame]
      unfold wakeWorker
      split <;> exact ⟨rfl, rfl⟩
    · rw [hother j hj]
      exact ⟨rfl, rfl⟩
  have hcall : ∀ f, ((s.notifyAll i).calls f).before = (s.calls f).before ∧
      (∀ j : Fin n, ((s.notifyAll i).calls f).phase = .blocked j →
        j ≠ i ∧ (s.calls f).phase = .blocked j) ∧
      ∀ j, ((s.notifyAll i).calls f).phase.Passed j → (s.calls f).phase.Passed j := by
    intro f
    show (wakeCall i (s.calls f)).before = _ ∧ (∀ j : Fin n, (wakeCall i (s.calls f)).phase =
      .blocked j → _) ∧ ∀ j, (wakeCall i (s.calls f)).phase.Passed j → _
    unfold wakeCall
    split
    case isTrue hblocked =>
      rw [hblocked]
      exact ⟨rfl, fun j hphase => (by cases hphase), fun j hgone => hgone⟩
    case isFalse hawake =>
      refine ⟨rfl, fun j hphase => ⟨?_, hphase⟩, fun j hgone => hgone⟩
      rintro rfl
      exact hawake hphase
  refine ⟨fun j => ?_, fun f j hphase => ?_, fun f j => ?_, fun hrunning f j hgone => ?_⟩
  · by_cases hj : j = i
    · subst hj
      show (Function.update s.workers j (wakeWorker (s.workers j)) j).Sound stop j
      rw [Function.update_self]
      exact hself
    · show ((s.notifyAll i).workers j).Sound stop j
      rw [hother j hj]
      exact hworkers j hj
  · obtain ⟨hj, hphase⟩ := (hcall f).2.1 j hphase
    show ((s.notifyAll i).workers j).Pending ∧ _
    rw [hother j hj]
    exact hwaiting f j hj hphase
  · show ((s.notifyAll i).calls f).before j <+: ((s.notifyAll i).workers j).accepted
    rw [(hcall f).1, (hlines j).1]
    exact hbefore f j
  · show ((s.notifyAll i).calls f).before j <+: ((s.notifyAll i).workers j).finished
    rw [(hcall f).1, (hlines j).2]
    exact hpassed hrunning f j ((hcall f).2.2 j hgone)

/-- Either the worker sleeps and is the one that is woken, or it tests its predicate anyway. -/
theorem processRaw (h : Sound s) {job : Job} {woken : Option (Waiter m)}
    (hstep : s.processRaw i job woken = some t) : Sound t := by
  have hw := h.workers i
  unfold Barrier.processRaw at hstep
  split at hstep
  case isTrue => exact Option.some.inj hstep ▸ h
  case isFalse =>
  generalize hnew : ({ s.workers i with
    queue := (s.workers i).queue ++ [job]
    accepted := (s.workers i).accepted ++ [job] } : LoopWorker) = w at hstep
  have hphase : w.phase = (s.workers i).phase := by rw [← hnew]
  have hworker : (s.setWorker i w).workers i = w := Function.update_self ..
  by_cases hblocked : (s.workers i).phase = .blocked
  · -- No caller of `flush` sleeps here, so the notification is for the worker.
    have hwaits : (s.setWorker i w).Waits i .worker := by
      show ((s.setWorker i w).workers i).phase = .blocked
      rw [hworker, hphase, hblocked]
    have hwoken : t = (s.setWorker i w).wake i .worker := by
      rcases notifyOne_cases hstep with ⟨-, hnone, -⟩ | ⟨waiter, hwaiter, hwake⟩
      · exact absurd hwaits hnone
      · cases waiter with
        | worker => exact hwake
        | call f => exact absurd hwaiter (h.not_blocked_of_asleep hblocked f)
    have htwice : (s.setWorker i w).wake i .worker = s.setWorker i { w with phase := .ready } := by
      have hupdate : (s.setWorker i w).setWorker i { w with phase := .ready } =
          s.setWorker i { w with phase := .ready } := by
        unfold Barrier.setWorker
        rw [Function.update_idem]
      rw [Barrier.wake, hworker, hupdate]
    rw [hwoken, htwice, ← hnew]
    have hbusy := hw.busy
    have hlines := hw.lines
    unfold LoopWorker.holds at hbusy
    unfold LoopWorker.inFlight at hlines
    rw [hblocked] at hbusy hlines
    refine h.setWorker i ⟨fun hready => (by cases hready), hbusy, ?_, hw.stopping⟩
      (List.prefix_append _ _) (List.prefix_refl _)
      fun f hf => absurd hf (h.not_blocked_of_asleep hblocked f)
    show (s.workers i).accepted ++ [job] = (s.workers i).finished ++ [] ++
      ((s.workers i).queue ++ [job])
    rw [hlines, List.append_assoc]
  · have hset : Sound (s.setWorker i w) := by
      rw [← hnew]
      refine h.setWorker i ⟨fun hb => absurd hb hblocked, hw.busy, ?_, hw.stopping⟩
        (List.prefix_append _ _) (List.prefix_refl _)
        fun f hf => ⟨.inl (by simp), (h.waiting f i hf).2⟩
      show (s.workers i).accepted ++ [job] = (s.workers i).finished ++ (s.workers i).inFlight ++
        ((s.workers i).queue ++ [job])
      rw [hw.lines, List.append_assoc]
    rcases notifyOne_cases hstep with ⟨-, -, hsame⟩ | ⟨waiter, hwaits, hwake⟩
    · exact hsame ▸ hset
    · exact hwake ▸ hset.wake hwaits

theorem enter (h : Sound s) (hstep : s.enter i = some t) : Sound t := by
  have hw := h.workers i
  unfold Barrier.enter at hstep
  split at hstep
  case h_1 job queue hphase hqueue =>
    have hlines := hw.lines
    unfold LoopWorker.inFlight at hlines
    rw [hphase, hqueue, List.append_nil] at hlines
    rw [← Option.some.inj hstep]
    refine h.setWorker i ⟨fun hb => (by cases hb), rfl, ?_, hw.stopping⟩ (List.prefix_refl _)
      (List.prefix_refl _) fun f hf => ⟨.inr (.inl rfl), (h.waiting f i hf).2⟩
    show (s.workers i).accepted = (s.workers i).finished ++ [job] ++ queue
    rw [hlines, List.append_assoc, List.singleton_append]
  case h_2 hphase hqueue =>
    have hbusy := hw.busy
    have hlines := hw.lines
    unfold LoopWorker.holds at hbusy
    unfold LoopWorker.inFlight at hlines
    rw [hphase] at hbusy hlines
    have hnobody := h.not_blocked_of_drained hqueue hbusy
      (by rw [hphase]; exact LoopPhase.noConfusion)
    rw [← Option.some.inj hstep]
    split
    case isTrue =>
      exact h.setWorker i ⟨fun hb => (by cases hb), hbusy, hlines, hw.stopping⟩ (List.prefix_refl _)
        (List.prefix_refl _) fun f hf => absurd hf (hnobody f)
    case isFalse hgoes =>
      exact h.setWorker i ⟨fun _ => ⟨hqueue, fun hstop => absurd hstop hgoes⟩, hbusy, hlines,
        hw.stopping⟩ (List.prefix_refl _) (List.prefix_refl _) fun f hf => absurd hf (hnobody f)
  case h_3 => cases hstep

theorem process (h : Sound s) {job : Job} (hphase : (s.workers i).phase = .taken job) :
    Sound (s.setWorker i { s.workers i with
      phase := .processed
      finished := (s.workers i).finished ++ [job] }) := by
  have hw := h.workers i
  have hbusy := hw.busy
  have hlines := hw.lines
  unfold LoopWorker.holds at hbusy
  unfold LoopWorker.inFlight at hlines
  rw [hphase] at hbusy hlines
  refine h.setWorker i ⟨fun hb => (by cases hb), hbusy, ?_, hw.stopping⟩ (List.prefix_refl _)
    (List.prefix_append _ _) fun f hf => ⟨.inr (.inl hbusy), (h.waiting f i hf).2⟩
  show (s.workers i).accepted = (s.workers i).finished ++ [job] ++ [] ++ (s.workers i).queue
  rw [List.append_nil]
  exact hlines

theorem clearBusy (h : Sound s) (hphase : (s.workers i).phase = .processed) :
    Sound (s.setWorker i { s.workers i with busy := false, phase := .notifying }) := by
  have hw := h.workers i
  have hlines := hw.lines
  unfold LoopWorker.inFlight at hlines
  rw [hphase] at hlines
  exact h.setWorker i ⟨fun hb => (by cases hb), rfl, hlines, hw.stopping⟩ (List.prefix_refl _)
    (List.prefix_refl _) fun f hf => ⟨.inr (.inr rfl), (h.waiting f i hf).2⟩

theorem notify (h : Sound s) (hphase : (s.workers i).phase = .notifying) :
    Sound ((s.setWorker i { s.workers i with phase := .ready }).notifyAll i) := by
  have hw := h.workers i
  have hbusy := hw.busy
  have hlines := hw.lines
  unfold LoopWorker.holds at hbusy
  unfold LoopWorker.inFlight at hlines
  rw [hphase] at hbusy hlines
  have hother : ∀ j ≠ i, (s.setWorker i { s.workers i with phase := .ready }).workers j =
      s.workers j := fun j hj => Function.update_of_ne hj ..
  have hself : (s.setWorker i { s.workers i with phase := .ready }).workers i =
      { s.workers i with phase := .ready } := Function.update_self ..
  have hsame : ∀ j, ((s.setWorker i { s.workers i with phase := .ready }).workers j).accepted =
        (s.workers j).accepted ∧
      ((s.setWorker i { s.workers i with phase := .ready }).workers j).finished =
        (s.workers j).finished := by
    intro j
    by_cases hj : j = i
    · subst hj
      rw [hself]
      exact ⟨rfl, rfl⟩
    · rw [hother j hj]
      exact ⟨rfl, rfl⟩
  refine Sound.notifyAll (s := s.setWorker i { s.workers i with phase := .ready }) i ?_
    (fun j hj => ?_) (fun f j hj hf => ?_) (fun f j => ?_) fun hrunning f j hgone => ?_
  · rw [hself]
    exact ⟨fun hb => (by cases hb), hbusy, hlines, hw.stopping⟩
  · rw [hother j hj]
    exact h.workers j
  · rw [hother j hj]
    exact h.waiting f j hf
  · rw [(hsame j).1]
    exact h.before f j
  · rw [(hsame j).2]
    exact h.passed hrunning f j hgone

theorem flush (h : Sound s) (f : Fin m) :
    Sound (s.setCall f { phase := .ready 0, before := fun i => (s.workers i).accepted }) :=
  h.setCall f (fun i hphase => by cases hphase) (fun i => List.prefix_refl _)
    fun _ i hpassed => absurd hpassed (Nat.not_lt_zero i)

/-- A caller goes past a worker that has finished everything. -/
theorem check (h : Sound s) (hstep : s.check f = some t) : Sound t := by
  unfold Barrier.check at hstep
  split at hstep
  case h_2 => cases hstep
  case h_1 k hphase =>
  have hpassed : ∀ (hrunning : s.stop = .running) (i : Fin n), i.1 < k →
      (s.calls f).before i <+: (s.workers i).finished := by
    intro hrunning i hi
    refine h.passed hrunning f i ?_
    rw [hphase]
    exact hi
  split at hstep
  case isFalse hk =>
    rw [← Option.some.inj hstep]
    refine h.setCall f (fun i hb => (by cases hb)) (h.before f) fun hrunning i _ => ?_
    exact hpassed hrunning i (i.isLt.trans_le (Nat.not_lt.mp hk))
  case isTrue hk =>
    rw [← Option.some.inj hstep]
    have hw := h.workers ⟨k, hk⟩
    split
    case isTrue hdrained =>
      refine h.setCall f (fun i hb => (by cases hb)) (h.before f) fun hrunning i hi => ?_
      rcases Nat.lt_succ_iff_lt_or_eq.mp hi with hi | hi
      · exact hpassed hrunning i hi
      · obtain rfl : i = ⟨k, hk⟩ := Fin.ext hi
        have hfinished : (s.workers ⟨k, hk⟩).accepted = (s.workers ⟨k, hk⟩).finished := by
          have hstopping : (s.workers ⟨k, hk⟩).stopping = false :=
            Bool.eq_false_iff.mpr fun hstop => hw.stopping hstop hrunning
          unfold drained at hdrained
          rw [hstopping, Bool.or_false, Bool.and_eq_true, List.isEmpty_iff,
            Bool.not_eq_true'] at hdrained
          have hnone : (s.workers ⟨k, hk⟩).inFlight = [] := by
            have hbusy := hw.busy
            rw [hdrained.2] at hbusy
            unfold LoopWorker.holds at hbusy
            unfold LoopWorker.inFlight
            split
            · rename_i htaken
              rw [htaken] at hbusy
              cases hbusy
            · rfl
          rw [hw.lines, hnone, hdrained.1, List.append_nil, List.append_nil]
        exact hfinished ▸ h.before f ⟨k, hk⟩
    case isFalse hdrained =>
      unfold drained at hdrained
      rw [Bool.or_eq_true, not_or, Bool.and_eq_true, not_and, List.isEmpty_iff,
        Bool.not_eq_true'] at hdrained
      refine h.setCall f (fun i hb => ?_) (h.before f) fun hrunning i hi => hpassed hrunning i hi
      obtain rfl : i = ⟨k, hk⟩ := Fin.ext (FlushPhase.blocked.inj hb).symm
      refine ⟨?_, fun hstop => absurd hstop hdrained.2⟩
      by_cases hqueue : (s.workers ⟨k, hk⟩).queue = []
      · exact .inr (.inl (by simpa using hdrained.1 hqueue))
      · exact .inl hqueue

/-- `stopping` is set, and the notification will follow. -/
theorem setStopping (h : Sound s) {k : Nat} (hk : k < n) (hstop : s.stop = .setting k) :
    Sound { s.setWorker ⟨k, hk⟩ { s.workers ⟨k, hk⟩ with stopping := true } with
      stop := .notifying k } := by
  have hquiet : ∀ i : Fin n, s.stop ≠ .notifying i := by
    intro i hi
    cases hstop.symm.trans hi
  have hset := h.withStop (StopThread.noConfusion : StopThread.notifying k ≠ .running) hquiet
  have hw := hset.workers ⟨k, hk⟩
  exact hset.setWorker ⟨k, hk⟩ ⟨fun hb => ⟨(hw.blocked hb).1, fun _ => rfl⟩, hw.busy, hw.lines,
    fun _ => StopThread.noConfusion⟩ (List.prefix_refl _) (List.prefix_refl _)
    fun f hf => ⟨(hset.waiting f ⟨k, hk⟩ hf).1, fun _ => rfl⟩

theorem notifyStop (h : Sound s) {k : Nat} (hk : k < n) (hstop : s.stop = .notifying k) :
    Sound { s.notifyAll ⟨k, hk⟩ with stop := .setting (k + 1) } := by
  have hother : ∀ j : Fin n, j ≠ ⟨k, hk⟩ → s.stop ≠ .notifying j := by
    intro j hj hnotifying
    exact hj (Fin.ext (StopThread.notifying.inj (hnotifying.symm.trans hstop)))
  have hw := (h.workers ⟨k, hk⟩).wakeWorker
  refine Sound.notifyAll ⟨k, hk⟩ ⟨fun hb => ?_, hw.busy, hw.lines, fun _ => StopThread.noConfusion⟩
    (fun j hj => ⟨fun hb => ⟨((h.workers j).blocked hb).1, fun hset => ?_⟩, (h.workers j).busy,
      (h.workers j).lines, fun _ => StopThread.noConfusion⟩)
    (fun f j hj hf => ⟨(h.waiting f j hf).1, fun hset => ?_⟩) h.before fun hrunning => ?_
  · unfold wakeWorker at hb
    split at hb
    case isTrue => cases hb
    case isFalse hawake => exact absurd hb hawake
  · exact absurd (((h.workers j).blocked hb).2 hset) (hother j hj)
  · exact absurd ((h.waiting f j hf).2 hset) (hother j hj)
  · cases hrunning

end Sound

/-- The step lemma. -/
theorem step_sound (hash : Bytes → Nat) [NeZero n] (h : Sound s) {action : Action n m}
    (hstep : step hash s action = some t) : Sound t := by
  cases action with
  | processRaw job woken => exact h.processRaw hstep
  | enter i => exact h.enter hstep
  | process i =>
      unfold step at hstep
      dsimp only at hstep
      split at hstep
      case h_1 job hphase => exact Option.some.inj hstep ▸ h.process hphase
      case h_2 => cases hstep
  | clearBusy i =>
      unfold step at hstep
      dsimp only at hstep
      split at hstep
      case isTrue hphase => exact Option.some.inj hstep ▸ h.clearBusy hphase
      case isFalse => cases hstep
  | notify i =>
      unfold step at hstep
      dsimp only at hstep
      split at hstep
      case isTrue hphase => exact Option.some.inj hstep ▸ h.notify hphase
      case isFalse => cases hstep
  | wakeUp i w =>
      unfold step at hstep
      dsimp only at hstep
      split at hstep
      case isTrue hwaits => exact Option.some.inj hstep ▸ h.wake hwaits
      case isFalse => cases hstep
  | flush f =>
      unfold step at hstep
      dsimp only at hstep
      split at hstep
      case isTrue => exact Option.some.inj hstep ▸ h.flush f
      case isFalse => cases hstep
  | check f => exact h.check hstep
  | stopWorkers =>
      unfold step at hstep
      dsimp only at hstep
      split at hstep
      case isTrue hrunning =>
        refine Option.some.inj hstep ▸ h.withStop StopThread.noConfusion fun i hi => ?_
        cases hrunning.symm.trans hi
      case isFalse => cases hstep
  | setStopping =>
      unfold step at hstep
      dsimp only at hstep
      split at hstep
      case h_2 => cases hstep
      case h_1 k hstop =>
        split at hstep
        case isTrue hk => exact Option.some.inj hstep ▸ h.setStopping hk hstop
        case isFalse =>
          refine Option.some.inj hstep ▸ h.withStop StopThread.noConfusion fun i hi => ?_
          cases hstop.symm.trans hi
  | notifyStop =>
      unfold step at hstep
      dsimp only at hstep
      split at hstep
      case h_2 => cases hstep
      case h_1 k hstop =>
        split at hstep
        case isTrue hk => exact Option.some.inj hstep ▸ h.notifyStop hk hstop
        case isFalse => cases hstep
  | join =>
      unfold step at hstep
      dsimp only at hstep
      split at hstep
      case h_2 => cases hstep
      case h_1 k hstop =>
        have hquiet : ∀ i : Fin n, s.stop ≠ .notifying i := by
          intro i hi
          cases hstop.symm.trans hi
        split at hstep
        case isTrue hk =>
          split at hstep
          case isTrue => exact Option.some.inj hstep ▸ h.withStop StopThread.noConfusion hquiet
          case isFalse => cases hstep
        case isFalse => exact Option.some.inj hstep ▸ h.withStop StopThread.noConfusion hquiet

/-- In every interleaving of producers, workers, calls of `flush` and the stopping
thread: a worker with something to do does not sleep unless a notification is on its way,
nor does a caller of `flush` whose predicate holds, and behind a `flush` every line that
was accepted before it is finished, unless the workers are being stopped. -/
theorem run_flush (hash : Bytes → Nat) [NeZero n] (queueCapacity : Nat)
    (actions : List (Action n m)) {s : Barrier n m}
    (hrun : Transition.run (step hash) (startWorkers n m queueCapacity) actions = some s) :
    (∀ i, (s.workers i).phase = .blocked →
        (s.workers i).queue ≠ [] ∨ (s.workers i).stopping = true → s.AboutToNotify i) ∧
      (∀ f (i : Fin n), (s.calls f).phase = .blocked i → drained (s.workers i) = true →
        s.AboutToNotify i) ∧
      ∀ f, (s.calls f).phase = .returned → s.stop = .running →
        ∀ i, (s.calls f).before i <+: (s.workers i).finished := by
  have h : Sound s := Transition.run_invariant (fun _ _ _ hs hstep => step_sound hash hs hstep)
    (startWorkers_sound queueCapacity) hrun
  refine ⟨fun i hblocked hor => ?_, fun f i hblocked hdrained => ?_,
    fun f hreturned hrunning i => ?_⟩
  · obtain ⟨hqueue, hstop⟩ := (h.workers i).blocked hblocked
    exact .inr (hstop (hor.resolve_left fun hne => hne hqueue))
  · obtain ⟨hpending, hstop⟩ := h.waiting f i hblocked
    unfold drained at hdrained
    rw [Bool.or_eq_true, Bool.and_eq_true, List.isEmpty_iff, Bool.not_eq_true'] at hdrained
    rcases hdrained with ⟨hqueue, hbusy⟩ | hstopping
    · rcases hpending with hne | htrue | hnotifying
      · exact absurd hqueue hne
      · exact absurd (hbusy.symm.trans htrue) Bool.false_ne_true
      · exact .inl hnotifying
    · exact .inr (hstop hstopping)
  · refine h.passed hrunning f i ?_
    rw [hreturned]
    trivial

/-- A call of `flush` that sleeps while the worker has a line. -/
def oneFlush : List (Action 1 1) :=
  [.enter 0, .processRaw (ascii "app.log", ascii "a") (some .worker), .flush 0, .enter 0, .check 0,
    .process 0, .clearBusy 0, .notify 0, .enter 0, .check 0, .check 0]

theorem run_flush_one : ∃ s : Barrier 1 1,
    Transition.run (step fun _ => 0) (startWorkers 1 1 8) oneFlush = some s ∧
      (s.calls 0).phase = .returned ∧
      (s.calls 0).before 0 = [(ascii "app.log", ascii "a")] ∧
      (s.calls 0).before 0 <+: (s.workers 0).finished := by
  obtain ⟨s, hrun, hreturned, hrunning, hbefore⟩ : ∃ s : Barrier 1 1,
      Transition.run (step fun _ => 0) (startWorkers 1 1 8) oneFlush = some s ∧
        (s.calls 0).phase = .returned ∧ s.stop = .running ∧
        (s.calls 0).before 0 = [(ascii "app.log", ascii "a")] := ⟨_, rfl, rfl, rfl, rfl⟩
  have hall := run_flush (fun _ => 0) 8 oneFlush hrun
  exact ⟨s, hrun, hreturned, hbefore, hall.2.2 0 hreturned hrunning 0⟩

end Barrier

end LogMind
