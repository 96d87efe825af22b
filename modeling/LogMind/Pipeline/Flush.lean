import LogMind.Pipeline.Workers

/-!
# Waiting for the queues

A worker and the callers of `flush` wait on one condition variable, each for its own
predicate. Every section under the mutex of a worker is one step: a thread that finds its
predicate false there goes to sleep in the same step, and a thread that is woken tests
its predicate again in a step of its own. `notify_one` wakes any one of the sleeping
threads, and a thread may also wake by itself.
-/

namespace LogMind

inductive LoopPhase where
  /-- About to test its predicate. -/
  | ready
  | blocked
  | taken (job : Job)
  | processed
  /-- About to notify all behind `busy = false`. -/
  | notifying
  | returned
  deriving DecidableEq

structure LoopWorker where
  queue : List Job := []
  stopping : Bool := false
  busy : Bool := false
  phase : LoopPhase := .ready
  accepted : List Job := []
  /-- The lines that `process_raw_now` has returned from. -/
  finished : List Job := []

inductive FlushPhase where
  | idle
  | ready (k : Nat)
  | blocked (k : Nat)
  | returned
  deriving DecidableEq

structure FlushCall (n : Nat) where
  phase : FlushPhase := .idle
  /-- The lines that were accepted when the call began. -/
  before : Fin n → List Job := fun _ => []

inductive StopThread where
  | running
  | setting (k : Nat)
  | notifying (k : Nat)
  | joining (k : Nat)
  | stopped
  deriving DecidableEq

/-- `n` workers, the thread that stops them, and `m` calls of `flush`. -/
structure Barrier (n m : Nat) where
  workers : Fin n → LoopWorker := fun _ => {}
  queueCapacity : Nat
  stop : StopThread := .running
  calls : Fin m → FlushCall n := fun _ => {}

inductive Waiter (m : Nat) where
  | worker
  | call (f : Fin m)

namespace Barrier

variable {n m : Nat}

/-- `start_workers(n, cap)` on a pipeline that is not yet asynchronous. -/
def startWorkers (n m queueCapacity : Nat) : Barrier n m :=
  { queueCapacity := if queueCapacity = 0 then 1 else queueCapacity }

def setWorker (s : Barrier n m) (i : Fin n) (w : LoopWorker) : Barrier n m :=
  { s with workers := Function.update s.workers i w }

def setCall (s : Barrier n m) (f : Fin m) (c : FlushCall n) : Barrier n m :=
  { s with calls := Function.update s.calls f c }

def Waits (s : Barrier n m) (i : Fin n) : Waiter m → Prop
  | .worker => (s.workers i).phase = .blocked
  | .call f => (s.calls f).phase = .blocked i

instance (s : Barrier n m) (i : Fin n) : (w : Waiter m) → Decidable (s.Waits i w)
  | .worker => inferInstanceAs (Decidable (_ = _))
  | .call _ => inferInstanceAs (Decidable (_ = _))

def wake (s : Barrier n m) (i : Fin n) : Waiter m → Barrier n m
  | .worker => s.setWorker i { s.workers i with phase := .ready }
  | .call f => s.setCall f { s.calls f with phase := .ready i }

/-- `notify_one` wakes one of the threads that sleep, if there is one. -/
def notifyOne (s : Barrier n m) (i : Fin n) : Option (Waiter m) → Option (Barrier n m)
  | some w => if s.Waits i w then some (s.wake i w) else none
  | none => if ¬ s.Waits i .worker ∧ ∀ f, ¬ s.Waits i (.call f) then some s else none

def wakeCall (i : Fin n) (c : FlushCall n) : FlushCall n :=
  if c.phase = .blocked i then { c with phase := .ready i } else c

def wakeWorker (w : LoopWorker) : LoopWorker :=
  if w.phase = .blocked then { w with phase := .ready } else w

def notifyAll (s : Barrier n m) (i : Fin n) : Barrier n m :=
  { s.setWorker i (wakeWorker (s.workers i)) with calls := fun f => wakeCall i (s.calls f) }

/-- The predicate of `flush` for a worker. -/
def drained (w : LoopWorker) : Bool := (w.queue.isEmpty && !w.busy) || w.stopping

inductive Action (n m : Nat) where
  /-- `process_raw`, with the thread that its notification wakes. -/
  | processRaw (job : Job) (woken : Option (Waiter m))
  | enter (i : Fin n)
  | process (i : Fin n)
  | clearBusy (i : Fin n)
  | notify (i : Fin n)
  | wakeUp (i : Fin n) (w : Waiter m)
  | flush (f : Fin m)
  | check (f : Fin m)
  | stopWorkers
  | setStopping
  | notifyStop
  | join

/-- The critical section of `process_raw`. -/
def processRaw (s : Barrier n m) (i : Fin n) (job : Job) (woken : Option (Waiter m)) :
    Option (Barrier n m) :=
  if s.queueCapacity ≤ (s.workers i).queue.length then some s
  else (s.setWorker i { s.workers i with
    queue := (s.workers i).queue ++ [job]
    accepted := (s.workers i).accepted ++ [job] }).notifyOne i woken

/-- The first critical section of `worker_loop`. -/
def enter (s : Barrier n m) (i : Fin n) : Option (Barrier n m) :=
  match (s.workers i).phase, (s.workers i).queue with
  | .ready, job :: queue =>
      some (s.setWorker i { s.workers i with queue := queue, busy := true, phase := .taken job })
  | .ready, [] =>
      some (s.setWorker i { s.workers i with
        phase := if (s.workers i).stopping then .returned else .blocked })
  | _, _ => none

/-- The critical section of `flush` for one worker. -/
def check (s : Barrier n m) (f : Fin m) : Option (Barrier n m) :=
  match (s.calls f).phase with
  | .ready k =>
      if h : k < n then
        some (s.setCall f { s.calls f with
          phase := if drained (s.workers ⟨k, h⟩) then .ready (k + 1) else .blocked k })
      else some (s.setCall f { s.calls f with phase := .returned })
  | _ => none

def step (hash : Bytes → Nat) [NeZero n] (s : Barrier n m) : Action n m → Option (Barrier n m)
  | .processRaw job woken => s.processRaw (Shards.shardOf hash n job.1) job woken
  | .enter i => s.enter i
  | .process i =>
      match (s.workers i).phase with
      | .taken job => some (s.setWorker i { s.workers i with
          phase := .processed
          finished := (s.workers i).finished ++ [job] })
      | _ => none
  | .clearBusy i =>
      if (s.workers i).phase = .processed then
        some (s.setWorker i { s.workers i with busy := false, phase := .notifying })
      else none
  | .notify i =>
      if (s.workers i).phase = .notifying then
        some ((s.setWorker i { s.workers i with phase := .ready }).notifyAll i)
      else none
  | .wakeUp i w => if s.Waits i w then some (s.wake i w) else none
  | .flush f =>
      if (s.calls f).phase = .idle then
        some (s.setCall f { phase := .ready 0, before := fun i => (s.workers i).accepted })
      else none
  | .check f => s.check f
  | .stopWorkers => if s.stop = .running then some { s with stop := .setting 0 } else none
  | .setStopping =>
      match s.stop with
      | .setting k =>
          if h : k < n then
            some { s.setWorker ⟨k, h⟩ { s.workers ⟨k, h⟩ with stopping := true } with
              stop := .notifying k }
          else some { s with stop := .joining 0 }
      | _ => none
  | .notifyStop =>
      match s.stop with
      | .notifying k =>
          if h : k < n then some { s.notifyAll ⟨k, h⟩ with stop := .setting (k + 1) } else none
      | _ => none
  | .join =>
      match s.stop with
      | .joining k =>
          if h : k < n then
            if (s.workers ⟨k, h⟩).phase = .returned then some { s with stop := .joining (k + 1) }
            else none
          else some { s with stop := .stopped }
      | _ => none

end Barrier

end LogMind
