import LogMind.Core.Bytes
import LogMind.Library.Keyed
import LogMind.Library.Transition

/-!
# The sharded queues of the pipeline

In asynchronous mode `process_raw` puts a line into the bounded queue of the
worker its source hashes to, and each worker takes the lines of its own queue one
by one. Every critical section under a worker's mutex is one step, and so is each
call of `process_raw_now`, which runs outside the mutex; the steps of producers,
workers and the stopping thread interleave in any order. `accepted`, `reached`
and `finished` record the lines enqueued, those `process_raw_now` was called on
and those whose worker is no longer busy with them.
-/

namespace LogMind

/-- A source and one of its lines. -/
abbrev Job := Bytes × Bytes

/-- Where the thread of a worker stands in `worker_loop`. -/
inductive WorkerPhase where
  | waiting
  | taken (job : Job)
  | called (job : Job)
  | returned
  deriving DecidableEq

structure Worker where
  queue : List Job := []
  stopping : Bool := false
  busy : Bool := false
  phase : WorkerPhase := .waiting

/-- Where the thread that calls `stop_workers` stands. -/
inductive StopPhase where
  | running
  | signalling (next : Nat)
  | joining (next : Nat)
  | stopped
  deriving DecidableEq

structure Shards (n : Nat) where
  workers : Fin n → Worker := fun _ => {}
  queueCapacity : Nat
  totalDropped : Nat := 0
  stop : StopPhase := .running
  accepted : List Job := []
  reached : List Job := []
  finished : List Job := []

namespace Shards

variable {n : Nat}

/-- `start_workers(n, cap)` on a pipeline that is not yet asynchronous. -/
def startWorkers (n queueCapacity : Nat) : Shards n :=
  { queueCapacity := if queueCapacity = 0 then 1 else queueCapacity }

inductive Action (n : Nat) where
  | processRaw (job : Job)
  | take (i : Fin n)
  | call (i : Fin n)
  | finish (i : Fin n)
  | leave (i : Fin n)
  | stopWorkers
  | signal
  | join

/-- `std::hash<std::string>{}(source) % m_workers.size()`. -/
def shardOf (hash : Bytes → Nat) (n : Nat) [NeZero n] (source : Bytes) : Fin n :=
  Fin.ofNat n (hash source)

def setWorker (s : Shards n) (i : Fin n) (w : Worker) : Shards n :=
  { s with workers := Function.update s.workers i w }

/-- The critical section of `process_raw`. The producers have been stopped when
`stop_workers` is called, so it is only entered before. -/
def processRaw (s : Shards n) (i : Fin n) (job : Job) : Shards n :=
  let w := s.workers i
  if s.queueCapacity ≤ w.queue.length then { s with totalDropped := s.totalDropped + 1 }
  else { s.setWorker i { w with queue := w.queue ++ [job] } with accepted := s.accepted ++ [job] }

def step (hash : Bytes → Nat) [NeZero n] (s : Shards n) : Action n → Option (Shards n)
  | .processRaw job =>
      if s.stop = .running then some (s.processRaw (shardOf hash n job.1) job) else none
  | .take i =>
      match (s.workers i).phase, (s.workers i).queue with
      | .waiting, job :: queue =>
          some (s.setWorker i
            { s.workers i with queue := queue, busy := true, phase := .taken job })
      | _, _ => none
  | .call i =>
      match (s.workers i).phase with
      | .taken job =>
          some { s.setWorker i { s.workers i with phase := .called job } with
            reached := s.reached ++ [job] }
      | _ => none
  | .finish i =>
      match (s.workers i).phase with
      | .called job =>
          some { s.setWorker i { s.workers i with busy := false, phase := .waiting } with
            finished := s.finished ++ [job] }
      | _ => none
  | .leave i =>
      match (s.workers i).phase, (s.workers i).queue with
      | .waiting, [] =>
          if (s.workers i).stopping then
            some (s.setWorker i { s.workers i with phase := .returned })
          else none
      | _, _ => none
  | .stopWorkers => if s.stop = .running then some { s with stop := .signalling 0 } else none
  | .signal =>
      match s.stop with
      | .signalling k =>
          if h : k < n then
            some { s.setWorker ⟨k, h⟩ { s.workers ⟨k, h⟩ with stopping := true } with
              stop := .signalling (k + 1) }
          else some { s with stop := .joining 0 }
      | _ => none
  | .join =>
      match s.stop with
      | .joining k =>
          if h : k < n then
            if (s.workers ⟨k, h⟩).phase = .returned then some { s with stop := .joining (k + 1) }
            else none
          else some { s with stop := .stopped }
      | _ => none

end Shards

end LogMind
