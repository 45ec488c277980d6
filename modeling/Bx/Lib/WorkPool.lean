import Bx.Kit.CondVar
import Bx.Kit.RingBuffer
import Bx.Kit.Transition

/-!
# The work pool

Producers submit jobs to a bounded ring and workers take them out again (`src/lib/work_pool.c`). Each critical section
is one step. A producer that a signal has picked is told apart from one that sleeps on. The pool is reclaimed when the
workers are joined and no producer is in a call.
-/

namespace Bx.WorkPool

open Bx.Kit

structure Opts where
  threadCount : Nat
  queueCapacity : Nat
  /-- Whether there is a `cancel` state, a `worker_init` and a `dispose_job`. -/
  cancel : Bool
  workerInit : Bool
  disposeJob : Bool
  threadCount_pos : 0 < threadCount
  queueCapacity_pos : 0 < queueCapacity

inductive Producer (Job : Type*)
  | idle
  | calling (job : Job)
  | asleep (job : Job)
  /-- Picked by a signal on `can_push`, and not running yet. -/
  | woken (job : Job)
  deriving DecidableEq

inductive Worker (Job : Type*)
  | starting
  | ready
  | asleep
  | processing (job : Job)
  | exited
  deriving DecidableEq

structure State (Job : Type*) where
  ring : RingBuffer Job
  closed : Bool
  failed : Bool
  requested : Bool
  producers : List (Producer Job)
  workers : List (Worker Job)
  reclaimed : Bool
  /-- The jobs whose submit returned true, and those whose submit returned false. -/
  accepted : List Job
  rejected : List Job
  taken : List Job
  /-- The calls of `process_job` and `dispose_job` so far. -/
  processed : List Job
  disposed : List Job

variable {Job : Type*}

/-! ## Under the lock -/

variable (opts : Opts)

variable (s : State Job)

def cancelled : Bool := opts.cancel && s.requested

/-- The producer goes to sleep in the loop of `bx_work_pool_submit`. -/
def mustWait : Bool :=
  !s.closed && !s.failed && s.ring.count = opts.queueCapacity && !cancelled opts s

def refuses : Bool := s.closed || s.failed || cancelled opts s

def Producer.running : Producer Job → Option Job
  | .calling job => some job
  | .woken job => some job
  | _ => none

def Producer.isAsleep : Producer Job → Bool
  | .asleep _ => true
  | _ => false

def Producer.isWoken : Producer Job → Bool
  | .woken _ => true
  | _ => false

def Producer.wake : Producer Job → Producer Job
  | .asleep job => .woken job
  | producer => producer

def Worker.isAsleep : Worker Job → Bool
  | .asleep => true
  | _ => false

def Worker.wake : Worker Job → Worker Job
  | .asleep => .ready
  | worker => worker

def canPush (Job : Type*) : CondVar (Producer Job) := ⟨Producer.isAsleep, Producer.wake⟩

def canPop (Job : Type*) : CondVar (Worker Job) := ⟨Worker.isAsleep, Worker.wake⟩

def State.broadcast : State Job :=
  { s with producers := (canPush Job).broadcast s.producers, workers := (canPop Job).broadcast s.workers }

/-! ## Threads -/

inductive Action (Job : Type*)
  | submit (producer : Nat) (job : Job)
  | lock (producer : Nat)
  | close
  | wake
  | cancel
  | workerInit (worker : Nat) (ok : Bool)
  | pop (worker : Nat)
  | park (worker : Nat)
  | exit (worker : Nat)
  | process (worker : Nat)
  | reclaim
  | wakeProducer (producer : Nat)
  | wakeWorker (worker : Nat)

def Action.isWorker : Action Job → Bool
  | .workerInit _ _ | .pop _ | .park _ | .exit _ | .process _ => true
  | _ => false

def Action.isSpurious : Action Job → Bool
  | .wakeProducer _ | .wakeWorker _ => true
  | _ => false

def State.afterPush (i : Nat) (job : Job) (workers : List (Worker Job)) : State Job :=
  { s with
    ring := s.ring.push job
    producers := s.producers.set i .idle
    workers
    accepted := s.accepted ++ [job] }

def State.afterPop (i : Nat) (job : Job) (producers : List (Producer Job)) : State Job :=
  { s with
    ring := s.ring.pop.2
    producers
    workers := s.workers.set i (.processing job)
    taken := s.taken ++ [job] }

/-- The jobs `bx_work_pool_dispose` finds in the slots. -/
def leftovers : List Job := if opts.disposeJob then s.ring.items.filterMap id else []

inductive Step (opts : Opts) : State Job → Action Job → State Job → Prop
  | submit {s : State Job} {i : Nat} {job : Job} : s.reclaimed = false → s.producers[i]? = some .idle →
      Step opts s (.submit i job) { s with producers := s.producers.set i (.calling job) }
  | wait {s : State Job} {i : Nat} {p : Producer Job} {job : Job} : s.producers[i]? = some p → p.running = some job →
      mustWait opts s = true → Step opts s (.lock i) { s with producers := s.producers.set i (.asleep job) }
  | refuse {s : State Job} {i : Nat} {p : Producer Job} {job : Job} : s.producers[i]? = some p → p.running = some job →
      refuses opts s = true →
      Step opts s (.lock i) { s with producers := s.producers.set i .idle, rejected := s.rejected ++ [job] }
  | push {s : State Job} {i : Nat} {p : Producer Job} {job : Job} {workers : List (Worker Job)} :
      s.producers[i]? = some p → p.running = some job → mustWait opts s = false → refuses opts s = false →
      (if s.ring.count + 1 ≤ opts.threadCount then (canPop Job).Signalled s.workers workers
        else workers = s.workers) →
      Step opts s (.lock i) (s.afterPush i job workers)
  | close {s : State Job} : s.reclaimed = false → Step opts s .close { s.broadcast with closed := true }
  | wake {s : State Job} : s.reclaimed = false → Step opts s .wake s.broadcast
  | cancel {s : State Job} : Step opts s .cancel { s with requested := true }
  | initFails {s : State Job} {i : Nat} : s.workers[i]? = some .starting → opts.workerInit = true →
      Step opts s (.workerInit i false)
        { s.broadcast with failed := true, workers := s.broadcast.workers.set i .exited }
  | initOk {s : State Job} {i : Nat} : s.workers[i]? = some .starting →
      Step opts s (.workerInit i true) { s with workers := s.workers.set i .ready }
  | park {s : State Job} {i : Nat} : s.workers[i]? = some .ready → s.ring.count = 0 → s.closed = false →
      Step opts s (.park i) { s with workers := s.workers.set i .asleep }
  | exit {s : State Job} {i : Nat} : s.workers[i]? = some .ready → s.ring.count = 0 → s.closed = true →
      Step opts s (.exit i) { s with workers := s.workers.set i .exited }
  | pop {s : State Job} {i : Nat} {job : Job} {producers : List (Producer Job)} : s.workers[i]? = some .ready →
      s.ring.count ≠ 0 → s.ring.pop.1 = some job →
      (if s.ring.count = opts.queueCapacity then (canPush Job).Signalled s.producers producers
        else producers = s.producers) →
      Step opts s (.pop i) (s.afterPop i job producers)
  | process {s : State Job} {i : Nat} {job : Job} : s.workers[i]? = some (.processing job) →
      Step opts s (.process i) { s with workers := s.workers.set i .ready, processed := s.processed ++ [job] }
  -- `bx_work_pool_dispose` after the join
  | reclaim {s : State Job} : s.reclaimed = false → (∀ w ∈ s.workers, w = .exited) → (∀ p ∈ s.producers, p = .idle) →
      Step opts s .reclaim { s with reclaimed := true, disposed := s.disposed ++ leftovers opts s }
  | wakeProducer {s : State Job} {i : Nat} {job : Job} : s.producers[i]? = some (.asleep job) →
      Step opts s (.wakeProducer i) { s with producers := s.producers.set i (.woken job) }
  | wakeWorker {s : State Job} {i : Nat} : s.workers[i]? = some .asleep →
      Step opts s (.wakeWorker i) { s with workers := s.workers.set i .ready }

def system (Job : Type*) : System (State Job) (Action Job) :=
  { init := fun s => ∃ n, s =
      { ring := .empty opts.queueCapacity
        closed := false
        failed := false
        requested := false
        producers := List.replicate n .idle
        workers := List.replicate opts.threadCount .starting
        reclaimed := false
        accepted := []
        rejected := []
        taken := []
        processed := []
        disposed := [] }
    step := Step opts }

end Bx.WorkPool
