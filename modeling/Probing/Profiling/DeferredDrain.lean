import Mathlib.Data.Int.Basic
import Mathlib.Data.List.Basic

/-!
# Deferred persistence

A worker is a bounded queue and a thread that saves what it takes from it; `None` in the queue
tells the thread to end. Calls and threads move one access at a time, where the body of a
critical section is one access, and so is an operation of the queue. No timeout expires. After a
fork the run goes on as the child.
-/

namespace Probing.Profiling.DeferredDrain

def defaultQueueSize : ℕ := 4096

/-- The queue size, from the number in the environment if there is one. -/
def queueMaxsize : Option ℤ → ℕ
  | none => defaultQueueSize
  | some size => (max 1 size).toNat

/-- The worker thread: before its start, waiting for a task, with a task, with a task that it has
dealt with, and past its end. -/
inductive Thread (R : Type) where
  | absent
  | get
  | process (task : Option R)
  | taskDone (last : Bool)
  | ended
  deriving DecidableEq

/-- `_thread is None`. -/
def Thread.isNone {R : Type} : Thread R → Bool
  | .absent => true
  | _ => false

def Thread.isEnded {R : Type} : Thread R → Bool
  | .ended => true
  | _ => false

/-- A `DeferredDrainWorker`; `none` in the queue is the sentinel. No branch reads the last three
fields: the records for which `submit` returned `True`, those that were saved, and whether a
sentinel was put. -/
structure Worker (R : Type) where
  maxsize : ℕ
  queue : List (Option R)
  unfinished : ℕ
  thread : Thread R
  started : Bool
  lock : Bool
  accepted : List R
  saved : List R
  stopped : Bool
  deriving DecidableEq

/-- Where a call is. `worker` is the worker it is about, `before` the number of the records that
the worker had accepted when a `flush` or `shutdown` began, which no branch reads, and `shutting`
tells a `flush` of a `shutdown`. -/
inductive Call (R : Type) where
  | idle
  | getLock (size : Option ℤ)
  | getBody (size : Option ℤ)
  | ensureLock (worker : ℕ) (record : R)
  | ensureBody (worker : ℕ) (record : R)
  | putNowait (worker : ℕ) (record : R)
  | flush (worker before : ℕ) (shutting : Bool)
  | join (worker before : ℕ) (shutting : Bool)
  | shutdownLock (worker before : ℕ)
  | shutdownBody (worker before : ℕ)
  | putNone (worker before : ℕ)
  | threadJoin (worker before : ℕ)
  | drainLock
  | drainBody
  deriving DecidableEq

/-- A `flush` or `shutdown` of a worker that returned. -/
structure Flushed where
  worker : ℕ
  before : ℕ
  deriving DecidableEq

/-- The workers that were created, `_worker` and its lock, and the calls. -/
structure State (A R : Type) where
  workers : ℕ → Worker R
  created : ℕ
  worker : Option ℕ
  workerLock : Bool
  calls : A → Call R
  flushed : List Flushed

inductive Action (A R : Type) where
  | getDeferredDrainWorker (a : A) (size : Option ℤ)
  | submit (a : A) (worker : ℕ) (record : R) (enabled : Bool)
  | flush (a : A) (worker : ℕ)
  | shutdown (a : A) (worker : ℕ)
  | shutdownDeferredDrain (a : A)
  | fork (a : A)
  | step (a : A)
  | run (worker : ℕ)
  deriving DecidableEq

namespace Worker

variable {R : Type}

/-- `DeferredDrainWorker(maxsize=...)`. -/
def new (maxsize : ℕ) : Worker R where
  maxsize := maxsize
  queue := []
  unfinished := 0
  thread := .absent
  started := false
  lock := false
  accepted := []
  saved := []
  stopped := false

/-- The body of `_ensure_started`. -/
def ensureStarted (w : Worker R) : Worker R :=
  if w.started then { w with lock := false }
  else { w with thread := .get, started := true, lock := false }

def full (w : Worker R) : Bool := w.maxsize ≤ w.queue.length

/-- `put_nowait` of a record into a queue that is not full. -/
def submit (w : Worker R) (record : R) : Worker R :=
  { w with
    queue := w.queue ++ [some record]
    unfinished := w.unfinished + 1
    accepted := w.accepted ++ [record] }

/-- `put_nowait` of the sentinel into a queue that is not full. -/
def stop (w : Worker R) : Worker R :=
  { w with queue := w.queue ++ [none], unfinished := w.unfinished + 1, stopped := true }

/-- One access of `_run`. -/
def run (w : Worker R) : Option (Worker R) :=
  match w.thread, w.queue with
  | .get, task :: queue => some { w with thread := .process task, queue := queue }
  | .process (some record), _ =>
      some { w with thread := .taskDone false, saved := w.saved ++ [record] }
  | .process none, _ => some { w with thread := .taskDone true }
  | .taskDone last, _ =>
      some { w with
        thread := if last then .ended else .get
        unfinished := w.unfinished - 1 }
  | _, _ => none

/-- The worker in the child of a fork. -/
def fork (w : Worker R) : Worker R :=
  { w with thread := if w.thread.isNone then .absent else .ended }

end Worker

namespace State

variable {A R : Type} [DecidableEq A]

def new : State A R where
  workers := fun _ => .new 0
  created := 0
  worker := none
  workerLock := false
  calls := fun _ => .idle
  flushed := []

def goto (s : State A R) (a : A) (c : Call R) : State A R :=
  { s with calls := Function.update s.calls a c }

def idle (s : State A R) (a : A) : Bool := s.calls a matches .idle

def set (s : State A R) (worker : ℕ) (w : Worker R) : State A R :=
  { s with workers := Function.update s.workers worker w }

/-- `flush` or `shutdown` returns. -/
def returns (s : State A R) (a : A) (worker before : ℕ) : State A R :=
  { s.goto a .idle with flushed := s.flushed ++ [⟨worker, before⟩] }

/-- The rest of `shutdown` after its `flush`, or the end of a `flush`. -/
def flushes (s : State A R) (a : A) (worker before : ℕ) (shutting : Bool) : State A R :=
  if shutting then s.goto a (.putNone worker before) else s.returns a worker before

/-- One access of a call. -/
def advance (s : State A R) (a : A) : Call R → Option (State A R)
  | .getLock size =>
      if s.workerLock then none else some { s.goto a (.getBody size) with workerLock := true }
  | .getBody size =>
      if s.worker = none then
        some { (s.set s.created (.new (queueMaxsize size))).goto a .idle with
          created := s.created + 1
          worker := some s.created
          workerLock := false }
      else some { s.goto a .idle with workerLock := false }
  | .ensureLock worker record =>
      if (s.workers worker).lock then none
      else some ((s.set worker { s.workers worker with lock := true }).goto a
        (.ensureBody worker record))
  | .ensureBody worker record =>
      some ((s.set worker (s.workers worker).ensureStarted).goto a (.putNowait worker record))
  | .putNowait worker record =>
      if (s.workers worker).full then some (s.goto a .idle)
      else some ((s.set worker ((s.workers worker).submit record)).goto a .idle)
  | .flush worker before shutting =>
      if (s.workers worker).started then some (s.goto a (.join worker before shutting))
      else some (s.flushes a worker before shutting)
  | .join worker before shutting =>
      if (s.workers worker).unfinished = 0 then some (s.flushes a worker before shutting) else none
  | .shutdownLock worker before =>
      if (s.workers worker).lock then none
      else some ((s.set worker { s.workers worker with lock := true }).goto a
        (.shutdownBody worker before))
  | .shutdownBody worker before =>
      let s' := s.set worker { s.workers worker with lock := false }
      if (s.workers worker).started = false ∨ (s.workers worker).thread.isNone then
        some (s'.returns a worker before)
      else some (s'.goto a (.flush worker before true))
  | .putNone worker before =>
      if (s.workers worker).full then some (s.goto a (.threadJoin worker before))
      else some ((s.set worker (s.workers worker).stop).goto a (.threadJoin worker before))
  | .threadJoin worker before =>
      if (s.workers worker).thread.isEnded then some (s.returns a worker before) else none
  | .drainLock =>
      if s.workerLock then none else some { s.goto a .drainBody with workerLock := true }
  | .drainBody =>
      match s.worker with
      | some worker =>
          some { s.goto a (.shutdownLock worker (s.workers worker).accepted.length) with
            worker := none
            workerLock := false }
      | none => some { s.goto a .idle with workerLock := false }
  | .idle => none

/-- A call starts, or something goes on; `none` where it has to wait. -/
def step (s : State A R) : Action A R → Option (State A R)
  | .getDeferredDrainWorker a size =>
      if s.idle a then some (s.goto a (.getLock size)) else none
  | .submit a worker record enabled =>
      if s.idle a ∧ worker < s.created then
        some (if enabled then s.goto a (.ensureLock worker record) else s)
      else none
  | .flush a worker =>
      if s.idle a ∧ worker < s.created then
        some (s.goto a (.flush worker (s.workers worker).accepted.length false))
      else none
  | .shutdown a worker =>
      if s.idle a ∧ worker < s.created then
        some (s.goto a (.shutdownLock worker (s.workers worker).accepted.length))
      else none
  | .shutdownDeferredDrain a => if s.idle a then some (s.goto a .drainLock) else none
  | .fork a =>
      if s.idle a then
        some { s with workers := fun worker => (s.workers worker).fork, calls := fun _ => .idle }
      else none
  | .step a => s.advance a (s.calls a)
  | .run worker => (s.workers worker).run.map (s.set worker)

end State

end Probing.Profiling.DeferredDrain
