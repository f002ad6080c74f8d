import Mathlib.Data.Int.Basic
import Mathlib.Data.List.Basic

/-!
# Collectors

The CPU and the GPU collector: one flag that `start` takes, `stop` clears and every thread clears
at its end, and a join handle behind a lock of its own. The two differ in what a `start` does
that cannot open its table.
-/

namespace Probing.Collector

inductive Collector where
  | cpu
  | gpu
  deriving DecidableEq

/-- A collector thread: before the load of `running`, in the body of its loop, past the loop, and
past its last store. -/
inductive Thread where
  | check (iterations : Option ℤ)
  | sample (iterations : Option ℤ)
  | exit
  | ended
  deriving DecidableEq

/-- Where a call is. `before` is the number of threads that were there when the `stop` began,
which no branch reads. -/
inductive Pc where
  | idle
  | sharedTable (iterations : Option ℤ)
  | fail
  | spawn (iterations : Option ℤ)
  | store (thread : ℕ)
  | take (before : ℕ)
  | join (before thread : ℕ)
  deriving DecidableEq

/-- What a `start` that failed had found in `running`, and what it left there. -/
structure Failed where
  found : Bool
  left : Bool
  deriving DecidableEq

/-- `handle` names a thread, and `locked` is the lock that `stop` keeps while it joins. The last
two fields record the errors of `start`, and how many of the threads some `stop` that returned
`Ok` had found. -/
structure State (A : Type) where
  running : Bool
  handle : Option ℕ
  locked : Bool
  opened : Bool
  threads : List Thread
  pc : A → Pc
  errors : List Failed
  stopped : ℕ

inductive Action (A : Type) where
  | start (a : A) (backends : Bool) (iterations : Option ℤ)
  | stop (a : A)
  | sharedTable (a : A) (ok : Bool)
  | step (a : A)
  | thread (i : ℕ)
  | panic (i : ℕ)
  deriving DecidableEq

namespace State

variable {A : Type} [DecidableEq A]

def new : State A where
  running := false
  handle := none
  locked := false
  opened := false
  threads := []
  pc := fun _ => .idle
  errors := []
  stopped := 0

def goto (s : State A) (a : A) (p : Pc) : State A :=
  { s with pc := Function.update s.pc a p }

/-- `start` returns an error. -/
def fails (s : State A) (a : A) (found : Bool) : State A :=
  { s.goto a .idle with errors := s.errors ++ [⟨found, s.running⟩] }

/-- `stop` returns `Ok`. -/
def stops (s : State A) (a : A) (before : ℕ) : State A :=
  { s.goto a .idle with stopped := max s.stopped before }

/-- The head of the loop: the flag, and then the iterations that are left. -/
def enters (running : Bool) : Option ℤ → Thread
  | none => if running then .sample none else .exit
  | some iterations =>
      if running ∧ 0 < iterations then .sample (some (iterations - 1)) else .exit

/-- One access of a call, or one step of a thread; `none` where it has to wait. -/
def step (c : Collector) (s : State A) : Action A → Option (State A)
  | .start a backends iterations =>
      if s.pc a ≠ .idle then none
      else if c = .gpu ∧ backends = false then some (s.fails a s.running)
      else if s.running then some ({ s with running := true }.fails a s.running)
      else some { s.goto a (.sharedTable iterations) with running := true }
  | .stop a =>
      if s.pc a ≠ .idle then none
      else if s.running then some { s.goto a (.take s.threads.length) with running := false }
      else some (s.stops a s.threads.length)
  | .sharedTable a ok =>
      match s.pc a with
      | .sharedTable iterations =>
          if s.opened ∨ ok then some { s.goto a (.spawn iterations) with opened := true }
          else match c with
            | .cpu => some (s.goto a .fail)
            | .gpu => some (s.fails a false)
      | _ => none
  | .step a =>
      match s.pc a with
      | .fail => some ({ s with running := false }.fails a false)
      | .spawn iterations =>
          some { s.goto a (.store s.threads.length) with
            threads := s.threads ++ [.check iterations] }
      | .store thread =>
          if s.locked then none else some { s.goto a .idle with handle := some thread }
      | .take before =>
          if s.locked then none
          else match s.handle with
            | some thread =>
                some { s.goto a (.join before thread) with handle := none, locked := true }
            | none => some (s.stops a before)
      | .join before thread =>
          if s.threads[thread]? = some .ended then some { s.stops a before with locked := false }
          else none
      | _ => none
  | .thread i =>
      match s.threads[i]? with
      | some (.check iterations) =>
          some { s with threads := s.threads.set i (enters s.running iterations) }
      | some (.sample iterations) =>
          some { s with threads := s.threads.set i (.check iterations) }
      | some .exit => some { s with threads := s.threads.set i .ended, running := false }
      | _ => none
  | .panic i =>
      match s.threads[i]? with
      | some (.check _) | some (.sample _) =>
          some { s with threads := s.threads.set i .exit }
      | _ => none

end State

end Probing.Collector
