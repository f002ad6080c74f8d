import Mathlib.Data.List.Basic

/-!
# On-demand capture

A call arms the request, sends `SIGUSR2` to its target and waits for the sequence number to
advance; the handler fills the reply slot of its own thread and advances the number. The signal
is masked in its handler, so a thread runs one at a time. Calls and handlers move one access at a
time; a write or a read of a reply slot is one access.
-/

namespace Probing.Stacktrace.Sigusr2

inductive StackSource where
  | Unknown
  | Vm
  | Sigprof
  | Sigusr2
  | SyncWalk
  | MachSuspend
  deriving DecidableEq

/-- The frames of a snapshot. -/
structure Frames where
  native : List UInt64
  py : List UInt64
  deriving DecidableEq

/-- `execution` is the number of the handler execution of that thread that filled the snapshot,
which no branch reads. -/
structure StackSnapshot where
  tid : ℕ
  source : StackSource
  frames : Frames
  execution : ℕ
  deriving DecidableEq

def StackSnapshot.isEmpty (snapshot : StackSnapshot) : Bool :=
  snapshot.frames.native.isEmpty && snapshot.frames.py.isEmpty

def sigusr2SnapshotMatchesTarget (snapshot : StackSnapshot) (target : ℕ) : Bool :=
  target ≠ 0 && !snapshot.isEmpty && snapshot.tid = target

/-- Where a call of `capture_thread_snapshot_signal` is. `ended` is the number of handler
executions of the target that had ended when the request was armed, which no branch reads. -/
inductive Call where
  | idle
  | target (tid : ℕ)
  | arm (tid : ℕ)
  | generation (tid ended : ℕ)
  | kill (tid ended : ℕ) (seq : UInt64)
  | wait (tid ended : ℕ) (seq : UInt64)
  | take (tid ended : ℕ) (seq : UInt64)
  | read (tid ended : ℕ) (seq : UInt64) (target : ℕ)
  | disarm
  | untarget
  | leave
  deriving DecidableEq

/-- Where the handler of a thread is. -/
inductive Handler where
  | none
  | armed
  | target
  | write (target : ℕ)
  | advance
  deriving DecidableEq

/-- A snapshot that a call returned. -/
structure Returned where
  tid : ℕ
  ended : ℕ
  snapshot : StackSnapshot
  deriving DecidableEq

/-- The process-wide words, a reply slot and a pending signal for each thread, the calls of the
control threads and the handlers. `ended` counts the handler executions that have ended. -/
structure State (A : Type) where
  armed : Bool
  busy : Bool
  target : ℕ
  seq : UInt64
  sigusr2Reply : ℕ → Option StackSnapshot
  pending : ℕ → Bool
  calls : A → Call
  handlers : ℕ → Handler
  ended : ℕ → ℕ
  returned : List Returned

/-- The steps. `ok` tells whether the system call succeeds, or the slot is found and read, or the
handler is on the signal stack; `filled` what the fill finds, and `none` when the slot is not
found or its writer or its readers are in the way. -/
inductive Action (A : Type) where
  | captureThreadSnapshotSignal (a : A) (tid : ℕ)
  | step (a : A) (ok : Bool)
  | timeout (a : A)
  | signal (tid : ℕ)
  | deliver (tid : ℕ)
  | handle (tid : ℕ) (ok : Bool) (filled : Option Frames)
  deriving DecidableEq

namespace State

variable {A : Type} [DecidableEq A]

def new : State A where
  armed := false
  busy := false
  target := 0
  seq := 0
  sigusr2Reply := fun _ => none
  pending := fun _ => false
  calls := fun _ => .idle
  handlers := fun _ => .none
  ended := fun _ => 0
  returned := []

def goto (s : State A) (a : A) (c : Call) : State A :=
  { s with calls := Function.update s.calls a c }

def goes (s : State A) (tid : ℕ) (h : Handler) : State A :=
  { s with handlers := Function.update s.handlers tid h }

/-- The handler of a thread returns. -/
def ends (s : State A) (tid : ℕ) : State A :=
  { s.goes tid .none with ended := Function.update s.ended tid (s.ended tid + 1) }

def pends (s : State A) (tid : ℕ) : State A :=
  { s with pending := Function.update s.pending tid true }

/-- What `take_sigusr2_snapshot` and its caller accept. -/
def accepts (tid target : ℕ) (snapshot : StackSnapshot) : Bool :=
  snapshot.source = .Sigusr2 && sigusr2SnapshotMatchesTarget snapshot target &&
    sigusr2SnapshotMatchesTarget snapshot tid

/-- The read of the reply slot, and what is made of it. -/
def reads (s : State A) (a : A) (tid ended : ℕ) (seq : UInt64) :
    Option StackSnapshot → State A
  | some snapshot =>
      { s.goto a .disarm with returned := s.returned ++ [⟨tid, ended, snapshot⟩] }
  | none => s.goto a (.wait tid ended seq)

/-- One access of a call. -/
def advance (s : State A) (a : A) (ok : Bool) : Call → Option (State A)
  | .idle => none
  | .target tid => some { s.goto a (.arm tid) with target := tid }
  | .arm tid => some { s.goto a (.generation tid (s.ended tid)) with armed := true }
  | .generation tid ended => some (s.goto a (.kill tid ended s.seq))
  | .kill tid ended seq =>
      some (if ok then (s.pends tid).goto a (.wait tid ended seq) else s.goto a .disarm)
  | .wait tid ended seq =>
      some (if s.seq ≤ seq then s else s.goto a (.take tid ended seq))
  | .take tid ended seq => some (s.goto a (.read tid ended seq s.target))
  | .read tid ended seq target =>
      some (s.reads a tid ended seq
        (if ok then (s.sigusr2Reply target).filter (accepts tid target) else none))
  | .disarm => some { s.goto a .untarget with armed := false }
  | .untarget => some { s.goto a .leave with target := 0 }
  | .leave => some { s.goto a .idle with busy := false }

/-- `fill_raw_snapshot_with` and the source, in a handler of that thread. -/
def fill (s : State A) (tid : ℕ) (frames : Frames) : StackSnapshot :=
  ⟨tid, .Sigusr2, frames, s.ended tid⟩

/-- One access of a handler. -/
def handle (s : State A) (tid : ℕ) (ok : Bool) (filled : Option Frames) :
    Handler → Option (State A)
  | .none => none
  | .armed => some (if s.armed ∧ ok then s.goes tid .target else s.ends tid)
  | .target =>
      some (if s.target = 0 ∨ tid ≠ s.target then s.ends tid else s.goes tid (.write s.target))
  | .write target =>
      match filled with
      | some frames =>
          some (if sigusr2SnapshotMatchesTarget (s.fill tid frames) target then
            { s.goes tid .advance with
              sigusr2Reply := Function.update s.sigusr2Reply target (s.fill tid frames) }
          else s.ends tid)
      | none => some (s.ends tid)
  | .advance => some { s.ends tid with seq := s.seq + 1 }

def step (s : State A) : Action A → Option (State A)
  | .captureThreadSnapshotSignal a tid =>
      if s.calls a ≠ .idle then none
      else if s.busy then some s
      else some { s.goto a (.target tid) with busy := true }
  | .step a ok => s.advance a ok (s.calls a)
  | .timeout a =>
      match s.calls a with
      | .wait _ _ _ => some (s.goto a .disarm)
      | _ => none
  | .signal tid => some (s.pends tid)
  | .deliver tid =>
      if s.pending tid ∧ s.handlers tid = .none then
        some { s.goes tid .armed with pending := Function.update s.pending tid false }
      else none
  | .handle tid ok filled => s.handle tid ok filled (s.handlers tid)

end State

end Probing.Stacktrace.Sigusr2
