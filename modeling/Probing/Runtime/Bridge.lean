import Probing.Core.Run

/-!
# From synchronous code into the runtime

A closure may have to run on the one bridge thread, and a future is polled by the thread
that blocks on it or by a thread of its own. Which way a call takes depends on the thread
that makes it and on whether that thread is inside the runtime. The environment decides
what a closure or future does next.
-/

namespace Probing.Runtime

open Probing.Core

inductive Thread where
  | main
  | bridge
  | other (i : ℕ)
  deriving DecidableEq

/-- How a closure or future is run, and who takes its outcome. -/
inductive Route where
  /-- In place; a panic unwinds into the caller. -/
  | direct
  /-- In place, by `block_on`, which catches a panic. -/
  | caught
  /-- As a job of the bridge. -/
  | bridged
  /-- As a job of the bridge, by `block_on`. -/
  | bridgedCaught
  /-- `block_in_place` on the bridge thread. -/
  | inPlace
  /-- `spawn_block_on_thread`. -/
  | thread
  /-- Spawned on the runtime. -/
  | task
  deriving DecidableEq

/-- `block_on` catches the panic of its future, so its closure returns. -/
def Route.catches : Route → Bool
  | .caught | .bridgedCaught => true
  | _ => false

inductive Outcome where
  | returned (v : ℕ)
  | panicked
  deriving DecidableEq

/-- What the caller gets. -/
inductive CallResult where
  | value (v : ℕ)
  | error
  | panicked
  deriving DecidableEq

inductive Phase where
  | queued
  | running
  /-- Blocked in a call, or awaiting a task. -/
  | waiting (c : ℕ)
  | finished
  deriving DecidableEq

/-- A closure or a future that was handed over, or the code of a thread. -/
structure Activity where
  /-- The activities that wait for this one, the direct caller first. -/
  callers : List ℕ
  route : Route
  thread : Thread
  inside : Bool
  /-- It is run by the closure of `run_on_native_bridge`, which sets the flag. -/
  wrapped : Bool
  /-- It is still in the cell that the job and the caller share. -/
  stored : Bool
  started : ℕ
  phase : Phase
  outcome : Option Outcome
  delivered : Option CallResult
  deriving DecidableEq

structure State where
  count : ℕ
  activity : ℕ → Activity
  /-- The slot of `NATIVE_BRIDGE`, and whether it has a thread. -/
  slot : Option Bool
  queue : List ℕ
  /-- The job that the bridge thread executes. -/
  job : Option ℕ
  onNativeBridge : Thread → Bool

namespace Activity

/-- An activity that runs from the start. -/
def begun (callers : List ℕ) (route : Route) (thread : Thread) (inside : Bool) : Activity where
  callers := callers
  route := route
  thread := thread
  inside := inside
  wrapped := false
  stored := false
  started := 1
  phase := .running
  outcome := none
  delivered := none

/-- A job that the bridge has not taken yet. -/
def sent (callers : List ℕ) (route : Route) (inside : Bool) : Activity :=
  { begun callers route .bridge inside with
    wrapped := true, stored := true, started := 0, phase := .queued }

/-- A future that `block_on_ephemeral` cannot run, since the thread drives another runtime. -/
def refused (callers : List ℕ) (thread : Thread) : Activity :=
  { begun callers .thread thread true with
    started := 0
    phase := .finished
    delivered := some .panicked }

/-- It is taken out of its cell. -/
def start (a : Activity) : Activity :=
  { a with stored := false, started := a.started + 1, phase := .running }

/-- The result of a call, from what its closure or future left. -/
def result (a : Activity) : CallResult :=
  match a.outcome with
  | some (.returned v) => .value v
  | some .panicked => if a.route = .direct then .panicked else .error
  | none => .error

end Activity

namespace State

def initial : State where
  count := 0
  activity := fun _ => .begun [] .task .main false
  slot := none
  queue := []
  job := none
  onNativeBridge := fun _ => false

variable (s : State)

def put (n : ℕ) (a : Activity) : State := { s with activity := Function.update s.activity n a }

def setPhase (n : ℕ) (p : Phase) : State := s.put n { s.activity n with phase := p }

def add (a : Activity) : State := { s.put s.count a with count := s.count + 1 }

/-- The callers of what `n` calls. -/
def callersFrom (n : ℕ) : List ℕ := n :: (s.activity n).callers

/-- `n` waits for an activity that begins now. -/
def call (n : ℕ) (a : Activity) : State := (s.setPhase n (.waiting s.count)).add a

def needsNativeBridge (n : ℕ) : Bool :=
  ((s.activity n).thread = .main && !s.onNativeBridge (s.activity n).thread) ||
    (s.activity n).inside

/-- The routes of a call that runs as a job or in place, and whether what it runs is inside
the runtime then. -/
structure Ways where
  bridged : Route
  direct : Route
  insideBridged : Bool
  insideDirect : Bool

def runHere (n : ℕ) (w : Ways) : State :=
  s.call n (.begun (s.callersFrom n) w.direct (s.activity n).thread w.insideDirect)

def setFlag (thread : Thread) (b : Bool) : State :=
  { s with onNativeBridge := Function.update s.onNativeBridge thread b }

/-- The slot is built when it is first needed, with a thread if one can be spawned. -/
def hasThread (spawns : Bool) : Bool := s.slot.getD spawns

/-- `NativeBridge::call`. Without a thread the closure that sets the flag runs in place. -/
def nativeCall (n : ℕ) (spawns : Bool) (w : Ways) : State :=
  let built := { s with slot := some (s.hasThread spawns) }
  if s.hasThread spawns then
    { built.call n (.sent (s.callersFrom n) w.bridged w.insideBridged) with
      queue := s.queue ++ [s.count] }
  else
    (built.call n
        { Activity.begun (s.callersFrom n) w.direct (s.activity n).thread w.insideDirect with
      wrapped := true }).setFlag (s.activity n).thread true

def runOnNativeBridge (n : ℕ) (spawns : Bool) (w : Ways) : State :=
  if s.onNativeBridge (s.activity n).thread then s.runHere n w else s.nativeCall n spawns w

def runOnNativeThread (n : ℕ) (spawns : Bool) (w : Ways) : State :=
  if s.needsNativeBridge n then s.runOnNativeBridge n spawns w else s.runHere n w

/-- A closure sees the thread that runs it. -/
def closureWays (n : ℕ) : Ways := ⟨.bridged, .direct, false, (s.activity n).inside⟩

/-- A future is polled inside the runtime. -/
def futureWays : Ways := ⟨.bridgedCaught, .caught, true, true⟩

/-- Without a thread the future stays with the caller, and the ephemeral runtime panics. -/
def spawnBlockOnThread (n : ℕ) (spawns : Bool) : State :=
  if spawns then s.call n (.begun (s.callersFrom n) .thread (.other s.count) true)
  else s.add (.refused (s.callersFrom n) (s.activity n).thread)

def blockOn (n : ℕ) (spawns : Bool) : State :=
  if (s.activity n).inside then
    if s.onNativeBridge (s.activity n).thread then
      s.call n (.begun (s.callersFrom n) .inPlace (s.activity n).thread true)
    else s.spawnBlockOnThread n spawns
  else s.runOnNativeThread n spawns futureWays

/-- The bridge thread takes a job, which sets the flag first. -/
def startJob (q : ℕ) (rest : List ℕ) : State :=
  if (s.activity q).stored then
    { (s.put q (s.activity q).start).setFlag .bridge true with queue := rest, job := some q }
  else { s.setPhase q .finished with queue := rest }

/-- An activity comes to its end. The flag is reset when the closure returns, and not when
it panics. -/
def settle (n : ℕ) (o : Outcome) : State :=
  let a := s.activity n
  let ended := { s.put n { a with phase := .finished, outcome := some o } with
    job := if s.job = some n then none else s.job }
  if a.wrapped = true ∧ (o = .panicked → a.route.catches = true) then
    ended.setFlag a.thread false else ended

/-- The caller goes on with the result of `c`. It runs a job itself that was dropped. -/
def deliver (n c : ℕ) : State :=
  let a := s.activity c
  let caller := s.activity n
  if a.stored then
    (s.put c { a.start with
      thread := caller.thread
      route := if a.route.catches then .caught else .direct
      inside := a.route.catches || caller.inside }).setFlag caller.thread true
  else (s.put c { a with delivered := some a.result }).setPhase n .running

end State

inductive Action where
  /-- Some thread runs code, or the runtime a task. -/
  | enter (thread : Thread) (inside : Bool)
  | native (n : ℕ) (spawns : Bool)
  | blockOn (n : ℕ) (spawns : Bool)
  | spawn (n : ℕ)
  | await (n c : ℕ)
  | startJob
  | settle (n : ℕ) (o : Outcome)
  | deliver (n c : ℕ)
  deriving DecidableEq

namespace State

variable (s : State)

def Running (n : ℕ) : Prop := n < s.count ∧ (s.activity n).phase = .running

instance (n : ℕ) : Decidable (s.Running n) := inferInstanceAs (Decidable (_ ∧ _))

def step : Action → Option State
  | .enter thread inside =>
      if thread ≠ .bridge then some (s.add (.begun [] .task thread inside)) else none
  | .native n spawns =>
      if s.Running n then some (s.runOnNativeThread n spawns (s.closureWays n)) else none
  | .blockOn n spawns => if s.Running n then some (s.blockOn n spawns) else none
  | .spawn n =>
      if s.Running n ∧ (s.activity n).inside = true then
        some (s.add (.begun (s.callersFrom n) .task (.other s.count) true))
      else none
  | .await n c =>
      if s.Running n ∧ c < s.count ∧ (s.activity c).route = .task ∧
        (s.activity c).callers = s.callersFrom n ∧
          (s.activity c).delivered = none then
        some (s.setPhase n (.waiting c))
      else none
  | .startJob =>
      match s.job, s.queue with
      | none, q :: rest => some (s.startJob q rest)
      | _, _ => none
  | .settle n o => if s.Running n then some (s.settle n o) else none
  | .deliver n c =>
      if n < s.count ∧ (s.activity n).phase = .waiting c ∧ (s.activity c).phase = .finished then
        some (s.deliver n c)
      else none

/-- A call or an awaited task that has not come to its end. -/
def Unfinished (n : ℕ) : Prop := (s.activity n).callers ≠ [] ∧ (s.activity n).phase ≠ .finished

instance (n : ℕ) : Decidable (s.Unfinished n) := inferInstanceAs (Decidable (_ ∧ _))

/-- `n` cannot go on before `m` has come to its end. -/
def WaitsFor (n m : ℕ) : Prop :=
  (s.activity n).phase = .waiting m ∨
    (s.activity n).phase = .queued ∧ n ≠ m ∧ (s.job <|> s.queue.head?) = some m

instance (n m : ℕ) : Decidable (s.WaitsFor n m) := inferInstanceAs (Decidable (_ ∨ _))

/-- Every unfinished call waits for another one. -/
def Deadlocked : Prop :=
  (∃ n < s.count, s.Unfinished n) ∧
    ∀ n < s.count, s.Unfinished n → ∃ m < s.count, s.Unfinished m ∧ s.WaitsFor n m

instance : Decidable s.Deadlocked := inferInstanceAs (Decidable (_ ∧ _))

/-- The caller's own thread ran it. -/
def OnCallersThread (n : ℕ) : Prop :=
  ∃ c, (s.activity n).callers.head? = some c ∧ (s.activity c).thread = (s.activity n).thread

/-- What a call may return: its own result or an error, or a panic of its own closure. -/
def OwnResult (n : ℕ) (r : CallResult) : Prop :=
  match r with
  | .value v => (s.activity n).outcome = some (.returned v)
  | .error => True
  | .panicked => (s.activity n).outcome = some .panicked ∧ s.OnCallersThread n

/-- What the bridge is to guarantee in every state. -/
structure Bridged : Prop where
  once : ∀ n < s.count, (s.activity n).started ≤ 1
  own_result : ∀ n < s.count, ∀ r, (s.activity n).delivered = some r → s.OwnResult n r
  live : ¬ s.Deadlocked
  flag : ∀ θ, s.onNativeBridge θ = true ↔ θ = .bridge ∧ s.job.isSome

/-- `n` is the job that the bridge executes, or the job waits for it. -/
def UnderJob (n : ℕ) : Prop := ∃ j ∈ s.job, n = j ∨ j ∈ (s.activity n).callers

instance (n : ℕ) : Decidable (s.UnderJob n) := by
  unfold UnderJob
  cases s.job with
  | none => exact .isFalse (fun ⟨_, h, _⟩ => nomatch h)
  | some j => exact decidable_of_iff (n = j ∨ j ∈ (s.activity n).callers) (by simp)

/-- A call of `n` is for the bridge. -/
def ForBridge (n : ℕ) : Prop :=
  s.needsNativeBridge n = true ∧ s.onNativeBridge (s.activity n).thread = false

instance (n : ℕ) : Decidable (s.ForBridge n) := inferInstanceAs (Decidable (_ ∧ _))

/-- The threads that are needed can be spawned, nothing that the executed job waits for
makes a call for the bridge, and a closure that is a job does not panic. -/
def Calm : Action → Prop
  | .native n spawns => s.ForBridge n → s.hasThread spawns = true ∧ ¬ s.UnderJob n
  | .blockOn n spawns =>
      if (s.activity n).inside then s.onNativeBridge (s.activity n).thread = false → spawns = true
      else s.ForBridge n → s.hasThread spawns = true ∧ ¬ s.UnderJob n
  | .settle n o => o = .panicked → s.job = some n → (s.activity n).route.catches = true
  | _ => True

instance (a : Action) : Decidable (s.Calm a) := by
  unfold Calm
  split <;> infer_instance

end State

end Probing.Runtime
