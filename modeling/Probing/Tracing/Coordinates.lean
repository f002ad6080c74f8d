import Mathlib.Algebra.Order.Ring.Int
import Probing.Core.Run

/-!
# Step coordinates

Every thread counts its own steps. The fields that spans take of the count are kept in one place for
the whole process, until any thread calls `step`. A call moves one access at a time: to the counters
of its thread, or to the fields that are kept.
-/

namespace Probing.Tracing.Coordinates

structure StepSnapshot where
  microStep : ℕ
  localStep : ℕ
  globalStep : ℕ
  microBatches : ℕ
  rank : ℤ
  worldSize : ℤ
  deriving DecidableEq

structure StepContext where
  microStep : ℕ
  microBatches : ℕ
  rank : ℤ
  worldSize : ℤ
  deriving DecidableEq

/-- The parallel ranks and sizes that the environment sets. -/
structure ParallelTopology where
  tpRank : Option ℤ
  ppRank : Option ℤ
  dpRank : Option ℤ
  tpSize : Option ℤ
  ppSize : Option ℤ
  dpSize : Option ℤ
  deriving DecidableEq

/-- The variables that are read, where they hold numbers. -/
structure Environment where
  probingMicroBatches : Option ℕ
  probingGlobalStepBucket : Option ℕ
  probingStepBucket : Option ℕ
  rankVar : Option ℤ
  worldSizeVar : Option ℤ
  parallel : ParallelTopology
  deriving DecidableEq

def Environment.readMicroBatches (env : Environment) : ℕ :=
  max ((env.probingMicroBatches.or
    (env.probingGlobalStepBucket.or env.probingStepBucket)).getD 1) 1

namespace StepContext

def default (env : Environment) : StepContext where
  microStep := 0
  microBatches := env.readMicroBatches
  rank := env.rankVar.getD 0
  worldSize := env.worldSizeVar.getD 1

def trainingStepFor (microStep microBatches : ℕ) : ℕ := microStep / max microBatches 1

def snapshot (c : StepContext) : StepSnapshot where
  microStep := c.microStep
  localStep := trainingStepFor c.microStep c.microBatches
  globalStep := trainingStepFor c.microStep c.microBatches
  microBatches := c.microBatches
  rank := c.rank
  worldSize := c.worldSize

/-- `saturating_add`. -/
def advanceMicroStep (c : StepContext) : StepContext :=
  { c with microStep := min (c.microStep + 1) (2 ^ 64 - 1) }

def syncMicroStep (c : StepContext) (step : ℕ) : StepContext := { c with microStep := step }

def setMicroBatches (c : StepContext) (microBatches : ℕ) : StepContext :=
  { c with microBatches := max microBatches 1 }

end StepContext

inductive Value where
  | int (n : ℤ)
  | str (s : String)
  deriving DecidableEq

/-- A dictionary. The first value of a key is the one that counts: `{**a, **b}` is `b ++ a`. -/
abbrev Attrs := List (String × Value)

def rowDefaults : Attrs :=
  [("micro_step", .int 0), ("local_step", .int 0), ("global_step", .int 0),
    ("micro_batches", .int 1), ("rank", .int (-1)), ("world_size", .int (-1))]

def stepFields (snapshot : Option StepSnapshot) : Attrs :=
  match snapshot with
  | none => []
  | some s =>
      [("micro_step", .int s.microStep), ("local_step", .int s.localStep),
        ("global_step", .int s.globalStep), ("micro_batches", .int s.microBatches),
        ("rank", .int s.rank), ("world_size", .int s.worldSize)]

def rowFields (snapshot : Option StepSnapshot) : Attrs :=
  rowDefaults.map fun p => (p.1, ((stepFields snapshot).lookup p.1).getD p.2)

/-- The dimensions that are set; a value that is not set counts as -1. -/
def parallelFields (env : Environment) : Attrs :=
  ([("tp_rank", env.parallel.tpRank), ("pp_rank", env.parallel.ppRank),
      ("dp_rank", env.parallel.dpRank), ("tp_size", env.parallel.tpSize),
      ("pp_size", env.parallel.ppSize), ("dp_size", env.parallel.dpSize)].filter
    fun p => 0 ≤ p.2.getD (-1)).map fun p => (p.1, .int (p.2.getD (-1)))

/-- The end of `_base_coords`, with the fields that are kept. -/
def baseCoords (env : Environment) (cached : Attrs) : Attrs := parallelFields env ++ cached

/-- The end of `span_attrs`. -/
def mergeAttrs (user : Attrs) (source : String) (base : Attrs) : Attrs :=
  if user = [] then ("source", .str source) :: base
  else base ++ (user ++ [("source", .str source)])

/-- What a thread has still to do of its call. -/
inductive Access where
  | setMicroBatches (microBatches : ℤ)
  | syncMicroStep (step : ℤ)
  | advanceMicroStep
  | invalidateCoordsCache
  /-- `if cachedStepFields is None`. -/
  | isNone (user : Attrs) (source : String)
  /-- `step.snapshot()`. -/
  | snapshot
  /-- `_CACHED_STEP_FIELDS = step_fields(..)`. -/
  | keep (fields : Attrs)
  /-- `{**cachedStepFields, ..}`, and the return. -/
  | merge (user : Attrs) (source : String)
  /-- `row_fields(step.snapshot())`. -/
  | rowFields
  deriving DecidableEq

/-- `Step.__call__`. -/
def stepCall (value microBatches : Option ℤ) : List Access :=
  (microBatches.toList.map Access.setMicroBatches) ++
    match value with
    | some value => [.syncMicroStep value, .invalidateCoordsCache]
    | none =>
        if microBatches.isSome then [.invalidateCoordsCache]
        else [.advanceMicroStep, .invalidateCoordsCache]

/-- A return of `span_attrs`, where no attributes are an exception, or of `row_fields`, with the
snapshot that the thread itself has at that moment. -/
structure Returned (T : Type) where
  thread : T
  attrs : Option Attrs
  own : StepSnapshot
  deriving DecidableEq

/-- What a thread does to its counters. -/
inductive Count where
  | read
  | setMicroBatches (microBatches : ℕ)
  | syncMicroStep (step : ℕ)
  | advanceMicroStep
  deriving DecidableEq

def Count.apply : Count → StepContext → StepContext
  | read, c => c
  | setMicroBatches microBatches, c => c.setMicroBatches microBatches
  | syncMicroStep step, c => c.syncMicroStep step
  | advanceMicroStep, c => c.advanceMicroStep

/-- What has happened: a thread accessed its counters, in the environment of that moment; a call of
`step` came to its end; a thread filled the cache. -/
inductive Event (T : Type) where
  | counted (thread : T) (env : Environment) (count : Count)
  | stepped (thread : T)
  | filled (thread : T)

/-- `stepping` tells which threads are in a call of `step`, `history` what has happened, the last
event first, and `returned` lists the returns. None of them is in the source, and no branch reads
them. -/
structure Process (T : Type) where
  env : Environment
  /-- `STEP_CTX`, where the thread has accessed it. -/
  contexts : T → Option StepContext
  globalMicroStep : ℕ
  globalMicroBatches : ℕ
  cachedStepFields : Option Attrs
  todo : T → List Access
  stepping : T → Bool
  history : List (Event T)
  returned : List (Returned T)

inductive Action (T : Type) where
  | setenv (env : Environment)
  | step (thread : T) (value microBatches : Option ℤ)
  | spanAttrs (thread : T) (user : Attrs) (source : String)
  | rowFields (thread : T)
  /-- A thread makes the next access of its call. -/
  | access (thread : T)

namespace Process

variable {T : Type}

def new (env : Environment) : Process T where
  env := env
  contexts _ := none
  globalMicroStep := 0
  globalMicroBatches := 1
  cachedStepFields := none
  todo _ := []
  stepping _ := false
  history := []
  returned := []

/-- The context of a thread is made when the thread first accesses it. -/
def context (s : Process T) (thread : T) : StepContext :=
  (s.contexts thread).getD (.default s.env)

variable [DecidableEq T]

def goto (s : Process T) (thread : T) (todo : List Access) : Process T :=
  { s with todo := Function.update s.todo thread todo }

def setContext (s : Process T) (thread : T) (c : StepContext) : Process T :=
  { s with contexts := Function.update s.contexts thread (some c) }

def publishGlobal (s : Process T) (microStep microBatches : ℕ) : Process T :=
  { s with
    globalMicroStep := max s.globalMicroStep microStep
    globalMicroBatches := max microBatches 1 }

/-- The conversion of an argument to `u64` raises outside of its range. -/
def asU64 (n : ℤ) : Option ℕ := if 0 ≤ n ∧ n < 2 ^ 64 then some n.toNat else none

/-- A change of the counters by one of the bindings, or the end of the call by an exception. -/
def count (s : Process T) (thread : T) (rest : List Access) (c : Option StepContext) : Process T :=
  match c with
  | some c => ((s.setContext thread c).publishGlobal c.microStep c.microBatches).goto thread rest
  | none => s.goto thread []

/-- A return of the call. -/
def log (s : Process T) (thread : T) (rest : List Access) (attrs : Option Attrs) : Process T :=
  { s.goto thread rest with
    returned := s.returned ++ [⟨thread, attrs, (s.context thread).snapshot⟩] }

/-- One access of a thread, with what it has still to do after it. -/
def perform (s : Process T) (thread : T) (rest : List Access) : Access → Process T
  | .setMicroBatches microBatches =>
      match asU64 microBatches with
      | some microBatches =>
          let c := (s.context thread).setMicroBatches microBatches
          { s.setContext thread c with globalMicroBatches := c.microBatches }.goto thread rest
      | none => s.goto thread []
  | .syncMicroStep step =>
      s.count thread rest ((asU64 step).map (s.context thread).syncMicroStep)
  | .advanceMicroStep => s.count thread rest (some (s.context thread).advanceMicroStep)
  | .invalidateCoordsCache =>
      { s.goto thread rest with cachedStepFields := none }
  | .isNone user source =>
      s.goto thread (if s.cachedStepFields.isNone then [.snapshot, .merge user source]
        else [.merge user source])
  | .snapshot =>
      (s.setContext thread (s.context thread)).goto thread
        (.keep (stepFields (some (s.context thread).snapshot)) :: rest)
  | .keep fields =>
      { s.goto thread rest with cachedStepFields := some fields }
  | .merge user source =>
      s.log thread rest
        (s.cachedStepFields.map fun cached => mergeAttrs user source (baseCoords s.env cached))
  | .rowFields =>
      (s.setContext thread (s.context thread)).log thread rest
        (some (Coordinates.rowFields (some (s.context thread).snapshot)))

/-- The events of an access. -/
def events (s : Process T) (thread : T) (rest : List Access) (access : Access) : List (Event T) :=
  (if s.stepping thread ∧ rest = [] then [.stepped thread] else []) ++
    match access with
    | .setMicroBatches microBatches =>
        (asU64 microBatches).toList.map fun n => .counted thread s.env (.setMicroBatches n)
    | .syncMicroStep step =>
        (asU64 step).toList.map fun n => .counted thread s.env (.syncMicroStep n)
    | .advanceMicroStep => [.counted thread s.env .advanceMicroStep]
    | .snapshot | .rowFields => [.counted thread s.env .read]
    | .keep _ => [.filled thread]
    | .invalidateCoordsCache | .isNone _ _ | .merge _ _ => []

/-- A thread begins a call when it has no other one. -/
def call (s : Process T) (thread : T) (stepping : Bool) (todo : List Access) : Option (Process T) :=
  if s.todo thread = [] then
    some { s.goto thread todo with stepping := Function.update s.stepping thread stepping }
  else none

def step (s : Process T) : Action T → Option (Process T)
  | .setenv env => some { s with env }
  | .step thread value microBatches => s.call thread true (stepCall value microBatches)
  | .spanAttrs thread user source => s.call thread false [.isNone user source]
  | .rowFields thread => s.call thread false [.rowFields]
  | .access thread =>
      match s.todo thread with
      | [] => none
      | access :: rest =>
          some { s.perform thread rest access with
            history := s.events thread rest access ++ s.history }

end Process

end Probing.Tracing.Coordinates
