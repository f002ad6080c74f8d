import Probing.Core.Keyed
import Probing.Tracing.Spans

/-!
# The hooks of a probe

A probe times the forwards of modules and the steps of an optimizer through hooks that PyTorch
calls on the training thread, and opens a span around each. Backward timing is off. The clock and
the memory counters are read once a row, and a step samples what its number and a function of the
layers say.
-/

namespace Probing.Profiling.TorchProbe

open Probing.Core
open Probing.Tracing (Phase)

/-- A `_RecordedSpan` that was entered. -/
structure Handle where
  span : ℕ
  phase : Phase
  reentrant : Bool
  deriving DecidableEq

/-- The spans with a phase that are open on the training thread, the innermost first. No branch
reads how often a span was exited. -/
structure Thread where
  next : ℕ
  stack : List (ℕ × Phase)
  microStep : ℕ
  exits : ℕ → ℕ

namespace Thread

def new : Thread := ⟨0, [], 0, fun _ => 0⟩

def activeSpanByPhase (t : Thread) (phase : Phase) : Option ℕ :=
  (t.stack.find? (·.2 = phase)).map (·.1)

/-- `_RecordedSpan.__enter__`. -/
def enter (t : Thread) (phase : Phase) : Handle × Thread :=
  match if phase = .optimizer then t.activeSpanByPhase .optimizer else none with
  | some existing => (⟨existing, phase, true⟩, t)
  | none => (⟨t.next, phase, false⟩,
      { t with next := t.next + 1, stack := (t.next, phase) :: t.stack })

/-- `_RecordedSpan.__exit__`, which advances the step after an optimizer span. -/
def exit (t : Thread) (handle : Handle) : Thread :=
  if handle.reentrant then t
  else { t with
    stack := t.stack.eraseP (·.1 = handle.span)
    microStep := if handle.phase = .optimizer then t.microStep + 1 else t.microStep
    exits := Function.update t.exits handle.span (t.exits handle.span + 1) }

end Thread

/-- What the clock and the memory counters read. -/
structure Reading where
  time : Int
  allocated : Int
  maxAllocated : Int

inductive Stage where
  | forward
  | step
  deriving DecidableEq

def Stage.phase : Stage → Phase
  | forward => .forward
  | step => .optimizer

/-- A row of a `pre` or a `post` hook. No branch reads the last three fields: the optimizer step
and the number of the row, and the number of the row that a `post` row closes. -/
structure Row (M : Type) where
  post : Bool
  module : M
  stage : Stage
  allocated : Int
  maxAllocated : Int
  allocatedDelta : Int
  maxAllocatedDelta : Int
  duration : Option Int
  step : ℕ
  number : ℕ
  pre : Option ℕ
  deriving DecidableEq

/-- An entry of `_open_spans`, with the number of its row. -/
structure Entry (M : Type) where
  spanCm : Option Handle
  module : M
  stage : Stage
  allocated : Int
  maxAllocated : Int
  number : ℕ
  deriving DecidableEq

/-- The probe, with the configuration and the registry that it reads. No branch reads the last
fields: how many steps are over and which of them were probed, how many rows were made, and the
spans that were entered, each with its step. -/
structure Probe (M : Type) where
  clock : ℕ → Reading
  traceSpans : Bool
  shadowNormal : Int
  shadowBaseline : Int
  useGpuEvents : Bool
  ownsModule : M → Bool
  ownsOptimizer : M → Bool
  period : ℕ
  layers : ℕ → M → Bool
  enabled : Bool
  finalized : Bool
  sampledStep : Bool
  plannedCycle : Option ℕ
  stepCycle : ℕ
  shadowStep : Bool
  offset : ℕ
  current : Option (M × Bool × Stage)
  openSpans : List (Entry M)
  trainStepCm : Option Handle
  events : M × Stage → Option Int
  cpuStart : M × Stage → Option Int
  pending : List (Row M)
  saved : List (Row M)
  thread : Thread
  steps : ℕ
  probed : ℕ → Bool
  rows : ℕ
  entered : List (ℕ × ℕ)

def shadowStepInCycle (cycle_index : ℕ) (shadowNormal shadowBaseline : Int) : Bool :=
  if shadowBaseline ≤ 0 ∨ shadowNormal < 0 then false
  else shadowNormal ≤ (cycle_index : Int) % (shadowNormal + shadowBaseline)

def Entry.key {M : Type} (entry : Entry M) : M × Stage := (entry.module, entry.stage)

namespace Probe

variable {M : Type} [DecidableEq M]

def new (clock : ℕ → Reading) (traceSpans : Bool) (shadowNormal shadowBaseline : Int)
    (useGpuEvents : Bool) (ownsModule ownsOptimizer : M → Bool) (period : ℕ)
    (layers : ℕ → M → Bool) (enabled : Bool) : Probe M where
  clock := clock
  traceSpans := traceSpans
  shadowNormal := shadowNormal
  shadowBaseline := shadowBaseline
  useGpuEvents := useGpuEvents
  ownsModule := ownsModule
  ownsOptimizer := ownsOptimizer
  period := period
  layers := layers
  enabled := enabled
  finalized := false
  sampledStep := true
  plannedCycle := none
  stepCycle := 0
  shadowStep := false
  offset := 0
  current := none
  openSpans := []
  trainStepCm := none
  events := fun _ => none
  cpuStart := fun _ => none
  pending := []
  saved := []
  thread := .new
  steps := 0
  probed := fun _ => false
  rows := 0
  entered := []

/-- The decision of a step is made by its first hook, and again after a change of the rate. -/
def ensureStepPlan (p : Probe M) : Probe M :=
  if ¬ p.finalized ∨ p.plannedCycle = some p.stepCycle then p
  else { p with
    plannedCycle := some p.stepCycle
    sampledStep := p.stepCycle % p.period = 0 }

def hooksDispatchActive (p : Probe M) : Bool := !p.finalized || p.ensureStepPlan.sampledStep

def shouldSample (p : Probe M) (post : Bool) (mod : M) : Bool :=
  p.finalized && p.sampledStep && (!post && p.offset = 0 || p.layers p.stepCycle mod)

def setSamplingMode (p : Probe M) (period : ℕ) (layers : ℕ → M → Bool) : Probe M :=
  { p with plannedCycle := none, period := period, layers := layers }

/-- `_sync_live_tracers`. -/
def configure (p : Probe M) (traceSpans : Bool) (period : ℕ) (layers : ℕ → M → Bool) : Probe M :=
  { p with plannedCycle := none, traceSpans := traceSpans, period := period, layers := layers }

def findOpen (p : Probe M) (mod : M) (stage : Stage) : Option (Entry M) :=
  Keyed.find Entry.key p.openSpans (mod, stage)

def beginTiming (p : Probe M) (mod : M) (stage : Stage) (time : Int) : Probe M :=
  { p with
    events :=
      if p.useGpuEvents then Function.update p.events (mod, stage) (some time) else p.events
    cpuStart :=
      if p.useGpuEvents then p.cpuStart
      else Function.update p.cpuStart (mod, stage) (some time) }

/-- The duration, if the stage was begun. A timer is taken from the first of the two
dictionaries that has it. -/
def endTiming (p : Probe M) (mod : M) (stage : Stage) (time : Int) : Option Int × Probe M :=
  (((p.events (mod, stage)).or (p.cpuStart (mod, stage))).map (time - ·),
    { p with
      events := Function.update p.events (mod, stage) none
      cpuStart :=
        if (p.events (mod, stage)).isSome then p.cpuStart
        else Function.update p.cpuStart (mod, stage) none })

/-- A span of the probe is entered. -/
def enter (p : Probe M) (phase : Phase) : Handle × Probe M :=
  let (handle, thread) := p.thread.enter phase
  (handle, { p with
    thread := thread
    entered := if handle.reentrant then p.entered else p.entered ++ [(handle.span, p.steps)] })

def exit (p : Probe M) (handle : Handle) : Probe M := { p with thread := p.thread.exit handle }

def exits (p : Probe M) : Option Handle → Probe M
  | some handle => p.exit handle
  | none => p

/-- A span is emitted unless a training phase owns the module. -/
def beginSpan (p : Probe M) (mod : M) (stage : Stage) : Option Handle × Probe M :=
  if p.traceSpans && !p.ownsModule mod then
    let (handle, q) := p.enter stage.phase
    (some handle, q)
  else (none, p)

/-- The branch of `log_module_stage` for a `pre` hook. -/
def logPre (p : Probe M) (mod : M) (stage : Stage) : Probe M :=
  let reading := p.clock p.rows
  let (spanCm, q) := (p.beginTiming mod stage reading.time).beginSpan mod stage
  { q with
    openSpans := Keyed.set Entry.key q.openSpans
      ⟨spanCm, mod, stage, reading.allocated, reading.maxAllocated, p.rows⟩
    pending := q.pending ++ [⟨false, mod, stage, reading.allocated, reading.maxAllocated, 0, 0,
      none, p.steps, p.rows, none⟩]
    rows := p.rows + 1 }

def completePostStage (p : Probe M) (mod : M) (stage : Stage) : Probe M :=
  let reading := p.clock p.rows
  let entry := p.findOpen mod stage
  let (duration, q) := p.endTiming mod stage reading.time
  let q := { q with openSpans := Keyed.erase Entry.key q.openSpans (mod, stage) }
  let q := q.exits (entry.bind (·.spanCm))
  { q with
    pending := q.pending ++ [⟨true, mod, stage, reading.allocated, reading.maxAllocated,
      (entry.map fun e => reading.allocated - e.allocated).getD 0,
      (entry.map fun e => reading.maxAllocated - e.maxAllocated).getD 0, duration, p.steps, p.rows,
      entry.map (·.number)⟩]
    rows := p.rows + 1 }

/-- Whether a hook that was dispatched makes a row. -/
def logs (p : Probe M) (post : Bool) (stage : Stage) (mod : M) (force : Bool) : Bool :=
  p.enabled && !p.shadowStep &&
    (force || post && (p.findOpen mod stage).isSome || p.shouldSample post mod)

def logModuleStage (p : Probe M) (post : Bool) (stage : Stage) (mod : M) (force : Bool) :
    Probe M :=
  if p.logs post stage mod force then
    if post then p.completePostStage mod stage else p.logPre mod stage
  else p

def processHook (p : Probe M) (post : Bool) (stage : Stage) (mod : M) : Probe M :=
  if p.current = some (mod, post, stage) then p
  else { p with offset := p.offset + 1, current := some (mod, post, stage) }

/-- `pre_forward_hook` and `post_forward_hook`. -/
def forwardHook (p : Probe M) (post : Bool) (mod : M) : Probe M :=
  if p.shadowStep then p
  else if ¬ p.hooksDispatchActive then p.ensureStepPlan
  else (p.ensureStepPlan.logModuleStage post .forward mod false).processHook post .forward mod

def beginTrainStepSpan (p : Probe M) (optimizer : M) : Probe M :=
  if ¬ p.traceSpans ∨ p.trainStepCm.isSome ∨ p.ownsOptimizer optimizer then p
  else
    let (handle, q) := p.enter .optimizer
    { q with trainStepCm := some handle }

def endTrainStepSpan (p : Probe M) : Probe M :=
  { p.exits p.trainStepCm with trainStepCm := none }

def preStepHook (p : Probe M) (optimizer : M) : Probe M :=
  if p.shadowStep then p
  else
    let q := if p.enabled && p.finalized then p.beginTrainStepSpan optimizer else p
    if ¬ q.hooksDispatchActive then q.ensureStepPlan
    else (q.ensureStepPlan.logModuleStage false .step optimizer true).processHook false .step
      optimizer

/-- Every entry that is left is completed, in order. -/
def finishOpenStages (p : Probe M) : Probe M :=
  p.openSpans.foldl (fun q entry => q.completePostStage entry.module entry.stage) p

def cleanupStepResources (p : Probe M) : Probe M :=
  { p.openSpans.foldl (fun q entry => q.exits entry.spanCm) p with
    openSpans := []
    events := fun _ => none
    cpuStart := fun _ => none }

def refreshShadowFlag (p : Probe M) : Probe M :=
  { p with shadowStep := shadowStepInCycle p.stepCycle p.shadowNormal p.shadowBaseline }

/-- `_advance_step_cycle_for_next` and the start of the next step. -/
def closeStepWall (p : Probe M) (probed : Bool) : Probe M :=
  { refreshShadowFlag { p with stepCycle := p.stepCycle + 1 } with
    steps := p.steps + 1
    probed := Function.update p.probed p.steps probed }

def finalizeDiscovery (p : Probe M) : Probe M := { p with finalized := true, plannedCycle := none }

/-- The step in which the modules are discovered ends, and the span of the next one begins. -/
def endDiscovery (p : Probe M) (optimizer : M) : Probe M :=
  let q := refreshShadowFlag { p.finalizeDiscovery with stepCycle := 0 }
  beginTrainStepSpan { q with
    steps := q.steps + 1
    probed := Function.update q.probed q.steps false } optimizer

def endShadow (p : Probe M) : Probe M :=
  p.endTrainStepSpan.cleanupStepResources.closeStepWall false

def endUnsampled (p : Probe M) : Probe M :=
  let q := cleanupStepResources { p.endTrainStepSpan with offset := 0, current := none }
  closeStepWall { q with pending := [] } false

/-- The rows of the step are saved, now or after the backend is done with its events. -/
def endSampled (p : Probe M) (optimizer : M) : Probe M :=
  let q := (p.endTrainStepSpan.logModuleStage true .step optimizer true).processHook true .step
    optimizer
  let q := finishOpenStages { q with offset := 0 }
  let q := cleanupStepResources { q with pending := [], saved := q.saved ++ q.pending }
  q.closeStepWall true

def postStepHook (p : Probe M) (optimizer : M) : Probe M :=
  if ¬ p.enabled then p
  else if ¬ p.finalized then p.endDiscovery optimizer
  else if p.shadowStep then p.endShadow
  else if ¬ p.sampledStep then p.endUnsampled
  else p.endSampled optimizer

end Probe

end Probing.Profiling.TorchProbe
