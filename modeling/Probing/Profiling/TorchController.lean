import Mathlib.Data.Int.Notation
import Mathlib.Data.List.Nodup
import Probing.Core.Run

/-!
# The profiler controller

A capture starts with a profiler and a hook that torch calls after every optimizer step. The hook
enters the profiler at its first call, counts its calls and ends the capture when they are as many
as were asked for; `stop` ends it earlier. Every body runs under one lock, so the calls from
different threads follow each other, but a hook may be called, and wait, while another one runs.
Creating, entering, stepping and exiting the profiler, and removing the hook, may raise.
-/

namespace Probing.Profiling.TorchController

/-- A `RuntimeError`, another `Exception`, or an exception that is not one. -/
inductive Exc where
  | RuntimeError
  | Exception
  | BaseException
  deriving DecidableEq

inductive Status where
  | completed
  | failed
  deriving DecidableEq

/-- What a call of the environment raises, if it is made. -/
structure Faults where
  create : Option Exc
  register : Option Exc
  enter : Option Exc
  step : Option Exc
  remove : Option Exc
  exit : Option Exc
  compile : Option Exc
  deriving DecidableEq

structure CaptureRecord where
  profiler : ℕ
  trigger : String
  stepsProfiled : ℕ
  startedAtUs : ℕ
  status : Status
  error : Option Exc

/-- A record, and what no branch reads: whether `stop` made it, how many steps were asked for, the
number of optimizer steps at the start, and the steps whose calls came to the capture. -/
structure Capture extends CaptureRecord where
  stopped : Bool
  stepsTarget : ℕ
  since : ℕ
  seen : List ℕ

structure ProfilerController where
  profiler : Option ℕ
  hookHandle : Option ℕ
  stepsTarget : ℕ
  stepCount : ℕ
  trigger : String
  startedAtUs : ℕ
  running : Bool

/-- The controller, the hooks that are registered, the calls of hooks that are still to run, and the
numbers of optimizer steps, profilers and hooks so far. The rest is what has happened: the profilers
that were entered and exited, the current capture's steps and whether a hook call raised in it, the
hooks whose removal raised, the captures, and for every start that raised whether the controller was
ready for a start before it and after it. -/
structure World where
  controller : ProfilerController
  hooks : List ℕ
  calls : List (ℕ × ℕ)
  optSteps : ℕ
  profilers : ℕ
  handles : ℕ
  entered : List ℕ
  exited : List ℕ
  since : ℕ
  seen : List ℕ
  troubled : Bool
  leaked : List ℕ
  captures : List Capture
  raised : List (Bool × Bool)

namespace World

def new : World :=
  ⟨⟨none, none, 0, 0, "", 0, false⟩, [], [], 0, 0, 0, [], [], 0, [], false, [], [], []⟩

def start (w : World) (steps : ℤ) (trigger : String) (now : ℕ) (f : Faults) : World × Option Exc :=
  if w.controller.running then (w, some .RuntimeError)
  else
    let w := { w with
      controller := { w.controller with
        stepsTarget := (max steps 1).toNat, stepCount := 0, trigger := trigger,
        startedAtUs := now, running := true }
      since := w.optSteps
      seen := []
      troubled := false }
    match f.create with
    | some e => (w, some e)
    | none =>
        let w := { w with
          controller := { w.controller with profiler := some w.profilers }
          profilers := w.profilers + 1 }
        match f.register with
        | some e => (w, some e)
        | none =>
            ({ w with
              controller := { w.controller with hookHandle := some w.handles }
              hooks := w.hooks ++ [w.handles]
              handles := w.handles + 1 }, none)

/-- A hook that could not be removed stays registered and is forgotten. -/
def removeHook (w : World) (f : Faults) : World × Option Exc :=
  match w.controller.hookHandle with
  | none => (w, none)
  | some h =>
      let forgotten := { w with controller := { w.controller with hookHandle := none } }
      match f.remove with
      | none => ({ forgotten with hooks := w.hooks.erase h }, none)
      | some .BaseException => (w, some .BaseException)
      | some _ => ({ forgotten with leaked := w.leaked ++ [h] }, none)

/-- The end of `_finalize_capture`, for the profiler that it took from the controller. -/
def close (w : World) (p : ℕ) (status : Status) (error : Option Exc) (stopped : Bool) (f : Faults) :
    World × Option Exc :=
  let c := w.controller
  let w := { w with exited := w.exited ++ [p] }
  if f.exit = some .BaseException then (w, f.exit)
  else
    let failed := f.exit.isSome && decide (status = .completed)
    match f.compile with
    | some .BaseException => (w, some .BaseException)
    | some _ => (w, none)
    | none =>
        ({ w with
          captures := w.captures ++ [{
            profiler := p, trigger := c.trigger, stepsProfiled := c.stepCount,
            startedAtUs := c.startedAtUs,
            status := if failed then .failed else status,
            error := if failed then error.or f.exit else error,
            stopped, stepsTarget := c.stepsTarget, since := w.since, seen := w.seen }] }, none)

def finalizeCapture (w : World) (status : Status) (error : Option Exc) (stopped : Bool)
    (f : Faults) : World × Option Exc :=
  if w.controller.running = false ∧ w.controller.profiler = none then (w, none)
  else
    match w.removeHook f with
    | (w, some e) => (w, some e)
    | (w, none) =>
        let idle :=
          { w with controller := { w.controller with running := false, profiler := none } }
        match w.controller.profiler with
        | none => (idle, none)
        | some p => idle.close p status error stopped f

/-- The hook from the check of the number of steps on. -/
def countStep (w : World) (f : Faults) : World × Option Exc :=
  let c := w.controller
  if c.stepsTarget ≤ c.stepCount then (w, none)
  else
    match f.step with
    | none =>
        let w := { w with controller := { c with stepCount := c.stepCount + 1 } }
        if c.stepsTarget ≤ c.stepCount + 1 then w.finalizeCapture .completed none false f
        else (w, none)
    | some .RuntimeError => w.finalizeCapture .failed (some .RuntimeError) false f
    | some e => (w, some e)

def profilerStepHook (w : World) (k : ℕ) (f : Faults) : World × Option Exc :=
  match w.controller.profiler, w.controller.running with
  | some p, true =>
      let w := { w with seen := w.seen ++ [k] }
      if w.controller.stepCount = 0 then
        let w := { w with entered := w.entered ++ [p] }
        match f.enter with
        | some e => (w, some e)
        | none => w.countStep f
      else w.countStep f
  | _, _ => (w, none)

def stop (w : World) (f : Faults) : World × Option Exc :=
  if w.controller.running then w.finalizeCapture .completed none true f else (w, none)

inductive Action where
  | start (steps : ℤ) (trigger : String) (now : ℕ) (f : Faults)
  /-- An optimizer makes a step, and the hooks that are registered are to be called. -/
  | optimizerStep
  | hook (opt_step handle : ℕ) (f : Faults)
  | stop (f : Faults)

/-- No capture is running. -/
def ready (w : World) : Bool := !w.controller.running

/-- A start is noted if it raised. -/
def noted (w : World) (result : World × Option Exc) : World :=
  match result.2 with
  | none => result.1
  | some _ => { result.1 with raised := w.raised ++ [(w.ready, result.1.ready)] }

/-- So is a hook call. -/
def notedCall (result : World × Option Exc) : World :=
  match result.2 with
  | none => result.1
  | some _ => { result.1 with troubled := true }

def step (w : World) : Action → Option World
  | .start steps trigger now f => some (w.noted (w.start steps trigger now f))
  | .optimizerStep =>
      some { w with
        optSteps := w.optSteps + 1
        calls := w.calls ++ w.hooks.map fun h => (w.optSteps, h) }
  | .hook k h f =>
      if (k, h) ∈ w.calls then
        some (notedCall ({ w with calls := w.calls.erase (k, h) }.profilerStepHook k f))
      else none
  | .stop f => some (w.stop f).1

end World

end Probing.Profiling.TorchController
