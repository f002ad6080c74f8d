import Mathlib.Logic.Function.Iterate
import Probing.Profiling.TorchProbe

/-!
# The steps of a training loop

The step of an optimizer calls the hooks of a probe, if one is installed, and of any number of phase
trackers that were attached before and after it. Between two steps, and inside one, modules run and
tensors get their gradients, on this or another thread.
-/

namespace Probing.Profiling.TorchProbe

open Probing.Tracing (Phase)

/-- What a training thread has: the probe, with the spans of the thread; the trackers that are
attached to the optimizer, in order; the spans of their hooks, which all trackers share; and spans
of the user. -/
structure Trainer (M : Type) where
  probe : Probe M
  installed : Bool
  before : ℕ
  after : ℕ
  optimizer : M
  hookSpans : Phase → Option Handle
  others : List Handle

/-- What happens between two steps, or inside one. -/
inductive Event (M : Type) where
  | forwardPre (training : Bool)
  | forwardPost (training : Bool)
  | outputGrad
  | outputGradElsewhere (active : Bool)
  | forward (post : Bool) (mod : M)
  | setSamplingMode (period : ℕ) (layers : ℕ → M → Bool)
  | configure (traceSpans : Bool) (period : ℕ) (layers : ℕ → M → Bool)
  | enter (phase : Phase)
  | exit (k : ℕ)

namespace Trainer

variable {M : Type}

def enter (s : Trainer M) (phase : Phase) : Handle × Trainer M :=
  let (handle, thread) := s.probe.thread.enter phase
  (handle, { s with probe := { s.probe with thread := thread } })

def hookEnter (s : Trainer M) (phase : Phase) : Trainer M :=
  if (s.probe.thread.activeSpanByPhase phase).isSome ∨ (s.hookSpans phase).isSome then s
  else
    let (handle, t) := s.enter phase
    { t with hookSpans := Function.update s.hookSpans phase (some handle) }

def hookExit (s : Trainer M) (phase : Phase) : Trainer M :=
  { s with
    probe := s.probe.exits (s.hookSpans phase)
    hookSpans := Function.update s.hookSpans phase none }

/-- `hook_enter` of the backward on a thread of autograd, whose span is on no stack of this one. -/
def hookEnterElsewhere (s : Trainer M) (active : Bool) : Trainer M :=
  if active ∨ (s.hookSpans .backward).isSome then s
  else { s with
    probe := { s.probe with thread := { s.probe.thread with next := s.probe.thread.next + 1 } }
    hookSpans :=
      Function.update s.hookSpans .backward (some ⟨s.probe.thread.next, .backward, false⟩) }

def forwardPre (s : Trainer M) (training : Bool) : Trainer M :=
  if training then (s.hookExit .backward).hookEnter .forward else s

def forwardPost (s : Trainer M) (training : Bool) : Trainer M :=
  if training then s.hookExit .forward else s

def onOutputGrad (s : Trainer M) : Trainer M := s.hookEnter .backward

def stepPre (s : Trainer M) : Trainer M := (s.hookExit .backward).hookEnter .optimizer

def stepPost (s : Trainer M) : Trainer M := s.hookExit .optimizer

variable [DecidableEq M]

/-- The hooks of the probe, if it is installed. -/
def probing (s : Trainer M) (f : Probe M → Probe M) : Trainer M :=
  if s.installed then { s with probe := f s.probe } else s

/-- An optimizer span of the user is only written around a step. -/
def event (s : Trainer M) : Event M → Trainer M
  | .forwardPre training => s.forwardPre training
  | .forwardPost training => s.forwardPost training
  | .outputGrad => s.onOutputGrad
  | .outputGradElsewhere active => s.hookEnterElsewhere active
  | .forward post mod => s.probing (·.forwardHook post mod)
  | .setSamplingMode period layers => s.probing (·.setSamplingMode period layers)
  | .configure traceSpans period layers => s.probing (·.configure traceSpans period layers)
  | .enter phase =>
      if phase = .optimizer then s
      else
        let (handle, t) := s.enter phase
        { t with others := s.others ++ [handle] }
  | .exit k =>
      { s with probe := s.probe.exits s.others[k]?, others := s.others.eraseIdx k }

def preHooks (s : Trainer M) : Trainer M :=
  stepPre^[s.after] ((stepPre^[s.before] s).probing (·.preStepHook s.optimizer))

def postHooks (s : Trainer M) : Trainer M :=
  stepPost^[s.after] ((stepPost^[s.before] s).probing (·.postStepHook s.optimizer))

/-- The span that a user writes around a step. -/
def userEnter (s : Trainer M) (user : Bool) : Option Handle × Trainer M :=
  if user then
    let (handle, t) := s.enter .optimizer
    (some handle, t)
  else (none, s)

/-- `optimizer.step()`, with what happens inside it. -/
def optimizerStep (s : Trainer M) (user : Bool) (body : List (Event M)) : Trainer M :=
  let (handle, t) := s.userEnter user
  let t := (body.foldl event t.preHooks).postHooks
  { t with probe := t.probe.exits handle }

/-- Whether a tracker or the probe is there to advance the step. -/
def owned (s : Trainer M) : Bool :=
  0 < s.before + s.after ||
    s.installed && s.probe.enabled && s.probe.finalized && s.probe.traceSpans

def microStep (s : Trainer M) : ℕ := s.probe.thread.microStep

/-- The loop is about to begin, with a new probe. -/
def start (probe : Probe M) (installed : Bool) (before after : ℕ) (optimizer : M) : Trainer M where
  probe := { probe with ownsOptimizer := fun _ => 0 < before + after }
  installed := installed
  before := before
  after := after
  optimizer := optimizer
  hookSpans := fun _ => none
  others := []

end Trainer

/-- The loop with its steps: whether each was owned, and what the coordinate was before and after.
`strayed` is set when the coordinate changes between steps and the user did not call `step()`. -/
structure Training (M : Type) where
  trainer : Trainer M
  steps : List (Bool × ℕ × ℕ)
  strayed : Bool

/-- `advance` and `sync` are calls of `step()` by the user. -/
inductive Move (M : Type) where
  | event (event : Event M)
  | optimizerStep (user : Bool) (body : List (Event M))
  | advance
  | sync (value : ℕ)

namespace Training

variable {M : Type} [DecidableEq M]

def setMicroStep (s : Training M) (value : ℕ) : Training M :=
  { s with
    trainer := { s.trainer with
      probe := { s.trainer.probe with
        thread := { s.trainer.probe.thread with microStep := value } } } }

def step (s : Training M) : Move M → Option (Training M)
  | .event event =>
      let t := s.trainer.event event
      some { s with
        trainer := t
        strayed := s.strayed || t.microStep ≠ s.trainer.microStep }
  | .optimizerStep user body =>
      let t := s.trainer.optimizerStep user body
      some { s with
        trainer := t
        steps := s.steps ++ [(s.trainer.owned, s.trainer.microStep, t.microStep)] }
  | .advance => some (s.setMicroStep (s.trainer.microStep + 1))
  | .sync value => some (s.setMicroStep value)

/-- No step was made yet. -/
def start (probe : Probe M) (installed : Bool) (before after : ℕ) (optimizer : M) : Training M :=
  ⟨.start probe installed before after optimizer, [], false⟩

/-- Every step that is owned advances the coordinate by one, and nothing else does. -/
structure Good (s : Training M) : Prop where
  advanced : ∀ r ∈ s.steps, r.1 = true → r.2.2 = r.2.1 + 1
  strayed : s.strayed = false

end Training

end Probing.Profiling.TorchProbe
