import Mathlib.Data.List.Basic

/-!
# Spans

Every thread keeps two stacks, of spans and of crash hints; what is to be persisted of a span
waits in one table for all threads until the span is closed, unless an event forces its start row
out early. Calls move one access at a time, where the accesses of a thread to its own stacks and
to a span that no other thread knows are one. Span numbers are unbounded.
-/

namespace Probing.Tracing

inductive Phase where
  | forward
  | backward
  | optimizer
  deriving DecidableEq

/-- A row of the backend, with the span that it carries. -/
inductive Row where
  | start (span : ℕ)
  | end (span : ℕ)
  | event (span : ℕ)
  deriving DecidableEq

/-- Where a call is: `add_event` of the bindings and the four accesses of `_persist_event` to the
span, or the end of `__exit__`. -/
inductive Call where
  | idle
  | addEvent (span : ℕ)
  | persistEvent (span : ℕ)
  | recordSpanStart (span : ℕ)
  | getState (span : ℕ)
  | setPersisted (span : ℕ)
  | recordEvent (span : ℕ)
  | popState (span : ℕ)
  | persistOnClose (span : ℕ)
  deriving DecidableEq

/-- A `_RecordedSpan` that was entered. -/
structure RecordedSpan where
  span : ℕ
  reentrant : Bool
  exited : Bool
  deriving DecidableEq

/-- The parent that a new span was given, and the innermost span that had been entered on its
thread and had not ended. -/
structure Created where
  parent : Option ℕ
  innermost : Option ℕ
  deriving DecidableEq

/-- `deferred` tells which spans are in `_DEFERRED`, and `start_persisted` is the field of what is
there. No branch reads the last two fields: the spans that each thread has entered, the latest
first, and the parents that new spans were given. -/
structure State (T : Type) where
  enabled : Bool
  next : ℕ
  phases : ℕ → Option Phase
  ended : ℕ → Bool
  spans : T → List ℕ
  hints : T → List ℕ
  deferred : ℕ → Bool
  startPersisted : ℕ → Bool
  rows : List Row
  handles : List RecordedSpan
  calls : T → Call
  entered : T → List ℕ
  created : List Created

inductive Action (T : Type) where
  | enter (a : T) (phase : Option Phase)
  | exit (a : T) (handle : ℕ)
  | event (a : T)
  | addEvent (a : T) (span : ℕ)
  | recordSpan (a : T)
  | step (a : T)
  deriving DecidableEq

/-- The span is taken off a stack, whose head is its top. -/
def popSpan (stack : List ℕ) (span : ℕ) : List ℕ :=
  if stack.head? = some span then stack.tail else stack.erase span

namespace State

variable {T : Type} [DecidableEq T]

def new (enabled : Bool) : State T where
  enabled := enabled
  next := 0
  phases := fun _ => none
  ended := fun _ => false
  spans := fun _ => []
  hints := fun _ => []
  deferred := fun _ => false
  startPersisted := fun _ => false
  rows := []
  handles := []
  calls := fun _ => .idle
  entered := fun _ => []
  created := []

def goto (s : State T) (a : T) (c : Call) : State T :=
  { s with calls := Function.update s.calls a c }

def currentSpan (s : State T) (a : T) : Option ℕ := (s.spans a).head?

def activeSpanForEvents (s : State T) (a : T) : Option ℕ :=
  (s.spans a).find? fun span => !s.ended span

def activeSpanByPhase (s : State T) (a : T) (phase : Phase) : Option ℕ :=
  (s.spans a).find? fun span => !s.ended span && s.phases span = some phase

/-- The innermost span that the thread has entered and that has not ended. -/
def innermost (s : State T) (a : T) : Option ℕ := (s.entered a).find? fun span => !s.ended span

/-- `_spawn_span`. -/
def spawnSpan (s : State T) (a : T) (phase : Option Phase) : State T :=
  { s with
    next := s.next + 1
    phases := Function.update s.phases s.next phase
    created := s.created ++ [⟨s.currentSpan a, s.innermost a⟩] }

/-- `Span::__enter__` of the span that was spawned, and its state in `_DEFERRED`. -/
def enters (s : State T) (a : T) (span : ℕ) : State T :=
  { s with
    hints := Function.update s.hints a (span :: s.hints a)
    spans := Function.update s.spans a (span :: s.spans a)
    deferred := Function.update s.deferred span s.enabled
    handles := s.handles ++ [⟨span, false, false⟩]
    entered := Function.update s.entered a (span :: s.entered a) }

/-- `_RecordedSpan.__enter__`. -/
def enter (s : State T) (a : T) (phase : Option Phase) : State T :=
  match if phase = some .optimizer then s.activeSpanByPhase a .optimizer else none with
  | some existing => { s with handles := s.handles ++ [⟨existing, true, false⟩] }
  | none => (s.spawnSpan a phase).enters a s.next

/-- `Span::__exit__`. -/
def exits (s : State T) (a : T) (span : ℕ) : State T :=
  { s with
    ended := Function.update s.ended span true
    hints := Function.update s.hints a (popSpan (s.hints a) span)
    spans := Function.update s.spans a (popSpan (s.spans a) span) }

/-- `_RecordedSpan.__exit__`, up to the table of all threads. -/
def exit (s : State T) (a : T) (handle : ℕ) (recorded : RecordedSpan) : State T :=
  let s' := { s with handles := s.handles.set handle { recorded with exited := true } }
  if recorded.reentrant then s' else (s'.exits a recorded.span).goto a (.popState recorded.span)

def recordSpan (s : State T) (a : T) : State T :=
  if s.enabled then
    { s.spawnSpan a none with rows := s.rows ++ [.start s.next, .end s.next] }
  else s

/-- One access of an event or of the end of `__exit__`. -/
def advance (s : State T) (a : T) : Call → Option (State T)
  | .idle => none
  | .addEvent span => some (s.goto a (if s.ended span then .idle else .persistEvent span))
  | .persistEvent span =>
      some (s.goto a (if ¬ s.enabled then .idle
        else if s.deferred span ∧ ¬ s.startPersisted span then .recordSpanStart span
        else .recordEvent span))
  | .recordSpanStart span =>
      some { s.goto a (.getState span) with rows := s.rows ++ [.start span] }
  | .getState span =>
      some (s.goto a (if s.deferred span then .setPersisted span else .recordEvent span))
  | .setPersisted span =>
      some { s.goto a (.recordEvent span) with
        startPersisted := Function.update s.startPersisted span true }
  | .recordEvent span => some { s.goto a .idle with rows := s.rows ++ [.event span] }
  | .popState span =>
      some (if s.deferred span then
        { s.goto a (.persistOnClose span) with
          deferred := Function.update s.deferred span false }
      else s.goto a .idle)
  | .persistOnClose span =>
      some { s.goto a .idle with
        rows := s.rows ++ if ¬ s.enabled then [] else if s.startPersisted span then [.end span]
          else [.start span, .end span] }

/-- A thread starts a call, or goes on with one. A handle is exited once. -/
def step (s : State T) : Action T → Option (State T)
  | .enter a phase => if s.calls a = .idle then some (s.enter a phase) else none
  | .exit a handle =>
      match s.handles[handle]? with
      | some recorded =>
          if s.calls a = .idle ∧ recorded.exited = false then some (s.exit a handle recorded)
          else none
      | none => none
  | .event a =>
      if s.calls a = .idle then
        match (s.activeSpanForEvents a).or (s.currentSpan a) with
        | some span => some (if s.ended span then s else s.goto a (.addEvent span))
        | none => some s
      else none
  | .addEvent a span =>
      if s.calls a = .idle ∧ span < s.next then some (s.goto a (.addEvent span)) else none
  | .recordSpan a => if s.calls a = .idle then some (s.recordSpan a) else none
  | .step a => s.advance a (s.calls a)

end State

end Probing.Tracing
