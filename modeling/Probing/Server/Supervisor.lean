import Mathlib.Algebra.Order.Ring.Int

/-!
# Slots of the server supervisor

A slot owns the tasks of one long-running component and reports its state. The remote listener
has a second place, for a candidate that is still binding while the old listener serves.
-/

namespace Probing.Server

inductive ComponentState where
  | Stopped
  | Starting (generation : ℕ) (key : String)
  | Running (generation : ℕ) (key : String)
  | Failed (generation : ℕ) (key error : String)
  deriving DecidableEq

/-- A task the slot holds; `finished` is `handle.is_finished()`. -/
structure ManagedTask where
  generation : ℕ
  key : String
  finished : Bool
  deriving DecidableEq

structure RemoteListenerSlot where
  nextGeneration : ℕ
  active : Option ManagedTask
  candidate : Option ManagedTask
  state : ComponentState
  deriving DecidableEq

structure ReplaceableTaskSlot where
  nextGeneration : ℕ
  active : Option ManagedTask
  state : ComponentState
  deriving DecidableEq

def RemoteListenerSlot.default : RemoteListenerSlot := ⟨0, none, none, .Stopped⟩

def ReplaceableTaskSlot.default : ReplaceableTaskSlot := ⟨0, none, .Stopped⟩

/-- `next_generation.wrapping_add(1).max(1)` on 64 bits. -/
def bump (nextGeneration : ℕ) : ℕ := max ((nextGeneration + 1) % 2 ^ 64) 1

theorem bump_eq {nextGeneration : ℕ} (h : nextGeneration + 1 < 2 ^ 64) :
    bump nextGeneration = nextGeneration + 1 := by
  rw [bump, Nat.mod_eq_of_lt h]
  omega

def transition (state next : ComponentState) : ComponentState :=
  if state ≠ next then next else state

@[simp] theorem transition_eq (state next : ComponentState) : transition state next = next := by
  by_cases h : state = next <;> simp [transition, h]

def completionState (task : ManagedTask) : Option String → ComponentState
  | some error => .Failed task.generation task.key error
  | none => .Stopped

/-- The task serves `key` and its handle is not finished. -/
def ManagedTask.serves (task : ManagedTask) (key : String) : Bool :=
  task.key == key && !task.finished

theorem ManagedTask.serves_iff {task : ManagedTask} {key : String} :
    task.serves key = true ↔ task.key = key ∧ task.finished = false := by
  simp [serves]

/-- The handle of the task of `generation` becomes finished. -/
def ManagedTask.ended (task : ManagedTask) (generation : ℕ) : ManagedTask :=
  { task with finished := task.finished || task.generation == generation }

@[simp] theorem ManagedTask.ended_generation (task : ManagedTask) (generation : ℕ) :
    (task.ended generation).generation = task.generation := rfl

@[simp] theorem ManagedTask.ended_key (task : ManagedTask) (generation : ℕ) :
    (task.ended generation).key = task.key := rfl

namespace RemoteListenerSlot

variable (slot : RemoteListenerSlot)

/-- The early return of a start: the key is active already, or starting. -/
def already (key : String) : Bool :=
  slot.active.any (·.serves key) || slot.candidate.any (·.serves key)

/-- `spawn_error` is the answer of the runtime to the spawn of the task. -/
def startRemoteListener (key : String) (spawn_error : Option String) : RemoteListenerSlot :=
  if slot.already key then slot
  else
    let generation := bump slot.nextGeneration
    let state := transition slot.state (.Starting generation key)
    match spawn_error with
    | some error =>
        { slot with
          nextGeneration := generation
          candidate := none
          state := transition state (.Failed generation key error) }
    | none =>
        { slot with
          nextGeneration := generation
          candidate := some ⟨generation, key, false⟩
          state }

def promoteRemoteListener (generation : ℕ) : RemoteListenerSlot × Bool :=
  match slot.candidate with
  | none => (slot, false)
  | some candidate =>
      if candidate.generation ≠ generation then (slot, false)
      else
        ({ slot with
            active := some candidate
            candidate := none
            state := transition slot.state (.Running generation candidate.key) }, true)

def remoteListenerFinished (generation : ℕ) (error : Option String) : RemoteListenerSlot :=
  match slot.candidate, slot.active with
  | some candidate, some active =>
      if candidate.generation = generation then
        { slot with
          candidate := none
          state := transition slot.state (.Running active.generation active.key) }
      else if active.generation = generation then
        { slot with
          active := none
          state := transition slot.state (completionState active error) }
      else slot
  | some candidate, none =>
      if candidate.generation = generation then
        { slot with
          candidate := none
          state := transition slot.state (completionState candidate error) }
      else slot
  | none, some active =>
      if active.generation = generation then
        { slot with
          active := none
          state := transition slot.state (completionState active error) }
      else slot
  | none, none => slot

def shutdown : RemoteListenerSlot :=
  ⟨bump slot.nextGeneration, none, none, transition slot.state .Stopped⟩

/-- The tasks held in the slot, in either place. -/
def held : List ManagedTask := slot.active.toList ++ slot.candidate.toList

theorem mem_held {task : ManagedTask} :
    task ∈ slot.held ↔ slot.active = some task ∨ slot.candidate = some task := by
  simp [held]

/-- A task of the slot whose future ended without its finish step, as after a panic. -/
def ended (generation : ℕ) : RemoteListenerSlot :=
  { slot with
    active := slot.active.map (·.ended generation)
    candidate := slot.candidate.map (·.ended generation) }

end RemoteListenerSlot

namespace ReplaceableTaskSlot

variable (slot : ReplaceableTaskSlot)

def startComponent (key : String) (spawn_error : Option String) : ReplaceableTaskSlot :=
  if slot.active.any (·.serves key) then slot
  else
    let generation := bump slot.nextGeneration
    let state := transition slot.state (.Starting generation key)
    match spawn_error with
    | some error => ⟨generation, none, transition state (.Failed generation key error)⟩
    | none => ⟨generation, some ⟨generation, key, false⟩, state⟩

def stopComponent : ReplaceableTaskSlot :=
  ⟨bump slot.nextGeneration, none, transition slot.state .Stopped⟩

def markComponentRunning (generation : ℕ) : ReplaceableTaskSlot :=
  let key := (slot.active.filter (·.generation = generation)).map (·.key)
  match key with
  | some key => { slot with state := transition slot.state (.Running generation key) }
  | none => slot

def componentFinished (generation : ℕ) (error : Option String) : ReplaceableTaskSlot :=
  match slot.active with
  | some active =>
      if active.generation = generation then
        { slot with
          active := none
          state := transition slot.state (completionState active error) }
      else slot
  | none => slot

def held : List ManagedTask := slot.active.toList

theorem mem_held {task : ManagedTask} : task ∈ slot.held ↔ slot.active = some task := by
  simp [held]

def ended (generation : ℕ) : ReplaceableTaskSlot :=
  { slot with active := slot.active.map (·.ended generation) }

end ReplaceableTaskSlot

end Probing.Server
