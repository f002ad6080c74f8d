import Mathlib.Data.List.Nodup
import Probing.Server.Supervisor

/-!
# Calls on the supervisor, and what is remembered of them

Each call is one step under the lock of its slot. The record beside a slot holds what its state
alone cannot say: the key requested last, the generation bound last, and the generations that
are no longer held.
-/

namespace Probing.Server

/-- The generations dropped so far, after the held ones changed from `old` to `new`. -/
def retire (dropped old new : List ℕ) : List ℕ := dropped ++ old.filter (· ∉ new)

theorem mem_retire {dropped old new : List ℕ} {g : ℕ} :
    g ∈ retire dropped old new ↔ g ∈ dropped ∨ (g ∈ old ∧ g ∉ new) := by
  simp [retire]

/-- Every generation given out is at most `next`, and a dropped one is not held again. -/
structure Fresh (next : ℕ) (held dropped : List ℕ) : Prop where
  held_le : ∀ g ∈ held, g ≤ next
  dropped_le : ∀ g ∈ dropped, g ≤ next
  gone : ∀ g ∈ dropped, g ∉ held
  nodup : held.Nodup

theorem Fresh.retire {next next' : ℕ} {old new dropped : List ℕ} (h : Fresh next old dropped)
    (hnext : next ≤ next') (hnew : ∀ g ∈ new, g ∈ old ∨ (next < g ∧ g ≤ next'))
    (hnodup : new.Nodup) : Fresh next' new (retire dropped old new) where
  held_le g hg := by
    obtain hg | hg := hnew g hg
    · exact (h.held_le g hg).trans hnext
    · exact hg.2
  dropped_le g hg := by
    obtain hg | hg := mem_retire.1 hg
    · exact (h.dropped_le g hg).trans hnext
    · exact (h.held_le g hg.1).trans hnext
  gone g hg hheld := by
    obtain hdropped | hdropped := mem_retire.1 hg
    · obtain hold | hlater := hnew g hheld
      · exact h.gone g hdropped hold
      · have := h.dropped_le g hdropped
        omega
    · exact hdropped.2 hheld
  nodup := hnodup

theorem Fresh.sublist {next : ℕ} {old new dropped : List ℕ} (h : Fresh next old dropped)
    (hnew : new.Sublist old) : Fresh next new (Server.retire dropped old new) :=
  h.retire le_rfl (fun _ hg => .inl (hnew.subset hg)) (h.nodup.sublist hnew)

/-- What the state says of the tasks held in the slot. -/
def ComponentState.Reports (held : List ManagedTask) : ComponentState → Prop
  | .Starting generation key => ∃ task ∈ held, task.generation = generation ∧ task.key = key
  | .Running generation key => ∃ task ∈ held, task.generation = generation ∧ task.key = key
  | .Stopped => ∀ task ∈ held, task.finished = true
  | .Failed _ _ _ => ∀ task ∈ held, task.finished = true

def generations (held : List ManagedTask) : List ℕ := held.map (·.generation)

theorem mem_generations {held : List ManagedTask} {g : ℕ} :
    g ∈ generations held ↔ ∃ task ∈ held, task.generation = g := by
  simp [generations]

/-- The task of generation `g` is held and its future has returned: it takes no step. -/
def taskOver (held : List ManagedTask) (g : ℕ) : Bool :=
  held.any fun task => task.generation == g && task.finished

/-- The slot of the remote listener and its record. -/
structure RemoteListener where
  slot : RemoteListenerSlot
  /-- The key of the last start request since the last shutdown. -/
  requested : Option String
  /-- The candidate for that key ended before it was bound, or was not spawned. -/
  failed : Bool
  /-- The generation bound last. -/
  bound : Option ℕ
  dropped : List ℕ
  deriving DecidableEq

namespace RemoteListener

def new : RemoteListener := ⟨.default, none, false, none, []⟩

variable (t : RemoteListener)

/-- The record after the slot became `slot`. -/
def moved (slot : RemoteListenerSlot) (requested : Option String) (failed : Bool)
    (bound : Option ℕ) : RemoteListener :=
  ⟨slot, requested, failed, bound,
    retire t.dropped (generations t.slot.held) (generations slot.held)⟩

inductive Call where
  | startRemoteListener (key : String) (spawn_error : Option String)
  | promoteRemoteListener (generation : ℕ)
  | remoteListenerFinished (generation : ℕ) (error : Option String)
  | shutdown
  | ended (generation : ℕ)

/-- The task of generation `g` is the candidate. -/
def trying (g : ℕ) : Bool := t.slot.candidate.any (·.generation == g)

/-- One call, whoever makes it; a task whose future has returned makes none. -/
def step : Call → Option RemoteListener
  | .startRemoteListener key spawn_error =>
      some (t.moved (t.slot.startRemoteListener key spawn_error) (some key)
        (!t.slot.already key && spawn_error.isSome) t.bound)
  | .promoteRemoteListener g =>
      if taskOver t.slot.held g then none
      else
        let answer := t.slot.promoteRemoteListener g
        some (t.moved answer.1 t.requested t.failed (if answer.2 then some g else t.bound))
  | .remoteListenerFinished g error =>
      if taskOver t.slot.held g then none
      else
        some (t.moved (t.slot.remoteListenerFinished g error) t.requested
          (t.failed || t.trying g) t.bound)
  | .shutdown => some (t.moved t.slot.shutdown none false none)
  | .ended g => some (t.moved (t.slot.ended g) t.requested (t.failed || t.trying g) t.bound)

/-- A step that carries `g` changes nothing. -/
def Ignores (slot : RemoteListenerSlot) (g : ℕ) : Prop :=
  slot.promoteRemoteListener g = (slot, false) ∧
    ∀ error, slot.remoteListenerFinished g error = slot

/-- Only the task for the key requested last can become active; the active one serves it, or
is the one bound last while that task is still trying or after it failed. -/
structure FollowsRequests : Prop where
  candidate : ∀ task, t.slot.candidate = some task → task.finished = false →
    t.requested = some task.key
  bound : ∀ task, t.slot.active = some task → t.bound = some task.generation
  active : ∀ task, t.slot.active = some task → t.requested = some task.key ∨ t.failed = true ∨
    ∃ next, t.slot.candidate = some next ∧ next.finished = false ∧ t.requested = some next.key

/-- What the slot promises in every state. -/
structure Orderly : Prop where
  reports : t.slot.state.Reports t.slot.held
  unheld : ∀ g, (∀ task ∈ t.slot.held, task.generation ≠ g) → Ignores t.slot g
  dropped : ∀ g ∈ t.dropped, Ignores t.slot g
  requests : t.FollowsRequests

/-- A candidate that is still binding. -/
def binding : Bool := t.slot.candidate.any (!·.finished)

/-- The calls after which the slot keeps its promise: a start for the key that is active finds
no candidate for another key; a spawn fails only while no listener serves; the active listener
finishes only while no candidate is binding; and generations do not wrap. -/
def Clear : Call → Prop
  | .startRemoteListener key spawn_error =>
      if t.slot.already key then
        t.slot.active.any (·.serves key) →
          t.slot.candidate.all fun task => task.finished || task.key == key
      else
        t.slot.nextGeneration + 1 < 2 ^ 64 ∧
          (spawn_error.isSome → t.slot.active.all (·.finished))
  | .promoteRemoteListener _ => True
  | .remoteListenerFinished g _ =>
      t.slot.active.any (·.generation == g) → t.binding → t.trying g
  | .shutdown => t.slot.nextGeneration + 1 < 2 ^ 64
  | .ended _ => True

instance (call : Call) : Decidable (t.Clear call) := by
  cases call <;> unfold Clear <;> infer_instance

end RemoteListener

/-- The slot of a replaceable component and its record. -/
structure Component where
  slot : ReplaceableTaskSlot
  /-- The key of the last start request since the last stop. -/
  requested : Option String
  dropped : List ℕ
  deriving DecidableEq

namespace Component

def new : Component := ⟨.default, none, []⟩

variable (t : Component)

def moved (slot : ReplaceableTaskSlot) (requested : Option String) : Component :=
  ⟨slot, requested, retire t.dropped (generations t.slot.held) (generations slot.held)⟩

inductive Call where
  | startComponent (key : String) (spawn_error : Option String)
  | markComponentRunning (generation : ℕ)
  | componentFinished (generation : ℕ) (error : Option String)
  | stopComponent
  | ended (generation : ℕ)

def step : Call → Option Component
  | .startComponent key spawn_error =>
      some (t.moved (t.slot.startComponent key spawn_error) (some key))
  | .markComponentRunning g =>
      if taskOver t.slot.held g then none
      else some (t.moved (t.slot.markComponentRunning g) t.requested)
  | .componentFinished g error =>
      if taskOver t.slot.held g then none
      else some (t.moved (t.slot.componentFinished g error) t.requested)
  | .stopComponent => some (t.moved t.slot.stopComponent none)
  | .ended g => some (t.moved (t.slot.ended g) t.requested)

def Ignores (slot : ReplaceableTaskSlot) (g : ℕ) : Prop :=
  slot.markComponentRunning g = slot ∧ ∀ error, slot.componentFinished g error = slot

structure Orderly : Prop where
  reports : t.slot.state.Reports t.slot.held
  unheld : ∀ g, (∀ task ∈ t.slot.held, task.generation ≠ g) → Ignores t.slot g
  dropped : ∀ g ∈ t.dropped, Ignores t.slot g
  requests : ∀ task, t.slot.active = some task → t.requested = some task.key

/-- Generations do not wrap. -/
def Clear : Call → Prop
  | .startComponent key _ =>
      t.slot.active.any (·.serves key) ∨ t.slot.nextGeneration + 1 < 2 ^ 64
  | .stopComponent => t.slot.nextGeneration + 1 < 2 ^ 64
  | _ => True

instance (call : Call) : Decidable (t.Clear call) := by
  cases call <;> unfold Clear <;> infer_instance

end Component

inductive ManagedComponent where
  | LocalListener
  | ReportWorker
  | TorchrunCluster
  deriving DecidableEq

/-- The supervisor: `lock_component` is the slot behind each lock. -/
structure ServerSupervisor where
  remoteListener : RemoteListener
  lockComponent : ManagedComponent → Component

namespace ServerSupervisor

def new : ServerSupervisor := ⟨.new, fun _ => .new⟩

/-- One lock section. A `shutdown` is four of them, one for each slot. -/
inductive Call where
  | remote (call : RemoteListener.Call)
  | component (component : ManagedComponent) (call : Component.Call)

def step (s : ServerSupervisor) : Call → Option ServerSupervisor
  | .remote call => (s.remoteListener.step call).map fun t => { s with remoteListener := t }
  | .component c call => ((s.lockComponent c).step call).map fun t =>
      { s with lockComponent := Function.update s.lockComponent c t }

structure Orderly (s : ServerSupervisor) : Prop where
  remote : s.remoteListener.Orderly
  component : ∀ c, (s.lockComponent c).Orderly

def Clear (s : ServerSupervisor) : Call → Prop
  | .remote call => s.remoteListener.Clear call
  | .component c call => (s.lockComponent c).Clear call

instance (s : ServerSupervisor) (call : Call) : Decidable (s.Clear call) := by
  cases call <;> unfold Clear <;> infer_instance

end ServerSupervisor

end Probing.Server
