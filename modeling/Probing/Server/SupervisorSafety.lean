import Probing.Core.Run
import Probing.Server.SupervisorRun

/-!
# The supervisor keeps its promises over every clear run

One lemma for each call on a slot, and from them the run.
-/

namespace Probing.Server

open Probing.Core

namespace RemoteListener

/-- The invariant behind `Orderly`. -/
structure Sound (t : RemoteListener) : Prop where
  reports : t.slot.state.Reports t.slot.held
  fresh : Fresh t.slot.nextGeneration (generations t.slot.held) t.dropped
  requests : t.FollowsRequests

theorem ignores_of_unheld {slot : RemoteListenerSlot} {g : ℕ}
    (h : ∀ task ∈ slot.held, task.generation ≠ g) : Ignores slot g := by
  obtain ⟨next, active, candidate, state⟩ := slot
  have hactive : ∀ task, active = some task → task.generation ≠ g := fun task ht =>
    h task ((RemoteListenerSlot.mem_held _).mpr (.inl ht))
  have hcandidate : ∀ task, candidate = some task → task.generation ≠ g := fun task ht =>
    h task ((RemoteListenerSlot.mem_held _).mpr (.inr ht))
  constructor
  · cases candidate with
    | none => rfl
    | some task => simp [RemoteListenerSlot.promoteRemoteListener, hcandidate task rfl]
  · intro error
    cases candidate with
    | none =>
        cases active with
        | none => rfl
        | some a => simp [RemoteListenerSlot.remoteListenerFinished, hactive a rfl]
    | some c =>
        cases active with
        | none => simp [RemoteListenerSlot.remoteListenerFinished, hcandidate c rfl]
        | some a =>
            simp [RemoteListenerSlot.remoteListenerFinished, hcandidate c rfl, hactive a rfl]

variable {t : RemoteListener}

theorem Sound.orderly (h : t.Sound) : t.Orderly where
  reports := h.reports
  unheld _ hg := ignores_of_unheld hg
  dropped g hg := ignores_of_unheld fun _ htask heq =>
    h.fresh.gone g hg (mem_generations.mpr ⟨_, htask, heq⟩)
  requests := h.requests

theorem new_sound : RemoteListener.new.Sound where
  reports := by simp [new, RemoteListenerSlot.default, RemoteListenerSlot.held,
    ComponentState.Reports]
  fresh := by constructor <;> simp [new, RemoteListenerSlot.default, RemoteListenerSlot.held,
    generations]
  requests := by constructor <;> simp [new, RemoteListenerSlot.default]

/-- A call that leaves the slot as it is. -/
theorem Sound.same (h : t.Sound) : (t.moved t.slot t.requested t.failed t.bound).Sound where
  reports := h.reports
  fresh := h.fresh.sublist (List.Sublist.refl _)
  requests := ⟨h.requests.candidate, h.requests.bound, h.requests.active⟩

/-- A start that goes through leaves at most the active task and the new one. -/
theorem fresh_started {slot : RemoteListenerSlot} {requested : Option String} {failed : Bool}
    {bound : Option ℕ} (h : t.Sound) (hwrap : t.slot.nextGeneration + 1 < 2 ^ 64)
    (hnext : slot.nextGeneration = bump t.slot.nextGeneration)
    (hactive : slot.active = t.slot.active ∨ slot.active = none)
    (hcandidate : ∀ task, slot.candidate = some task →
      task.generation = bump t.slot.nextGeneration) :
    Fresh slot.nextGeneration (generations slot.held)
      (t.moved slot requested failed bound).dropped := by
  rw [bump_eq hwrap] at hnext hcandidate
  have hold : ∀ task, slot.active = some task →
      task.generation ∈ generations t.slot.held := by
    intro task ht
    obtain heq | heq := hactive
    · exact mem_generations.mpr ⟨task, (t.slot.mem_held).mpr (.inl (heq ▸ ht)), rfl⟩
    · exact absurd ht (by simp [heq])
  refine h.fresh.retire (by omega) ?_ ?_
  · intro g hg
    obtain ⟨task, htask, rfl⟩ := mem_generations.mp hg
    obtain ha | hc := (slot.mem_held).mp htask
    · exact .inl (hold task ha)
    · have := hcandidate task hc
      exact .inr (by omega)
  · cases ha : slot.active with
    | none => cases hc : slot.candidate <;> simp [generations, RemoteListenerSlot.held, ha, hc]
    | some a =>
        have hle := h.fresh.held_le _ (hold a ha)
        cases hc : slot.candidate with
        | none => simp [generations, RemoteListenerSlot.held, ha, hc]
        | some c =>
            have := hcandidate c hc
            simp only [generations, RemoteListenerSlot.held, ha, hc, Option.toList_some,
              List.cons_append, List.nil_append, List.map_cons, List.map_nil,
              List.nodup_cons, List.mem_singleton, List.not_mem_nil, not_false_iff,
              List.nodup_nil, and_true]
            omega

/-- The early return: the active listener serves the key, or the candidate will. -/
theorem Sound.already (h : t.Sound) {key : String} (halready : t.slot.already key = true)
    (hclear : t.slot.active.any (·.serves key) = true →
      t.slot.candidate.all (fun task => task.finished || task.key == key) = true) :
    (t.moved t.slot (some key) false t.bound).Sound where
  reports := h.reports
  fresh := h.fresh.sublist (List.Sublist.refl _)
  requests := by
    have hkey : t.slot.active.any (·.serves key) = true ∨
        t.slot.candidate.any (·.serves key) = true := by
      simpa [RemoteListenerSlot.already] using halready
    constructor
    · intro task htask hlive
      change t.slot.candidate = some task at htask
      obtain hactive | hcandidate := hkey
      · have := hclear hactive
        simp only [htask, Option.all_some, hlive, Bool.false_or, beq_iff_eq] at this
        exact congrArg some this.symm
      · simp only [htask, Option.any_some, ManagedTask.serves_iff] at hcandidate
        exact congrArg some hcandidate.1.symm
    · exact h.requests.bound
    · intro task htask
      change t.slot.active = some task at htask
      obtain hactive | hcandidate := hkey
      · simp only [htask, Option.any_some, ManagedTask.serves_iff] at hactive
        exact .inl (congrArg some hactive.1.symm)
      · obtain ⟨next, hnext, hserves⟩ := (Option.any_eq_true _ _).mp hcandidate
        obtain ⟨hnextkey, hlive⟩ := ManagedTask.serves_iff.mp hserves
        exact .inr (.inr ⟨next, hnext, hlive, congrArg some hnextkey.symm⟩)

theorem Sound.start (h : t.Sound) {key : String} {spawn_error : Option String}
    (hclear : t.Clear (.startRemoteListener key spawn_error)) :
    (t.moved (t.slot.startRemoteListener key spawn_error) (some key)
      (!t.slot.already key && spawn_error.isSome) t.bound).Sound := by
  cases halready : t.slot.already key with
  | true =>
      simp only [Clear, halready, if_true] at hclear
      simpa [RemoteListenerSlot.startRemoteListener, halready] using h.already halready hclear
  | false =>
      simp only [Clear, halready, Bool.false_eq_true, if_false] at hclear
      obtain ⟨hwrap, hserving⟩ := hclear
      cases spawn_error with
      | none =>
          simp only [RemoteListenerSlot.startRemoteListener, halready, Bool.false_eq_true,
            if_false, Bool.not_false, Option.isSome_none, Bool.and_false, transition_eq]
          constructor
          · exact ⟨_, (RemoteListenerSlot.mem_held _).mpr (.inr rfl), rfl, rfl⟩
          · exact fresh_started h hwrap rfl (.inl rfl) fun task ht => by
              simp only [moved, Option.some.injEq] at ht
              rw [← ht]
          · constructor
            · intro task htask _
              simp only [moved, Option.some.injEq] at htask
              exact congrArg some (htask ▸ rfl)
            · exact h.requests.bound
            · intro task _
              exact .inr (.inr ⟨_, rfl, rfl, rfl⟩)
      | some error =>
          simp only [RemoteListenerSlot.startRemoteListener, halready, Bool.false_eq_true,
            if_false, Bool.not_false, Option.isSome_some, Bool.and_true, transition_eq]
          constructor
          · -- the error is reported while nothing serves
            intro task htask
            obtain ha | hc := (RemoteListenerSlot.mem_held _).mp htask
            · have := hserving rfl
              rw [show t.slot.active = some task from ha] at this
              simpa using this
            · exact (nomatch hc)
          · exact fresh_started h hwrap rfl (.inl rfl) fun task ht => (nomatch ht)
          · constructor
            · exact fun task htask => (nomatch htask)
            · exact h.requests.bound
            · exact fun task _ => .inr (.inl rfl)

theorem Sound.promote (h : t.Sound) {g : ℕ} (hover : taskOver t.slot.held g = false) :
    (t.moved (t.slot.promoteRemoteListener g).1 t.requested t.failed
      (if (t.slot.promoteRemoteListener g).2 then some g else t.bound)).Sound := by
  cases hc : t.slot.candidate with
  | none =>
      simp only [RemoteListenerSlot.promoteRemoteListener, hc, Bool.false_eq_true, if_false]
      exact h.same
  | some c =>
      by_cases hg : c.generation = g
      · have hlive : c.finished = false := by
          have hmem : c ∈ t.slot.held := (t.slot.mem_held).mpr (.inr hc)
          simpa [hg] using List.any_eq_false.mp hover c hmem
        simp only [RemoteListenerSlot.promoteRemoteListener, hc, hg, ne_eq, not_true_eq_false,
          if_false, if_true, transition_eq]
        constructor
        · exact ⟨c, (RemoteListenerSlot.mem_held _).mpr (.inl rfl), hg, rfl⟩
        · apply h.fresh.sublist
          simp [generations, RemoteListenerSlot.held, moved, hc]
        · constructor
          · exact fun task htask => (by cases htask)
          · intro task htask
            simp only [moved, Option.some.injEq] at htask
            rw [← htask, hg]
            rfl
          · intro task htask
            simp only [moved, Option.some.injEq] at htask
            exact .inl (htask ▸ h.requests.candidate c hc hlive)
      · simp only [RemoteListenerSlot.promoteRemoteListener, hc, hg, ne_eq, not_false_eq_true,
          if_true, Bool.false_eq_true, if_false]
        exact h.same

theorem completion_reports (task : ManagedTask) (error : Option String)
    {held : List ManagedTask} (h : ∀ task ∈ held, task.finished = true) :
    (completionState task error).Reports held := by
  cases error <;> exact h

/-- The candidate ends: the listener bound last serves on. -/
theorem Sound.candidate_finished (h : t.Sound) {c : ManagedTask} {error : Option String}
    (hc : t.slot.candidate = some c) :
    (t.moved (t.slot.remoteListenerFinished c.generation error) t.requested true
      t.bound).Sound := by
  have hrequests : ∀ state, (t.moved { t.slot with candidate := none, state } t.requested true
      t.bound).FollowsRequests := fun state =>
    ⟨fun task htask => (nomatch htask), h.requests.bound, fun task _ => .inr (.inl rfl)⟩
  have hfresh : (generations { t.slot with candidate := none }.held).Sublist
      (generations t.slot.held) := by
    simp [generations, RemoteListenerSlot.held]
  cases ha : t.slot.active with
  | none =>
      have hslot : t.slot.remoteListenerFinished c.generation error =
          { t.slot with candidate := none, state := completionState c error } := by
        simp [RemoteListenerSlot.remoteListenerFinished, hc, ha]
      rw [hslot]
      refine ⟨completion_reports c error ?_, h.fresh.sublist hfresh, hrequests _⟩
      intro task htask
      simp [moved, RemoteListenerSlot.held, ha] at htask
  | some a =>
      have hslot : t.slot.remoteListenerFinished c.generation error =
          { t.slot with candidate := none, state := .Running a.generation a.key } := by
        simp [RemoteListenerSlot.remoteListenerFinished, hc, ha]
      rw [hslot]
      exact ⟨⟨a, (RemoteListenerSlot.mem_held _).mpr (.inl ha), rfl, rfl⟩,
        h.fresh.sublist hfresh, hrequests _⟩

/-- The active listener ends while nothing is binding. -/
theorem Sound.active_finished (h : t.Sound) {a : ManagedTask} {error : Option String}
    (ha : t.slot.active = some a) (htrying : t.trying a.generation = false)
    (hbinding : t.binding = false) :
    (t.moved (t.slot.remoteListenerFinished a.generation error) t.requested t.failed
      t.bound).Sound := by
  have hslot : t.slot.remoteListenerFinished a.generation error =
      { t.slot with active := none, state := completionState a error } := by
    cases hc : t.slot.candidate with
    | none => simp [RemoteListenerSlot.remoteListenerFinished, hc, ha]
    | some c =>
        have hne : c.generation ≠ a.generation := by simpa [trying, hc] using htrying
        simp [RemoteListenerSlot.remoteListenerFinished, hc, ha, hne]
  rw [hslot]
  constructor
  · apply completion_reports
    intro task htask
    obtain hactive | hcandidate := (RemoteListenerSlot.mem_held _).mp htask
    · exact (nomatch hactive)
    · rw [binding, show t.slot.candidate = some task from hcandidate] at hbinding
      simpa using hbinding
  · apply h.fresh.sublist
    simp [generations, RemoteListenerSlot.held, moved]
  · exact ⟨h.requests.candidate, fun task htask => (nomatch htask),
      fun task htask => (nomatch htask)⟩

theorem Sound.finished (h : t.Sound) {g : ℕ} {error : Option String}
    (hclear : t.Clear (.remoteListenerFinished g error)) :
    (t.moved (t.slot.remoteListenerFinished g error) t.requested (t.failed || t.trying g)
      t.bound).Sound := by
  cases htrying : t.trying g with
  | true =>
      obtain ⟨c, hc, hg⟩ := (Option.any_eq_true _ _).mp htrying
      rw [Bool.or_true, ← beq_iff_eq.mp hg]
      exact h.candidate_finished hc
  | false =>
      rw [Bool.or_false]
      by_cases hactive : ∃ a, t.slot.active = some a ∧ a.generation = g
      · obtain ⟨a, ha, rfl⟩ := hactive
        refine h.active_finished ha htrying (Bool.eq_false_iff.mpr fun hbinding => ?_)
        have := hclear (by simp [ha]) hbinding
        exact absurd this (by simp [htrying])
      · have hunheld : ∀ task ∈ t.slot.held, task.generation ≠ g := by
          intro task htask heq
          obtain ha | hc := (t.slot.mem_held).mp htask
          · exact hactive ⟨task, ha, heq⟩
          · simp [trying, hc, heq] at htrying
        rw [(ignores_of_unheld hunheld).2 error]
        exact h.same

theorem Sound.shutdown (h : t.Sound) (hclear : t.Clear .shutdown) :
    (t.moved t.slot.shutdown none false none).Sound where
  reports := by simp [moved, RemoteListenerSlot.held, RemoteListenerSlot.shutdown,
    ComponentState.Reports]
  fresh := fresh_started h hclear rfl (.inr rfl) fun _ htask => (nomatch htask)
  requests := ⟨fun _ htask => (nomatch htask), fun _ htask => (nomatch htask),
    fun _ htask => (nomatch htask)⟩

theorem generations_ended (slot : RemoteListenerSlot) (g : ℕ) :
    generations (slot.ended g).held = generations slot.held := by
  cases ha : slot.active <;> cases hc : slot.candidate <;>
    simp [generations, RemoteListenerSlot.held, RemoteListenerSlot.ended, ha, hc]

theorem held_ended (slot : RemoteListenerSlot) (g : ℕ) :
    (slot.ended g).held = slot.held.map (·.ended g) := by
  cases ha : slot.active <;> cases hc : slot.candidate <;>
    simp [RemoteListenerSlot.held, RemoteListenerSlot.ended, ha, hc]

/-- The end of a future changes nothing that a state says of held tasks. -/
theorem reports_ended {state : ComponentState} {held : List ManagedTask} (g : ℕ)
    (h : state.Reports held) : state.Reports (held.map (·.ended g)) := by
  have hover (hall : ∀ task ∈ held, task.finished = true) :
      ∀ task ∈ held.map (·.ended g), task.finished = true := by
    intro task htask
    obtain ⟨old, hold, rfl⟩ := List.mem_map.mp htask
    simp [ManagedTask.ended, hall old hold]
  cases state with
  | Stopped => exact hover h
  | Failed generation key error => exact hover h
  | Starting generation key =>
      obtain ⟨task, htask, hnamed⟩ := h
      exact ⟨task.ended g, List.mem_map_of_mem htask, hnamed⟩
  | Running generation key =>
      obtain ⟨task, htask, hnamed⟩ := h
      exact ⟨task.ended g, List.mem_map_of_mem htask, hnamed⟩

theorem Sound.ended (h : t.Sound) (g : ℕ) :
    (t.moved (t.slot.ended g) t.requested (t.failed || t.trying g) t.bound).Sound where
  reports := by
    change t.slot.state.Reports (t.slot.ended g).held
    rw [held_ended]
    exact reports_ended g h.reports
  fresh := by
    apply h.fresh.sublist
    exact (generations_ended t.slot g) ▸ List.Sublist.refl _
  requests := by
    constructor
    · intro task htask hlive
      obtain ⟨old, hold, rfl⟩ := Option.map_eq_some_iff.mp htask
      exact h.requests.candidate old hold (Bool.or_eq_false_iff.mp hlive).1
    · intro task htask
      obtain ⟨old, hold, rfl⟩ := Option.map_eq_some_iff.mp htask
      exact h.requests.bound old hold
    · intro task htask
      obtain ⟨old, hold, rfl⟩ := Option.map_eq_some_iff.mp htask
      obtain hkey | hfailed | ⟨next, hnext, hlive, hkey⟩ := h.requests.active old hold
      · exact .inl hkey
      · exact .inr (.inl (by simp [moved, hfailed]))
      · -- the candidate is still binding, unless it is the task that ended
        by_cases hg : next.generation = g
        · exact .inr (.inl (by simp [moved, trying, hnext, hg]))
        · refine .inr (.inr ⟨next.ended g, Option.map_eq_some_iff.mpr ⟨next, hnext, rfl⟩, ?_,
            hkey⟩)
          simp [ManagedTask.ended, hlive, hg]

theorem step_sound {call : Call} {u : RemoteListener} (h : t.Sound) (hclear : t.Clear call)
    (hs : t.step call = some u) : u.Sound := by
  cases call with
  | startRemoteListener key spawn_error =>
      obtain rfl := Option.some.inj hs
      exact h.start hclear
  | promoteRemoteListener g =>
      cases hover : taskOver t.slot.held g with
      | true => simp [step, hover] at hs
      | false =>
          simp only [step, hover, Bool.false_eq_true, if_false, Option.some.injEq] at hs
          exact hs ▸ h.promote hover
  | remoteListenerFinished g error =>
      cases hover : taskOver t.slot.held g with
      | true => simp [step, hover] at hs
      | false =>
          simp only [step, hover, Bool.false_eq_true, if_false, Option.some.injEq] at hs
          exact hs ▸ h.finished hclear
  | shutdown =>
      obtain rfl := Option.some.inj hs
      exact h.shutdown hclear
  | ended g =>
      obtain rfl := Option.some.inj hs
      exact h.ended g

end RemoteListener

namespace Component

structure Sound (t : Component) : Prop where
  reports : t.slot.state.Reports t.slot.held
  fresh : Fresh t.slot.nextGeneration (generations t.slot.held) t.dropped
  requests : ∀ task, t.slot.active = some task → t.requested = some task.key

theorem ignores_of_unheld {slot : ReplaceableTaskSlot} {g : ℕ}
    (h : ∀ task ∈ slot.held, task.generation ≠ g) : Ignores slot g := by
  obtain ⟨next, active, state⟩ := slot
  cases active with
  | none => exact ⟨rfl, fun _ => rfl⟩
  | some task =>
      have hne := h task ((ReplaceableTaskSlot.mem_held _).mpr rfl)
      exact ⟨by simp [ReplaceableTaskSlot.markComponentRunning, Option.filter, hne],
        fun error => by simp [ReplaceableTaskSlot.componentFinished, hne]⟩

variable {t : Component}

theorem Sound.orderly (h : t.Sound) : t.Orderly where
  reports := h.reports
  unheld _ hg := ignores_of_unheld hg
  dropped g hg := ignores_of_unheld fun _ htask heq =>
    h.fresh.gone g hg (mem_generations.mpr ⟨_, htask, heq⟩)
  requests := h.requests

theorem new_sound : Component.new.Sound where
  reports := by simp [new, ReplaceableTaskSlot.default, ReplaceableTaskSlot.held,
    ComponentState.Reports]
  fresh := by constructor <;> simp [new, ReplaceableTaskSlot.default, ReplaceableTaskSlot.held,
    generations]
  requests := by simp [new, ReplaceableTaskSlot.default]

theorem Sound.same (h : t.Sound) : (t.moved t.slot t.requested).Sound where
  reports := h.reports
  fresh := h.fresh.sublist (List.Sublist.refl _)
  requests := h.requests

/-- The old task is dropped, and at most a new one of the next generation is held. -/
theorem fresh_replaced {slot : ReplaceableTaskSlot} {requested : Option String} (h : t.Sound)
    (hwrap : t.slot.nextGeneration + 1 < 2 ^ 64)
    (hnext : slot.nextGeneration = bump t.slot.nextGeneration)
    (hactive : ∀ task, slot.active = some task →
      task.generation = bump t.slot.nextGeneration) :
    Fresh slot.nextGeneration (generations slot.held) (t.moved slot requested).dropped := by
  rw [bump_eq hwrap] at hnext hactive
  refine h.fresh.retire (by omega) ?_ ?_
  · intro g hg
    obtain ⟨task, htask, rfl⟩ := mem_generations.mp hg
    have := hactive task ((slot.mem_held).mp htask)
    exact .inr (by omega)
  · cases ha : slot.active <;> simp [generations, ReplaceableTaskSlot.held, ha]

theorem Sound.start (h : t.Sound) {key : String} {spawn_error : Option String}
    (hclear : t.Clear (.startComponent key spawn_error)) :
    (t.moved (t.slot.startComponent key spawn_error) (some key)).Sound := by
  cases hserves : t.slot.active.any (·.serves key) with
  | true =>
      have hslot : t.slot.startComponent key spawn_error = t.slot := by
        simp [ReplaceableTaskSlot.startComponent, hserves]
      rw [hslot]
      refine ⟨h.reports, h.fresh.sublist (List.Sublist.refl _), fun task htask => ?_⟩
      rw [show t.slot.active = some task from htask] at hserves
      exact congrArg some (ManagedTask.serves_iff.mp hserves).1.symm
  | false =>
      have hwrap : t.slot.nextGeneration + 1 < 2 ^ 64 := by simpa [Clear, hserves] using hclear
      cases spawn_error with
      | none =>
          simp only [ReplaceableTaskSlot.startComponent, hserves, Bool.false_eq_true, if_false,
            transition_eq]
          refine ⟨⟨_, (ReplaceableTaskSlot.mem_held _).mpr rfl, rfl, rfl⟩,
            fresh_replaced h hwrap rfl fun task htask => ?_, fun task htask => ?_⟩
          · exact (Option.some.inj htask) ▸ rfl
          · exact (Option.some.inj htask) ▸ rfl
      | some error =>
          simp only [ReplaceableTaskSlot.startComponent, hserves, Bool.false_eq_true, if_false,
            transition_eq]
          exact ⟨fun task htask => (nomatch htask),
            fresh_replaced h hwrap rfl fun task htask => (nomatch htask),
            fun task htask => (nomatch htask)⟩

theorem Sound.running (h : t.Sound) (g : ℕ) :
    (t.moved (t.slot.markComponentRunning g) t.requested).Sound := by
  by_cases hheld : ∃ a, t.slot.active = some a ∧ a.generation = g
  · obtain ⟨a, ha, rfl⟩ := hheld
    have hslot : t.slot.markComponentRunning a.generation =
        { t.slot with state := .Running a.generation a.key } := by
      simp [ReplaceableTaskSlot.markComponentRunning, ha, Option.filter]
    rw [hslot]
    exact ⟨⟨a, (ReplaceableTaskSlot.mem_held _).mpr ha, rfl, rfl⟩,
      h.fresh.sublist (List.Sublist.refl _), h.requests⟩
  · have hunheld : ∀ task ∈ t.slot.held, task.generation ≠ g := fun task htask heq =>
      hheld ⟨task, (t.slot.mem_held).mp htask, heq⟩
    rw [(ignores_of_unheld hunheld).1]
    exact h.same

theorem Sound.finished (h : t.Sound) (g : ℕ) (error : Option String) :
    (t.moved (t.slot.componentFinished g error) t.requested).Sound := by
  by_cases hheld : ∃ a, t.slot.active = some a ∧ a.generation = g
  · obtain ⟨a, ha, rfl⟩ := hheld
    have hslot : t.slot.componentFinished a.generation error =
        { t.slot with active := none, state := completionState a error } := by
      simp [ReplaceableTaskSlot.componentFinished, ha]
    rw [hslot]
    refine ⟨RemoteListener.completion_reports a error ?_, ?_, fun task htask => (nomatch htask)⟩
    · exact fun task htask => (nomatch htask)
    · apply h.fresh.sublist
      simp [generations, ReplaceableTaskSlot.held, moved]
  · have hunheld : ∀ task ∈ t.slot.held, task.generation ≠ g := fun task htask heq =>
      hheld ⟨task, (t.slot.mem_held).mp htask, heq⟩
    rw [(ignores_of_unheld hunheld).2 error]
    exact h.same

theorem Sound.ended (h : t.Sound) (g : ℕ) :
    (t.moved (t.slot.ended g) t.requested).Sound where
  reports := by
    have hheld : (t.slot.ended g).held = t.slot.held.map (·.ended g) := by
      cases ha : t.slot.active <;>
        simp [ReplaceableTaskSlot.held, ReplaceableTaskSlot.ended, ha]
    change t.slot.state.Reports (t.slot.ended g).held
    rw [hheld]
    exact RemoteListener.reports_ended g h.reports
  fresh := by
    apply h.fresh.sublist
    cases ha : t.slot.active <;>
      simp [generations, moved, ReplaceableTaskSlot.held, ReplaceableTaskSlot.ended, ha]
  requests task htask := by
    obtain ⟨old, hold, rfl⟩ := Option.map_eq_some_iff.mp htask
    exact h.requests old hold

theorem step_sound {call : Call} {u : Component} (h : t.Sound) (hclear : t.Clear call)
    (hs : t.step call = some u) : u.Sound := by
  cases call with
  | startComponent key spawn_error =>
      obtain rfl := Option.some.inj hs
      exact h.start hclear
  | markComponentRunning g =>
      obtain ⟨-, rfl⟩ : taskOver t.slot.held g = false ∧ _ = u := by simpa [step] using hs
      exact h.running g
  | componentFinished g error =>
      obtain ⟨-, rfl⟩ : taskOver t.slot.held g = false ∧ _ = u := by simpa [step] using hs
      exact h.finished g error
  | stopComponent =>
      obtain rfl := Option.some.inj hs
      refine ⟨?_, fresh_replaced h hclear rfl fun task htask => (nomatch htask),
        fun task htask => (nomatch htask)⟩
      simp [moved, ReplaceableTaskSlot.held, ReplaceableTaskSlot.stopComponent,
        ComponentState.Reports]
  | ended g =>
      obtain rfl := Option.some.inj hs
      exact h.ended g

end Component

namespace ServerSupervisor

structure Sound (s : ServerSupervisor) : Prop where
  remote : s.remoteListener.Sound
  component : ∀ c, (s.lockComponent c).Sound

theorem Sound.orderly {s : ServerSupervisor} (h : s.Sound) : s.Orderly :=
  ⟨h.remote.orderly, fun c => (h.component c).orderly⟩

theorem step_sound {s u : ServerSupervisor} {call : Call} (h : s.Sound) (hclear : s.Clear call)
    (hs : s.step call = some u) : u.Sound := by
  cases call with
  | remote call =>
      obtain ⟨t, ht, rfl⟩ := Option.map_eq_some_iff.mp hs
      exact ⟨RemoteListener.step_sound h.remote hclear ht, h.component⟩
  | component c call =>
      obtain ⟨t, ht, rfl⟩ := Option.map_eq_some_iff.mp hs
      refine ⟨h.remote, fun d => ?_⟩
      by_cases hd : d = c
      · subst hd
        simpa using Component.step_sound (h.component d) hclear ht
      · simpa [Function.update_of_ne hd] using h.component d

/-- In every state of a run of clear calls, the supervisor reports what it holds, ignores the
generations it no longer holds, and follows the start requests. -/
theorem orderly_run {calls : List Call} {s : ServerSupervisor}
    (hclear : Meets step Clear new calls) (hrun : exec step new calls = some s) : s.Orderly :=
  (exec_invariant (fun _ _ _ => step_sound)
    (⟨RemoteListener.new_sound, fun _ => Component.new_sound⟩ : new.Sound) hclear hrun).orderly

/-- A listener is replaced, the next candidate fails, and a worker is restarted and stopped. -/
def replacing : List Call :=
  [.remote (.startRemoteListener "a:1" none), .remote (.promoteRemoteListener 1),
    .remote (.startRemoteListener "b:2" none), .remote (.promoteRemoteListener 2),
    .remote (.remoteListenerFinished 1 none), .remote (.startRemoteListener "c:3" none),
    .remote (.remoteListenerFinished 3 (some "in use")),
    .component .ReportWorker (.startComponent "r" none),
    .component .ReportWorker (.markComponentRunning 1),
    .component .ReportWorker .stopComponent,
    .component .ReportWorker (.componentFinished 1 none)]

theorem replacing_orderly : ∃ s, exec step new replacing = some s ∧
    s.remoteListener.slot.state = .Running 2 "b:2" ∧ s.Orderly :=
  ⟨_, rfl, by decide, orderly_run (by decide : Meets step Clear new replacing) rfl⟩

/-- The listener at `a:1` serves. -/
def serving : List Call :=
  [.remote (.startRemoteListener "a:1" none), .remote (.promoteRemoteListener 1)]

/-- Each way to break the promise: the spawn of the next listener fails, the candidate for
another key is forgotten, and the active listener finishes while the next one is binding. -/
theorem disorderly_runs :
    (∃ s, exec step new (serving ++
      [Call.remote (.startRemoteListener "b:2" (some "no runtime"))]) = some s ∧ ¬ s.Orderly) ∧
    (∃ s, exec step new (serving ++
      [Call.remote (.startRemoteListener "b:2" none), .remote (.startRemoteListener "a:1" none),
        .remote (.promoteRemoteListener 2)]) = some s ∧ ¬ s.Orderly) ∧
    ∃ s, exec step new (serving ++
      [Call.remote (.startRemoteListener "b:2" none),
        .remote (.remoteListenerFinished 1 none)]) = some s ∧ ¬ s.Orderly := by
  refine ⟨⟨_, rfl, fun h => ?_⟩, ⟨_, rfl, fun h => ?_⟩, ⟨_, rfl, fun h => ?_⟩⟩
  · -- reported failed while `a:1` serves
    exact absurd (h.remote.reports ⟨1, "a:1", false⟩ (by decide)) (by decide)
  · -- `b:2` is active although `a:1` was requested last
    exact absurd (h.remote.requests.active ⟨2, "b:2", false⟩ rfl) (by decide)
  · -- reported stopped while `b:2` is binding
    exact absurd (h.remote.reports ⟨2, "b:2", false⟩ (by decide)) (by decide)

end ServerSupervisor

end Probing.Server
