import Probing.Core.Run
import Probing.Profiling.TrainingPhases

/-!
# Runs of a training loop

Where a party is there to own the span of a step and to exit it after the step, the step advances
the coordinate once.
-/

namespace Probing.Profiling.TorchProbe

open Probing.Core (exec exec_invariant Meets)
open Probing.Tracing (Phase)

variable {M : Type} [DecidableEq M]

namespace Trainer

variable {s t : Trainer M}

/-- The loop inside the span that the user writes around a step, if any. -/
structure Wrapped (s : Trainer M) (user : Bool) (t : Trainer M)
    (handle : Option Handle) : Prop where
  tracked : Tracked s t
  sound : t.Sound handle
  ready : t.Ready
  microStep : t.microStep = s.microStep
  busy : s.probe.thread.opt ≠ [] → t.probe.thread.opt ≠ []
  kept : Kept s.probe.thread (s.handles none) → Kept t.probe.thread (t.handles handle)
  opens : user = true → t.probe.thread.opt ≠ []
  outer : user = true → s.probe.thread.opt = [] → opts (t.rest handle) ≠ []
  same : user = false → t = s
  hook : t.hookSpans = s.hookSpans

omit [DecidableEq M] in
theorem Sound.userEnter (h : s.Sound none) (hready : s.Ready) (user : Bool) :
    s.Wrapped user (s.userEnter user).2 (s.userEnter user).1 := by
  cases user with
  | false =>
      exact
        { tracked := .refl s
          sound := h
          ready := hready
          microStep := rfl
          busy := id
          kept := id
          opens := fun hu => (Bool.false_ne_true hu).elim
          outer := fun hu => (Bool.false_ne_true hu).elim
          same := fun _ => rfl
          hook := rfl }
  | true =>
      have hentered := Entered.enter s.probe.thread .optimizer
      have hrest : (hookHandles s.hookSpans ++
          ([(s.probe.thread.enter .optimizer).1] ++ s.others)).Perm
            ([(s.probe.thread.enter .optimizer).1] ++ s.rest none) :=
        List.perm_append_comm_assoc _ _ _
      have hperm := ((hrest.append_left s.probe.handles).trans
        (List.perm_append_comm_assoc _ _ _)).symm
      refine
        { tracked := ⟨rfl⟩
          sound := ⟨⟨(hentered.holds _ h.probe.holds).perm hperm, h.probe.keys, h.probe.phases⟩,
            h.hooks, h.others, h.idle⟩
          ready := fun _ => Thread.enter_opens
          microStep := hentered.microStep
          busy := hentered.busy
          kept := fun hkept => (hentered.kept _ hkept).perm hperm
          opens := fun _ => Thread.enter_opens
          outer := fun _ hopt hnil => ?_
          same := fun hu => (Bool.false_ne_true hu.symm).elim
          hook := rfl }
      have hopts := (opts_perm hrest).symm
      rw [Thread.enter_of_nil hopt, List.singleton_append, opts_cons] at hopts
      change opts (hookHandles s.hookSpans ++
        ([(s.probe.thread.enter .optimizer).1] ++ s.others)) = [] at hnil
      rw [Thread.enter_of_nil hopt] at hnil
      exact List.cons_ne_nil _ _ (hnil ▸ hopts).eq_nil

/-- Whether some party owns the span of the step and exits it: the one that the probe has open
already, or a new one. -/
def attended (s : Trainer M) (user : Bool) : Bool :=
  if s.probe.thread.opt = [] then
    user || 0 < s.before || (0 < s.after && !(s.installed && s.probe.leavesStep s.optimizer)) ||
      (s.installed && s.probe.opensStep s.optimizer)
  else
    s.installed && s.probe.enabled && s.probe.finalized && !(opts s.probe.handles).isEmpty &&
      !s.probe.losesStep s.optimizer

/-- What holds between two steps. -/
structure Rest (s : Trainer M) : Prop where
  sound : s.Sound none
  hook : s.hookSpans .optimizer = none
  owns : 0 < s.before + s.after → s.probe.ownsOptimizer s.optimizer = true

omit [DecidableEq M] in
theorem Sound.rest_nil (h : s.Sound none) (hhook : s.hookSpans .optimizer = none) :
    opts (s.rest none) = [] := by
  have hphase : ∀ g ∈ s.rest none, g.phase ≠ .optimizer := by
    intro g hg
    simp only [rest, hookHandles, hhook, List.mem_append, Option.mem_toList,
      Option.toList_none, List.not_mem_nil, or_false, false_or] at hg
    obtain (hg | hg) | hg := hg
    · exact h.hooks .forward g hg ▸ (by decide)
    · exact h.hooks .backward g hg ▸ (by decide)
    · exact h.others g hg
  rw [← List.append_nil (s.rest none), opts_append_left hphase]
  rfl

/-- Nothing is lost in a step that is attended, and what is open is owned. -/
theorem attended_start (h : s.Rest) {user : Bool} (hattended : s.attended user = true) :
    Kept s.probe.thread (s.handles none) ∧ s.probe.losesStep s.optimizer = false := by
  rw [attended] at hattended
  split at hattended
  next hopt =>
    refine ⟨fun hne => (hne hopt).elim, Probe.losesStep_of_nil ?_⟩
    have hnil := h.sound.probe.holds.opts_nil hopt
    rw [opts_append] at hnil
    exact (List.append_eq_nil_iff.mp hnil).1
  next hopt =>
    simp only [Bool.and_eq_true, Bool.not_eq_true', List.isEmpty_eq_false_iff] at hattended
    obtain ⟨⟨-, hopts⟩, hkeeps⟩ := hattended
    refine ⟨fun _ hnil => hopts ?_, hkeeps⟩
    rw [handles, opts_append] at hnil
    exact (List.append_eq_nil_iff.mp hnil).1

/-- What is true of the loop when the hooks after the step begin. -/
structure Stepped (s t : Trainer M) (handle : Option Handle) : Prop where
  framed : Framed s t
  sound : t.Sound handle
  hook : s.before + s.after = 0 → t.hookSpans .optimizer = none

/-- The step before the hooks that end it. -/
def begun (s : Trainer M) (user : Bool) (body : List (Event M)) : Trainer M :=
  body.foldl event (s.userEnter user).2.preHooks

omit [DecidableEq M] in
theorem Rest.ready (h : s.Rest) : s.Ready := fun hsome => by
  rw [h.hook] at hsome
  exact (nomatch hsome)

theorem Rest.begun (h : s.Rest) (user : Bool) (body : List (Event M)) :
    Stepped s (s.begun user body) (s.userEnter user).1 := by
  have hwrapped := h.sound.userEnter h.ready user
  obtain ⟨hpre, -, -⟩ := hwrapped.sound.preHooks hwrapped.ready
  have hbody := hpre.sound.body body
  have hframed := hwrapped.tracked.framed
  refine ⟨(hframed.trans hpre.framed).trans hbody.framed, hbody.sound, fun hnone => ?_⟩
  rw [Trainer.begun, hbody.hook, Trainer.preHooks, hframed.before, hframed.after]
  obtain ⟨hb, ha⟩ : s.before = 0 ∧ s.after = 0 := by omega
  rw [hb, ha]
  change (((s.userEnter user).2.probing _).hookSpans .optimizer) = none
  have hprobing (t : Trainer M) (f : Probe M → Probe M) : (t.probing f).hookSpans =
      t.hookSpans := by
    rw [probing]
    split <;> rfl
  rw [hprobing, hwrapped.hook]
  exact h.hook

/-- In a step that is attended some span is open when the hooks before it are over. -/
theorem Rest.busy (h : s.Rest) {user : Bool} (hattended : s.attended user = true) :
    (s.userEnter user).2.preHooks.probe.thread.opt ≠ [] := by
  have hwrapped := h.sound.userEnter h.ready user
  have hframed := hwrapped.tracked.framed
  obtain ⟨hpre, hopens, -⟩ := hwrapped.sound.preHooks hwrapped.ready
  have hstep : (s.userEnter user).2.probe.opensStep s.optimizer =
      s.probe.opensStep s.optimizer := by
    rw [hwrapped.tracked.eq]
    exact (s.probe.step_of_thread (s.userEnter user).2.probe.thread s.optimizer).2
  rw [hframed.before, hframed.after, hframed.installed, hframed.optimizer, hstep] at hopens
  rw [attended] at hattended
  split at hattended
  · simp only [Bool.or_eq_true, Bool.and_eq_true, decide_eq_true_eq] at hattended
    obtain ((huser | hpos) | ⟨hpos, -⟩) | hprobe := hattended
    · exact hpre.busy (hwrapped.opens huser)
    · exact hopens (.inl (Nat.add_pos_left hpos _))
    · exact hopens (.inl (Nat.add_pos_right _ hpos))
    · exact hopens (.inr hprobe)
  next hopt => exact hpre.busy (hwrapped.busy hopt)

/-- In a step of the discovery that is attended the span is not the probe's. -/
theorem Rest.outer (h : s.Rest) {user : Bool} (hattended : s.attended user = true)
    (hdiscovery : s.probe.finalized = false) :
    opts ((s.userEnter user).2.preHooks.rest (s.userEnter user).1) ≠ [] := by
  have hwrapped := h.sound.userEnter h.ready user
  obtain ⟨hpre, -, houter⟩ := hwrapped.sound.preHooks hwrapped.ready
  rw [attended] at hattended
  split at hattended
  next hopt =>
    cases user with
    | true => exact hpre.outer (hwrapped.outer rfl hopt)
    | false =>
        refine houter hopt ?_
        simp only [Bool.or_eq_true, Bool.and_eq_true, decide_eq_true_eq, Bool.not_eq_true',
          Bool.false_eq_true, false_or] at hattended
        obtain (hpos | ⟨hpos, hquiet⟩) | ⟨-, hopens⟩ := hattended
        · exact .inl hpos
        · refine .inr ⟨hpos, fun hinstalled => ⟨?_, ?_⟩⟩
          · exact (congrArg (s.probe.enabled && ·) hdiscovery).trans (Bool.and_false _)
          · have hinstalled : s.installed = true := hinstalled
            rw [hinstalled] at hquiet
            exact hquiet
        · rw [Probe.opensStep, hdiscovery] at hopens
          simp at hopens
  · simp [hdiscovery] at hattended

/-- In a step that is attended and owned, one handle owns the span when the hooks after it begin. -/
theorem Rest.begun_attended (h : s.Rest) {user : Bool} (body : List (Event M))
    (howned : s.owned = true) (hattended : s.attended user = true) :
    credit (s.begun user body).probe.thread ((s.begun user body).handles (s.userEnter user).1) =
        s.microStep + 1 ∧ (s.begun user body).Settled := by
  obtain ⟨hkept, hkeeps⟩ := attended_start h hattended
  have hwrapped := h.sound.userEnter h.ready user
  have hframed := hwrapped.tracked.framed
  obtain ⟨hpre, -, -⟩ := hwrapped.sound.preHooks hwrapped.ready
  have hbody := hpre.sound.body body
  have hfree : (s.userEnter user).2.probe.losesStep (s.userEnter user).2.optimizer = false := by
    rw [hframed.optimizer, hwrapped.tracked.eq]
    exact (s.probe.step_of_thread _ s.optimizer).1.trans hkeeps
  have howner := hpre.kept (fun _ => hfree) (hwrapped.kept hkept) (h.busy hattended)
  have hone := hpre.sound.probe.holds.owner
  have hlength : (opts ((s.userEnter user).2.preHooks.handles (s.userEnter user).1)).length = 1 :=
    Nat.le_antisymm hone (List.length_pos_iff.mpr howner)
  refine ⟨?_, fun hinstalled henabled => ?_⟩
  · calc
      credit (s.begun user body).probe.thread ((s.begun user body).handles (s.userEnter user).1)
      _ = credit (s.userEnter user).2.preHooks.probe.thread
          ((s.userEnter user).2.preHooks.handles (s.userEnter user).1) := hbody.credit
      _ = (s.userEnter user).2.preHooks.microStep + 1 := by rw [credit, hlength]; rfl
      _ = s.microStep + 1 := by rw [hpre.microStep, hwrapped.microStep]
  · have hall : Framed s (s.begun user body) := (hframed.trans hpre.framed).trans hbody.framed
    by_cases hfinalized : s.probe.finalized = true
    · exact .inl (hall.probe.finalized.trans hfinalized)
    · have hdiscovery : s.probe.finalized = false := by simpa using hfinalized
      have hcount : 0 < s.before + s.after := by simpa [owned, hdiscovery] using howned
      have hrest := hbody.outer (h.outer hattended hdiscovery)
      refine .inr ⟨?_, hbody.sound.probe.holds.others_nil hrest⟩
      rw [hall.probe.ownsOptimizer, hall.optimizer]
      exact h.owns hcount

omit [DecidableEq M] in
/-- The user's span is exited after the step. -/
theorem Sound.user_leave {handle : Option Handle} (h : s.Sound handle) :
    Sound { s with probe := { s.probe with thread := (s.probe.exits handle).thread } } none ∧
      credit (s.probe.exits handle).thread (s.handles none) =
        credit s.probe.thread (s.handles handle) := by
  have hperm : (s.handles handle).Perm (handle.toList ++ s.handles none) :=
    ((List.perm_append_comm_assoc _ _ _).append_left _).trans (List.perm_append_comm_assoc _ _ _)
  obtain ⟨hholds, hcredit⟩ := Probe.holds_exits (h.probe.holds.perm hperm)
  exact ⟨⟨⟨hholds, h.probe.keys, h.probe.phases⟩, h.hooks, h.others, h.idle⟩,
    hcredit.trans (credit_perm hperm).symm⟩

/-- A step is over: what holds between two steps holds again, and a step that was owned and attended
advanced the coordinate by one. -/
theorem Rest.optimizerStep (h : s.Rest) (user : Bool) (body : List (Event M)) :
    (s.optimizerStep user body).Rest ∧ (s.owned = true → s.attended user = true →
      (s.optimizerStep user body).microStep = s.microStep + 1) := by
  have hbegun := h.begun user body
  obtain ⟨hafter, hnone, hclosed⟩ := hbegun.sound.postHooks
  obtain ⟨hsound, hcredit⟩ := hafter.sound.user_leave
  have heq : s.optimizerStep user body = { (s.begun user body).postHooks with
      probe := { (s.begun user body).postHooks.probe with
        thread := ((s.begun user body).postHooks.probe.exits (s.userEnter user).1).thread } } := by
    rw [← Probe.exits_eq]
    rfl
  have hhook : (s.begun user body).postHooks.hookSpans .optimizer = none := by
    by_cases hcount : s.before + s.after = 0
    · exact hafter.hook (hbegun.hook hcount)
    · exact hnone (by rw [hbegun.framed.before, hbegun.framed.after]; omega)
  rw [heq]
  refine ⟨⟨hsound, hhook, fun hcount => ?_⟩, fun howned hattended => ?_⟩
  · change (s.begun user body).postHooks.probe.ownsOptimizer
      (s.begun user body).postHooks.optimizer = true
    rw [hafter.ownsOptimizer, hafter.optimizer, hbegun.framed.probe.ownsOptimizer,
      hbegun.framed.optimizer]
    refine h.owns ?_
    rw [← hbegun.framed.before, ← hbegun.framed.after, ← hafter.before, ← hafter.after]
    exact hcount
  · obtain ⟨hone, hsettled⟩ := h.begun_attended body howned hattended
    obtain ⟨hsame, hnil⟩ := hclosed hsettled
    have hopts : opts ((s.begun user body).postHooks.handles none) = [] := by
      have hrest : opts ((s.begun user body).postHooks.rest none) = [] :=
        hsound.rest_nil hhook
      rw [handles, opts_append, hnil, hrest]
      rfl
    calc
      ((s.begun user body).postHooks.probe.exits (s.userEnter user).1).thread.microStep
      _ = credit ((s.begun user body).postHooks.probe.exits (s.userEnter user).1).thread
          ((s.begun user body).postHooks.handles none) := by rw [credit, hopts]; rfl
      _ = credit (s.begun user body).postHooks.probe.thread
          ((s.begun user body).postHooks.handles (s.userEnter user).1) := hcredit
      _ = credit (s.begun user body).probe.thread
          ((s.begun user body).handles (s.userEnter user).1) := hsame
      _ = s.microStep + 1 := hone

end Trainer

namespace Training

variable {s t : Training M}

/-- Each step that a party is there for is attended. -/
def Attended (s : Training M) : Move M → Prop
  | .optimizerStep user _ => s.trainer.owned = true → s.trainer.attended user = true
  | _ => True

instance (s : Training M) : (move : Move M) → Decidable (s.Attended move)
  | .optimizerStep _ _ => inferInstanceAs (Decidable (_ → _))
  | .event _ => inferInstanceAs (Decidable True)
  | .advance => inferInstanceAs (Decidable True)
  | .sync _ => inferInstanceAs (Decidable True)

structure Inv (s : Training M) : Prop where
  trainer : s.trainer.Rest
  good : s.Good

omit [DecidableEq M] in
/-- The user sets the coordinate. -/
theorem Inv.setMicroStep (h : s.Inv) (value : ℕ) : (s.setMicroStep value).Inv := by
  have hholds := h.trainer.sound.probe.holds
  exact ⟨⟨⟨⟨⟨hholds.one, hholds.fresh, hholds.fits, hholds.owner, hholds.owned⟩,
    h.trainer.sound.probe.keys, h.trainer.sound.probe.phases⟩, h.trainer.sound.hooks,
    h.trainer.sound.others, h.trainer.sound.idle⟩, h.trainer.hook, h.trainer.owns⟩,
    h.good.advanced, h.good.strayed⟩

theorem Inv.step (h : s.Inv) {move : Move M} (hok : s.Attended move)
    (hstep : s.step move = some t) :
    t.Inv := by
  cases move with
  | event event =>
      obtain rfl := Option.some.inj hstep
      have hduring := h.trainer.sound.event event
      have hframed := hduring.framed
      refine ⟨⟨hduring.sound, hduring.hook.trans h.trainer.hook, fun hcount => ?_⟩,
        h.good.advanced, ?_⟩
      · change (s.trainer.event event).probe.ownsOptimizer (s.trainer.event event).optimizer = true
        rw [hframed.probe.ownsOptimizer, hframed.optimizer]
        refine h.trainer.owns ?_
        rw [← hframed.before, ← hframed.after]
        exact hcount
      · have hsame := hduring.microStep
        have hold := h.good.strayed
        simp [hsame, hold]
  | optimizerStep user body =>
      obtain rfl := Option.some.inj hstep
      obtain ⟨hrest, hadvances⟩ := h.trainer.optimizerStep user body
      refine ⟨hrest, fun r hr howned => ?_, h.good.strayed⟩
      obtain hr | hr := List.mem_append.mp hr
      · exact h.good.advanced r hr howned
      · obtain rfl := List.mem_singleton.mp hr
        exact hadvances howned (hok howned)
  | advance =>
      obtain rfl := Option.some.inj hstep
      exact h.setMicroStep _
  | sync value =>
      obtain rfl := Option.some.inj hstep
      exact h.setMicroStep value

omit [DecidableEq M] in
theorem Inv.start (clock : ℕ → Reading) (traceSpans : Bool) (shadowNormal shadowBaseline : Int)
    (useGpuEvents : Bool) (ownsModule ownsOptimizer : M → Bool) (period : ℕ)
    (layers : ℕ → M → Bool) (enabled installed : Bool) (before after : ℕ) (optimizer : M) :
    (start (.new clock traceSpans shadowNormal shadowBaseline useGpuEvents ownsModule
      ownsOptimizer period layers enabled) installed before after optimizer).Inv where
  trainer :=
    { sound :=
        { probe :=
            { holds := ⟨Nat.zero_le 1, fun _ he => (nomatch he), fun _ hh => (nomatch hh),
                Nat.zero_le 1, fun _ hid => (nomatch hid)⟩
              keys := List.nodup_nil
              phases := fun _ he => (nomatch he) }
          hooks := fun _ _ hh => (nomatch hh)
          others := fun _ hh => (nomatch hh)
          idle := fun _ => rfl }
      hook := rfl
      owns := fun hcount => decide_eq_true hcount }
  good := ⟨fun _ hr => (nomatch hr), rfl⟩

/-- Every step that a party is there for advances the coordinate by one, and nothing else does, in
every run whose steps are attended. -/
theorem steps_run (clock : ℕ → Reading) (traceSpans : Bool) (shadowNormal shadowBaseline : Int)
    (useGpuEvents : Bool) (ownsModule ownsOptimizer : M → Bool) (period : ℕ)
    (layers : ℕ → M → Bool) (enabled installed : Bool) (before after : ℕ) (optimizer : M)
    (moves : List (Move M)) (s : Training M)
    (hok : Meets Training.step Attended (Training.start (.new clock traceSpans shadowNormal
      shadowBaseline useGpuEvents ownsModule ownsOptimizer period layers enabled) installed before
      after optimizer) moves)
    (hrun : exec Training.step (Training.start (.new clock traceSpans shadowNormal shadowBaseline
      useGpuEvents ownsModule ownsOptimizer period layers enabled) installed before after optimizer)
      moves = some s) : s.Good := by
  have hinv : s.Inv :=
    exec_invariant (fun _ _ _ hs hok hstep => hs.step hok hstep)
      (Inv.start _ _ _ _ _ _ _ _ _ _ _ _ _ _) hok hrun
  exact hinv.good

/-- A probe with spans, each second step of which is a shadow step, between trackers. -/
def alternates (before after : ℕ) : Training ℕ :=
  start (.new (fun n => ⟨n, 2 * n, 3 * n⟩) true 1 1 false (fun _ => false) (fun _ => false) 1
    (fun _ _ => true) true) true before after 9

/-- Micro-batches, one of which raises, before steps with and without a span of the user, one of
which runs a module inside it. -/
def trains : List (Move ℕ) :=
  [.event (.forwardPre true), .event (.forward false 0), .event (.forward true 0),
    .event (.forwardPost true), .event (.outputGradElsewhere false), .optimizerStep false [],
    .event (.forwardPre true), .event (.forward false 0), .event (.forwardPre true),
    .optimizerStep true [.forwardPre true, .forward false 1], .event .outputGrad,
    .optimizerStep false [], .advance, .optimizerStep false []]

theorem steps_run_trains : ∃ s, exec Training.step (alternates 1 0) trains = some s ∧ s.Good ∧
    s.steps = [(true, 0, 1), (true, 1, 2), (true, 2, 3), (true, 4, 5)] := by
  have hok : Meets Training.step Attended (alternates 1 0) trains := by decide
  have hsteps : (exec Training.step (alternates 1 0) trains).map (·.steps) =
      some [(true, 0, 1), (true, 1, 2), (true, 2, 3), (true, 4, 5)] := by decide
  obtain ⟨s, hrun, hs⟩ := Option.map_eq_some_iff.mp hsteps
  exact ⟨s, hrun, steps_run _ _ _ _ _ _ _ _ _ _ _ _ _ _ trains s hok hrun, hs⟩

/-- Three steps, the first with or without a span of the user. -/
def repeats (user : Bool) : List (Move ℕ) :=
  [.optimizerStep user [], .optimizerStep false [], .optimizerStep false []]

/-- Without a tracker a shadow step does not advance the coordinate, nor does any step after a
discovery without a span of the user; nor does the discovery where the tracker is after the
probe. -/
theorem steps_broken :
    (exec Training.step (alternates 0 0) (repeats true)).map (·.steps) =
      some [(false, 0, 1), (true, 1, 2), (true, 2, 2)] ∧
    (exec Training.step (alternates 0 0) (repeats false)).map (·.steps) =
      some [(false, 0, 0), (true, 0, 0), (true, 0, 0)] ∧
    (exec Training.step (alternates 0 1) (repeats false)).map (·.steps) =
      some [(true, 0, 0), (true, 0, 0), (true, 0, 0)] := by
  decide

end Training

end Probing.Profiling.TorchProbe
