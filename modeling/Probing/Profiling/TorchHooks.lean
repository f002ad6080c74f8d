import Probing.Profiling.TorchInvariant

/-!
# The hooks keep the invariant

A `pre` hook may not take the place of an entry that has a span, and a `post` hook needs its entry;
a step ends with nothing left.
-/

namespace Probing.Profiling.TorchProbe.Probe

open Probing.Core

variable {M : Type} [DecidableEq M] {p : Probe M} {mod optimizer : M} {stage : Stage}
  {post force : Bool} {others : List Handle}

/-- A hook that makes a row finds the entry it completes, or no span where it puts its own. -/
def Keeps (p : Probe M) (post : Bool) (stage : Stage) (mod : M) (force : Bool) : Prop :=
  p.logs post stage mod force = true →
    if post then (p.findOpen mod stage).isSome = true
    else (p.findOpen mod stage).bind Entry.own = none

instance : Decidable (p.Keeps post stage mod force) :=
  inferInstanceAs (Decidable (_ → ite _ _ _))

theorem logs_iff : p.logs post stage mod force = true ↔
    p.enabled = true ∧ p.shadowStep = false ∧
      (force = true ∨ post = true ∧ (p.findOpen mod stage).isSome = true ∨
        p.shouldSample post mod = true) := by
  simp [logs, and_assoc, or_assoc]

theorem Inv.logModuleStage (h : p.Inv others)
    (hfinalized : force = true → p.enabled = true → p.finalized = true)
    (hkeeps : p.Keeps post stage mod force) :
    (p.logModuleStage post stage mod force).Inv others := by
  rw [Probe.logModuleStage]
  split
  next hlogs =>
    have hfound := hkeeps hlogs
    obtain ⟨henabled, hshadow, hwhy⟩ := logs_iff.1 hlogs
    split
    next hpost =>
      rw [if_pos hpost] at hfound
      obtain ⟨entry, hentry⟩ := Option.isSome_iff_exists.mp hfound
      exact h.complete hentry
    next hpre =>
      rw [if_neg hpre] at hfound
      refine h.logPre henabled ?_ hshadow hfound
      obtain hforce | ⟨hpost, -⟩ | hsample := hwhy
      · exact hfinalized hforce henabled
      · exact (hpre hpost).elim
      · rw [shouldSample, Bool.and_assoc, Bool.and_eq_true] at hsample
        exact hsample.1
  · exact h

theorem Inv.forwardHook (h : p.Inv others)
    (hkeeps : p.ensureStepPlan.Keeps post .forward mod false) :
    (p.forwardHook post mod).Inv others := by
  rw [Probe.forwardHook]
  split
  · exact h
  · split
    · exact h.plan
    · exact (h.plan.logModuleStage (fun hforce => (Bool.false_ne_true hforce).elim)
        hkeeps).processHook post

omit [DecidableEq M] in
theorem begin_train_eq (optimizer : M) : ∃ spanCm thread entered,
    p.beginTrainStepSpan optimizer =
      { p with trainStepCm := spanCm, thread := thread, entered := entered } := by
  rw [beginTrainStepSpan]
  split
  · exact ⟨_, _, _, rfl⟩
  · exact ⟨_, _, _, rfl⟩

omit [DecidableEq M] in
/-- The plan does not read the span of the step. -/
theorem plan_eq (spanCm : Option Handle) (thread : Thread) (entered : List (ℕ × ℕ)) :
    ensureStepPlan { p with trainStepCm := spanCm, thread := thread, entered := entered } =
      { p.ensureStepPlan with
        trainStepCm := spanCm
        thread := thread
        entered := entered } := by
  by_cases hplanned : ¬ p.finalized ∨ p.plannedCycle = some p.stepCycle
  · rw [ensureStepPlan, ensureStepPlan, if_pos hplanned, if_pos hplanned]
  · rw [ensureStepPlan, ensureStepPlan, if_neg hplanned, if_neg hplanned]

/-- What a step of the optimizer asks of its `pre` hook: that the modules are discovered, and that
the entry of the step has no span. -/
def Steps (p : Probe M) (optimizer : M) : Prop :=
  p.shadowStep = false → (p.enabled = true → p.finalized = true) ∧
    (p.hooksDispatchActive = true → p.ensureStepPlan.Keeps false .step optimizer true)

instance : Decidable (p.Steps optimizer) := inferInstanceAs (Decidable (_ → _ ∧ (_ → _)))

theorem Inv.step_dispatched (h : p.Inv others) (hfinalized : p.enabled = true → p.finalized = true)
    (hkeeps : p.hooksDispatchActive = true →
      p.ensureStepPlan.Keeps false .step optimizer true) :
    (if ¬ p.hooksDispatchActive then p.ensureStepPlan
      else (p.ensureStepPlan.logModuleStage false .step optimizer true).processHook false .step
        optimizer).Inv others := by
  split
  · exact h.plan
  next hactive =>
    have hplan : p.ensureStepPlan.enabled = p.enabled ∧
        p.ensureStepPlan.finalized = p.finalized := by
      rw [ensureStepPlan]
      split <;> exact ⟨rfl, rfl⟩
    refine (h.plan.logModuleStage (fun _ henabled => ?_)
      (hkeeps (by simpa using hactive))).processHook false
    rw [hplan.2]
    exact hfinalized (hplan.1 ▸ henabled)

theorem Inv.preStepHook (h : p.Inv others) (hsteps : p.Steps optimizer) :
    (p.preStepHook optimizer).Inv others := by
  rw [Probe.preStepHook]
  split
  · exact h
  next hshadow =>
    obtain ⟨hfinalized, hkeeps⟩ := hsteps (by simpa using hshadow)
    by_cases hboth : (p.enabled && p.finalized) = true
    · obtain ⟨henabled, hfinal⟩ := Bool.and_eq_true_iff.mp hboth
      rw [if_pos hboth]
      have hbegin := h.begin_train henabled hfinal optimizer
      obtain ⟨spanCm, thread, entered, heq⟩ := begin_train_eq (p := p) optimizer
      rw [heq] at hbegin ⊢
      refine hbegin.step_dispatched (fun _ => hfinal) fun hactive => ?_
      rw [hooksDispatchActive, plan_eq] at hactive
      rw [plan_eq]
      exact hkeeps hactive
    · rw [if_neg hboth]
      exact h.step_dispatched hfinalized hkeeps

theorem Settled.endDiscovery (h : p.Inv others) (henabled : p.enabled = true)
    (hfinalized : p.finalized = false) (optimizer : M) :
    (p.endDiscovery optimizer).Settled others := by
  obtain ⟨hopen, hpending, hcm⟩ := h.idle (.inr hfinalized)
  have htracks : Tracks p.thread p.entered p.steps [] others := by
    have hheld : p.held = [] := by
      rw [held, hopen, hcm]
      rfl
    exact hheld ▸ h.tracks
  have hclear := h.no_timers hopen
  have hsettled := h.logged.settle
    (q := { refreshShadowFlag { p.finalizeDiscovery with stepCycle := 0 } with
      steps := p.steps + 1
      probed := Function.update p.probed p.steps false })
    (.inl rfl) htracks hopen hpending hcm (fun k => (hclear k).1) (fun k => (hclear k).2) rfl
  have hbegin := hsettled.toInv.begin_train henabled rfl optimizer
  obtain ⟨spanCm, thread, entered, heq⟩ := begin_train_eq
    (p := { refreshShadowFlag { p.finalizeDiscovery with stepCycle := 0 } with
      steps := p.steps + 1
      probed := Function.update p.probed p.steps false }) optimizer
  rw [heq] at hbegin
  refine ⟨?_, ?_, ?_⟩
  · rw [Probe.endDiscovery]
    exact heq ▸ hbegin
  · exact (congrArg openSpans heq).trans hopen
  · exact (congrArg pending heq).trans hpending

theorem Settled.endShadow (h : p.Inv others) (hshadow : p.shadowStep = true) :
    (p.endShadow).Settled others := by
  obtain ⟨-, hpending⟩ := h.shadow hshadow
  have hend := h.end_train
  rw [end_train_eq] at hend
  obtain ⟨thread, htracks, heq⟩ := cleanup_cases hend.tracks rfl
  rw [Probe.endShadow, end_train_eq, heq]
  exact h.logged.settle (.inl rfl) htracks rfl hpending rfl (fun _ => rfl) (fun _ => rfl) rfl

theorem Settled.endUnsampled (h : p.Inv others) : (p.endUnsampled).Settled others := by
  have hend : Inv { p.endTrainStepSpan with offset := 0, current := none } others :=
    h.end_train.same rfl
  rw [end_train_eq] at hend
  obtain ⟨thread, htracks, heq⟩ := cleanup_cases hend.tracks rfl
  rw [Probe.endUnsampled, end_train_eq, heq]
  exact h.logged.settle (.inl rfl) htracks rfl rfl rfl (fun _ => rfl) (fun _ => rfl) rfl

/-- The entries that are left are completed one after the other. -/
theorem Inv.finish (l : List (Entry M)) (h : p.Inv others) (hopen : p.openSpans = l)
    (hcm : p.trainStepCm = none) :
    (l.foldl (fun q entry => q.completePostStage entry.module entry.stage) p).Inv others ∧
      (l.foldl (fun q entry => q.completePostStage entry.module entry.stage) p).trainStepCm =
        none := by
  induction l generalizing p with
  | nil => exact ⟨h, hcm⟩
  | cons entry l ih =>
      have hfind : p.findOpen entry.module entry.stage = some entry := by
        rw [findOpen, hopen, Keyed.find_cons]
        exact if_pos rfl
      have heq := complete_eq hfind
      have hrest : Keyed.erase Entry.key p.openSpans (entry.module, entry.stage) = l := by
        rw [hopen, Keyed.erase_cons]
        exact if_pos rfl
      exact ih (h.complete hfind) ((congrArg openSpans heq).trans hrest)
        ((congrArg trainStepCm heq).trans hcm)

/-- The entry of the step is there to be completed. -/
theorem Settled.endSampled (h : p.Inv others) (henabled : p.enabled = true)
    (hshadow : p.shadowStep = false) (hfound : (p.findOpen optimizer .step).isSome = true) :
    (p.endSampled optimizer).Settled others := by
  obtain ⟨entry, hentry⟩ := Option.isSome_iff_exists.mp hfound
  have hlogs : p.endTrainStepSpan.logs true .step optimizer true = true := by
    rw [end_train_eq, logs_iff]
    exact ⟨henabled, hshadow, .inl rfl⟩
  have hfind : p.endTrainStepSpan.findOpen optimizer .step = some entry := by
    rw [end_train_eq]
    exact hentry
  have hstep : ((p.endTrainStepSpan.logModuleStage true .step optimizer true).processHook true
      .step optimizer).Inv others ∧ ((p.endTrainStepSpan.logModuleStage true .step optimizer
        true).processHook true .step optimizer).trainStepCm = none := by
    rw [logModuleStage, if_pos hlogs, if_pos rfl]
    refine ⟨(h.end_train.complete hfind).processHook true, ?_⟩
    rw [complete_eq hfind, end_train_eq, processHook]
    split <;> rfl
  obtain ⟨hinv, hcm⟩ := hstep
  rw [Probe.endSampled]
  generalize (p.endTrainStepSpan.logModuleStage true .step optimizer true).processHook true
    .step optimizer = q at hinv hcm
  have hoffset : Inv { q with offset := 0 } others := hinv.same rfl
  obtain ⟨hfinish, hnone⟩ := Inv.finish q.openSpans hoffset rfl hcm
  change (closeStepWall (cleanupStepResources _) true).Settled others
  rw [finishOpenStages]
  generalize List.foldl (fun q entry => q.completePostStage entry.module entry.stage)
    { q with offset := 0 } q.openSpans = r at hfinish hnone
  obtain ⟨thread, htracks, heq⟩ := cleanup_cases
    (p := { r with pending := [], saved := r.saved ++ r.pending }) hfinish.tracks hnone
  rw [heq]
  exact hfinish.logged.settle (.inr ⟨rfl, rfl⟩) htracks rfl rfl hnone (fun _ => rfl) (fun _ => rfl)
    rfl

/-- A probed step ends with its own entry. -/
def Ends (p : Probe M) (optimizer : M) : Prop :=
  p.enabled = true → p.finalized = true → p.shadowStep = false → p.sampledStep = true →
    (p.findOpen optimizer .step).isSome = true

instance : Decidable (p.Ends optimizer) := inferInstanceAs (Decidable (_ → _ → _ → _ → _))

theorem Settled.postStepHook (h : p.Inv others) (hends : p.Ends optimizer) :
    (p.postStepHook optimizer).Settled others := by
  rw [Probe.postStepHook]
  split
  next hoff =>
    obtain ⟨hopen, hpending, -⟩ := h.idle (.inl (by simpa using hoff))
    exact ⟨h, hopen, hpending⟩
  next hon =>
    have henabled : p.enabled = true := by simpa using hon
    split
    next hdiscovery => exact .endDiscovery h henabled (by simpa using hdiscovery) optimizer
    next hfinalized =>
      have hfinalized : p.finalized = true := by simpa using hfinalized
      split
      next hshadow => exact .endShadow h hshadow
      next hnormal =>
        have hnormal : p.shadowStep = false := by simpa using hnormal
        split
        · exact .endUnsampled h
        next hsampled =>
          exact .endSampled h henabled hnormal
            (hends henabled hfinalized hnormal (by simpa using hsampled))

end Probing.Profiling.TorchProbe.Probe
