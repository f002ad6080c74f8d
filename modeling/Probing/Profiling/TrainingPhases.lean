import Probing.Profiling.TrainingHooks

/-!
# The two halves of a step

After the hooks before a step some party owns an optimizer span, where one was there to enter it;
the hooks after the step exit it.
-/

namespace Probing.Profiling.TorchProbe.Trainer

open Probing.Tracing (Phase)

variable {M : Type} [DecidableEq M] {s t : Trainer M} {user : Option Handle} {free : Prop}

/-- The span that the trackers hold is open. -/
def Ready (s : Trainer M) : Prop :=
  (s.hookSpans .optimizer).isSome = true → s.probe.thread.opt ≠ []

omit [DecidableEq M] in
/-- Where no optimizer span was open and the probe did nothing, somebody else owns it. -/
theorem Before.outer_of_nil (h : Before True s t user) (hs : s.Sound user)
    (hopt : s.probe.thread.opt = []) (hprobe : t.probe.handles = s.probe.handles)
    (hbusy : t.probe.thread.opt ≠ []) : opts (t.rest user) ≠ [] := by
  have hkept := h.kept trivial (fun hne => (hne hopt).elim) hbusy
  have hnil := hs.probe.holds.opts_nil hopt
  rw [opts_append] at hnil
  rw [handles, hprobe, opts_append, (List.append_eq_nil_iff.mp hnil).1] at hkept
  exact hkept

omit [DecidableEq M] in
theorem tracked_step_pre (s : Trainer M) : Tracked s s.stepPre :=
  (tracked_hookExit s .backward).trans (tracked_hookEnter _ .optimizer)

omit [DecidableEq M] in
theorem Tracked.handles (h : Tracked s t) : t.probe.handles = s.probe.handles := by
  rw [h.eq]
  rfl

omit [DecidableEq M] in
/-- After the hook of a tracker an optimizer span is open. -/
theorem Sound.step_pre_busy (h : s.Sound user) (hready : s.Ready) :
    s.stepPre.probe.thread.opt ≠ [] := by
  have hbefore : Before True s s.stepPre user := h.step_pre
  have hne : Phase.optimizer ≠ .backward := by decide
  have hhook : (s.hookExit .backward).hookSpans .optimizer = s.hookSpans .optimizer :=
    Function.update_of_ne hne none s.hookSpans
  by_cases hsome : (s.hookSpans .optimizer).isSome = true
  · exact hbefore.busy (hready hsome)
  · rw [stepPre, Trainer.hookEnter]
    split
    next hactive =>
      obtain hactive | hspan := hactive
      · intro hnil
        rw [Thread.activeSpanByPhase_eq_none.mpr hnil] at hactive
        cases hactive
      · exact (hsome (hhook ▸ hspan)).elim
    · exact Thread.enter_opens

omit [DecidableEq M] in
theorem Sound.iterate_step_pre (h : s.Sound user) (hready : s.Ready) (n : ℕ) :
    Before free s (stepPre^[n] s) user ∧ Tracked s (stepPre^[n] s) ∧
      (stepPre^[n] s).Ready ∧ (0 < n → (stepPre^[n] s).probe.thread.opt ≠ []) := by
  induction n generalizing s with
  | zero => exact ⟨.refl h, .refl s, hready, fun hlt => (Nat.lt_irrefl 0 hlt).elim⟩
  | succ n ih =>
      have hfirst : Before free s s.stepPre user := h.step_pre
      have hbusy := h.step_pre_busy hready
      obtain ⟨hbefore, htracked, hnext, -⟩ := ih hfirst.sound fun _ => hbusy
      rw [Function.iterate_succ_apply]
      exact ⟨hfirst.trans hbefore, (tracked_step_pre s).trans htracked, hnext,
        fun _ => hbefore.busy hbusy⟩

/-- The probe's hook before a step. -/
theorem Sound.pre_probe (h : s.Sound user) :
    Before (s.installed = true → s.probe.losesStep s.optimizer = false) s
      (s.probing (·.preStepHook s.optimizer)) user := by
  rw [probing]
  split
  next hinstalled =>
    have henters := Probe.Enters.preStepHook h.probe s.optimizer
    refine ⟨⟨henters.frame, rfl, rfl, rfl, rfl⟩,
      ⟨henters.steady, h.hooks, h.others, fun hidle => ?_⟩, henters.microStep, henters.busy, id,
      fun hfree => henters.kept (hfree hinstalled)⟩
    have hoff : s.probe.enabled = false := by
      obtain hfalse | hoff := hidle
      · cases hinstalled.symm.trans hfalse
      · exact henters.frame.enabled ▸ hoff
    exact (Probe.handles_off hoff false s.optimizer s.optimizer).2.1.trans (h.idle (.inr hoff))
  · exact .refl h

/-- The hooks before a step lose no span, unless the probe does; a tracker, or the probe that opens
its own, leaves one open; and it is not the probe's where a tracker is first or the probe is
quiet. -/
theorem Sound.preHooks (h : s.Sound user) (hready : s.Ready) :
    Before (s.installed = true → s.probe.losesStep s.optimizer = false) s s.preHooks user ∧
      (0 < s.before + s.after ∨ s.installed = true ∧ s.probe.opensStep s.optimizer = true →
        s.preHooks.probe.thread.opt ≠ []) ∧
      (s.probe.thread.opt = [] → 0 < s.before ∨ 0 < s.after ∧ (s.installed = true →
          (s.probe.enabled && s.probe.finalized) = false ∧
            s.probe.leavesStep s.optimizer = false) →
        opts (s.preHooks.rest user) ≠ []) := by
  have hfirst (free : Prop) : Before free s (stepPre^[s.before] s) user :=
    (h.iterate_step_pre hready s.before).1
  obtain ⟨-, htracked, hready', hbusy⟩ :=
    (h.iterate_step_pre hready s.before : Before True s _ user ∧ _)
  have hzero : s.before = 0 → stepPre^[s.before] s = s := fun hz => by rw [hz]; rfl
  rw [Trainer.preHooks]
  generalize stepPre^[s.before] s = a at hfirst htracked hready' hbusy hzero
  have hoptimizer : a.optimizer = s.optimizer := htracked.framed.optimizer
  have hinstalled : a.installed = s.installed := htracked.framed.installed
  have hstep : a.probe.losesStep s.optimizer = s.probe.losesStep s.optimizer ∧
      a.probe.opensStep s.optimizer = s.probe.opensStep s.optimizer := by
    rw [htracked.eq]
    exact Probe.step_of_thread _ _ _
  have hprobe := (hfirst True).sound.pre_probe
  rw [hoptimizer, hinstalled, hstep.1] at hprobe
  have hopens : s.installed = true ∧ s.probe.opensStep s.optimizer = true →
      (a.probing (·.preStepHook s.optimizer)).probe.thread.opt ≠ [] := fun ⟨hi, hopen⟩ => by
    rw [probing, if_pos (hinstalled.trans hi)]
    exact Probe.busy_preStepHook (hfirst True).sound.probe (hstep.2.trans hopen)
  have hquiet : s.before = 0 → s.probe.thread.opt = [] → (s.installed = true →
      (s.probe.enabled && s.probe.finalized) = false ∧ s.probe.leavesStep s.optimizer = false) →
      (a.probing (·.preStepHook s.optimizer)).probe.thread.opt = [] := fun hz hopt hq => by
    rw [hzero hz, probing]
    split
    next hi =>
      obtain ⟨hoff, hleaves⟩ := hq hi
      exact (congrArg Thread.opt (Probe.preStepHook_quiet hoff hleaves)).trans hopt
    · exact hopt
  have hready_probe : (a.probing (·.preStepHook s.optimizer)).Ready := fun hsome => by
    refine hprobe.busy (hready' ?_)
    rw [probing] at hsome
    split at hsome <;> exact hsome
  generalize a.probing (·.preStepHook s.optimizer) = b at hprobe hopens hquiet hready_probe
  have hlast (free : Prop) : Before free b (stepPre^[s.after] b) user :=
    (hprobe.sound.iterate_step_pre hready_probe s.after).1
  obtain ⟨-, hafter, -, hbusy'⟩ :=
    (hprobe.sound.iterate_step_pre hready_probe s.after : Before True b _ user ∧ _)
  refine ⟨((hfirst _).trans hprobe).trans (hlast _), fun hany => ?_, fun hopt hwho => ?_⟩
  · obtain hcount | hprobes := hany
    · obtain hnone | hpos := Nat.eq_zero_or_pos s.after
      · exact (hlast True).busy (hprobe.busy (hbusy (by omega)))
      · exact hbusy' hpos
    · exact (hlast True).busy (hopens hprobes)
  · by_cases hpos : 0 < s.before
    · have houter := (hfirst True).outer_of_nil h hopt htracked.handles (hbusy hpos)
      exact (hlast True).outer (hprobe.outer houter)
    · have hz : s.before = 0 := Nat.eq_zero_of_not_pos hpos
      obtain hpos' | ⟨hlt, hq⟩ := hwho
      · exact (hpos hpos').elim
      · exact (hlast True).outer_of_nil hprobe.sound (hquiet hz hopt hq) hafter.handles (hbusy' hlt)

theorem Sound.body (h : s.Sound user) (body : List (Event M)) :
    During s (body.foldl Trainer.event s) user := by
  induction body generalizing s with
  | nil => exact .refl h
  | cons e body ih =>
      have hfirst := h.event e
      exact hfirst.trans (ih hfirst.sound)

/-- What the hooks after a step leave as it is. -/
structure After (s t : Trainer M) (user : Option Handle) : Prop where
  sound : t.Sound user
  installed : t.installed = s.installed
  before : t.before = s.before
  after : t.after = s.after
  optimizer : t.optimizer = s.optimizer
  ownsOptimizer : t.probe.ownsOptimizer = s.probe.ownsOptimizer
  hook : s.hookSpans .optimizer = none → t.hookSpans .optimizer = none

variable {u : Trainer M}

omit [DecidableEq M] in
theorem After.trans (h : After s t user) (h' : After t u user) : After s u user :=
  ⟨h'.sound, h'.installed.trans h.installed, h'.before.trans h.before, h'.after.trans h.after,
    h'.optimizer.trans h.optimizer, h'.ownsOptimizer.trans h.ownsOptimizer,
    fun hook => h'.hook (h.hook hook)⟩

omit [DecidableEq M] in
theorem Sound.iterate_step_post (h : s.Sound user) (n : ℕ) :
    After s (stepPost^[n] s) user ∧ Tracked s (stepPost^[n] s) ∧
      credit (stepPost^[n] s).probe.thread ((stepPost^[n] s).handles user) =
        credit s.probe.thread (s.handles user) ∧
      (0 < n → (stepPost^[n] s).hookSpans .optimizer = none) := by
  induction n generalizing s with
  | zero =>
      exact ⟨⟨h, rfl, rfl, rfl, rfl, rfl, id⟩, .refl s, rfl, fun hlt => (Nat.lt_irrefl 0 hlt).elim⟩
  | succ n ih =>
      obtain ⟨hsound, hcredit⟩ := h.hookExit .optimizer
      have htracked := tracked_hookExit s .optimizer
      have hnone : Function.update s.hookSpans .optimizer none .optimizer = none :=
        Function.update_self Phase.optimizer none s.hookSpans
      have hframed := htracked.framed
      have hfirst : After s (s.hookExit .optimizer) user :=
        ⟨hsound, hframed.installed, hframed.before, hframed.after, hframed.optimizer,
          hframed.probe.ownsOptimizer, fun _ => hnone⟩
      obtain ⟨hafter, hrest, hsame, -⟩ := ih hsound
      rw [Function.iterate_succ_apply]
      exact ⟨hfirst.trans hafter, htracked.trans hrest, hsame.trans hcredit,
        fun _ => hafter.hook hnone⟩

/-- The end of a step of the discovery is no matter where somebody else owns the step. -/
def Settled (s : Trainer M) : Prop :=
  s.installed = true → s.probe.enabled = true → s.probe.finalized = true ∨
    s.probe.ownsOptimizer s.optimizer = true ∧ opts s.probe.handles = []

/-- The probe's hook after a step. -/
theorem Sound.post_probe (h : s.Sound user) :
    After s (s.probing (·.postStepHook s.optimizer)) user ∧ (s.Settled →
      credit (s.probing (·.postStepHook s.optimizer)).probe.thread
          ((s.probing (·.postStepHook s.optimizer)).handles user) =
        credit s.probe.thread (s.handles user) ∧
      opts (s.probing (·.postStepHook s.optimizer)).probe.handles = []) := by
  rw [probing]
  split
  next hinstalled =>
    obtain ⟨hsteady, henabled, howns⟩ := h.probe.postStepHook s.optimizer
    have hoff (hoff : s.probe.enabled = false) :
        (s.probe.postStepHook s.optimizer).handles = s.probe.handles :=
      (Probe.handles_off hoff false s.optimizer s.optimizer).2.2
    refine ⟨⟨⟨hsteady, h.hooks, h.others, fun hidle => ?_⟩, rfl, rfl, rfl, rfl, howns, id⟩,
      fun hsettled => ?_⟩
    · have hdown : s.probe.enabled = false := by
        obtain hfalse | hdown := hidle
        · cases hinstalled.symm.trans hfalse
        · exact henabled ▸ hdown
      exact (hoff hdown).trans (h.idle (.inr hdown))
    · by_cases hon : s.probe.enabled = true
      · by_cases hfinalized : s.probe.finalized = true
        · obtain ⟨hexits, hnil⟩ := Probe.Exits.postStepHook h.probe hon hfinalized s.optimizer
          refine ⟨hexits.credit, ?_⟩
          rw [hnil]
          rfl
        · obtain hf | ⟨htracker, hnil⟩ := hsettled hinstalled hon
          · exact (hfinalized hf).elim
          · obtain ⟨hexits, hsame⟩ := Probe.Exits.endDiscovery h.probe htracker
            have heq : s.probe.postStepHook s.optimizer = s.probe.endDiscovery s.optimizer := by
              rw [Probe.postStepHook, if_neg (by simp [hon]), if_pos (by simpa using hfinalized)]
            rw [heq]
            exact ⟨hexits.credit, hsame ▸ hnil⟩
      · have hon : s.probe.enabled = false := by simpa using hon
        have heq : s.probe.postStepHook s.optimizer = s.probe := by
          rw [Probe.postStepHook, if_pos (by simp [hon])]
        rw [heq]
        refine ⟨rfl, ?_⟩
        rw [h.idle (.inr hon)]
        rfl
  next hinstalled =>
    refine ⟨⟨h, rfl, rfl, rfl, rfl, rfl, id⟩, fun _ => ⟨rfl, ?_⟩⟩
    rw [h.idle (.inl (by simpa using hinstalled))]
    rfl

theorem Sound.postHooks (h : s.Sound user) :
    After s s.postHooks user ∧ (0 < s.before + s.after →
      s.postHooks.hookSpans .optimizer = none) ∧ (s.Settled →
      credit s.postHooks.probe.thread (s.postHooks.handles user) =
        credit s.probe.thread (s.handles user) ∧ opts s.postHooks.probe.handles = []) := by
  obtain ⟨hfirst, htracked, hcredit, hnone⟩ := h.iterate_step_post s.before
  rw [Trainer.postHooks]
  generalize stepPost^[s.before] s = a at hfirst htracked hcredit hnone
  obtain ⟨hprobe, hclosed⟩ := hfirst.sound.post_probe
  rw [hfirst.optimizer] at hprobe hclosed
  have hsettled : s.Settled → a.Settled := fun hs => by
    rw [Settled, htracked.eq]
    exact hs
  generalize a.probing (·.postStepHook s.optimizer) = b at hprobe hclosed
  obtain ⟨hlast, hafter, hsame, hnone'⟩ := hprobe.sound.iterate_step_post s.after
  refine ⟨(hfirst.trans hprobe).trans hlast, fun hcount => ?_, fun hs => ?_⟩
  · obtain hzero | hpos := Nat.eq_zero_or_pos s.after
    · exact hlast.hook (hprobe.hook (hnone (by omega)))
    · exact hnone' hpos
  · obtain ⟨hsum, hnil⟩ := hclosed (hsettled hs)
    exact ⟨(hsame.trans hsum).trans hcredit, hafter.handles ▸ hnil⟩

end Probing.Profiling.TorchProbe.Trainer
