import Probing.Profiling.StepCredit
import Probing.Profiling.TorchHooks

/-!
# What the hooks of a probe do to the step

A hook before a step only enters spans, one after it only exits them.
-/

namespace Probing.Profiling.TorchProbe

open Probing.Core
open Probing.Tracing (Phase)

/-- A thread entered some spans. -/
structure Entered (t t' : Thread) (new : List Handle) : Prop where
  holds : ∀ handles, Holds t handles → Holds t' (new ++ handles)
  kept : ∀ handles, Kept t handles → Kept t' (new ++ handles)
  microStep : t'.microStep = t.microStep
  busy : t.opt ≠ [] → t'.opt ≠ []

theorem Entered.refl (t : Thread) : Entered t t [] := ⟨fun _ => id, fun _ => id, rfl, id⟩

theorem Entered.enter (t : Thread) (phase : Phase) :
    Entered t (t.enter phase).2 [(t.enter phase).1] :=
  ⟨fun _ h => h.enter phase, fun _ h => h.enter phase, Thread.microStep_enter, Thread.enter_busy⟩

/-- A span is entered on another thread. -/
theorem Entered.elsewhere (t : Thread) {phase : Phase} (hphase : phase ≠ .optimizer) :
    Entered t { t with next := t.next + 1 } [⟨t.next, phase, false⟩] := by
  have hopts (handles : List Handle) : opts ([⟨t.next, phase, false⟩] ++ handles) = opts handles :=
    opts_append_left (fun g hg => List.mem_singleton.mp hg ▸ hphase) handles
  refine ⟨fun handles h => ⟨h.one, fun e he => Nat.lt_succ_of_lt (h.fresh e he), fun g hg hre => ?_,
    hopts handles ▸ h.owner, hopts handles ▸ h.owned⟩,
    fun handles h hopt => hopts handles ▸ h hopt, rfl, id⟩
  obtain rfl | hg := List.mem_cons.mp hg
  · exact ⟨Nat.lt_succ_self _, fun other hother =>
      (Nat.lt_irrefl _ (h.fresh _ hother)).elim⟩
  · obtain ⟨hlt, hfits⟩ := h.fits g hg hre
    exact ⟨Nat.lt_succ_of_lt hlt, hfits⟩

namespace Probe

variable {M : Type}

/-- The handles that the probe has to exit. -/
def handles (p : Probe M) : List Handle :=
  p.openSpans.filterMap Entry.spanCm ++ p.trainStepCm.toList

variable [DecidableEq M] {p q r : Probe M} {mod optimizer : M} {stage : Stage}
  {post force : Bool} {rest : List Handle}

/-- The handles of the probe and of others, with the spans of each stage of its phase. -/
structure Steady (p : Probe M) (rest : List Handle) : Prop where
  holds : Holds p.thread (p.handles ++ rest)
  keys : (p.openSpans.map Entry.key).Nodup
  phases : ∀ e ∈ p.openSpans, ∀ h ∈ e.spanCm, h.phase = e.stage.phase

omit [DecidableEq M] in
theorem Steady.same (h : p.Steady rest) (hthread : q.thread = p.thread)
    (hopen : q.openSpans = p.openSpans) (hcm : q.trainStepCm = p.trainStepCm) :
    q.Steady rest := by
  refine ⟨?_, hopen ▸ h.keys, hopen ▸ h.phases⟩
  rw [hthread, handles, hopen, hcm]
  exact h.holds

/-- The handle of the entry of a stage. -/
def spanOf (p : Probe M) (mod : M) (stage : Stage) : Option Handle :=
  (p.findOpen mod stage).bind Entry.spanCm

omit [DecidableEq M] in
theorem beginSpan_entered (p : Probe M) (mod : M) (stage : Stage) :
    Entered p.thread (p.beginSpan mod stage).2.thread (p.beginSpan mod stage).1.toList := by
  rw [beginSpan]
  split
  · exact .enter p.thread stage.phase
  · exact .refl p.thread

omit [DecidableEq M] in
theorem beginSpan_phase (p : Probe M) (mod : M) (stage : Stage) :
    ∀ h ∈ (p.beginSpan mod stage).1, h.phase = stage.phase := by
  rw [beginSpan]
  split
  · rintro h hh
    obtain rfl := Option.some.inj hh
    exact Thread.phase_enter
  · exact fun _ hh => (by cases hh)

/-- The handle that loses its place when an entry is set. -/
theorem handles_logPre (h : (p.openSpans.map Entry.key).Nodup) (mod : M) (stage : Stage) :
    ((p.beginSpan mod stage).1.toList ++ (p.handles ++ rest)).Perm
      ((p.spanOf mod stage).toList ++ ((p.logPre mod stage).handles ++ rest)) := by
  have herase := Keyed.filterMap_perm_erase Entry.key Entry.spanCm p.openSpans (mod, stage)
  have hset := Keyed.filterMap_perm_set Entry.spanCm h
    (p.newEntry mod stage (p.beginSpan mod stage).1)
  rw [logPre_eq, handles, handles, List.append_assoc, List.append_assoc]
  calc
    List.Perm _ ((p.beginSpan mod stage).1.toList ++ ((p.spanOf mod stage).toList ++
        ((Keyed.erase Entry.key p.openSpans (mod, stage)).filterMap Entry.spanCm ++
          (p.trainStepCm.toList ++ rest)))) := by
      rw [← List.append_assoc (p.spanOf mod stage).toList]
      exact (herase.append_right _).append_left _
    List.Perm _ ((p.spanOf mod stage).toList ++ ((p.beginSpan mod stage).1.toList ++
        ((Keyed.erase Entry.key p.openSpans (mod, stage)).filterMap Entry.spanCm ++
          (p.trainStepCm.toList ++ rest)))) := List.perm_append_comm_assoc _ _ _
    List.Perm _ _ := by
      rw [← List.append_assoc (p.beginSpan mod stage).1.toList]
      exact (hset.symm.append_right _).append_left _

/-- A handle that is lost keeps the step from being advanced, if it owns its span. -/
theorem Steady.logPre (h : p.Steady rest) : (p.logPre mod stage).Steady rest := by
  have hentered := beginSpan_entered p mod stage
  have hholds := (hentered.holds _ h.holds).perm (handles_logPre h.keys mod stage)
  have hperm := Keyed.perm_set (v := p.newEntry mod stage (p.beginSpan mod stage).1) h.keys
  refine ⟨?_, ?_, fun e he g hg => ?_⟩
  · rw [logPre_eq] at hholds ⊢
    cases hold : p.spanOf mod stage with
    | none =>
        rw [hold] at hholds
        exact hholds
    | some handle =>
        rw [hold] at hholds
        exact hholds.drop
  · rw [logPre_eq]
    exact Keyed.nodup_set h.keys
  · rw [logPre_eq] at he
    obtain rfl | he := List.mem_cons.mp (hperm.mem_iff.mp he)
    · exact beginSpan_phase p mod stage g hg
    · exact h.phases e (Keyed.erase_sublist.mem he) g hg

/-- What the hooks of one step agree on. -/
structure Frame (p q : Probe M) : Prop where
  enabled : q.enabled = p.enabled
  finalized : q.finalized = p.finalized
  ownsOptimizer : q.ownsOptimizer = p.ownsOptimizer

omit [DecidableEq M] in
theorem Frame.trans (h : Frame p q) (h' : Frame q r) : Frame p r :=
  ⟨h'.enabled.trans h.enabled, h'.finalized.trans h.finalized,
    h'.ownsOptimizer.trans h.ownsOptimizer⟩

/-- What a hook before a step does: no span is exited, and none is lost where that is `free`. -/
structure Enters (free : Prop) (p q : Probe M) (rest : List Handle) : Prop where
  frame : Frame p q
  steady : q.Steady rest
  microStep : q.thread.microStep = p.thread.microStep
  busy : p.thread.opt ≠ [] → q.thread.opt ≠ []
  kept : free → Kept p.thread (p.handles ++ rest) → Kept q.thread (q.handles ++ rest)

variable {free : Prop}

omit [DecidableEq M] in
theorem Enters.trans (h : Enters free p q rest) (h' : Enters free q r rest) :
    Enters free p r rest where
  frame := h.frame.trans h'.frame
  steady := h'.steady
  microStep := h'.microStep.trans h.microStep
  busy hopt := h'.busy (h.busy hopt)
  kept hfree hkept := h'.kept hfree (h.kept hfree hkept)

omit [DecidableEq M] in
theorem Enters.same (h : p.Steady rest) (hframe : Frame p q) (hthread : q.thread = p.thread)
    (hopen : q.openSpans = p.openSpans) (hcm : q.trainStepCm = p.trainStepCm) :
    Enters free p q rest := by
  refine ⟨hframe, h.same hthread hopen hcm, by rw [hthread], by rw [hthread]; exact id, fun _ => ?_⟩
  rw [hthread, handles, handles, hopen, hcm]
  exact id

theorem Enters.logPre (h : p.Steady rest)
    (hfree : free → (p.spanOf mod stage).bind Handle.opt = none) :
    Enters free p (p.logPre mod stage) rest := by
  have hentered := beginSpan_entered p mod stage
  have hthread : (p.logPre mod stage).thread = (p.beginSpan mod stage).2.thread := by
    rw [logPre_eq]
  have hframe : Frame p (p.logPre mod stage) := by
    rw [logPre_eq]
    exact ⟨rfl, rfl, rfl⟩
  refine ⟨hframe, h.logPre, hthread ▸ hentered.microStep, hthread ▸ hentered.busy,
    fun hf hkept => ?_⟩
  have hafter := (hentered.kept _ hkept).perm (handles_logPre h.keys mod stage)
  rw [← hthread] at hafter
  intro hopt hnil
  refine hafter hopt ?_
  rw [opts_append, hnil, List.append_nil]
  cases hold : p.spanOf mod stage with
  | none => rfl
  | some handle =>
      have hnone := hfree hf
      rw [hold, Option.bind_some] at hnone
      rw [Option.toList_some, opts_cons, hnone]
      rfl

omit [DecidableEq M] in
theorem Enters.begin_train (h : p.Steady rest) (optimizer : M) :
    Enters free p (p.beginTrainStepSpan optimizer) rest := by
  rw [beginTrainStepSpan]
  split
  · exact .same h ⟨rfl, rfl, rfl⟩ rfl rfl rfl
  next hbegin =>
    have hnone : p.trainStepCm = none := by
      cases hcm : p.trainStepCm with
      | none => rfl
      | some handle => exact (hbegin (.inr (.inl (hcm ▸ rfl)))).elim
    have hhandles : p.handles = p.openSpans.filterMap Entry.spanCm := by
      rw [handles, hnone]
      exact List.append_nil _
    have hentered := Entered.enter p.thread .optimizer
    have hperm : ((p.thread.enter .optimizer).1 :: (p.handles ++ rest)).Perm
        ((p.openSpans.filterMap Entry.spanCm ++ [(p.thread.enter .optimizer).1]) ++ rest) := by
      rw [hhandles, List.append_assoc]
      exact List.perm_middle.symm
    exact ⟨⟨rfl, rfl, rfl⟩, ⟨(hentered.holds _ h.holds).perm hperm, h.keys, h.phases⟩,
      hentered.microStep, hentered.busy, fun _ hkept => (hentered.kept _ hkept).perm hperm⟩

omit [DecidableEq M] in
theorem frame_plan (p : Probe M) : Frame p p.ensureStepPlan := by
  rw [ensureStepPlan]
  split <;> exact ⟨rfl, rfl, rfl⟩

theorem frame_processHook (p : Probe M) : Frame p (p.processHook post stage mod) := by
  rw [processHook]
  split <;> exact ⟨rfl, rfl, rfl⟩

theorem Enters.dispatched (h : p.Steady rest) (hfree : free → p.enabled = true →
      p.shadowStep = false → p.hooksDispatchActive = true →
        (p.spanOf optimizer .step).bind Handle.opt = none) :
    Enters free p (if ¬ p.hooksDispatchActive then p.ensureStepPlan
      else (p.ensureStepPlan.logModuleStage false .step optimizer true).processHook false .step
        optimizer) rest := by
  have hplan : p.ensureStepPlan.thread = p.thread ∧
      p.ensureStepPlan.openSpans = p.openSpans ∧
      p.ensureStepPlan.trainStepCm = p.trainStepCm ∧
      p.ensureStepPlan.shadowStep = p.shadowStep := by
    rw [ensureStepPlan]
    split <;> exact ⟨rfl, rfl, rfl, rfl⟩
  obtain ⟨hthread, hopen, hcm, hshadow⟩ := hplan
  have henabled := (frame_plan p).enabled
  have hsame : Enters free p p.ensureStepPlan rest := .same h (frame_plan p) hthread hopen hcm
  split
  · exact hsame
  next hactive =>
    have hlog : Enters free p.ensureStepPlan
        (p.ensureStepPlan.logModuleStage false .step optimizer true) rest := by
      rw [logModuleStage]
      split
      next hlogs =>
        obtain ⟨hon, hnormal, -⟩ := logs_iff.mp hlogs
        refine .logPre hsame.steady fun hf => ?_
        have hnone := hfree hf (henabled ▸ hon) (hshadow ▸ hnormal) (by simpa using hactive)
        rw [spanOf, findOpen, hopen]
        exact hnone
      · exact .same hsame.steady ⟨rfl, rfl, rfl⟩ rfl rfl rfl
    refine (hsame.trans hlog).trans (.same hlog.steady (frame_processHook _) ?_ ?_ ?_) <;>
      rw [processHook] <;> split <;> rfl

/-- Whether the entry of the step, with its span, is about to lose its place. -/
def losesStep (p : Probe M) (optimizer : M) : Bool :=
  p.enabled && !p.shadowStep && p.hooksDispatchActive &&
    ((p.spanOf optimizer .step).bind Handle.opt).isSome

theorem losesStep_of_nil (h : opts p.handles = []) : p.losesStep optimizer = false := by
  have hnone : (p.spanOf optimizer .step).bind Handle.opt = none := by
    refine Option.bind_eq_none_iff.mpr fun handle hspan => ?_
    obtain ⟨entry, hentry, hcm⟩ := Option.bind_eq_some_iff.mp hspan
    have hmem : handle ∈ p.handles :=
      List.mem_append_left _ (List.mem_filterMap.mpr ⟨entry, (Keyed.mem_of_find hentry).1, hcm⟩)
    exact List.filterMap_eq_nil_iff.mp h handle hmem
  rw [losesStep, hnone]
  exact Bool.and_false _

theorem Enters.preStepHook (h : p.Steady rest) (optimizer : M) :
    Enters (p.losesStep optimizer = false) p (p.preStepHook optimizer) rest := by
  have hfree : p.losesStep optimizer = false → p.enabled = true → p.shadowStep = false →
      p.hooksDispatchActive = true → (p.spanOf optimizer .step).bind Handle.opt = none :=
    fun hkeeps henabled hshadow hactive => by
      rw [losesStep, henabled, hshadow, hactive] at hkeeps
      simpa using hkeeps
  rw [Probe.preStepHook]
  split
  · exact .same h ⟨rfl, rfl, rfl⟩ rfl rfl rfl
  · by_cases hboth : (p.enabled && p.finalized) = true
    · rw [if_pos hboth]
      have hbegin : Enters (p.losesStep optimizer = false) p (p.beginTrainStepSpan optimizer)
          rest := .begin_train h optimizer
      obtain ⟨spanCm, thread, entered, heq⟩ := begin_train_eq (p := p) optimizer
      rw [heq] at hbegin ⊢
      refine hbegin.trans (.dispatched hbegin.steady fun hkeeps henabled hshadow hactive => ?_)
      rw [hooksDispatchActive, plan_eq] at hactive
      exact hfree hkeeps henabled hshadow hactive
    · rw [if_neg hboth]
      exact .dispatched h hfree

/-- Whether a step opens a span that the probe owns or finds open. -/
def opensStep (p : Probe M) (optimizer : M) : Bool :=
  p.enabled && p.finalized && !p.shadowStep && p.traceSpans &&
    (p.trainStepCm.isNone && !p.ownsOptimizer optimizer ||
      p.hooksDispatchActive && !p.ownsModule optimizer)

theorem dispatched_opens (henabled : p.enabled = true) (hshadow : p.shadowStep = false)
    (htrace : p.traceSpans = true) (hactive : p.hooksDispatchActive = true)
    (howns : p.ownsModule optimizer = false) :
    (if ¬ p.hooksDispatchActive then p.ensureStepPlan
      else (p.ensureStepPlan.logModuleStage false .step optimizer true).processHook false .step
        optimizer).thread.opt ≠ [] := by
  have hplan : p.ensureStepPlan.enabled = true ∧ p.ensureStepPlan.shadowStep = false ∧
      (p.ensureStepPlan.traceSpans && !p.ensureStepPlan.ownsModule optimizer) = true := by
    have hemits : (p.traceSpans && !p.ownsModule optimizer) = true := by simp [htrace, howns]
    rw [ensureStepPlan]
    split <;> exact ⟨henabled, hshadow, hemits⟩
  obtain ⟨hon, hnormal, hemits⟩ := hplan
  have hlogs : p.ensureStepPlan.logs false .step optimizer true = true :=
    logs_iff.mpr ⟨hon, hnormal, .inl rfl⟩
  have hprocess (q : Probe M) : (q.processHook false .step optimizer).thread = q.thread := by
    rw [processHook]
    split <;> rfl
  rw [if_neg (by simp [hactive]), hprocess, logModuleStage, if_pos hlogs,
    if_neg Bool.false_ne_true, logPre_eq, beginSpan, if_pos hemits]
  exact Thread.enter_opens

theorem busy_preStepHook (h : p.Steady rest) (hopens : p.opensStep optimizer = true) :
    (p.preStepHook optimizer).thread.opt ≠ [] := by
  simp only [opensStep, Bool.and_eq_true, Bool.or_eq_true, Bool.not_eq_true'] at hopens
  obtain ⟨⟨⟨⟨henabled, hfinalized⟩, hshadow⟩, htrace⟩, hwhy⟩ := hopens
  have hboth : (p.enabled && p.finalized) = true := by rw [henabled, hfinalized]; rfl
  rw [Probe.preStepHook, if_neg (by simp [hshadow]), if_pos hboth]
  have hbegin : Enters False p (p.beginTrainStepSpan optimizer) rest := .begin_train h optimizer
  obtain ⟨hcm, howns⟩ | ⟨hactive, howns⟩ := hwhy
  · refine (Enters.dispatched hbegin.steady False.elim).busy ?_
    have hcm : p.trainStepCm = none := by simpa using hcm
    rw [beginTrainStepSpan, if_neg (by simp [htrace, hcm, howns])]
    exact Thread.enter_opens
  · obtain ⟨spanCm, thread, entered, heq⟩ := begin_train_eq (p := p) optimizer
    rw [heq]
    refine dispatched_opens henabled hshadow htrace ?_ howns
    rw [hooksDispatchActive, plan_eq]
    exact hactive

/-- What a hook after a step does: no span is entered, and what the probe held was advanced. -/
structure Exits (p q : Probe M) (rest : List Handle) : Prop where
  enabled : q.enabled = p.enabled
  ownsOptimizer : q.ownsOptimizer = p.ownsOptimizer
  steady : q.Steady rest
  credit : credit q.thread (q.handles ++ rest) = credit p.thread (p.handles ++ rest)
  cm : q.trainStepCm = none ∨ q.trainStepCm = p.trainStepCm

omit [DecidableEq M] in
theorem Exits.trans (h : p.Exits q rest) (h' : q.Exits r rest) : p.Exits r rest where
  enabled := h'.enabled.trans h.enabled
  ownsOptimizer := h'.ownsOptimizer.trans h.ownsOptimizer
  steady := h'.steady
  credit := h'.credit.trans h.credit
  cm := by
    obtain hcm | hcm := h'.cm
    · exact .inl hcm
    · exact hcm ▸ h.cm

omit [DecidableEq M] in
theorem Exits.cm_none (h : p.Exits q rest) (hp : p.trainStepCm = none) :
    q.trainStepCm = none := by
  obtain hcm | hcm := h.cm
  · exact hcm
  · exact hcm.trans hp

omit [DecidableEq M] in
theorem Exits.same (h : p.Steady rest) (henabled : q.enabled = p.enabled)
    (howns : q.ownsOptimizer = p.ownsOptimizer) (hthread : q.thread = p.thread)
    (hopen : q.openSpans = p.openSpans) (hcm : q.trainStepCm = p.trainStepCm) :
    p.Exits q rest := by
  refine ⟨henabled, howns, h.same hthread hopen hcm, ?_, .inr hcm⟩
  rw [hthread, handles, handles, hopen, hcm]

omit [DecidableEq M] in
theorem holds_exits {handle : Option Handle} {all : List Handle}
    (h : Holds p.thread (handle.toList ++ all)) :
    Holds (p.exits handle).thread all ∧
      TorchProbe.credit (p.exits handle).thread all =
        TorchProbe.credit p.thread (handle.toList ++ all) := by
  cases handle with
  | none => exact ⟨h, rfl⟩
  | some handle => exact h.exit

omit [DecidableEq M] in
theorem Exits.end_train (h : p.Steady rest) : p.Exits p.endTrainStepSpan rest := by
  have hperm : (p.handles ++ rest).Perm
      (p.trainStepCm.toList ++ (p.openSpans.filterMap Entry.spanCm ++ rest)) := by
    rw [handles, List.append_assoc]
    exact List.perm_append_comm_assoc _ _ _
  obtain ⟨hholds, hcredit⟩ := holds_exits (h.holds.perm hperm)
  have hhandles : p.endTrainStepSpan.handles ++ rest =
      p.openSpans.filterMap Entry.spanCm ++ rest := by
    rw [end_train_eq, handles]
    exact congrArg (· ++ rest) (List.append_nil _)
  refine ⟨by rw [end_train_eq], by rw [end_train_eq], ⟨?_, ?_, ?_⟩, ?_, .inl ?_⟩
  · rw [hhandles, end_train_eq]
    exact hholds
  · rw [end_train_eq]
    exact h.keys
  · rw [end_train_eq]
    exact h.phases
  · rw [hhandles, end_train_eq, credit_perm hperm]
    exact hcredit
  · rw [end_train_eq]

theorem complete_fields (p : Probe M) (mod : M) (stage : Stage) :
    (p.completePostStage mod stage).thread = (p.exits (p.spanOf mod stage)).thread ∧
    (p.completePostStage mod stage).openSpans =
      Keyed.erase Entry.key p.openSpans (mod, stage) ∧
    (p.completePostStage mod stage).trainStepCm = p.trainStepCm ∧
    Frame p (p.completePostStage mod stage) := by
  rw [completePostStage, spanOf]
  cases (p.findOpen mod stage).bind Entry.spanCm <;>
    exact ⟨rfl, rfl, rfl, rfl, rfl, rfl⟩

/-- A stage is completed, with or without its entry. -/
theorem Exits.complete (h : p.Steady rest) (mod : M) (stage : Stage) :
    p.Exits (p.completePostStage mod stage) rest := by
  obtain ⟨hthread, hopen, hcm, hframe⟩ := complete_fields p mod stage
  have herase := Keyed.filterMap_perm_erase Entry.key Entry.spanCm p.openSpans (mod, stage)
  have hperm : (p.handles ++ rest).Perm ((p.spanOf mod stage).toList ++
      ((p.completePostStage mod stage).handles ++ rest)) := by
    rw [handles, handles, hopen, hcm, ← List.append_assoc, ← List.append_assoc]
    exact (herase.append_right _).append_right _
  obtain ⟨hholds, hcredit⟩ := holds_exits (h.holds.perm hperm)
  refine ⟨hframe.enabled, hframe.ownsOptimizer, ⟨hthread ▸ hholds, ?_, fun e he => ?_⟩, ?_,
    .inr hcm⟩
  · rw [hopen]
    exact Keyed.nodup_erase h.keys
  · rw [hopen] at he
    exact h.phases e (Keyed.erase_sublist.mem he)
  · rw [hthread, credit_perm hperm]
    exact hcredit

theorem Exits.log_post (h : p.Steady rest) :
    p.Exits (p.logModuleStage true stage mod force) rest := by
  rw [logModuleStage]
  split
  · exact .complete h mod stage
  · exact .same h rfl rfl rfl rfl rfl

theorem Exits.processHook (h : p.Steady rest) : p.Exits (p.processHook post stage mod) rest := by
  rw [Probe.processHook]
  split <;> exact .same h rfl rfl rfl rfl rfl

theorem Exits.finish (l : List (Entry M)) (h : p.Steady rest) :
    p.Exits (l.foldl (fun q entry => q.completePostStage entry.module entry.stage) p) rest := by
  induction l generalizing p with
  | nil => exact .same h rfl rfl rfl rfl rfl
  | cons entry l ih =>
      have hfirst := Exits.complete h entry.module entry.stage
      exact hfirst.trans (ih hfirst.steady)

omit [DecidableEq M] in
theorem exits_all (l : List (Entry M)) {all : List Handle}
    (h : Holds p.thread (l.filterMap Entry.spanCm ++ all)) :
    ∃ thread, Holds thread all ∧ TorchProbe.credit thread all =
        TorchProbe.credit p.thread (l.filterMap Entry.spanCm ++ all) ∧
      l.foldl (fun q entry => q.exits entry.spanCm) p = { p with thread := thread } := by
  induction l generalizing p with
  | nil => exact ⟨_, h, rfl, rfl⟩
  | cons entry l ih =>
      have hperm : ((entry :: l).filterMap Entry.spanCm ++ all).Perm
          (entry.spanCm.toList ++ (l.filterMap Entry.spanCm ++ all)) := by
        rw [← List.append_assoc]
        exact (Keyed.filterMap_perm_cons _ (List.Perm.refl _)).append_right _
      obtain ⟨hholds, hcredit⟩ := holds_exits (h.perm hperm)
      obtain ⟨thread, hthread, hsame, heq⟩ :=
        ih (p := { p with thread := (p.exits entry.spanCm).thread }) hholds
      refine ⟨thread, hthread, (hsame.trans hcredit).trans (credit_perm hperm).symm, ?_⟩
      rw [List.foldl_cons, exits_eq]
      exact heq

omit [DecidableEq M] in
theorem Exits.cleanup (h : p.Steady rest) : p.Exits p.cleanupStepResources rest ∧
    p.cleanupStepResources.openSpans = [] ∧
      p.cleanupStepResources.trainStepCm = p.trainStepCm := by
  have hholds := h.holds
  rw [handles, List.append_assoc] at hholds
  obtain ⟨thread, hthread, hcredit, heq⟩ := exits_all p.openSpans hholds
  rw [cleanupStepResources, heq]
  refine ⟨⟨rfl, rfl, ⟨hthread, List.nodup_nil, fun _ he => (by cases he)⟩, ?_, .inr rfl⟩, rfl, rfl⟩
  exact hcredit.trans (congrArg (TorchProbe.credit p.thread) (List.append_assoc _ _ _).symm)

omit [DecidableEq M] in
/-- The resources of a step are cleaned up after the span of the step was exited. -/
theorem Exits.clean (h : p.Exits q rest) (hcm : q.trainStepCm = none)
    (henabled : r.enabled = q.cleanupStepResources.enabled)
    (howns : r.ownsOptimizer = q.cleanupStepResources.ownsOptimizer)
    (hthread : r.thread = q.cleanupStepResources.thread)
    (hopen : r.openSpans = q.cleanupStepResources.openSpans)
    (hr : r.trainStepCm = q.cleanupStepResources.trainStepCm) :
    p.Exits r rest ∧ r.handles = [] := by
  obtain ⟨hclean, hnil, hsame⟩ := Exits.cleanup h.steady
  refine ⟨(h.trans hclean).trans (.same hclean.steady henabled howns hthread hopen hr), ?_⟩
  rw [handles, hopen, hnil, hr, hsame, hcm]
  rfl

theorem Exits.postStepHook (h : p.Steady rest) (henabled : p.enabled = true)
    (hfinalized : p.finalized = true) (optimizer : M) :
    p.Exits (p.postStepHook optimizer) rest ∧ (p.postStepHook optimizer).handles = [] := by
  have hend := Exits.end_train h
  have hcm : p.endTrainStepSpan.trainStepCm = none := by rw [end_train_eq]
  rw [Probe.postStepHook, if_neg (by simp [henabled]), if_neg (by simp [hfinalized])]
  split
  · exact hend.clean hcm rfl rfl rfl rfl rfl
  · split
    · have hoffset : p.Exits { p.endTrainStepSpan with offset := 0, current := none } rest :=
        hend.trans (.same hend.steady rfl rfl rfl rfl rfl)
      exact hoffset.clean hcm rfl rfl rfl rfl rfl
    · have hlog : p.endTrainStepSpan.Exits
          (p.endTrainStepSpan.logModuleStage true .step optimizer true) rest :=
        .log_post hend.steady
      have hstep : p.endTrainStepSpan.Exits ((p.endTrainStepSpan.logModuleStage true .step
          optimizer true).processHook true .step optimizer) rest :=
        hlog.trans (.processHook hlog.steady)
      rw [Probe.endSampled]
      generalize (p.endTrainStepSpan.logModuleStage true .step optimizer true).processHook
        true .step optimizer = q at hstep
      have hoffset : p.endTrainStepSpan.Exits { q with offset := 0 } rest :=
        hstep.trans (.same hstep.steady rfl rfl rfl rfl rfl)
      have hfinish := hoffset.trans (.finish q.openSpans hoffset.steady)
      change p.Exits (closeStepWall (cleanupStepResources _) true) rest ∧
        (closeStepWall (cleanupStepResources _) true).handles = []
      rw [finishOpenStages]
      generalize List.foldl (fun q entry => q.completePostStage entry.module entry.stage)
        { q with offset := 0 } q.openSpans = r at hfinish
      have hsaved : p.endTrainStepSpan.Exits
          { r with pending := [], saved := r.saved ++ r.pending } rest :=
        hfinish.trans (.same hfinish.steady rfl rfl rfl rfl rfl)
      exact (hend.trans hsaved).clean (hsaved.cm_none hcm) rfl rfl rfl rfl rfl

omit [DecidableEq M] in
theorem endDiscovery_cases (p : Probe M) (optimizer : M) :
    ∃ q : Probe M, p.endDiscovery optimizer = q.beginTrainStepSpan optimizer ∧
    q.thread = p.thread ∧
      q.openSpans = p.openSpans ∧ q.trainStepCm = p.trainStepCm ∧
      q.ownsOptimizer = p.ownsOptimizer ∧ q.enabled = p.enabled :=
  ⟨_, rfl, rfl, rfl, rfl, rfl, rfl⟩

omit [DecidableEq M] in
/-- The end of the discovery exits nothing; where a tracker owns the step it enters nothing. -/
theorem Exits.endDiscovery (h : p.Steady rest) (howns : p.ownsOptimizer optimizer = true) :
    p.Exits (p.endDiscovery optimizer) rest ∧
      (p.endDiscovery optimizer).handles = p.handles := by
  obtain ⟨q, heq, hthread, hopen, hcm, hsame, henabled⟩ := endDiscovery_cases p optimizer
  rw [heq, beginTrainStepSpan, if_pos (.inr (.inr (hsame ▸ howns)))]
  refine ⟨.same h henabled hsame hthread hopen hcm, ?_⟩
  rw [handles, handles, hopen, hcm]

/-- The hook after a step keeps what the next one reads. -/
theorem Steady.postStepHook (h : p.Steady rest) (optimizer : M) :
    (p.postStepHook optimizer).Steady rest ∧ (p.postStepHook optimizer).enabled = p.enabled ∧
      (p.postStepHook optimizer).ownsOptimizer = p.ownsOptimizer := by
  by_cases henabled : p.enabled = true
  · by_cases hfinalized : p.finalized = true
    · have hexits := (Exits.postStepHook h henabled hfinalized optimizer).1
      exact ⟨hexits.steady, hexits.enabled, hexits.ownsOptimizer⟩
    · obtain ⟨q, heq, hthread, hopen, hcm, howns, hon⟩ := endDiscovery_cases p optimizer
      have hbegin : Enters True q (q.beginTrainStepSpan optimizer) rest :=
        .begin_train (h.same hthread hopen hcm) optimizer
      rw [Probe.postStepHook, if_neg (by simp [henabled]), if_pos (by simpa using hfinalized), heq]
      exact ⟨hbegin.steady, hbegin.frame.enabled.trans hon, hbegin.frame.ownsOptimizer.trans howns⟩
  · rw [Probe.postStepHook, if_pos (by simpa using henabled)]
    exact ⟨h, rfl, rfl⟩

/-- What a hook of a module does: no optimizer span is entered or exited. -/
structure Stays (p q : Probe M) (rest : List Handle) : Prop where
  frame : Frame p q
  steady : q.Steady rest
  microStep : q.thread.microStep = p.thread.microStep
  credit : credit q.thread (q.handles ++ rest) = credit p.thread (p.handles ++ rest)

omit [DecidableEq M] in
theorem Stays.same (h : p.Steady rest) (hframe : Frame p q) (hthread : q.thread = p.thread)
    (hopen : q.openSpans = p.openSpans) (hcm : q.trainStepCm = p.trainStepCm) :
    p.Stays q rest := by
  refine ⟨hframe, h.same hthread hopen hcm, by rw [hthread], ?_⟩
  rw [hthread, handles, handles, hopen, hcm]

omit [DecidableEq M] in
theorem Stays.trans (h : p.Stays q rest) (h' : q.Stays r rest) : p.Stays r rest :=
  ⟨h.frame.trans h'.frame, h'.steady, h'.microStep.trans h.microStep,
    h'.credit.trans h.credit⟩

theorem Steady.spanOf_phase (h : p.Steady rest) (mod : M) (stage : Stage) :
    ∀ g ∈ p.spanOf mod stage, g.phase = stage.phase := by
  intro g hg
  obtain ⟨entry, hentry, hspan⟩ := Option.bind_eq_some_iff.mp hg
  obtain ⟨hmem, hkey⟩ := Keyed.mem_of_find hentry
  have hstage : entry.stage = stage := congrArg Prod.snd hkey
  exact hstage ▸ h.phases entry hmem g hspan

theorem Stays.logPre (h : p.Steady rest) (hstage : stage.phase ≠ .optimizer) :
    p.Stays (p.logPre mod stage) rest := by
  have henters : Enters False p (p.logPre mod stage) rest := .logPre h False.elim
  have hperm := opts_perm (@handles_logPre M _ p rest h.keys mod stage)
  rw [opts_append_left fun g hg => beginSpan_phase p mod stage g (Option.mem_toList.mp hg) ▸ hstage,
    opts_append_left fun g hg => h.spanOf_phase mod stage g (Option.mem_toList.mp hg) ▸ hstage]
    at hperm
  refine ⟨henters.frame, henters.steady, henters.microStep, ?_⟩
  rw [TorchProbe.credit, TorchProbe.credit, henters.microStep, hperm.length_eq]

theorem Stays.complete (h : p.Steady rest) (mod : M) (hstage : stage.phase ≠ .optimizer) :
    p.Stays (p.completePostStage mod stage) rest := by
  have hexits := Exits.complete h mod stage
  obtain ⟨hthread, -, -, hframe⟩ := complete_fields p mod stage
  refine ⟨hframe, hexits.steady, ?_, hexits.credit⟩
  rw [hthread]
  cases hspan : p.spanOf mod stage with
  | none => rfl
  | some handle =>
      exact Thread.microStep_exit (h.spanOf_phase mod stage handle hspan ▸ hstage)

omit [DecidableEq M] in
theorem Stays.plan (h : p.Steady rest) : p.Stays p.ensureStepPlan rest := by
  rw [ensureStepPlan]
  split <;> exact .same h ⟨rfl, rfl, rfl⟩ rfl rfl rfl

theorem Stays.forwardHook (h : p.Steady rest) (post : Bool) (mod : M) :
    p.Stays (p.forwardHook post mod) rest := by
  rw [Probe.forwardHook]
  split
  · exact .same h ⟨rfl, rfl, rfl⟩ rfl rfl rfl
  · have hplan := Stays.plan h
    split
    · exact hplan
    · have hlog : p.ensureStepPlan.Stays
          (p.ensureStepPlan.logModuleStage post .forward mod false) rest := by
        rw [logModuleStage]
        split
        · split
          · exact .complete hplan.steady mod (by decide)
          · exact .logPre hplan.steady (by decide)
        · exact .same hplan.steady ⟨rfl, rfl, rfl⟩ rfl rfl rfl
      refine (hplan.trans hlog).trans (.same hlog.steady (frame_processHook _) ?_ ?_ ?_) <;>
        rw [processHook] <;> split <;> rfl

theorem logModuleStage_off (h : p.enabled = false) :
    p.logModuleStage post stage mod force = p := by
  rw [logModuleStage, if_neg]
  rw [logs, h]
  exact Bool.false_ne_true

omit [DecidableEq M] in
theorem handles_plan (p : Probe M) : p.ensureStepPlan.handles = p.handles := by
  rw [ensureStepPlan]
  split <;> rfl

theorem handles_processHook (p : Probe M) :
    (p.processHook post stage mod).handles = p.handles := by
  rw [processHook]
  split <;> rfl

/-- A probe that is off holds nothing. -/
theorem handles_off (h : p.enabled = false) (post : Bool) (mod optimizer : M) :
    (p.forwardHook post mod).handles = p.handles ∧
      (p.preStepHook optimizer).handles = p.handles ∧
      (p.postStepHook optimizer).handles = p.handles := by
  have hplan : p.ensureStepPlan.enabled = false := (frame_plan p).enabled.trans h
  refine ⟨?_, ?_, ?_⟩
  · rw [Probe.forwardHook]
    split
    · rfl
    · split
      · exact handles_plan p
      · rw [logModuleStage_off hplan, handles_processHook, handles_plan]
  · rw [Probe.preStepHook, if_neg (by simp [h] : ¬ (p.enabled && p.finalized) = true)]
    split
    · rfl
    · dsimp only
      split
      · exact handles_plan p
      · rw [logModuleStage_off hplan, handles_processHook, handles_plan]
  · rw [Probe.postStepHook, if_pos (by simp [h])]

/-- Whether the step of the discovery opens a span of its own, which its end does not exit. -/
def leavesStep (p : Probe M) (optimizer : M) : Bool :=
  p.enabled && !p.finalized && !p.shadowStep && p.traceSpans && !p.ownsModule optimizer

/-- The hook before the step of the discovery, or of a probe that is off. -/
theorem preStepHook_quiet (hfinalized : (p.enabled && p.finalized) = false)
    (hleaves : p.leavesStep optimizer = false) :
    (p.preStepHook optimizer).thread = p.thread := by
  have hprocess (q : Probe M) : (q.processHook false .step optimizer).thread = q.thread := by
    rw [processHook]
    split <;> rfl
  have hplan : p.ensureStepPlan.thread = p.thread := by
    rw [ensureStepPlan]
    split <;> rfl
  rw [Probe.preStepHook, if_neg (by simp [hfinalized] : ¬ (p.enabled && p.finalized) = true)]
  dsimp only
  split
  · rfl
  next hshadow =>
    split
    · exact hplan
    · rw [hprocess, logModuleStage]
      split
      next hlogs =>
        have henabled : p.enabled = true := (frame_plan p).enabled ▸ (logs_iff.mp hlogs).1
        have hdiscovery : p.finalized = false := by simpa [henabled] using hfinalized
        have hsame : p.ensureStepPlan = p := if_pos (.inl (by simp [hdiscovery]))
        have hquiet : ¬ (p.traceSpans && !p.ownsModule optimizer) = true := by
          rw [leavesStep, henabled, hdiscovery] at hleaves
          simpa [hshadow] using hleaves
        rw [if_neg Bool.false_ne_true, hsame, logPre_eq, beginSpan, if_neg hquiet]
      · exact hplan

/-- What the hook before a step looks at is not the thread. -/
theorem step_of_thread (p : Probe M) (thread : Thread) (optimizer : M) :
    losesStep { p with thread := thread } optimizer = p.losesStep optimizer ∧
      opensStep { p with thread := thread } optimizer = p.opensStep optimizer := by
  have hactive : hooksDispatchActive { p with thread := thread } = p.hooksDispatchActive := by
    rw [hooksDispatchActive, hooksDispatchActive]
    have hsampled := congrArg sampledStep (plan_eq (p := p) p.trainStepCm thread p.entered)
    exact congrArg (!p.finalized || ·) hsampled
  rw [losesStep, opensStep, hactive]
  exact ⟨rfl, rfl⟩

omit [DecidableEq M] in
theorem exits_other {handle : Option Handle} {all : List Handle}
    (h : Holds p.thread (handle.toList ++ all)) (hphase : ∀ g ∈ handle, g.phase ≠ .optimizer) :
    (p.exits handle).thread.microStep = p.thread.microStep ∧
      (p.exits handle).thread.opt = p.thread.opt := by
  cases handle with
  | none => exact ⟨rfl, rfl⟩
  | some handle => exact ⟨Thread.microStep_exit (hphase _ rfl), h.opt_exit (hphase _ rfl)⟩

end Probe

end Probing.Profiling.TorchProbe
