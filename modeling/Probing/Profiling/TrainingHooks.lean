import Probing.Profiling.StepHooks
import Probing.Profiling.TrainingSteps

/-!
# The hooks around a step

Before a step every party enters spans of its own and exits none of an optimizer; after it each
exits what it holds.
-/

namespace Probing.Profiling.TorchProbe

open Probing.Tracing (Phase)

/-- The handles that the trackers share. -/
def hookHandles (spans : Phase → Option Handle) : List Handle :=
  (spans .forward).toList ++ ((spans .backward).toList ++ (spans .optimizer).toList)

theorem hookHandles_exit (spans : Phase → Option Handle) (phase : Phase) :
    (hookHandles spans).Perm
      ((spans phase).toList ++ hookHandles (Function.update spans phase none)) := by
  cases phase with
  | forward => exact List.Perm.refl _
  | backward => exact List.perm_append_comm_assoc _ _ _
  | optimizer =>
      change List.Perm _ ((spans .optimizer).toList ++
        ((spans .forward).toList ++ ((spans .backward).toList ++ [])))
      rw [hookHandles, ← List.append_assoc, List.append_nil]
      exact List.perm_append_comm

theorem hookHandles_enter {spans : Phase → Option Handle} {phase : Phase}
    (h : spans phase = none) (handle : Handle) :
    (handle :: hookHandles spans).Perm
      (hookHandles (Function.update spans phase (some handle))) := by
  have hexit := hookHandles_exit (Function.update spans phase (some handle)) phase
  rw [Function.update_idem, Function.update_self, ← h, Function.update_eq_self] at hexit
  exact hexit.symm

namespace Trainer

variable {M : Type} [DecidableEq M] {s t : Trainer M} {user : Option Handle} {phase : Phase}

/-- The handles of everyone but the probe. -/
def rest (s : Trainer M) (user : Option Handle) : List Handle :=
  hookHandles s.hookSpans ++ (user.toList ++ s.others)

def handles (s : Trainer M) (user : Option Handle) : List Handle :=
  s.probe.handles ++ s.rest user

/-- What holds at every moment: the probe is steady, and each party has spans of its phases. -/
structure Sound (s : Trainer M) (user : Option Handle) : Prop where
  probe : s.probe.Steady (s.rest user)
  hooks : ∀ phase, ∀ h ∈ s.hookSpans phase, h.phase = phase
  others : ∀ h ∈ s.others, h.phase ≠ .optimizer
  idle : s.installed = false ∨ s.probe.enabled = false → s.probe.handles = []

/-- A tracker changes the spans of the hooks and of the thread. -/
structure Tracked (s t : Trainer M) : Prop where
  eq : t = { s with
    probe := { s.probe with thread := t.probe.thread }
    hookSpans := t.hookSpans }

omit [DecidableEq M] in
theorem Tracked.refl (s : Trainer M) : Tracked s s := ⟨rfl⟩

omit [DecidableEq M] in
theorem Tracked.trans {u : Trainer M} (h : Tracked s t) (h' : Tracked t u) : Tracked s u := by
  refine ⟨h'.eq.trans ?_⟩
  rw [h.eq]

omit [DecidableEq M] in
theorem tracked_hookExit (s : Trainer M) (phase : Phase) : Tracked s (s.hookExit phase) := by
  refine ⟨?_⟩
  rw [hookExit, Probe.exits_eq]

omit [DecidableEq M] in
theorem tracked_hookEnter (s : Trainer M) (phase : Phase) : Tracked s (s.hookEnter phase) := by
  rw [hookEnter]
  split <;> exact ⟨rfl⟩

omit [DecidableEq M] in
theorem Sound.tracked (h : s.Sound user) (ht : Tracked s t)
    (hholds : Holds t.probe.thread (t.handles user))
    (hhooks : ∀ phase, ∀ h ∈ t.hookSpans phase, h.phase = phase) : t.Sound user := by
  rw [ht.eq] at hholds ⊢
  exact ⟨⟨hholds, h.probe.keys, h.probe.phases⟩, hhooks, h.others, h.idle⟩

/-- The setting of the loop. -/
structure Framed (s t : Trainer M) : Prop where
  probe : s.probe.Frame t.probe
  installed : t.installed = s.installed
  before : t.before = s.before
  after : t.after = s.after
  optimizer : t.optimizer = s.optimizer

omit [DecidableEq M] in
theorem Framed.refl (s : Trainer M) : Framed s s := ⟨⟨rfl, rfl, rfl⟩, rfl, rfl, rfl, rfl⟩

omit [DecidableEq M] in
theorem Framed.trans {u : Trainer M} (h : Framed s t) (h' : Framed t u) : Framed s u :=
  ⟨h.probe.trans h'.probe, h'.installed.trans h.installed, h'.before.trans h.before,
    h'.after.trans h.after, h'.optimizer.trans h.optimizer⟩

omit [DecidableEq M] in
theorem Tracked.framed (h : Tracked s t) : Framed s t := by
  rw [h.eq]
  exact ⟨⟨rfl, rfl, rfl⟩, rfl, rfl, rfl, rfl⟩

/-- What happens before the hooks of a step are over: no optimizer span is exited, and each that is
open has an owner, if none is lost. -/
structure Before (free : Prop) (s t : Trainer M) (user : Option Handle) : Prop where
  framed : Framed s t
  sound : t.Sound user
  microStep : t.microStep = s.microStep
  busy : s.probe.thread.opt ≠ [] → t.probe.thread.opt ≠ []
  outer : opts (s.rest user) ≠ [] → opts (t.rest user) ≠ []
  kept : free → Kept s.probe.thread (s.handles user) → Kept t.probe.thread (t.handles user)

variable {free : Prop} {u : Trainer M} {new : List Handle}

omit [DecidableEq M] in
theorem Before.refl (h : s.Sound user) : Before free s s user :=
  ⟨.refl s, h, rfl, id, id, fun _ => id⟩

omit [DecidableEq M] in
theorem Before.trans (h : Before free s t user) (h' : Before free t u user) :
    Before free s u user where
  framed := h.framed.trans h'.framed
  sound := h'.sound
  microStep := h'.microStep.trans h.microStep
  busy hopt := h'.busy (h.busy hopt)
  outer hopts := h'.outer (h.outer hopts)
  kept hfree hkept := h'.kept hfree (h.kept hfree hkept)

/-- What happens inside a step or between two: the step is neither advanced nor is it going to
be. -/
structure During (s t : Trainer M) (user : Option Handle) : Prop where
  framed : Framed s t
  sound : t.Sound user
  microStep : t.microStep = s.microStep
  credit : credit t.probe.thread (t.handles user) = credit s.probe.thread (s.handles user)
  outer : opts (s.rest user) ≠ [] → opts (t.rest user) ≠ []
  hook : t.hookSpans .optimizer = s.hookSpans .optimizer

omit [DecidableEq M] in
theorem During.refl (h : s.Sound user) : During s s user := ⟨.refl s, h, rfl, rfl, id, rfl⟩

omit [DecidableEq M] in
theorem During.trans (h : During s t user) (h' : During t u user) : During s u user where
  framed := h.framed.trans h'.framed
  sound := h'.sound
  microStep := h'.microStep.trans h.microStep
  credit := h'.credit.trans h.credit
  outer hopts := h'.outer (h.outer hopts)
  hook := h'.hook.trans h.hook

omit [DecidableEq M] in
theorem handles_perm (hprobe : t.probe.handles = s.probe.handles)
    (hrest : (s.rest user).Perm (new ++ t.rest user)) :
    (s.handles user).Perm (new ++ t.handles user) := by
  rw [handles, handles, hprobe]
  exact (hrest.append_left _).trans (List.perm_append_comm_assoc _ _ _)

omit [DecidableEq M] in
/-- Spans of a phase are entered, and their handles are kept. -/
theorem Sound.entered (hsound : t.Sound user) (hframed : Framed s t)
    (hprobe : t.probe.handles = s.probe.handles)
    (hentered : Entered s.probe.thread t.probe.thread new)
    (hrest : (t.rest user).Perm (new ++ s.rest user)) (hnew : ∀ g ∈ new, g.phase = phase)
    (hhook : phase ≠ .optimizer → t.hookSpans .optimizer = s.hookSpans .optimizer) :
    (∀ free, Before free s t user) ∧ (phase ≠ .optimizer → During s t user) := by
  have hperm := (handles_perm hprobe.symm hrest).symm
  have houter : opts (s.rest user) ≠ [] → opts (t.rest user) ≠ [] := fun hopts hnil => by
    have hboth := (opts_perm hrest).symm
    rw [hnil, opts_append] at hboth
    exact hopts (List.append_eq_nil_iff.mp hboth.eq_nil).2
  refine ⟨fun _ => ⟨hframed, hsound, hentered.microStep, hentered.busy, houter, fun _ hkept =>
    (hentered.kept _ hkept).perm hperm⟩, fun hphase => ⟨hframed, hsound, hentered.microStep, ?_,
      houter, hhook hphase⟩⟩
  have hother : ∀ g ∈ new, g.phase ≠ .optimizer := fun g hg => hnew g hg ▸ hphase
  rw [← credit_perm hperm, credit, credit, opts_append_left hother, hentered.microStep]

omit [DecidableEq M] in
/-- A span is exited that is not of an optimizer. -/
theorem Sound.exited {handle : Option Handle} (h : s.Sound user) (hframed : Framed s t)
    (hsound : t.Sound user) (hprobe : t.probe.handles = s.probe.handles)
    (hthread : t.probe.thread = (s.probe.exits handle).thread)
    (hrest : (s.rest user).Perm (handle.toList ++ t.rest user))
    (hphase : ∀ g ∈ handle, g.phase ≠ .optimizer)
    (hhook : t.hookSpans .optimizer = s.hookSpans .optimizer) :
    (∀ free, Before free s t user) ∧ During s t user := by
  have hperm := handles_perm hprobe hrest
  have hholds := h.probe.holds.perm hperm
  obtain ⟨-, hcredit⟩ := Probe.holds_exits hholds
  have hother : ∀ g ∈ handle.toList, g.phase ≠ .optimizer := fun g hg =>
    hphase g (Option.mem_toList.mp hg)
  have hsame : t.microStep = s.microStep ∧ t.probe.thread.opt = s.probe.thread.opt := by
    rw [microStep, hthread]
    exact Probe.exits_other hholds hphase
  have hopts : (opts (s.rest user)).Perm (opts (t.rest user)) :=
    (opts_perm hrest).trans (List.Perm.of_eq (opts_append_left hother _))
  have houter : opts (s.rest user) ≠ [] → opts (t.rest user) ≠ [] := fun hne hnil =>
    hne (hnil ▸ hopts).eq_nil
  refine ⟨fun _ => ⟨hframed, hsound, hsame.1, fun hbusy => hsame.2 ▸ hbusy, houter,
    fun _ hkept hbusy hnil => ?_⟩, hframed, hsound, hsame.1, ?_, houter, hhook⟩
  · refine hkept (hsame.2 ▸ hbusy) ?_
    have hboth := (opts_perm hperm).trans (List.Perm.of_eq (opts_append_left hother _))
    exact (hnil ▸ hboth).eq_nil
  · rw [hthread, credit_perm hperm]
    exact hcredit

omit [DecidableEq M] in
theorem rest_hookExit (s : Trainer M) (user : Option Handle) (phase : Phase) :
    (s.rest user).Perm ((s.hookSpans phase).toList ++ (s.hookExit phase).rest user) := by
  refine ((hookHandles_exit s.hookSpans phase).append_right _).trans ?_
  rw [List.append_assoc]
  exact List.Perm.refl _

omit [DecidableEq M] in
/-- A tracker exits the span of a phase. -/
theorem Sound.hookExit (h : s.Sound user) (phase : Phase) :
    (s.hookExit phase).Sound user ∧
      credit (s.hookExit phase).probe.thread ((s.hookExit phase).handles user) =
        credit s.probe.thread (s.handles user) := by
  have htracked := tracked_hookExit s phase
  have hprobe : (s.hookExit phase).probe.handles = s.probe.handles := by
    rw [htracked.eq]
    rfl
  have hperm := handles_perm hprobe (rest_hookExit s user phase)
  obtain ⟨hholds, hcredit⟩ := Probe.holds_exits (h.probe.holds.perm hperm)
  refine ⟨h.tracked htracked hholds ?_, ?_⟩
  · exact (Function.forall_update_iff s.hookSpans fun other span => ∀ g ∈ span, g.phase = other).mpr
      ⟨fun _ hg => (nomatch hg), fun other _ => h.hooks other⟩
  · rw [credit_perm hperm]
    exact hcredit

omit [DecidableEq M] in
theorem Sound.hookExit_other (h : s.Sound user) (hphase : phase ≠ .optimizer) :
    (∀ free, Before free s (s.hookExit phase) user) ∧ During s (s.hookExit phase) user := by
  have hprobe : (s.hookExit phase).probe.handles = s.probe.handles := by
    rw [(tracked_hookExit s phase).eq]
    rfl
  exact h.exited (tracked_hookExit s phase).framed (h.hookExit phase).1 hprobe rfl
    (rest_hookExit s user phase)
    (fun g hg => h.hooks phase g hg ▸ hphase) (Function.update_of_ne hphase.symm _ _)

omit [DecidableEq M] in
/-- A tracker keeps the handle of a span that was entered. -/
theorem Sound.hook_set (h : s.Sound user) (hnone : s.hookSpans phase = none) {thread : Thread}
    {handle : Handle} (hentered : Entered s.probe.thread thread [handle])
    (hphase : handle.phase = phase) (ht : t = { s with
      probe := { s.probe with thread := thread }
      hookSpans := Function.update s.hookSpans phase (some handle) }) :
    (∀ free, Before free s t user) ∧ (phase ≠ .optimizer → During s t user) := by
  have hrest : (t.rest user).Perm ([handle] ++ s.rest user) := by
    rw [ht]
    exact ((hookHandles_enter hnone handle).append_right _).symm
  have htracked : Tracked s t := ⟨by rw [ht]⟩
  have hprobe : t.probe.handles = s.probe.handles := by
    rw [ht]
    rfl
  have hthread : t.probe.thread = thread := by rw [ht]
  have hholds := (hentered.holds _ h.probe.holds).perm (handles_perm hprobe.symm hrest).symm
  have hhooks : ∀ other, ∀ g ∈ t.hookSpans other, g.phase = other := by
    rw [ht]
    exact (Function.forall_update_iff s.hookSpans fun other span => ∀ g ∈ span, g.phase = other).mpr
      ⟨fun _ hg => Option.some.inj hg ▸ hphase, fun other _ => h.hooks other⟩
  refine (h.tracked htracked (hthread ▸ hholds) hhooks).entered htracked.framed hprobe
    (hthread ▸ hentered) hrest (fun g hg => ?_) fun hne => ?_
  · rw [List.mem_singleton.mp hg]
    exact hphase
  · rw [ht]
    exact Function.update_of_ne hne.symm _ _

omit [DecidableEq M] in
theorem hook_none (hidle : ¬ (s.hookSpans phase).isSome = true) : s.hookSpans phase = none := by
  simpa using hidle

omit [DecidableEq M] in
/-- A tracker enters a span, if none of its phase is active. -/
theorem Sound.hookEnter (h : s.Sound user) (phase : Phase) :
    (∀ free, Before free s (s.hookEnter phase) user) ∧
      (phase ≠ .optimizer → During s (s.hookEnter phase) user) := by
  rw [Trainer.hookEnter]
  split
  · exact ⟨fun _ => .refl h, fun _ => .refl h⟩
  next hidle =>
    exact h.hook_set (hook_none fun hsome => hidle (.inr hsome)) (.enter _ phase) Thread.phase_enter
      rfl

omit [DecidableEq M] in
theorem Sound.step_pre (h : s.Sound user) : Before free s s.stepPre user := by
  have hexit : Before free s (s.hookExit .backward) user := (h.hookExit_other (by decide)).1 free
  exact hexit.trans ((hexit.sound.hookEnter .optimizer).1 free)

/-- A module runs. -/
theorem Sound.forward (h : s.Sound user) (post : Bool) (mod : M) :
    During s (s.probing (·.forwardHook post mod)) user := by
  rw [probing]
  split
  next hinstalled =>
    have hstays := Probe.Stays.forwardHook h.probe post mod
    refine ⟨⟨hstays.frame, rfl, rfl, rfl, rfl⟩, ⟨hstays.steady, h.hooks, h.others, fun hidle => ?_⟩,
      hstays.microStep, hstays.credit, id, rfl⟩
    have hoff : s.probe.enabled = false := by
      obtain hfalse | hoff := hidle
      · exact (nomatch hinstalled.symm.trans hfalse)
      · exact hstays.frame.enabled ▸ hoff
    exact (Probe.handles_off hoff post mod mod).1.trans (h.idle (.inr hoff))
  · exact .refl h

omit [DecidableEq M] in
/-- The probe is configured. -/
theorem Sound.configured (h : s.Sound user) {f : Probe M → Probe M}
    (hframe : s.probe.Frame (f s.probe)) (hthread : (f s.probe).thread = s.probe.thread)
    (hopen : (f s.probe).openSpans = s.probe.openSpans)
    (hcm : (f s.probe).trainStepCm = s.probe.trainStepCm) :
    During s (s.probing f) user := by
  rw [probing]
  split
  next hinstalled =>
    have hstays := Probe.Stays.same h.probe hframe hthread hopen hcm
    have hhandles : (f s.probe).handles = s.probe.handles := by
      rw [Probe.handles, Probe.handles, hopen, hcm]
    refine ⟨⟨hframe, rfl, rfl, rfl, rfl⟩, ⟨hstays.steady, h.hooks, h.others, fun hidle => ?_⟩,
      hstays.microStep, hstays.credit, id, rfl⟩
    exact hhandles.trans (h.idle (hframe.enabled ▸ hidle))
  · exact .refl h

omit [DecidableEq M] in
/-- The user enters a span that is not of an optimizer. -/
theorem Sound.user_span (h : s.Sound user) (hphase : phase ≠ .optimizer) :
    During s { (s.enter phase).2 with others := s.others ++ [(s.enter phase).1] } user := by
  have hentered := Entered.enter s.probe.thread phase
  have hrest : (hookHandles s.hookSpans ++ (user.toList ++
      (s.others ++ [(s.probe.thread.enter phase).1]))).Perm
        ([(s.probe.thread.enter phase).1] ++ s.rest user) := by
    rw [← List.append_assoc user.toList, ← List.append_assoc]
    exact List.perm_append_comm
  have hholds := (hentered.holds _ h.probe.holds).perm
    (((hrest.append_left s.probe.handles).trans (List.perm_append_comm_assoc _ _ _)).symm)
  have hnew : ∀ g ∈ [(s.probe.thread.enter phase).1], g.phase = phase :=
    fun g hg => List.mem_singleton.mp hg ▸ Thread.phase_enter
  have hothers : ∀ g ∈ s.others ++ [(s.probe.thread.enter phase).1], g.phase ≠ .optimizer :=
    fun g hg => by
      obtain hg | hg := List.mem_append.mp hg
      · exact h.others g hg
      · exact hnew g hg ▸ hphase
  have hsound : Sound { (s.enter phase).2 with others := s.others ++ [(s.enter phase).1] } user :=
    ⟨⟨hholds, h.probe.keys, h.probe.phases⟩, h.hooks, hothers, h.idle⟩
  have hframed : Framed s { (s.enter phase).2 with others := s.others ++ [(s.enter phase).1] } :=
    ⟨⟨rfl, rfl, rfl⟩, rfl, rfl, rfl, rfl⟩
  exact (hsound.entered hframed rfl hentered hrest hnew fun _ => rfl).2 hphase

omit [DecidableEq M] in
/-- The user exits a span, in any order. -/
theorem Sound.user_exit (h : s.Sound user) (k : ℕ) :
    During s
    { s with probe := s.probe.exits s.others[k]?, others := s.others.eraseIdx k } user := by
  have hothers : s.others.Perm (s.others[k]?.toList ++ s.others.eraseIdx k) := by
    by_cases hk : k < s.others.length
    · rw [List.getElem?_eq_getElem hk]
      exact (List.getElem_cons_eraseIdx_perm hk).symm
    · have hk : s.others.length ≤ k := Nat.not_lt.mp hk
      rw [List.getElem?_eq_none hk, List.eraseIdx_of_length_le hk]
      exact List.Perm.refl _
  have hrest : (s.rest user).Perm (s.others[k]?.toList ++
      (hookHandles s.hookSpans ++ (user.toList ++ s.others.eraseIdx k))) := by
    refine ((hothers.append_left user.toList).append_left _).trans ?_
    exact ((List.perm_append_comm_assoc _ _ _).append_left _).trans
      (List.perm_append_comm_assoc _ _ _)
  have hperm : (s.handles user).Perm (s.others[k]?.toList ++ (s.probe.handles ++
      (hookHandles s.hookSpans ++ (user.toList ++ s.others.eraseIdx k)))) :=
    (hrest.append_left _).trans (List.perm_append_comm_assoc _ _ _)
  obtain ⟨hholds, -⟩ := Probe.holds_exits (h.probe.holds.perm hperm)
  rw [Probe.exits_eq]
  have hsound : Sound { s with
      probe := { s.probe with thread := (s.probe.exits s.others[k]?).thread }
      others := s.others.eraseIdx k } user :=
    ⟨⟨hholds, h.probe.keys, h.probe.phases⟩, h.hooks,
      fun g hg => h.others g (List.mem_of_mem_eraseIdx hg), h.idle⟩
  have hframed : Framed s { s with
      probe := { s.probe with thread := (s.probe.exits s.others[k]?).thread }
      others := s.others.eraseIdx k } := ⟨⟨rfl, rfl, rfl⟩, rfl, rfl, rfl, rfl⟩
  exact (h.exited hframed hsound rfl rfl hrest (fun g hg => h.others g (List.mem_of_getElem? hg))
    rfl).2

omit [DecidableEq M] in
/-- A gradient comes on another thread. -/
theorem Sound.elsewhere (h : s.Sound user) (active : Bool) :
    During s (s.hookEnterElsewhere active) user := by
  rw [hookEnterElsewhere]
  split
  · exact .refl h
  next hidle =>
    have hphase : Phase.backward ≠ .optimizer := by decide
    exact (h.hook_set (hook_none fun hsome => hidle (.inr hsome)) (.elsewhere _ hphase) rfl rfl).2
      hphase

theorem Sound.event (h : s.Sound user) (e : Event M) : During s (s.event e) user := by
  cases e with
  | forwardPre training =>
      cases training with
      | false => exact .refl h
      | true =>
          have hexit : During s (s.hookExit .backward) user :=
            (h.hookExit_other (by decide)).2
          exact hexit.trans ((hexit.sound.hookEnter .forward).2 (by decide))
  | forwardPost training =>
      cases training with
      | false => exact .refl h
      | true => exact (h.hookExit_other (by decide)).2
  | outputGrad => exact (h.hookEnter .backward).2 (by decide)
  | outputGradElsewhere active => exact h.elsewhere active
  | forward post mod => exact h.forward post mod
  | setSamplingMode period layers =>
      exact h.configured (f := (·.setSamplingMode period layers)) ⟨rfl, rfl, rfl⟩ rfl rfl
        rfl
  | configure traceSpans period layers =>
      exact h.configured (f := (·.configure traceSpans period layers)) ⟨rfl, rfl, rfl⟩ rfl rfl rfl
  | enter phase =>
      rw [Trainer.event]
      split
      · exact .refl h
      next hphase => exact h.user_span hphase
  | exit k => exact h.user_exit k

end Trainer

end Probing.Profiling.TorchProbe
