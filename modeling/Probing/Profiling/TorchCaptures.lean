import Probing.Profiling.TorchController

/-!
# Captures cover the steps that were asked for

The calls that come to a capture are those of its own hook, where no removal raised and no call is
left over from an earlier capture. Where no call of the hook has raised before, each of them was
counted, so the profiler was entered once and a capture that ends by itself has seen as many
optimizer steps as were asked for.
-/

namespace Probing.Profiling.TorchController

open Probing.Core

/-- A capture that ended by itself as completed saw the steps that were asked for, all different and
after its start. -/
def Capture.Exact (c : Capture) : Prop :=
  c.status = .completed → c.stopped = false →
    c.seen.Nodup ∧ c.seen.length = c.stepsTarget ∧ ∀ k ∈ c.seen, c.since ≤ k

namespace World

/-- Profilers are entered and exited once and in this order, and have at most one record each, the
captures are exact, and a start that raised left the controller as ready as it was. -/
structure Covers (w : World) : Prop where
  entered : w.entered.Nodup
  exited : w.exited.Nodup
  in_order : ∀ p ∈ w.exited, p ∈ w.entered
  one_record : (w.captures.map (·.profiler)).Nodup
  exact : ∀ c ∈ w.captures, c.Exact
  ready : ∀ r ∈ w.raised, r.1 = true → r.2 = true

/-- A start creates the profiler and registers the hook without failing. A call that comes to a
capture is of an optimizer step after its start, and of a hook whose removal has not raised; no
earlier hook call of the capture raised, if no step is counted yet or the call ends the capture. A
capture is not stopped before a hook call has come to it. -/
def Sound (w : World) : Action → Prop
  | .start _ _ _ f => w.controller.running = false → f.create = none ∧ f.register = none
  | .optimizerStep => True
  | .hook k h f => w.controller.running = true → w.since ≤ k ∧ h ∉ w.leaked ∧
      (w.controller.stepCount = 0 ∨
        (f.step = none ∧ w.controller.stepCount + 1 = w.controller.stepsTarget) →
          w.troubled = false)
  | .stop _ => w.controller.running = true → w.seen ≠ []

instance (w : World) : ∀ a, Decidable (w.Sound a)
  | .start _ _ _ _ => inferInstanceAs (Decidable (_ → _))
  | .optimizerStep => .isTrue trivial
  | .hook _ _ _ => inferInstanceAs (Decidable (_ → _))
  | .stop _ => inferInstanceAs (Decidable (_ → _))

/-- The profilers that have a place in the history were created, and have ended before a record of
them was made. -/
structure Logged (w : World) : Prop extends Covers w where
  created : ∀ p ∈ w.entered, p < w.profilers
  ended : ∀ c ∈ w.captures, c.profiler ∈ w.exited

/-- The calls that are still to run are different, and of steps and hooks that there were. -/
structure Queued (w : World) : Prop where
  calls : w.calls.Nodup
  hooks : w.hooks.Nodup
  called : ∀ k h, (k, h) ∈ w.calls → k < w.optSteps ∧ h < w.handles
  registered : ∀ h ∈ w.hooks, h < w.handles
  leaked : ∀ h ∈ w.leaked, h < w.handles

/-- A capture is running, with its profiler and its hook. -/
structure Running (w : World) (p h : ℕ) : Prop where
  running : w.controller.running = true
  profiler : w.controller.profiler = some p
  handle : w.controller.hookHandle = some h
  handed : h < w.handles
  created : p < w.profilers
  open_ : p ∉ w.exited
  entered : w.seen ≠ [] → p ∈ w.entered
  counted : 0 < w.controller.stepCount → w.seen ≠ []
  own : h ∉ w.leaked
  hooks : ∀ g ∈ w.hooks, g = h ∨ g ∈ w.leaked
  calls : ∀ k g, (k, g) ∈ w.calls → w.since ≤ k → g = h ∨ g ∈ w.leaked
  unseen : ∀ k, (k, h) ∈ w.calls → k ∉ w.seen
  seen : w.seen.Nodup
  after : ∀ k ∈ w.seen, w.since ≤ k ∧ k < w.optSteps
  since : w.since ≤ w.optSteps

/-- Every call that came to the capture was counted, and there is one more to come. -/
structure Counted (w : World) (p : ℕ) : Prop where
  below : w.controller.stepCount < w.controller.stepsTarget
  all : w.seen.length = w.controller.stepCount
  fresh : w.seen = [] → p ∉ w.entered

structure Idle (w : World) : Prop where
  running : w.controller.running = false
  profiler : w.controller.profiler = none
  hooks : ∀ g ∈ w.hooks, g ∈ w.leaked

structure Inv (w : World) : Prop where
  logged : w.Logged
  queued : w.Queued
  state : w.Idle ∨ ∃ p h, w.Running p h ∧ (w.troubled = false → w.Counted p)

variable {w w' : World} {p h k : ℕ} {f : Faults}

theorem inv_new : new.Inv where
  logged := by constructor <;> simp [new]; constructor <;> simp
  queued := by constructor <;> simp [new]
  state := .inl ⟨rfl, rfl, by simp [new]⟩

section Frame

/-- The history is not touched. -/
theorem Logged.same (hw : w.Logged) (hentered : w'.entered = w.entered)
    (hexited : w'.exited = w.exited) (hcaptures : w'.captures = w.captures)
    (hraised : w'.raised = w.raised) (hprofilers : w.profilers ≤ w'.profilers) : w'.Logged where
  entered := hentered ▸ hw.entered
  exited := hexited ▸ hw.exited
  in_order := by rw [hentered, hexited]; exact hw.in_order
  one_record := hcaptures ▸ hw.one_record
  exact := hcaptures ▸ hw.exact
  ready := hraised ▸ hw.ready
  created := by
    rw [hentered]
    exact fun p hp => Nat.lt_of_lt_of_le (hw.created p hp) hprofilers
  ended := by rw [hcaptures, hexited]; exact hw.ended

theorem Queued.same (hw : w.Queued) (hcalls : w'.calls = w.calls) (hhooks : w'.hooks = w.hooks)
    (hsteps : w'.optSteps = w.optSteps) (hhandles : w'.handles = w.handles)
    (hleaked : w'.leaked = w.leaked) : w'.Queued where
  calls := hcalls ▸ hw.calls
  hooks := hhooks ▸ hw.hooks
  called := by rw [hcalls, hsteps, hhandles]; exact hw.called
  registered := by rw [hhooks, hhandles]; exact hw.registered
  leaked := by rw [hleaked, hhandles]; exact hw.leaked

/-- The first entry of the profiler. -/
theorem Logged.enter (hw : w.Logged) (hp : p < w.profilers) (hnew : p ∉ w.entered) :
    { w with entered := w.entered ++ [p] }.Logged where
  entered := List.nodup_append.mpr ⟨hw.entered, List.nodup_singleton p, by
    rintro q hq r hr rfl
    exact hnew (List.mem_singleton.mp hr ▸ hq)⟩
  exited := hw.exited
  in_order := fun q hq => List.mem_append_left _ (hw.in_order q hq)
  one_record := hw.one_record
  exact := hw.exact
  ready := hw.ready
  created := by
    rintro q hq
    rcases List.mem_append.mp hq with hq | hq
    · exact hw.created q hq
    · exact List.mem_singleton.mp hq ▸ hp
  ended := hw.ended

/-- The exit of a profiler that is open. -/
theorem Logged.exit (hw : w.Logged) (hp : p ∈ w.entered) (hopen : p ∉ w.exited) :
    { w with exited := w.exited ++ [p] }.Logged where
  entered := hw.entered
  exited := List.nodup_append.mpr ⟨hw.exited, List.nodup_singleton p, by
    rintro q hq r hr rfl
    exact hopen (List.mem_singleton.mp hr ▸ hq)⟩
  in_order := by
    rintro q hq
    rcases List.mem_append.mp hq with hq | hq
    · exact hw.in_order q hq
    · exact List.mem_singleton.mp hq ▸ hp
  one_record := hw.one_record
  exact := hw.exact
  ready := hw.ready
  created := hw.created
  ended := fun c hc => List.mem_append_left _ (hw.ended c hc)

/-- The record of a profiler that has none. -/
theorem Logged.record (hw : w.Logged) {c : Capture} (hc : c.profiler ∈ w.exited)
    (hnew : ∀ d ∈ w.captures, d.profiler ≠ c.profiler) (hexact : c.Exact) :
    { w with captures := w.captures ++ [c] }.Logged where
  entered := hw.entered
  exited := hw.exited
  in_order := hw.in_order
  one_record := by
    rw [List.map_append]
    refine List.nodup_append.mpr ⟨hw.one_record, List.nodup_singleton c.profiler, ?_⟩
    rintro q hq r hr rfl
    obtain ⟨d, hd, hdq⟩ := List.mem_map.mp hq
    exact hnew d hd (hdq.trans (List.mem_singleton.mp hr))
  exact := by
    rintro d hd
    rcases List.mem_append.mp hd with hd | hd
    · exact hw.exact d hd
    · exact List.mem_singleton.mp hd ▸ hexact
  ready := hw.ready
  created := hw.created
  ended := by
    rintro d hd
    rcases List.mem_append.mp hd with hd | hd
    · exact hw.ended d hd
    · exact List.mem_singleton.mp hd ▸ hc

/-- A start that was refused leaves the controller as it was. -/
theorem Logged.refused (hw : w.Logged) :
    { w with raised := w.raised ++ [(w.ready, w.ready)] }.Logged :=
  { hw with
    ready := by
      rintro r hr
      rcases List.mem_append.mp hr with hr | hr
      · exact hw.ready r hr
      · rw [List.mem_singleton.mp hr]
        exact id }

end Frame

section Ends

variable {status : Status} {error : Option Exc} {stopped : Bool}

/-- No capture is running, and the rest of the invariant holds. -/
structure Over (w : World) : Prop where
  logged : w.Logged
  queued : w.Queued
  idle : w.Idle

theorem Over.inv (hw : w.Over) : w.Inv := ⟨hw.logged, hw.queued, .inl hw.idle⟩

/-- The end of a capture whose profiler was entered. -/
theorem Over.close (hw : w.Over) (hp : p ∈ w.entered) (hopen : p ∉ w.exited)
    (hseen : w.seen.Nodup ∧ ∀ k ∈ w.seen, w.since ≤ k)
    (hexact : status = .completed → stopped = false → w.seen.length = w.controller.stepsTarget) :
    (w.close p status error stopped f).1.Over := by
  obtain ⟨hlogged, hqueued, hidle⟩ := hw
  have hexit := hlogged.exit hp hopen
  have hqueued' : Queued { w with exited := w.exited ++ [p] } :=
    hqueued.same rfl rfl rfl rfl rfl
  have hidle' : Idle { w with exited := w.exited ++ [p] } := { hidle with }
  rw [World.close]
  split
  · exact ⟨hexit, hqueued', hidle'⟩
  · split
    · exact ⟨hexit, hqueued', hidle'⟩
    · exact ⟨hexit, hqueued', hidle'⟩
    · refine ⟨hexit.record (List.mem_append_right _ (List.mem_singleton.mpr rfl)) ?_ ?_,
        hqueued.same rfl rfl rfl rfl rfl, { hidle with }⟩
      · rintro d hd rfl
        exact hopen (hlogged.ended d hd)
      · rintro hcompleted hstopped
        refine ⟨hseen.1, hexact ?_ hstopped, hseen.2⟩
        by_contra hstatus
        simp [hstatus] at hcompleted

/-- A hook that is removed is not registered any more. -/
theorem Over.removed (hlogged : w.Logged) (hqueued : w.Queued) (hw : w.Running p h) :
    Over { w with
      controller := { w.controller with hookHandle := none, running := false, profiler := none }
      hooks := w.hooks.erase h } where
  logged := hlogged.same rfl rfl rfl rfl (Nat.le_refl _)
  queued := {
    calls := hqueued.calls
    hooks := hqueued.hooks.erase h
    called := hqueued.called
    registered := fun g hg => hqueued.registered g (List.mem_of_mem_erase hg)
    leaked := hqueued.leaked }
  idle := ⟨rfl, rfl, fun g hg => by
    obtain ⟨hne, hmem⟩ := hqueued.hooks.mem_erase_iff.mp hg
    exact (hw.hooks g hmem).resolve_left hne⟩

/-- A hook whose removal raised is registered still. -/
theorem Over.leaked (hlogged : w.Logged) (hqueued : w.Queued) (hw : w.Running p h)
    (hlast : h < w.handles) :
    Over { w with
      controller := { w.controller with hookHandle := none, running := false, profiler := none }
      leaked := w.leaked ++ [h] } where
  logged := hlogged.same rfl rfl rfl rfl (Nat.le_refl _)
  queued := {
    calls := hqueued.calls
    hooks := hqueued.hooks
    called := hqueued.called
    registered := hqueued.registered
    leaked := by
      rintro g hg
      rcases List.mem_append.mp hg with hg | hg
      · exact hqueued.leaked g hg
      · exact List.mem_singleton.mp hg ▸ hlast }
  idle := ⟨rfl, rfl, fun g hg => by
    rcases hw.hooks g hg with rfl | hold
    · exact List.mem_append_right _ (List.mem_singleton.mpr rfl)
    · exact List.mem_append_left _ hold⟩

/-- The end of a capture, unless the removal of its hook raises more than an `Exception`. -/
theorem Over.finalize (hlogged : w.Logged) (hqueued : w.Queued) (hw : w.Running p h)
    (hp : p ∈ w.entered)
    (hexact : status = .completed → stopped = false → w.seen.length = w.controller.stepsTarget) :
    w.finalizeCapture status error stopped f = (w, some .BaseException) ∨
      (w.finalizeCapture status error stopped f).1.Over := by
  have hseen : w.seen.Nodup ∧ ∀ k ∈ w.seen, w.since ≤ k := ⟨hw.seen, fun k hk => (hw.after k hk).1⟩
  rw [finalizeCapture, if_neg (by simp [hw.running]), removeHook, hw.handle]
  cases hremove : f.remove with
  | none =>
      simp only [hw.profiler]
      exact .inr ((Over.removed hlogged hqueued hw).close hp hw.open_ hseen hexact)
  | some e =>
      cases e with
      | BaseException => exact .inl rfl
      | RuntimeError | Exception =>
          simp only [hw.profiler]
          exact .inr ((Over.leaked hlogged hqueued hw hw.handed).close hp hw.open_ hseen hexact)

end Ends

section Calls

theorem Running.troubled (hw : w.Running p h) : Running { w with troubled := true } p h :=
  { hw with }

/-- A hook call that raised in a capture that goes on. -/
theorem Inv.raises (hlogged : w.Logged) (hqueued : w.Queued) (hw : w.Running p h) :
    Inv { w with troubled := true } :=
  ⟨hlogged.same rfl rfl rfl rfl (Nat.le_refl _), hqueued.same rfl rfl rfl rfl rfl,
    .inr ⟨p, h, hw.troubled, fun hbad => nomatch hbad⟩⟩

theorem Over.notedCall {result : World × Option Exc} (hw : result.1.Over) :
    (notedCall result).Over := by
  unfold World.notedCall
  split
  · exact hw
  · exact ⟨hw.logged.same rfl rfl rfl rfl (Nat.le_refl _), hw.queued.same rfl rfl rfl rfl rfl,
      { hw.idle with }⟩

/-- A hook call that ends the capture. -/
theorem Inv.ends {status : Status} {error : Option Exc} (hlogged : w.Logged) (hqueued : w.Queued)
    (hw : w.Running p h) (hp : p ∈ w.entered)
    (hexact : status = .completed → w.seen.length = w.controller.stepsTarget) :
    (notedCall (w.finalizeCapture status error false f)).Inv := by
  rcases Over.finalize hlogged hqueued hw hp fun hstatus _ => hexact hstatus with heq | hover
  · rw [heq]
    exact Inv.raises hlogged hqueued hw
  · exact hover.notedCall.inv

/-- The hook from the check of the number of steps on, after its call was seen. -/
theorem Inv.countStep (hlogged : w.Logged) (hqueued : w.Queued) (hw : w.Running p h)
    (hp : p ∈ w.entered)
    (hseen : w.troubled = false → w.controller.stepCount < w.controller.stepsTarget ∧
      w.seen.length = w.controller.stepCount + 1)
    (hlast : f.step = none → w.controller.stepCount + 1 = w.controller.stepsTarget →
      w.troubled = false) (hsome : w.seen ≠ []) : (notedCall (w.countStep f)).Inv := by
  rw [World.countStep]
  split
  · rename_i hfull
    -- a call too many comes only after one that raised
    exact ⟨hlogged, hqueued, .inr ⟨p, h, hw, fun hcalm =>
      absurd (hseen hcalm).1 (Nat.not_lt_of_le hfull)⟩⟩
  · rename_i hbelow
    split
    · rename_i hstep
      have hcounted : Running { w with
          controller := { w.controller with stepCount := w.controller.stepCount + 1 } } p h :=
        { hw with counted := fun _ => hsome }
      have hlogged' : Logged { w with
          controller := { w.controller with stepCount := w.controller.stepCount + 1 } } :=
        hlogged.same rfl rfl rfl rfl (Nat.le_refl _)
      have hqueued' : Queued { w with
          controller := { w.controller with stepCount := w.controller.stepCount + 1 } } :=
        hqueued.same rfl rfl rfl rfl rfl
      simp only
      split
      · rename_i hreached
        have htarget : w.controller.stepCount + 1 = w.controller.stepsTarget := by omega
        exact Inv.ends hlogged' hqueued' hcounted hp
          fun _ => (hseen (hlast hstep htarget)).2.trans htarget
      · rename_i hopen
        exact ⟨hlogged', hqueued', .inr ⟨p, h, hcounted, fun hcalm =>
          ⟨Nat.lt_of_not_le hopen, (hseen hcalm).2, fun hnil => absurd hnil hsome⟩⟩⟩
    · exact Inv.ends hlogged hqueued hw hp fun hbad => nomatch hbad
    · exact Inv.raises hlogged hqueued hw

/-- A call of a hook that runs is no longer waiting. -/
theorem Queued.called_once (hw : w.Queued) : Queued { w with calls := w.calls.erase (k, h) } where
  calls := hw.calls.erase _
  hooks := hw.hooks
  called := fun j g hcall => hw.called j g (List.mem_of_mem_erase hcall)
  registered := hw.registered
  leaked := hw.leaked

/-- A call of the capture's own hook is of a step that it has not seen. Its profiler is entered. -/
theorem Running.see (hqueued : w.Queued) (hw : w.Running p h) (hcall : (k, h) ∈ w.calls)
    (hafter : w.since ≤ k) {entered : List ℕ} (hp : p ∈ entered) :
    Running { w with
      calls := w.calls.erase (k, h), seen := w.seen ++ [k], entered := entered } p h where
  running := hw.running
  profiler := hw.profiler
  handle := hw.handle
  handed := hw.handed
  created := hw.created
  open_ := hw.open_
  entered := fun _ => hp
  counted := fun _ => List.append_ne_nil_of_right_ne_nil _ (List.cons_ne_nil _ _)
  own := hw.own
  hooks := hw.hooks
  calls := fun j g hj => hw.calls j g (List.mem_of_mem_erase hj)
  unseen := by
    rintro j hj hseen
    obtain ⟨hne, hj⟩ := hqueued.calls.mem_erase_iff.mp hj
    rcases List.mem_append.mp hseen with hseen | hseen
    · exact hw.unseen j hj hseen
    · exact hne (congrArg (·, h) (List.mem_singleton.mp hseen))
  seen := by
    refine List.nodup_append.mpr ⟨hw.seen, List.nodup_singleton k, ?_⟩
    rintro i hi j hj rfl
    exact hw.unseen k hcall (List.mem_singleton.mp hj ▸ hi)
  after := by
    rintro j hj
    rcases List.mem_append.mp hj with hj | hj
    · exact hw.after j hj
    · obtain rfl := List.mem_singleton.mp hj
      exact ⟨hafter, (hqueued.called j h hcall).1⟩
  since := hw.since

theorem Inv.hook (hw : w.Inv) (hcall : (k, h) ∈ w.calls) (hsound : w.Sound (.hook k h f)) :
    (notedCall ({ w with calls := w.calls.erase (k, h) }.profilerStepHook k f)).Inv := by
  have hlogged : Logged { w with calls := w.calls.erase (k, h) } :=
    hw.logged.same rfl rfl rfl rfl (Nat.le_refl _)
  have hqueued := hw.queued.called_once (k := k) (h := h)
  rcases hw.state with hidle | ⟨p, g, hrunning, hcounted⟩
  · simp only [profilerStepHook, hidle.profiler]
    exact ⟨hlogged, hqueued, .inl { hidle with }⟩
  · obtain ⟨hafter, hkept, hraised⟩ := hsound hrunning.running
    obtain rfl : h = g := (hrunning.calls k h hcall hafter).resolve_right hkept
    have hsome : w.seen ++ [k] ≠ [] :=
      List.append_ne_nil_of_right_ne_nil _ (List.cons_ne_nil _ _)
    have hlength (hcalm : w.troubled = false) :
        w.controller.stepCount < w.controller.stepsTarget ∧
          (w.seen ++ [k]).length = w.controller.stepCount + 1 :=
      ⟨(hcounted hcalm).below, by rw [List.length_append, (hcounted hcalm).all]; rfl⟩
    simp only [profilerStepHook, hrunning.profiler, hrunning.running]
    split
    · rename_i hzero
      -- no call of the capture raised before, so this one is the first
      have hcalm := hraised (.inl hzero)
      have hnone : w.seen = [] := List.length_eq_zero_iff.mp ((hcounted hcalm).all.trans hzero)
      have hnew := hw.logged.enter hrunning.created ((hcounted hcalm).fresh hnone)
      have hentered : p ∈ w.entered ++ [p] := List.mem_append_right _ (List.mem_singleton.mpr rfl)
      have hlogged' : Logged { w with
          calls := w.calls.erase (k, h), seen := w.seen ++ [k], entered := w.entered ++ [p] } :=
        hnew.same rfl rfl rfl rfl (Nat.le_refl _)
      have hqueued' : Queued { w with
          calls := w.calls.erase (k, h), seen := w.seen ++ [k], entered := w.entered ++ [p] } :=
        hqueued.same rfl rfl rfl rfl rfl
      have hsee := hrunning.see hw.queued hcall hafter hentered
      split
      · exact Inv.raises hlogged' hqueued' hsee
      · exact Inv.countStep hlogged' hqueued' hsee hentered hlength
          (fun hstep htarget => hraised (.inr ⟨hstep, htarget⟩)) hsome
    · rename_i hpos
      have hentered := hrunning.entered (hrunning.counted (Nat.pos_of_ne_zero hpos))
      exact Inv.countStep (hlogged.same rfl rfl rfl rfl (Nat.le_refl _))
        (hqueued.same rfl rfl rfl rfl rfl) (hrunning.see hw.queued hcall hafter hentered) hentered
        hlength (fun hstep htarget => hraised (.inr ⟨hstep, htarget⟩)) hsome

/-- Every hook that is registered is called once for the step. -/
theorem Inv.optimizerStep (hw : w.Inv) : Inv { w with
    optSteps := w.optSteps + 1
    calls := w.calls ++ w.hooks.map fun h => (w.optSteps, h) } where
  logged := hw.logged.same rfl rfl rfl rfl (Nat.le_refl _)
  queued := {
    calls := by
      refine List.nodup_append.mpr ⟨hw.queued.calls, ?_, ?_⟩
      · exact hw.queued.hooks.map fun g h heq => (Prod.mk.inj heq).2
      · rintro ⟨j, g⟩ hold c hnew rfl
        obtain ⟨i, -, heq⟩ := List.mem_map.mp hnew
        have hlt := (hw.queued.called j g hold).1
        rw [← (Prod.mk.inj heq).1] at hlt
        exact Nat.lt_irrefl _ hlt
    hooks := hw.queued.hooks
    called := by
      rintro j g hcall
      rcases List.mem_append.mp hcall with hcall | hcall
      · obtain ⟨hj, hg⟩ := hw.queued.called j g hcall
        exact ⟨Nat.lt_succ_of_lt hj, hg⟩
      · obtain ⟨h, hh, heq⟩ := List.mem_map.mp hcall
        obtain ⟨rfl, rfl⟩ := Prod.mk.inj heq
        exact ⟨Nat.lt_succ_self _, hw.queued.registered h hh⟩
    registered := hw.queued.registered
    leaked := hw.queued.leaked }
  state := by
    rcases hw.state with hidle | ⟨p, h, hrunning, hcounted⟩
    · exact .inl { hidle with }
    · refine .inr ⟨p, h, { hrunning with
        calls := ?_
        unseen := ?_
        after := fun j hj => ⟨(hrunning.after j hj).1, Nat.lt_succ_of_lt (hrunning.after j hj).2⟩
        since := Nat.le_succ_of_le hrunning.since }, fun hcalm => { hcounted hcalm with }⟩
      · rintro j g hcall hafter
        rcases List.mem_append.mp hcall with hcall | hcall
        · exact hrunning.calls j g hcall hafter
        · obtain ⟨i, hi, heq⟩ := List.mem_map.mp hcall
          obtain ⟨rfl, rfl⟩ := Prod.mk.inj heq
          exact hrunning.hooks i hi
      · rintro j hcall hseen
        rcases List.mem_append.mp hcall with hcall | hcall
        · exact hrunning.unseen j hcall hseen
        · obtain ⟨i, -, heq⟩ := List.mem_map.mp hcall
          obtain rfl := (Prod.mk.inj heq).1
          exact Nat.lt_irrefl _ (hrunning.after _ hseen).2

end Calls

section Starts

variable {steps : ℤ} {trigger : String} {now : ℕ}

/-- A start on an idle controller that does not fail. -/
theorem Inv.start (hw : w.Inv) (hidle : w.Idle) (hcreate : f.create = none)
    (hregister : f.register = none) :
    (w.start steps trigger now f).2 = none ∧ (w.start steps trigger now f).1.Inv := by
  rw [World.start, if_neg (by simp [hidle.running])]
  simp only [hcreate, hregister]
  refine ⟨trivial, hw.logged.same rfl rfl rfl rfl (Nat.le_succ _), ?_,
    .inr ⟨w.profilers, w.handles, ?_, fun _ => ?_⟩⟩
  · refine {
      calls := hw.queued.calls
      hooks := List.nodup_append.mpr ⟨hw.queued.hooks, List.nodup_singleton _, ?_⟩
      called := fun j g hcall => ?_
      registered := fun g hg => ?_
      leaked := fun g hg => Nat.lt_succ_of_lt (hw.queued.leaked g hg) }
    · rintro g hg i hi rfl
      rw [List.mem_singleton.mp hi] at hg
      exact Nat.lt_irrefl _ (hw.queued.registered _ hg)
    · exact ⟨(hw.queued.called j g hcall).1, Nat.lt_succ_of_lt (hw.queued.called j g hcall).2⟩
    · rcases List.mem_append.mp hg with hg | hg
      · exact Nat.lt_succ_of_lt (hw.queued.registered g hg)
      · exact List.mem_singleton.mp hg ▸ Nat.lt_succ_self _
  · exact {
      running := rfl
      profiler := rfl
      handle := rfl
      handed := Nat.lt_succ_self _
      created := Nat.lt_succ_self _
      open_ := fun hexited => Nat.lt_irrefl _ (hw.logged.created _ (hw.logged.in_order _ hexited))
      entered := fun hbad => absurd rfl hbad
      counted := fun hpos => absurd hpos (Nat.lt_irrefl 0)
      own := fun hleaked => Nat.lt_irrefl _ (hw.queued.leaked _ hleaked)
      hooks := fun g hg => (List.mem_append.mp hg).elim (fun hold => .inr (hidle.hooks g hold))
        fun hnew => .inl (List.mem_singleton.mp hnew)
      -- the calls that are left over are of earlier steps
      calls :=
        fun j g hcall hafter => absurd (hw.queued.called j g hcall).1 (Nat.not_lt_of_le hafter)
      unseen := fun j hcall => absurd (hw.queued.called j _ hcall).2 (Nat.lt_irrefl _)
      seen := List.nodup_nil
      after := by simp
      since := Nat.le_refl _ }
  · exact {
      below := by
        change 0 < (max steps 1).toNat
        omega
      all := rfl
      fresh := fun _ hentered => Nat.lt_irrefl _ (hw.logged.created _ hentered) }

end Starts

theorem Inv.step (hw : w.Inv) {a : Action} (hsound : w.Sound a) (hstep : w.step a = some w') :
    w'.Inv := by
  cases a with
  | start steps trigger now f =>
      obtain rfl := Option.some.inj hstep
      rcases hw.state with hidle | ⟨p, h, hrunning, hcounted⟩
      · obtain ⟨hcreate, hregister⟩ := hsound hidle.running
        obtain ⟨hnone, hinv⟩ := @Inv.start w f steps trigger now hw hidle hcreate hregister
        rw [noted, hnone]
        exact hinv
      · have hraises : w.start steps trigger now f = (w, some .RuntimeError) :=
          if_pos hrunning.running
        rw [noted, hraises]
        exact ⟨hw.logged.refused, hw.queued.same rfl rfl rfl rfl rfl,
          .inr ⟨p, h, { hrunning with }, fun hcalm => { hcounted hcalm with }⟩⟩
  | optimizerStep =>
      obtain rfl := Option.some.inj hstep
      exact hw.optimizerStep
  | hook k h f =>
      obtain ⟨hcall, hs⟩ := Option.ite_none_right_eq_some.mp hstep
      obtain rfl := Option.some.inj hs
      exact hw.hook hcall hsound
  | stop f =>
      obtain rfl := Option.some.inj hstep
      rw [World.stop]
      rcases hw.state with hidle | ⟨p, h, hrunning, hcounted⟩
      · rw [hidle.running]
        exact hw
      · have hentered := hrunning.entered (hsound hrunning.running)
        rw [hrunning.running, if_pos rfl]
        have hcases : w.finalizeCapture .completed none true f = (w, some .BaseException) ∨
            (w.finalizeCapture .completed none true f).1.Over :=
          Over.finalize hw.logged hw.queued hrunning hentered (fun _ hbad => nomatch hbad)
        rcases hcases with heq | hover
        · rw [heq]
          exact hw
        · exact hover.inv

/-- In a run whose steps are all sound the captures cover the steps that were asked for. -/
theorem covers_of_sound {acts : List Action} (hsound : Meets step Sound new acts)
    (hrun : exec step new acts = some w) : w.Covers :=
  (exec_invariant (fun _ _ _ hw hok hstep => Inv.step hw hok hstep) inv_new hsound
    hrun).logged.toCovers

def noFaults : Faults := ⟨none, none, none, none, none, none, none⟩

/-- Two steps are captured, then two of three since the second one raises, and then one. -/
def threeCaptures : List Action :=
  [.start 2 "manual" 0 noFaults, .optimizerStep, .hook 0 0 noFaults, .optimizerStep,
    .hook 1 0 noFaults, .start 3 "manual" 0 noFaults, .optimizerStep, .hook 2 1 noFaults,
    .optimizerStep, .hook 3 1 { noFaults with step := some .RuntimeError },
    .start 1 "manual" 0 noFaults, .optimizerStep, .hook 4 2 noFaults]

theorem three_captures_cover : ∃ w, exec step new threeCaptures = some w ∧
    w.captures.map (fun c => (c.status, c.seen)) =
      [(.completed, [0, 1]), (.failed, [2, 3]), (.completed, [4])] ∧ w.Covers :=
  ⟨_, rfl, rfl, @covers_of_sound _ threeCaptures (by decide) rfl⟩

/-- A start whose profiler cannot be created leaves the controller running. -/
theorem failed_start_not_ready :
    ¬ ∀ (acts : List Action) (w : World), exec step new acts = some w → w.Covers := by
  rintro h
  have hcovers := h [.start 1 "manual" 0 { noFaults with create := some .RuntimeError }] _ rfl
  exact absurd (hcovers.ready (true, false) (List.mem_singleton.mpr rfl) rfl) (by decide)

end World

end Probing.Profiling.TorchController
