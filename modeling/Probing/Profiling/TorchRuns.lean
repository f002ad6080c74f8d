import Probing.Core.Run
import Probing.Profiling.TorchHooks

/-!
# Runs of a probe

PyTorch calls the hooks of the probe in any order, the sampling is changed between any two of them,
and other parties open spans on the same thread. Where no hook takes the place of an entry with a
span and each `post` hook finds its entry, the rows are paired and every span is exited once.
-/

namespace Probing.Profiling.TorchProbe

open Probing.Core (exec exec_invariant Meets)
open Probing.Tracing (Phase)

variable {M : Type}

/-- The probe, the handles of other parties, and whether a step has just ended. -/
structure State (M : Type) where
  probe : Probe M
  others : List Handle
  ended : Bool

inductive Action (M : Type) where
  | forward (post : Bool) (mod : M)
  | preStep (optimizer : M)
  | postStep (optimizer : M)
  | setSamplingMode (period : ℕ) (layers : ℕ → M → Bool)
  | configure (traceSpans : Bool) (period : ℕ) (layers : ℕ → M → Bool)
  | attach (ownsModule ownsOptimizer : M → Bool)
  | enter (phase : Phase)
  | exit (k : ℕ)

namespace State

/-- The probe is installed. -/
def start (clock : ℕ → Reading) (traceSpans : Bool) (shadowNormal shadowBaseline : Int)
    (useGpuEvents : Bool) (ownsModule ownsOptimizer : M → Bool) (period : ℕ)
    (layers : ℕ → M → Bool) (enabled : Bool) : State M :=
  ⟨.new clock traceSpans shadowNormal shadowBaseline useGpuEvents ownsModule ownsOptimizer
    period layers enabled, [], false⟩

def step [DecidableEq M] (s : State M) : Action M → Option (State M)
  | .forward post mod => some { s with probe := s.probe.forwardHook post mod, ended := false }
  | .preStep optimizer => some { s with probe := s.probe.preStepHook optimizer, ended := false }
  | .postStep optimizer => some { s with probe := s.probe.postStepHook optimizer, ended := true }
  | .setSamplingMode period layers =>
      some { s with probe := s.probe.setSamplingMode period layers }
  | .configure traceSpans period layers =>
      some { s with probe := s.probe.configure traceSpans period layers }
  | .attach ownsModule ownsOptimizer =>
      some { s with
        probe := { s.probe with ownsModule := ownsModule, ownsOptimizer := ownsOptimizer } }
  | .enter phase =>
      some { s with
        probe := { s.probe with thread := (s.probe.thread.enter phase).2 }
        others := s.others ++ [(s.probe.thread.enter phase).1] }
  | .exit k =>
      s.others[k]?.map fun handle => { s with
        probe := { s.probe with thread := s.probe.thread.exit handle }
        others := s.others.eraseIdx k }

/-- No hook loses a span or an entry. -/
def Undisturbed [DecidableEq M] (s : State M) : Action M → Prop
  | .forward post mod => s.probe.ensureStepPlan.Keeps post .forward mod false
  | .preStep optimizer => s.probe.Steps optimizer
  | .postStep optimizer => s.probe.Ends optimizer
  | _ => True

instance [DecidableEq M] (s : State M) : (act : Action M) → Decidable (s.Undisturbed act)
  | .forward post mod => inferInstanceAs (Decidable (Probe.Keeps _ post .forward mod false))
  | .preStep optimizer => inferInstanceAs (Decidable (s.probe.Steps optimizer))
  | .postStep optimizer => inferInstanceAs (Decidable (s.probe.Ends optimizer))
  | .setSamplingMode _ _ => inferInstanceAs (Decidable True)
  | .configure _ _ _ => inferInstanceAs (Decidable True)
  | .attach _ _ => inferInstanceAs (Decidable True)
  | .enter _ => inferInstanceAs (Decidable True)
  | .exit _ => inferInstanceAs (Decidable True)

/-- The rows that are saved are paired, and no two `post` rows with one `pre` row; they are of steps
that are over and were probed; every span of a step that is over was exited once; and after a step
nothing is left. -/
structure Good (s : State M) : Prop where
  paired : ∀ before row after, s.probe.saved = before ++ row :: after → row.post = true →
    ∃! pre, pre ∈ before ∧ pre.Pairs s.probe.clock row
  once : (s.probe.saved.filterMap Row.pre).Nodup
  numbers : (s.probe.saved.map Row.number).Nodup
  probed : ∀ row ∈ s.probe.saved, row.step < s.probe.steps ∧ s.probe.probed row.step = true
  spans : ∀ e ∈ s.probe.entered, s.probe.thread.exits e.1 ≤ 1 ∧
    (e.2 < s.probe.steps → s.probe.thread.exits e.1 = 1)
  ended : s.ended = true → s.probe.pending = [] ∧ s.probe.openSpans = [] ∧
    ∀ k, s.probe.events k = none ∧ s.probe.cpuStart k = none

variable [DecidableEq M] {s t : State M} {act : Action M}

/-- What holds between two actions. -/
structure Inv (s : State M) : Prop where
  probe : s.probe.Inv s.others
  ended : s.ended = true → s.probe.openSpans = [] ∧ s.probe.pending = []

theorem Inv.good (h : s.Inv) : s.Good := by
  have hlogged := h.probe.logged
  have hnumbers : (s.probe.saved.map Row.number).Pairwise (· < ·) :=
    hlogged.numbers.sublist ((List.sublist_append_left _ _).map _)
  refine
    { paired := fun before row after hsaved hpost => ?_
      once := hlogged.pres.sublist
        (((List.sublist_append_left _ _).filterMap _).trans (List.sublist_append_left _ _))
      numbers := hnumbers.imp Nat.ne_of_lt
      probed := hlogged.probed
      spans := fun e he => ?_
      ended := fun hended => ?_ }
  · obtain ⟨pre, hpre, hpairs⟩ := hlogged.saved before row after hsaved hpost
    refine ⟨pre, ⟨hpre, hpairs⟩, fun other ⟨hother, hpairs'⟩ => ?_⟩
    have hnumber : other.number = pre.number :=
      Option.some.inj (hpairs'.pre.symm.trans hpairs.pre)
    have hinj := List.inj_on_of_nodup_map (hnumbers.imp Nat.ne_of_lt)
    have hmem {r : Row M} (hr : r ∈ before) : r ∈ s.probe.saved := by
      rw [hsaved]
      exact List.mem_append_left _ hr
    exact hinj (hmem hother) (hmem hpre) hnumber
  · obtain ⟨-, hzero, hstep⟩ | ⟨-, hone⟩ := h.probe.tracks.count e he
    · exact ⟨hzero ▸ Nat.zero_le 1, fun hlt => (Nat.ne_of_lt hlt hstep).elim⟩
    · exact ⟨Nat.le_of_eq hone, fun _ => hone⟩
  · obtain ⟨hopen, hpending⟩ := h.ended hended
    exact ⟨hpending, hopen, h.probe.no_timers hopen⟩

theorem Inv.step (h : s.Inv) (hok : s.Undisturbed act) (hstep : s.step act = some t) : t.Inv := by
  cases act with
  | forward post mod =>
      obtain rfl := Option.some.inj hstep
      exact ⟨h.probe.forwardHook hok, fun hended => (nomatch hended)⟩
  | preStep optimizer =>
      obtain rfl := Option.some.inj hstep
      exact ⟨h.probe.preStepHook hok, fun hended => (nomatch hended)⟩
  | postStep optimizer =>
      obtain rfl := Option.some.inj hstep
      have hsettled := Probe.Settled.postStepHook h.probe hok
      exact ⟨hsettled.toInv, fun _ => ⟨hsettled.no_open, hsettled.no_pending⟩⟩
  | setSamplingMode period layers =>
      obtain rfl := Option.some.inj hstep
      exact ⟨h.probe.same rfl, h.ended⟩
  | configure traceSpans period layers =>
      obtain rfl := Option.some.inj hstep
      exact ⟨h.probe.same rfl, h.ended⟩
  | attach ownsModule ownsOptimizer =>
      obtain rfl := Option.some.inj hstep
      exact ⟨h.probe.same rfl, h.ended⟩
  | enter phase =>
      obtain rfl := Option.some.inj hstep
      exact ⟨⟨h.probe.tracks.other_enter phase, h.probe.logged.same rfl, h.probe.shadow,
        h.probe.idle⟩, h.ended⟩
  | exit k =>
      obtain ⟨handle, hk, rfl⟩ := Option.map_eq_some_iff.mp hstep
      have hothers := (List.eraseIdx_sublist s.others k).subset
      exact ⟨⟨h.probe.tracks.other_exit (List.mem_of_getElem? hk) hothers, h.probe.logged.same rfl,
        h.probe.shadow, h.probe.idle⟩, h.ended⟩

theorem Inv.start (clock : ℕ → Reading) (traceSpans : Bool) (shadowNormal shadowBaseline : Int)
    (useGpuEvents : Bool) (ownsModule ownsOptimizer : M → Bool) (period : ℕ)
    (layers : ℕ → M → Bool) (enabled : Bool) :
    (start clock traceSpans shadowNormal shadowBaseline useGpuEvents ownsModule ownsOptimizer
      period layers enabled).Inv where
  probe :=
    { tracks :=
        { nodup := List.nodup_nil
          known := fun _ hid => (nomatch hid)
          fresh := fun _ _ => rfl
          old := fun _ he => (nomatch he)
          count := fun _ he => (nomatch he)
          others := fun _ hh => (nomatch hh) }
      logged :=
        { keys := List.nodup_nil
          events := fun _ _ => rfl
          cpuStart := fun _ _ => rfl
          started := fun _ => rfl
          entries := fun _ he => (nomatch he)
          step := fun _ hrow => (nomatch hrow)
          pending := .nil
          saved := .nil
          numbers := .nil
          bound := fun _ hrow => (nomatch hrow)
          pres := List.nodup_nil
          bound_pre := fun _ hn => (nomatch hn)
          probed := fun _ hrow => (nomatch hrow) }
      shadow := fun _ => ⟨rfl, rfl⟩
      idle := fun _ => ⟨rfl, rfl, rfl⟩ }
  ended hended := (nomatch hended)

omit [DecidableEq M] in
theorem exists_of_any {o : Option (State M)} {P : State M → Prop} [DecidablePred P]
    (h : o.any (fun s => decide (P s)) = true) : ∃ s, o = some s ∧ P s := by
  obtain ⟨s, hs, hdecide⟩ := (Option.any_eq_true _ _).mp h
  exact ⟨s, hs, of_decide_eq_true hdecide⟩

/-- The records of a probe are paired in every run in which no hook loses a span or an entry. -/
theorem records_run (clock : ℕ → Reading) (traceSpans : Bool)
    (shadowNormal shadowBaseline : Int) (useGpuEvents : Bool)
    (ownsModule ownsOptimizer : M → Bool) (period : ℕ) (layers : ℕ → M → Bool) (enabled : Bool)
    (acts : List (Action M)) (s : State M)
    (hok : Meets State.step Undisturbed (State.start clock traceSpans shadowNormal
      shadowBaseline useGpuEvents ownsModule ownsOptimizer period layers enabled) acts)
    (hrun : exec State.step (State.start clock traceSpans shadowNormal shadowBaseline
      useGpuEvents ownsModule ownsOptimizer period layers enabled) acts = some s) : s.Good := by
  have hinv : s.Inv :=
    exec_invariant (fun _ _ _ hs hok hstep => hs.step hok hstep) (Inv.start _ _ _ _ _ _ _ _ _ _) hok
      hrun
  exact hinv.good

/-- A probe that times every step but each second one, which is a shadow step, with spans. -/
def alternates : State ℕ :=
  start (fun n => ⟨n, 2 * n, 3 * n⟩) true 1 1 false (fun _ => false) (fun _ => false) 1
    (fun _ _ => true) true

/-- A step with a module in another one, which raises and is called again, and a shadow step. -/
def trains : List (Action ℕ) :=
  [.postStep 9, .forward false 0, .enter .optimizer, .forward false 1, .exit 0, .forward true 0,
    .forward false 2, .forward true 2, .preStep 9, .postStep 9, .forward false 0, .forward true 0,
    .preStep 9, .postStep 9]

/-- The module of each `post` row, the number of its `pre` row and its duration. -/
def posts (s : State ℕ) : List (ℕ × Option ℕ × Option Int) :=
  (s.probe.saved.filter (·.post)).map fun row => (row.module, row.pre, row.duration)

/-- How often each span was exited. -/
def exits (s : State ℕ) : List (ℕ × ℕ) :=
  s.probe.entered.map fun e => (e.1, s.probe.thread.exits e.1)

theorem records_run_trains : ∃ s, exec State.step alternates trains = some s ∧ s.Good ∧
    s.posts = [(0, some 0, some 2), (2, some 3, some 1), (9, some 5, some 1), (1, some 1, some 6)] ∧
    s.exits = [(0, 1), (1, 1), (2, 1), (3, 1)] := by
  have hok : Meets State.step Undisturbed alternates trains := by decide
  obtain ⟨s, hrun, hs⟩ : ∃ s, exec State.step alternates trains = some s ∧
      s.posts = [(0, some 0, some 2), (2, some 3, some 1), (9, some 5, some 1),
        (1, some 1, some 6)] ∧ s.exits = [(0, 1), (1, 1), (2, 1), (3, 1)] :=
    exists_of_any (by decide)
  exact ⟨s, hrun, records_run _ _ _ _ _ _ _ _ _ _ trains s hok hrun, hs⟩

/-- The step in which the modules are discovered. -/
def discovers : List (Action ℕ) := [.preStep 9, .postStep 9]

/-- A module that calls itself. -/
def recurs : List (Action ℕ) :=
  [.postStep 9, .forward false 0, .forward false 0, .forward true 0, .forward true 0, .preStep 9,
    .postStep 9]

/-- A module that raises and is called again in the same step. -/
def retries : List (Action ℕ) :=
  [.postStep 9, .forward false 0, .forward false 0, .forward true 0, .preStep 9, .postStep 9]

/-- The rate goes up in a step that was not sampled, inside the forward of a module. -/
def resamples : List (Action ℕ) :=
  [.setSamplingMode 3 (fun _ _ => true), .postStep 9, .preStep 9, .postStep 9, .preStep 9,
    .postStep 9, .forward false 0, .setSamplingMode 1 (fun _ _ => true), .forward true 0,
    .preStep 9, .postStep 9]

/-- After the step of discovery a row and an entry are left; a module that calls itself, and one
whose step begins to be sampled inside it, has a `post` row without a `pre` row; and the first span
of a module that raises and is called again is never exited. -/
theorem records_broken :
    (∃ s, exec State.step alternates discovers = some s ∧ s.ended = true ∧ s.probe.pending ≠ [] ∧
      s.probe.openSpans ≠ []) ∧
    (∃ s, exec State.step alternates recurs = some s ∧
      ∃ row ∈ s.probe.saved, row.post = true ∧ row.pre = none) ∧
    (∃ s, exec State.step alternates resamples = some s ∧
      ∃ row ∈ s.probe.saved, row.post = true ∧ row.pre = none) ∧
    ∃ s, exec State.step alternates retries = some s ∧
      ∃ e ∈ s.probe.entered, e.2 < s.probe.steps ∧ s.probe.thread.exits e.1 = 0 :=
  ⟨exists_of_any (by decide), exists_of_any (by decide),
    exists_of_any (by decide), exists_of_any (by decide)⟩

end State

end Probing.Profiling.TorchProbe
