import Probing.Profiling.DeferredDrainSafety

/-!
# Every call returns

A call waits for a lock that another call is about to release, or for a worker thread that has
something to do. What calls and threads have left to do shrinks with every access, so they come
to an end once no new call starts.
-/

namespace Probing.Profiling.DeferredDrain

open Probing.Core (exec exec_invariant Meets)

variable {A R : Type}

/-- A bound for the accesses that a call still causes; an entry of a queue causes three. -/
def Call.work : Call R → ℕ
  | .idle => 0
  | .getLock _ => 2
  | .getBody _ => 1
  | .ensureLock _ _ => 6
  | .ensureBody _ _ => 5
  | .putNowait _ _ => 4
  | .flush _ _ shutting => if shutting then 7 else 2
  | .join _ _ shutting => if shutting then 6 else 1
  | .shutdownLock _ _ => 9
  | .shutdownBody _ _ => 8
  | .putNone _ _ => 5
  | .threadJoin _ _ => 1
  | .drainLock => 11
  | .drainBody => 10

def Thread.work : Thread R → ℕ
  | .process _ => 2
  | .taskDone _ => 1
  | _ => 0

namespace Worker

def work (w : Worker R) : ℕ := 3 * w.queue.length + w.thread.work

variable {w w' : Worker R}

theorem work_run (h : w.run = some w') : w'.work < w.work := by
  cases hthread : w.thread with
  | absent => simp [Worker.run, hthread] at h
  | ended => simp [Worker.run, hthread] at h
  | get =>
      cases hqueue : w.queue with
      | nil => simp [Worker.run, hthread, hqueue] at h
      | cons task queue =>
          simp only [Worker.run, hthread, hqueue] at h
          obtain rfl := Option.some.inj h
          simp only [work, Thread.work, hthread, hqueue, List.length_cons]
          omega
  | process task =>
      cases task with
      | some record =>
          simp only [Worker.run, hthread] at h
          obtain rfl := Option.some.inj h
          simp only [work, Thread.work, hthread]
          omega
      | none =>
          simp only [Worker.run, hthread] at h
          obtain rfl := Option.some.inj h
          simp only [work, Thread.work, hthread]
          omega
  | taskDone last =>
      simp only [Worker.run, hthread] at h
      obtain rfl := Option.some.inj h
      cases last <;>
        simp only [work, Thread.work, hthread, if_true, Bool.false_eq_true, if_false] <;>
        omega

theorem work_ensureStarted : w.ensureStarted.work ≤ w.work := by
  rw [Worker.ensureStarted]
  split
  · exact Nat.le_refl _
  · exact Nat.le_add_right _ _

theorem work_submit (record : R) : (w.submit record).work = w.work + 3 := by
  simp only [work, submit, List.length_append, List.length_singleton]
  omega

theorem work_stop : w.stop.work = w.work + 3 := by
  simp only [work, stop, List.length_append, List.length_singleton]
  omega

/-- A worker with unfinished tasks has something to do. -/
theorem Ok.run_of_unfinished (h : w.Ok) (hpos : w.unfinished ≠ 0) : ∃ w', w.run = some w' := by
  have hcounted := h.counted
  cases hthread : w.thread with
  | process task => cases task <;> exact ⟨_, by rw [Worker.run, hthread]⟩
  | taskDone last => exact ⟨_, by rw [Worker.run, hthread]⟩
  | get =>
      cases hqueue : w.queue with
      | nil =>
          rw [hthread, hqueue] at hcounted
          exact (hpos hcounted).elim
      | cons task queue => exact ⟨_, by rw [Worker.run, hthread, hqueue]⟩
  | absent =>
      rw [hthread] at hcounted
      cases h.phase with
      | absent _ _ _ hqueue => rw [hqueue] at hcounted; exact (hpos hcounted).elim
      | looping _ hloops => rw [hthread] at hloops; exact hloops.elim
      | stopping _ hloops => rw [hthread] at hloops; exact hloops.elim
      | left hleaves => rw [hthread] at hleaves; exact hleaves.elim
  | ended =>
      rw [hthread] at hcounted
      cases h.phase with
      | absent hw => rw [hthread] at hw; cases hw
      | looping _ hloops => rw [hthread] at hloops; exact hloops.elim
      | stopping _ hloops => rw [hthread] at hloops; exact hloops.elim
      | left _ _ _ hqueue => rw [hqueue] at hcounted; exact (hpos hcounted).elim

/-- A worker that was told to stop has something to do until its thread has ended. -/
theorem Ok.run_of_stopped (h : w.Ok) (hstopped : w.stopped = true)
    (halive : w.thread.isEnded = false) : ∃ w', w.run = some w' := by
  cases hthread : w.thread with
  | process task => cases task <;> exact ⟨_, by rw [Worker.run, hthread]⟩
  | taskDone last => exact ⟨_, by rw [Worker.run, hthread]⟩
  | ended => rw [hthread] at halive; cases halive
  | get =>
      cases h.phase with
      | absent hw => rw [hthread] at hw; cases hw
      | looping _ _ _ hclear => rw [hclear] at hstopped; cases hstopped
      | stopping records _ _ _ hqueue =>
          cases records with
          | nil => exact ⟨_, by rw [Worker.run, hthread, hqueue]; rfl⟩
          | cons record records => exact ⟨_, by rw [Worker.run, hthread, hqueue]; rfl⟩
      | left hleaves => rw [hthread] at hleaves; exact hleaves.elim
  | absent =>
      cases h.phase with
      | absent _ _ hclear => rw [hclear] at hstopped; cases hstopped
      | looping _ hloops => rw [hthread] at hloops; exact hloops.elim
      | stopping _ hloops => rw [hthread] at hloops; exact hloops.elim
      | left hleaves => rw [hthread] at hleaves; exact hleaves.elim

end Worker

namespace State

variable {s t : State A R} {a : A} {c : Call R} {i k : ℕ}

/-- What the calls and the threads have left to do. -/
def work (calls : Finset A) (s : State A R) : ℕ :=
  ∑ a ∈ calls, (s.calls a).work + ∑ i ∈ Finset.range s.created, (s.workers i).work

/-- A sum in which one summand changes. -/
theorem sum_update {ι M : Type} [DecidableEq ι] (f : M → ℕ) (g : ι → M) (set : Finset ι) {i : ι}
    (hi : i ∈ set) (m : M) :
    ∑ j ∈ set, f (Function.update g i m j) + f (g i) = ∑ j ∈ set, f (g j) + f m := by
  have hrest : ∑ j ∈ set.erase i, f (Function.update g i m j) = ∑ j ∈ set.erase i, f (g j) := by
    refine Finset.sum_congr rfl fun j hj => ?_
    rw [Function.update_of_ne (Finset.ne_of_mem_erase hj)]
  rw [← Finset.add_sum_erase set _ hi, ← Finset.add_sum_erase set (fun j => f (g j)) hi, hrest,
    Function.update_self]
  omega

variable [DecidableEq A]

/-- A call goes on and leaves the threads with no more to do than that. -/
theorem work_lt {calls : Finset A} (ha : a ∈ calls)
    (hcalls : t.calls = Function.update s.calls a c)
    (hworkers : ∑ i ∈ Finset.range t.created, (t.workers i).work ≤
      ∑ i ∈ Finset.range s.created, (s.workers i).work + k)
    (hc : c.work + k < (s.calls a).work) : t.work calls < s.work calls := by
  have hsum := sum_update Call.work s.calls calls ha c
  rw [← hcalls] at hsum
  rw [work, work]
  omega

/-- A call goes on and changes one worker. -/
theorem work_set_lt {calls : Finset A} (ha : a ∈ calls) (hi : i < s.created) {w : Worker R}
    (hw : w.work ≤ (s.workers i).work + k) (hc : c.work + k < (s.calls a).work) :
    ((s.set i w).goto a c).work calls < s.work calls := by
  refine work_lt (k := k) ha rfl ?_ hc
  have hsum := sum_update Worker.work s.workers (Finset.range s.created) (Finset.mem_range.mpr hi) w
  change ∑ j ∈ Finset.range s.created, (Function.update s.workers i w j).work ≤ _
  omega

theorem work_goto_lt {calls : Finset A} (ha : a ∈ calls)
    (hcalls : t.calls = Function.update s.calls a c)
    (hworkers : t.workers = s.workers) (hcreated : t.created = s.created)
    (hc : c.work < (s.calls a).work) : t.work calls < s.work calls := by
  refine work_lt (k := 0) ha hcalls ?_ hc
  rw [hworkers, hcreated]
  exact Nat.le_refl _

theorem work_flushes_lt {calls : Finset A} (ha : a ∈ calls) {before : ℕ} {shutting : Bool}
    (hc : (if shutting then 5 else 0) < (s.calls a).work) :
    (s.flushes a i before shutting).work calls < s.work calls := by
  cases shutting with
  | true => exact work_goto_lt (c := .putNone i before) ha rfl rfl rfl hc
  | false => exact work_goto_lt (c := .idle) ha rfl rfl rfl hc

/-- Every access of a call brings the calls closer to their end. -/
theorem Inv.work_advance_lt (h : s.Inv) {calls : Finset A} (ha : a ∈ calls)
    (hstep : s.advance a (s.calls a) = some t) : t.work calls < s.work calls := by
  have hknows := h.knows a
  cases hcall : s.calls a with
  | idle => rw [hcall] at hstep; cases hstep
  | getLock size =>
      rw [hcall] at hstep
      simp only [State.advance] at hstep
      split at hstep
      · cases hstep
      · obtain rfl := Option.some.inj hstep
        exact work_goto_lt ha rfl rfl rfl (by simp [hcall, Call.work])
  | getBody size =>
      rw [hcall] at hstep
      simp only [State.advance] at hstep
      split at hstep
      · obtain rfl := Option.some.inj hstep
        refine work_lt (k := 0) (c := .idle) ha rfl ?_ (by simp [hcall, Call.work])
        change ∑ j ∈ Finset.range (s.created + 1), (Function.update s.workers s.created
          (.new (queueMaxsize size)) j).work ≤ _
        rw [Finset.sum_range_succ, Function.update_self]
        refine Nat.le_of_eq (congrArg (· + 0) (Finset.sum_congr rfl fun j hj => ?_))
        rw [Function.update_of_ne (Nat.ne_of_lt (Finset.mem_range.mp hj))]
      · obtain rfl := Option.some.inj hstep
        exact work_goto_lt (c := .idle) ha rfl rfl rfl (by simp [hcall, Call.work])
  | ensureLock i record =>
      rw [hcall] at hstep hknows
      simp only [State.advance] at hstep
      split at hstep
      · cases hstep
      · obtain rfl := Option.some.inj hstep
        exact work_set_lt (k := 0) ha hknows (Nat.le_refl _) (by simp [hcall, Call.work])
  | ensureBody i record =>
      rw [hcall] at hstep hknows
      obtain rfl := Option.some.inj hstep
      exact work_set_lt (k := 0) ha hknows Worker.work_ensureStarted
        (by simp [hcall, Call.work])
  | putNowait i record =>
      rw [hcall] at hstep hknows
      simp only [State.advance] at hstep
      split at hstep
      · obtain rfl := Option.some.inj hstep
        exact work_goto_lt ha rfl rfl rfl (by simp [hcall, Call.work])
      · obtain rfl := Option.some.inj hstep
        exact work_set_lt (k := 3) ha hknows.1 (Nat.le_of_eq (Worker.work_submit record))
          (by simp [hcall, Call.work])
  | flush i before shutting =>
      rw [hcall] at hstep
      simp only [State.advance] at hstep
      split at hstep
      · obtain rfl := Option.some.inj hstep
        exact work_goto_lt ha rfl rfl rfl (by cases shutting <;> simp [hcall, Call.work])
      · obtain rfl := Option.some.inj hstep
        exact work_flushes_lt ha (by cases shutting <;> simp [hcall, Call.work])
  | join i before shutting =>
      rw [hcall] at hstep
      simp only [State.advance] at hstep
      split at hstep
      · obtain rfl := Option.some.inj hstep
        exact work_flushes_lt ha (by cases shutting <;> simp [hcall, Call.work])
      · cases hstep
  | shutdownLock i before =>
      rw [hcall] at hstep hknows
      simp only [State.advance] at hstep
      split at hstep
      · cases hstep
      · obtain rfl := Option.some.inj hstep
        exact work_set_lt (k := 0) ha hknows.1 (Nat.le_refl _) (by simp [hcall, Call.work])
  | shutdownBody i before =>
      rw [hcall] at hstep hknows
      simp only [State.advance] at hstep
      split at hstep
      · obtain rfl := Option.some.inj hstep
        exact work_set_lt (k := 0) (c := .idle) ha hknows.1 (Nat.le_refl _)
          (by simp [hcall, Call.work])
      · obtain rfl := Option.some.inj hstep
        exact work_set_lt (k := 0) ha hknows.1 (Nat.le_refl _) (by simp [hcall, Call.work])
  | putNone i before =>
      rw [hcall] at hstep hknows
      simp only [State.advance] at hstep
      split at hstep
      · obtain rfl := Option.some.inj hstep
        exact work_goto_lt ha rfl rfl rfl (by simp [hcall, Call.work])
      · obtain rfl := Option.some.inj hstep
        exact work_set_lt (k := 3) ha hknows.1 (Nat.le_of_eq Worker.work_stop)
          (by simp [hcall, Call.work])
  | threadJoin i before =>
      rw [hcall] at hstep
      simp only [State.advance] at hstep
      split at hstep
      · obtain rfl := Option.some.inj hstep
        exact work_goto_lt (c := .idle) ha rfl rfl rfl (by simp [hcall, Call.work])
      · cases hstep
  | drainLock =>
      rw [hcall] at hstep
      simp only [State.advance] at hstep
      split at hstep
      · cases hstep
      · obtain rfl := Option.some.inj hstep
        exact work_goto_lt ha rfl rfl rfl (by simp [hcall, Call.work])
  | drainBody =>
      rw [hcall] at hstep
      simp only [State.advance] at hstep
      split at hstep
      · obtain rfl := Option.some.inj hstep
        exact work_goto_lt ha rfl rfl rfl (by simp [hcall, Call.work])
      · obtain rfl := Option.some.inj hstep
        exact work_goto_lt (c := .idle) ha rfl rfl rfl (by simp [hcall, Call.work])

theorem flushes_calls (s : State A R) (a : A) (i before : ℕ) (shutting : Bool) :
    ∃ c, (s.flushes a i before shutting).calls = Function.update s.calls a c := by
  cases shutting with
  | true => exact ⟨_, rfl⟩
  | false => exact ⟨_, rfl⟩

/-- A call moves itself alone. -/
theorem advance_calls (hstep : s.advance a c = some t) :
    ∃ c', t.calls = Function.update s.calls a c' := by
  cases c with
  | idle => cases hstep
  | ensureBody i record =>
      obtain rfl := Option.some.inj hstep
      exact ⟨_, rfl⟩
  | flush i before shutting =>
      simp only [advance] at hstep
      split at hstep
      · obtain rfl := Option.some.inj hstep
        exact ⟨_, rfl⟩
      · obtain rfl := Option.some.inj hstep
        exact flushes_calls s a i before shutting
  | join i before shutting =>
      simp only [advance] at hstep
      split at hstep
      · obtain rfl := Option.some.inj hstep
        exact flushes_calls s a i before shutting
      · cases hstep
  | _ =>
      simp only [advance] at hstep
      split at hstep <;> first
        | (obtain rfl := Option.some.inj hstep; exact ⟨_, rfl⟩)
        | cases hstep

omit [DecidableEq A] in
theorem Inv.work_run_lt (h : s.Inv) {calls : Finset A} {w : Worker R}
    (hrun : (s.workers i).run = some w) : (s.set i w).work calls < s.work calls := by
  have hi : i < s.created := by
    by_contra hge
    have habsent := (h.fresh i (Nat.not_lt.mp hge)).1
    simp [Worker.run, habsent] at hrun
  have hsum := sum_update Worker.work s.workers (Finset.range s.created) (Finset.mem_range.mpr hi) w
  have hlt := Worker.work_run hrun
  change _ + ∑ j ∈ Finset.range s.created, (Function.update s.workers i w j).work < _
  rw [work]
  exact Nat.add_lt_add_left (by omega) _

/-- The holder of a lock goes on. -/
theorem Inv.holder_goesOn (h : s.Inv) (hlock : (s.workers i).lock = true) :
    ∃ b t, s.step (.step b) = some t := by
  obtain ⟨b, hb⟩ := h.locked i hlock
  refine ⟨b, ?_⟩
  cases hcall : s.calls b with
  | ensureBody worker record => exact ⟨_, by simp only [State.step, hcall]; rfl⟩
  | shutdownBody worker before =>
      simp only [State.step, hcall, State.advance]
      split <;> exact ⟨_, rfl⟩
  | _ => rw [hcall] at hb; exact hb.elim

theorem Inv.global_holder_goesOn (h : s.Inv) (hlock : s.workerLock = true) :
    ∃ b t, s.step (.step b) = some t := by
  obtain ⟨b, hb⟩ := h.globally hlock
  refine ⟨b, ?_⟩
  cases hcall : s.calls b with
  | getBody size =>
      simp only [State.step, hcall, State.advance]
      split <;> exact ⟨_, rfl⟩
  | drainBody =>
      simp only [State.step, hcall, State.advance]
      split <;> exact ⟨_, rfl⟩
  | _ => rw [hcall] at hb; exact hb.elim

theorem run_goesOn {w : Worker R} (hrun : (s.workers i).run = some w) :
    s.step (.run i) = some (s.set i w) := by
  rw [step, hrun, Option.map_some]

/-- As long as a call is under way, something goes on. -/
theorem Inv.goesOn (h : s.Inv) (hbusy : s.calls a ≠ .idle) :
    ∃ act : Action A R, act.goesOn = true ∧ ∃ t, s.step act = some t := by
  have hknows := h.knows a
  have hholder {i : ℕ} (hlock : (s.workers i).lock = true) :
      ∃ act : Action A R, act.goesOn = true ∧ ∃ t, s.step act = some t := by
    obtain ⟨b, t, ht⟩ := h.holder_goesOn hlock
    exact ⟨.step b, rfl, t, ht⟩
  have hglobal (hlock : s.workerLock = true) :
      ∃ act : Action A R, act.goesOn = true ∧ ∃ t, s.step act = some t := by
    obtain ⟨b, t, ht⟩ := h.global_holder_goesOn hlock
    exact ⟨.step b, rfl, t, ht⟩
  have hself {t : State A R} (ht : s.advance a (s.calls a) = some t) :
      ∃ act : Action A R, act.goesOn = true ∧ ∃ t, s.step act = some t :=
    ⟨.step a, rfl, t, ht⟩
  cases hcall : s.calls a with
  | idle => exact (hbusy hcall).elim
  | getLock size =>
      by_cases hlock : s.workerLock = true
      · exact hglobal hlock
      · exact hself (by simp only [hcall, State.advance, if_neg hlock]; rfl)
  | drainLock =>
      by_cases hlock : s.workerLock = true
      · exact hglobal hlock
      · exact hself (by simp only [hcall, State.advance, if_neg hlock]; rfl)
  | ensureLock i record =>
      by_cases hlock : (s.workers i).lock = true
      · exact hholder hlock
      · exact hself (by simp only [hcall, State.advance, if_neg hlock]; rfl)
  | shutdownLock i before =>
      by_cases hlock : (s.workers i).lock = true
      · exact hholder hlock
      · exact hself (by simp only [hcall, State.advance, if_neg hlock]; rfl)
  | join i before shutting =>
      by_cases hzero : (s.workers i).unfinished = 0
      · exact hself (by simp only [hcall, State.advance, if_pos hzero]; rfl)
      · obtain ⟨w, hrun⟩ := (h.ok i).run_of_unfinished hzero
        exact ⟨.run i, rfl, _, run_goesOn hrun⟩
  | threadJoin i before =>
      rw [hcall] at hknows
      cases hended : (s.workers i).thread.isEnded with
      | true => exact hself (by simp only [hcall, State.advance, hended, if_true]; rfl)
      | false =>
          obtain ⟨w, hrun⟩ := (h.ok i).run_of_stopped hknows.2.1 hended
          exact ⟨.run i, rfl, _, run_goesOn hrun⟩
  | ensureBody i record => exact hself (by simp only [hcall, State.advance]; rfl)
  | _ =>
      refine ⟨.step a, rfl, ?_⟩
      simp only [State.step, hcall, State.advance]
      split <;> exact ⟨_, rfl⟩

/-- What has gone on leaves less to do. -/
theorem Inv.goesOn_lt (h : s.Inv) {calls : Finset A} (hcalls : ∀ a, a ∉ calls → s.calls a = .idle)
    {act : Action A R} (hact : act.goesOn = true) (hstep : s.step act = some t) :
    t.work calls < s.work calls ∧ ∀ a, a ∉ calls → t.calls a = .idle := by
  cases act with
  | step a =>
      have ha : a ∈ calls := by
        by_contra hnot
        simp [State.step, hcalls a hnot, State.advance] at hstep
      refine ⟨h.work_advance_lt ha hstep, fun b hb => ?_⟩
      have hba : b ≠ a := fun heq => hb (heq ▸ ha)
      obtain ⟨c, hc⟩ := advance_calls hstep
      rw [hc, Function.update_of_ne hba]
      exact hcalls b hb
  | run worker =>
      obtain ⟨w, hrun, rfl⟩ := Option.map_eq_some_iff.mp hstep
      exact ⟨h.work_run_lt hrun, hcalls⟩
  | _ => cases hact

/-- What goes on comes to an end. -/
theorem Inv.length_le (h : s.Inv) {calls : Finset A} (hcalls : ∀ a, a ∉ calls → s.calls a = .idle)
    {later : List (Action A R)} (hgoes : ∀ act ∈ later, act.goesOn = true)
    (hok : Meets State.step Undisturbed s later) (hrun : exec State.step s later = some t) :
    later.length + t.work calls ≤ s.work calls := by
  induction later generalizing s with
  | nil =>
      obtain rfl := Option.some.inj hrun
      exact Nat.le_of_eq (Nat.zero_add _)
  | cons act rest ih =>
      obtain ⟨u, hu, hrest⟩ := Option.bind_eq_some_iff.mp hrun
      obtain ⟨hlt, hcalls'⟩ := h.goesOn_lt hcalls (hgoes act List.mem_cons_self) hu
      have hle := ih (h.step hok.1 hu) hcalls'
        (fun act hact => hgoes act (List.mem_cons_of_mem _ hact)) (hok.2 u hu) hrest
      rw [List.length_cons]
      omega

/-- In every run without such a step, what is saved are the first of the records that were
accepted, each once, all those from before a `flush` or `shutdown` are saved when it returns, and
what is in a queue will be read. When no new call starts, only so many accesses are made, and
until every call has returned there is one to be made. -/
theorem drain_run (acts : List (Action A R)) (s : State A R)
    (hok : Meets State.step Undisturbed new acts) (hrun : exec State.step new acts = some s) :
    s.Good ∧ ∃ bound, ∀ later t, (∀ act ∈ later, act.goesOn = true) →
      Meets State.step Undisturbed s later → exec State.step s later = some t →
        later.length ≤ bound ∧ ((∃ a, t.calls a ≠ .idle) →
          ∃ act : Action A R, act.goesOn = true ∧ ∃ u, t.step act = some u) := by
  have hinv := exec_invariant (fun _ _ _ hs hok hstep => hs.step hok hstep) inv_new hok hrun
  obtain ⟨calls, hcalls⟩ := hinv.finite
  refine ⟨hinv.good, s.work calls, fun later t hgoes hmeets hlater => ⟨?_, fun ⟨a, ha⟩ => ?_⟩⟩
  · have hle := hinv.length_le hcalls hgoes hmeets hlater
    omega
  · have hinv' := exec_invariant (fun _ _ _ hs hok hstep => hs.step hok hstep) hinv hmeets hlater
    exact hinv'.goesOn ha

/-- A worker is created, and a record is submitted to it. -/
def submits : List (Action Unit ℕ) :=
  [.getDeferredDrainWorker () none, .step (), .step (), .submit () 0 7 true, .step (), .step (),
    .step ()]

/-- The thread of the worker deals with one task. -/
def drains : List (Action Unit ℕ) := List.replicate 3 (.run 0)

/-- `shutdown_deferred_drain` up to the join of the thread. -/
def shuts : List (Action Unit ℕ) := .shutdownDeferredDrain () :: List.replicate 7 (.step ())

theorem drain_run_shutdown : ∃ s : State Unit ℕ,
    exec State.step new (submits ++ drains ++ shuts ++ drains ++ [Action.step ()]) = some s ∧
      s.flushed = [⟨0, 1⟩] ∧ s.Good :=
  ⟨_, rfl, rfl,
    (drain_run (submits ++ drains ++ shuts ++ drains ++ [Action.step ()]) _ (by decide) rfl).1⟩

/-- A record that is submitted to a worker after its shutdown stays in the queue; so does one that
is submitted in the child of a fork, where a `flush` never returns. -/
theorem drain_broken :
    (∃ s : State Unit ℕ,
      exec State.step new (submits ++ drains ++ shuts ++ drains ++ [Action.step ()] ++
      [Action.submit () 0 8 true, .step (), .step (), .step ()]) = some s ∧ ¬ s.Good) ∧
    ∃ s : State Unit ℕ, exec State.step new (submits ++ drains ++ [Action.fork ()] ++
        [Action.submit () 0 8 true, .step (), .step (), .step (), .flush () 0, .step ()]) = some s ∧
      ¬ s.Good ∧ s.calls () ≠ .idle ∧
      ∀ act : Action Unit ℕ, act.goesOn = true → s.step act = none := by
  refine ⟨⟨_, rfl, fun hgood => ?_⟩, ⟨_, rfl, fun hgood => ?_, ?_, ?_⟩⟩
  · exact absurd (hgood.read 0) (by decide)
  · exact absurd (hgood.read 0) (by decide)
  · exact fun h => (nomatch h)
  · intro act hact
    cases act with
    | step a => rfl
    | run i => cases i <;> rfl
    | _ => exact (nomatch hact)

end State

end Probing.Profiling.DeferredDrain
