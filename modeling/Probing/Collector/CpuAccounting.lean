import Mathlib.Algebra.BigOperators.Group.List.Basic
import Mathlib.Data.List.Perm.Subperm
import Mathlib.Data.List.Sort
import Probing.Collector.CpuSampling

/-!
# What the CPU rows account for

A row is exact when its deltas are what the process or the thread used in the interval of the row,
which is as long as the row says. What a round charges starts at the last sample that succeeded, or
at zero for a thread that this sample did not have; so its rows are exact when nothing was used from
there to the round before. Rows that are all exact sum up to no more than a thread has used since
the start.
-/

namespace Probing.Collector.Cpu

/-- What is subtracted from the current counters, which is never more than they are, is what they
were before. -/
def Usage.Continues (base before curr : Usage) : Prop :=
  min base.user curr.user = before.user ∧ min base.sys curr.sys = before.sys

instance (base before curr : Usage) : Decidable (base.Continues before curr) :=
  inferInstanceAs (Decidable (_ ∧ _))

/-- The row has the length of its interval, and its deltas are what was used in it. -/
def UtilizationRow.Exact (row : UtilizationRow) : Prop :=
  row.wallNs = row.interval ∧ row.deltaUserNs = row.used.user ∧ row.deltaSysNs = row.used.sys

theorem Usage.le.trans {a b c : Usage} (hab : a.le b) (hbc : b.le c) : a.le c :=
  ⟨Nat.le_trans hab.1 hbc.1, Nat.le_trans hab.2 hbc.2⟩

/-- Counters that do not go back go on from where they were before if they are what they were. -/
theorem Usage.continues_iff {base before curr : Usage} (hbase : base.le before)
    (hcurr : before.le curr) : base.Continues before curr ↔ base = before := by
  obtain ⟨hbase_user, hbase_sys⟩ := hbase
  obtain ⟨hcurr_user, hcurr_sys⟩ := hcurr
  rw [Usage.Continues, Usage.ext_iff]
  omega

theorem Usage.since_iff {base before curr : Usage} (h : before.le curr) :
    (curr.since base).user = (curr.since before).user ∧
        (curr.since base).sys = (curr.since before).sys ↔ base.Continues before curr := by
  obtain ⟨huser, hsys⟩ := h
  simp only [Usage.since, Usage.Continues]
  omega

namespace Setting

variable {S : Setting} {tasks : List Task} {task : Task} {thread : ThreadSample} {i : ℕ}

theorem sampleThreads_subperm :
    (S.sampleThreads tasks).Subperm (tasks.map S.threadSample) := by
  unfold sampleThreads
  split
  · exact List.nil_subperm
  · dsimp only
    split
    · exact ((List.take_sublist _ _).subperm).trans (List.mergeSort_perm _ _).subperm
    · exact List.Subperm.refl _

theorem exists_task (h : thread ∈ S.sampleThreads tasks) :
    ∃ task ∈ tasks, S.threadSample task = thread :=
  List.mem_map.mp (sampleThreads_subperm.subset h)

theorem sampleThreads_nodup (h : (tasks.map Task.thread).Nodup) :
    ((S.sampleThreads tasks).map ThreadSample.thread).Nodup := by
  obtain ⟨l, hperm, hsub⟩ : (S.sampleThreads tasks).Subperm _ := sampleThreads_subperm
  have hsame : (tasks.map S.threadSample).map ThreadSample.thread = tasks.map Task.thread :=
    List.map_map
  apply (hperm.map _).nodup_iff.mp
  exact (hsame ▸ h).sublist (hsub.map _)

theorem sampleThreads_nodup_tid (h : (tasks.map Task.tid).Nodup) :
    ((S.sampleThreads tasks).map ThreadSample.tid).Nodup := by
  obtain ⟨l, hperm, hsub⟩ : (S.sampleThreads tasks).Subperm _ := sampleThreads_subperm
  have hsame : (tasks.map S.threadSample).map ThreadSample.tid = tasks.map Task.tid :=
    List.map_map
  apply (hperm.map _).nodup_iff.mp
  exact (hsame ▸ h).sublist (hsub.map _)

theorem usageOf_mem (h : (tasks.map Task.thread).Nodup) (hmem : task ∈ tasks) :
    S.usageOf tasks task.thread = some (S.threadSample task).usage := by
  unfold usageOf
  rw [Core.Keyed.find_of_mem h hmem]
  rfl

theorem exists_task_of_usage {u : Usage} (h : S.usageOf tasks i = some u) :
    ∃ task ∈ tasks, task.thread = i ∧ (S.threadSample task).usage = u := by
  obtain ⟨task, hfind, hu⟩ := Option.map_eq_some_iff.mp h
  obtain ⟨hmem, hthread⟩ := Core.Keyed.mem_of_find hfind
  exact ⟨task, hmem, hthread, hu⟩

end Setting

/-- What a thread is charged starts where its counters were at the round before: a thread that the
last sample did not have under this `tid` had used nothing, the one that it had has used nothing
since, and a `tid` that was used again is charged by chance what the new thread used. -/
def ThreadSample.GoesOn (curr : ThreadSample) (used : Usage) : Option ThreadSample → Prop
  | none => used = ⟨0, 0⟩
  | some old =>
      if old.thread = curr.thread then old.usage = used else old.usage.Continues used curr.usage

instance (curr : ThreadSample) (used : Usage) : ∀ old, Decidable (curr.GoesOn used old)
  | none => inferInstanceAs (Decidable (_ = _))
  | some old => inferInstanceAs (Decidable (if old.thread = curr.thread then _ else _))

namespace History

variable (S : Setting)

/-- In a round that leaves rows, the process has used nothing between its last sample and the round
before, and every thread that is sampled goes on from the round before. -/
structure Covered (h : History) (r : Round) : Prop where
  process : h.last.now < r.now → r.processOk = true → ∀ prev ∈ h.sampled S,
    prev.usage = h.processUsed S
  threads : h.last.now < r.now → r.threadsOk = true → ∀ curr ∈ S.sampleThreads r.tasks,
    curr.GoesOn (h.threadUsed S curr.thread) (h.listed S curr.tid)

instance (h : History) (r : Round) : Decidable (h.Covered S r) :=
  decidable_of_iff
    ((h.last.now < r.now → r.processOk = true → ∀ prev ∈ h.sampled S,
        prev.usage = h.processUsed S) ∧
      (h.last.now < r.now → r.threadsOk = true → ∀ curr ∈ S.sampleThreads r.tasks,
        curr.GoesOn (h.threadUsed S curr.thread) (h.listed S curr.tid)))
    ⟨fun ⟨h₁, h₂⟩ => ⟨h₁, h₂⟩, fun h => ⟨h.1, h.2⟩⟩

/-- The counters of the rounds so far are no more than the last ones. -/
structure Grown (h : History) : Prop where
  process : ∀ r ∈ h.rounds, (S.sampleProcess r.stat).usage.le (h.processUsed S)
  threads : ∀ r ∈ h.rounds, ∀ task ∈ r.tasks,
    (S.threadSample task).usage.le (h.threadUsed S task.thread)
  nodup_tid : ∀ r ∈ h.rounds, (r.tasks.map Task.tid).Nodup

variable {S} {h : History} {r : Round} {curr : ThreadSample} {i : ℕ}

theorem threadUsed_cons : ({ h with rounds := r :: h.rounds } : History).threadUsed S i =
    (S.usageOf r.tasks i).getD (h.threadUsed S i) := rfl

theorem follows_thread (hr : h.Follows S r) (hmem : curr ∈ S.sampleThreads r.tasks) :
    (h.threadUsed S curr.thread).le curr.usage := by
  obtain ⟨task, htask, rfl⟩ := Setting.exists_task hmem
  exact hr.threads task htask

/-- The counters of a thread do not go back. -/
theorem threadUsed_le (hr : h.Follows S r) (i : ℕ) :
    (h.threadUsed S i).le (({ h with rounds := r :: h.rounds } : History).threadUsed S i) := by
  rw [threadUsed_cons]
  cases husage : S.usageOf r.tasks i with
  | none => exact ⟨Nat.le_refl _, Nat.le_refl _⟩
  | some u =>
      obtain ⟨task, hmem, rfl, rfl⟩ := Setting.exists_task_of_usage husage
      exact hr.threads task hmem

theorem threadUsed_task (hr : h.Follows S r) {task : Task} (hmem : task ∈ r.tasks) :
    ({ h with rounds := r :: h.rounds } : History).threadUsed S task.thread =
      (S.threadSample task).usage := by
  rw [threadUsed_cons, Setting.usageOf_mem hr.nodup hmem]
  rfl

theorem threadUsed_sampled (hr : h.Follows S r) (hmem : curr ∈ S.sampleThreads r.tasks) :
    ({ h with rounds := r :: h.rounds } : History).threadUsed S curr.thread = curr.usage := by
  obtain ⟨task, htask, rfl⟩ := Setting.exists_task hmem
  exact threadUsed_task hr htask

theorem Grown.round (hg : h.Grown S) (hr : h.Follows S r) :
    ({ h with rounds := r :: h.rounds } : History).Grown S where
  process q hq := by
    rcases List.mem_cons.mp hq with rfl | hq
    · exact ⟨Nat.le_refl _, Nat.le_refl _⟩
    · exact (hg.process q hq).trans hr.process
  threads q hq task htask := by
    rcases List.mem_cons.mp hq with rfl | hq
    · rw [threadUsed_task hr htask]
      exact ⟨Nat.le_refl _, Nat.le_refl _⟩
    · exact (hg.threads q hq task htask).trans (threadUsed_le hr _)
  nodup_tid q hq := by
    rcases List.mem_cons.mp hq with rfl | hq
    · exact hr.nodup_tid
    · exact hg.nodup_tid q hq

theorem Grown.sampled_le (hg : h.Grown S) {prev : ProcessSample} (hprev : prev ∈ h.sampled S) :
    prev.usage.le (h.processUsed S) := by
  obtain ⟨q, hq, rfl⟩ := Option.map_eq_some_iff.mp hprev
  exact hg.process q (List.mem_of_find?_eq_some hq)

theorem Grown.listed_le (hg : h.Grown S) {tid : ℤ} {old : ThreadSample}
    (hold : old ∈ h.listed S tid) : old.usage.le (h.threadUsed S old.thread) := by
  obtain ⟨q, hq, hfind⟩ := Option.bind_eq_some_iff.mp hold
  obtain ⟨task, htask, rfl⟩ := Setting.exists_task (Core.Keyed.mem_of_find hfind).1
  exact hg.threads q (List.mem_of_find?_eq_some hq) task htask

/-- What is charged to a thread is what it used in the interval if it goes on. -/
theorem Grown.goesOn_iff (hg : h.Grown S) (hr : h.Follows S r)
    (hmem : curr ∈ S.sampleThreads r.tasks) :
    curr.GoesOn (h.threadUsed S curr.thread) (h.listed S curr.tid) ↔
      (((h.listed S curr.tid).map ThreadSample.usage).getD ⟨0, 0⟩).Continues
        (h.threadUsed S curr.thread) curr.usage := by
  have hcurr := follows_thread hr hmem
  cases hold : h.listed S curr.tid with
  | none =>
      simp only [ThreadSample.GoesOn, Usage.Continues, Option.map_none, Option.getD_none,
        Nat.zero_min, Usage.ext_iff, eq_comm]
  | some old =>
      simp only [ThreadSample.GoesOn, Option.map_some, Option.getD_some]
      split
      next hsame =>
        exact (Usage.continues_iff (hsame ▸ hg.listed_le hold) hcurr).symm
      next => exact Iff.rfl

end History

namespace SampleState

variable (S : Setting)

/-- The sum of a delta over the rows of a thread. -/
def paid (s : SampleState) (i : ℕ) (delta : UtilizationRow → ℕ) : ℕ :=
  ((s.utilization.filter fun row => row.thread = some i).map delta).sum

/-- Every row is exact, and those of a thread sum up to no more than the difference of its last
counter and the one at the start. -/
structure Accounts (s : SampleState) : Prop where
  exact : ∀ row ∈ s.utilization, row.Exact
  user : ∀ i, s.paid i UtilizationRow.deltaUserNs + (s.history.threadStarted S i).user ≤
    (s.history.threadUsed S i).user
  sys : ∀ i, s.paid i UtilizationRow.deltaSysNs + (s.history.threadStarted S i).sys ≤
    (s.history.threadUsed S i).sys

/-- What the collector has is what the rounds so far say. -/
structure Tracks (s : SampleState) : Prop where
  lastWall : s.lastWall = s.history.last.now
  lastProcess : s.lastProcess = s.history.sampled S
  listed : ∀ tid, Core.Keyed.find ThreadSample.tid s.lastThreads.reverse tid =
    s.history.listed S tid
  grown : s.history.Grown S

variable {S} {s t : SampleState} {r : Round} {thread : ThreadSample} {i : ℕ}

theorem tracks_new (start : Reading) : (new start).Tracks S where
  lastWall := rfl
  lastProcess := rfl
  listed _ := rfl
  grown := ⟨fun _ hr => absurd hr List.not_mem_nil, fun _ hr => absurd hr List.not_mem_nil,
    fun _ hr => absurd hr List.not_mem_nil⟩

theorem Tracks.round (h : s.Tracks S) (hr : s.history.Follows S r) : (s.round S r).Tracks S where
  lastWall := rfl
  lastProcess := by
    change (if r.processOk then some (S.sampleProcess r.stat) else s.lastProcess) =
      ((r :: s.history.rounds).find? Round.processOk).map fun r => S.sampleProcess r.stat
    cases hok : r.processOk with
    | true => rw [List.find?_cons_of_pos hok]; rfl
    | false =>
        rw [List.find?_cons_of_neg (by simp [hok])]
        exact h.lastProcess
  listed tid := by
    change Core.Keyed.find ThreadSample.tid
        (if r.threadsOk then S.sampleThreads r.tasks else s.lastThreads).reverse tid =
      ((r :: s.history.rounds).find? Round.threadsOk).bind fun r =>
        Core.Keyed.find ThreadSample.tid (S.sampleThreads r.tasks) tid
    cases hok : r.threadsOk with
    | true =>
        rw [List.find?_cons_of_pos hok]
        have hnodup := Setting.sampleThreads_nodup_tid (S := S) hr.nodup_tid
        exact (Core.Keyed.find_perm hnodup (List.reverse_perm _).symm).symm
    | false =>
        rw [List.find?_cons_of_neg (by simp [hok])]
        exact h.listed tid
  grown := h.grown.round hr

theorem processRows_exact (h : s.Tracks S) (hr : s.history.Follows S r) :
    (∀ row ∈ s.processRows S r, row.Exact) ↔
      (s.history.last.now < r.now → ∀ prev ∈ s.history.sampled S,
        prev.usage = s.history.processUsed S) := by
  have hgrown (prev : ProcessSample) (hprev : prev ∈ s.history.sampled S) :=
    h.grown.sampled_le hprev
  unfold processRows
  rw [h.lastWall, h.lastProcess]
  cases hsampled : s.history.sampled S with
  | none => simp
  | some prev =>
      dsimp only
      split
      next hwall =>
        rw [List.forall_mem_singleton, forall_prop_of_true (Nat.lt_of_sub_pos hwall)]
        have hbase := hgrown prev hsampled
        constructor
        · rintro ⟨-, hexact⟩ prev' hprev
          obtain rfl := Option.some.inj hprev
          exact (Usage.continues_iff hbase hr.process).mp ((Usage.since_iff hr.process).mp hexact)
        · intro hall
          exact ⟨rfl, (Usage.since_iff hr.process).mpr
            ((Usage.continues_iff hbase hr.process).mpr (hall prev rfl))⟩
      next hwall =>
        exact iff_of_true (fun _ hrow => absurd hrow List.not_mem_nil) fun hlt => by omega

theorem threadRows_exact (h : s.Tracks S) (hr : s.history.Follows S r) :
    (∀ row ∈ s.threadRows S r, row.Exact) ↔
      (s.history.last.now < r.now → ∀ curr ∈ S.sampleThreads r.tasks,
        curr.GoesOn (s.history.threadUsed S curr.thread) (s.history.listed S curr.tid)) := by
  unfold threadRows
  rw [h.lastWall]
  split
  next hwall =>
    rw [List.forall_mem_map, forall_prop_of_true (Nat.lt_of_sub_pos hwall)]
    refine forall₂_congr fun curr hmem => ?_
    rw [h.grown.goesOn_iff hr hmem, ← Usage.since_iff (History.follows_thread hr hmem), ← h.listed,
      UtilizationRow.Exact]
    change r.now - s.lastWall = r.now - s.history.last.now ∧ _ ↔ _
    rw [h.lastWall]
    exact and_iff_right rfl
  next hwall =>
    exact iff_of_true (fun _ hrow => absurd hrow List.not_mem_nil) fun hlt => by omega

/-- After a round, all rows are exact if they were before and the round is covered. -/
theorem round_exact (h : s.Tracks S) (hr : s.history.Follows S r) :
    (∀ row ∈ (s.round S r).utilization, row.Exact) ↔
      (∀ row ∈ s.utilization, row.Exact) ∧ s.history.Covered S r := by
  have hrows : (∀ row ∈ (s.round S r).utilization, row.Exact) ↔
      (∀ row ∈ s.utilization, row.Exact) ∧
        (r.processOk = true → ∀ row ∈ s.processRows S r, row.Exact) ∧
        (r.threadsOk = true → ∀ row ∈ s.threadRows S r, row.Exact) := by
    simp only [round, List.mem_append, or_imp, forall_and]
    cases r.processOk <;> cases r.threadsOk <;> simp
  rw [hrows, processRows_exact h hr, threadRows_exact h hr]
  exact and_congr_right fun _ =>
    ⟨fun ⟨hp, ht⟩ => ⟨fun hw ho => hp ho hw, fun hw ho => ht ho hw⟩,
      fun ⟨hp, ht⟩ => ⟨fun ho hw => hp hw ho, fun ho hw => ht hw ho⟩⟩

section Totals

/-- The rows that a round leaves for one thread: one if it is sampled, else none. -/
theorem threadRows_of (hr : s.history.Follows S r) (i : ℕ) :
    ((s.threadRows S r).filter fun row => row.thread = some i) = [] ∨
      ∃ thread ∈ S.sampleThreads r.tasks, thread.thread = i ∧
        ((s.threadRows S r).filter fun row => row.thread = some i) = [s.threadRow S r thread] := by
  unfold threadRows
  split
  case isFalse => exact .inl rfl
  rw [List.filter_map]
  have hsame : ((fun row : UtilizationRow => decide (row.thread = some i)) ∘ s.threadRow S r) =
      fun thread => decide (thread.thread = i) := by
    funext thread
    exact decide_eq_decide.mpr Option.some_inj
  rw [hsame]
  by_cases hmem : ∃ thread ∈ S.sampleThreads r.tasks, thread.thread = i
  · obtain ⟨thread, hthread, rfl⟩ := hmem
    refine .inr ⟨thread, hthread, rfl, ?_⟩
    rw [Core.Keyed.filter_of_mem (Setting.sampleThreads_nodup hr.nodup) hthread]
    rfl
  · apply Or.inl
    rw [List.filter_eq_nil_iff.mpr fun thread hthread heq =>
      hmem ⟨thread, hthread, of_decide_eq_true heq⟩]
    rfl

theorem paid_round (delta : UtilizationRow → ℕ) : (s.round S r).paid i delta = s.paid i delta +
    if r.threadsOk then
      (((s.threadRows S r).filter fun row => row.thread = some i).map delta).sum
    else 0 := by
  have hprocess : ((s.processRows S r).filter fun row => row.thread = some i) = [] := by
    unfold processRows
    cases s.lastProcess with
    | none => rfl
    | some prev => dsimp only; split <;> simp
  unfold paid round
  cases r.processOk <;> cases r.threadsOk <;>
    simp [List.filter_append, hprocess]

/-- In a round whose rows are exact, a thread is charged no more than its counters grow. -/
theorem paid_le (hr : s.history.Follows S r) (hexact : ∀ row ∈ s.threadRows S r, row.Exact)
    (i : ℕ) :
    (((s.threadRows S r).filter fun row => row.thread = some i).map
        UtilizationRow.deltaUserNs).sum + (s.history.threadUsed S i).user ≤
      ((s.round S r).history.threadUsed S i).user ∧
    (((s.threadRows S r).filter fun row => row.thread = some i).map
        UtilizationRow.deltaSysNs).sum + (s.history.threadUsed S i).sys ≤
      ((s.round S r).history.threadUsed S i).sys := by
  change _ ≤ (History.threadUsed S { s.history with rounds := r :: s.history.rounds } i).user ∧
    _ ≤ (History.threadUsed S { s.history with rounds := r :: s.history.rounds } i).sys
  obtain ⟨huser, hsys⟩ := History.threadUsed_le hr i
  rcases threadRows_of hr i with hnil | ⟨thread, hmem, rfl, hone⟩
  · rw [hnil]
    simp only [List.map_nil, List.sum_nil, Nat.zero_add]
    exact ⟨huser, hsys⟩
  · have hrow : s.threadRow S r thread ∈ s.threadRows S r :=
      List.mem_of_mem_filter (hone ▸ List.mem_singleton_self _)
    obtain ⟨-, hu, hs⟩ := hexact _ hrow
    rw [History.threadUsed_sampled hr hmem] at huser hsys ⊢
    rw [hone, List.map_singleton, List.sum_singleton, List.map_singleton,
      List.sum_singleton, hu, hs]
    change thread.usage.user - (s.history.threadUsed S thread.thread).user + _ ≤ _ ∧
      thread.usage.sys - (s.history.threadUsed S thread.thread).sys + _ ≤ _
    omega

theorem Accounts.round (h : s.Accounts S) (ht : s.Tracks S) (hr : s.history.Follows S r)
    (hcovered : s.history.Covered S r) : (s.round S r).Accounts S := by
  have hexact := (round_exact ht hr).mpr ⟨h.exact, hcovered⟩
  have hpaid (i : ℕ) (hok : r.threadsOk = true) := paid_le hr
    ((threadRows_exact ht hr).mpr fun hwall => hcovered.threads hwall hok) i
  have hused : ∀ i, (s.history.threadUsed S i).le ((s.round S r).history.threadUsed S i) :=
    History.threadUsed_le hr
  refine ⟨hexact, fun i => ?_, fun i => ?_⟩
  · have hbefore := h.user i
    have hle := (hused i).1
    change _ + (s.history.threadStarted S i).user ≤ _
    rw [paid_round]
    split
    next hok =>
      have hrow := (hpaid i hok).1
      omega
    · omega
  · have hbefore := h.sys i
    have hle := (hused i).2
    change _ + (s.history.threadStarted S i).sys ≤ _
    rw [paid_round]
    split
    next hok =>
      have hrow := (hpaid i hok).2
      omega
    · omega

end Totals

theorem follows_of_step (h : s.step S r = some t) :
    s.history.Follows S r ∧ s.round S r = t := by
  unfold step at h
  split at h
  next hfollows => exact ⟨hfollows, Option.some.inj h⟩
  · exact (nomatch h)

theorem accounts_new (start : Reading) : (new start).Accounts S :=
  ⟨fun _ hrow => absurd hrow List.not_mem_nil, fun _ => (Nat.zero_add _).le,
    fun _ => (Nat.zero_add _).le⟩

/-- The rows of a run account for the CPU time exactly when every round of the run is covered. -/
theorem accounts_iff {start : Reading} {rounds : List Round}
    (hrun : Core.exec (step S) (new start) rounds = some s) :
    s.Accounts S ↔
      Core.Meets (step S) (fun s r => s.history.Covered S r) (new start) rounds := by
  have htracks (s : SampleState) (r : Round) (t : SampleState) (h : s.Tracks S)
      (hstep : s.step S r = some t) : t.Tracks S := by
    obtain ⟨hfollows, rfl⟩ := follows_of_step hstep
    exact h.round hfollows
  have hround (s : SampleState) (r : Round) (t : SampleState) (h : s.Tracks S)
      (hstep : s.step S r = some t) : (∀ row ∈ t.utilization, row.Exact) ↔
        (∀ row ∈ s.utilization, row.Exact) ∧ s.history.Covered S r := by
    obtain ⟨hfollows, rfl⟩ := follows_of_step hstep
    exact round_exact h hfollows
  constructor
  · intro h
    exact ((Core.exec_meets_iff htracks hround (tracks_new start) hrun).mp h.exact).2
  · intro hmeets
    have hkeep (s : SampleState) (r : Round) (t : SampleState) (h : s.Tracks S ∧ s.Accounts S)
        (hcovered : s.history.Covered S r) (hstep : s.step S r = some t) :
        t.Tracks S ∧ t.Accounts S := by
      obtain ⟨hfollows, rfl⟩ := follows_of_step hstep
      exact ⟨h.1.round hfollows, h.2.round h.1 hfollows hcovered⟩
    exact (Core.exec_invariant hkeep ⟨tracks_new start, accounts_new start⟩ hmeets hrun).2

/-- A process with one thread; its times in ticks. -/
def sampled (now utime : ℕ) (processOk threadsOk : Bool) : Round where
  now := now
  ts := now
  stat := ⟨utime, 0, 4096, 1, 0, 0⟩
  tasks := [⟨0, 100, "python", "R", none, utime, 0⟩]
  processOk := processOk
  threadsOk := threadsOk

def setting : Setting := ⟨100, 8⟩

/-- The collector starts when the only thread has used some ticks. -/
def started (utime : ℕ) : SampleState :=
  new ⟨0, ⟨utime, 0, 4096, 1, 0, 0⟩, [⟨0, 100, "python", "R", none, utime, 0⟩]⟩

/-- A thread that has used nothing when the collector starts, and nothing in the round in which its
sample fails. -/
theorem accounts_from_zero :
    ∃ s, Core.exec (step setting) (started 0)
        [sampled 1 0 true true, sampled 500 0 true false, sampled 1000 50 true true] = some s ∧
      s.utilization.length = 4 ∧ s.Accounts setting := by
  have hrun : Core.exec (step setting)
      (new ⟨0, ⟨0, 0, 4096, 1, 0, 0⟩, [⟨0, 100, "python", "R", none, 0, 0⟩]⟩)
      [sampled 1 0 true true, sampled 500 0 true false, sampled 1000 50 true true] = some _ := rfl
  exact ⟨_, hrun, by decide, (accounts_iff hrun).mpr (by decide)⟩

/-- The first row of a thread that had used 5 s before the start charges all of them to an interval
of a millisecond; and a process row after a failed sample covers more than its interval. -/
theorem first_and_late_rows :
    (∃ s, Core.exec (step setting) (started 500) [sampled 1000000 500 true true] = some s ∧
      s.paid 0 UtilizationRow.deltaUserNs = 5000000000 ∧
      (s.history.threadUsed setting 0).user - (s.history.threadStarted setting 0).user = 0 ∧
      ¬ s.Accounts setting) ∧
    (∃ s, Core.exec (step setting) (started 500)
        [sampled 1 500 true false, sampled 1000 600 false false,
          sampled 2000 600 true false] = some s ∧
      (∃ row ∈ s.utilization, row.scope = "process" ∧ row.wallNs = 1000 ∧
        row.deltaUserNs = 1000000000 ∧ row.used.user = 0) ∧ ¬ s.Accounts setting) := by
  refine ⟨⟨_, rfl, by decide, by decide, fun h => ?_⟩, _, rfl,
    ⟨_, List.mem_singleton_self _, rfl, by decide⟩, fun h => ?_⟩
  · exact absurd (h.user 0) (by decide)
  · exact absurd (h.exact _ (List.mem_singleton_self _)).2.1 (by decide)

end SampleState

end Probing.Collector.Cpu
