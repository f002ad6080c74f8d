import Probing.Profiling.TorchRows

/-!
# What a probe keeps

Between two hooks the probe holds the spans of its entries and of the step, its rows are logged,
and a shadow step, a step of discovery and a probe that is off have no entry.
-/

namespace Probing.Profiling.TorchProbe

open Probing.Core
open Probing.Tracing (Phase)

variable {M : Type}

def Entry.own (entry : Entry M) : Option ℕ := entry.spanCm.bind Handle.own

namespace Probe

/-- The spans that the probe has to exit. -/
def held (p : Probe M) : List ℕ :=
  p.openSpans.filterMap Entry.own ++ (p.trainStepCm.bind Handle.own).toList

variable [DecidableEq M] {p q : Probe M} {mod : M} {stage : Stage} {held : List ℕ}
  {others : List Handle}

/-- What holds between two hooks. -/
structure Inv (p : Probe M) (others : List Handle) : Prop where
  tracks : Tracks p.thread p.entered p.steps p.held others
  logged : p.Logged
  shadow : p.shadowStep = true → p.openSpans = [] ∧ p.pending = []
  idle : p.enabled = false ∨ p.finalized = false →
    p.openSpans = [] ∧ p.pending = [] ∧ p.trainStepCm = none

/-- The plan, the registry and the place in the step are no part of the rows. -/
theorem Logged.same (h : p.Logged)
    (hq : q = { p with
      traceSpans := q.traceSpans
      ownsModule := q.ownsModule
      ownsOptimizer := q.ownsOptimizer
      period := q.period
      layers := q.layers
      finalized := q.finalized
      sampledStep := q.sampledStep
      plannedCycle := q.plannedCycle
      stepCycle := q.stepCycle
      shadowStep := q.shadowStep
      offset := q.offset
      current := q.current
      trainStepCm := q.trainStepCm
      thread := q.thread
      entered := q.entered }) : q.Logged := by
  rw [hq]
  exact ⟨h.keys, h.events, h.cpuStart, h.started, h.entries, h.step, h.pending, h.saved, h.numbers,
    h.bound, h.pres, h.bound_pre, h.probed⟩

theorem Inv.same (h : p.Inv others)
    (hq : q = { p with
      traceSpans := q.traceSpans
      ownsModule := q.ownsModule
      ownsOptimizer := q.ownsOptimizer
      period := q.period
      layers := q.layers
      sampledStep := q.sampledStep
      plannedCycle := q.plannedCycle
      offset := q.offset
      current := q.current }) : q.Inv others := by
  have hlogged : q.Logged := h.logged.same (by rw [hq])
  rw [hq] at hlogged ⊢
  exact ⟨h.tracks, hlogged, h.shadow, h.idle⟩

theorem Inv.plan (h : p.Inv others) : p.ensureStepPlan.Inv others := by
  rw [ensureStepPlan]
  split
  · exact h
  · exact h.same rfl

theorem Inv.processHook (h : p.Inv others) (post : Bool) :
    (p.processHook post stage mod).Inv others := by
  rw [Probe.processHook]
  split
  · exact h
  · exact h.same rfl

omit [DecidableEq M] in
theorem tracks_beginSpan (h : Tracks p.thread p.entered p.steps held others) (mod : M)
    (stage : Stage) : Tracks (p.beginSpan mod stage).2.thread (p.beginSpan mod stage).2.entered
      p.steps (((p.beginSpan mod stage).1.bind Handle.own).toList ++ held) others := by
  rw [beginSpan]
  split
  · exact h.enter stage.phase
  · exact h

/-- The row of a `pre` hook. -/
def preRow (p : Probe M) (mod : M) (stage : Stage) : Row M :=
  ⟨false, mod, stage, (p.clock p.rows).allocated, (p.clock p.rows).maxAllocated, 0, 0, none,
    p.steps, p.rows, none⟩

def newEntry (p : Probe M) (mod : M) (stage : Stage) (spanCm : Option Handle) : Entry M :=
  ⟨spanCm, mod, stage, (p.clock p.rows).allocated, (p.clock p.rows).maxAllocated, p.rows⟩

theorem logPre_eq (p : Probe M) (mod : M) (stage : Stage) : p.logPre mod stage =
    { p.beginTiming mod stage (p.clock p.rows).time with
      thread := (p.beginSpan mod stage).2.thread
      entered := (p.beginSpan mod stage).2.entered
      openSpans := Keyed.set Entry.key p.openSpans
        (p.newEntry mod stage (p.beginSpan mod stage).1)
      pending := p.pending ++ [p.preRow mod stage]
      rows := p.rows + 1 } := by
  have hbegin : (p.beginTiming mod stage (p.clock p.rows).time).beginSpan mod stage =
      ((p.beginSpan mod stage).1, { p.beginTiming mod stage (p.clock p.rows).time with
        thread := (p.beginSpan mod stage).2.thread
        entered := (p.beginSpan mod stage).2.entered }) := by
    by_cases hemits : (p.traceSpans && !p.ownsModule mod) = true
    · rw [beginSpan, beginSpan, if_pos hemits]
      exact if_pos hemits
    · rw [beginSpan, beginSpan, if_neg hemits]
      exact if_neg hemits
  rw [logPre, hbegin]
  rfl

/-- A `pre` row is logged where no span is lost. -/
theorem Inv.logPre (h : p.Inv others) (henabled : p.enabled = true)
    (hfinalized : p.finalized = true) (hshadow : p.shadowStep = false)
    (hfree : (p.findOpen mod stage).bind Entry.own = none) :
    (p.logPre mod stage).Inv others := by
  have htracks := tracks_beginSpan h.tracks mod stage
  have heq := logPre_eq p mod stage
  generalize (p.beginSpan mod stage).1 = spanCm at htracks heq
  have hopens : (p.newEntry mod stage spanCm).Opens (p.preRow mod stage) :=
    ⟨rfl, rfl, rfl, rfl, rfl, rfl⟩
  have hlogged : (p.logPre mod stage).Logged :=
    h.logged.logPre rfl hopens rfl rfl rfl rfl (by
      rw [heq]
      rfl)
  have hrest := Keyed.filterMap_perm_erase Entry.key Entry.own p.openSpans (mod, stage)
  rw [← findOpen, hfree, Option.toList_none, List.nil_append] at hrest
  have hset : ((Keyed.set Entry.key p.openSpans (p.newEntry mod stage spanCm)).filterMap
      Entry.own).Perm ((spanCm.bind Handle.own).toList ++ p.openSpans.filterMap Entry.own) :=
    (Keyed.filterMap_perm_set Entry.own h.logged.keys _).trans (hrest.symm.append_left _)
  rw [heq] at hlogged ⊢
  refine ⟨htracks.perm ?_, hlogged, fun htrue => ?_, fun hidle => ?_⟩
  · rw [Probe.held, ← List.append_assoc]
    exact (hset.append_right _).symm
  · cases hshadow.symm.trans htrue
  · obtain hfalse | hfalse := hidle
    · cases henabled.symm.trans hfalse
    · cases hfinalized.symm.trans hfalse

/-- The row that completes an entry. -/
def postRow (p : Probe M) (mod : M) (stage : Stage) (entry : Entry M) : Row M :=
  ⟨true, mod, stage, (p.clock p.rows).allocated, (p.clock p.rows).maxAllocated,
    (p.clock p.rows).allocated - entry.allocated,
    (p.clock p.rows).maxAllocated - entry.maxAllocated,
    (p.endTiming mod stage (p.clock p.rows).time).1, p.steps, p.rows, some entry.number⟩

theorem complete_eq {entry : Entry M} (hfind : p.findOpen mod stage = some entry) :
    p.completePostStage mod stage =
      { (p.endTiming mod stage (p.clock p.rows).time).2 with
        thread := (p.exits entry.spanCm).thread
        openSpans := Keyed.erase Entry.key p.openSpans (mod, stage)
        pending := p.pending ++ [p.postRow mod stage entry]
        rows := p.rows + 1 } := by
  rw [completePostStage, hfind, Option.bind_some]
  cases entry.spanCm <;> rfl

omit [DecidableEq M] in
theorem exits_eq (spanCm : Option Handle) :
    p.exits spanCm = { p with thread := (p.exits spanCm).thread } := by
  cases spanCm <;> rfl

omit [DecidableEq M] in
theorem tracks_exits {spanCm : Option Handle}
    (h : Tracks p.thread p.entered p.steps ((spanCm.bind Handle.own).toList ++ held) others) :
    Tracks (p.exits spanCm).thread p.entered p.steps held others := by
  cases spanCm with
  | none => exact h
  | some handle => exact h.exit

/-- The entry of a stage is completed, and its span is exited. -/
theorem Inv.complete (h : p.Inv others) {entry : Entry M}
    (hfind : p.findOpen mod stage = some entry) :
    (p.completePostStage mod stage).Inv others := by
  have hmodule : (p.postRow mod stage entry).module = mod := rfl
  have hlogged : (p.completePostStage mod stage).Logged :=
    h.logged.complete hfind hmodule rfl rfl rfl rfl rfl rfl rfl (by rw [complete_eq hfind])
  have hopen : p.openSpans ≠ [] := fun hnil => by
    have hmem := (Keyed.mem_of_find hfind).1
    rw [hnil] at hmem
    exact (nomatch hmem)
  have hheld : p.held.Perm (entry.own.toList ++
      ((Keyed.erase Entry.key p.openSpans (mod, stage)).filterMap Entry.own ++
        (p.trainStepCm.bind Handle.own).toList)) := by
    rw [Probe.held, ← List.append_assoc]
    exact (Keyed.filterMap_perm_cons Entry.own (Keyed.perm_erase hfind)).append_right _
  rw [complete_eq hfind] at hlogged ⊢
  exact ⟨tracks_exits (h.tracks.perm hheld), hlogged,
    fun hshadow => (hopen (h.shadow hshadow).1).elim, fun hidle => (hopen (h.idle hidle).1).elim⟩

/-- The span of the step is entered. -/
theorem Inv.begin_train (h : p.Inv others) (henabled : p.enabled = true)
    (hfinalized : p.finalized = true) (optimizer : M) :
    (p.beginTrainStepSpan optimizer).Inv others := by
  rw [beginTrainStepSpan]
  split
  · exact h
  next hbegin =>
    have hnone : p.trainStepCm = none := by
      cases hcm : p.trainStepCm with
      | none => rfl
      | some handle => exact (hbegin (.inr (.inl (hcm ▸ rfl)))).elim
    have hheld : p.held = p.openSpans.filterMap Entry.own := by
      rw [Probe.held, hnone]
      exact List.append_nil _
    have htracks := h.tracks.enter .optimizer
    rw [hheld] at htracks
    refine ⟨htracks.perm List.perm_append_comm, h.logged.same rfl, h.shadow, fun hidle => ?_⟩
    obtain hfalse | hfalse := hidle
    · exact (nomatch henabled.symm.trans hfalse)
    · exact (nomatch hfinalized.symm.trans hfalse)

omit [DecidableEq M] in
theorem end_train_eq : p.endTrainStepSpan =
    { p with thread := (p.exits p.trainStepCm).thread, trainStepCm := none } := by
  rw [endTrainStepSpan, exits_eq]

/-- The span of the step is exited. -/
theorem Inv.end_train (h : p.Inv others) : (p.endTrainStepSpan).Inv others := by
  have hlogged : (p.endTrainStepSpan).Logged := h.logged.same (by rw [end_train_eq])
  rw [end_train_eq] at hlogged ⊢
  refine ⟨?_, hlogged, h.shadow, fun hidle => ⟨(h.idle hidle).1, (h.idle hidle).2.1, rfl⟩⟩
  rw [Probe.held, Option.bind_none, Option.toList_none, List.append_nil]
  exact tracks_exits (h.tracks.perm List.perm_append_comm)

omit [DecidableEq M] in
/-- The entries of a list are exited. -/
theorem exits_fold (l : List (Entry M))
    (h : Tracks p.thread p.entered p.steps (l.filterMap Entry.own ++ held) others) :
    ∃ thread, Tracks thread p.entered p.steps held others ∧
      l.foldl (fun q entry => q.exits entry.spanCm) p = { p with thread := thread } := by
  induction l generalizing p with
  | nil => exact ⟨_, h, rfl⟩
  | cons entry l ih =>
      have hown : Tracks p.thread p.entered p.steps
          (entry.own.toList ++ (l.filterMap Entry.own ++ held)) others := by
        rw [← List.append_assoc]
        exact h.perm ((Keyed.filterMap_perm_cons Entry.own (List.Perm.refl _)).append_right _)
      rw [List.foldl_cons, exits_eq]
      exact ih (p := { p with thread := (p.exits entry.spanCm).thread }) (tracks_exits hown)

omit [DecidableEq M] in
theorem cleanup_cases (h : Tracks p.thread p.entered p.steps p.held others)
    (hcm : p.trainStepCm = none) : ∃ thread, Tracks thread p.entered p.steps [] others ∧
      p.cleanupStepResources = { p with
        thread := thread
        openSpans := []
        events := fun _ => none
        cpuStart := fun _ => none } := by
  rw [Probe.held, hcm] at h
  obtain ⟨thread, htracks, heq⟩ := exits_fold p.openSpans h
  refine ⟨thread, htracks, ?_⟩
  rw [cleanupStepResources, heq]

/-- Without an entry no timer runs. -/
theorem Inv.no_timers (h : p.Inv others) (hopen : p.openSpans = []) (k : M × Stage) :
    p.events k = none ∧ p.cpuStart k = none := by
  have hstarted := h.logged.started k
  rw [hopen, Keyed.find_nil, Option.map_none] at hstarted
  exact Option.or_eq_none_iff.mp hstarted

/-- Between two steps no entry and no row is left. -/
structure Settled (p : Probe M) (others : List Handle) : Prop extends p.Inv others where
  no_open : p.openSpans = []
  no_pending : p.pending = []

/-- A step is over: its rows are saved, if the step is one of those that are probed, or dropped. -/
theorem Logged.settle (h : p.Logged) {kept : List (Row M)} {probed : Bool}
    (hkept : kept = p.saved ∨ kept = p.saved ++ p.pending ∧ probed = true)
    (htracks : Tracks q.thread p.entered p.steps [] others) (hopen : q.openSpans = [])
    (hpending : q.pending = []) (hcm : q.trainStepCm = none)
    (hevents : ∀ k, q.events k = none) (hstart : ∀ k, q.cpuStart k = none)
    (hq : q = { p with
      openSpans := q.openSpans
      pending := q.pending
      trainStepCm := q.trainStepCm
      events := q.events
      cpuStart := q.cpuStart
      thread := q.thread
      saved := kept
      steps := p.steps + 1
      probed := Function.update p.probed p.steps probed
      finalized := q.finalized
      plannedCycle := q.plannedCycle
      stepCycle := q.stepCycle
      shadowStep := q.shadowStep
      offset := q.offset
      current := q.current }) : q.Settled others := by
  have hsub : kept.Sublist (p.saved ++ p.pending) := by
    obtain rfl | ⟨rfl, -⟩ := hkept
    · exact List.sublist_append_left _ _
    · exact List.Sublist.refl _
  have hpaired : Paired p.clock kept := by
    obtain rfl | ⟨rfl, -⟩ := hkept
    · exact h.saved
    · exact h.saved.append h.pending
  have hprobed : ∀ row ∈ kept, row.step < p.steps + 1 ∧
      Function.update p.probed p.steps probed row.step = true := fun row hrow => by
    have hold (hsaved : row ∈ p.saved) : row.step < p.steps + 1 ∧
        Function.update p.probed p.steps probed row.step = true := by
      obtain ⟨hlt, htrue⟩ := h.probed row hsaved
      rw [Function.update_of_ne (Nat.ne_of_lt hlt)]
      exact ⟨Nat.lt_succ_of_lt hlt, htrue⟩
    obtain rfl | ⟨rfl, rfl⟩ := hkept
    · exact hold hrow
    · obtain hsaved | hnew := List.mem_append.mp hrow
      · exact hold hsaved
      · rw [h.step row hnew, Function.update_self]
        exact ⟨Nat.lt_succ_self _, rfl⟩
  have hlogged : q.Logged := by
    rw [hopen, hpending] at hq
    rw [hq] at hevents hstart ⊢
    refine
      { keys := List.nodup_nil
        events := fun _ => hevents
        cpuStart := fun _ => hstart
        started := fun k => ?_
        entries := fun _ hmem => (nomatch hmem)
        step := fun _ hmem => (nomatch hmem)
        pending := .nil
        saved := hpaired
        numbers := ?_
        bound := fun row hrow => h.bound row (hsub.mem ?_)
        pres := ?_
        bound_pre := fun n hn => h.bound_pre n ?_
        probed := hprobed }
    · exact (congrArg₂ Option.or (hevents k) (hstart k)).trans rfl
    · change ((kept ++ []).map Row.number).Pairwise (· < ·)
      rw [List.append_nil]
      exact h.numbers.sublist (hsub.map _)
    · change row ∈ kept ++ [] at hrow
      rwa [List.append_nil] at hrow
    · change ((kept ++ []).filterMap Row.pre ++ []).Nodup
      rw [List.append_nil, List.append_nil]
      exact h.pres.sublist ((hsub.filterMap _).trans (List.sublist_append_left _ _))
    · change n ∈ (kept ++ []).filterMap Row.pre ++ [] at hn
      rw [List.append_nil, List.append_nil] at hn
      exact List.mem_append_left _ ((hsub.filterMap _).mem hn)
  refine ⟨⟨?_, hlogged, fun _ => ⟨hopen, hpending⟩, fun _ => ⟨hopen, hpending, hcm⟩⟩, hopen,
    hpending⟩
  have hheld : q.held = [] := by
    rw [Probe.held, hopen, hcm]
    rfl
  rw [hheld]
  rw [hq]
  exact htracks.next

end Probe

end Probing.Profiling.TorchProbe
