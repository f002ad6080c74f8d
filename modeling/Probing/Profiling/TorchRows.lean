import Probing.Profiling.TorchSpans

/-!
# The rows of a probe

A `post` row closes the entry of its stage, and is measured from the `pre` row that opened it.
-/

namespace Probing.Profiling.TorchProbe

open Probing.Core

variable {M : Type}

/-- The `pre` row that a `post` row is measured from. -/
structure Row.Pairs (clock : ℕ → Reading) (opened row : Row M) : Prop where
  post : opened.post = false
  module : row.module = opened.module
  stage : row.stage = opened.stage
  step : row.step = opened.step
  pre : row.pre = some opened.number
  allocated : row.allocatedDelta = row.allocated - opened.allocated
  maxAllocated : row.maxAllocatedDelta = row.maxAllocated - opened.maxAllocated
  duration : row.duration = some ((clock row.number).time - (clock opened.number).time)

/-- Every `post` row has its `pre` row before it. -/
def Paired (clock : ℕ → Reading) (rows : List (Row M)) : Prop :=
  ∀ before row after, rows = before ++ row :: after → row.post = true →
    ∃ pre ∈ before, pre.Pairs clock row

variable {clock : ℕ → Reading} {rows others : List (Row M)} {row : Row M}

theorem Paired.nil : Paired clock ([] : List (Row M)) := by
  intro before row after hall
  exact (by simp at hall)

theorem Paired.append (h : Paired clock rows) (hothers : Paired clock others) :
    Paired clock (rows ++ others) := by
  intro before row after hall hpost
  obtain ⟨rest, rfl, hrest⟩ | ⟨rest, rfl, hrest⟩ := List.append_eq_append_iff.mp hall
  · obtain ⟨pre, hpre, hpairs⟩ := hothers rest row after hrest hpost
    exact ⟨pre, List.mem_append_right _ hpre, hpairs⟩
  · cases rest with
    | nil =>
        obtain ⟨pre, hpre, hpairs⟩ := hothers [] row after hrest.symm hpost
        exact (nomatch hpre)
    | cons first rest =>
        obtain ⟨rfl, rfl⟩ := List.cons.inj hrest
        exact h before row rest rfl hpost

theorem Paired.concat (h : Paired clock rows)
    (hrow : row.post = true → ∃ pre ∈ rows, pre.Pairs clock row) :
    Paired clock (rows ++ [row]) := by
  intro before last after hall hpost
  obtain ⟨rest, rfl, hrest⟩ | ⟨rest, rfl, hrest⟩ := List.append_eq_append_iff.mp hall
  · cases rest with
    | nil =>
        obtain ⟨rfl, -⟩ := List.cons.inj hrest
        rw [List.append_nil]
        exact hrow hpost
    | cons first rest => exact (by simp at hrest)
  · cases rest with
    | nil =>
        obtain ⟨rfl, -⟩ := List.cons.inj hrest
        rw [List.append_nil] at hrow
        exact hrow hpost
    | cons first rest =>
        obtain ⟨rfl, -⟩ := List.cons.inj hrest
        exact h before last rest rfl hpost

/-- The row of an entry. -/
structure Entry.Opens (entry : Entry M) (pre : Row M) : Prop where
  post : pre.post = false
  module : entry.module = pre.module
  stage : entry.stage = pre.stage
  number : entry.number = pre.number
  allocated : entry.allocated = pre.allocated
  maxAllocated : entry.maxAllocated = pre.maxAllocated

namespace Probe

variable [DecidableEq M]

/-- The rows so far: the entries that are open stand for `pre` rows of this step which no row has
closed, and their timers were begun with them. -/
structure Logged (p : Probe M) : Prop where
  keys : (p.openSpans.map Entry.key).Nodup
  events : p.useGpuEvents = false → ∀ k, p.events k = none
  cpuStart : p.useGpuEvents = true → ∀ k, p.cpuStart k = none
  started : ∀ k, (p.events k).or (p.cpuStart k) =
    (Keyed.find Entry.key p.openSpans k).map fun e => (p.clock e.number).time
  entries : ∀ e ∈ p.openSpans, ∃ pre ∈ p.pending, e.Opens pre
  step : ∀ row ∈ p.pending, row.step = p.steps
  pending : Paired p.clock p.pending
  saved : Paired p.clock p.saved
  numbers : ((p.saved ++ p.pending).map Row.number).Pairwise (· < ·)
  bound : ∀ row ∈ p.saved ++ p.pending, row.number < p.rows
  pres : ((p.saved ++ p.pending).filterMap Row.pre ++ p.openSpans.map Entry.number).Nodup
  bound_pre : ∀ n ∈ (p.saved ++ p.pending).filterMap Row.pre ++ p.openSpans.map Entry.number,
    n < p.rows
  probed : ∀ row ∈ p.saved, row.step < p.steps ∧ p.probed row.step = true

variable {p q : Probe M} {mod : M} {stage : Stage}

/-- The next row has the next number. -/
theorem Logged.numbered (h : p.Logged) {row : Row M} (hrow : row.number = p.rows) :
    ((p.saved ++ (p.pending ++ [row])).map Row.number).Pairwise (· < ·) ∧
      ∀ r ∈ p.saved ++ (p.pending ++ [row]), r.number < p.rows + 1 := by
  rw [← List.append_assoc, List.map_append]
  refine ⟨List.pairwise_append.mpr ⟨h.numbers, List.pairwise_singleton _ _, fun n hn m hm => ?_⟩,
    fun r hr => ?_⟩
  · obtain ⟨r, hr, rfl⟩ := List.mem_map.mp hn
    obtain rfl : m = row.number := by simpa using hm
    exact hrow ▸ h.bound r hr
  · obtain hold | hnew := List.mem_append.mp hr
    · exact Nat.lt_succ_of_lt (h.bound r hold)
    · obtain rfl := List.mem_singleton.mp hnew
      exact Nat.lt_succ_of_le (Nat.le_of_eq hrow)

/-- A `pre` row is logged. -/
theorem Logged.logPre (h : p.Logged) {entry : Entry M} {row : Row M}
    (hkey : entry.key = (mod, stage)) (hopens : entry.Opens row) (hrow : row.number = p.rows)
    (hpost : row.post = false) (hstep : row.step = p.steps) (hpre : row.pre = none)
    (hq : q = { p.beginTiming mod stage (p.clock p.rows).time with
      thread := q.thread
      entered := q.entered
      openSpans := Keyed.set Entry.key p.openSpans entry
      pending := p.pending ++ [row]
      rows := p.rows + 1 }) : q.Logged := by
  have hnumber : entry.number = p.rows := hopens.number.trans hrow
  have hperm : (Keyed.set Entry.key p.openSpans entry).Perm
      (entry :: Keyed.erase Entry.key p.openSpans entry.key) := Keyed.perm_set h.keys
  have hposts : (p.saved ++ (p.pending ++ [row])).filterMap Row.pre =
      (p.saved ++ p.pending).filterMap Row.pre := by
    rw [← List.append_assoc, List.filterMap_append, List.filterMap_cons_none hpre,
      List.filterMap_nil, List.append_nil]
  have hpres : ((p.saved ++ p.pending).filterMap Row.pre ++
      (Keyed.set Entry.key p.openSpans entry).map Entry.number).Perm
        (p.rows :: ((p.saved ++ p.pending).filterMap Row.pre ++
          (Keyed.erase Entry.key p.openSpans entry.key).map Entry.number)) := by
    refine ((hperm.map Entry.number).append_left _).trans ?_
    rw [List.map_cons, hnumber]
    exact List.perm_middle
  have hsub : ((p.saved ++ p.pending).filterMap Row.pre ++
      (Keyed.erase Entry.key p.openSpans entry.key).map Entry.number).Sublist
        ((p.saved ++ p.pending).filterMap Row.pre ++ p.openSpans.map Entry.number) :=
    (List.Sublist.refl _).append (Keyed.erase_sublist.map _)
  rw [hq]
  refine
    { keys := Keyed.nodup_set h.keys
      events := fun hgpu k => ?_
      cpuStart := fun hgpu k => ?_
      started := fun k => ?_
      entries := fun e he => ?_
      step := fun r hr => ?_
      pending := h.pending.concat fun htrue => (nomatch hpost.symm.trans htrue)
      saved := h.saved
      numbers := (h.numbered hrow).1
      bound := (h.numbered hrow).2
      pres := ?_
      bound_pre := fun n hn => ?_
      probed := h.probed }
  · have hgpu : p.useGpuEvents = false := hgpu
    change (if p.useGpuEvents then _ else p.events) k = none
    rw [hgpu, if_neg Bool.false_ne_true]
    exact h.events hgpu k
  · have hgpu : p.useGpuEvents = true := hgpu
    change (if p.useGpuEvents then p.cpuStart else _) k = none
    rw [if_pos hgpu]
    exact h.cpuStart hgpu k
  · change ((if p.useGpuEvents then Function.update p.events (mod, stage) _ else p.events) k).or
      ((if p.useGpuEvents then p.cpuStart else Function.update p.cpuStart (mod, stage) _) k) = _
    by_cases hk : k = (mod, stage)
    · subst hk
      rw [← hkey, Keyed.find_set_self h.keys, Option.map_some, hnumber, hkey]
      cases hgpu : p.useGpuEvents with
      | true =>
          rw [if_pos rfl, Function.update_self, Option.some_or]
          rfl
      | false =>
          rw [if_neg Bool.false_ne_true, if_neg Bool.false_ne_true, Function.update_self,
            h.events hgpu, Option.none_or]
          rfl
    · rw [Keyed.find_set_of_ne h.keys (hkey ▸ hk)]
      refine Eq.trans ?_ (h.started k)
      split <;> rw [Function.update_of_ne hk]
  · obtain rfl | hold := List.mem_cons.mp (hperm.mem_iff.mp he)
    · exact ⟨row, List.mem_append_right _ (List.mem_singleton_self _), hopens⟩
    · obtain ⟨opened, hopened, hfor⟩ := h.entries e (Keyed.erase_sublist.mem hold)
      exact ⟨opened, List.mem_append_left _ hopened, hfor⟩
  · obtain hold | hnew := List.mem_append.mp hr
    · exact h.step r hold
    · obtain rfl := List.mem_singleton.mp hnew
      exact hstep
  · change ((p.saved ++ (p.pending ++ [row])).filterMap Row.pre ++ _).Nodup
    rw [hposts, hpres.nodup_iff]
    refine List.nodup_cons.mpr ⟨fun hmem => ?_, h.pres.sublist hsub⟩
    exact Nat.lt_irrefl _ (h.bound_pre _ (hsub.mem hmem))
  · change n ∈ (p.saved ++ (p.pending ++ [row])).filterMap Row.pre ++ _ at hn
    rw [hposts, hpres.mem_iff] at hn
    obtain rfl | hold := List.mem_cons.mp hn
    · exact Nat.lt_succ_self _
    · exact Nat.lt_succ_of_lt (h.bound_pre n (hsub.mem hold))

/-- The entry of a stage is completed. -/
theorem Logged.complete (h : p.Logged) {entry : Entry M}
    (hentry : p.findOpen mod stage = some entry) {row : Row M}
    (hmodule : row.module = mod) (hstage : row.stage = stage) (hnumber : row.number = p.rows)
    (hstep : row.step = p.steps) (hpre : row.pre = some entry.number)
    (hallocated : row.allocatedDelta = row.allocated - entry.allocated)
    (hmax : row.maxAllocatedDelta = row.maxAllocated - entry.maxAllocated)
    (hduration : row.duration = (p.endTiming mod stage (p.clock p.rows).time).1)
    (hq : q = { (p.endTiming mod stage (p.clock p.rows).time).2 with
      thread := q.thread
      openSpans := Keyed.erase Entry.key p.openSpans (mod, stage)
      pending := p.pending ++ [row]
      rows := p.rows + 1 }) : q.Logged := by
  obtain ⟨hmem, hkey⟩ := Keyed.mem_of_find hentry
  have hperm := Keyed.perm_erase hentry
  obtain ⟨opened, hopened, hfor⟩ := h.entries entry hmem
  have hpairs : opened.Pairs p.clock row :=
    { post := hfor.post
      module := by
        rw [hmodule, ← hfor.module]
        exact (congrArg Prod.fst hkey).symm
      stage := by
        rw [hstage, ← hfor.stage]
        exact (congrArg Prod.snd hkey).symm
      step := hstep.trans (h.step opened hopened).symm
      pre := hpre.trans (congrArg some hfor.number)
      allocated := by rw [hallocated, hfor.allocated]
      maxAllocated := by rw [hmax, hfor.maxAllocated]
      duration := by
        rw [hduration, hnumber, ← hfor.number]
        change ((p.events (mod, stage)).or (p.cpuStart (mod, stage))).map _ = _
        rw [h.started, ← findOpen, hentry]
        rfl }
  have hposts : ((p.saved ++ (p.pending ++ [row])).filterMap Row.pre ++
      (Keyed.erase Entry.key p.openSpans (mod, stage)).map Entry.number).Perm
        ((p.saved ++ p.pending).filterMap Row.pre ++ p.openSpans.map Entry.number) := by
    rw [← List.append_assoc, List.filterMap_append, List.filterMap_cons_some hpre,
      List.filterMap_nil, List.append_assoc]
    exact ((hperm.map Entry.number).append_left _).symm
  rw [hq]
  refine
    { keys := Keyed.nodup_erase h.keys
      events := fun hgpu k => ?_
      cpuStart := fun hgpu k => ?_
      started := fun k => ?_
      entries := fun e he => ?_
      step := fun r hr => ?_
      pending := h.pending.concat fun _ => ⟨opened, hopened, hpairs⟩
      saved := h.saved
      numbers := (h.numbered hnumber).1
      bound := (h.numbered hnumber).2
      pres := hposts.nodup_iff.mpr h.pres
      bound_pre := fun n hn => Nat.lt_succ_of_lt (h.bound_pre n (hposts.mem_iff.mp hn))
      probed := h.probed }
  · change Function.update p.events (mod, stage) none k = none
    by_cases hk : k = (mod, stage)
    · rw [hk, Function.update_self]
    · rw [Function.update_of_ne hk, h.events hgpu]
  · change (if _ then p.cpuStart else Function.update p.cpuStart (mod, stage) none) k = none
    split
    · exact h.cpuStart hgpu k
    · by_cases hk : k = (mod, stage)
      · rw [hk, Function.update_self]
      · rw [Function.update_of_ne hk, h.cpuStart hgpu]
  · change (Function.update p.events (mod, stage) none k).or
      ((if (p.events (mod, stage)).isSome then p.cpuStart
        else Function.update p.cpuStart (mod, stage) none) k) = _
    by_cases hk : k = (mod, stage)
    · subst hk
      rw [Keyed.find_erase_self h.keys, Function.update_self, Option.none_or, Option.map_none]
      cases hgpu : p.useGpuEvents with
      | true =>
          split
          · exact h.cpuStart hgpu _
          · exact Function.update_self _ _ _
      | false => rw [h.events hgpu, if_neg (by simp), Function.update_self]
    · rw [Keyed.find_erase_of_ne hk, Function.update_of_ne hk]
      refine Eq.trans ?_ (h.started k)
      split
      · rfl
      · rw [Function.update_of_ne hk]
  · obtain ⟨opened, hopened, hfor⟩ := h.entries e (Keyed.erase_sublist.mem he)
    exact ⟨opened, List.mem_append_left _ hopened, hfor⟩
  · obtain hold | hnew := List.mem_append.mp hr
    · exact h.step r hold
    · obtain rfl := List.mem_singleton.mp hnew
      exact hstep

end Probe

end Probing.Profiling.TorchProbe
