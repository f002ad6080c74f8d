import Mathlib
import Probing.Nccl.Conservation

/-!
# The waits of a proxy step

Every state of a chain takes the time from its first report up to that of the next reported state
of the chain, in the order of the chain. The times of a chain are apart, and sum up to no more than
the time of the step, unless the middle state is first reported after both of the others: then the
first and the last state overlap.
-/

namespace Probing.Nccl

section Packing

variable {α : Type*} [DecidableEq α]

/-- Sets that are apart are together no larger than a set they lie in. -/
theorem sum_card_le {l : List (Finset α)} {u : Finset α} (hapart : l.Pairwise Disjoint)
    (hsub : ∀ s ∈ l, s ⊆ u) : (l.map Finset.card).sum ≤ u.card := by
  induction l generalizing u with
  | nil => exact Nat.zero_le _
  | cons s rest ih =>
      obtain ⟨hs, hrest⟩ := List.pairwise_cons.mp hapart
      have hsu : s ⊆ u := hsub s List.mem_cons_self
      have hle : (rest.map Finset.card).sum ≤ (u \ s).card := by
        apply ih hrest
        intro t ht x hx
        exact Finset.mem_sdiff.mpr ⟨hsub t (List.mem_cons_of_mem s ht) hx,
          Finset.disjoint_right.mp (hs t ht) hx⟩
      rw [Finset.card_sdiff_of_subset hsu] at hle
      have hcard := Finset.card_le_card hsu
      rw [List.map_cons, List.sum_cons]
      omega

end Packing

namespace ProxyStepData

/-- Where the time of a state ends. -/
def nextEntry (step : ProxyStepData) (later : List ℕ) : ℤ :=
  ((later.map step.entered).find? (· ≠ 0)).getD step.stopNs

/-- The nanoseconds that are counted as spent in a state. -/
noncomputable def counted (step : ProxyStepData) (idx : ℕ) (later : List ℕ) : Finset ℤ :=
  if step.entered idx = 0 then ∅ else Finset.Ico (step.entered idx) (step.nextEntry later)

/-- The states of a chain with what comes behind them in the chain. -/
def along {β : Type*} (f : ℕ → List ℕ → β) : List ℕ → List β
  | [] => []
  | idx :: later => f idx later :: along f later

variable {step : ProxyStepData} {idx : ℕ} {later chain : List ℕ} {t : ℤ}

theorem mem_counted : t ∈ step.counted idx later ↔
    step.entered idx ≠ 0 ∧ step.entered idx ≤ t ∧ t < step.nextEntry later := by
  unfold counted
  split
  next h => simp [h]
  next h => rw [Finset.mem_Ico, and_iff_right h]

theorem nextEntry_cons (idx : ℕ) (later : List ℕ) : step.nextEntry (idx :: later) =
    if step.entered idx = 0 then step.nextEntry later else step.entered idx := by
  unfold nextEntry
  rw [List.map_cons, List.find?_cons]
  by_cases h : step.entered idx = 0 <;> simp [h]

theorem delta_eq {start stop : ℤ} (hstart : start ≠ 0) (hstop : stop ≠ 0) :
    delta start stop = (stop - start).toNat := by
  unfold delta
  by_cases h : start = 0 ∨ stop = 0 ∨ stop < start
  · rw [if_pos h]
    omega
  · rw [if_neg h]
    omega

/-- The dwell time is the number of nanoseconds counted. -/
theorem dwell_eq_card (hstop : step.entered idx ≠ 0 → step.stopNs ≠ 0) :
    step.dwell idx later = (step.counted idx later).card := by
  unfold dwell counted
  by_cases hentered : step.entered idx = 0
  · rw [if_pos hentered, if_pos hentered, Finset.card_empty]
    rfl
  · have hnext : step.nextEntry later ≠ 0 := by
      unfold nextEntry
      cases hfind : (later.map step.entered).find? (· ≠ 0) with
      | none => exact hstop hentered
      | some t => simpa using List.find?_some hfind
    rw [if_neg hentered, if_neg hentered, Int.card_Ico]
    exact delta_eq hentered hnext

theorem sum_dwell_eq (hstop : ∀ i ∈ chain, step.entered i ≠ 0 → step.stopNs ≠ 0) :
    (along step.dwell chain).sum = (((along step.counted chain).map Finset.card).sum : ℕ) := by
  induction chain with
  | nil => rfl
  | cons idx later ih =>
      have hrest := ih fun i hi => hstop i (List.mem_cons_of_mem idx hi)
      rw [along, along, List.sum_cons, List.map_cons, List.sum_cons, hrest,
        dwell_eq_card (hstop idx List.mem_cons_self)]
      exact (Nat.cast_add _ _).symm

end ProxyStepData

/-- A call of `record_state` for a proxy step. -/
structure StateReport where
  state : Int32
  args : StateArgs
  now : ℤ

/-- A slot after some reports. -/
def ProxyStepSlot.reported (slot : ProxyStepSlot) (reports : List StateReport) : ProxyStepSlot :=
  reports.foldl (fun slot r => Pools.recordStep slot r.state r.args r.now) slot

/-- The time of the first report of the state with a given index. -/
def firstReport (reports : List StateReport) (idx : ℕ) : Option ℤ :=
  (reports.find? fun r => proxyStepStateIndex r.state = some idx).map StateReport.now

section Reports

variable {slot : ProxyStepSlot} {reports : List StateReport} {idx : ℕ} {t : ℤ}

theorem stateTs_recordStep (state : Int32) (args : StateArgs) (now : ℤ) :
    (Pools.recordStep slot state args now).step.stateTs =
      match proxyStepStateIndex state with
      | some i => if slot.step.entered i = 0 then slot.step.stateTs.set i now
          else slot.step.stateTs
      | none => slot.step.stateTs := by
  unfold Pools.recordStep
  cases proxyStepStateIndex state with
  | none => cases args <;> rfl
  | some i => by_cases h : slot.step.entered i = 0 <;> cases args <;> simp [h]

theorem length_recordStep (state : Int32) (args : StateArgs) (now : ℤ) :
    (Pools.recordStep slot state args now).step.stateTs.length = slot.step.stateTs.length := by
  rw [stateTs_recordStep]
  split
  · split
    · exact List.length_set
    · rfl
  · rfl

/-- A report fills the entry of its state, if that is still empty. -/
theorem entered_recordStep (hidx : idx < slot.step.stateTs.length) (state : Int32)
    (args : StateArgs) (now : ℤ) : (Pools.recordStep slot state args now).step.entered idx =
      if proxyStepStateIndex state = some idx ∧ slot.step.entered idx = 0 then now
      else slot.step.entered idx := by
  unfold ProxyStepData.entered
  rw [stateTs_recordStep]
  cases hstate : proxyStepStateIndex state with
  | none => rfl
  | some i =>
      change (if slot.step.entered i = 0 then _ else _ : List ℤ).getD idx 0 = _
      by_cases hi : i = idx
      · subst hi
        by_cases h : slot.step.entered i = 0
        · rw [if_pos h, List.getD_eq_getElem?_getD, List.getElem?_set_self hidx]
          exact (if_pos ⟨rfl, h⟩).symm
        · rw [if_neg h]
          exact (if_neg fun hboth => h hboth.2).symm
      · refine Eq.trans ?_ (if_neg fun hboth => hi (Option.some.inj hboth.1)).symm
        split
        · rw [List.getD_eq_getElem?_getD, List.getElem?_set_ne hi, List.getD_eq_getElem?_getD]
        · rfl

theorem exists_report (h : firstReport reports idx = some t) : ∃ r ∈ reports, r.now = t := by
  obtain ⟨r, hfind, hnow⟩ := Option.map_eq_some_iff.mp h
  exact ⟨r, List.mem_of_find?_eq_some hfind, hnow⟩

/-- After the reports, the entry of a state is the time of its first report. -/
theorem entered_reported (hidx : idx < slot.step.stateTs.length)
    (hpos : ∀ r ∈ reports, 0 < r.now) : (slot.reported reports).step.entered idx =
      if slot.step.entered idx = 0 then (firstReport reports idx).getD 0
      else slot.step.entered idx := by
  induction reports generalizing slot with
  | nil =>
      change slot.step.entered idx = if _ then 0 else _
      split
      next h => exact h
      · rfl
  | cons r rest ih =>
      have hrest := @ih (Pools.recordStep slot r.state r.args r.now)
        (by rwa [length_recordStep]) fun q hq => hpos q (List.mem_cons_of_mem r hq)
      have hnow : r.now ≠ 0 := (hpos r List.mem_cons_self).ne'
      rw [entered_recordStep hidx] at hrest
      apply hrest.trans
      unfold firstReport
      by_cases hentered : slot.step.entered idx = 0 <;>
        by_cases hstate : proxyStepStateIndex r.state = some idx <;>
        simp [hentered, hstate, hnow]

end Reports

/-- A proxy step from its start to its stop: the time goes on, and is positive. -/
structure StepLife where
  slot : ProxyStepSlot
  reports : List StateReport
  stopNs : ℤ
  fresh : slot.step.stateTs = List.replicate 6 0
  sorted : reports.Pairwise fun r q => r.now ≤ q.now
  positive : ∀ r ∈ reports, 0 < r.now
  start_le : ∀ r ∈ reports, slot.step.startNs ≤ r.now
  le_stop : ∀ r ∈ reports, r.now ≤ stopNs
  start_le_stop : slot.step.startNs ≤ stopNs

namespace StepLife

/-- The step that `stop_event` pushes. -/
def finished (L : StepLife) : ProxyStepData :=
  { (L.slot.reported L.reports).step with stopNs := L.stopNs }

/-- The times counted along a chain are apart, between the first report and the stop, and sum up to
at most the time of the step. -/
structure CountsOnce (L : StepLife) (chain : List ℕ) : Prop where
  apart : (ProxyStepData.along L.finished.counted chain).Pairwise Disjoint
  within : ∀ s ∈ ProxyStepData.along L.finished.counted chain, ∀ t ∈ s,
    (∃ r, L.reports.head? = some r ∧ r.now ≤ t) ∧ t < L.stopNs
  total : (ProxyStepData.along L.finished.dwell chain).sum ≤ L.stopNs - L.slot.step.startNs

/-- All three states are reported, and the middle one is first reported after both others. -/
def Detours (L : StepLife) (first middle last : ℕ) : Prop :=
  ∃ a b c, firstReport L.reports first = some a ∧ firstReport L.reports middle = some b ∧
    firstReport L.reports last = some c ∧ a < b ∧ c < b

variable {L : StepLife} {idx first middle last : ℕ} {chain later : List ℕ} {t : ℤ}

theorem entered_eq (hidx : idx < 6) :
    L.finished.entered idx = (firstReport L.reports idx).getD 0 := by
  have h := entered_reported (by rw [L.fresh, List.length_replicate]; exact hidx) L.positive
  have hzero : L.slot.step.entered idx = 0 := by
    unfold ProxyStepData.entered
    rw [L.fresh, List.getD_eq_getElem?_getD, List.getElem?_replicate, if_pos hidx]
    rfl
  rw [if_pos hzero] at h
  exact h

theorem firstReport_iff (hidx : idx < 6) :
    firstReport L.reports idx = some t ↔ L.finished.entered idx = t ∧ t ≠ 0 := by
  rw [entered_eq hidx]
  constructor
  · intro h
    obtain ⟨r, hr, hnow⟩ := exists_report h
    exact ⟨congrArg (Option.getD · 0) h, hnow ▸ (L.positive r hr).ne'⟩
  · rintro ⟨h, hne⟩
    cases hreport : firstReport L.reports idx with
    | none => exact absurd (h.symm.trans (congrArg (Option.getD · 0) hreport)) hne
    | some u => exact congrArg some ((congrArg (Option.getD · 0) hreport).symm.trans h)

/-- A state is entered at the time of a report. -/
theorem exists_report_of_entered (hidx : idx < 6) (h : L.finished.entered idx ≠ 0) :
    ∃ r ∈ L.reports, r.now = L.finished.entered idx :=
  exists_report ((firstReport_iff hidx).mpr ⟨rfl, h⟩)

theorem entered_le_stop (hidx : idx < 6) (h : L.finished.entered idx ≠ 0) :
    L.finished.entered idx ≤ L.stopNs := by
  obtain ⟨r, hr, hnow⟩ := exists_report_of_entered hidx h
  exact hnow ▸ L.le_stop r hr

theorem nextEntry_le_stop (hlater : ∀ i ∈ later, i < 6) :
    L.finished.nextEntry later ≤ L.stopNs := by
  induction later with
  | nil => exact le_refl L.stopNs
  | cons i rest ih =>
      rw [ProxyStepData.nextEntry_cons]
      split
      · exact ih fun j hj => hlater j (List.mem_cons_of_mem i hj)
      next h => exact entered_le_stop (hlater i List.mem_cons_self) h

/-- All three states of a chain are entered, the middle one last. -/
theorem detours_iff (hfirst : first < 6) (hmiddle : middle < 6) (hlast : last < 6) :
    L.Detours first middle last ↔ L.finished.entered first ≠ 0 ∧ L.finished.entered middle ≠ 0 ∧
      L.finished.entered last ≠ 0 ∧ L.finished.entered first < L.finished.entered middle ∧
        L.finished.entered last < L.finished.entered middle := by
  unfold Detours
  constructor
  · rintro ⟨a, b, c, ha, hb, hc, hab, hcb⟩
    obtain ⟨rfl, ha⟩ := (firstReport_iff hfirst).mp ha
    obtain ⟨rfl, hb⟩ := (firstReport_iff hmiddle).mp hb
    obtain ⟨rfl, hc⟩ := (firstReport_iff hlast).mp hc
    exact ⟨ha, hb, hc, hab, hcb⟩
  · rintro ⟨ha, hb, hc, hab, hcb⟩
    exact ⟨_, _, _, (firstReport_iff hfirst).mpr ⟨rfl, ha⟩,
      (firstReport_iff hmiddle).mpr ⟨rfl, hb⟩, (firstReport_iff hlast).mpr ⟨rfl, hc⟩, hab, hcb⟩

/-- The times of three states are apart unless the middle one is entered last. -/
theorem apart_iff (hfirst : first < 6) (hmiddle : middle < 6) (hlast : last < 6) :
    (ProxyStepData.along L.finished.counted [first, middle, last]).Pairwise Disjoint ↔
      ¬ L.Detours first middle last := by
  have hstop := entered_le_stop (L := L) hmiddle
  have hnext : L.finished.nextEntry [middle, last] = if L.finished.entered middle = 0 then
      L.finished.nextEntry [last] else L.finished.entered middle := L.finished.nextEntry_cons _ _
  have hnext' : L.finished.nextEntry [last] = if L.finished.entered last = 0 then
      L.finished.nextEntry [] else L.finished.entered last := L.finished.nextEntry_cons _ _
  have hend : L.finished.nextEntry [] = L.stopNs := rfl
  rw [detours_iff hfirst hmiddle hlast]
  simp only [ProxyStepData.along, List.pairwise_cons, List.mem_cons, List.not_mem_nil, or_false,
    forall_eq_or_imp, forall_eq, false_imp_iff, implies_true, List.Pairwise.nil, and_true,
    Finset.disjoint_left, ProxyStepData.mem_counted]
  constructor
  · rintro ⟨⟨-, hapart⟩, -⟩ ⟨ha, hb, hc, hab, hcb⟩
    rw [hnext, if_neg hb, hend] at hapart
    apply hapart ⟨ha, le_max_left _ (L.finished.entered last), max_lt hab hcb⟩
    exact ⟨hc, le_max_right _ _, (max_lt hab hcb).trans_le (hstop hb)⟩
  · intro hnot
    refine ⟨⟨?_, ?_⟩, ?_⟩
    · rintro t ⟨ha, hat, htn⟩ ⟨hb, hbt, -⟩
      rw [hnext, if_neg hb] at htn
      exact absurd hbt (not_le.mpr htn)
    · rintro t ⟨ha, hat, htn⟩ ⟨hc, hct, -⟩
      by_cases hb : L.finished.entered middle = 0
      · rw [hnext, if_pos hb, hnext', if_neg hc] at htn
        exact absurd hct (not_le.mpr htn)
      · rw [hnext, if_neg hb] at htn
        exact hnot ⟨ha, hb, hc, hat.trans_lt htn, hct.trans_lt htn⟩
    · rintro t ⟨hb, hbt, htn⟩ ⟨hc, hct, -⟩
      rw [hnext', if_neg hc] at htn
      exact absurd hct (not_le.mpr htn)

/-- The time of a state lies between the first report and the stop. -/
theorem within_counted (hidx : idx < 6) (hlater : ∀ i ∈ later, i < 6)
    (ht : t ∈ L.finished.counted idx later) :
    (∃ r, L.reports.head? = some r ∧ r.now ≤ t) ∧ t < L.stopNs := by
  obtain ⟨hentered, hle, hlt⟩ := ProxyStepData.mem_counted.mp ht
  refine ⟨?_, hlt.trans_le (nextEntry_le_stop hlater)⟩
  obtain ⟨r, hr, hnow⟩ := exists_report_of_entered hidx hentered
  have hsorted := L.sorted
  cases hreports : L.reports with
  | nil => rw [hreports] at hr; exact (nomatch hr)
  | cons q rest =>
      rw [hreports] at hr hsorted
      refine ⟨q, rfl, le_trans ?_ (hnow.le.trans hle)⟩
      rcases List.mem_cons.mp hr with rfl | hmem
      · exact le_refl _
      · exact (List.pairwise_cons.mp hsorted).1 r hmem

theorem within_along (hchain : ∀ i ∈ chain, i < 6) :
    ∀ s ∈ ProxyStepData.along L.finished.counted chain, ∀ t ∈ s,
      (∃ r, L.reports.head? = some r ∧ r.now ≤ t) ∧ t < L.stopNs := by
  induction chain with
  | nil => exact fun _ hs => absurd hs List.not_mem_nil
  | cons i rest ih =>
      have hrest : ∀ j ∈ rest, j < 6 := fun j hj => hchain j (List.mem_cons_of_mem i hj)
      intro s hs t ht
      rcases List.mem_cons.mp hs with rfl | hs
      · exact within_counted (hchain i List.mem_cons_self) hrest ht
      · exact ih hrest s hs t ht

/-- Times that are apart sum up to no more than the time of the step. -/
theorem total_le (hchain : ∀ i ∈ chain, i < 6)
    (hapart : (ProxyStepData.along L.finished.counted chain).Pairwise Disjoint) :
    (ProxyStepData.along L.finished.dwell chain).sum ≤ L.stopNs - L.slot.step.startNs := by
  have hstop : ∀ i ∈ chain, L.finished.entered i ≠ 0 → L.finished.stopNs ≠ 0 := by
    intro i hi hentered
    obtain ⟨r, hr, -⟩ := exists_report_of_entered (hchain i hi) hentered
    exact ((L.positive r hr).trans_le (L.le_stop r hr)).ne'
  have hsub : ∀ s ∈ ProxyStepData.along L.finished.counted chain,
      s ⊆ Finset.Ico L.slot.step.startNs L.stopNs := by
    intro s hs t ht
    obtain ⟨⟨r, hr, hle⟩, hlt⟩ := within_along hchain s hs t ht
    exact Finset.mem_Ico.mpr ⟨(L.start_le r (List.mem_of_head? hr)).trans hle, hlt⟩
  have hcard := sum_card_le hapart hsub
  have hle := L.start_le_stop
  rw [Int.card_Ico] at hcard
  rw [ProxyStepData.sum_dwell_eq hstop]
  omega

/-- A chain of three states counts every nanosecond once unless it detours. -/
theorem counts_once (hfirst : first < 6) (hmiddle : middle < 6) (hlast : last < 6) :
    L.CountsOnce [first, middle, last] ↔ ¬ L.Detours first middle last := by
  have hchain : ∀ i ∈ [first, middle, last], i < 6 := by simp [hfirst, hmiddle, hlast]
  rw [← apart_iff hfirst hmiddle hlast]
  exact ⟨CountsOnce.apart, fun h => ⟨h, within_along hchain, total_le hchain h⟩⟩

/-- In the receive chain, the waits of the two states that are reported are always apart. -/
theorem recv_apart : Disjoint (L.finished.counted 3 [4, 5]) (L.finished.counted 4 [5]) := by
  apply Finset.disjoint_left.mpr
  intro t hrecv hflush
  obtain ⟨-, -, hlt⟩ := ProxyStepData.mem_counted.mp hrecv
  obtain ⟨hentered, hle, -⟩ := ProxyStepData.mem_counted.mp hflush
  rw [ProxyStepData.nextEntry_cons, if_neg hentered] at hlt
  exact absurd hle (not_le.mpr hlt)

/-- The send chain, and the receive chain, count every nanosecond once exactly when the middle state
of the chain is not first reported after both others. -/
theorem waits_once_iff (L : StepLife) :
    (L.CountsOnce [0, 1, 2] ∧ L.CountsOnce [3, 4, 5] ↔
      ¬ L.Detours 0 1 2 ∧ ¬ L.Detours 3 4 5) ∧
    (L.CountsOnce [0, 1, 2] ↔ ¬ L.Detours 0 1 2) ∧
    Disjoint (L.finished.counted 3 [4, 5]) (L.finished.counted 4 [5]) := by
  have hsend : L.CountsOnce [0, 1, 2] ↔ ¬ L.Detours 0 1 2 :=
    counts_once (by decide) (by decide) (by decide)
  have hrecv : L.CountsOnce [3, 4, 5] ↔ ¬ L.Detours 3 4 5 :=
    counts_once (by decide) (by decide) (by decide)
  exact ⟨and_congr hsend hrecv, hsend, recv_apart⟩

/-- The peer is waited for after the data was handed to the network. -/
def latePeerWait : StepLife where
  slot := ⟨0, none, 0, ⟨0, 1, 1, 0, List.replicate 6 0, 0⟩, 0⟩
  reports := [⟨8, .None, 10⟩, ⟨9, .None, 20⟩, ⟨20, .None, 30⟩]
  stopNs := 40
  fresh := rfl
  sorted := by decide
  positive := by decide
  start_le := by decide
  le_stop := by decide
  start_le_stop := by decide

/-- The waits of 20 ns each of the first and the last state are more than the step has. -/
theorem late_peer_wait_counts_twice : ¬ latePeerWait.CountsOnce [0, 1, 2] ∧
    latePeerWait.finished.waitDeltasNs = ⟨20, 0, 20, 0, 0⟩ ∧
    latePeerWait.stopNs - latePeerWait.slot.step.startNs = 39 :=
  ⟨fun h => absurd h.total (by decide), by decide, rfl⟩

end StepLife

section Pools

variable (S : Setting) {s : Pools} {ptr : ℕ} {slot : ProxyStepSlot}

/-- The reports of one step reach its slot, and nothing else. -/
theorem get_after_reports (hs : s.stepPool.Sound) (hget : s.stepPool.get ptr = some slot)
    (reports : List StateReport) :
    let t := reports.foldl (fun s r => s.recordState (.proxyStep ptr) r.state r.args r.now) s
    t.stepPool.Sound ∧ t.stepPool.get ptr = some (slot.reported reports) ∧
      t.proxyPool = s.proxyPool := by
  induction reports generalizing s slot with
  | nil => exact ⟨hs, hget, rfl⟩
  | cons r rest ih =>
      have hindex : s.stepPool.indexOf ptr = some ptr := by
        rw [hs.indexOf_eq, hget]
        rfl
      have hstep : s.recordState (.proxyStep ptr) r.state r.args r.now =
          { s with
            stepPool := s.stepPool.modify ptr (Pools.recordStep · r.state r.args r.now) } := by
        simp only [Pools.recordState, hindex]
      have hsound : (s.stepPool.modify ptr (Pools.recordStep · r.state r.args r.now)).Sound :=
        hs.modify fun v _ => (Pools.recordStep_keeps v r.state r.args r.now).1
      have hslot : (s.stepPool.modify ptr (Pools.recordStep · r.state r.args r.now)).get ptr =
          some (Pools.recordStep slot r.state r.args r.now) := by
        rw [SlotPool.get_modify, if_pos rfl, hget]
        rfl
      rw [List.foldl_cons, hstep]
      exact ih hsound hslot

theorem reported_keeps (reports : List StateReport) : (slot.reported reports).id = slot.id ∧
    (slot.reported reports).parentProxy = slot.parentProxy := by
  induction reports generalizing slot with
  | nil => exact ⟨rfl, rfl⟩
  | cons r rest ih =>
      obtain ⟨-, hid, -, hparent⟩ := Pools.recordStep_keeps slot r.state r.args r.now
      obtain ⟨hid', hparent'⟩ := @ih (Pools.recordStep slot r.state r.args r.now)
      exact ⟨hid'.trans hid, hparent'.trans hparent⟩

/-- The stop of a step adds its waits to those of the proxy op it belongs to. -/
theorem stop_pushes (L : StepLife) (hs : s.stepPool.Sound)
    (hget : s.stepPool.get ptr = some L.slot) :
    ((L.reports.foldl (fun s r => s.recordState (.proxyStep ptr) r.state r.args r.now)
        s).stopEvent S (.proxyStep ptr) L.stopNs).proxyPool =
      if L.slot.parentProxy = invalidIdx then s.proxyPool
      else s.proxyPool.modify L.slot.parentProxy fun proxy =>
        { proxy with op := proxy.op.pushStep L.slot.id L.finished } := by
  obtain ⟨hsound, hslot, hproxy⟩ := get_after_reports hs hget L.reports
  obtain ⟨hid, hparent⟩ := @reported_keeps L.slot L.reports
  generalize L.reports.foldl _ s = t at hsound hslot hproxy
  have hindex : t.stepPool.indexOf ptr = some ptr := by
    rw [hsound.indexOf_eq, hslot]
    rfl
  simp only [Pools.stopEvent, Pools.stopProxyStep, hindex, hslot, hid, hparent, hproxy]
  rfl

end Pools

end Probing.Nccl
