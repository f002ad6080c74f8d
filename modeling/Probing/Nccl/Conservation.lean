import Probing.Nccl.Moves

/-!
# Each call keeps the books

The slots are in order, the counter of a coll is the number of its live children, and no row is
lost or made twice. A start of a child needs room in the counter of its coll.
-/

namespace Probing.Nccl

namespace SlotPool

variable {T : Type} {pool : SlotPool T} {idx : ℕ} {v : T}

/-- A value that is written over and freed is gone. -/
theorem get_taken (change : T → T) (j : ℕ) :
    ((pool.modify idx change).freeIdx idx).get j = if j = idx then none else pool.get j := by
  rw [get_freeIdx]
  split
  · rfl
  next hj => rw [get_modify, if_neg hj]

theorem sum_taken (hv : pool.get idx = some v) (change : T → T) (weight : T → ℕ) :
    ((pool.modify idx change).freeIdx idx).sum weight + weight v = pool.sum weight := by
  have hmodify := sum_modify hv change weight
  have hget : (pool.modify idx change).get idx = some (change v) := by
    rw [get_modify, if_pos rfl, hv, Option.map_some]
  have hfree := sum_freeIdx hget weight
  omega

theorem Sound.taken [Indexed T] (h : pool.Sound) {change : T → T}
    (hself : ∀ v, Indexed.selfIdx (change v) = Indexed.selfIdx v) :
    ((pool.modify idx change).freeIdx idx).Sound :=
  (h.modify fun v _ => hself v).freeIdx

/-- An allocation needs a free slot. -/
theorem free_ne_nil [Indexed T] {pool' : SlotPool T} {shard : ℕ}
    (h : pool.allocIndexed shard v = some (pool', idx)) : pool.free ≠ [] := by
  intro hfree
  rw [allocIndexed, alloc, hfree] at h
  cases h

end SlotPool

namespace Pools

structure Inv (s : Pools) (events : ℕ) : Prop where
  sound : s.Sound
  linked : s.Linked
  balanced : s.Balanced events

variable {S : Setting} {s t u : Pools} {i id n : ℕ}

theorem Linked.congr (h : s.Linked) (hcoll : t.collPool = s.collPool)
    (hproxy : t.proxyPool = s.proxyPool) (hkch : t.kchPool = s.kchPool) : t.Linked := by
  obtain ⟨liveChildren, proxy_parent, kch_parent, waiting⟩ := h
  constructor
  · simpa only [children, hcoll, hproxy, hkch] using liveChildren
  · simpa only [hcoll, hproxy] using proxy_parent
  · simpa only [hcoll, hkch] using kch_parent
  · simpa only [hcoll] using waiting

theorem Balanced.congr (h : s.Balanced n) (hcoll : t.collPool = s.collPool)
    (hcoll_perf : t.batch.collPerf = s.batch.collPerf)
    (hproxy : t.batch.proxyOps = s.batch.proxyOps) (hledger : t.ledger = s.ledger)
    (hfiltered : t.counters.filtered = s.counters.filtered) : t.Balanced n :=
  (Carries.of_eq hcoll hcoll_perf hproxy hledger hfiltered).balanced h

theorem Inv.moved (h : s.Inv n) (hmoves : s.Moves t) (hcarries : s.Carries t) : t.Inv n where
  sound := hmoves.all_sound h.sound
  linked := hmoves.linked h.linked
  balanced := hcarries.balanced h.balanced

theorem Inv.count (h : s.Inv n) {counters : EventCounters}
    (hfiltered : counters.filtered = s.counters.filtered) : { s with counters }.Inv n :=
  h.moved (.of_eq ⟨rfl, rfl, rfl, rfl⟩ rfl) (.of_eq rfl rfl rfl rfl hfiltered)

theorem Inv.mono (h : s.Inv n) {m : ℕ} (hle : n ≤ m) : s.Inv m where
  sound := h.sound
  linked := h.linked
  balanced := ⟨h.balanced.ops, h.balanced.colls, h.balanced.filtered, h.balanced.nodup,
    fun id hid => Nat.lt_of_lt_of_le (h.balanced.below id hid) hle⟩

theorem Inv.notePoolExhausted (h : s.Inv n) (parentColl id : ℕ) :
    (s.notePoolExhausted parentColl id).Inv n :=
  h.moved (moves_notePoolExhausted parentColl id) (carries_notePoolExhausted parentColl id)

theorem Inv.drain (h : s.Inv n) (drains : CollSlot → Bool) : (s.drain drains).Inv n :=
  h.moved (moves_drain drains) (carries_drain drains)

theorem Inv.with_stepPool (h : s.Inv n) {stepPool : SlotPool ProxyStepSlot}
    (hsound : stepPool.Sound) : { s with stepPool }.Inv n where
  sound := ⟨h.sound.coll, h.sound.proxy, hsound, h.sound.kch, h.sound.net⟩
  linked := h.linked.congr rfl rfl rfl
  balanced := h.balanced.congr rfl rfl rfl rfl rfl

theorem Inv.with_netPool (h : s.Inv n) {netPool : SlotPool NetPluginSlot}
    (hsound : netPool.Sound) (netQp : List CompletedNetQp) :
    { s with netPool, batch := { s.batch with netQp } }.Inv n where
  sound := ⟨h.sound.coll, h.sound.proxy, h.sound.step, h.sound.kch, hsound⟩
  linked := h.linked.congr rfl rfl rfl
  balanced := h.balanced.congr rfl rfl rfl rfl rfl

/-- A proxy op changes, but not its parent. -/
theorem Inv.modify_proxy (h : s.Inv n) {change : ProxyOpSlot → ProxyOpSlot}
    (hself : ∀ slot, (change slot).selfIdx = slot.selfIdx)
    (hparent : ∀ slot, (change slot).op.parentColl = slot.op.parentColl ∧
      (change slot).op.parent = slot.op.parent) :
    { s with proxyPool := s.proxyPool.modify i change }.Inv n where
  sound := ⟨h.sound.coll, h.sound.proxy.modify fun slot hslot => hself slot, h.sound.step,
    h.sound.kch, h.sound.net⟩
  linked := by
    refine h.linked.quiet (SlotPool.matches_refl CollSlot.Alike.refl) ?_ ?_ ?_
    · exact SlotPool.matches_modify (fun slot => ⟨rfl, rfl⟩) fun slot hslot => hparent slot
    · exact SlotPool.matches_refl fun slot => ⟨rfl, rfl⟩
    · intro idx
      rw [children, children, SlotPool.count_modify_eq fun slot => by rw [(hparent slot).1]]
  balanced := h.balanced.congr rfl rfl rfl rfl rfl

/-- A kernel event changes, but not its parent. -/
theorem Inv.modify_kch (h : s.Inv n) {change : KernelChSlot → KernelChSlot}
    (hself : ∀ slot, (change slot).selfIdx = slot.selfIdx)
    (hparent : ∀ slot, (change slot).parentColl = slot.parentColl ∧
      (change slot).parent = slot.parent) :
    { s with kchPool := s.kchPool.modify i change }.Inv n where
  sound := ⟨h.sound.coll, h.sound.proxy, h.sound.step,
    h.sound.kch.modify fun slot hslot => hself slot, h.sound.net⟩
  linked := by
    refine h.linked.quiet (SlotPool.matches_refl CollSlot.Alike.refl) ?_ ?_ ?_
    · exact SlotPool.matches_refl fun slot => ⟨rfl, rfl⟩
    · exact SlotPool.matches_modify (fun slot => ⟨rfl, rfl⟩) fun slot hslot => hparent slot
    · intro idx
      rw [children, children, SlotPool.count_modify_eq fun slot => by rw [(hparent slot).1]]
  balanced := h.balanced.congr rfl rfl rfl rfl rfl

/-- A new coll waits for its stop. -/
theorem Inv.startColl (h : s.Inv n) (ctx : CollContext) (perfMeta : CollPerfMeta) (now : ℤ) :
    (s.startColl S n ctx perfMeta now).1.Inv (n + 1) := by
  rw [Pools.startColl]
  generalize hcounters : (if perfMeta.isP2p then { s.counters with p2p := s.counters.p2p + 1 }
    else { s.counters with coll := s.counters.coll + 1 } : EventCounters) = counters
  have hfiltered : counters.filtered = s.counters.filtered := by
    rw [← hcounters]
    split <;> rfl
  simp only
  split
  next collPool idx halloc =>
    obtain ⟨hsound, hnone, -, hget, hsum⟩ := h.sound.coll.allocIndexed halloc
    have hinvalid : idx ≠ invalidIdx := by
      rintro rfl
      have hlt : invalidIdx < collPool.capacity := SlotPool.get_lt (by rw [hget, if_pos rfl])
      have hcap := hsound.capacity_le
      unfold invalidIdx at hlt
      omega
    constructor
    · exact ⟨hsound, h.sound.proxy, h.sound.step, h.sound.kch, h.sound.net⟩
    · exact h.linked.coll_started hinvalid hnone hget ⟨rfl, rfl⟩ rfl rfl
    · constructor
      · intro p
        have hp := hsum fun coll => coll.pending.countP (p ·.id)
        have hold := h.balanced.ops p
        simp only [Pools.held] at hold ⊢
        rw [hp]
        exact hold
      · intro p
        have hp := hsum fun coll => if p coll.id then 1 else 0
        have hold := h.balanced.colls p
        simp only [Pools.told, SlotPool.count, List.countP_append, List.countP_singleton]
          at hold hp ⊢
        have hid : (Indexed.setSelfIdx (CollSlot.new n ctx perfMeta now)
            (packSlotId S.shard idx)).id = n := rfl
        rw [hid] at hp
        omega
      · rw [Filtered, hfiltered]
        exact h.balanced.filtered
      · have hnew : n ∉ s.ledger.collsStarted :=
          fun hmem => Nat.lt_irrefl n (h.balanced.below n hmem)
        exact List.nodup_append.mpr ⟨h.balanced.nodup, List.nodup_singleton n,
          fun id hid id' hid' heq => hnew (List.mem_singleton.mp hid' ▸ heq ▸ hid)⟩
      · intro id hid
        obtain hid | hid := List.mem_append.mp hid
        · exact Nat.lt_succ_of_lt (h.balanced.below id hid)
        · exact List.mem_singleton.mp hid ▸ Nat.lt_succ_self n
  · exact ((h.count hfiltered).notePoolExhausted invalidIdx n).mono (Nat.le_succ n)

/-- The coll that a parent handle points to, if there is one. -/
theorem resolveParentColl_cases (h : s.Sound) {parentObj : Handle} {rank : Int32}
    {ctx : CollContext} {parentColl : ℕ} {parent : Option ℕ}
    (hresolve : s.resolveParentColl parentObj rank = (ctx, parentColl, parent)) :
    (∃ coll, parentObj.asColl = some parentColl ∧ s.collPool.get parentColl = some coll ∧
      ctx = coll.ctx ∧ parent = some coll.id) ∨
    parentObj.asColl.bind s.collPool.get = none ∧ ctx = collContextFallback rank ∧
      parentColl = invalidIdx ∧ parent = none := by
  rw [resolveParentColl] at hresolve
  cases hptr : parentObj.asColl with
  | none =>
      rw [hptr] at hresolve
      cases hresolve
      exact .inr ⟨rfl, rfl, rfl, rfl⟩
  | some ptr =>
      rw [hptr, Option.bind_some, h.coll.indexOf_eq] at hresolve
      cases hcoll : s.collPool.get ptr with
      | none =>
          rw [hcoll] at hresolve
          cases hresolve
          exact .inr ⟨hcoll, rfl, rfl, rfl⟩
      | some coll =>
          simp only [hcoll, Option.map_some] at hresolve
          cases hresolve
          exact .inl ⟨coll, rfl, hcoll, rfl, rfl⟩

theorem saturatingSucc_of_lt {n : ℕ} (h : n < 2 ^ 16 - 1) : saturatingSucc n = n + 1 := by
  rw [saturatingSucc]
  omega

/-- A child is stored, and its coll, if there is one, has room in its counter. -/
theorem Inv.childStarted (h : s.Inv n) {parentColl : ℕ}
    (hcoll : t.collPool = s.collPool) (hsound : t.Sound) (hbalanced : t.Balanced n)
    (hcount : ∀ coll, s.collPool.get parentColl = some coll → coll.liveChildren < 2 ^ 16 - 1)
    (hchildren : ∀ j, t.children j = s.children j + if j = parentColl then 1 else 0)
    (hproxy : ∀ k slot, t.proxyPool.get k = some slot → s.proxyPool.get k = some slot ∨
      (slot.op.parentColl = invalidIdx ∧ slot.op.parent = none ∨
        ∃ coll, s.collPool.get slot.op.parentColl = some coll ∧ slot.op.parent = some coll.id))
    (hkch : ∀ k slot, t.kchPool.get k = some slot → s.kchPool.get k = some slot ∨
      ∃ coll, s.collPool.get slot.parentColl = some coll ∧ slot.parent = coll.id) :
    (t.childStarted parentColl).Inv n where
  sound := ⟨hsound.coll.modify fun coll hget => rfl, hsound.proxy, hsound.step, hsound.kch,
    hsound.net⟩
  linked := by
    have hget (j : ℕ) : (t.childStarted parentColl).collPool.get j =
        if j = parentColl then (s.collPool.get parentColl).map fun coll =>
          { coll with liveChildren := saturatingSucc coll.liveChildren }
        else s.collPool.get j := by
      rw [← hcoll]
      exact SlotPool.get_modify _ j
    exact h.linked.childStarted hget
      (fun coll hcoll => ⟨saturatingSucc_of_lt (hcount coll hcoll), rfl⟩) hchildren hproxy hkch
  balanced := (carries_childStarted parentColl).balanced hbalanced

theorem Inv.startProxyOp (h : s.Inv n) {parentObj : Handle}
    (hcount : s.proxyPool.free ≠ [] →
      ∀ coll ∈ parentObj.asColl.bind s.collPool.get, coll.liveChildren < 2 ^ 16 - 1)
    (id : ℕ) (rank channelId peer nSteps isSend : Int32) (now : ℤ) :
    (s.startProxyOp S id parentObj rank channelId peer nSteps isSend now).1.Inv n := by
  rw [Pools.startProxyOp]
  have hs : { s with counters := { s.counters with
      proxyOp := s.counters.proxyOp + 1 } }.Inv n := h.count rfl
  simp only
  generalize hresolve : resolveParentColl _ parentObj rank = resolved
  obtain ⟨ctx, parentColl, parent⟩ := resolved
  have hparent := resolveParentColl_cases hs.sound hresolve
  simp only
  split
  next proxyPool idx halloc =>
    obtain ⟨hsound, hnone, -, hget, hsum⟩ := h.sound.proxy.allocIndexed halloc
    refine hs.childStarted rfl ⟨h.sound.coll, hsound, h.sound.step, h.sound.kch, h.sound.net⟩
      (hs.balanced.congr rfl rfl rfl rfl rfl) ?_ ?_ ?_ fun k slot hslot => .inl hslot
    · intro coll hcoll
      obtain ⟨coll', hptr, -⟩ | ⟨-, -, rfl, -⟩ := hparent
      · apply hcount (SlotPool.free_ne_nil halloc)
        rw [hptr]
        exact hcoll
      · rw [hs.sound.get_invalid] at hcoll
        exact (nomatch hcoll)
    · intro j
      have hj := hsum fun slot => if slot.op.parentColl == j then 1 else 0
      simp only [children, SlotPool.count, Indexed.setSelfIdx, beq_iff_eq] at hj ⊢
      rw [hj]
      simp only [eq_comm (a := j)]
      omega
    · intro k slot hslot
      rw [hget] at hslot
      split at hslot
      · obtain rfl := Option.some.inj hslot
        obtain ⟨coll, -, hcoll, -, rfl⟩ | ⟨-, -, rfl, rfl⟩ := hparent
        · exact .inr (.inr ⟨coll, hcoll, rfl⟩)
        · exact .inr (.inl ⟨rfl, rfl⟩)
      · exact .inl hslot
  · exact hs.notePoolExhausted parentColl id

theorem Inv.startKernelCh (h : s.Inv n) {parentObj : Handle}
    (hcount : s.kchPool.free ≠ [] →
      ∀ coll ∈ parentObj.asColl.bind s.collPool.get, coll.liveChildren < 2 ^ 16 - 1)
    (id : ℕ) (channelId : Int32) (gpuStartPtimer : UInt64) (now : ℤ) :
    (s.startKernelCh S id parentObj channelId gpuStartPtimer now).1.Inv n := by
  rw [Pools.startKernelCh]
  have hs : { s with counters := { s.counters with
      kernelCh := s.counters.kernelCh + 1 } }.Inv n := h.count rfl
  simp only
  split
  · exact hs
  next parentColl hparent =>
  split
  · exact hs
  next coll hcoll =>
  have hat : parentObj.asColl.bind s.collPool.get = some coll := by
    obtain ⟨ptr, hptr, hindex⟩ := Option.bind_eq_some_iff.mp hparent
    rw [h.sound.coll.indexOf_eq] at hindex
    obtain ⟨-, -, rfl⟩ := Option.map_eq_some_iff.mp hindex
    rw [hptr]
    exact hcoll
  split
  next kchPool idx halloc =>
    obtain ⟨hsound, hnone, -, hget, hsum⟩ := h.sound.kch.allocIndexed halloc
    refine hs.childStarted rfl ⟨h.sound.coll, h.sound.proxy, h.sound.step, hsound, h.sound.net⟩
      (hs.balanced.congr rfl rfl rfl rfl rfl) ?_ ?_ (fun k slot hslot => .inl hslot) ?_
    · intro coll' hcoll'
      obtain rfl := Option.some.inj (hcoll.symm.trans hcoll')
      exact hcount (SlotPool.free_ne_nil halloc) coll hat
    · intro j
      have hj := hsum fun slot => if slot.parentColl == j then 1 else 0
      simp only [children, SlotPool.count, Indexed.setSelfIdx, beq_iff_eq] at hj ⊢
      rw [hj]
      simp only [eq_comm (a := j)]
      omega
    · intro k slot hslot
      rw [hget] at hslot
      split at hslot
      · obtain rfl := Option.some.inj hslot
        exact .inr ⟨coll, hcoll, rfl⟩
      · exact .inl hslot
  · exact hs.notePoolExhausted parentColl id

theorem Inv.startProxyStep (h : s.Inv n) (id : ℕ) (parentObj : Handle) (step : Int32)
    (now : ℤ) : (s.startProxyStep S id parentObj step now).1.Inv n := by
  rw [Pools.startProxyStep]
  have hs : { s with counters := { s.counters with
      proxyStep := s.counters.proxyStep + 1 } }.Inv n := h.count rfl
  simp only
  split
  next stepPool idx halloc =>
    exact hs.with_stepPool (h.sound.step.allocIndexed halloc).1
  · exact hs.notePoolExhausted invalidIdx id

theorem Inv.startNetPlugin (h : s.Inv n) (id : ℕ) (rank : Int32) (qp : Option IbQp) (now : ℤ) :
    (s.startNetPlugin S id rank qp now).1.Inv n := by
  rw [Pools.startNetPlugin]
  have hs : { s with counters := { s.counters with
      netPlugin := s.counters.netPlugin + 1 } }.Inv n := h.count rfl
  simp only
  split
  next netPool idx halloc =>
    exact hs.with_netPool (h.sound.net.allocIndexed halloc).1 _
  · exact hs.notePoolExhausted invalidIdx id

/-- The coll in a slot changes as a child leaves, or as it is stopped, and is freed if it is
complete then. -/
theorem Linked.settled (h : s.Linked) (hs : s.Sound) {change : CollSlot → CollSlot} {now : ℤ}
    (hget : ∀ j, t.collPool.get j =
      if j = i then (s.collPool.get i).map change else s.collPool.get j)
    (hcoll : u.collPool = (t.maybeCompleteColl S i now).collPool)
    (hchange : ∀ coll, s.collPool.get i = some coll →
      (change coll).liveChildren = u.children i ∧ (change coll).id = coll.id)
    (hchildren : ∀ j ≠ i, u.children j = s.children j)
    (hproxy : ∀ k slot, u.proxyPool.get k = some slot → s.proxyPool.get k = some slot)
    (hkch : ∀ k slot, u.kchPool.get k = some slot → s.kchPool.get k = some slot) :
    u.Linked := by
  have hinvalid : t.collPool.get invalidIdx = none := by
    rw [hget, hs.get_invalid]
    split
    next hi => rw [← hi, hs.get_invalid, Option.map_none]
    · rfl
  apply h.settle _ hchange hchildren hproxy hkch
  intro j
  rw [hcoll, get_maybeCompleteColl hinvalid, hget, hget, if_pos rfl]
  split
  · cases s.collPool.get i with
    | none => rfl
    | some coll =>
        rw [Option.map_some, Option.filter_some, Option.bind_some]
        cases (change coll).isComplete <;> rfl
  · rfl

theorem Inv.stopProxyStep (h : s.Inv n) (ptr : ℕ) (now : ℤ) :
    (s.stopProxyStep ptr now).Inv n := by
  rw [Pools.stopProxyStep]
  split
  · exact h
  next idx hidx =>
  split
  · exact h
  next slot hslot =>
  have hstep : ((s.stepPool.modify idx fun old =>
      { old with step := { slot.step with stopNs := now } }).freeIdx idx).Sound :=
    h.sound.step.taken fun old => rfl
  simp only
  split
  · exact h.with_stepPool hstep
  · have hproxy : ({ s with
        proxyPool := s.proxyPool.modify slot.parentProxy fun proxy =>
          { proxy with
            op := proxy.op.pushStep slot.id { slot.step with stopNs := now } } } : Pools).Inv n :=
      h.modify_proxy (fun slot => rfl) fun slot => ⟨rfl, rfl⟩
    exact hproxy.with_stepPool hstep

theorem Inv.stopNetPlugin (h : s.Inv n) (ptr : ℕ) (now : ℤ) :
    (s.stopNetPlugin ptr now).Inv n := by
  rw [Pools.stopNetPlugin]
  split
  · exact h
  next idx hidx =>
  split
  · exact h
  next slot hslot =>
  have hnet : ((s.netPool.modify idx fun old => { old with stopNs := now }).freeIdx idx).Sound :=
    h.sound.net.taken fun old => rfl
  exact h.with_netPool hnet _

theorem Inv.stopColl (h : s.Inv n) (ptr : ℕ) (now : ℤ) :
    (s.stopColl S ptr now).Inv n := by
  rw [Pools.stopColl]
  split
  · exact h
  next idx hidx =>
    have hsound : (s.collPool.modify idx fun coll =>
        { coll with enqueueStopNs := now, stopped := true }).Sound :=
      h.sound.coll.modify fun coll hcoll => rfl
    generalize hstopped : ({ s with
      collPool := s.collPool.modify idx fun coll =>
        { coll with enqueueStopNs := now, stopped := true } } : Pools) = stopped
    have hget (j : ℕ) : stopped.collPool.get j = if j = idx then
        (s.collPool.get idx).map fun coll =>
          { coll with enqueueStopNs := now, stopped := true }
        else s.collPool.get j := by
      rw [← hstopped]
      exact SlotPool.get_modify _ j
    have hcarries : s.Carries stopped := by
      rw [← hstopped]
      exact .modify rfl (fun coll => rfl) (fun coll => rfl) rfl rfl rfl
    have hsame : s.SameChildren (stopped.maybeCompleteColl S idx now) := by
      refine SameChildren.trans (t := stopped) ?_ (same_maybeCompleteColl now)
      rw [← hstopped]
      exact ⟨rfl, rfl, rfl, rfl⟩
    constructor
    · constructor
      · rw [← hstopped]
        exact sound_maybeCompleteColl hsound now
      · rw [hsame.proxyPool]; exact h.sound.proxy
      · rw [hsame.stepPool]; exact h.sound.step
      · rw [hsame.kchPool]; exact h.sound.kch
      · rw [hsame.netPool]; exact h.sound.net
    · refine h.linked.settled h.sound hget rfl (fun coll hcoll => ⟨?_, rfl⟩)
        (fun j hj => hsame.children j) ?_ ?_
      · rw [hsame.children, ← h.linked.liveChildren idx coll hcoll]
      · rw [hsame.proxyPool]
        exact fun k slot hslot => hslot
      · rw [hsame.kchPool]
        exact fun k slot hslot => hslot
    · exact (hcarries.trans (carries_maybeCompleteColl idx now)).balanced h.balanced

/-- A child leaves, and its window is folded into its coll. -/
theorem Linked.childStopped (h : s.Linked) (hs : s.Sound) {observe : CollSlot → CollSlot}
    {now : ℤ} (hobserve : ∀ coll : CollSlot, coll.Alike (observe coll))
    (hcoll : t.collPool = s.collPool)
    (hsettled : u.collPool =
      ((t.childStopped i id observe).maybeCompleteColl S i now).collPool)
    (hchildren : ∀ j, u.children j + (if j = i then 1 else 0) = s.children j)
    (hproxy : ∀ k slot, u.proxyPool.get k = some slot → s.proxyPool.get k = some slot)
    (hkch : ∀ k slot, u.kchPool.get k = some slot → s.kchPool.get k = some slot) :
    u.Linked := by
  have hinvalid : t.collPool.get invalidIdx = none := hcoll ▸ hs.get_invalid
  have hget (j : ℕ) := get_childStopped (i := i) (j := j) hinvalid id observe
  rw [hcoll] at hget
  refine h.settled hs hget hsettled (fun coll hcoll => ?_) (fun j hj => ?_) hproxy hkch
  · have hi := hchildren i
    have hlive := h.liveChildren i coll hcoll
    have hkeep := (hobserve coll).liveChildren
    rw [if_pos rfl] at hi
    exact ⟨by simp only; omega, (hobserve coll).id⟩
  · have hj' := hchildren j
    rw [if_neg hj] at hj'
    omega

theorem Inv.stopKernelCh (h : s.Inv n) (ptr : ℕ) (now : ℤ) :
    (s.stopKernelCh S ptr now).Inv n := by
  rw [Pools.stopKernelCh]
  split
  · exact h
  next idx hidx =>
  split
  · exact h
  next slot hslot =>
  simp only
  generalize hobserve : (fun coll : CollSlot => (coll.observeKch slot.startNs
    now).observeKchGpu slot.gpuStartPtimer slot.gpuStopPtimer) = observe
  have hobserved (coll : CollSlot) : coll.Observed (observe coll) := by
    rw [← hobserve]
    exact coll.observed_kch slot.startNs now slot.gpuStartPtimer slot.gpuStopPtimer
  have halike (coll : CollSlot) : coll.Alike (observe coll) := (hobserved coll).toAlike
  generalize hsettled : (s.childStopped slot.parentColl slot.id observe).maybeCompleteColl S
    slot.parentColl now = settled
  have hsame : s.SameChildren settled := by
    rw [← hsettled]
    exact (same_childStopped slot.id observe).trans (same_maybeCompleteColl now)
  have hcarries : s.Carries settled := by
    rw [← hsettled]
    exact (carries_childStopped _ _ (fun coll => (halike coll).id)
      fun coll => (hobserved coll).pending).trans
      (carries_maybeCompleteColl _ now)
  constructor
  · constructor
    · rw [← hsettled]
      exact sound_maybeCompleteColl (sound_childStopped h.sound.coll slot.id
        fun coll => (halike coll).selfIdx) now
    · rw [hsame.proxyPool]; exact h.sound.proxy
    · rw [hsame.stepPool]; exact h.sound.step
    · rw [hsame.kchPool]; exact h.sound.kch.freeIdx
    · rw [hsame.netPool]; exact h.sound.net
  · have hcolls : settled.collPool = ((s.childStopped slot.parentColl slot.id
        observe).maybeCompleteColl S slot.parentColl now).collPool := by rw [hsettled]
    refine h.linked.childStopped h.sound halike rfl hcolls (fun j => ?_) ?_ ?_
    · have hcount := SlotPool.sum_freeIdx hslot fun slot => if slot.parentColl == j then 1 else 0
      simp only [children, SlotPool.count, hsame.proxyPool, hsame.kchPool] at hcount ⊢
      simp only [beq_iff_eq, eq_comm (a := slot.parentColl)] at hcount ⊢
      omega
    · intro k other hother
      rw [hsame.proxyPool] at hother
      exact hother
    · intro k other hother
      rw [hsame.kchPool, SlotPool.get_freeIdx] at hother
      split at hother
      · cases hother
      · exact hother
  · exact (hcarries.balanced h.balanced).congr rfl rfl rfl rfl rfl

/-- A stopped proxy op leaves its row. -/
theorem Balanced.row_added (h : s.Balanced n) {row : CompletedProxyOp} {parentColl : ℕ}
    (hcoll : t.collPool = s.collPool) (hbatch : t.batch = s.batch)
    (hledger : t.ledger = { s.ledger with opsStopped := s.ledger.opsStopped ++ [row.id] })
    (hcounters : t.counters = s.counters) :
    (t.flushProxyRow S parentColl row).Balanced n := by
  have hadds := adds_flushProxyRow (S := S) (s := t) parentColl row
  constructor
  · intro p
    have hops := h.ops p
    have hheld : t.held p = s.held p := by
      rw [Pools.held, hcoll, hbatch, hledger]
      rfl
    rw [hadds.held, hadds.opsStopped, hledger, hheld, List.countP_append, List.countP_singleton]
    omega
  · intro p
    have htold : t.told p = s.told p := by
      rw [Pools.told, hcoll, hbatch, hledger]
      rfl
    rw [hadds.told, hadds.collsStarted, hledger, htold]
    exact h.colls p
  · apply hadds.filtered
    rw [Filtered, hcounters, hledger]
    exact h.filtered
  · rw [hadds.collsStarted, hledger]
    exact h.nodup
  · rw [hadds.collsStarted, hledger]
    exact h.below

theorem Inv.stopProxyOp (h : s.Inv n) (ptr : ℕ) (now : ℤ) :
    (s.stopProxyOp S ptr now).Inv n := by
  rw [Pools.stopProxyOp]
  split
  · exact h
  next idx hidx =>
  split
  · exact h
  next slot hslot =>
  simp only
  generalize hrow : ProxyOpData.intoCompleted { slot.op with stopNs := now } slot.id now = row
  have hid : row.id = slot.id := by rw [← hrow]; rfl
  generalize htaken : ({ s with
    proxyPool := s.proxyPool.modify idx fun slot => { slot with op := .default }
    ledger := { s.ledger with opsStopped := s.ledger.opsStopped ++ [slot.id] } } : Pools) = taken
  have hcoll : taken.collPool = s.collPool := by rw [← htaken]
  generalize hflushed : taken.flushProxyRow S slot.op.parentColl row = flushed
  have hbalanced : flushed.Balanced n := by
    rw [← hflushed, ← htaken]
    exact h.balanced.row_added rfl rfl (by rw [hid]) rfl
  have hmoves : taken.Moves flushed := by
    rw [← hflushed]
    exact moves_flushProxyRow slot.op.parentColl row
  have hsame : s.SameChildren { s with collPool := flushed.collPool } := ⟨rfl, rfl, rfl, rfl⟩
  -- the op is still a child here, of the coll that has its row
  have hlive : s.Moves { s with collPool := flushed.collPool } :=
    ⟨hsame, hcoll ▸ hmoves.colls, hcoll ▸ hmoves.sound⟩
  have hsound := hlive.all_sound h.sound
  have hflushed_sound : flushed.collPool.Sound := hsound.coll
  generalize hobserve : (fun coll : CollSlot => coll.observeProxy slot.op.startNs now) = observe
  have hobserved (coll : CollSlot) : coll.Observed (observe coll) := by
    rw [← hobserve]
    exact coll.observed_proxy slot.op.startNs now
  have halike (coll : CollSlot) : coll.Alike (observe coll) := (hobserved coll).toAlike
  generalize hsettled : (flushed.childStopped slot.op.parentColl slot.id
    observe).maybeCompleteColl S slot.op.parentColl now = settled
  have hsame' : flushed.SameChildren settled := by
    rw [← hsettled]
    exact (same_childStopped slot.id observe).trans (same_maybeCompleteColl now)
  have hcarries : flushed.Carries settled := by
    rw [← hsettled]
    exact (carries_childStopped _ _ (fun coll => (halike coll).id)
      fun coll => (hobserved coll).pending).trans
      (carries_maybeCompleteColl _ now)
  have hsettled_sound : settled.collPool.Sound := by
    rw [← hsettled]
    exact sound_maybeCompleteColl (sound_childStopped hflushed_sound slot.id
      fun coll => (halike coll).selfIdx) now
  have hall := hmoves.toSameChildren.trans hsame'
  have hproxy : settled.proxyPool =
      s.proxyPool.modify idx fun slot => { slot with op := .default } := by
    rw [hall.proxyPool, ← htaken]
  have hstep : settled.stepPool = s.stepPool := by rw [hall.stepPool, ← htaken]
  have hkch : settled.kchPool = s.kchPool := by rw [hall.kchPool, ← htaken]
  have hnet : settled.netPool = s.netPool := by rw [hall.netPool, ← htaken]
  constructor
  · refine ⟨hsettled_sound, ?_, hstep ▸ h.sound.step, hkch ▸ h.sound.kch, hnet ▸ h.sound.net⟩
    simp only [hproxy]
    exact h.sound.proxy.taken fun slot => rfl
  · have hcolls : settled.collPool = ((flushed.childStopped slot.op.parentColl slot.id
        observe).maybeCompleteColl S slot.op.parentColl now).collPool := by rw [hsettled]
    refine (hlive.linked h.linked).childStopped (t := flushed) hsound halike rfl hcolls
      (fun j => ?_) ?_ ?_
    · have hcount := SlotPool.sum_taken hslot (fun slot => { slot with op := .default })
        fun slot => if slot.op.parentColl == j then 1 else 0
      simp only [children, SlotPool.count, hproxy, hkch] at hcount ⊢
      simp only [beq_iff_eq, eq_comm (a := slot.op.parentColl)] at hcount ⊢
      omega
    · intro k other hother
      simp only [hproxy, SlotPool.get_taken] at hother
      split at hother
      · cases hother
      · exact hother
    · intro k other hother
      simp only [hkch] at hother
      exact hother
  · exact (hcarries.balanced hbalanced).congr rfl rfl rfl rfl rfl

theorem Inv.stopEvent (h : s.Inv n) (handle : Handle) (now : ℤ) :
    (s.stopEvent S handle now).Inv n := by
  cases handle with
  | null => exact h
  | group => exact h
  | coll ptr => exact h.stopColl ptr now
  | proxyOp ptr => exact h.stopProxyOp ptr now
  | proxyStep ptr => exact h.stopProxyStep ptr now
  | kernelCh ptr => exact h.stopKernelCh ptr now
  | net ptr => exact h.stopNetPlugin ptr now

theorem recordStep_keeps (slot : ProxyStepSlot) (state : Int32) (args : StateArgs) (now : ℤ) :
    (recordStep slot state args now).selfIdx = slot.selfIdx ∧
      (recordStep slot state args now).id = slot.id ∧
      (recordStep slot state args now).parent = slot.parent ∧
      (recordStep slot state args now).parentProxy = slot.parentProxy := by
  cases args <;> exact ⟨rfl, rfl, rfl, rfl⟩

theorem recordProxyOp_keeps (slot : ProxyOpSlot) (args : StateArgs) :
    (recordProxyOp slot args).selfIdx = slot.selfIdx ∧
      (recordProxyOp slot args).id = slot.id ∧
      (recordProxyOp slot args).op.parentColl = slot.op.parentColl ∧
      (recordProxyOp slot args).op.parent = slot.op.parent ∧
      (recordProxyOp slot args).op.coll = slot.op.coll ∧
      (recordProxyOp slot args).op.steps = slot.op.steps := by
  cases args <;> exact ⟨rfl, rfl, rfl, rfl, rfl, rfl⟩

theorem recordKernelCh_keeps (slot : KernelChSlot) (args : StateArgs) :
    (recordKernelCh slot args).selfIdx = slot.selfIdx ∧
      (recordKernelCh slot args).id = slot.id ∧
      (recordKernelCh slot args).parentColl = slot.parentColl ∧
      (recordKernelCh slot args).parent = slot.parent := by
  cases args <;> exact ⟨rfl, rfl, rfl, rfl⟩

theorem Inv.recordState (h : s.Inv n) (handle : Handle) (state : Int32) (args : StateArgs)
    (now : ℤ) : (s.recordState handle state args now).Inv n := by
  cases handle with
  | null => exact h
  | group => exact h
  | coll ptr => exact h
  | net ptr => exact h
  | proxyStep ptr =>
      simp only [Pools.recordState]
      split
      next idx hidx =>
        apply h.with_stepPool
        exact h.sound.step.modify fun slot hslot => (recordStep_keeps slot state args now).1
      · exact h
  | proxyOp ptr =>
      simp only [Pools.recordState]
      split
      next idx hidx =>
        apply h.modify_proxy
        · exact fun slot => (recordProxyOp_keeps slot args).1
        · intro slot
          obtain ⟨-, -, hcoll, hparent, -⟩ := recordProxyOp_keeps slot args
          exact ⟨hcoll, hparent⟩
      · exact h
  | kernelCh ptr =>
      simp only [Pools.recordState]
      split
      next idx hidx =>
        apply h.modify_kch
        · exact fun slot => (recordKernelCh_keeps slot args).1
        · exact fun slot => (recordKernelCh_keeps slot args).2.2
      · exact h

end Pools

end Probing.Nccl
