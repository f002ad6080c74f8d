import Mathlib.Data.List.Count
import Probing.Nccl.Conservation

/-!
# Reference counts and rows over a run

In every run that counts each stored child, the slots are in order, the counters of the colls
are exact, and every row is where it belongs. A coll with as many live children as its counter
holds gets one more, and then it is freed while a child is live.
-/

namespace Probing.Nccl

open Probing.Core

variable {S : Setting}

namespace Pools

variable {s t : Pools} {n : ℕ}

/-- The child that starts, if it is one and is stored, has room in the counter of its coll. -/
def Counts (s : Pools) : ParsedEvent Handle → Prop
  | .ProxyOp parentObj _ _ _ _ _ => s.proxyPool.free ≠ [] →
      ∀ coll ∈ parentObj.asColl.bind s.collPool.get, coll.liveChildren < 2 ^ 16 - 1
  | .KernelCh parentObj _ _ => s.kchPool.free ≠ [] →
      ∀ coll ∈ parentObj.asColl.bind s.collPool.get, coll.liveChildren < 2 ^ 16 - 1
  | _ => True

theorem Inv.startEvent (h : s.Inv n) {event : ParsedEvent Handle} (hcounts : s.Counts event)
    (now : ℤ) : (s.startEvent S n event now).1.Inv (n + 1) := by
  have hle := Nat.le_succ n
  cases event with
  | Coll ctx perfMeta => exact h.startColl ctx perfMeta now
  | ProxyOp parentObj rank channelId peer nSteps isSend =>
      exact (h.startProxyOp hcounts n rank channelId peer nSteps isSend now).mono hle
  | ProxyStep parentObj step => exact (h.startProxyStep n parentObj step now).mono hle
  | KernelCh parentObj channelId gpuStartPtimer =>
      exact (h.startKernelCh hcounts n channelId gpuStartPtimer now).mono hle
  | NetPlugin rank qp => exact (h.startNetPlugin n rank qp now).mono hle
  | Group => exact h.mono hle
  | Ignored => exact h.mono hle

theorem sum_withCapacity {T : Type} (cap : ℕ) (weight : T → ℕ) :
    (SlotPool.withCapacity cap : SlotPool T).sum weight = 0 := by
  rw [SlotPool.sum, SlotPool.withCapacity, List.map_replicate, List.sum_replicate]
  exact Nat.mul_zero cap

theorem inv_new {limits : PoolLimits} (hcoll : limits.coll ≤ 2 ^ 24)
    (hproxy : limits.proxyOp ≤ 2 ^ 24) (hstep : limits.proxyStep ≤ 2 ^ 24)
    (hkch : limits.kernelCh ≤ 2 ^ 24) (hnet : limits.net ≤ 2 ^ 24) : (new limits).Inv 0 where
  sound := ⟨SlotPool.sound_withCapacity hcoll, SlotPool.sound_withCapacity hproxy,
    SlotPool.sound_withCapacity hstep, SlotPool.sound_withCapacity hkch,
    SlotPool.sound_withCapacity hnet⟩
  linked := by
    constructor
    · intro idx coll hget
      cases (SlotPool.get_withCapacity limits.coll idx).symm.trans hget
    · intro k slot hget
      cases (SlotPool.get_withCapacity limits.proxyOp k).symm.trans hget
    · intro k slot hget
      cases (SlotPool.get_withCapacity limits.kernelCh k).symm.trans hget
    · intro idx coll hget
      cases (SlotPool.get_withCapacity limits.coll idx).symm.trans hget
  balanced := by
    constructor
    · intro p
      simp only [Pools.held, new, sum_withCapacity, List.countP_nil]
    · intro p
      simp only [Pools.told, new, SlotPool.count, sum_withCapacity, List.countP_nil]
    · rfl
    · exact List.nodup_nil
    · exact fun id hid => (by cases hid)

end Pools

namespace SlotPool

variable {T : Type} [Indexed T] {pool : SlotPool T} {top : ℕ} {rest : List ℕ}

/-- The top of the stack is taken. -/
theorem allocIndexed_cons (shard : ℕ) (h : pool.free = top :: rest) (v : T) :
    ∃ pool', pool.allocIndexed shard v = some (pool', top) ∧ pool'.free = rest := by
  rw [allocIndexed, alloc, h]
  exact ⟨_, rfl, free_modify _⟩

end SlotPool

namespace Pools

variable {s : Pools} {n idx : ℕ} {coll : CollSlot}

/-- A coll is stored. -/
theorem startColl_stored (h : s.Sound) {top : ℕ} {rest : List ℕ}
    (hfree : s.collPool.free = top :: rest) (ctx : CollContext) (perfMeta : CollPerfMeta)
    (now : ℤ) :
    ∃ t, s.startColl S n ctx perfMeta now = (t, .coll top) ∧
      (∃ coll, t.collPool.get top = some coll ∧ coll.liveChildren = 0) ∧
      t.proxyPool = s.proxyPool := by
  obtain ⟨collPool, halloc, -⟩ :=
    SlotPool.allocIndexed_cons S.shard hfree (.new n ctx perfMeta now)
  obtain ⟨-, -, -, hget, -⟩ := h.coll.allocIndexed halloc
  rw [startColl]
  simp only [halloc]
  have htop := hget top
  rw [if_pos rfl] at htop
  exact ⟨_, rfl, ⟨_, htop, rfl⟩, rfl⟩

/-- A proxy op of a live coll is stored. -/
theorem startProxyOp_live (h : s.Sound) (hcoll : s.collPool.get idx = some coll)
    {top : ℕ} {rest : List ℕ} (hfree : s.proxyPool.free = top :: rest)
    (rank channelId peer nSteps isSend : Int32) (now : ℤ) :
    ∃ t, (s.startProxyOp S n (.coll idx) rank channelId peer nSteps isSend now).1 = t ∧
      t.collPool.get idx =
        some { coll with liveChildren := saturatingSucc coll.liveChildren } ∧
      t.children idx = s.children idx + 1 ∧ t.proxyPool.free = rest := by
  refine ⟨_, rfl, ?_⟩
  rw [startProxyOp]
  simp only
  generalize hresolve : resolveParentColl _ (.coll idx) rank = resolved
  obtain ⟨ctx, parentColl, parent⟩ := resolved
  have hs : ({ s with counters := { s.counters with
      proxyOp := s.counters.proxyOp + 1 } } : Pools).Sound :=
    ⟨h.coll, h.proxy, h.step, h.kch, h.net⟩
  obtain ⟨coll', hptr, -⟩ | ⟨hnone, -⟩ := resolveParentColl_cases hs hresolve
  · obtain rfl : idx = parentColl := Option.some.inj hptr
    simp only
    split
    next proxyPool i halloc =>
      obtain ⟨-, -, -, -, hsum⟩ := h.proxy.allocIndexed halloc
      obtain ⟨pool', halloc', hrest⟩ := SlotPool.allocIndexed_cons S.shard hfree _
      obtain ⟨rfl, -⟩ := Prod.mk.inj (Option.some.inj (halloc.symm.trans halloc'))
      refine ⟨?_, ?_, hrest⟩
      · rw [childStarted, SlotPool.get_modify, if_pos rfl, hcoll, Option.map_some]
      · have hcount := hsum fun slot => if slot.op.parentColl == idx then 1 else 0
        simp only [children, SlotPool.count, childStarted, Indexed.setSelfIdx, beq_self_eq_true,
          if_true] at hcount ⊢
        omega
    next hnone =>
      obtain ⟨pool', halloc', -⟩ := SlotPool.allocIndexed_cons S.shard hfree _
      cases hnone.symm.trans halloc'
  · rw [Handle.asColl, Option.bind_some] at hnone
    cases hnone.symm.trans hcoll

end Pools

/-- The limits that the configuration admits, for one shard. -/
def configured (coll proxyOp proxyStep kernelCh net : Option ℕ) (shards : ℕ) : PoolLimits :=
  perShardLimits (poolLimits coll proxyOp proxyStep kernelCh net) shards

theorem parseEnvUsize_le (value : Option ℕ) {default : ℕ} (h : default ≤ 2 ^ 20) :
    parseEnvUsize value default ≤ 2 ^ 20 := by
  cases value with
  | none => exact h
  | some v =>
      simp only [parseEnvUsize, Option.map_some, Option.getD_some]
      omega

theorem shard_limit_le {total floor : ℕ} (shards : ℕ) (h : total ≤ 2 ^ 20)
    (hfloor : floor ≤ 2 ^ 20) : max (total / max shards 1) floor ≤ 2 ^ 24 := by
  have hdiv := Nat.div_le_self total (max shards 1)
  omega

theorem inv_configured (coll proxyOp proxyStep kernelCh net : Option ℕ) (shards : ℕ) :
    (Pools.new (configured coll proxyOp proxyStep kernelCh net shards)).Inv 0 := by
  apply Pools.inv_new
  · exact shard_limit_le shards (parseEnvUsize_le coll (by decide)) (by decide)
  · exact shard_limit_le shards (parseEnvUsize_le proxyOp (by decide)) (by decide)
  · exact shard_limit_le shards (parseEnvUsize_le proxyStep (by decide)) (by decide)
  · exact shard_limit_le shards (parseEnvUsize_le kernelCh (by decide)) (by decide)
  · exact shard_limit_le shards (parseEnvUsize_le net (by decide)) (by decide)

/-- The free list holds the indices that are not live, once each. -/
def SlotPool.FreeExact {T : Type} (pool : SlotPool T) : Prop :=
  pool.free.Nodup ∧ ∀ idx, idx ∈ pool.free ↔ idx < pool.capacity ∧ pool.get idx = none

namespace Run

variable {r r' : Run}

/-- The coll of the event is in a slot. -/
def CollLive (r : Run) (id : ℕ) : Prop :=
  ∃ idx coll, r.pools.collPool.get idx = some coll ∧ coll.id = id

/-- The rows of the coll of the event, and its entries among the filtered ones. -/
def collRows (r : Run) (id : ℕ) : ℕ :=
  r.pools.batch.collPerf.countP (·.id == id) + r.pools.ledger.collsFiltered.count id

structure Conserved (r : Run) : Prop where
  coll_free : r.pools.collPool.FreeExact
  proxy_free : r.pools.proxyPool.FreeExact
  step_free : r.pools.stepPool.FreeExact
  kch_free : r.pools.kchPool.FreeExact
  net_free : r.pools.netPool.FreeExact
  liveChildren : ∀ idx coll, r.pools.collPool.get idx = some coll →
    coll.liveChildren = r.pools.children idx
  proxy_parent : ∀ k slot, r.pools.proxyPool.get k = some slot →
    slot.op.parentColl = invalidIdx ∧ slot.op.parent = none ∨
      ∃ coll, r.pools.collPool.get slot.op.parentColl = some coll ∧
        slot.op.parent = some coll.id
  kch_parent : ∀ k slot, r.pools.kchPool.get k = some slot →
    ∃ coll, r.pools.collPool.get slot.parentColl = some coll ∧ slot.parent = coll.id
  waiting : ∀ idx coll, r.pools.collPool.get idx = some coll →
    coll.stopped = true → 0 < r.pools.children idx
  colls : ∀ id ∈ r.pools.ledger.collsStarted,
    r.CollLive id ∧ r.collRows id = 0 ∨ ¬ r.CollLive id ∧ r.collRows id = 1
  ops : r.pools.ledger.opsStopped.length = r.pools.batch.proxyOps.length +
    r.pools.collPool.sum (·.pending.length) + r.pools.ledger.opsFiltered.length
  filtered : r.pools.counters.filtered =
    r.pools.ledger.collsFiltered.length + r.pools.ledger.opsFiltered.length

/-- No handle is stopped twice. -/
def StopsOnce (calls : List Call) : Prop :=
  (calls.filterMap fun
    | .stopEvent id _ => some id
    | _ => none).Nodup

/-- What a call that counts its child keeps. -/
def Inv (r : Run) : Prop := r.pools.Inv r.events.length

theorem Inv.conserved (h : r.Inv) : r.Conserved := by
  obtain ⟨sound, linked, balanced⟩ := h
  constructor
  · exact ⟨sound.coll.nodup, sound.coll.mem_free⟩
  · exact ⟨sound.proxy.nodup, sound.proxy.mem_free⟩
  · exact ⟨sound.step.nodup, sound.step.mem_free⟩
  · exact ⟨sound.kch.nodup, sound.kch.mem_free⟩
  · exact ⟨sound.net.nodup, sound.net.mem_free⟩
  · exact linked.liveChildren
  · exact linked.proxy_parent
  · exact linked.kch_parent
  · intro idx coll hget hstopped
    have hwaiting := linked.waiting idx coll hget
    rw [CollSlot.isComplete, hstopped, Bool.true_and, beq_eq_false_iff_ne,
      linked.liveChildren idx coll hget] at hwaiting
    exact Nat.pos_of_ne_zero hwaiting
  · intro id hid
    have htold := balanced.colls (· == id)
    have hone : r.pools.ledger.collsStarted.countP (· == id) = 1 :=
      List.count_eq_one_of_mem balanced.nodup hid
    have hrows : r.collRows id + r.pools.collPool.count (·.id == id) = 1 := by
      rw [← hone, ← htold]
      rfl
    by_cases hlive : r.CollLive id
    · obtain ⟨idx, coll, hget, hcoll⟩ := hlive
      have hpos : 0 < r.pools.collPool.count (·.id == id) :=
        SlotPool.count_pos hget (beq_iff_eq.mpr hcoll)
      exact .inl ⟨⟨idx, coll, hget, hcoll⟩, by omega⟩
    · have hzero : r.pools.collPool.count (·.id == id) = 0 := by
        refine SlotPool.count_eq_zero fun idx coll hget => beq_eq_false_iff_ne.mpr fun heq => ?_
        exact hlive ⟨idx, coll, hget, heq⟩
      exact .inr ⟨hlive, by omega⟩
  · have hops := balanced.ops fun _ => true
    simp only [Pools.held, List.countP_true] at hops
    exact hops.symm
  · exact balanced.filtered

instance (r : Run) (call : Call) : Decidable (r.Counted call) :=
  match call with
  | .startEvent (.ProxyOp _ _ _ _ _ _) _ => inferInstanceAs (Decidable (_ → ∀ coll ∈ _, _))
  | .startEvent (.KernelCh _ _ _) _ => inferInstanceAs (Decidable (_ → ∀ coll ∈ _, _))
  | .startEvent (.Coll _ _) _ => .isTrue trivial
  | .startEvent (.ProxyStep _ _) _ => .isTrue trivial
  | .startEvent (.NetPlugin _ _) _ => .isTrue trivial
  | .startEvent .Group _ => .isTrue trivial
  | .startEvent .Ignored _ => .isTrue trivial
  | .recordState _ _ _ _ => .isTrue trivial
  | .stopEvent _ _ => .isTrue trivial
  | .collectInflight _ _ => .isTrue trivial
  | .drainPending => .isTrue trivial

theorem collAt_of_handle {parent : Option ℕ} {handle : Handle}
    (h : r.handleOf parent = some handle) :
    r.collAt parent = handle.asColl.bind r.pools.collPool.get := by
  rw [collAt, h, Option.bind_some]

theorem Counted.counts {event : ParsedEvent (Option ℕ)} {now : ℤ} {passed : ParsedEvent Handle}
    (h : r.Counted (.startEvent event now)) (hpassed : event.resolve r.handleOf = some passed) :
    r.pools.Counts passed := by
  cases event with
  | ProxyOp parent rank channelId peer nSteps isSend =>
      obtain ⟨handle, hhandle, rfl⟩ := Option.map_eq_some_iff.mp hpassed
      intro hfree
      rw [← collAt_of_handle hhandle]
      exact h hfree
  | KernelCh parent channelId gpuStartPtimer =>
      obtain ⟨handle, hhandle, rfl⟩ := Option.map_eq_some_iff.mp hpassed
      intro hfree
      rw [← collAt_of_handle hhandle]
      exact h hfree
  | ProxyStep parent step =>
      obtain ⟨handle, hhandle, rfl⟩ := Option.map_eq_some_iff.mp hpassed
      trivial
  | Coll ctx perfMeta => cases hpassed; trivial
  | NetPlugin rank qp => cases hpassed; trivial
  | Group => cases hpassed; trivial
  | Ignored => cases hpassed; trivial

/-- A step that counts its child keeps the books. -/
theorem inv_step (h : r.Inv) {call : Call} (hcounted : r.Counted call)
    (hstep : r.step S call = some r') : r'.Inv := by
  cases call with
  | startEvent event now =>
      obtain ⟨passed, hpassed, rfl⟩ := Option.map_eq_some_iff.mp hstep
      simp only [Inv, List.length_append, List.length_singleton]
      exact Pools.Inv.startEvent h (hcounted.counts hpassed) now
  | recordState id state args now =>
      obtain ⟨handle, -, rfl⟩ := Option.map_eq_some_iff.mp hstep
      exact Pools.Inv.recordState h handle state args now
  | stopEvent id now =>
      obtain ⟨handle, -, rfl⟩ := Option.map_eq_some_iff.mp hstep
      exact Pools.Inv.stopEvent h handle now
  | collectInflight min_age_ns now =>
      obtain rfl := Option.some.inj hstep
      exact Pools.Inv.drain h _
  | drainPending =>
      obtain rfl := Option.some.inj hstep
      exact Pools.Inv.drain h _

/-- As long as every stored child can be counted, the books of the pools are right. -/
theorem conserved_run (S : Setting) (coll proxyOp proxyStep kernelCh net : Option ℕ)
    (shards : ℕ) {calls : List Call} {r : Run}
    (hcounted : Meets (step S) Counted
      (new (configured coll proxyOp proxyStep kernelCh net shards)) calls)
    (hrun : exec (step S) (new (configured coll proxyOp proxyStep kernelCh net shards)) calls =
      some r) : r.Conserved := by
  have hstart : (new (configured coll proxyOp proxyStep kernelCh net shards)).Inv :=
    inv_configured coll proxyOp proxyStep kernelCh net shards
  have hinv : r.Inv :=
    exec_invariant (fun r call r' hinv hcounted => inv_step hinv hcounted) hstart hcounted hrun
  exact hinv.conserved

/-- A coll with a proxy op, its step and a kernel event; the coll is stopped before its children. -/
def exchange : List Call :=
  [.startEvent (.Coll ⟨0, 1, 2, 0, []⟩ ⟨false, -1, 1024, 4096, [], [], [], 1⟩) 1,
    .startEvent (.ProxyOp (some 0) 0 0 1 4 1) 2, .startEvent (.ProxyStep (some 1) 0) 3,
    .startEvent (.KernelCh (some 0) 0 10) 4, .recordState 2 20 (.ProxyStepV4 512) 5,
    .stopEvent 0 6, .stopEvent 2 7, .stopEvent 1 8, .collectInflight 0 9, .stopEvent 3 10,
    .drainPending]

theorem conserved_run_exchange :
    ∃ r, exec (step ⟨0, 0⟩) (new (configured none none none none none 64)) exchange = some r ∧
      r.Conserved := by
  have hrun : (exec (step ⟨0, 0⟩) (new (configured none none none none none 64))
      exchange).isSome = true := by decide +kernel
  obtain ⟨r, hr⟩ := Option.isSome_iff_exists.mp hrun
  exact ⟨r, hr, conserved_run ⟨0, 0⟩ none none none none none 64 (by decide +kernel) hr⟩

/-- Event 0 is a coll in slot 0 with so many live children. -/
structure Loaded (r : Run) (children room : ℕ) : Prop where
  inv : r.Inv
  handle : r.handleOf (some 0) = some (.coll 0)
  coll : ∃ coll, r.pools.collPool.get 0 = some coll ∧ coll.liveChildren = children
  free : r.pools.proxyPool.free.length = room

/-- A coll of 4096 bytes. -/
def collCall : Call :=
  .startEvent (.Coll ⟨0, 1, 2, 0, []⟩ ⟨false, -1, 1024, 4096, [], [], [], 1⟩) 1

/-- A proxy op of event 0. -/
def childCall : Call := .startEvent (.ProxyOp (some 0) 0 0 1 0 1) 2

theorem step_start {event : ParsedEvent (Option ℕ)} {passed : ParsedEvent Handle} {now : ℤ}
    {t : Pools} {handle : Handle} (hpassed : event.resolve r.handleOf = some passed)
    (hstart : r.pools.startEvent S r.events.length passed now = (t, handle)) :
    r.step S (.startEvent event now) = some ⟨t, r.events ++ [⟨event, handle, r.owner event⟩]⟩ := by
  rw [step, hpassed, Option.map_some, hstart]

theorem loaded_coll {limits : PoolLimits} (h : (new limits).Inv) (hcoll : 0 < limits.coll) :
    ∃ r, (new limits).step S collCall = some r ∧ r.Loaded 0 limits.proxyOp := by
  have hfree : (new limits).pools.collPool.free =
      0 :: (List.range (limits.coll - 1)).map Nat.succ := by
    rw [← List.range_succ_eq_map, Nat.sub_add_cancel hcoll]
    rfl
  obtain ⟨t, hstart, hcoll, hproxy⟩ := Pools.startColl_stored (S := S) (n := 0) h.sound hfree
    ⟨0, 1, 2, 0, []⟩ ⟨false, -1, 1024, 4096, [], [], [], 1⟩ 1
  have hpassed : (ParsedEvent.Coll ⟨0, 1, 2, 0, []⟩ ⟨false, -1, 1024, 4096, [], [], [], 1⟩ :
      ParsedEvent (Option ℕ)).resolve (new limits).handleOf = some (.Coll _ _) := rfl
  have hstep := step_start hpassed hstart
  have hcounted : (new limits).Counted collCall := trivial
  refine ⟨_, hstep, inv_step h hcounted hstep, rfl, hcoll, ?_⟩
  rw [hproxy]
  exact List.length_range

/-- A proxy op of event 0 is stored with its coll. -/
theorem Loaded.stored {k room : ℕ} (h : r.Loaded k (room + 1)) :
    ∃ r', r.step S childCall = some r' ∧ r'.handleOf (some 0) = some (.coll 0) ∧
      (∃ coll, r'.pools.collPool.get 0 = some coll ∧ coll.liveChildren = saturatingSucc k) ∧
      r'.pools.children 0 = k + 1 ∧ r'.pools.proxyPool.free.length = room := by
  obtain ⟨coll, hcoll, hlive⟩ := h.coll
  obtain ⟨top, rest, hfree⟩ := List.exists_cons_of_length_eq_add_one h.free
  obtain ⟨t, hstart, hget, hchildren, hrest⟩ := Pools.startProxyOp_live (S := S)
    (n := r.events.length) h.inv.sound hcoll hfree 0 0 1 0 1 2
  have hpassed : (ParsedEvent.ProxyOp (some 0) 0 0 1 0 1).resolve r.handleOf =
      some (.ProxyOp (.coll 0) 0 0 1 0 1) := by
    rw [ParsedEvent.resolve, h.handle, Option.map_some]
  have hpair : r.pools.startEvent S r.events.length (.ProxyOp (.coll 0) 0 0 1 0 1) 2 =
      (t, (r.pools.startEvent S r.events.length (.ProxyOp (.coll 0) 0 0 1 0 1) 2).2) := by
    rw [← hstart]
    rfl
  refine ⟨_, step_start hpassed hpair, ?_, ⟨_, hget, by rw [hlive]⟩, ?_, ?_⟩
  · obtain ⟨event, hevent, hhandle⟩ := Option.map_eq_some_iff.mp h.handle
    rw [handleOf, List.getElem?_append_left (List.getElem?_eq_some_iff.mp hevent).1, hevent]
    exact congrArg some hhandle
  · rw [hchildren, ← h.inv.linked.liveChildren 0 coll hcoll, hlive]
  · rw [hrest]
    have hlength := h.free
    rw [hfree, List.length_cons] at hlength
    exact Nat.succ.inj hlength

/-- One child more, as long as there is room in the counter. -/
theorem Loaded.child {k room : ℕ} (h : r.Loaded k (room + 1)) (hk : k < 2 ^ 16 - 1) :
    ∃ r', r.step S childCall = some r' ∧ r'.Loaded (k + 1) room := by
  obtain ⟨r', hstep, hhandle, ⟨coll, hcoll, hlive⟩, -, hfree⟩ := h.stored (S := S)
  have hcounted : r.Counted childCall := by
    intro hroom coll hcoll
    obtain ⟨coll', hcoll', hlive'⟩ := h.coll
    rw [collAt_of_handle h.handle] at hcoll
    obtain rfl := Option.some.inj (hcoll'.symm.trans hcoll)
    rw [hlive']
    exact hk
  rw [Pools.saturatingSucc_of_lt hk] at hlive
  exact ⟨r', hstep, inv_step h.inv hcounted hstep, hhandle, ⟨coll, hcoll, hlive⟩, hfree⟩

theorem Loaded.children {k room : ℕ} (n : ℕ) (h : r.Loaded k (n + room))
    (hk : k + n ≤ 2 ^ 16 - 1) :
    ∃ r', exec (step S) r (List.replicate n childCall) = some r' ∧ r'.Loaded (k + n) room := by
  induction n generalizing r k with
  | zero => exact ⟨r, rfl, by simpa using h⟩
  | succ n ih =>
      have hroom : n + 1 + room = (n + room) + 1 := by omega
      obtain ⟨r', hstep, hloaded⟩ := Loaded.child (S := S) (hroom ▸ h) (by omega)
      obtain ⟨r'', hrun, hloaded'⟩ := ih hloaded (by omega)
      refine ⟨r'', ?_, ?_⟩
      · rw [List.replicate_succ, exec_cons, hstep, Option.bind_some, hrun]
      · have hk' : k + 1 + n = k + (n + 1) := by omega
        exact hk' ▸ hloaded'

theorem stopsOnce_children (n : ℕ) :
    StopsOnce (collCall :: List.replicate n childCall ++ [childCall]) := by
  simp [StopsOnce, collCall, childCall]

/-- A coll gets 2^16 children, one more than it can count. -/
theorem uncounted_run :
    ∃ calls r, StopsOnce calls ∧
      exec (step ⟨0, 0⟩) (new (configured none (some (2 ^ 20)) none none none 1)) calls = some r ∧
        ¬ r.Conserved := by
  have hinv : (new (configured none (some (2 ^ 20)) none none none 1)).Inv :=
    inv_configured none (some (2 ^ 20)) none none none 1
  obtain ⟨r₁, hcoll, hloaded⟩ := loaded_coll (S := ⟨0, 0⟩) hinv (by decide)
  have hroom : (configured none (some (2 ^ 20)) none none none 1).proxyOp =
      (2 ^ 16 - 1) + (2 ^ 20 - 2 ^ 16 + 1) := by decide
  rw [hroom] at hloaded
  obtain ⟨r₂, hchildren, hfull⟩ := hloaded.children (S := ⟨0, 0⟩) (2 ^ 16 - 1) (by omega)
  rw [Nat.zero_add] at hfull
  obtain ⟨r₃, hlast, -, ⟨coll, hget, hlive⟩, hcount, -⟩ := hfull.stored (S := ⟨0, 0⟩)
  refine ⟨collCall :: List.replicate (2 ^ 16 - 1) childCall ++ [childCall], r₃, ?_, ?_, ?_⟩
  · exact stopsOnce_children (2 ^ 16 - 1)
  · rw [List.cons_append, exec_cons, hcoll, Option.bind_some, exec_append, hchildren,
      Option.bind_some, exec_cons, hlast]
    rfl
  · intro hconserved
    have heq := hconserved.liveChildren 0 coll hget
    rw [hlive, hcount, saturatingSucc] at heq
    omega

end Run

end Probing.Nccl
