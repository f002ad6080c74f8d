import Probing.Nccl.State

/-!
# Runs of the profiler

NCCL passes back the handles it got. A call names the event whose handle it passes, and the
run remembers which event each handle was for, also when its slot is used again.

A stopped proxy op has one row: written, waiting with its coll, or filtered. A started coll is
live, has its row, or is filtered. No call changes the two sums but the stop of a proxy op and
the start of a coll.
-/

namespace Probing.Nccl

namespace ParsedEvent

variable {P Q : Type}

/-- The event with its parent looked up. -/
def resolve (handleOf : P → Option Q) : ParsedEvent P → Option (ParsedEvent Q)
  | Coll ctx perfMeta => some (.Coll ctx perfMeta)
  | ProxyOp parentObj rank channelId peer nSteps isSend =>
      (handleOf parentObj).map (.ProxyOp · rank channelId peer nSteps isSend)
  | ProxyStep parentObj step => (handleOf parentObj).map (.ProxyStep · step)
  | KernelCh parentObj channelId gpuStartPtimer =>
      (handleOf parentObj).map (.KernelCh · channelId gpuStartPtimer)
  | NetPlugin rank qp => some (.NetPlugin rank qp)
  | Group => some .Group
  | Ignored => some .Ignored

end ParsedEvent

/-- A started event, the handle that NCCL got for it, and the parent it was given, if that was
still live. -/
structure Event where
  event : ParsedEvent (Option ℕ)
  handle : Handle
  owner : Option ℕ
  deriving DecidableEq

/-- The pools, and the events by their numbers. -/
structure Run where
  pools : Pools
  events : List Event
  deriving DecidableEq

/-- The calls of NCCL, of the watchdog and of the end. -/
inductive Call where
  | startEvent (event : ParsedEvent (Option ℕ)) (now : ℤ)
  | recordState (id : ℕ) (state : Int32) (args : StateArgs) (now : ℤ)
  | stopEvent (id : ℕ) (now : ℤ)
  | collectInflight (min_age_ns now : ℤ)
  | drainPending

namespace Run

variable (S : Setting)

def new (limits : PoolLimits) : Run := ⟨.new limits, []⟩

/-- The handle passed for an event, or for none. -/
def handleOf (r : Run) : Option ℕ → Option Handle
  | none => some .null
  | some id => (r.events[id]?).map (·.handle)

/-- The coll in the slot that the handle of an event points to. -/
def collAt (r : Run) (id : Option ℕ) : Option CollSlot :=
  ((r.handleOf id).bind Handle.asColl).bind r.pools.collPool.get

def proxyAt (r : Run) (id : Option ℕ) : Option ProxyOpSlot :=
  ((r.handleOf id).bind Handle.asProxyOp).bind r.pools.proxyPool.get

def stepAt (r : Run) (id : Option ℕ) : Option ProxyStepSlot :=
  ((r.handleOf id).bind Handle.asProxyStep).bind r.pools.stepPool.get

/-- The parent that the event is given, if it is live: the slot is still its own. -/
def owner (r : Run) : ParsedEvent (Option ℕ) → Option ℕ
  | .ProxyOp parent _ _ _ _ _ => parent.filter fun id => (r.collAt parent).any (·.id == id)
  | .KernelCh parent _ _ => parent.filter fun id => (r.collAt parent).any (·.id == id)
  | .ProxyStep parent _ => parent.filter fun id => (r.proxyAt parent).any (·.id == id)
  | _ => none

def step (r : Run) : Call → Option Run
  | .startEvent event now =>
      (event.resolve r.handleOf).map fun passed =>
        let (pools, handle) := r.pools.startEvent S r.events.length passed now
        ⟨pools, r.events ++ [⟨event, handle, r.owner event⟩]⟩
  | .recordState id state args now =>
      (r.handleOf (some id)).map fun handle =>
        { r with pools := r.pools.recordState handle state args now }
  | .stopEvent id now =>
      (r.handleOf (some id)).map fun handle =>
        { r with pools := r.pools.stopEvent S handle now }
  | .collectInflight min_age_ns now =>
      some { r with pools := (r.pools.collectInflight min_age_ns now).2 }
  | .drainPending => some { r with pools := r.pools.drainPending }

/-- A child that is stored can be counted: its coll has not yet as many as the counter holds. -/
def Counted (r : Run) : Call → Prop
  | .startEvent (.ProxyOp parent _ _ _ _ _) _ => r.pools.proxyPool.free ≠ [] →
      ∀ coll ∈ r.collAt parent, coll.liveChildren < 2 ^ 16 - 1
  | .startEvent (.KernelCh parent _ _) _ => r.pools.kchPool.free ≠ [] →
      ∀ coll ∈ r.collAt parent, coll.liveChildren < 2 ^ 16 - 1
  | _ => True

/-- The slot of a parent has not been given to another event: of a coll when a child starts, of
a proxy op when a step starts and when it stops. -/
def Unreused (r : Run) : Call → Prop
  | .startEvent (.ProxyOp parent _ _ _ _ _) _ => ∀ coll ∈ r.collAt parent, parent = some coll.id
  | .startEvent (.KernelCh parent _ _) _ => ∀ coll ∈ r.collAt parent, parent = some coll.id
  | .startEvent (.ProxyStep parent _) _ => r.pools.stepPool.free ≠ [] →
      ∀ proxy ∈ r.proxyAt parent, parent = some proxy.id
  | .stopEvent id _ => ∀ slot ∈ r.stepAt (some id),
      ∀ proxy ∈ r.pools.proxyPool.get slot.parentProxy, slot.parent = some proxy.id
  | _ => True

end Run

namespace SlotPool

variable {T : Type} {pool : SlotPool T} {idx : ℕ}

/-- A change that keeps the weights keeps their sum. -/
theorem sum_modify_eq {change : T → T} {weight : T → ℕ} (h : ∀ v, weight (change v) = weight v) :
    (pool.modify idx change).sum weight = pool.sum weight := by
  cases hv : pool.get idx with
  | none => rw [modify_of_none hv]
  | some v =>
      have hsum := sum_modify hv change weight
      rw [h v] at hsum
      omega

theorem count_modify_eq {change : T → T} {p : T → Bool} (h : ∀ v, p (change v) = p v) :
    (pool.modify idx change).count p = pool.count p :=
  sum_modify_eq fun v => by rw [h v]

end SlotPool

namespace Pools

/-- The rows of proxy ops, by the numbers of the ops that satisfy a condition. -/
def held (s : Pools) (p : ℕ → Bool) : ℕ :=
  s.batch.proxyOps.countP (p ·.id) + s.collPool.sum (·.pending.countP (p ·.id)) +
    s.ledger.opsFiltered.countP p

/-- The colls, live or told of, likewise. -/
def told (s : Pools) (p : ℕ → Bool) : ℕ :=
  s.batch.collPerf.countP (p ·.id) + s.ledger.collsFiltered.countP p +
    s.collPool.count (p ·.id)

/-- The counter of what was filtered. -/
def Filtered (s : Pools) : Prop :=
  s.counters.filtered = s.ledger.collsFiltered.length + s.ledger.opsFiltered.length

/-- Every stopped proxy op and every started coll is accounted for; the started colls are among
the first events. -/
structure Balanced (s : Pools) (events : ℕ) : Prop where
  ops : ∀ p, s.held p = s.ledger.opsStopped.countP p
  colls : ∀ p, s.told p = s.ledger.collsStarted.countP p
  filtered : s.Filtered
  nodup : s.ledger.collsStarted.Nodup
  below : ∀ id ∈ s.ledger.collsStarted, id < events

/-- Rows are moved, and none is lost or made. -/
structure Carries (s t : Pools) : Prop where
  held : ∀ p, t.held p = s.held p
  told : ∀ p, t.told p = s.told p
  filtered : s.Filtered → t.Filtered
  opsStopped : t.ledger.opsStopped = s.ledger.opsStopped
  collsStarted : t.ledger.collsStarted = s.ledger.collsStarted

variable {S : Setting} {s t u : Pools}

theorem Carries.refl (s : Pools) : s.Carries s := ⟨fun _ => rfl, fun _ => rfl, id, rfl, rfl⟩

theorem Carries.trans (h : s.Carries t) (h' : t.Carries u) : s.Carries u where
  held p := (h'.held p).trans (h.held p)
  told p := (h'.told p).trans (h.told p)
  filtered hs := h'.filtered (h.filtered hs)
  opsStopped := h'.opsStopped.trans h.opsStopped
  collsStarted := h'.collsStarted.trans h.collsStarted

theorem Carries.balanced {n : ℕ} (h : s.Carries t) (hs : s.Balanced n) : t.Balanced n where
  ops p := by rw [h.held, h.opsStopped, hs.ops]
  colls p := by rw [h.told, h.collsStarted, hs.colls]
  filtered := h.filtered hs.filtered
  nodup := h.collsStarted ▸ hs.nodup
  below := h.collsStarted ▸ hs.below

/-- Pools that differ in neither colls nor rows. -/
theorem Carries.of_eq (hcoll : t.collPool = s.collPool) (hcoll_perf : t.batch.collPerf =
    s.batch.collPerf) (hproxy : t.batch.proxyOps = s.batch.proxyOps)
    (hledger : t.ledger = s.ledger) (hfiltered : t.counters.filtered = s.counters.filtered) :
    s.Carries t := by
  constructor
  · intro p
    rw [Pools.held, Pools.held, hproxy, hcoll, hledger]
  · intro p
    rw [Pools.told, Pools.told, hcoll_perf, hcoll, hledger]
  · intro hs
    rw [Filtered, hfiltered, hledger]
    exact hs
  · rw [hledger]
  · rw [hledger]

/-- A change of a coll that keeps its number and its rows. -/
theorem Carries.modify {idx : ℕ} {change : CollSlot → CollSlot}
    (hcoll : t.collPool = s.collPool.modify idx change)
    (hid : ∀ coll, (change coll).id = coll.id)
    (hpending : ∀ coll, (change coll).pending = coll.pending)
    (hbatch : t.batch = s.batch) (hledger : t.ledger = s.ledger)
    (hfiltered : t.counters.filtered = s.counters.filtered) : s.Carries t := by
  constructor
  · intro p
    rw [Pools.held, Pools.held, hcoll, hbatch, hledger,
      SlotPool.sum_modify_eq fun coll => by rw [hpending]]
  · intro p
    rw [Pools.told, Pools.told, hcoll, hbatch, hledger,
      SlotPool.count_modify_eq fun coll => by rw [hid]]
  · intro hs
    rw [Filtered, hfiltered, hledger]
    exact hs
  · rw [hledger]
  · rw [hledger]

theorem carries_notePoolExhausted (parentColl id : ℕ) :
    s.Carries (s.notePoolExhausted parentColl id) := by
  rw [notePoolExhausted]
  split
  · exact .of_eq rfl rfl rfl rfl rfl
  · exact .modify rfl (fun _ => rfl) (fun _ => rfl) rfl rfl rfl

theorem carries_childStarted (parentColl : ℕ) : s.Carries (s.childStarted parentColl) :=
  .modify rfl (fun _ => rfl) (fun _ => rfl) rfl rfl rfl

theorem carries_childStopped (parentColl id : ℕ) {observe : CollSlot → CollSlot}
    (hid : ∀ coll, (observe coll).id = coll.id)
    (hpending : ∀ coll, (observe coll).pending = coll.pending) :
    s.Carries (s.childStopped parentColl id observe) := by
  rw [childStopped]
  split
  · exact .refl s
  · exact .modify rfl hid hpending rfl rfl rfl

/-- A coll that completes leaves its row or is filtered, and so do the rows that wait with it. -/
theorem carries_maybeCompleteColl (coll_idx : ℕ) (now : ℤ) :
    s.Carries (s.maybeCompleteColl S coll_idx now) := by
  rw [maybeCompleteColl]
  split
  · exact .refl s
  split
  · exact .refl s
  next coll hcoll =>
  split
  · exact .refl s
  have hpending (p : ℕ → Bool) := SlotPool.sum_freeIdx hcoll fun coll =>
    coll.pending.countP (p ·.id)
  have hid (p : ℕ → Bool) := SlotPool.sum_freeIdx hcoll fun coll => if p coll.id then 1 else 0
  simp only
  split
  · constructor
    · intro p
      have hp := hpending p
      simp only [Pools.held, List.countP_append]
      omega
    · intro p
      have hp := hid p
      simp only [Pools.told, SlotPool.count, List.countP_append, List.countP_singleton,
        CollSlot.collPerfRow]
      omega
    · exact fun hs => hs
    · rfl
    · rfl
  · constructor
    · intro p
      have hp := hpending p
      have hmap : (coll.pending.map (·.id)).countP p = coll.pending.countP (p ·.id) := by
        rw [List.countP_map]
        rfl
      simp only [Pools.held, List.countP_append, hmap]
      omega
    · intro p
      have hp := hid p
      simp only [Pools.told, SlotPool.count, List.countP_append, List.countP_singleton]
      omega
    · intro hs
      rw [Filtered] at hs ⊢
      simp only [List.length_append, List.length_singleton, List.length_map]
      omega
    · rfl
    · rfl

/-- The waiting rows of a coll are written. -/
theorem carries_drainColl (drains : CollSlot → Bool) (idx : ℕ) :
    s.Carries (s.drainColl drains idx) := by
  rw [drainColl]
  split
  next coll hcoll =>
    split
    · constructor
      · intro p
        have hp := SlotPool.sum_modify hcoll (fun coll => { coll with pending := [] })
          fun coll => coll.pending.countP (p ·.id)
        simp only [List.countP_nil] at hp
        simp only [Pools.held, emitRows, List.countP_append]
        omega
      · intro p
        have hcount : (s.collPool.modify idx fun coll => { coll with pending := [] }).count
            (p ·.id) = s.collPool.count (p ·.id) := SlotPool.count_modify_eq fun _ => rfl
        simp only [Pools.told, emitRows, hcount]
      · exact fun hs => hs
      · rfl
      · rfl
    · exact .refl s
  · exact .refl s

theorem carries_drain (drains : CollSlot → Bool) : s.Carries (s.drain drains) := by
  rw [drain]
  generalize List.range s.collPool.capacity = indices
  induction indices generalizing s with
  | nil => exact .refl s
  | cons idx rest ih => exact (carries_drainColl drains idx).trans ih

/-- A row is added: to the rows, to those that wait, or to the filtered ones. -/
structure Adds (s t : Pools) (id : ℕ) : Prop where
  held : ∀ p, t.held p = s.held p + if p id then 1 else 0
  told : ∀ p, t.told p = s.told p
  filtered : s.Filtered → t.Filtered
  opsStopped : t.ledger.opsStopped = s.ledger.opsStopped
  collsStarted : t.ledger.collsStarted = s.ledger.collsStarted

theorem adds_filterRow (row : CompletedProxyOp) : s.Adds (s.filterRow row) row.id := by
  constructor
  · intro p
    simp only [Pools.held, filterRow, List.countP_append, List.countP_singleton]
    omega
  · exact fun p => rfl
  · intro hs
    simp only [Filtered, filterRow, List.length_append, List.length_singleton] at hs ⊢
    omega
  · rfl
  · rfl

theorem adds_emit_row (row : CompletedProxyOp) : s.Adds (s.emitRows [row]) row.id := by
  constructor
  · intro p
    simp only [Pools.held, emitRows, List.countP_append, List.countP_singleton]
    omega
  · exact fun p => rfl
  · exact fun hs => hs
  · rfl
  · rfl

/-- The rows that wait with one coll are replaced, and some rows are written instead. -/
theorem adds_pending {idx : ℕ} {coll : CollSlot} (hcoll : s.collPool.get idx = some coll)
    {row : CompletedProxyOp} {written waiting : List CompletedProxyOp}
    (hrows : written ++ waiting = coll.pending ++ [row]) :
    s.Adds { s.emitRows written with
      collPool := s.collPool.modify idx fun _ => { coll with pending := waiting } } row.id := by
  constructor
  · intro p
    have hp := SlotPool.sum_modify hcoll (fun _ => { coll with pending := waiting })
      fun coll => coll.pending.countP (p ·.id)
    have hcount := congrArg (List.countP (p ·.id)) hrows
    rw [List.countP_append, List.countP_append, List.countP_singleton] at hcount
    simp only [Pools.held, emitRows, List.countP_append] at hp ⊢
    omega
  · intro p
    have hp := SlotPool.sum_modify hcoll (fun _ => { coll with pending := waiting })
      fun coll => if p coll.id then 1 else 0
    simp only [Pools.told, emitRows, SlotPool.count] at hp ⊢
    omega
  · exact fun hs => hs
  · rfl
  · rfl

/-- An empty buffer has room. -/
theorem pushPending_nil (coll : CollSlot) (row : CompletedProxyOp) :
    { coll with pending := [] }.pushPending row = some { coll with pending := [row] } := by
  rw [CollSlot.pushPending, if_neg (by simp [maxPendingPerColl]), List.nil_append]

/-- The row of a proxy op is written, waits with its coll, or is filtered. -/
theorem adds_flushProxyRow (parentColl : ℕ) (row : CompletedProxyOp) :
    s.Adds (s.flushProxyRow S parentColl row) row.id := by
  rw [flushProxyRow]
  split
  next coll hcoll =>
    have hcoll : s.collPool.get parentColl = some coll := by
      split at hcoll
      · exact (nomatch hcoll)
      · exact hcoll
    split
    · exact adds_filterRow row
    split
    next coll' hpush =>
      rw [CollSlot.pushPending] at hpush
      split at hpush
      · exact (nomatch hpush)
      obtain rfl := Option.some.inj hpush
      have hadds := adds_pending hcoll (List.nil_append (coll.pending ++ [row]))
      simpa only [emitRows, List.append_nil] using hadds
    next hfull =>
      simp only [pushPending_nil]
      exact adds_pending hcoll rfl
  next hnone =>
    split
    · exact adds_filterRow row
    · exact adds_emit_row row

end Pools

end Probing.Nccl
