import Probing.Core.Run
import Probing.Nccl.Events

/-!
# The slot pools of the profiler

`start_event`, `record_state` and `stop_event` on the pools of one shard, and the two ways in
which buffered rows are drained. A coll lives until it is stopped and has no live children.
-/

namespace Probing.Nccl

/-- A pointer that the plugin returned to NCCL; a slot is named by its pool and its index. -/
inductive Handle where
  | null
  | group
  | coll (ptr : ℕ)
  | proxyOp (ptr : ℕ)
  | proxyStep (ptr : ℕ)
  | kernelCh (ptr : ℕ)
  | net (ptr : ℕ)
  deriving DecidableEq

/-- The parents are of a type of their own: pointers here, events in a run. -/
inductive ParsedEvent (P : Type) where
  | Coll (ctx : CollContext) (perfMeta : CollPerfMeta)
  | ProxyOp (parentObj : P) (rank channelId peer nSteps isSend : Int32)
  | ProxyStep (parentObj : P) (step : Int32)
  | KernelCh (parentObj : P) (channelId : Int32) (gpuStartPtimer : UInt64)
  | NetPlugin (rank : Int32) (qp : Option IbQp)
  | Group
  | Ignored
  deriving DecidableEq

inductive StateArgs where
  | None
  | ProxyOpV3 (trans_size : UInt64) (steps : Int32)
  | ProxyStepV4 (trans_size : UInt64)
  | KernelChStop (p_timer : UInt64)
  deriving DecidableEq

structure PoolLimits where
  coll : ℕ
  proxyOp : ℕ
  proxyStep : ℕ
  kernelCh : ℕ
  net : ℕ
  deriving DecidableEq

/-- A limit from the environment, if one is given there. -/
def parseEnvUsize (value : Option ℕ) (default : ℕ) : ℕ :=
  (value.map fun v => max 64 (min v 1048576)).getD default

def poolLimits (coll proxyOp proxyStep kernelCh net : Option ℕ) : PoolLimits where
  coll := parseEnvUsize coll 512
  proxyOp := parseEnvUsize proxyOp 8192
  proxyStep := parseEnvUsize proxyStep 32768
  kernelCh := parseEnvUsize kernelCh 8192
  net := parseEnvUsize net 4096

def perShardLimits (total : PoolLimits) (shards : ℕ) : PoolLimits where
  coll := max (total.coll / max shards 1) 32
  proxyOp := max (total.proxyOp / max shards 1) 256
  proxyStep := max (total.proxyStep / max shards 1) 1024
  kernelCh := max (total.kernelCh / max shards 1) 256
  net := max (total.net / max shards 1) 128

structure EventCounters where
  coll : ℕ
  p2p : ℕ
  proxyOp : ℕ
  proxyStep : ℕ
  kernelCh : ℕ
  netPlugin : ℕ
  poolExhausted : ℕ
  filtered : ℕ
  deriving DecidableEq

structure FlushBatch where
  collPerf : List CompletedCollPerf
  proxyOps : List CompletedProxyOp
  netQp : List CompletedNetQp
  deriving DecidableEq

/-- Which events the counters stand for; like the numbers in the slots this is not in the
source. -/
structure Ledger where
  collsStarted : List ℕ
  collsFiltered : List ℕ
  opsStopped : List ℕ
  opsFiltered : List ℕ
  deriving DecidableEq

/-- The pools, with the counters and the rows of all calls. -/
structure Pools where
  collPool : SlotPool CollSlot
  proxyPool : SlotPool ProxyOpSlot
  stepPool : SlotPool ProxyStepSlot
  kchPool : SlotPool KernelChSlot
  netPool : SlotPool NetPluginSlot
  counters : EventCounters
  batch : FlushBatch
  ledger : Ledger
  deriving DecidableEq

/-- The number of the shard, and `MIN_MSG_BYTES`. -/
structure Setting where
  shard : ℕ
  minMsgBytes : UInt64

namespace Handle

/-- The slot that a handle points to, where a handle of this kind is expected. -/
def asColl : Handle → Option ℕ
  | coll ptr => some ptr
  | _ => none

def asProxyOp : Handle → Option ℕ
  | proxyOp ptr => some ptr
  | _ => none

def asProxyStep : Handle → Option ℕ
  | proxyStep ptr => some ptr
  | _ => none

end Handle

variable (S : Setting)

def passesFilter (bytes : UInt64) : Bool := S.minMsgBytes = 0 || S.minMsgBytes ≤ bytes

namespace Pools

def new (limits : PoolLimits) : Pools where
  collPool := .withCapacity limits.coll
  proxyPool := .withCapacity limits.proxyOp
  stepPool := .withCapacity limits.proxyStep
  kchPool := .withCapacity limits.kernelCh
  netPool := .withCapacity limits.net
  counters := ⟨0, 0, 0, 0, 0, 0, 0, 0⟩
  batch := ⟨[], [], []⟩
  ledger := ⟨[], [], [], []⟩

/-- The pool is full: the parent coll, if there is one, learns that it lost a child. -/
def notePoolExhausted (s : Pools) (parentColl id : ℕ) : Pools :=
  { s with
    counters := { s.counters with poolExhausted := s.counters.poolExhausted + 1 }
    collPool :=
      if parentColl = invalidIdx then s.collPool
      else s.collPool.modify parentColl fun coll =>
        { coll with
          poolEventsDropped := saturatingSucc coll.poolEventsDropped
          dropped := coll.dropped ++ [id] } }

/-- A child of the coll started. -/
def childStarted (s : Pools) (parentColl : ℕ) : Pools :=
  { s with
    collPool := s.collPool.modify parentColl fun coll =>
      { coll with liveChildren := saturatingSucc coll.liveChildren } }

/-- The coll that a parent handle points to, if it is live, else no coll. -/
def resolveParentColl (s : Pools) (parentObj : Handle) (rank : Int32) :
    CollContext × ℕ × Option ℕ :=
  match parentObj.asColl.bind s.collPool.indexOf with
  | some coll_idx =>
      match s.collPool.get coll_idx with
      | some coll => (coll.ctx, coll_idx, some coll.id)
      | none => (collContextFallback rank, invalidIdx, none)
  | none => (collContextFallback rank, invalidIdx, none)

def startColl (s : Pools) (id : ℕ) (ctx : CollContext) (perfMeta : CollPerfMeta) (now : ℤ) :
    Pools × Handle :=
  let s := { s with
    counters :=
      if perfMeta.isP2p then { s.counters with p2p := s.counters.p2p + 1 }
      else { s.counters with coll := s.counters.coll + 1 } }
  match s.collPool.allocIndexed S.shard (.new id ctx perfMeta now) with
  | some (collPool, idx) =>
      ({ s with
        collPool
        ledger := { s.ledger with collsStarted := s.ledger.collsStarted ++ [id] } }, .coll idx)
  | none => (s.notePoolExhausted invalidIdx id, .null)

def startProxyOp (s : Pools) (id : ℕ) (parentObj : Handle)
    (rank channelId peer nSteps isSend : Int32) (now : ℤ) : Pools × Handle :=
  let s := { s with counters := { s.counters with proxyOp := s.counters.proxyOp + 1 } }
  let (coll, parentColl, parent) := s.resolveParentColl parentObj rank
  let op := { ProxyOpData.default with
    channelId, peer, isSend, nSteps, coll, startNs := now, parentColl, parent }
  match s.proxyPool.allocIndexed S.shard ⟨id, invalidIdx, op⟩ with
  | some (proxyPool, idx) => ({ s with proxyPool }.childStarted parentColl, .proxyOp idx)
  | none => (s.notePoolExhausted parentColl id, .null)

/-- Without a live parent there is nothing to attribute the window to. -/
def startKernelCh (s : Pools) (id : ℕ) (parentObj : Handle) (channelId : Int32)
    (gpuStartPtimer : UInt64) (now : ℤ) : Pools × Handle :=
  let s := { s with counters := { s.counters with kernelCh := s.counters.kernelCh + 1 } }
  match parentObj.asColl.bind s.collPool.indexOf with
  | none => (s, .null)
  | some parentColl =>
      match s.collPool.get parentColl with
      | none => (s, .null)
      | some coll =>
          match s.kchPool.allocIndexed S.shard
              ⟨id, coll.id, invalidIdx, parentColl, channelId, now, gpuStartPtimer, 0⟩ with
          | some (kchPool, idx) =>
              ({ s with kchPool }.childStarted parentColl, .kernelCh idx)
          | none => (s.notePoolExhausted parentColl id, .null)

def startProxyStep (s : Pools) (id : ℕ) (parentObj : Handle) (step : Int32) (now : ℤ) :
    Pools × Handle :=
  let s := { s with counters := { s.counters with proxyStep := s.counters.proxyStep + 1 } }
  let parentProxy := (parentObj.asProxyOp.bind s.proxyPool.indexOf).getD invalidIdx
  let proxy := s.proxyPool.get parentProxy
  let isSend := (proxy.map (·.op.isSend)).getD 0
  match s.stepPool.allocIndexed S.shard
      ⟨id, proxy.map (·.id), invalidIdx, ⟨step, isSend, now, 0, List.replicate 6 0, 0⟩,
        parentProxy⟩ with
  | some (stepPool, idx) => ({ s with stepPool }, .proxyStep idx)
  | none => (s.notePoolExhausted invalidIdx id, .null)

def startNetPlugin (s : Pools) (id : ℕ) (rank : Int32) (qp : Option IbQp) (now : ℤ) :
    Pools × Handle :=
  let s := { s with counters := { s.counters with netPlugin := s.counters.netPlugin + 1 } }
  match s.netPool.allocIndexed S.shard
      ⟨invalidIdx, now, 0, rank, qp.getD ⟨0, 0, 0, 0, 0⟩⟩ with
  | some (netPool, idx) => ({ s with netPool }, .net idx)
  | none => (s.notePoolExhausted invalidIdx id, .null)

/-- The event `id` starts; the handle is the one that NCCL gets for it. -/
def startEvent (s : Pools) (id : ℕ) (event : ParsedEvent Handle) (now : ℤ) : Pools × Handle :=
  match event with
  | .Coll ctx perfMeta => s.startColl S id ctx perfMeta now
  | .ProxyOp parentObj rank channelId peer nSteps isSend =>
      s.startProxyOp S id parentObj rank channelId peer nSteps isSend now
  | .KernelCh parentObj channelId gpuStartPtimer =>
      s.startKernelCh S id parentObj channelId gpuStartPtimer now
  | .ProxyStep parentObj step => s.startProxyStep S id parentObj step now
  | .NetPlugin rank qp => s.startNetPlugin S id rank qp now
  | .Group => (s, .group)
  | .Ignored => (s, .null)

/-- A finished child is folded into its parent coll, which has one live child less. -/
def childStopped (s : Pools) (parentColl id : ℕ) (observe : CollSlot → CollSlot) : Pools :=
  if parentColl = invalidIdx then s
  else
    { s with
      collPool := s.collPool.modify parentColl fun coll =>
        { observe coll with
          liveChildren := (observe coll).liveChildren - 1
          children := (observe coll).children ++ [id] } }

/-- A coll that is stopped and has no live child leaves its row and its slot. -/
def maybeCompleteColl (s : Pools) (coll_idx : ℕ) (now : ℤ) : Pools :=
  if coll_idx = invalidIdx then s
  else match s.collPool.get coll_idx with
    | none => s
    | some coll =>
        if coll.isComplete = false then s
        else
          let perf_row := coll.collPerfRow now
          let s := { s with collPool := s.collPool.freeIdx coll_idx }
          if passesFilter S perf_row.msgSizeBytes then
            { s with
              batch := { s.batch with
                collPerf := s.batch.collPerf ++ [perf_row]
                proxyOps := s.batch.proxyOps ++ coll.pending } }
          else
            { s with
              counters := { s.counters with
                filtered := s.counters.filtered + (1 + coll.pending.length) }
              ledger := { s.ledger with
                collsFiltered := s.ledger.collsFiltered ++ [coll.id]
                opsFiltered := s.ledger.opsFiltered ++ coll.pending.map (·.id) } }

/-- The row is not to be recorded. -/
def filterRow (s : Pools) (row : CompletedProxyOp) : Pools :=
  { s with
    counters := { s.counters with filtered := s.counters.filtered + 1 }
    ledger := { s.ledger with opsFiltered := s.ledger.opsFiltered ++ [row.id] } }

def emitRows (s : Pools) (rows : List CompletedProxyOp) : Pools :=
  { s with batch := { s.batch with proxyOps := s.batch.proxyOps ++ rows } }

/-- The row of a proxy op waits with its coll; a full buffer is flushed first. -/
def flushProxyRow (s : Pools) (parentColl : ℕ) (row : CompletedProxyOp) : Pools :=
  match if parentColl = invalidIdx then none else s.collPool.get parentColl with
  | some coll =>
      if passesFilter S coll.perfMeta.msgBytes = false then s.filterRow row
      else match coll.pushPending row with
        | some coll => { s with collPool := s.collPool.modify parentColl fun _ => coll }
        | none =>
            let s := s.emitRows coll.pending
            match { coll with pending := [] }.pushPending row with
            | some coll => { s with collPool := s.collPool.modify parentColl fun _ => coll }
            | none =>
                { s with
                  collPool := s.collPool.modify parentColl fun coll =>
                    { coll with pending := [] } }.emitRows [row]
  | none => if passesFilter S row.transBytes = false then s.filterRow row else s.emitRows [row]

def stopProxyStep (s : Pools) (ptr : ℕ) (now : ℤ) : Pools :=
  match s.stepPool.indexOf ptr with
  | none => s
  | some step_idx =>
      match s.stepPool.get step_idx with
      | none => s
      | some slot =>
          let step := { slot.step with stopNs := now }
          let stepPool := s.stepPool.modify step_idx fun slot => { slot with step }
          { s with
            proxyPool :=
              if slot.parentProxy = invalidIdx then s.proxyPool
              else s.proxyPool.modify slot.parentProxy fun proxy =>
                { proxy with op := proxy.op.pushStep slot.id step }
            stepPool := stepPool.freeIdx step_idx }

def stopProxyOp (s : Pools) (ptr : ℕ) (now : ℤ) : Pools :=
  match s.proxyPool.indexOf ptr with
  | none => s
  | some proxy_idx =>
      match s.proxyPool.get proxy_idx with
      | none => s
      | some slot =>
          let op := { slot.op with stopNs := now }
          let s := { s with
            proxyPool := s.proxyPool.modify proxy_idx fun slot => { slot with op := .default }
            ledger := { s.ledger with opsStopped := s.ledger.opsStopped ++ [slot.id] } }
          let s := s.flushProxyRow S op.parentColl (op.intoCompleted slot.id now)
          let s := s.childStopped op.parentColl slot.id fun coll =>
            coll.observeProxy op.startNs op.stopNs
          let s := s.maybeCompleteColl S op.parentColl now
          { s with proxyPool := s.proxyPool.freeIdx proxy_idx }

def stopKernelCh (s : Pools) (ptr : ℕ) (now : ℤ) : Pools :=
  match s.kchPool.indexOf ptr with
  | none => s
  | some kch_idx =>
      match s.kchPool.get kch_idx with
      | none => s
      | some slot =>
          let s := s.childStopped slot.parentColl slot.id fun coll =>
            (coll.observeKch slot.startNs now).observeKchGpu slot.gpuStartPtimer
              slot.gpuStopPtimer
          let s := s.maybeCompleteColl S slot.parentColl now
          { s with kchPool := s.kchPool.freeIdx kch_idx }

def stopColl (s : Pools) (ptr : ℕ) (now : ℤ) : Pools :=
  match s.collPool.indexOf ptr with
  | none => s
  | some coll_idx =>
      { s with
        collPool := s.collPool.modify coll_idx fun coll =>
          { coll with enqueueStopNs := now, stopped := true } }.maybeCompleteColl S coll_idx now

def stopNetPlugin (s : Pools) (ptr : ℕ) (now : ℤ) : Pools :=
  match s.netPool.indexOf ptr with
  | none => s
  | some net_idx =>
      match s.netPool.get net_idx with
      | none => s
      | some slot =>
          let row : CompletedNetQp := ⟨now, slot.rank, slot.qp, now - slot.startNs⟩
          let netPool := s.netPool.modify net_idx fun slot => { slot with stopNs := now }
          { s with
            netPool := netPool.freeIdx net_idx
            batch := { s.batch with netQp := s.batch.netQp ++ [row] } }

/-- The tag at the start of a slot tells its pool. -/
def stopEvent (s : Pools) (handle : Handle) (now : ℤ) : Pools :=
  match handle with
  | .proxyStep ptr => s.stopProxyStep ptr now
  | .proxyOp ptr => s.stopProxyOp S ptr now
  | .kernelCh ptr => s.stopKernelCh S ptr now
  | .coll ptr => s.stopColl S ptr now
  | .net ptr => s.stopNetPlugin ptr now
  | .null | .group => s

/-- The first entry of a state counts. -/
def recordStep (slot : ProxyStepSlot) (state : Int32) (args : StateArgs) (now : ℤ) :
    ProxyStepSlot :=
  let step :=
    match proxyStepStateIndex state with
    | some idx =>
        if slot.step.entered idx = 0 then
          { slot.step with stateTs := slot.step.stateTs.set idx now }
        else slot.step
    | none => slot.step
  match args with
  | .ProxyStepV4 trans_size => { slot with step := { step with transBytes := trans_size } }
  | _ => { slot with step }

/-- The bytes only grow, and zeros are no report. -/
def recordProxyOp (slot : ProxyOpSlot) (args : StateArgs) : ProxyOpSlot :=
  match args with
  | .ProxyOpV3 trans_size steps =>
      { slot with op := { slot.op with
        transBytes :=
          if 0 < trans_size then max slot.op.transBytes trans_size else slot.op.transBytes
        nSteps := if 0 < steps then steps else slot.op.nSteps } }
  | _ => slot

def recordKernelCh (slot : KernelChSlot) (args : StateArgs) : KernelChSlot :=
  match args with
  | .KernelChStop p_timer => { slot with gpuStopPtimer := p_timer }
  | _ => slot

def recordState (s : Pools) (handle : Handle) (state : Int32) (args : StateArgs) (now : ℤ) :
    Pools :=
  match handle with
  | .proxyStep ptr =>
      match s.stepPool.indexOf ptr with
      | some idx =>
          { s with stepPool := s.stepPool.modify idx (recordStep · state args now) }
      | none => s
  | .proxyOp ptr =>
      match s.proxyPool.indexOf ptr with
      | some idx => { s with proxyPool := s.proxyPool.modify idx (recordProxyOp · args) }
      | none => s
  | .kernelCh ptr =>
      match s.kchPool.indexOf ptr with
      | some idx => { s with kchPool := s.kchPool.modify idx (recordKernelCh · args) }
      | none => s
  | _ => s

/-- The rows that wait with a coll are written before it completes, if it is one to drain. -/
def drainColl (drains : CollSlot → Bool) (s : Pools) (idx : ℕ) : Pools :=
  match s.collPool.get idx with
  | some coll =>
      if drains coll then
        { s with
          collPool := s.collPool.modify idx fun coll => { coll with pending := [] } }.emitRows
            coll.pending
      else s
  | none => s

def drain (s : Pools) (drains : CollSlot → Bool) : Pools :=
  (List.range s.collPool.capacity).foldl (drainColl drains) s

def drainPending (s : Pools) : Pools := s.drain fun coll => !coll.pending.isEmpty

structure InflightOp where
  tsNs : ℤ
  rank : Int32
  commHash : UInt64
  collFunc : List UInt8
  seq : UInt64
  kind : String
  channelId : Int32
  peer : Int32
  isSend : Int32
  startNs : ℤ
  ageNs : ℤ

/-- One row for every live coll and proxy op that is old enough. -/
def inflight (s : Pools) (min_age_ns now : ℤ) : List InflightOp :=
  (s.collPool.liveValues.filter fun p => min_age_ns ≤ now - p.2.startNs).map (fun p =>
    ⟨now, p.2.ctx.rank, p.2.ctx.commHash, p.2.ctx.func, p.2.ctx.seq,
      if p.2.perfMeta.isP2p then "p2p" else "coll", -1, p.2.perfMeta.peer, -1, p.2.startNs,
      now - p.2.startNs⟩) ++
  (s.proxyPool.liveValues.filter fun p => min_age_ns ≤ now - p.2.op.startNs).map (fun p =>
    ⟨now, p.2.op.coll.rank, p.2.op.coll.commHash, p.2.op.coll.func, p.2.op.coll.seq,
      "proxy_op", p.2.op.channelId, p.2.op.peer, p.2.op.isSend, p.2.op.startNs,
      now - p.2.op.startNs⟩)

/-- The rows of the operations in flight, and the pools without the rows that waited too long. -/
def collectInflight (s : Pools) (min_age_ns now : ℤ) : List InflightOp × Pools :=
  (s.inflight min_age_ns now,
    s.drain fun coll => !coll.pending.isEmpty && decide (min_age_ns ≤ now - coll.startNs))

end Pools

end Probing.Nccl
