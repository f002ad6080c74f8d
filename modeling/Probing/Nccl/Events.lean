import Probing.Nccl.Pool

/-!
# Events and rows

The slots of the pools and the rows they leave. Every event has a number, in the order of
`start_event`; the fields `id`, `parent`, `steps`, `children` and `dropped` name events by it.
They are not in the source, and no branch reads them.
-/

namespace Probing.Nccl

def maxPendingPerColl : ℕ := 128

/-- `u16::saturating_add(1)`. -/
def saturatingSucc (n : ℕ) : ℕ := min (n + 1) (2 ^ 16 - 1)

structure CollContext where
  rank : Int32
  commHash : UInt64
  nRanks : Int32
  seq : UInt64
  func : List UInt8
  deriving DecidableEq

/-- The context of an event without a coll; the name of its function is `unknown`. -/
def collContextFallback (rank : Int32) : CollContext where
  rank := rank
  commHash := 0
  nRanks := -1
  seq := 0
  func := [117, 110, 107, 110, 111, 119, 110]

structure CollPerfMeta where
  isP2p : Bool
  peer : Int32
  count : UInt64
  msgBytes : UInt64
  dtype : List UInt8
  algo : List UInt8
  proto : List UInt8
  nChannels : Int32
  deriving DecidableEq

/-- The index of the timestamp that a reported state fills. -/
def proxyStepStateIndex (state : Int32) : Option ℕ :=
  if state = 8 then some 0
  else if state = 20 then some 1
  else if state = 9 then some 2
  else if state = 10 then some 3
  else if state = 11 then some 4
  else if state = 12 then some 5
  else none

structure WaitBreakdown where
  sendGpuWaitNs : ℤ
  sendPeerWaitNs : ℤ
  sendWaitNs : ℤ
  recvWaitNs : ℤ
  recvFlushWaitNs : ℤ
  deriving DecidableEq

def WaitBreakdown.zero : WaitBreakdown := ⟨0, 0, 0, 0, 0⟩

def WaitBreakdown.add (waits other : WaitBreakdown) : WaitBreakdown where
  sendGpuWaitNs := waits.sendGpuWaitNs + other.sendGpuWaitNs
  sendPeerWaitNs := waits.sendPeerWaitNs + other.sendPeerWaitNs
  sendWaitNs := waits.sendWaitNs + other.sendWaitNs
  recvWaitNs := waits.recvWaitNs + other.recvWaitNs
  recvFlushWaitNs := waits.recvFlushWaitNs + other.recvFlushWaitNs

/-- The entry of each state is a timestamp; zero is a state that was not entered. -/
structure ProxyStepData where
  step : Int32
  isSend : Int32
  startNs : ℤ
  stopNs : ℤ
  stateTs : List ℤ
  transBytes : UInt64
  deriving DecidableEq

def delta (start stop : ℤ) : ℤ := if start = 0 ∨ stop = 0 ∨ stop < start then 0 else stop - start

namespace ProxyStepData

def entered (step : ProxyStepData) (idx : ℕ) : ℤ := step.stateTs.getD idx 0

/-- The time in a state, up to the entry of the first later state of its chain. -/
def dwell (step : ProxyStepData) (idx : ℕ) (later : List ℕ) : ℤ :=
  if step.entered idx = 0 then 0
  else delta (step.entered idx)
    (((later.map step.entered).find? (· ≠ 0)).getD step.stopNs)

def waitDeltasNs (step : ProxyStepData) : WaitBreakdown where
  sendGpuWaitNs := step.dwell 0 [1, 2]
  sendPeerWaitNs := step.dwell 1 [2]
  sendWaitNs := step.dwell 2 []
  recvWaitNs := step.dwell 3 [4, 5]
  recvFlushWaitNs := step.dwell 4 [5]

end ProxyStepData

structure CompletedProxyOp where
  id : ℕ
  parent : Option ℕ
  steps : List ℕ
  tsNs : ℤ
  rank : Int32
  commHash : UInt64
  collFunc : List UInt8
  seq : UInt64
  channelId : Int32
  peer : Int32
  isSend : Int32
  nSteps : Int32
  transBytes : UInt64
  waits : WaitBreakdown
  deriving DecidableEq

/-- `parent_coll` is an index; `parent` is the coll that was found there at the start. -/
structure ProxyOpData where
  parent : Option ℕ
  steps : List ℕ
  channelId : Int32
  peer : Int32
  isSend : Int32
  nSteps : Int32
  transBytes : UInt64
  coll : CollContext
  startNs : ℤ
  stopNs : ℤ
  waits : WaitBreakdown
  stepBytes : UInt64
  stepCount : ℕ
  parentColl : ℕ
  deriving DecidableEq

namespace ProxyOpData

def default : ProxyOpData where
  parent := none
  steps := []
  channelId := 0
  peer := 0
  isSend := 0
  nSteps := 0
  transBytes := 0
  coll := ⟨-1, 0, -1, 0, []⟩
  startNs := 0
  stopNs := 0
  waits := .zero
  stepBytes := 0
  stepCount := 0
  parentColl := invalidIdx

/-- The step of the event `id` is folded into the sums. -/
def pushStep (op : ProxyOpData) (id : ℕ) (step : ProxyStepData) : ProxyOpData :=
  { op with
    steps := op.steps ++ [id]
    waits := op.waits.add step.waitDeltasNs
    stepBytes := op.stepBytes + step.transBytes
    stepCount := saturatingSucc op.stepCount }

def intoCompleted (op : ProxyOpData) (id : ℕ) (now : ℤ) : CompletedProxyOp where
  id := id
  parent := op.parent
  steps := op.steps
  tsNs := if op.stopNs ≠ 0 then op.stopNs else now
  rank := op.coll.rank
  commHash := op.coll.commHash
  collFunc := op.coll.func
  seq := op.coll.seq
  channelId := op.channelId
  peer := op.peer
  isSend := op.isSend
  nSteps := op.nSteps
  transBytes := if 0 < op.stepBytes then max op.stepBytes op.transBytes else op.transBytes
  waits := op.waits

end ProxyOpData

inductive TimingSource where
  | kernelGpu
  | kernelCh
  | proxy
  | enqueue
  deriving DecidableEq

structure CompletedCollPerf where
  id : ℕ
  children : List ℕ
  dropped : List ℕ
  tsNs : ℤ
  rank : Int32
  commHash : UInt64
  nRanks : Int32
  collFunc : List UInt8
  seq : UInt64
  isP2p : Bool
  peer : Int32
  count : UInt64
  msgSizeBytes : UInt64
  dtype : List UInt8
  algo : List UInt8
  proto : List UInt8
  nChannels : Int32
  execTimeNs : ℤ
  enqueueTimeNs : ℤ
  timingSource : TimingSource
  poolEventsDropped : ℕ
  deriving DecidableEq

/-- `children` are the events whose windows were folded into the coll, `dropped` those that found
no slot. -/
structure CollSlot where
  id : ℕ
  children : List ℕ
  dropped : List ℕ
  selfIdx : ℕ
  ctx : CollContext
  perfMeta : CollPerfMeta
  startNs : ℤ
  enqueueStopNs : ℤ
  stopped : Bool
  liveChildren : ℕ
  poolEventsDropped : ℕ
  kchMinStartNs : ℤ
  kchMaxStopNs : ℤ
  kchCount : ℕ
  kchGpuMinStart : UInt64
  kchGpuMaxStop : UInt64
  kchGpuCount : ℕ
  pxMinStartNs : ℤ
  pxMaxStopNs : ℤ
  pending : List CompletedProxyOp
  deriving DecidableEq

namespace CollSlot

def new (id : ℕ) (ctx : CollContext) (perfMeta : CollPerfMeta) (startNs : ℤ) : CollSlot where
  id := id
  children := []
  dropped := []
  selfIdx := invalidIdx
  ctx := ctx
  perfMeta := perfMeta
  startNs := startNs
  enqueueStopNs := 0
  stopped := false
  liveChildren := 0
  poolEventsDropped := 0
  kchMinStartNs := 0
  kchMaxStopNs := 0
  kchCount := 0
  kchGpuMinStart := 0
  kchGpuMaxStop := 0
  kchGpuCount := 0
  pxMinStartNs := 0
  pxMaxStopNs := 0
  pending := []

def isComplete (coll : CollSlot) : Bool := coll.stopped && coll.liveChildren == 0

def observeKch (coll : CollSlot) (startNs stopNs : ℤ) : CollSlot :=
  { coll with
    kchMinStartNs :=
      if coll.kchCount = 0 ∨ startNs < coll.kchMinStartNs then startNs
      else coll.kchMinStartNs
    kchMaxStopNs := max coll.kchMaxStopNs stopNs
    kchCount := saturatingSucc coll.kchCount }

/-- The window on the clock of the GPU, where both of its ends were reported. -/
def observeKchGpu (coll : CollSlot) (start_ptimer stop_ptimer : UInt64) : CollSlot :=
  if start_ptimer = 0 ∨ stop_ptimer ≤ start_ptimer then coll
  else
    { coll with
      kchGpuMinStart :=
        if coll.kchGpuCount = 0 ∨ start_ptimer < coll.kchGpuMinStart then start_ptimer
        else coll.kchGpuMinStart
      kchGpuMaxStop := max coll.kchGpuMaxStop stop_ptimer
      kchGpuCount := saturatingSucc coll.kchGpuCount }

def observeProxy (coll : CollSlot) (startNs stopNs : ℤ) : CollSlot :=
  { coll with
    pxMinStartNs :=
      if coll.pxMinStartNs = 0 ∨ startNs < coll.pxMinStartNs then startNs
      else coll.pxMinStartNs
    pxMaxStopNs := max coll.pxMaxStopNs stopNs }

/-- The best timing that the coll has: the kernel on the GPU clock, the kernel as observed by
the host, the proxies, the enqueue. -/
def timing (coll : CollSlot) (now : ℤ) : ℤ × ℤ × TimingSource :=
  if 0 < coll.kchGpuCount ∧ coll.kchGpuMinStart < coll.kchGpuMaxStop then
    ((coll.kchGpuMaxStop - coll.kchGpuMinStart).toInt64.toInt,
      if 0 < coll.kchMaxStopNs then coll.kchMaxStopNs else now, .kernelGpu)
  else if 0 < coll.kchCount ∧ coll.kchMinStartNs < coll.kchMaxStopNs then
    (coll.kchMaxStopNs - coll.kchMinStartNs, coll.kchMaxStopNs, .kernelCh)
  else if coll.pxMinStartNs < coll.pxMaxStopNs ∧ 0 < coll.pxMinStartNs then
    (coll.pxMaxStopNs - coll.pxMinStartNs, coll.pxMaxStopNs, .proxy)
  else if coll.startNs < coll.enqueueStopNs then
    (coll.enqueueStopNs - coll.startNs, coll.enqueueStopNs, .enqueue)
  else (0, now, .enqueue)

def collPerfRow (coll : CollSlot) (now : ℤ) : CompletedCollPerf where
  id := coll.id
  children := coll.children
  dropped := coll.dropped
  tsNs := (coll.timing now).2.1
  rank := coll.ctx.rank
  commHash := coll.ctx.commHash
  nRanks := coll.ctx.nRanks
  collFunc := coll.ctx.func
  seq := coll.ctx.seq
  isP2p := coll.perfMeta.isP2p
  peer := coll.perfMeta.peer
  count := coll.perfMeta.count
  msgSizeBytes := coll.perfMeta.msgBytes
  dtype := coll.perfMeta.dtype
  algo := coll.perfMeta.algo
  proto := coll.perfMeta.proto
  nChannels := coll.perfMeta.nChannels
  execTimeNs := (coll.timing now).1
  enqueueTimeNs :=
    if coll.startNs < coll.enqueueStopNs then coll.enqueueStopNs - coll.startNs else 0
  timingSource := (coll.timing now).2.2
  poolEventsDropped := coll.poolEventsDropped

/-- A row is kept until the coll completes, if there is room for it. -/
def pushPending (coll : CollSlot) (row : CompletedProxyOp) : Option CollSlot :=
  if maxPendingPerColl ≤ coll.pending.length then none
  else some { coll with pending := coll.pending ++ [row] }

end CollSlot

structure ProxyOpSlot where
  id : ℕ
  selfIdx : ℕ
  op : ProxyOpData
  deriving DecidableEq

/-- `parent_proxy` is an index; `parent` is the proxy op that was found there at the start. -/
structure ProxyStepSlot where
  id : ℕ
  parent : Option ℕ
  selfIdx : ℕ
  step : ProxyStepData
  parentProxy : ℕ
  deriving DecidableEq

structure KernelChSlot where
  id : ℕ
  parent : ℕ
  selfIdx : ℕ
  parentColl : ℕ
  channelId : Int32
  startNs : ℤ
  gpuStartPtimer : UInt64
  gpuStopPtimer : UInt64
  deriving DecidableEq

/-- A work request of a queue pair. -/
structure IbQp where
  device : Int32
  qpNum : Int32
  wrId : UInt64
  opcode : Int32
  length : UInt64
  deriving DecidableEq

structure NetPluginSlot where
  selfIdx : ℕ
  startNs : ℤ
  stopNs : ℤ
  rank : Int32
  qp : IbQp
  deriving DecidableEq

structure CompletedNetQp where
  tsNs : ℤ
  rank : Int32
  qp : IbQp
  durationNs : ℤ
  deriving DecidableEq

instance : Indexed CollSlot where
  setSelfIdx slot idx := { slot with selfIdx := idx }
  selfIdx slot := slot.selfIdx
  self_idx_set _ _ := rfl

instance : Indexed ProxyOpSlot where
  setSelfIdx slot idx := { slot with selfIdx := idx }
  selfIdx slot := slot.selfIdx
  self_idx_set _ _ := rfl

instance : Indexed ProxyStepSlot where
  setSelfIdx slot idx := { slot with selfIdx := idx }
  selfIdx slot := slot.selfIdx
  self_idx_set _ _ := rfl

instance : Indexed KernelChSlot where
  setSelfIdx slot idx := { slot with selfIdx := idx }
  selfIdx slot := slot.selfIdx
  self_idx_set _ _ := rfl

instance : Indexed NetPluginSlot where
  setSelfIdx slot idx := { slot with selfIdx := idx }
  selfIdx slot := slot.selfIdx
  self_idx_set _ _ := rfl

end Probing.Nccl
