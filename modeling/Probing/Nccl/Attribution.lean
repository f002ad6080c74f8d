import Probing.Nccl.Conservation

/-!
# Whose rows they are

Every row, every slot and every window that is folded into one belongs to the events that were
given as parents. What a call folds is found through an index, so it has to belong to the event
that is in that slot then.
-/

namespace Probing.Nccl

/-- The parent of an event, as it was when the event started. -/
def ownerOf (events : List Event) (id : ℕ) : Option (Option ℕ) := (events[id]?).map (·.owner)

def eventOf (events : List Event) (id : ℕ) : Option (ParsedEvent (Option ℕ)) :=
  (events[id]?).map (·.event)

/-- The context that a proxy op is to have: of its coll, else the one for no coll. -/
inductive HasContext (events : List Event) (id : ℕ) : CollContext → Prop
  | coll {coll : ℕ} {ctx : CollContext} {perfMeta : CollPerfMeta}
      (howner : ownerOf events id = some (some coll))
      (hcoll : eventOf events coll = some (.Coll ctx perfMeta)) : HasContext events id ctx
  | fallback {parent : Option ℕ} {rank channelId peer nSteps isSend : Int32}
      (howner : ownerOf events id = some none)
      (hevent : eventOf events id =
        some (.ProxyOp parent rank channelId peer nSteps isSend)) :
      HasContext events id (collContextFallback rank)

namespace CompletedCollPerf

def ctx (row : CompletedCollPerf) : CollContext where
  rank := row.rank
  commHash := row.commHash
  nRanks := row.nRanks
  seq := row.seq
  func := row.collFunc

def perfMeta (row : CompletedCollPerf) : CollPerfMeta where
  isP2p := row.isP2p
  peer := row.peer
  count := row.count
  msgBytes := row.msgSizeBytes
  dtype := row.dtype
  algo := row.algo
  proto := row.proto
  nChannels := row.nChannels

/-- The row of the coll, with the windows of its own children. -/
structure Own (events : List Event) (row : CompletedCollPerf) : Prop where
  event : eventOf events row.id = some (.Coll row.ctx row.perfMeta)
  children : ∀ k ∈ row.children, ownerOf events k = some (some row.id)
  dropped : ∀ k ∈ row.dropped, ownerOf events k = some (some row.id)

end CompletedCollPerf

/-- A proxy op with its own parent, in its context and with its own steps. -/
structure ProxyOpData.Own (events : List Event) (id : ℕ) (op : ProxyOpData) : Prop where
  parent : ownerOf events id = some op.parent
  context : HasContext events id op.coll
  steps : ∀ k ∈ op.steps, ownerOf events k = some (some id)

structure CompletedProxyOp.Own (events : List Event) (row : CompletedProxyOp) : Prop where
  parent : ownerOf events row.id = some row.parent
  context : ∃ ctx, HasContext events row.id ctx ∧ row.rank = ctx.rank ∧
    row.commHash = ctx.commHash ∧ row.collFunc = ctx.func ∧ row.seq = ctx.seq
  steps : ∀ k ∈ row.steps, ownerOf events k = some (some row.id)

structure CollSlot.Own (events : List Event) (coll : CollSlot) : Prop where
  event : eventOf events coll.id = some (.Coll coll.ctx coll.perfMeta)
  children : ∀ k ∈ coll.children, ownerOf events k = some (some coll.id)
  dropped : ∀ k ∈ coll.dropped, ownerOf events k = some (some coll.id)
  pending : ∀ row ∈ coll.pending, row.Own events

/-- The condition holds of the live values. -/
def SlotPool.All {T : Type} (p : T → Prop) (pool : SlotPool T) : Prop :=
  ∀ idx v, pool.get idx = some v → p v

/-- The colls and the rows are their own. -/
structure Pools.RowsOwn (s : Pools) (events : List Event) : Prop where
  colls : s.collPool.All (CollSlot.Own events)
  collRows : ∀ row ∈ s.batch.collPerf, row.Own events
  op_rows : ∀ row ∈ s.batch.proxyOps, row.Own events

structure Pools.Attributed (s : Pools) (events : List Event) : Prop extends RowsOwn s events where
  ops : s.proxyPool.All fun slot => slot.op.Own events slot.id
  steps : s.stepPool.All fun slot => ownerOf events slot.id = some slot.parent
  kernels : s.kchPool.All fun slot => ownerOf events slot.id = some (some slot.parent)

section Later

variable {events : List Event} {id : ℕ} {rest : List Event}

/-- What is known of an event stays when others start. -/
theorem ownerOf_append {owner : Option ℕ} (h : ownerOf events id = some owner) :
    ownerOf (events ++ rest) id = some owner := by
  obtain ⟨event, hevent, rfl⟩ := Option.map_eq_some_iff.mp h
  have hlt := (List.getElem?_eq_some_iff.mp hevent).1
  rw [ownerOf, List.getElem?_append_left hlt, hevent, Option.map_some]

theorem eventOf_append {event : ParsedEvent (Option ℕ)} (h : eventOf events id = some event) :
    eventOf (events ++ rest) id = some event := by
  obtain ⟨event, hevent, rfl⟩ := Option.map_eq_some_iff.mp h
  have hlt := (List.getElem?_eq_some_iff.mp hevent).1
  rw [eventOf, List.getElem?_append_left hlt, hevent, Option.map_some]

theorem HasContext.append {ctx : CollContext} (h : HasContext events id ctx) :
    HasContext (events ++ rest) id ctx := by
  cases h with
  | coll howner hcoll => exact .coll (ownerOf_append howner) (eventOf_append hcoll)
  | fallback howner hevent => exact .fallback (ownerOf_append howner) (eventOf_append hevent)

theorem CompletedCollPerf.Own.append {row : CompletedCollPerf} (h : row.Own events) :
    row.Own (events ++ rest) where
  event := eventOf_append h.event
  children k hk := ownerOf_append (h.children k hk)
  dropped k hk := ownerOf_append (h.dropped k hk)

theorem CompletedProxyOp.Own.append {row : CompletedProxyOp} (h : row.Own events) :
    row.Own (events ++ rest) where
  parent := ownerOf_append h.parent
  context := h.context.imp fun _ hctx => ⟨hctx.1.append, hctx.2⟩
  steps k hk := ownerOf_append (h.steps k hk)

theorem ProxyOpData.Own.append {op : ProxyOpData} (h : op.Own events id) :
    op.Own (events ++ rest) id where
  parent := ownerOf_append h.parent
  context := h.context.append
  steps k hk := ownerOf_append (h.steps k hk)

theorem CollSlot.Own.append {coll : CollSlot} (h : coll.Own events) :
    coll.Own (events ++ rest) where
  event := eventOf_append h.event
  children k hk := ownerOf_append (h.children k hk)
  dropped k hk := ownerOf_append (h.dropped k hk)
  pending row hrow := (h.pending row hrow).append

theorem SlotPool.All.imp {T : Type} {p q : T → Prop} {pool : SlotPool T} (h : pool.All p)
    (himp : ∀ v, p v → q v) : pool.All q :=
  fun idx v hv => himp v (h idx v hv)

theorem Pools.Attributed.append {s : Pools} (h : s.Attributed events) :
    s.Attributed (events ++ rest) where
  colls := h.colls.imp fun _ hcoll => hcoll.append
  ops := h.ops.imp fun _ hslot => hslot.append
  steps := h.steps.imp fun _ hslot => ownerOf_append hslot
  kernels := h.kernels.imp fun _ hslot => ownerOf_append hslot
  collRows row hrow := (h.collRows row hrow).append
  op_rows row hrow := (h.op_rows row hrow).append

/-- A coll with other rows that wait. -/
theorem CollSlot.Own.with_pending {coll : CollSlot} (h : coll.Own events)
    {pending : List CompletedProxyOp} (hpending : ∀ row ∈ pending, row.Own events) :
    { coll with pending }.Own events :=
  ⟨h.event, h.children, h.dropped, hpending⟩

theorem ProxyOpData.Own.row {op : ProxyOpData} (h : op.Own events id) (now : ℤ) :
    (op.intoCompleted id now).Own events :=
  ⟨h.parent, ⟨op.coll, h.context, rfl, rfl, rfl, rfl⟩, h.steps⟩

end Later

namespace SlotPool

variable {T : Type} {p : T → Prop} {pool : SlotPool T} {idx : ℕ}

theorem All.modify (h : pool.All p) {change : T → T}
    (hchange : ∀ v, pool.get idx = some v → p (change v)) : (pool.modify idx change).All p := by
  intro j v hv
  rw [get_modify] at hv
  split at hv
  · obtain ⟨v', hv', rfl⟩ := Option.map_eq_some_iff.mp hv
    exact hchange v' hv'
  · exact h j v hv

theorem All.freeIdx (h : pool.All p) : (pool.freeIdx idx).All p := by
  intro j v hv
  rw [get_freeIdx] at hv
  split at hv
  · exact (nomatch hv)
  · exact h j v hv

theorem All.taken (h : pool.All p) (change : T → T) :
    ((pool.modify idx change).freeIdx idx).All p := by
  intro j v hv
  rw [get_taken] at hv
  split at hv
  · exact (nomatch hv)
  · exact h j v hv

theorem All.allocIndexed [Indexed T] (h : pool.All p) (hsound : pool.Sound) {shard : ℕ} {v : T}
    {pool' : SlotPool T} (halloc : pool.allocIndexed shard v = some (pool', idx))
    (hv : p (Indexed.setSelfIdx v (packSlotId shard idx))) : pool'.All p := by
  obtain ⟨-, -, -, hget, -⟩ := hsound.allocIndexed halloc
  intro j w hw
  rw [hget] at hw
  split at hw
  · exact Option.some.inj hw ▸ hv
  · exact h j w hw

end SlotPool

namespace Pools

variable {S : Setting} {s t : Pools} {events : List Event} {id parentColl : ℕ}

theorem RowsOwn.with_colls (h : s.RowsOwn events) (hcolls : t.collPool.All (CollSlot.Own events))
    (hbatch : t.batch = s.batch) : t.RowsOwn events :=
  ⟨hcolls, hbatch ▸ h.collRows, hbatch ▸ h.op_rows⟩

/-- The slots of the children are as they were. -/
theorem Attributed.same (h : s.Attributed events) (hrows : t.RowsOwn events)
    (hsame : s.SameChildren t) : t.Attributed events where
  toRowsOwn := hrows
  ops := hsame.proxyPool ▸ h.ops
  steps := hsame.stepPool ▸ h.steps
  kernels := hsame.kchPool ▸ h.kernels

theorem RowsOwn.notePoolExhausted (h : s.RowsOwn events)
    (howner : ∀ coll, s.collPool.get parentColl = some coll →
      ownerOf events id = some (some coll.id)) :
    (s.notePoolExhausted parentColl id).RowsOwn events := by
  rw [Pools.notePoolExhausted]
  split
  · exact h.with_colls h.colls rfl
  refine h.with_colls (h.colls.modify fun coll hcoll => ?_) rfl
  obtain ⟨event, children, dropped, pending⟩ := h.colls parentColl coll hcoll
  refine ⟨event, children, fun k hk => ?_, pending⟩
  obtain hk | hk := List.mem_append.mp hk
  · exact dropped k hk
  · exact List.mem_singleton.mp hk ▸ howner coll hcoll

theorem RowsOwn.childStarted (h : s.RowsOwn events) :
    (s.childStarted parentColl).RowsOwn events := by
  refine h.with_colls (h.colls.modify fun coll hcoll => ?_) rfl
  obtain ⟨event, children, dropped, pending⟩ := h.colls parentColl coll hcoll
  exact ⟨event, children, dropped, pending⟩

/-- The window of a child is folded into the coll that is its parent. -/
theorem RowsOwn.childStopped (h : s.RowsOwn events) {observe : CollSlot → CollSlot}
    (hobserve : ∀ coll : CollSlot, coll.Observed (observe coll))
    (howner : ∀ coll, s.collPool.get parentColl = some coll →
      ownerOf events id = some (some coll.id)) :
    (s.childStopped parentColl id observe).RowsOwn events := by
  rw [Pools.childStopped]
  split
  · exact h
  refine h.with_colls (h.colls.modify fun coll hcoll => ?_) rfl
  obtain ⟨halike, hdropped, hpending⟩ := hobserve coll
  obtain ⟨event, children, dropped, pending⟩ := h.colls parentColl coll hcoll
  constructor
  · simpa only [halike.id, halike.ctx, halike.perfMeta] using event
  · intro k hk
    simp only [halike.children, halike.id] at hk ⊢
    obtain hk | hk := List.mem_append.mp hk
    · exact children k hk
    · exact List.mem_singleton.mp hk ▸ howner coll hcoll
  · simpa only [hdropped, halike.id] using dropped
  · simpa only [hpending] using pending

theorem RowsOwn.maybeCompleteColl (h : s.RowsOwn events) (now : ℤ) :
    (s.maybeCompleteColl S parentColl now).RowsOwn events := by
  rw [Pools.maybeCompleteColl]
  split
  · exact h
  split
  · exact h
  next coll hcoll =>
  split
  · exact h
  have hown := h.colls parentColl coll hcoll
  simp only
  split
  · refine ⟨h.colls.freeIdx, ?_, ?_⟩
    · intro row hrow
      obtain hrow | hrow := List.mem_append.mp hrow
      · exact h.collRows row hrow
      · obtain rfl := List.mem_singleton.mp hrow
        exact ⟨hown.event, hown.children, hown.dropped⟩
    · intro row hrow
      obtain hrow | hrow := List.mem_append.mp hrow
      · exact h.op_rows row hrow
      · exact hown.pending row hrow
  · exact h.with_colls h.colls.freeIdx rfl

theorem RowsOwn.filterRow (h : s.RowsOwn events) (row : CompletedProxyOp) :
    (s.filterRow row).RowsOwn events :=
  ⟨h.colls, h.collRows, h.op_rows⟩

theorem RowsOwn.emitRows (h : s.RowsOwn events) {rows : List CompletedProxyOp}
    (hrows : ∀ row ∈ rows, row.Own events) : (s.emitRows rows).RowsOwn events := by
  refine ⟨h.colls, h.collRows, fun row hrow => ?_⟩
  obtain hrow | hrow := List.mem_append.mp hrow
  · exact h.op_rows row hrow
  · exact hrows row hrow

theorem RowsOwn.flushProxyRow (h : s.RowsOwn events) {row : CompletedProxyOp}
    (hrow : row.Own events) : (s.flushProxyRow S parentColl row).RowsOwn events := by
  have hone : ∀ row' ∈ [row], row'.Own events := by
    intro row' hrow'
    obtain rfl := List.mem_singleton.mp hrow'
    exact hrow
  rw [Pools.flushProxyRow]
  split
  next coll hcoll =>
    have hcoll : s.collPool.get parentColl = some coll := by
      split at hcoll
      · cases hcoll
      · exact hcoll
    have hown := h.colls parentColl coll hcoll
    split
    · exact h.filterRow row
    split
    next pushed hpush =>
      rw [CollSlot.pushPending] at hpush
      split at hpush
      · cases hpush
      obtain rfl := Option.some.inj hpush
      refine h.with_colls (h.colls.modify fun _ _ => hown.with_pending fun row' hrow' => ?_) rfl
      obtain hrow' | hrow' := List.mem_append.mp hrow'
      · exact hown.pending row' hrow'
      · exact hone row' hrow'
    next hfull =>
      simp only [pushPending_nil]
      have hwritten := h.emitRows hown.pending
      exact hwritten.with_colls (hwritten.colls.modify fun _ _ => hown.with_pending hone) rfl
  next hnone =>
    split
    · exact h.filterRow row
    · exact h.emitRows hone

theorem RowsOwn.drainColl (h : s.RowsOwn events) (drains : CollSlot → Bool) (idx : ℕ) :
    (s.drainColl drains idx).RowsOwn events := by
  rw [Pools.drainColl]
  split
  next coll hcoll =>
    split
    · have hkept : ({ s with collPool := s.collPool.modify idx fun coll =>
          { coll with pending := [] } } : Pools).RowsOwn events :=
        h.with_colls (h.colls.modify fun coll hcoll =>
          (h.colls idx coll hcoll).with_pending fun row hrow => (by cases hrow)) rfl
      exact hkept.emitRows (h.colls idx coll hcoll).pending
    · exact h
  · exact h

theorem RowsOwn.drain (h : s.RowsOwn events) (drains : CollSlot → Bool) :
    (s.drain drains).RowsOwn events := by
  rw [Pools.drain]
  generalize List.range s.collPool.capacity = indices
  induction indices generalizing s with
  | nil => exact h
  | cons idx rest ih => exact ih (h.drainColl drains idx)

/-- The step is folded into the op in the slot it names, so that op has to be its parent. -/
theorem Attributed.stopProxyStep (h : s.Attributed events) (hsound : s.Sound) {ptr : ℕ}
    (hparent : ∀ slot ∈ s.stepPool.get ptr, ∀ proxy ∈ s.proxyPool.get slot.parentProxy,
      slot.parent = some proxy.id) (now : ℤ) : (s.stopProxyStep ptr now).Attributed events := by
  rw [Pools.stopProxyStep]
  split
  · exact h
  next idx hidx =>
  split
  · exact h
  next slot hslot =>
  rw [hsound.step.indexOf_eq] at hidx
  obtain ⟨-, -, rfl⟩ := Option.map_eq_some_iff.mp hidx
  simp only
  refine ⟨⟨h.colls, h.collRows, h.op_rows⟩, ?_, h.steps.taken _, h.kernels⟩
  split
  · exact h.ops
  refine h.ops.modify fun proxy hproxy => ?_
  obtain ⟨parent, context, steps⟩ := h.ops slot.parentProxy proxy hproxy
  refine ⟨parent, context, fun k hk => ?_⟩
  obtain hk | hk := List.mem_append.mp hk
  · exact steps k hk
  · obtain rfl := List.mem_singleton.mp hk
    rw [h.steps ptr slot hslot, hparent slot hslot proxy hproxy]

/-- The coll in the slot that a proxy op names is its parent. -/
theorem Linked.ownerOf_proxy (h : s.Linked) (hsound : s.Sound) (hown : s.Attributed events)
    {k : ℕ} {slot : ProxyOpSlot} (hslot : s.proxyPool.get k = some slot) {coll : CollSlot}
    (hcoll : s.collPool.get slot.op.parentColl = some coll) :
    ownerOf events slot.id = some (some coll.id) := by
  obtain ⟨hnone, -⟩ | ⟨coll', hcoll', hparent⟩ := h.proxy_parent k slot hslot
  · rw [hnone, hsound.get_invalid] at hcoll
    exact (nomatch hcoll)
  · obtain rfl := Option.some.inj (hcoll.symm.trans hcoll')
    rw [(hown.ops k slot hslot).parent, hparent]

/-- The coll in the slot that a kernel event names is its parent. -/
theorem Linked.ownerOf_kch (h : s.Linked) (hown : s.Attributed events) {k : ℕ}
    {slot : KernelChSlot} (hslot : s.kchPool.get k = some slot) {coll : CollSlot}
    (hcoll : s.collPool.get slot.parentColl = some coll) :
    ownerOf events slot.id = some (some coll.id) := by
  obtain ⟨coll', hcoll', hparent⟩ := h.kch_parent k slot hslot
  obtain rfl := Option.some.inj (hcoll.symm.trans hcoll')
  rw [hown.kernels k slot hslot, hparent]

theorem Attributed.stopProxyOp (h : s.Attributed events) (hsound : s.Sound) (hlinked : s.Linked)
    (ptr : ℕ) (now : ℤ) : (s.stopProxyOp S ptr now).Attributed events := by
  rw [Pools.stopProxyOp]
  split
  · exact h
  next idx hidx =>
  split
  · exact h
  next slot hslot =>
  have hop : ({ slot.op with stopNs := now } : ProxyOpData).Own events slot.id := by
    obtain ⟨parent, context, steps⟩ := h.ops idx slot hslot
    exact ⟨parent, context, steps⟩
  have hrow := hop.row now
  simp only
  generalize ProxyOpData.intoCompleted { slot.op with stopNs := now } slot.id now = row at hrow ⊢
  generalize htaken : ({ s with
    proxyPool := s.proxyPool.modify idx fun slot => { slot with op := .default }
    ledger := { s.ledger with opsStopped := s.ledger.opsStopped ++ [slot.id] } } : Pools) = taken
  have hcoll : taken.collPool = s.collPool := by rw [← htaken]
  have htaken_rows : taken.RowsOwn events := by
    rw [← htaken]
    exact h.with_colls h.colls rfl
  have hflushed : (taken.flushProxyRow S slot.op.parentColl row).RowsOwn events :=
    htaken_rows.flushProxyRow hrow
  have hmoves : taken.Moves (taken.flushProxyRow S slot.op.parentColl row) :=
    moves_flushProxyRow slot.op.parentColl row
  generalize taken.flushProxyRow S slot.op.parentColl row = flushed at hflushed hmoves ⊢
  -- the coll is still in the slot when the op is folded into it
  have howner (coll : CollSlot) (hget : flushed.collPool.get slot.op.parentColl = some coll) :
      ownerOf events slot.id = some (some coll.id) := by
    obtain ⟨coll', hcoll', halike⟩ := hmoves.colls.get_right hget
    rw [hcoll] at hcoll'
    rw [halike.id]
    exact hlinked.ownerOf_proxy hsound h hslot hcoll'
  generalize hobserve : (fun coll : CollSlot => coll.observeProxy slot.op.startNs now) = observe
  have hobserved (coll : CollSlot) : coll.Observed (observe coll) := by
    rw [← hobserve]
    exact coll.observed_proxy slot.op.startNs now
  have hsettled : ((flushed.childStopped slot.op.parentColl slot.id observe).maybeCompleteColl S
      slot.op.parentColl now).RowsOwn events :=
    (hflushed.childStopped hobserved howner).maybeCompleteColl now
  have hsame := hmoves.toSameChildren.trans
    ((same_childStopped (i := slot.op.parentColl) slot.id observe).trans
      (same_maybeCompleteColl (S := S) (i := slot.op.parentColl) now))
  refine ⟨⟨hsettled.colls, hsettled.collRows, hsettled.op_rows⟩, ?_, ?_, ?_⟩
  · simp only [hsame.proxyPool, ← htaken]
    exact h.ops.taken _
  · simp only [hsame.stepPool, ← htaken]
    exact h.steps
  · simp only [hsame.kchPool, ← htaken]
    exact h.kernels

theorem Attributed.stopKernelCh (h : s.Attributed events) (hlinked : s.Linked) (ptr : ℕ)
    (now : ℤ) : (s.stopKernelCh S ptr now).Attributed events := by
  rw [Pools.stopKernelCh]
  split
  · exact h
  next idx hidx =>
  split
  · exact h
  next slot hslot =>
  simp only
  generalize hobserve : (fun coll : CollSlot => (coll.observeKch slot.startNs
    now).observeKchGpu slot.gpuStartPtimer slot.gpuStopPtimer) = observe
  have hobserved (coll : CollSlot) : coll.Observed (observe coll) := by
    rw [← hobserve]
    exact coll.observed_kch slot.startNs now slot.gpuStartPtimer slot.gpuStopPtimer
  have hstopped : (s.childStopped slot.parentColl slot.id observe).RowsOwn events :=
    h.childStopped hobserved fun coll hcoll => hlinked.ownerOf_kch h hslot hcoll
  have hsettled : ((s.childStopped slot.parentColl slot.id observe).maybeCompleteColl S
      slot.parentColl now).Attributed events :=
    h.same (hstopped.maybeCompleteColl now)
      ((same_childStopped slot.id observe).trans (same_maybeCompleteColl now))
  exact ⟨⟨hsettled.colls, hsettled.collRows, hsettled.op_rows⟩, hsettled.ops, hsettled.steps,
    hsettled.kernels.freeIdx⟩

theorem Attributed.stopColl (h : s.Attributed events) (ptr : ℕ) (now : ℤ) :
    (s.stopColl S ptr now).Attributed events := by
  rw [Pools.stopColl]
  split
  · exact h
  next idx hidx =>
  have hstopped : ({ s with
      collPool := s.collPool.modify idx fun coll =>
        { coll with enqueueStopNs := now, stopped := true } } : Pools).RowsOwn events := by
    refine h.with_colls (h.colls.modify fun coll hcoll => ?_) rfl
    obtain ⟨event, children, dropped, pending⟩ := h.colls idx coll hcoll
    exact ⟨event, children, dropped, pending⟩
  refine h.same (hstopped.maybeCompleteColl now) (.trans ?_ (same_maybeCompleteColl now))
  exact ⟨rfl, rfl, rfl, rfl⟩

theorem Attributed.stopNetPlugin (h : s.Attributed events) (ptr : ℕ) (now : ℤ) :
    (s.stopNetPlugin ptr now).Attributed events := by
  rw [Pools.stopNetPlugin]
  split
  · exact h
  split
  · exact h
  · exact ⟨⟨h.colls, h.collRows, h.op_rows⟩, h.ops, h.steps, h.kernels⟩

theorem Attributed.count (h : s.Attributed events) (counters : EventCounters) :
    { s with counters }.Attributed events :=
  ⟨⟨h.colls, h.collRows, h.op_rows⟩, h.ops, h.steps, h.kernels⟩

theorem Attributed.notePoolExhausted (h : s.Attributed events)
    (howner : ∀ coll, s.collPool.get parentColl = some coll →
      ownerOf events id = some (some coll.id)) :
    (s.notePoolExhausted parentColl id).Attributed events :=
  h.same (h.toRowsOwn.notePoolExhausted howner) (moves_notePoolExhausted parentColl id).1

theorem Attributed.startColl (h : s.Attributed events) (hsound : s.Sound) {ctx : CollContext}
    {perfMeta : CollPerfMeta} (hevent : eventOf events id = some (.Coll ctx perfMeta))
    (now : ℤ) : (s.startColl S id ctx perfMeta now).1.Attributed events := by
  rw [Pools.startColl]
  generalize (if perfMeta.isP2p then { s.counters with p2p := s.counters.p2p + 1 }
    else { s.counters with coll := s.counters.coll + 1 } : EventCounters) = counters
  have hs := h.count counters
  simp only
  split
  next collPool idx halloc =>
    have hnew : (Indexed.setSelfIdx (CollSlot.new id ctx perfMeta now)
        (packSlotId S.shard idx)).Own events :=
      ⟨hevent, fun k hk => (by cases hk), fun k hk => (by cases hk),
        fun row hrow => (by cases hrow)⟩
    have hcolls := h.colls.allocIndexed hsound.coll halloc hnew
    exact ⟨⟨hcolls, h.collRows, h.op_rows⟩, h.ops, h.steps, h.kernels⟩
  · refine hs.notePoolExhausted fun coll hcoll => ?_
    cases hsound.get_invalid.symm.trans hcoll

/-- A proxy op whose owner is the coll in the slot. -/
theorem Attributed.startProxyOp (h : s.Attributed events) (hsound : s.Sound)
    {parentObj : Handle} {parent : Option ℕ} {rank channelId peer nSteps isSend : Int32}
    (hevent : eventOf events id = some (.ProxyOp parent rank channelId peer nSteps isSend))
    (howner : ownerOf events id =
      some ((parentObj.asColl.bind s.collPool.get).map (·.id))) (now : ℤ) :
    (s.startProxyOp S id parentObj rank channelId peer nSteps isSend now).1.Attributed
      events := by
  rw [Pools.startProxyOp]
  have hs := h.count { s.counters with proxyOp := s.counters.proxyOp + 1 }
  have hsound' : ({ s with counters := { s.counters with
      proxyOp := s.counters.proxyOp + 1 } } : Pools).Sound :=
    ⟨hsound.coll, hsound.proxy, hsound.step, hsound.kch, hsound.net⟩
  simp only
  generalize hresolve : resolveParentColl _ parentObj rank = resolved
  obtain ⟨ctx, parentColl, owner⟩ := resolved
  have hparent := resolveParentColl_cases hsound' hresolve
  have hat (coll : CollSlot) (hcoll : s.collPool.get parentColl = some coll) :
      ownerOf events id = some (some coll.id) := by
    obtain ⟨coll', hptr, hcoll', -⟩ | ⟨-, -, rfl, -⟩ := hparent
    · rw [howner, hptr, Option.bind_some, hcoll, Option.map_some]
    · cases hsound.get_invalid.symm.trans hcoll
  simp only
  split
  next proxyPool idx halloc =>
    refine Attributed.same (s := { s with proxyPool }) ?_ ?_ ⟨rfl, rfl, rfl, rfl⟩
    · refine ⟨⟨h.colls, h.collRows, h.op_rows⟩, h.ops.allocIndexed hsound.proxy halloc ?_,
        h.steps, h.kernels⟩
      refine ⟨?_, ?_, fun k hk => (by cases hk)⟩
      · obtain ⟨coll, hptr, hcoll, -, rfl⟩ | ⟨hnone, -, -, rfl⟩ := hparent
        · exact hat coll hcoll
        · exact howner.trans (congrArg (fun o : Option CollSlot => some (o.map (·.id))) hnone)
      · obtain ⟨coll, hptr, hcoll, rfl, -⟩ | ⟨hnone, rfl, -, -⟩ := hparent
        · exact .coll (hat coll hcoll) (h.colls parentColl coll hcoll).event
        · exact .fallback
            (howner.trans (congrArg (fun o : Option CollSlot => some (o.map (·.id))) hnone)) hevent
    · exact RowsOwn.childStarted ⟨h.colls, h.collRows, h.op_rows⟩
  · exact hs.notePoolExhausted hat

/-- A kernel event whose owner is the coll in the slot. -/
theorem Attributed.startKernelCh (h : s.Attributed events) (hsound : s.Sound)
    {parentObj : Handle} (howner : ownerOf events id =
      some ((parentObj.asColl.bind s.collPool.get).map (·.id)))
    (channelId : Int32) (gpuStartPtimer : UInt64) (now : ℤ) :
    (s.startKernelCh S id parentObj channelId gpuStartPtimer now).1.Attributed events := by
  rw [Pools.startKernelCh]
  have hs := h.count { s.counters with kernelCh := s.counters.kernelCh + 1 }
  simp only
  split
  · exact hs
  next parentColl hparent =>
  split
  · exact hs
  next coll hcoll =>
  have hat : ownerOf events id = some (some coll.id) := by
    obtain ⟨ptr, hptr, hindex⟩ := Option.bind_eq_some_iff.mp hparent
    rw [hsound.coll.indexOf_eq] at hindex
    obtain ⟨-, -, rfl⟩ := Option.map_eq_some_iff.mp hindex
    rw [howner, hptr, Option.bind_some, hcoll, Option.map_some]
  split
  next kchPool idx halloc =>
    refine Attributed.same (s := { s with kchPool }) ?_ ?_ ⟨rfl, rfl, rfl, rfl⟩
    · exact ⟨⟨h.colls, h.collRows, h.op_rows⟩, h.ops, h.steps,
        h.kernels.allocIndexed hsound.kch halloc hat⟩
    · exact RowsOwn.childStarted ⟨h.colls, h.collRows, h.op_rows⟩
  · refine hs.notePoolExhausted fun coll' hcoll' => ?_
    obtain rfl := Option.some.inj (hcoll.symm.trans hcoll')
    exact hat

/-- A step whose owner is the proxy op in the slot. -/
theorem Attributed.startProxyStep (h : s.Attributed events) (hsound : s.Sound)
    {parentObj : Handle} (howner : s.stepPool.free ≠ [] → ownerOf events id =
      some ((parentObj.asProxyOp.bind s.proxyPool.get).map (·.id)))
    (step : Int32) (now : ℤ) :
    (s.startProxyStep S id parentObj step now).1.Attributed events := by
  rw [Pools.startProxyStep]
  have hs := h.count { s.counters with proxyStep := s.counters.proxyStep + 1 }
  have hproxy : s.proxyPool.get ((parentObj.asProxyOp.bind s.proxyPool.indexOf).getD
      invalidIdx) = parentObj.asProxyOp.bind s.proxyPool.get := by
    cases parentObj.asProxyOp with
    | none => exact hsound.proxy.get_invalid
    | some ptr =>
        rw [Option.bind_some, Option.bind_some, hsound.proxy.indexOf_eq]
        cases hget : s.proxyPool.get ptr with
        | none => exact hsound.proxy.get_invalid
        | some slot => exact hget
  simp only
  split
  next stepPool idx halloc =>
    have hat := howner (SlotPool.free_ne_nil halloc)
    rw [← hproxy] at hat
    exact ⟨⟨h.colls, h.collRows, h.op_rows⟩, h.ops,
      h.steps.allocIndexed hsound.step halloc hat, h.kernels⟩
  · refine hs.notePoolExhausted fun coll hcoll => ?_
    cases hsound.get_invalid.symm.trans hcoll

theorem Attributed.startNetPlugin (h : s.Attributed events) (hsound : s.Sound) (id : ℕ)
    (rank : Int32) (qp : Option IbQp) (now : ℤ) :
    (s.startNetPlugin S id rank qp now).1.Attributed events := by
  rw [Pools.startNetPlugin]
  have hs := h.count { s.counters with netPlugin := s.counters.netPlugin + 1 }
  simp only
  split
  · exact ⟨⟨h.colls, h.collRows, h.op_rows⟩, h.ops, h.steps, h.kernels⟩
  · refine hs.notePoolExhausted fun coll hcoll => ?_
    cases hsound.get_invalid.symm.trans hcoll

theorem Attributed.recordState (h : s.Attributed events) (handle : Handle) (state : Int32)
    (args : StateArgs) (now : ℤ) : (s.recordState handle state args now).Attributed events := by
  cases handle with
  | null => exact h
  | group => exact h
  | coll ptr => exact h
  | net ptr => exact h
  | proxyStep ptr =>
      simp only [Pools.recordState]
      split
      next idx hidx =>
        refine ⟨⟨h.colls, h.collRows, h.op_rows⟩, h.ops, h.steps.modify ?_, h.kernels⟩
        intro slot hslot
        obtain ⟨-, hid, hparent, -⟩ := recordStep_keeps slot state args now
        rw [hid, hparent]
        exact h.steps idx slot hslot
      · exact h
  | proxyOp ptr =>
      simp only [Pools.recordState]
      split
      next idx hidx =>
        refine ⟨⟨h.colls, h.collRows, h.op_rows⟩, h.ops.modify ?_, h.steps, h.kernels⟩
        intro slot hslot
        obtain ⟨-, hid, -, hparent, hcoll, hsteps⟩ := recordProxyOp_keeps slot args
        obtain ⟨parent, context, steps⟩ := h.ops idx slot hslot
        rw [hid]
        exact ⟨hparent ▸ parent, hcoll ▸ context, hsteps ▸ steps⟩
      · exact h
  | kernelCh ptr =>
      simp only [Pools.recordState]
      split
      next idx hidx =>
        refine ⟨⟨h.colls, h.collRows, h.op_rows⟩, h.ops, h.steps, h.kernels.modify ?_⟩
        intro slot hslot
        obtain ⟨-, hid, -, hparent⟩ := recordKernelCh_keeps slot args
        rw [hid, hparent]
        exact h.kernels idx slot hslot
      · exact h

end Pools

end Probing.Nccl
