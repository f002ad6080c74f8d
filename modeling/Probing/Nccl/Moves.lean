import Probing.Nccl.Links

/-!
# What the calls leave alone

The row of a stopped proxy op and the drains change the waiting rows of colls only. A coll that
was changed is kept, or freed if it is complete; the other pools stay as they are.
-/

namespace Probing.Nccl

theorem CollSlot.Alike.trans {a b c : CollSlot} (h : a.Alike b) (h' : b.Alike c) : a.Alike c where
  id := h'.id.trans h.id
  selfIdx := h'.selfIdx.trans h.selfIdx
  ctx := h'.ctx.trans h.ctx
  perfMeta := h'.perfMeta.trans h.perfMeta
  children := h'.children.trans h.children
  liveChildren := h'.liveChildren.trans h.liveChildren
  stopped := h'.stopped.trans h.stopped

theorem CollSlot.alike_pending (coll : CollSlot) (pending : List CompletedProxyOp) :
    coll.Alike { coll with pending } :=
  ⟨rfl, rfl, rfl, rfl, rfl, rfl, rfl⟩

/-- A window was observed; the rest of the coll stays. -/
structure CollSlot.Observed (a b : CollSlot) : Prop extends a.Alike b where
  dropped : b.dropped = a.dropped
  pending : b.pending = a.pending

theorem CollSlot.observed_proxy (coll : CollSlot) (startNs stopNs : ℤ) :
    coll.Observed (coll.observeProxy startNs stopNs) :=
  ⟨⟨rfl, rfl, rfl, rfl, rfl, rfl, rfl⟩, rfl, rfl⟩

theorem CollSlot.observed_kch (coll : CollSlot) (startNs stopNs : ℤ)
    (start_ptimer stop_ptimer : UInt64) :
    coll.Observed ((coll.observeKch startNs stopNs).observeKchGpu start_ptimer
      stop_ptimer) := by
  rw [CollSlot.observeKchGpu]
  split
  · exact ⟨⟨rfl, rfl, rfl, rfl, rfl, rfl, rfl⟩, rfl, rfl⟩
  · exact ⟨⟨rfl, rfl, rfl, rfl, rfl, rfl, rfl⟩, rfl, rfl⟩

namespace Pools

/-- The pools of the children, with those of the other events. -/
structure SameChildren (s t : Pools) : Prop where
  proxyPool : t.proxyPool = s.proxyPool
  stepPool : t.stepPool = s.stepPool
  kchPool : t.kchPool = s.kchPool
  netPool : t.netPool = s.netPool

/-- Only rows were moved, among the colls and out of them. -/
structure Moves (s t : Pools) : Prop extends SameChildren s t where
  colls : SlotPool.Matches CollSlot.Alike s.collPool t.collPool
  sound : s.collPool.Sound → t.collPool.Sound

variable {S : Setting} {s t u : Pools} {i j : ℕ}

theorem SameChildren.refl (s : Pools) : s.SameChildren s := ⟨rfl, rfl, rfl, rfl⟩

theorem SameChildren.trans (h : s.SameChildren t) (h' : t.SameChildren u) : s.SameChildren u where
  proxyPool := h'.proxyPool.trans h.proxyPool
  stepPool := h'.stepPool.trans h.stepPool
  kchPool := h'.kchPool.trans h.kchPool
  netPool := h'.netPool.trans h.netPool

theorem SameChildren.children (h : s.SameChildren t) (idx : ℕ) :
    t.children idx = s.children idx := by
  rw [Pools.children, Pools.children, h.proxyPool, h.kchPool]

theorem Moves.of_eq (h : s.SameChildren t) (hcoll : t.collPool = s.collPool) :
    s.Moves t where
  toSameChildren := h
  colls := hcoll ▸ SlotPool.matches_refl CollSlot.Alike.refl
  sound := hcoll ▸ id

theorem Moves.refl (s : Pools) : s.Moves s := .of_eq (.refl s) rfl

theorem Moves.trans (h : s.Moves t) (h' : t.Moves u) : s.Moves u where
  toSameChildren := h.toSameChildren.trans h'.toSameChildren
  colls idx := by
    cases hs : s.collPool.get idx with
    | none =>
        cases hu : u.collPool.get idx with
        | none => exact .none
        | some coll =>
            obtain ⟨coll', hcoll', -⟩ := h'.colls.get_right hu
            obtain ⟨coll'', hcoll'', -⟩ := h.colls.get_right hcoll'
            rw [hs] at hcoll''
            exact (nomatch hcoll'')
    | some coll =>
        obtain ⟨coll', hcoll', halike⟩ := h.colls.get_left hs
        obtain ⟨coll'', hcoll'', halike'⟩ := h'.colls.get_left hcoll'
        rw [hcoll'']
        exact .some (halike.trans halike')
  sound hs := h'.sound (h.sound hs)

/-- One coll changes, in what the links do not read. -/
theorem Moves.modify {change : CollSlot → CollSlot} (hchildren : s.SameChildren t)
    (hcoll : t.collPool = s.collPool.modify i change)
    (halike : ∀ coll, s.collPool.get i = some coll → coll.Alike (change coll)) :
    s.Moves t where
  toSameChildren := hchildren
  colls := hcoll ▸ SlotPool.matches_modify CollSlot.Alike.refl halike
  sound hs := hcoll ▸ hs.modify fun coll hget => (halike coll hget).selfIdx

theorem Moves.linked (h : s.Moves t) (hs : s.Linked) : t.Linked := by
  apply hs.quiet h.colls _ _ h.children
  · rw [h.proxyPool]
    exact SlotPool.matches_refl fun slot => ⟨rfl, rfl⟩
  · rw [h.kchPool]
    exact SlotPool.matches_refl fun slot => ⟨rfl, rfl⟩

theorem Moves.all_sound (h : s.Moves t) (hs : s.Sound) : t.Sound where
  coll := h.sound hs.coll
  proxy := by rw [h.proxyPool]; exact hs.proxy
  step := by rw [h.stepPool]; exact hs.step
  kch := by rw [h.kchPool]; exact hs.kch
  net := by rw [h.netPool]; exact hs.net

theorem moves_flushProxyRow (parentColl : ℕ) (row : CompletedProxyOp) :
    s.Moves (s.flushProxyRow S parentColl row) := by
  rw [flushProxyRow]
  split
  next coll hcoll =>
    have hcoll : s.collPool.get parentColl = some coll := by
      split at hcoll
      · cases hcoll
      · exact hcoll
    have hself {coll' : CollSlot} (hcoll' : s.collPool.get parentColl = some coll') :
        coll' = coll := Option.some.inj (hcoll'.symm.trans hcoll)
    split
    · exact .of_eq ⟨rfl, rfl, rfl, rfl⟩ rfl
    split
    next pushed hpush =>
      rw [CollSlot.pushPending] at hpush
      split at hpush
      · cases hpush
      obtain rfl := Option.some.inj hpush
      refine .modify ⟨rfl, rfl, rfl, rfl⟩ rfl fun coll' hcoll' => ?_
      rw [hself hcoll']
      exact coll.alike_pending _
    next hfull =>
      simp only [pushPending_nil]
      refine .modify ⟨rfl, rfl, rfl, rfl⟩ rfl fun coll' hcoll' => ?_
      rw [hself hcoll']
      exact coll.alike_pending _
  next hnone =>
    split
    · exact .of_eq ⟨rfl, rfl, rfl, rfl⟩ rfl
    · exact .of_eq ⟨rfl, rfl, rfl, rfl⟩ rfl

theorem moves_notePoolExhausted (parentColl id : ℕ) :
    s.Moves (s.notePoolExhausted parentColl id) := by
  rw [notePoolExhausted]
  split
  · exact .of_eq ⟨rfl, rfl, rfl, rfl⟩ rfl
  · exact .modify ⟨rfl, rfl, rfl, rfl⟩ rfl fun coll hcoll => ⟨rfl, rfl, rfl, rfl, rfl, rfl, rfl⟩

theorem moves_drainColl (drains : CollSlot → Bool) (idx : ℕ) :
    s.Moves (s.drainColl drains idx) := by
  rw [drainColl]
  split
  · split
    · exact .modify ⟨rfl, rfl, rfl, rfl⟩ rfl fun coll hcoll => coll.alike_pending []
    · exact .refl s
  · exact .refl s

theorem moves_drain (drains : CollSlot → Bool) : s.Moves (s.drain drains) := by
  rw [drain]
  generalize List.range s.collPool.capacity = indices
  induction indices generalizing s with
  | nil => exact .refl s
  | cons idx rest ih => exact (moves_drainColl drains idx).trans ih

/-- A coll without its slot has left its row, and the other colls stay. -/
theorem get_maybeCompleteColl (hinvalid : s.collPool.get invalidIdx = none) (now : ℤ) :
    (s.maybeCompleteColl S i now).collPool.get j =
      if j = i then (s.collPool.get i).filter (!·.isComplete) else s.collPool.get j := by
  have hkeep {coll : Option CollSlot} (hcoll : s.collPool.get i = coll)
      (hnot : coll.filter (!·.isComplete) = coll) :
      s.collPool.get j = if j = i then coll.filter (!·.isComplete) else s.collPool.get j := by
    split
    next hj => rw [hj, hcoll, hnot]
    · rfl
  rw [maybeCompleteColl]
  split
  next hi =>
    rw [hi, hinvalid]
    exact hi ▸ hkeep (hi ▸ hinvalid) rfl
  split
  next hnone =>
    rw [hnone]
    exact hkeep hnone rfl
  next coll hcoll =>
  split
  next hnot =>
    rw [hcoll]
    exact hkeep hcoll (by rw [Option.filter_some, hnot]; rfl)
  next hcomplete =>
    have hfilter : (s.collPool.get i).filter (!·.isComplete) = none := by
      rw [hcoll, Option.filter_some, Bool.of_not_eq_false hcomplete]
      rfl
    rw [hfilter]
    simp only
    split <;> exact SlotPool.get_freeIdx j

theorem same_maybeCompleteColl (now : ℤ) :
    s.SameChildren (s.maybeCompleteColl S i now) := by
  rw [maybeCompleteColl]
  split
  · exact .refl s
  split
  · exact .refl s
  split
  · exact .refl s
  simp only
  split
  · exact ⟨rfl, rfl, rfl, rfl⟩
  · exact ⟨rfl, rfl, rfl, rfl⟩

theorem sound_maybeCompleteColl (hs : s.collPool.Sound) (now : ℤ) :
    (s.maybeCompleteColl S i now).collPool.Sound := by
  rw [maybeCompleteColl]
  split
  · exact hs
  split
  · exact hs
  split
  · exact hs
  simp only
  split
  · exact hs.freeIdx
  · exact hs.freeIdx

theorem same_childStopped (id : ℕ) (observe : CollSlot → CollSlot) :
    s.SameChildren (s.childStopped i id observe) := by
  rw [childStopped]
  split
  · exact .refl s
  · exact ⟨rfl, rfl, rfl, rfl⟩

theorem get_childStopped (hinvalid : s.collPool.get invalidIdx = none) (id : ℕ)
    (observe : CollSlot → CollSlot) :
    (s.childStopped i id observe).collPool.get j =
      if j = i then (s.collPool.get i).map fun coll =>
        { observe coll with
          liveChildren := (observe coll).liveChildren - 1
          children := (observe coll).children ++ [id] }
      else s.collPool.get j := by
  rw [childStopped]
  split
  next hi =>
    rw [hi, hinvalid, Option.map_none]
    split
    next hj => rw [hj, hinvalid]
    · rfl
  · exact SlotPool.get_modify _ j

theorem sound_childStopped (hs : s.collPool.Sound) (id : ℕ) {observe : CollSlot → CollSlot}
    (hself : ∀ coll, (observe coll).selfIdx = coll.selfIdx) :
    (s.childStopped i id observe).collPool.Sound := by
  rw [childStopped]
  split
  · exact hs
  · exact hs.modify fun coll hcoll => hself coll

end Pools

end Probing.Nccl
