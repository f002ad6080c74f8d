import Probing.Nccl.Ledger

/-!
# The children of a coll

The counter of a live coll is the number of live proxy ops and kernel events that name its
slot, and a child finds in that slot the coll that was its parent at the start.
-/

namespace Probing.Nccl

/-- Two colls that agree on what the links, the completion and the row read. -/
structure CollSlot.Alike (a b : CollSlot) : Prop where
  id : b.id = a.id
  selfIdx : b.selfIdx = a.selfIdx
  ctx : b.ctx = a.ctx
  perfMeta : b.perfMeta = a.perfMeta
  children : b.children = a.children
  liveChildren : b.liveChildren = a.liveChildren
  stopped : b.stopped = a.stopped

theorem CollSlot.Alike.refl (a : CollSlot) : a.Alike a := ⟨rfl, rfl, rfl, rfl, rfl, rfl, rfl⟩

theorem CollSlot.Alike.isComplete {a b : CollSlot} (h : a.Alike b) :
    b.isComplete = a.isComplete := by
  rw [CollSlot.isComplete, h.stopped, h.liveChildren, CollSlot.isComplete]

namespace SlotPool

variable {T : Type} {pool pool' : SlotPool T} {idx : ℕ} {v v' : T}

/-- The pools have values at the same indices, and these are related. -/
def Matches (r : T → T → Prop) (pool pool' : SlotPool T) : Prop :=
  ∀ idx, Option.Rel r (pool.get idx) (pool'.get idx)

theorem matches_refl {r : T → T → Prop} (hrefl : ∀ v, r v v) : Matches r pool pool := by
  intro idx
  cases pool.get idx with
  | none => exact .none
  | some v => exact .some (hrefl v)

theorem matches_modify {r : T → T → Prop} {change : T → T} (hrefl : ∀ v, r v v)
    (h : ∀ v, pool.get idx = some v → r v (change v)) :
    Matches r pool (pool.modify idx change) := by
  intro j
  rw [get_modify]
  split
  next hj =>
    rw [hj]
    cases hv : pool.get idx with
    | none => exact .none
    | some v => exact .some (h v hv)
  · exact matches_refl hrefl j

theorem Matches.get_left {r : T → T → Prop} (h : Matches r pool pool')
    (hv : pool.get idx = some v) : ∃ v', pool'.get idx = some v' ∧ r v v' := by
  have hidx := h idx
  rw [hv] at hidx
  cases hget : pool'.get idx with
  | none =>
      rw [hget] at hidx
      exact (nomatch hidx)
  | some v' =>
      rw [hget] at hidx
      cases hidx with
      | some hr => exact ⟨v', rfl, hr⟩

theorem Matches.get_right {r : T → T → Prop} (h : Matches r pool pool')
    (hv : pool'.get idx = some v') : ∃ v, pool.get idx = some v ∧ r v v' := by
  have hidx := h idx
  rw [hv] at hidx
  cases hget : pool.get idx with
  | none =>
      rw [hget] at hidx
      exact (nomatch hidx)
  | some v =>
      rw [hget] at hidx
      cases hidx with
      | some hr => exact ⟨v, rfl, hr⟩

/-- A live value that satisfies the condition is counted. -/
theorem count_pos {p : T → Bool} (hv : pool.get idx = some v) (hp : p v = true) :
    0 < pool.count p := by
  have hle := le_sum hv fun value => if p value then 1 else 0
  rw [hp, if_pos rfl] at hle
  exact hle

theorem count_eq_zero {p : T → Bool} (h : ∀ idx v, pool.get idx = some v → p v = false) :
    pool.count p = 0 := by
  have hzero : pool.count p = pool.sum fun _ => 0 :=
    sum_congr fun idx v hv => by rw [h idx v hv]; rfl
  rw [hzero, sum]
  apply List.sum_eq_zero
  intro n hn
  obtain ⟨slot, -, rfl⟩ := List.mem_map.mp hn
  cases slot <;> rfl

end SlotPool

namespace Pools

/-- The live children that name a slot as their parent's. -/
def children (s : Pools) (idx : ℕ) : ℕ :=
  (s.proxyPool.count fun slot => slot.op.parentColl == idx) +
    s.kchPool.count fun slot => slot.parentColl == idx

structure Linked (s : Pools) : Prop where
  liveChildren : ∀ idx coll, s.collPool.get idx = some coll →
    coll.liveChildren = s.children idx
  proxy_parent : ∀ idx slot, s.proxyPool.get idx = some slot →
    slot.op.parentColl = invalidIdx ∧ slot.op.parent = none ∨
      ∃ coll, s.collPool.get slot.op.parentColl = some coll ∧ slot.op.parent = some coll.id
  kch_parent : ∀ idx slot, s.kchPool.get idx = some slot →
    ∃ coll, s.collPool.get slot.parentColl = some coll ∧ slot.parent = coll.id
  waiting : ∀ idx coll, s.collPool.get idx = some coll → coll.isComplete = false

/-- The slots of the five pools are in order. -/
structure Sound (s : Pools) : Prop where
  coll : s.collPool.Sound
  proxy : s.proxyPool.Sound
  step : s.stepPool.Sound
  kch : s.kchPool.Sound
  net : s.netPool.Sound

variable {S : Setting} {s t : Pools} {i : ℕ}

theorem Sound.get_invalid (h : s.Sound) : s.collPool.get invalidIdx = none :=
  h.coll.get_invalid

/-- A child that names a live slot is counted there. -/
theorem children_pos_of_proxy {k : ℕ} {slot : ProxyOpSlot} (h : s.proxyPool.get k = some slot) :
    0 < s.children slot.op.parentColl := by
  have hpos : 0 < s.proxyPool.count fun other => other.op.parentColl == slot.op.parentColl :=
    SlotPool.count_pos h (beq_self_eq_true slot.op.parentColl)
  exact Nat.add_pos_left hpos _

theorem children_pos_of_kch {k : ℕ} {slot : KernelChSlot} (h : s.kchPool.get k = some slot) :
    0 < s.children slot.parentColl := by
  have hpos : 0 < s.kchPool.count fun other => other.parentColl == slot.parentColl :=
    SlotPool.count_pos h (beq_self_eq_true slot.parentColl)
  exact Nat.add_pos_right _ hpos

/-- A slot without a live coll has no children. -/
theorem Linked.children_eq_zero (h : s.Linked) (hi : i ≠ invalidIdx)
    (hnone : s.collPool.get i = none) : s.children i = 0 := by
  have hproxy : (s.proxyPool.count fun slot => slot.op.parentColl == i) = 0 := by
    refine SlotPool.count_eq_zero fun k slot hslot => beq_eq_false_iff_ne.mpr fun heq => ?_
    obtain ⟨hparent, -⟩ | ⟨coll, hcoll, -⟩ := h.proxy_parent k slot hslot
    · exact hi (heq.symm.trans hparent)
    · rw [heq, hnone] at hcoll
      exact (nomatch hcoll)
  have hkch : (s.kchPool.count fun slot => slot.parentColl == i) = 0 := by
    refine SlotPool.count_eq_zero fun k slot hslot => beq_eq_false_iff_ne.mpr fun heq => ?_
    obtain ⟨coll, hcoll, -⟩ := h.kch_parent k slot hslot
    rw [heq, hnone] at hcoll
    exact (nomatch hcoll)
  rw [children, hproxy, hkch]

/-- Nothing that the links read has changed. -/
theorem Linked.quiet (h : s.Linked)
    (hcoll : SlotPool.Matches CollSlot.Alike s.collPool t.collPool)
    (hproxy : SlotPool.Matches (fun a b => b.op.parentColl = a.op.parentColl ∧
      b.op.parent = a.op.parent) s.proxyPool t.proxyPool)
    (hkch : SlotPool.Matches (fun a b => b.parentColl = a.parentColl ∧ b.parent = a.parent)
      s.kchPool t.kchPool)
    (hchildren : ∀ idx, t.children idx = s.children idx) : t.Linked := by
  constructor
  · intro idx coll' hcoll'
    obtain ⟨coll, hget, halike⟩ := hcoll.get_right hcoll'
    rw [halike.liveChildren, hchildren, h.liveChildren idx coll hget]
  · intro k slot' hslot'
    obtain ⟨slot, hslot, hparent, hid⟩ := hproxy.get_right hslot'
    rw [hparent, hid]
    obtain hnone | ⟨coll, hget, hparent⟩ := h.proxy_parent k slot hslot
    · exact .inl hnone
    · obtain ⟨coll', hget', halike⟩ := hcoll.get_left hget
      exact .inr ⟨coll', hget', by rw [halike.id, hparent]⟩
  · intro k slot' hslot'
    obtain ⟨slot, hslot, hparent, hid⟩ := hkch.get_right hslot'
    obtain ⟨coll, hget, hcollid⟩ := h.kch_parent k slot hslot
    obtain ⟨coll', hget', halike⟩ := hcoll.get_left hget
    exact ⟨coll', by rw [hparent, hget'], by rw [hid, halike.id, hcollid]⟩
  · intro idx coll' hcoll'
    obtain ⟨coll, hget, halike⟩ := hcoll.get_right hcoll'
    rw [halike.isComplete, h.waiting idx coll hget]

/-- A coll is stored in a slot that was free. -/
theorem Linked.coll_started (h : s.Linked) {new : CollSlot} (hi : i ≠ invalidIdx)
    (hnone : s.collPool.get i = none)
    (hcoll : ∀ j, t.collPool.get j = if j = i then some new else s.collPool.get j)
    (hnew : new.liveChildren = 0 ∧ new.stopped = false)
    (hproxy : t.proxyPool = s.proxyPool) (hkch : t.kchPool = s.kchPool) : t.Linked := by
  have hchildren (j : ℕ) : t.children j = s.children j := by
    rw [children, children, hproxy, hkch]
  have hkeep {j : ℕ} {coll : CollSlot} (hget : s.collPool.get j = some coll) :
      t.collPool.get j = some coll := by
    rw [hcoll, if_neg, hget]
    rintro rfl
    rw [hnone] at hget
    exact (nomatch hget)
  constructor
  · intro j coll hget
    rw [hcoll] at hget
    split at hget
    next hj =>
      obtain rfl := Option.some.inj hget
      rw [hchildren, hj, h.children_eq_zero hi hnone, hnew.1]
    · rw [hchildren, h.liveChildren j coll hget]
  · intro k slot hslot
    rw [hproxy] at hslot
    obtain hparent | ⟨coll, hget, hparent⟩ := h.proxy_parent k slot hslot
    · exact .inl hparent
    · exact .inr ⟨coll, hkeep hget, hparent⟩
  · intro k slot hslot
    rw [hkch] at hslot
    obtain ⟨coll, hget, hparent⟩ := h.kch_parent k slot hslot
    exact ⟨coll, hkeep hget, hparent⟩
  · intro j coll hget
    rw [hcoll] at hget
    split at hget
    · obtain rfl := Option.some.inj hget
      rw [CollSlot.isComplete, hnew.2, Bool.false_and]
    · exact h.waiting j coll hget

/-- The coll in a slot gets one child more. -/
theorem Linked.childStarted (h : s.Linked) {change : CollSlot → CollSlot}
    (hcoll : ∀ j, t.collPool.get j =
      if j = i then (s.collPool.get i).map change else s.collPool.get j)
    (hchange : ∀ coll, s.collPool.get i = some coll →
      (change coll).liveChildren = coll.liveChildren + 1 ∧ (change coll).id = coll.id)
    (hchildren : ∀ j, t.children j = s.children j + if j = i then 1 else 0)
    (hproxy : ∀ k slot, t.proxyPool.get k = some slot → s.proxyPool.get k = some slot ∨
      (slot.op.parentColl = invalidIdx ∧ slot.op.parent = none ∨
        ∃ coll, s.collPool.get slot.op.parentColl = some coll ∧ slot.op.parent = some coll.id))
    (hkch : ∀ k slot, t.kchPool.get k = some slot → s.kchPool.get k = some slot ∨
      ∃ coll, s.collPool.get slot.parentColl = some coll ∧ slot.parent = coll.id) :
    t.Linked := by
  have hkeep {j : ℕ} {coll : CollSlot} (hget : s.collPool.get j = some coll) :
      ∃ coll', t.collPool.get j = some coll' ∧ coll'.id = coll.id := by
    rw [hcoll]
    split
    next hj =>
      rw [hj] at hget
      exact ⟨change coll, by rw [hget, Option.map_some], (hchange coll hget).2⟩
    · exact ⟨coll, hget, rfl⟩
  constructor
  · intro j coll' hget
    rw [hcoll] at hget
    rw [hchildren]
    split at hget
    next hj =>
      obtain ⟨coll, hget', rfl⟩ := Option.map_eq_some_iff.mp hget
      rw [(hchange coll hget').1, h.liveChildren i coll hget', if_pos hj, hj]
    next hj => rw [if_neg hj, h.liveChildren j coll' hget, Nat.add_zero]
  · intro k slot hslot
    have hparent : slot.op.parentColl = invalidIdx ∧ slot.op.parent = none ∨
        ∃ coll, s.collPool.get slot.op.parentColl = some coll ∧ slot.op.parent = some coll.id :=
      (hproxy k slot hslot).elim (h.proxy_parent k slot) fun hnew => hnew
    obtain hparent | ⟨coll, hget, hparent⟩ := hparent
    · exact .inl hparent
    · obtain ⟨coll', hget', hid⟩ := hkeep hget
      exact .inr ⟨coll', hget', by rw [hparent, hid]⟩
  · intro k slot hslot
    have hparent : ∃ coll, s.collPool.get slot.parentColl = some coll ∧ slot.parent = coll.id :=
      (hkch k slot hslot).elim (h.kch_parent k slot) fun hnew => hnew
    obtain ⟨coll, hget, hparent⟩ := hparent
    obtain ⟨coll', hget', hid⟩ := hkeep hget
    exact ⟨coll', hget', by rw [hparent, hid]⟩
  · intro j coll' hget
    rw [hcoll] at hget
    split at hget
    · obtain ⟨coll, hget', rfl⟩ := Option.map_eq_some_iff.mp hget
      rw [CollSlot.isComplete, (hchange coll hget').1]
      simp
    · exact h.waiting j coll' hget

/-- The coll in a slot is changed and freed if it is complete then. -/
theorem Linked.settle (h : s.Linked) {change : CollSlot → CollSlot}
    (hcoll : ∀ j, t.collPool.get j =
      if j = i then (s.collPool.get i).bind fun coll =>
        if (change coll).isComplete then none else some (change coll)
      else s.collPool.get j)
    (hchange : ∀ coll, s.collPool.get i = some coll →
      (change coll).liveChildren = t.children i ∧ (change coll).id = coll.id)
    (hchildren : ∀ j ≠ i, t.children j = s.children j)
    (hproxy : ∀ k slot, t.proxyPool.get k = some slot → s.proxyPool.get k = some slot)
    (hkch : ∀ k slot, t.kchPool.get k = some slot → s.kchPool.get k = some slot) :
    t.Linked := by
  have hat {coll' : CollSlot} (hget : t.collPool.get i = some coll') :
      ∃ coll, s.collPool.get i = some coll ∧ coll' = change coll ∧
        (change coll).isComplete = false := by
    rw [hcoll, if_pos rfl] at hget
    obtain ⟨coll, hget', hcomplete⟩ := Option.bind_eq_some_iff.mp hget
    split at hcomplete
    · exact (nomatch hcomplete)
    next hnot =>
      exact ⟨coll, hget', (Option.some.inj hcomplete).symm, Bool.eq_false_iff.mpr hnot⟩
  have hkeep {j : ℕ} {coll : CollSlot} (hget : s.collPool.get j = some coll)
      (hpos : 0 < t.children j) : ∃ coll', t.collPool.get j = some coll' ∧ coll'.id = coll.id := by
    rw [hcoll]
    split
    next hj =>
      subst hj
      obtain ⟨hlive, hid⟩ := hchange coll hget
      -- it has a child left, so it is not complete
      have hnot : (change coll).isComplete = false := by
        have hne : (t.children j == 0) = false := beq_eq_false_iff_ne.mpr (Nat.ne_of_gt hpos)
        rw [CollSlot.isComplete, hlive, hne, Bool.and_false]
      exact ⟨change coll, by rw [hget, Option.bind_some, hnot]; rfl, hid⟩
    · exact ⟨coll, hget, rfl⟩
  constructor
  · intro j coll' hget
    by_cases hj : j = i
    · subst hj
      obtain ⟨coll, hget', rfl, -⟩ := hat hget
      exact (hchange coll hget').1
    · rw [hcoll, if_neg hj] at hget
      rw [hchildren j hj, h.liveChildren j coll' hget]
  · intro k slot hslot
    obtain hparent | ⟨coll, hget, hparent⟩ := h.proxy_parent k slot (hproxy k slot hslot)
    · exact .inl hparent
    · obtain ⟨coll', hget', hid⟩ := hkeep hget (children_pos_of_proxy hslot)
      exact .inr ⟨coll', hget', by rw [hparent, hid]⟩
  · intro k slot hslot
    obtain ⟨coll, hget, hparent⟩ := h.kch_parent k slot (hkch k slot hslot)
    obtain ⟨coll', hget', hid⟩ := hkeep hget (children_pos_of_kch hslot)
    exact ⟨coll', hget', by rw [hparent, hid]⟩
  · intro j coll' hget
    by_cases hj : j = i
    · subst hj
      obtain ⟨coll, -, rfl, hnot⟩ := hat hget
      exact hnot
    · rw [hcoll, if_neg hj] at hget
      exact h.waiting j coll' hget

end Pools

end Probing.Nccl
