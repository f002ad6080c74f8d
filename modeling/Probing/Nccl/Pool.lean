import Mathlib.Algebra.BigOperators.Group.List.Basic
import Mathlib.Algebra.Order.Ring.Int
import Mathlib.Data.List.Nodup

/-!
# Slot pools

A pool is an array of slots and a stack of the free ones. A value keeps the index of its slot,
and a pointer to a slot is turned back into an index by reading that.
-/

namespace Probing.Nccl

def invalidIdx : ℕ := 2 ^ 32 - 1

/-- The shard and the index in the shard, in one number. -/
def packSlotId (shard local_idx : ℕ) : ℕ := local_idx % 2 ^ 24 + shard * 2 ^ 24

def slotIndex (packed : ℕ) : ℕ := packed % 2 ^ 24

/-- The types whose values keep the index of their slot. -/
class Indexed (T : Type) where
  setSelfIdx : T → ℕ → T
  selfIdx : T → ℕ
  self_idx_set (v : T) (idx : ℕ) : selfIdx (setSelfIdx v idx) = idx

/-- The memory of a slot: never written, left behind by a freed value, or a live value. -/
inductive Slot (T : Type) where
  | uninit
  | freed (value : T)
  | live (value : T)
  deriving DecidableEq

/-- The weight of a live value. -/
def Slot.weigh {T : Type} (weight : T → ℕ) : Slot T → ℕ
  | live value => weight value
  | _ => 0

/-- The free indices are a stack, its top first. -/
structure SlotPool (T : Type) where
  slots : List (Slot T)
  free : List ℕ
  deriving DecidableEq

namespace SlotPool

variable {T : Type}

def withCapacity (cap : ℕ) : SlotPool T := ⟨List.replicate cap .uninit, List.range cap⟩

def capacity (pool : SlotPool T) : ℕ := pool.slots.length

def alloc (pool : SlotPool T) (init : T) : Option (SlotPool T × ℕ) :=
  match pool.free with
  | [] => none
  | idx :: rest => some (⟨pool.slots.set idx (.live init), rest⟩, idx)

/-- `get_mut`: the live value at an index. -/
def get (pool : SlotPool T) (idx : ℕ) : Option T :=
  match pool.slots[idx]? with
  | some (.live value) => some value
  | _ => none

/-- A change of the value that `get_mut` returns, if it returns one. -/
def modify (pool : SlotPool T) (idx : ℕ) (change : T → T) : SlotPool T :=
  match pool.get idx with
  | some value => { pool with slots := pool.slots.set idx (.live (change value)) }
  | none => pool

def freeIdx (pool : SlotPool T) (idx : ℕ) : SlotPool T :=
  match pool.get idx with
  | some value => ⟨pool.slots.set idx (.freed value), idx :: pool.free⟩
  | none => pool

/-- What is read through a pointer to a slot, live or not. -/
def read (pool : SlotPool T) (ptr : ℕ) : Option T :=
  match pool.slots[ptr]? with
  | some (.live value) => some value
  | some (.freed value) => some value
  | _ => none

/-- The index is the one that the value at the pointer keeps, if that slot is live and is the
one the pointer points to. -/
def indexOf [Indexed T] (pool : SlotPool T) (ptr : ℕ) : Option ℕ :=
  match pool.read ptr with
  | some value =>
      let idx := slotIndex (Indexed.selfIdx value)
      if (pool.get idx).isSome ∧ idx = ptr then some idx else none
  | none => none

/-- `alloc`, and the store of the packed index that follows it. -/
def allocIndexed [Indexed T] (pool : SlotPool T) (shard : ℕ) (init : T) :
    Option (SlotPool T × ℕ) :=
  (pool.alloc init).map fun p =>
    (p.1.modify p.2 (Indexed.setSelfIdx · (packSlotId shard p.2)), p.2)

/-- The live values with their indices, in the order of the indices. -/
def liveValues (pool : SlotPool T) : List (ℕ × T) :=
  (List.range pool.capacity).filterMap fun idx => (pool.get idx).map (idx, ·)

/-- The sum of a weight over the live values. -/
def sum (pool : SlotPool T) (weight : T → ℕ) : ℕ :=
  (pool.slots.map (Slot.weigh weight)).sum

/-- The number of live values that satisfy a condition. -/
def count (pool : SlotPool T) (p : T → Bool) : ℕ := pool.sum fun value => if p value then 1 else 0

/-- The free stack holds the indices of the slots that are not live, once each, and a live
value keeps the index of its slot. -/
structure Sound [Indexed T] (pool : SlotPool T) : Prop where
  nodup : pool.free.Nodup
  mem_free : ∀ idx, idx ∈ pool.free ↔ idx < pool.capacity ∧ pool.get idx = none
  indexed : ∀ idx value, pool.get idx = some value → slotIndex (Indexed.selfIdx value) = idx
  capacity_le : pool.capacity ≤ 2 ^ 24

section Lemmas

variable {pool pool' : SlotPool T} {idx j : ℕ} {v : T}

theorem get_lt (h : pool.get idx = some v) : idx < pool.capacity := by
  unfold get at h
  split at h
  next hslot => exact (List.getElem?_eq_some_iff.mp hslot).1
  · exact (nomatch h)

theorem get_eq_some_iff : pool.get idx = some v ↔ pool.slots[idx]? = some (.live v) := by
  unfold get
  constructor
  · intro h
    split at h
    next hslot => rw [hslot, Option.some.inj h]
    · exact (nomatch h)
  · intro h
    rw [h]

theorem get_withCapacity (cap idx : ℕ) : (withCapacity cap : SlotPool T).get idx = none := by
  unfold get withCapacity
  simp only [List.getElem?_replicate]
  split
  next h => split at h <;> simp at h
  · rfl

/-- A slot that is written, with the other ones as they were. -/
theorem get_set (h : idx < pool.capacity) (slot : Slot T) (free : List ℕ) (j : ℕ) :
    get ⟨pool.slots.set idx slot, free⟩ j =
      if j = idx then (match slot with | .live v => some v | _ => none) else pool.get j := by
  by_cases hj : j = idx
  · subst hj
    have hslot : (pool.slots.set j slot)[j]? = some slot := List.getElem?_set_self h
    rw [if_pos rfl]
    simp only [get, hslot]
    cases slot <;> rfl
  · rw [if_neg hj]
    simp only [get, List.getElem?_set_ne (Ne.symm hj)]

theorem get_modify (change : T → T) (j : ℕ) :
    (pool.modify idx change).get j =
      if j = idx then (pool.get idx).map change else pool.get j := by
  rw [modify]
  split
  next v hv => rw [get_set (get_lt hv), hv, Option.map_some]
  next hv =>
    rw [hv, Option.map_none]
    split
    next hj => rw [hj, hv]
    · rfl

theorem get_freeIdx (j : ℕ) :
    (pool.freeIdx idx).get j = if j = idx then none else pool.get j := by
  rw [freeIdx]
  split
  next v hv => exact get_set (get_lt hv) _ _ _
  next hv =>
    split
    next hj => rw [hj, hv]
    · rfl

theorem capacity_modify (change : T → T) : (pool.modify idx change).capacity = pool.capacity := by
  rw [modify]
  split
  · exact List.length_set
  · rfl

theorem capacity_freeIdx : (pool.freeIdx idx).capacity = pool.capacity := by
  rw [freeIdx]
  split
  · exact List.length_set
  · rfl

theorem free_modify (change : T → T) : (pool.modify idx change).free = pool.free := by
  rw [modify]
  split <;> rfl

/-- Sums of a list and of the list with one entry replaced. -/
theorem sum_set {slots : List (Slot T)} (weigh : Slot T → ℕ) {slot : Slot T}
    (h : slots[idx]? = some slot) (slot' : Slot T) :
    ((slots.set idx slot').map weigh).sum + weigh slot = (slots.map weigh).sum + weigh slot' := by
  induction slots generalizing idx with
  | nil => exact (nomatch h)
  | cons first rest ih =>
      cases idx with
      | zero =>
          obtain rfl : first = slot := by simpa using h
          simp only [List.set_cons_zero, List.map_cons, List.sum_cons]
          omega
      | succ idx =>
          have hrest := ih (by simpa using h)
          simp only [List.set_cons_succ, List.map_cons, List.sum_cons]
          omega

theorem sum_modify (hv : pool.get idx = some v) (change : T → T) (weight : T → ℕ) :
    (pool.modify idx change).sum weight + weight v = pool.sum weight + weight (change v) := by
  rw [modify, hv]
  exact sum_set _ (get_eq_some_iff.1 hv) _

theorem sum_freeIdx (hv : pool.get idx = some v) (weight : T → ℕ) :
    (pool.freeIdx idx).sum weight + weight v = pool.sum weight := by
  rw [freeIdx, hv]
  exact sum_set _ (get_eq_some_iff.1 hv) _

theorem modify_of_none (h : pool.get idx = none) (change : T → T) :
    pool.modify idx change = pool := by
  rw [modify, h]

theorem freeIdx_of_none (h : pool.get idx = none) : pool.freeIdx idx = pool := by
  rw [freeIdx, h]

/-- A weight is part of the sum. -/
theorem le_sum (hv : pool.get idx = some v) (weight : T → ℕ) : weight v ≤ pool.sum weight := by
  have h := sum_freeIdx hv weight
  omega

theorem sum_congr {weight weight' : T → ℕ}
    (h : ∀ idx v, pool.get idx = some v → weight v = weight' v) :
    pool.sum weight = pool.sum weight' := by
  unfold sum
  congr 1
  apply List.map_congr_left
  intro slot hslot
  obtain ⟨idx, hidx⟩ := List.mem_iff_getElem?.mp hslot
  cases slot with
  | live v => exact h idx v (get_eq_some_iff.2 hidx)
  | freed v => rfl
  | uninit => rfl

end Lemmas

section Soundness

variable [Indexed T] {pool pool' : SlotPool T} {idx j : ℕ} {v : T}

theorem sound_withCapacity {cap : ℕ} (hcap : cap ≤ 2 ^ 24) :
    (withCapacity cap : SlotPool T).Sound := by
  have hnone := get_withCapacity (T := T) cap
  constructor
  · exact List.nodup_range
  · intro idx
    rw [hnone]
    simp [withCapacity, capacity]
  · intro idx v hv
    rw [hnone] at hv
    exact (nomatch hv)
  · simpa [capacity, withCapacity] using hcap

theorem Sound.modify (h : pool.Sound) {change : T → T}
    (hidx : ∀ v, pool.get idx = some v →
      Indexed.selfIdx (change v) = Indexed.selfIdx v) : (pool.modify idx change).Sound := by
  constructor
  · rw [free_modify]
    exact h.nodup
  · intro j
    rw [free_modify, capacity_modify, h.mem_free, get_modify]
    split
    next hj => rw [hj, Option.map_eq_none_iff]
    · exact Iff.rfl
  · intro j v hv
    rw [get_modify] at hv
    split at hv
    next hj =>
      obtain ⟨v', hv', rfl⟩ := Option.map_eq_some_iff.mp hv
      rw [hidx v' hv', h.indexed idx v' hv', hj]
    · exact h.indexed j v hv
  · rw [capacity_modify]
    exact h.capacity_le

theorem Sound.freeIdx (h : pool.Sound) : (pool.freeIdx idx).Sound := by
  cases hv : pool.get idx with
  | none =>
      rw [freeIdx_of_none hv]
      exact h
  | some v =>
      have hfree : (pool.freeIdx idx).free = idx :: pool.free := by rw [SlotPool.freeIdx, hv]
      have hnot : idx ∉ pool.free := by
        rw [h.mem_free, hv]
        simp
      constructor
      · rw [hfree]
        exact List.nodup_cons.mpr ⟨hnot, h.nodup⟩
      · intro j
        rw [hfree, List.mem_cons, h.mem_free, capacity_freeIdx, get_freeIdx]
        split
        next hj => simp [hj, get_lt hv]
        next hj => simp [hj]
      · intro j w hw
        rw [get_freeIdx] at hw
        split at hw
        · exact (nomatch hw)
        · exact h.indexed j w hw
      · rw [capacity_freeIdx]
        exact h.capacity_le

/-- The index for no slot is out of bounds. -/
theorem Sound.get_invalid (h : pool.Sound) : pool.get invalidIdx = none := by
  cases hv : pool.get invalidIdx with
  | none => rfl
  | some v =>
      have hlt := get_lt hv
      have hcap := h.capacity_le
      unfold invalidIdx at hlt
      omega

/-- What an allocation takes: a slot that was not live, with the index stored in it. -/
theorem Sound.allocIndexed (h : pool.Sound) {shard : ℕ}
    (halloc : pool.allocIndexed shard v = some (pool', idx)) :
    pool'.Sound ∧ pool.get idx = none ∧ pool'.capacity = pool.capacity ∧
      (∀ j, pool'.get j = if j = idx then some (Indexed.setSelfIdx v (packSlotId shard idx))
        else pool.get j) ∧
      ∀ weight : T → ℕ, pool'.sum weight =
        pool.sum weight + weight (Indexed.setSelfIdx v (packSlotId shard idx)) := by
  obtain ⟨⟨mid, i⟩, hmid, hpool⟩ := Option.map_eq_some_iff.mp halloc
  obtain ⟨rfl, rfl⟩ := Prod.mk.inj hpool
  cases hfree : pool.free with
  | nil =>
      rw [alloc, hfree] at hmid
      exact (nomatch hmid)
  | cons top rest =>
      rw [alloc, hfree] at hmid
      obtain ⟨rfl, rfl⟩ := Prod.mk.inj (Option.some.inj hmid)
      have hmem : top ∈ pool.free := by simp [hfree]
      obtain ⟨hlt, hnone⟩ := (h.mem_free top).mp hmem
      have hnodup := h.nodup
      rw [hfree, List.nodup_cons] at hnodup
      have hget (j : ℕ) := get_set hlt (.live v) rest j
      have htop := hget top
      rw [if_pos rfl] at htop
      have hget' (j : ℕ) : (SlotPool.modify ⟨pool.slots.set top (.live v), rest⟩ top
          (Indexed.setSelfIdx · (packSlotId shard top))).get j =
          if j = top then some (Indexed.setSelfIdx v (packSlotId shard top))
          else pool.get j := by
        rw [get_modify, htop, Option.map_some, hget]
        split <;> rfl
      refine ⟨⟨?_, ?_, ?_, ?_⟩, hnone, ?_, hget', ?_⟩
      · rw [free_modify]
        exact hnodup.2
      · intro j
        have hj := h.mem_free j
        rw [hfree, List.mem_cons] at hj
        rw [free_modify, capacity_modify, hget']
        simp only [capacity, List.length_set] at hj ⊢
        split
        next heq =>
          subst heq
          simp [hnodup.1]
        next hne => simpa [hne] using hj
      · intro j w hw
        rw [hget'] at hw
        split at hw
        next heq =>
          obtain rfl := Option.some.inj hw
          have hcap := h.capacity_le
          rw [Indexed.self_idx_set, heq, slotIndex, packSlotId]
          omega
        · exact h.indexed j w hw
      · rw [capacity_modify]
        simpa [capacity] using h.capacity_le
      · rw [capacity_modify]
        simp [capacity]
      · intro weight
        obtain ⟨slot, hslot⟩ : ∃ slot, pool.slots[top]? = some slot :=
          ⟨_, List.getElem?_eq_getElem hlt⟩
        have hset := sum_set (Slot.weigh weight) hslot (.live v)
        have hzero : slot.weigh weight = 0 := by
          cases slot with
          | live w =>
              rw [get_eq_some_iff.2 hslot] at hnone
              exact (nomatch hnone)
          | freed w => rfl
          | uninit => rfl
        have hmodify := sum_modify htop
          (Indexed.setSelfIdx · (packSlotId shard top)) weight
        have hv : Slot.weigh weight (.live v) = weight v := rfl
        simp only [sum] at hmodify ⊢
        omega

/-- A pointer to a slot stands for its index exactly as long as the slot is live. -/
theorem Sound.indexOf_eq (h : pool.Sound) (ptr : ℕ) :
    pool.indexOf ptr = (pool.get ptr).map fun _ => ptr := by
  rw [indexOf, read, get]
  cases hslot : pool.slots[ptr]? with
  | none => rfl
  | some slot =>
      cases slot with
      | live v =>
          have hv := get_eq_some_iff.2 hslot
          have hidx := h.indexed ptr v hv
          simp [hidx, hv]
      | freed v =>
          have hnone : pool.get ptr = none := by rw [get, hslot]
          simp only [Option.map_none, ite_eq_right_iff]
          intro hlive
          rw [hlive.2, hnone] at hlive
          exact (nomatch hlive.1)
      | uninit => rfl

end Soundness

end SlotPool

end Probing.Nccl
