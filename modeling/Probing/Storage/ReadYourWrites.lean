import Mathlib.Data.List.Sort
import Probing.Core.Replicas
import Probing.Core.Run
import Probing.Storage.Distributed

/-!
# Reads see the last write

A get consults the worker's own store, in the rare case its raw check succeeds, and then the
stores of the best workers of the three best nodes. A put writes the writer's own store and the
best workers of other nodes. What is written and what is consulted is described by the topology,
the scores and the workers that run, and reads see the last write where the two meet.
-/

namespace Probing.Storage

open Probing.Core (exec Meets exec_invariant)

variable {T E B : Type*} (D : Deployment) (S : Entities T E B)

/-- The copies of one key. -/
def Copies (stores : Stores B) (k : String) : String → Option B := fun worker => stores worker k

/-- The stores behind the locations a worker can reach. -/
def reached (worker : String) (locations : List Address) : List String :=
  locations.filterMap (storeAt D worker)

/-- The workers of a ranking that run. -/
def live (ps : List (String × String)) : List String :=
  (ps.map Prod.snd).filter fun worker => worker ∈ D.running

/-- The stores a `put` writes. -/
def putStores (worker id : String) : List String :=
  reached D worker (D.selectWriteLocations
    (((D.addressAllocator worker).allocateAddresses D.placement ⟨some worker, id⟩).toOption.getD
      []))

/-- The worker's own store, if the raw check finds the id there. -/
def own (stores : Stores B) (worker id : String) : List String :=
  if (stores worker id).isSome then [worker] else []

/-- The stores a `get` consults, in order, and a `del` deletes from. -/
def consults (stores : Stores B) (worker id : String) : List String :=
  own stores worker id ++ reached D worker (D.readLocations worker id)

/-- The writer's own store, and those of the running workers among the best ones of the other nodes:
`replica_count` stores in all, where as many can be reached. -/
def Written (worker id : String) (ws : List String) : Prop :=
  ∃ home ps, D.topology.Home worker home ∧
    D.topology.Ranking D.placement.hash id home (D.replicaCount - 1) ps ∧
      ws = worker :: live D ps

/-- The own store of the worker, if it holds the raw id, and those of the running workers among the
best ones of the three best nodes. -/
def Consulted (stores : Stores B) (worker id : String) (ws : List String) : Prop :=
  ∃ ps, D.topology.Ranking D.placement.hash id none 3 ps ∧
    ws = own stores worker id ++ live D ps

/-- What a `put` returns `Ok` for. -/
structure Accepts (ty : T) (entity : E) : Prop where
  id : S.id entity ≠ ""
  replicas : 0 < D.replicaCount
  serialize : (S.serialize ty entity).isSome

section Effects

variable {D S} {stores : Stores B} {worker k : String} {b : B}

theorem save_apply (target l k' : String) : save stores target k b l k' =
    if l = target ∧ k' = k then some b else stores l k' := by
  by_cases hl : l = target
  · subst hl
    by_cases hk : k' = k <;> simp [save, hk]
  · simp [save, hl]

theorem delete_apply (target l k' : String) : delete stores target k l k' =
    if l = target ∧ k' = k then none else stores l k' := by
  by_cases hl : l = target
  · subst hl
    by_cases hk : k' = k <;> simp [delete, hk]
  · simp [delete, hl]

@[simp] theorem reached_nil : reached D worker [] = [] := rfl

theorem reached_cons_none {location : Address} {rest : List Address}
    (h : storeAt D worker location = none) :
    reached D worker (location :: rest) = reached D worker rest :=
  List.filterMap_cons_none h

theorem reached_cons_some {location : Address} {rest : List Address} {target : String}
    (h : storeAt D worker location = some target) :
    reached D worker (location :: rest) = target :: reached D worker rest :=
  List.filterMap_cons_some h

/-- What the writes leave in each store. -/
theorem write_apply (locations : List Address) (l k' : String) :
    (write D stores worker k b locations).1 l k' =
      if l ∈ reached D worker locations ∧ k' = k then some b else stores l k' := by
  induction locations generalizing stores with
  | nil => simp [write]
  | cons location rest ih =>
      cases h : storeAt D worker location with
      | none =>
          simp only [write, h, reached_cons_none h]
          exact ih
      | some target =>
          simp only [write, h, reached_cons_some h, List.mem_cons]
          rw [ih, save_apply]
          by_cases hl : l = target <;> by_cases hk : k' = k <;> simp [hl, hk]

/-- A write to a store the worker can reach succeeds. -/
theorem write_results (locations : List Address) :
    true ∈ (write D stores worker k b locations).2 ↔ reached D worker locations ≠ [] := by
  induction locations generalizing stores with
  | nil => simp [write]
  | cons location rest ih =>
      cases h : storeAt D worker location with
      | none =>
          simp only [write, h, reached_cons_none h, List.mem_cons, Bool.true_eq_false, false_or]
          exact ih
      | some target => simp [write, h, reached_cons_some h]

theorem remove_apply (locations : List Address) (l k' : String) :
    remove D stores worker k locations l k' =
      if l ∈ reached D worker locations ∧ k' = k then none else stores l k' := by
  induction locations generalizing stores with
  | nil => simp [remove]
  | cons location rest ih =>
      cases h : storeAt D worker location with
      | none =>
          have hstep : remove D stores worker k (location :: rest) =
              remove D stores worker k rest := by simp [remove, h]
          rw [hstep, ih, reached_cons_none h]
      | some target =>
          have hstep : remove D stores worker k (location :: rest) =
              remove D (delete stores target k) worker k rest := by simp [remove, h]
          rw [hstep, ih, reached_cons_some h, delete_apply]
          by_cases hl : l = target <;> by_cases hk : k' = k <;> simp [hl, hk]

theorem del_apply (ty : T) (id l k' : String) : del D S stores worker ty id l k' =
    if l ∈ consults D stores worker id ∧ k' = key S ty id then none else stores l k' := by
  simp only [del, remove_apply, consults, own, List.mem_append]
  by_cases hraw : (stores worker id).isSome
  · rw [if_pos hraw, if_pos hraw, delete_apply]
    by_cases hl : l = worker <;> by_cases hk : k' = key S ty id <;> simp [hl, hk]
  · rw [if_neg hraw, if_neg hraw]
    simp

/-- The id is shorter than the key it is stored under. -/
theorem key_ne_id (ty : T) (id : String) : key S ty id ≠ id := by
  intro h
  have := congrArg String.length h
  simp [key] at this

/-- The remote part of a get finds what the first reached copy holds. -/
theorem remote_of_read {ty : T} {id : String} {x : E} (hb : S.deserialize ty b = some x)
    {locations : List Address}
    (h : Core.Replicas.read (Copies stores (key S ty id)) (reached D worker locations) = some b) :
    locations.findSome? (read D S stores worker ty id) = some x := by
  induction locations with
  | nil => simp at h
  | cons location rest ih =>
      cases hat : storeAt D worker location with
      | none =>
          rw [reached_cons_none hat] at h
          simpa [read, hat] using ih h
      | some target =>
          rw [reached_cons_some hat, Core.Replicas.read_cons] at h
          cases hc : stores target (key S ty id) with
          | none =>
              simp only [Copies, hc, Option.none_or] at h
              simpa [read, hat, hc] using ih h
          | some c =>
              simp only [Copies, hc, Option.some_or, Option.some.injEq] at h
              simp [read, hat, hc, h, hb]

theorem remote_of_none {ty : T} {id : String} {locations : List Address}
    (h : Core.Replicas.read (Copies stores (key S ty id)) (reached D worker locations) = none) :
    locations.findSome? (read D S stores worker ty id) = none := by
  rw [List.findSome?_eq_none_iff]
  intro location hmem
  cases hat : storeAt D worker location with
  | none => simp [read, hat]
  | some target =>
      have hreached : target ∈ reached D worker locations :=
        List.mem_filterMap.mpr ⟨location, hmem, hat⟩
      have hnone : stores target (key S ty id) = none :=
        Core.Replicas.read_eq_none.mp h target hreached
      simp [read, hat, hnone]

/-- A get finds what the first consulted copy holds. -/
theorem get_of_read {ty : T} {id : String} {x : E} (hb : S.deserialize ty b = some x)
    (h : Core.Replicas.read (Copies stores (key S ty id)) (consults D stores worker id) = some b) :
    get D S stores worker ty id = .ok (some x) := by
  by_cases hraw : (stores worker id).isSome
  · simp only [consults, own, hraw, if_true, List.cons_append, List.nil_append,
      Core.Replicas.read_cons] at h
    cases hc : stores worker (key S ty id) with
    | none =>
        simp only [Copies, hc, Option.none_or] at h
        simp [get, hraw, localGet, hc, remote_of_read hb h]
    | some c =>
        simp only [Copies, hc, Option.some_or, Option.some.injEq] at h
        simp [get, hraw, localGet, hc, h, hb]
  · simp only [consults, own, hraw, Bool.false_eq_true, if_false, List.nil_append] at h
    simp [get, hraw, remote_of_read hb h]

theorem get_of_none {ty : T} {id : String}
    (h : Core.Replicas.read (Copies stores (key S ty id)) (consults D stores worker id) = none) :
    get D S stores worker ty id = .ok none := by
  by_cases hraw : (stores worker id).isSome
  · simp only [consults, own, hraw, if_true, List.cons_append, List.nil_append,
      Core.Replicas.read_cons, Option.or_eq_none_iff] at h
    have hc : stores worker (key S ty id) = none := h.1
    simp [get, hraw, localGet, hc, remote_of_none h.2]
  · simp only [consults, own, hraw, Bool.false_eq_true, if_false, List.nil_append] at h
    simp [get, hraw, remote_of_none h]

theorem reached_of_running (hworker : worker ∈ D.running) (object : String)
    (ps : List (String × String)) :
    reached D worker (ps.map fun p => ⟨some p.2, object⟩) = live D ps := by
  induction ps with
  | nil => rfl
  | cons p rest ih =>
      by_cases hp : p.2 ∈ D.running
      · have hat : storeAt D worker ⟨some p.2, object⟩ = some p.2 := by
          simp [storeAt, Deployment.reachable, hp]
        rw [List.map_cons, reached_cons_some hat, ih]
        simp [live, hp]
      · have hne : worker ≠ p.2 := fun heq => hp (heq ▸ hworker)
        have hat : storeAt D worker ⟨some p.2, object⟩ = none := by
          simp [storeAt, Deployment.reachable, hp, hne.symm]
        rw [List.map_cons, reached_cons_none hat, ih]
        simp [live, hp]

/-- A worker's allocator sees the topology. -/
theorem seen_addressAllocator (worker : String) :
    D.topology.Seen (D.addressAllocator worker) := D.iteration_perm worker

/-- What is consulted are the best workers. -/
theorem consulted_consults (hworker : worker ∈ D.running) (id : String) :
    Consulted D stores worker id (consults D stores worker id) := by
  obtain ⟨ps, hps, hlocations⟩ := (seen_addressAllocator worker).allocateReplicaAddresses
    3 D.placement ⟨none, id⟩
  refine ⟨ps, hps, ?_⟩
  rw [consults, Deployment.readLocations, hlocations, reached_of_running hworker]

/-- What is written are the writer and the best workers of other nodes. -/
theorem written_putStores (hworker : worker ∈ D.running) {id : String} (hid : id ≠ "")
    (hreplicas : 0 < D.replicaCount) : Written D worker id (putStores D worker id) := by
  obtain ⟨ps, hps, hlocations⟩ := (seen_addressAllocator worker).allocateReplicaAddresses
    D.replicaCount D.placement ⟨some worker, id⟩
  have hself : storeAt D worker ⟨some worker, id⟩ = some worker := by
    simp [storeAt, Deployment.reachable]
  have hprimary : (D.addressAllocator worker).allocatePrimaryAddress D.placement
      ⟨some worker, id⟩ = .ok ⟨some worker, id⟩ := by
    simp [AddressAllocator.allocatePrimaryAddress, hid]
  have hcount : (D.addressAllocator worker).replicaCount = D.replicaCount := rfl
  have hhome : D.topology.Home worker
      ((D.addressAllocator worker).primaryNode ⟨some worker, id⟩) :=
    (seen_addressAllocator worker).home_primaryNode worker
  refine ⟨_, ps.take (D.replicaCount - 1), hhome, hps.take (Nat.sub_le _ _), ?_⟩
  obtain ⟨n, hn⟩ := Nat.exists_eq_succ_of_ne_zero hreplicas.ne'
  rw [putStores, AddressAllocator.allocateAddresses, hprimary, hcount]
  simp only [Except.map, if_neg hreplicas.ne', hlocations, Except.toOption, Option.getD_some]
  rw [Deployment.selectWriteLocations, hn, List.take_succ_cons, reached_cons_some hself,
    ← List.map_take, reached_of_running hworker]
  rfl

theorem locations_head {A : AddressAllocator} {P : Placement} {addr : Address}
    {locations : List Address} (hworker : addr.worker.isSome = true)
    (h : A.allocateAddresses P addr = .ok locations) : ∃ rest, locations = addr :: rest := by
  have hprimary : A.allocatePrimaryAddress P addr = .ok addr ∨
      A.allocatePrimaryAddress P addr = .error .EmptyObject := by
    simp only [AddressAllocator.allocatePrimaryAddress, hworker, if_true]
    split_ifs <;> simp
  obtain hok | herror := hprimary
  · simp only [AddressAllocator.allocateAddresses, hok, Except.map, Except.ok.injEq] at h
    split_ifs at h
    · exact ⟨[], h.symm⟩
    · exact ⟨_, h.symm⟩
  · simp [AddressAllocator.allocateAddresses, herror, Except.map] at h

theorem object_of_locations {A : AddressAllocator} {P : Placement} {addr : Address}
    {locations : List Address} (h : A.allocateAddresses P addr = .ok locations) :
    addr.object ≠ "" := by
  intro hempty
  simp [AddressAllocator.allocateAddresses, AddressAllocator.allocatePrimaryAddress, hempty,
    Except.map] at h

theorem accepts_of_put {ty : T} {x : E} {stores' : Stores B} {results : List Bool}
    (h : put D S stores worker ty x = .ok (stores', results)) : Accepts D S ty x := by
  unfold put at h
  split at h
  · exact (nomatch h)
  · case h_2 locations hlocations =>
    simp only at h
    split_ifs at h with hempty
    split at h
    · exact (nomatch h)
    · case h_2 b hb =>
      have hreplicas : D.replicaCount ≠ 0 := fun hzero =>
        hempty (by simp [Deployment.selectWriteLocations, hzero])
      exact ⟨object_of_locations hlocations, Nat.pos_of_ne_zero hreplicas, by simp [hb]⟩

/-- A put that returns `Ok` has written its own worker's store first. -/
theorem put_ok {ty : T} {x : E} {stores' : Stores B} {results : List Bool}
    (h : put D S stores worker ty x = .ok (stores', results)) :
    (∃ b, S.serialize ty x = some b ∧ ∀ l k', stores' l k' =
      if l ∈ putStores D worker (S.id x) ∧ k' = key S ty (S.id x) then some b
      else stores l k') ∧ true ∈ results := by
  unfold put at h
  split at h
  · exact (nomatch h)
  · case h_2 locations hlocations =>
    simp only at h
    split_ifs at h with hempty
    split at h
    · exact (nomatch h)
    · case h_2 b hb =>
      have hstores : putStores D worker (S.id x) =
          reached D worker (D.selectWriteLocations locations) := by
        simp [putStores, hlocations, Except.toOption]
      obtain ⟨hs, hr⟩ := Prod.mk.inj (Except.ok.inj h)
      refine ⟨⟨b, hb, fun l k' => ?_⟩, ?_⟩
      · rw [← hs, hstores]
        exact write_apply _ l k'
      · rw [← hr, write_results]
        -- the first location is the writer itself
        obtain ⟨rest, rfl⟩ := locations_head rfl hlocations
        cases hcount : D.replicaCount with
        | zero => simp [Deployment.selectWriteLocations, hcount] at hempty
        | succ n =>
            have hself : storeAt D worker ⟨some worker, S.id x⟩ = some worker := by
              simp [storeAt, Deployment.reachable]
            simp [Deployment.selectWriteLocations, hcount, reached_cons_some hself]

end Effects

/-- The stores and what was done: the last value put for an id, or its deletion, comes first. -/
structure Cluster (T E B : Type*) where
  stores : Stores B
  history : List ((T × String) × Option E)

inductive Op (T E : Type*) where
  | put (worker : String) (ty : T) (entity : E)
  | get (worker : String) (ty : T) (id : String)
  | del (worker : String) (ty : T) (id : String)

variable [DecidableEq T]

namespace Cluster

def initial : Cluster T E B := ⟨fun _ _ => none, []⟩

/-- The last value put for the id, or its deletion. -/
def last (c : Cluster T E B) (ty : T) (id : String) : Option (Option E) :=
  c.history.lookup (ty, id)

/-- One operation of a running worker. -/
def step (c : Cluster T E B) : Op T E → Option (Cluster T E B)
  | .put worker ty entity =>
      if worker ∈ D.running then
        match put D S c.stores worker ty entity with
        | .error _ => some c
        | .ok (stores, _) => some ⟨stores, ((ty, S.id entity), some entity) :: c.history⟩
      else none
  | .get worker _ _ => if worker ∈ D.running then some c else none
  | .del worker ty id =>
      if worker ∈ D.running then
        some ⟨del D S c.stores worker ty id, ((ty, id), none) :: c.history⟩
      else none

/-- Every worker reads what was put last, and nothing after a deletion. -/
def ReadsLast (c : Cluster T E B) : Prop :=
  ∀ ty id e, c.last ty id = some e → ∀ worker ∈ D.running,
    get D S c.stores worker ty id = .ok e

/-- The key of the entity is neither the id nor the key of another one that was used. -/
def Apart (c : Cluster T E B) (ty : T) (id : String) : Prop :=
  ∀ used ∈ c.history, used.1.2 ≠ key S ty id ∧
    (key S used.1.1 used.1.2 = key S ty id → used.1 = (ty, id))

/-- A put that returns `Ok` writes the first store every running worker consults among those that
are written or hold a copy, and a deletion takes every copy in a store that any of them consults. -/
def Reaching (c : Cluster T E B) : Op T E → Prop
  | .put worker ty entity =>
      Accepts D S ty entity →
        c.Apart S ty (S.id entity) ∧ ∀ ws, Written D worker (S.id entity) ws →
          ∀ reader ∈ D.running, ∀ rs, Consulted D c.stores reader (S.id entity) rs →
            Core.Replicas.Reaches (Copies c.stores (key S ty (S.id entity))) ws rs
  | .get _ _ _ => True
  | .del worker ty id =>
      c.Apart S ty id ∧ ∀ ws, Consulted D c.stores worker id ws →
        ∀ reader ∈ D.running, ∀ rs, Consulted D c.stores reader id rs →
          ∀ l ∈ rs, l ∈ ws ∨ (c.stores l (key S ty id)).isNone

instance (c : Cluster T E B) (ty : T) (id : String) : Decidable (c.Apart S ty id) :=
  inferInstanceAs (Decidable (∀ used ∈ c.history, _ ∧ (_ → _)))

variable {D S} {c d : Cluster T E B}

/-- The copies every worker consults, first one first. -/
structure Inv (D : Deployment) (S : Entities T E B) (c : Cluster T E B) : Prop where
  put : ∀ ty id x, c.last ty id = some (some x) → ∃ b, S.serialize ty x = some b ∧
    ∀ worker ∈ D.running, Core.Replicas.read (Copies c.stores (key S ty id))
      (consults D c.stores worker id) = some b
  deleted : ∀ ty id, c.last ty id = some none → ∀ worker ∈ D.running,
    Core.Replicas.read (Copies c.stores (key S ty id)) (consults D c.stores worker id) = none

theorem Inv.reads_last (h : c.Inv D S) : c.ReadsLast D S := by
  intro ty id e hlast worker hworker
  cases e with
  | none => exact get_of_none (h.deleted ty id hlast worker hworker)
  | some x =>
      obtain ⟨b, hb, hread⟩ := h.put ty id x hlast
      exact get_of_read (S.round_trip hb) (hread worker hworker)

theorem initial_inv : (initial : Cluster T E B).Inv D S :=
  ⟨fun _ _ _ h => (nomatch h), fun _ _ h => (nomatch h)⟩

theorem mem_of_last {ty : T} {id : String} {e : Option E} (h : c.last ty id = some e) :
    ((ty, id), e) ∈ c.history := by
  obtain ⟨l, r, hsplit, -⟩ := List.lookup_eq_some_iff.mp h
  simp [hsplit]

omit [DecidableEq T] in
/-- A change of one key leaves alone what is read of the entities apart from it. -/
theorem read_congr {stores : Stores B} {k : String} {ty : T} {id : String}
    (hstores : ∀ l k', k' ≠ k → stores l k' = c.stores l k') (hkey : key S ty id ≠ k)
    (hid : id ≠ k) (worker : String) :
    Core.Replicas.read (Copies stores (key S ty id)) (consults D stores worker id) =
      Core.Replicas.read (Copies c.stores (key S ty id)) (consults D c.stores worker id) := by
  have hcopies : Copies stores (key S ty id) = Copies c.stores (key S ty id) :=
    funext fun l => hstores l _ hkey
  rw [hcopies, consults, own, hstores worker id hid]
  rfl

theorem last_cons {stores : Stores B} {ty ty' : T} {id id' : String} {e : Option E} :
    (⟨stores, ((ty, id), e) :: c.history⟩ : Cluster T E B).last ty' id' =
      if (ty', id') = (ty, id) then some e else c.last ty' id' := by
  by_cases h : (ty', id') = (ty, id)
  · rw [if_pos h, last, h, List.lookup_cons_self]
  · rw [if_neg h, last, last, List.lookup_cons, beq_false_of_ne h]

/-- An operation that sets the last value of one entity and changes nothing but its key. -/
theorem Inv.set (h : c.Inv D S) {stores : Stores B} {ty : T} {id : String} {e : Option E}
    (hapart : c.Apart S ty id)
    (hother : ∀ l k', k' ≠ key S ty id → stores l k' = c.stores l k')
    (hread : ∀ worker ∈ D.running,
      Core.Replicas.read (Copies stores (key S ty id)) (consults D c.stores worker id) =
        e.bind (S.serialize ty))
    (hb : ∀ x, e = some x → (S.serialize ty x).isSome) :
    Inv D S ⟨stores, ((ty, id), e) :: c.history⟩ := by
  have hself : ∀ worker, consults D stores worker id = consults D c.stores worker id := by
    intro worker
    rw [consults, own, hother worker id (key_ne_id ty id).symm]
    rfl
  have hkeep : ∀ ty' id' e', (ty', id') ≠ (ty, id) → c.last ty' id' = some e' → ∀ worker,
      Core.Replicas.read (Copies stores (key S ty' id')) (consults D stores worker id') =
        Core.Replicas.read (Copies c.stores (key S ty' id')) (consults D c.stores worker id') := by
    intro ty' id' e' hne hlast worker
    obtain ⟨hid, hkey⟩ := hapart _ (mem_of_last hlast)
    exact read_congr hother (fun heq => hne (hkey heq)) hid worker
  constructor
  · intro ty' id' x hlast
    rw [last_cons] at hlast
    split_ifs at hlast with heq
    · obtain ⟨rfl, rfl⟩ := Prod.mk.inj heq
      have he : e = some x := Option.some.inj hlast
      obtain ⟨b, hbx⟩ := Option.isSome_iff_exists.mp (hb x he)
      refine ⟨b, hbx, fun worker hworker => ?_⟩
      rw [hself, hread worker hworker, he, Option.bind_some, hbx]
    · obtain ⟨b, hbx, hold⟩ := h.put ty' id' x hlast
      exact ⟨b, hbx, fun worker hworker =>
        (hkeep ty' id' _ heq hlast worker).trans (hold worker hworker)⟩
  · intro ty' id' hlast worker hworker
    rw [last_cons] at hlast
    split_ifs at hlast with heq
    · obtain ⟨rfl, rfl⟩ := Prod.mk.inj heq
      have he : e = none := Option.some.inj hlast
      rw [hself, hread worker hworker, he, Option.bind_none]
    · exact (hkeep ty' id' _ heq hlast worker).trans (h.deleted ty' id' hlast worker hworker)

theorem step_inv {op : Op T E} (h : c.Inv D S) (hok : c.Reaching D S op)
    (hs : c.step D S op = some d) : d.Inv D S := by
  cases op with
  | get worker ty id =>
      obtain ⟨-, hs⟩ := Option.ite_none_right_eq_some.mp hs
      obtain rfl := Option.some.inj hs
      exact h
  | put worker ty x =>
      obtain ⟨hworker, hs⟩ := Option.ite_none_right_eq_some.mp hs
      cases hput : Storage.put D S c.stores worker ty x with
      | error e =>
          simp only [hput, Option.some.injEq] at hs
          exact hs ▸ h
      | ok answer =>
          obtain ⟨stores', results⟩ := answer
          simp only [hput, Option.some.injEq] at hs
          subst hs
          have haccepts := accepts_of_put hput
          obtain ⟨hapart, hreach⟩ := hok haccepts
          have hwritten := written_putStores hworker haccepts.id haccepts.replicas
          obtain ⟨⟨b, hb, hstores⟩, -⟩ := put_ok hput
          refine h.set hapart (fun l k' hk => by simp [hstores, hk]) (fun reader hreader => ?_)
            (fun y hy => by simp [← Option.some.inj hy, hb])
          have hwrite : Copies stores' (key S ty (S.id x)) = Core.Replicas.write
              (Copies c.stores (key S ty (S.id x))) (putStores D worker (S.id x)) b := by
            funext l
            simp [Copies, Core.Replicas.write, hstores]
          rw [hwrite, Core.Replicas.read_write (hreach _ hwritten reader hreader _
            (consulted_consults hreader _)), Option.bind_some, hb]
  | del worker ty id =>
      obtain ⟨hworker, hs⟩ := Option.ite_none_right_eq_some.mp hs
      obtain rfl := Option.some.inj hs
      refine h.set hok.1 (fun l k' hk => by simp [del_apply, hk]) (fun reader hreader => ?_)
        (fun y hy => (by cases hy))
      have herase : Copies (del D S c.stores worker ty id) (key S ty id) = Core.Replicas.erase
          (Copies c.stores (key S ty id)) (consults D c.stores worker id) := by
        funext l
        simp [Copies, Core.Replicas.erase, del_apply]
      rw [herase, Option.bind_none, Core.Replicas.read_erase]
      exact fun l hl => (hok.2 _ (consulted_consults hworker id) reader hreader _
        (consulted_consults hreader id) l hl).imp_right Option.isNone_iff_eq_none.mp

variable (D S)

section Full

/-- At most three nodes, each with one worker that runs, and a replica for each of them. -/
structure Full : Prop where
  few : D.topology.nodes.length ≤ 3
  single : ∀ node ∈ D.topology.nodes, (D.topology.workers node).length ≤ 1
  runs : ∀ w, w ∈ D.running ↔ w ∈ D.topology.workersPerNode.flatMap Prod.snd
  replicas : D.topology.nodes.length ≤ D.replicaCount

variable {D} {worker id : String} {ws : List String}

theorem Full.exists_node (h : Full D) (hworker : worker ∈ D.running) :
    ∃ node ∈ D.topology.nodes, worker ∈ D.topology.workers node := by
  obtain ⟨node, hnode⟩ := Topology.mem_flatMap.mp ((h.runs worker).mp hworker)
  exact ⟨node, Topology.mem_nodes.mpr (List.ne_nil_of_mem hnode), hnode⟩

theorem Full.worker_eq (h : Full D) {node w : String} (hnode : node ∈ D.topology.nodes)
    (hw : w ∈ D.topology.workers node) (hworker : worker ∈ D.topology.workers node) :
    w = worker := by
  have hone := h.single node hnode
  match hlist : D.topology.workers node, hone with
  | [], _ => simp [hlist] at hw
  | [x], _ =>
      rw [hlist, List.mem_singleton] at hw hworker
      exact hw.trans hworker.symm

/-- A ranking that need not leave a node out has every running worker of another node. -/
theorem Full.mem_live (h : Full D) {home : Option String} {n : ℕ} {ps : List (String × String)}
    (hps : D.topology.Ranking D.placement.hash id home n ps)
    (hn : (D.topology.nodes.filter fun node => home ≠ some node).length ≤ n) {node : String}
    (hnode : node ∈ D.topology.nodes) (hhome : home ≠ some node)
    (hworker : worker ∈ D.topology.workers node) : worker ∈ live D ps := by
  have hpicked := hps.picks.mem_of_length_le hn
    (List.mem_filter.mpr ⟨hnode, decide_eq_true hhome⟩)
  obtain ⟨p, hp, rfl⟩ := List.mem_map.mp hpicked
  have heq := h.worker_eq hnode (hps.best p hp).1 hworker
  refine List.mem_filter.mpr ⟨heq ▸ List.mem_map_of_mem hp, decide_eq_true ?_⟩
  exact (h.runs worker).mpr (Topology.mem_flatMap.mpr ⟨p.1, hworker⟩)

theorem Full.consulted (h : Full D) {stores : Stores B} {reader : String}
    (hws : Consulted D stores reader id ws) (hworker : worker ∈ D.running) : worker ∈ ws := by
  obtain ⟨ps, hps, rfl⟩ := hws
  obtain ⟨node, hnode, hlisted⟩ := h.exists_node hworker
  have hfew := (List.length_filter_le (fun node => none ≠ some node) _).trans h.few
  exact List.mem_append_right _ (h.mem_live hps hfew hnode (fun heq => nomatch heq) hlisted)

theorem Full.written (h : Full D) {writer : String} (hwriter : writer ∈ D.running)
    (hws : Written D writer id ws) (hworker : worker ∈ D.running) : worker ∈ ws := by
  obtain ⟨home, ps, hhome, hps, rfl⟩ := hws
  obtain ⟨own, hown, howner⟩ := h.exists_node hwriter
  obtain ⟨node, hnode, hlisted⟩ := h.exists_node hworker
  cases home with
  | none => exact absurd howner (hhome own)
  | some first =>
      have hfirst : first ∈ D.topology.nodes :=
        Topology.mem_nodes.mpr (List.ne_nil_of_mem hhome)
      by_cases hsame : first = node
      · subst hsame
        rw [h.worker_eq hnode hlisted hhome]
        exact List.mem_cons_self
      · -- the node of the writer is not ranked
        have hfewer : (D.topology.nodes.filter fun node => some first ≠ some node).length <
            D.topology.nodes.length :=
          List.length_filter_lt_length_iff_exists.mpr ⟨first, hfirst, by simp⟩
        have hn := Nat.le_sub_one_of_lt (hfewer.trans_le h.replicas)
        exact List.mem_cons_of_mem _ (h.mem_live hps hn hnode
          (fun heq => hsame (Option.some.inj heq)) hlisted)

theorem running_of_consulted {stores : Stores B} {reader l : String}
    (hreader : reader ∈ D.running) (hws : Consulted D stores reader id ws) (hl : l ∈ ws) :
    l ∈ D.running := by
  obtain ⟨ps, -, rfl⟩ := hws
  rcases List.mem_append.mp hl with hown | hlive
  · unfold own at hown
    split_ifs at hown
    · exact List.mem_singleton.mp hown ▸ hreader
    · exact absurd hown List.not_mem_nil
  · exact of_decide_eq_true (List.mem_filter.mp hlive).2

variable (D) in
/-- A running worker's operation on an entity whose key is apart. -/
def Plain (c : Cluster T E B) : Op T E → Prop
  | .put worker ty entity => worker ∈ D.running ∧ c.Apart S ty (S.id entity)
  | .get _ _ _ => True
  | .del worker ty id => worker ∈ D.running ∧ c.Apart S ty id

instance (c : Cluster T E B) (op : Op T E) : Decidable (c.Plain D S op) := by
  cases op <;> unfold Plain <;> infer_instance

omit [DecidableEq T] in
variable {S} in
/-- In a full deployment everything that is consulted is written and deleted. -/
theorem Full.reaching (h : Full D) {c : Cluster T E B} {op : Op T E} (hplain : c.Plain D S op) :
    c.Reaching D S op := by
  cases op with
  | get worker ty id => trivial
  | put worker ty x =>
      refine fun _ => ⟨hplain.2, fun ws hws reader hreader rs hrs => ?_⟩
      have hread : reader ∈ rs := h.consulted hrs hreader
      have hall : ∀ l ∈ rs, l ∈ ws := fun l hl =>
        h.written hplain.1 hws (running_of_consulted hreader hrs hl)
      cases rs with
      | nil => exact absurd hread List.not_mem_nil
      | cons first rest =>
          exact (Core.Replicas.reaches_cons first rest).mpr (.inl (hall first List.mem_cons_self))
  | del worker ty id =>
      exact ⟨hplain.2, fun ws hws reader hreader rs hrs l hl =>
        .inl (h.consulted hws (running_of_consulted hreader hrs hl))⟩

end Full

/-- In every run whose puts and deletions reach what is read, every worker reads the last value
put for an id and nothing after its deletion. A put never returns `Ok` with all writes failed. -/
theorem reads_last_run {ops : List (Op T E)} {c : Cluster T E B}
    (hok : Meets (step D S) (Reaching D S) initial ops)
    (hrun : exec (step D S) initial ops = some c) :
    c.ReadsLast D S ∧ ∀ worker ty x stores results,
      put D S c.stores worker ty x = .ok (stores, results) → true ∈ results :=
  ⟨(exec_invariant (fun _ _ _ => step_inv) initial_inv hok hrun).reads_last,
    fun _ _ _ _ _ hput => (put_ok hput).2⟩

/-- The scores of two workers for the object `job`. -/
def scored : Placement where
  hash s := if s = "w1:job" then 14292991096310785540 else 7990200957301248572
  sort := List.insertionSort fun x y => y.score ≤ x.score
  sort_perm := List.perm_insertionSort _
  sort_sorted l := by
    have : Std.Total fun x y : Candidate => y.score ≤ x.score :=
      ⟨fun x y => UInt64.le_total y.score x.score⟩
    have : IsTrans Candidate fun x y => y.score ≤ x.score :=
      ⟨fun _ _ _ hxy hyz => UInt64.le_trans hyz hxy⟩
    exact List.pairwise_insertionSort _ l

/-- Two workers on the given nodes. -/
def twoWorkers (topology : Topology) (replicaCount : ℕ) : Deployment where
  placement := scored
  running := ["w1", "w2"]
  topology := topology
  iteration _ := topology.workersPerNode
  iteration_perm _ := List.Perm.refl _
  replicaCount := replicaCount

/-- Entities are an id and a number, stored as they are. -/
def jobs : Entities Unit (String × ℕ) (String × ℕ) where
  entityType _ := "job"
  id := Prod.fst
  serialize _ := some
  deserialize _ := some
  round_trip h := h.symm

/-- One worker on each of two nodes, and two replicas. -/
def spread : Deployment := twoWorkers ⟨[("n1", ["w1"]), ("n2", ["w2"])], by decide⟩ 2

theorem full_spread : Full spread where
  few := by decide
  single := by decide
  runs := fun _ => Iff.rfl
  replicas := by decide

/-- Both workers put the same id, and one of them deletes another. -/
def sharing : List (Op Unit (String × ℕ)) :=
  [.put "w1" () ("job", 1), .put "w2" () ("job", 2), .get "w1" () "job",
    .put "w1" () ("other", 3), .del "w2" () "other"]

theorem sharing_reads_last : ∃ c, exec (step spread jobs) initial sharing = some c ∧
    c.ReadsLast spread jobs :=
  have hplain : Meets (step spread jobs) (fun c op => c.Plain spread jobs op) initial sharing := by
    decide
  ⟨_, rfl, (reads_last_run spread jobs (hplain.mono fun _ _ => full_spread.reaching) rfl).1⟩

/-- Both workers on one node, and one replica. -/
def crowded : Deployment := twoWorkers ⟨[("n1", ["w1", "w2"])], by decide⟩ 1

/-- A put of the worker with the lower score returns `Ok`, and nobody reads it. -/
theorem put_unread : ∃ c, exec (step crowded jobs) initial [.put "w2" () ("job", 1)] = some c ∧
    get crowded jobs c.stores "w2" () "job" = .ok none ∧ ¬ c.ReadsLast crowded jobs := by
  refine ⟨_, rfl, rfl, fun h => ?_⟩
  have hread := h () "job" (some ("job", 1)) rfl "w2" (by decide)
  exact absurd hread (by decide)

end Cluster

end Probing.Storage
