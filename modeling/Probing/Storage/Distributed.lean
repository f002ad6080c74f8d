import Probing.Storage.Rendezvous

/-!
# The distributed entity store

Each worker runs a `DistributedEntityStore` over its own `MemoryStore`. Writes go to the writer
and to replicas placed from the writer; reads and deletions go to replicas placed from nobody.
-/

namespace Probing.Storage

/-- What the entity types bring along: their name, the id of an entity, and its encoding. -/
structure Entities (T E B : Type*) where
  entityType : T → String
  id : E → String
  serialize : T → E → Option B
  deserialize : T → B → Option E
  round_trip : ∀ {ty x b}, serialize ty x = some b → deserialize ty b = some x

inductive StoreError where
  | Address (error : AddressError)
  | NoSuitableWriteLocations
  | Serialize
  | Deserialize
  deriving DecidableEq

/-- The workers that run a store, over one topology. A worker has a client for every other one
that runs. -/
structure Deployment where
  placement : Placement
  running : List String
  topology : Topology
  /-- The topology in the iteration order of a worker's own map. -/
  iteration : String → List (String × List String)
  iteration_perm : ∀ worker, (iteration worker).Perm topology.workersPerNode
  replicaCount : ℕ

namespace Deployment

variable (D : Deployment)

/-- The allocator of a worker. The topology is never asked for its sufficiency. -/
def addressAllocator (worker : String) : AddressAllocator :=
  ⟨D.iteration worker, D.replicaCount, false⟩

/-- The location is the worker itself, or it has a client for it. -/
def reachable (worker : String) (location : Address) : Bool :=
  location.worker == some worker || location.worker.any (· ∈ D.running)

/-- `select_write_locations` at the default consistency, a quorum. -/
def selectWriteLocations (locations : List Address) : List Address :=
  locations.take D.replicaCount

/-- The replicas a read or a deletion goes to. -/
def readLocations (worker id : String) : List Address :=
  (D.addressAllocator worker).allocateReplicaAddresses D.placement ⟨none, id⟩ 3

end Deployment

section Store

variable {T E B : Type*} (D : Deployment) (S : Entities T E B)

/-- The memory stores of all workers, by key. -/
abbrev Stores (B : Type*) := String → String → Option B

def key (ty : T) (id : String) : String := S.entityType ty ++ "::" ++ id

/-- `raw_entities_save` in the store of a worker. -/
def save (stores : Stores B) (worker k : String) (b : B) : Stores B :=
  Function.update stores worker (Function.update (stores worker) k (some b))

/-- `raw_entities_delete` in the store of a worker. -/
def delete (stores : Stores B) (worker k : String) : Stores B :=
  Function.update stores worker (Function.update (stores worker) k none)

/-- The store at a location, where it can be reached. -/
def storeAt (worker : String) (location : Address) : Option String :=
  if D.reachable worker location then location.worker else none

/-- The writes at the locations, with their results. -/
def write (stores : Stores B) (worker k : String) (b : B) : List Address → Stores B × List Bool
  | [] => (stores, [])
  | location :: rest =>
      match storeAt D worker location with
      | some target =>
          let (stores, results) := write (save stores target k b) worker k b rest
          (stores, true :: results)
      | none =>
          let (stores, results) := write stores worker k b rest
          (stores, false :: results)

/-- The answer of `put`, with the results of its writes. -/
def put (stores : Stores B) (worker : String) (ty : T) (entity : E) :
    Except StoreError (Stores B × List Bool) :=
  match (D.addressAllocator worker).allocateAddresses D.placement ⟨some worker, S.id entity⟩ with
  | .error e => .error (.Address e)
  | .ok locations =>
      let write_locations := D.selectWriteLocations locations
      if write_locations.isEmpty then .error .NoSuitableWriteLocations
      else match S.serialize ty entity with
        | none => .error .Serialize
        | some b => .ok (write D stores worker (key S ty (S.id entity)) b write_locations)

/-- `MemoryStore::get`. -/
def localGet (stores : Stores B) (worker : String) (ty : T) (id : String) :
    Except StoreError (Option E) :=
  match stores worker (key S ty id) with
  | none => .ok none
  | some b =>
      match S.deserialize ty b with
      | some x => .ok (some x)
      | none => .error .Deserialize

/-- `read` at one location; an error is as good as no copy for its only caller. -/
def read (stores : Stores B) (worker : String) (ty : T) (id : String) (location : Address) :
    Option E :=
  (storeAt D worker location).bind fun target =>
    (stores target (key S ty id)).bind (S.deserialize ty)

def get (stores : Stores B) (worker : String) (ty : T) (id : String) :
    Except StoreError (Option E) :=
  let remote := (D.readLocations worker id).findSome? (read D S stores worker ty id)
  if (stores worker id).isSome then
    match localGet S stores worker ty id with
    | .error e => .error e
    | .ok (some x) => .ok (some x)
    | .ok none => .ok remote
  else .ok remote

/-- `remove` at the locations, best effort. -/
def remove (stores : Stores B) (worker k : String) (locations : List Address) : Stores B :=
  locations.foldl (fun stores location =>
    match storeAt D worker location with
    | some target => delete stores target k
    | none => stores) stores

def del (stores : Stores B) (worker : String) (ty : T) (id : String) : Stores B :=
  let k := key S ty id
  let stores := if (stores worker id).isSome then delete stores worker k else stores
  remove D stores worker k (D.readLocations worker id)

end Store

end Probing.Storage
