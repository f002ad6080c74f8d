import Mathlib.Data.List.Basic

/-!
# Placement of objects on workers

`AddressAllocator` scores workers with a hash of worker and object. A primary is the caller's own
worker, where it names one; replicas are the best workers of distinct other nodes.
-/

namespace Probing.Storage

structure Address where
  worker : Option String
  object : String
  deriving DecidableEq

inductive AddressError where
  | EmptyObject
  | InsufficientTopology
  | NoAvailableNodes
  deriving DecidableEq

/-- A worker that may hold a replica. -/
structure Candidate where
  score : UInt64
  node : String
  worker : String
  deriving DecidableEq

/-- What the standard library does for the placement: `DefaultHasher` on one string, and
`sort_unstable_by_key` with the highest score first. -/
structure Placement where
  hash : String → UInt64
  sort : List Candidate → List Candidate
  sort_perm : ∀ l, (sort l).Perm l
  sort_sorted : ∀ l, (sort l).Pairwise fun x y => y.score ≤ x.score

/-- The nodes of the topology with their workers, in the iteration order of the map. -/
structure AddressAllocator where
  workersPerNode : List (String × List String)
  replicaCount : ℕ
  /-- `is_topology_sufficient` when it is asked. -/
  sufficient : Bool

namespace AddressAllocator

variable (P : Placement) (A : AddressAllocator)

def calculateAssignmentScore (object worker : String) : UInt64 :=
  P.hash (worker ++ ":" ++ object)

/-- The scan for the best worker: only a higher score replaces the last one. -/
def best (object : String) : UInt64 × Option String :=
  A.workersPerNode.foldl (fun best p =>
    p.2.foldl (fun best worker =>
      let score := calculateAssignmentScore P object worker
      if best.1 < score then (score, some worker) else best) best) (0, none)

def allocatePrimaryAddress (addr : Address) : Except AddressError Address :=
  if addr.object = "" then .error .EmptyObject
  else if addr.worker.isSome then .ok addr
  else if !A.sufficient then .error .InsufficientTopology
  else match (A.best P addr.object).2 with
    | some worker => .ok ⟨some worker, addr.object⟩
    | none => .error .NoAvailableNodes

/-- The node of the primary's worker. -/
def primaryNode (primary : Address) : Option String :=
  primary.worker.bind fun worker =>
    (A.workersPerNode.find? fun p => worker ∈ p.2).map (·.1)

def potentialReplicas (primary : Address) : List Candidate :=
  (A.workersPerNode.filter fun p => A.primaryNode primary ≠ some p.1).flatMap fun p =>
    p.2.map fun worker =>
      ⟨calculateAssignmentScore P primary.object worker, p.1, worker⟩

/-- The loop over the sorted candidates: `n` replicas are still wanted. -/
def pick (object : String) : ℕ → List String → List Candidate → List Address
  | 0, _, _ => []
  | _, _, [] => []
  | n + 1, used, c :: rest =>
      if c.node ∈ used then pick object (n + 1) used rest
      else ⟨some c.worker, object⟩ :: pick object n (c.node :: used) rest

def allocateReplicaAddresses (primary : Address) (num_replicas_to_find : ℕ) : List Address :=
  if num_replicas_to_find = 0 then []
  else
    pick primary.object num_replicas_to_find (A.primaryNode primary).toList
      (P.sort (A.potentialReplicas P primary))

def allocateAddresses (addr : Address) : Except AddressError (List Address) :=
  (A.allocatePrimaryAddress P addr).map fun primary =>
    if A.replicaCount = 0 then [primary]
    else primary :: A.allocateReplicaAddresses P primary A.replicaCount

end AddressAllocator

end Probing.Storage
