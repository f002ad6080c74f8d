import Probing.Federation.Targets

/-!
# The distributed scan and the aggregate pushdown

Both ask remote endpoints and account for the replies. The scan takes its targets
from `federated_scan_targets`; the pushdown asks the leaves of its own node and
then the nodes of the scope.
-/

namespace Probing.Federation

open Probing.Registry

structure QueryQuality where
  nodesSucceeded : ℕ
  nodesFailed : List String
  peerBatchesDropped : ℕ
  partialResult : Bool
  deriving DecidableEq

namespace QueryQuality

def default : QueryQuality := ⟨0, [], 0, false⟩

def isPartial (q : QueryQuality) : Bool :=
  q.partialResult || !q.nodesFailed.isEmpty || 0 < q.peerBatchesDropped

def absorb (q child : QueryQuality) : QueryQuality where
  nodesSucceeded := q.nodesSucceeded + child.nodesSucceeded
  nodesFailed := q.nodesFailed ++ child.nodesFailed
  peerBatchesDropped := q.peerBatchesDropped + child.peerBatchesDropped
  partialResult := q.partialResult || child.partialResult

def recordFailure (q : QueryQuality) (addr : String) : QueryQuality :=
  { q with nodesFailed := q.nodesFailed ++ [addr], partialResult := true }

def recordBatchDrops (q : QueryQuality) (dropped : ℕ) : QueryQuality :=
  { q with
    peerBatchesDropped := q.peerBatchesDropped + dropped
    partialResult := q.partialResult || 0 < dropped }

@[simp] theorem isPartial_default : default.isPartial = false := rfl

theorem isPartial_iff (q : QueryQuality) : q.isPartial = true ↔
    q.partialResult = true ∨ q.nodesFailed ≠ [] ∨ 0 < q.peerBatchesDropped := by
  simp [isPartial, or_assoc]

@[simp] theorem isPartial_absorb (q child : QueryQuality) :
    (q.absorb child).isPartial = (q.isPartial || child.isPartial) := by
  rw [Bool.eq_iff_iff, Bool.or_eq_true]
  simp only [isPartial_iff]
  have hsum : 0 < q.peerBatchesDropped + child.peerBatchesDropped ↔
      0 < q.peerBatchesDropped ∨ 0 < child.peerBatchesDropped := by omega
  simp only [absorb, Bool.or_eq_true, ne_eq, List.append_eq_nil_iff, hsum]
  tauto

@[simp] theorem isPartial_recordFailure (q : QueryQuality) (addr : String) :
    (q.recordFailure addr).isPartial = true := by
  simp [isPartial, recordFailure]

@[simp] theorem isPartial_recordBatchDrops (q : QueryQuality) (dropped : ℕ) :
    (q.recordBatchDrops dropped).isPartial = (q.isPartial || 0 < dropped) := by
  rw [Bool.eq_iff_iff, Bool.or_eq_true]
  simp only [isPartial_iff, decide_eq_true_eq]
  have hsum : 0 < q.peerBatchesDropped + dropped ↔
      0 < q.peerBatchesDropped ∨ 0 < dropped := by omega
  simp only [recordBatchDrops, Bool.or_eq_true, decide_eq_true_eq, hsum]
  tauto

end QueryQuality

/-- What a peer sends back: an error, or a frame with its quality. A frame may not
convert to a batch. -/
inductive PeerReply
  | failed
  | answered (quality : QueryQuality) (converts : Bool)
  deriving DecidableEq

namespace PeerReply

def converted : PeerReply → Bool
  | .failed => false
  | .answered _ converts => converts

/-- The reply leaves the result incomplete. -/
def incomplete : PeerReply → Bool
  | .failed => true
  | .answered quality converts => quality.isPartial || !converts

end PeerReply

/-- A distributed result: the endpoints whose frames are merged with the local one. -/
structure FanoutResult where
  merged : List FederatedScanTarget
  quality : QueryQuality
  deriving DecidableEq

/-- Why a distributed query fails. -/
inductive FanoutError
  | metadata
  | strict
  deriving DecidableEq

/-- `PROBING_FANOUT_STRICT` turns a partial result into an error. -/
def enforceFanoutStrict (strict : Bool) (result : FanoutResult) : Except FanoutError FanoutResult :=
  if strict && result.quality.isPartial then .error .strict else .ok result

section Paths

variable (replies : FederatedScanTarget → PeerReply)

/-- `execute_remote` of a scan, for one target. -/
def scanRemote (q : QueryQuality) (target : FederatedScanTarget) : QueryQuality :=
  match replies target with
  | .failed => q.recordFailure target.node.addr
  | .answered quality converts =>
      if converts then q.absorb quality else (q.absorb quality).recordBatchDrops 1

/-- The targets whose frames reach the result. -/
def mergedTargets (targets : List FederatedScanTarget) : List FederatedScanTarget :=
  targets.filter fun target => (replies target).converted

variable (env : Env) (c : Cluster) (strict : Bool)

/-- The ordinary distributed scan. -/
def fanoutScan (scope : FanoutScope) : Except FanoutError FanoutResult :=
  match env.federatedScanTargets c scope with
  | none => .error .metadata
  | some targets => enforceFanoutStrict strict
      ⟨mergedTargets replies targets, targets.foldl (scanRemote replies) .default⟩

/-- `append_fanout_outcomes`, for one outcome. -/
def appendOutcome (q : QueryQuality) (target : FederatedScanTarget) : QueryQuality :=
  match replies target with
  | .failed => q.recordFailure target.node.addr
  | .answered quality _ => q.absorb quality

/-- The targets of `fanout_query_to_peers_scoped`. -/
def scopedTargets (scope : FanoutScope) : List FederatedScanTarget :=
  (env.remoteNodesForScope c scope).map (⟨·, env.resolveFanoutScope scope⟩)

/-- The endpoints that `try_execute_aggregate_pushdown` asks. -/
def pushdownTargets (scope : FanoutScope) : List FederatedScanTarget :=
  let resolved := env.resolveFanoutScope scope
  (if resolved = .Coordinator ∧ env.isLocal0 then scopedTargets env c .Node else []) ++
    scopedTargets env c resolved

/-- The frames that do not convert. -/
def convertFailed (targets : List FederatedScanTarget) : ℕ :=
  targets.countP fun target => replies target ≠ .failed ∧ ¬ (replies target).converted

/-- The aggregate pushdown. A plan without a merge query concatenates the frames
without converting them. -/
def aggregatePushdown (merges : Bool) (scope : FanoutScope) : Except FanoutError FanoutResult :=
  let targets := pushdownTargets env c scope
  let stats := targets.foldl (appendOutcome replies) .default
  if merges then
    enforceFanoutStrict strict ⟨mergedTargets replies targets,
      stats.recordBatchDrops (convertFailed replies targets)⟩
  else
    enforceFanoutStrict strict ⟨targets.filter fun target => replies target ≠ .failed, stats⟩

end Paths

/-- Both fail, or both merge the same endpoints and flag the result alike. -/
def SameOutcome : Except FanoutError FanoutResult → Except FanoutError FanoutResult → Prop
  | .error _, .error _ => True
  | .ok a, .ok b => a.merged.Perm b.merged ∧ a.quality.isPartial = b.quality.isPartial
  | _, _ => False

/-- The two paths agree for all replies of the peers; a frame that is concatenated
unconverted is one that would convert. -/
def SamePaths (env : Env) (c : Cluster) (scope : FanoutScope) (merges : Bool) : Prop :=
  ∀ strict replies,
    (merges = false → ∀ target, replies target ≠ .failed → (replies target).converted) →
    SameOutcome (fanoutScan replies env c strict scope)
      (aggregatePushdown replies env c strict merges scope)

/-- The scope asks nobody or everybody, or there is nobody else, or there is metadata
and a coordinator that is not a local rank 0 has no leaves. -/
def Aligned (env : Env) (c : Cluster) (scope : FanoutScope) : Prop :=
  env.resolveFanoutScope scope = .Local ∨ env.resolveFanoutScope scope = .Flat ∨
    env.remotePeersExcludingLocal c = [] ∨
    hierarchicalMetadataAvailable c ∧
      (env.resolveFanoutScope scope = .Coordinator → env.isLocal0 ∨ env.localLeafPeers c = [])

instance (env : Env) (c : Cluster) (scope : FanoutScope) : Decidable (Aligned env c scope) :=
  inferInstanceAs (Decidable (_ ∨ _))

section Accounting

variable {replies : FederatedScanTarget → PeerReply} {targets : List FederatedScanTarget}

theorem scan_quality (q : QueryQuality) :
    (targets.foldl (scanRemote replies) q).isPartial =
      (q.isPartial || targets.any fun target => (replies target).incomplete) := by
  induction targets generalizing q with
  | nil => simp
  | cons target targets ih =>
      rw [List.foldl_cons, ih, List.any_cons, ← Bool.or_assoc]
      congr 1
      unfold scanRemote PeerReply.incomplete
      cases replies target with
      | failed => simp
      | answered quality converts => cases converts <;> simp

theorem append_quality (q : QueryQuality) :
    (targets.foldl (appendOutcome replies) q).isPartial =
      (q.isPartial || targets.any fun target => match replies target with
        | .failed => true
        | .answered quality _ => quality.isPartial) := by
  induction targets generalizing q with
  | nil => simp
  | cons target targets ih =>
      rw [List.foldl_cons, ih, List.any_cons, ← Bool.or_assoc]
      congr 1
      unfold appendOutcome
      cases replies target <;> simp

/-- The pushdown counts the frames that do not convert at the end. -/
theorem merge_quality : ((targets.foldl (appendOutcome replies) .default).recordBatchDrops
    (convertFailed replies targets)).isPartial =
      targets.any fun target => (replies target).incomplete := by
  rw [QueryQuality.isPartial_recordBatchDrops, append_quality, Bool.eq_iff_iff]
  simp only [QueryQuality.isPartial_default, Bool.false_or, Bool.or_eq_true, List.any_eq_true,
    decide_eq_true_eq, convertFailed, List.countP_pos_iff]
  constructor
  · rintro (⟨target, hmem, hflagged⟩ | ⟨target, hmem, hreply, hconverts⟩)
    · refine ⟨target, hmem, ?_⟩
      unfold PeerReply.incomplete
      cases hcase : replies target with
      | failed => rfl
      | answered quality converts =>
          rw [hcase] at hflagged
          simp [hflagged]
    · refine ⟨target, hmem, ?_⟩
      unfold PeerReply.incomplete
      cases hcase : replies target with
      | failed => rfl
      | answered quality converts =>
          rw [hcase] at hconverts
          simp [show converts = false by simpa [PeerReply.converted] using hconverts]
  · rintro ⟨target, hmem, hincomplete⟩
    unfold PeerReply.incomplete at hincomplete
    cases hcase : replies target with
    | failed => exact .inl ⟨target, hmem, by rw [hcase]⟩
    | answered quality converts =>
        rw [hcase] at hincomplete
        rcases Bool.or_eq_true_iff.mp hincomplete with hflagged | hconverts
        · exact .inl ⟨target, hmem, by rw [hcase]; exact hflagged⟩
        · refine .inr ⟨target, hmem, by rw [hcase]; simp, ?_⟩
          rw [hcase]
          simpa [PeerReply.converted] using hconverts

/-- With the same endpoints the two paths have the same outcome. -/
theorem sameOutcome_of_targets {env : Env} {c : Cluster} {scope : FanoutScope}
    (htargets : env.federatedScanTargets c scope = some (pushdownTargets env c scope))
    (merges : Bool) : SamePaths env c scope merges := by
  intro strict replies hconverts
  unfold fanoutScan aggregatePushdown
  rw [htargets]
  cases merges with
  | true =>
      simp only [if_true]
      unfold enforceFanoutStrict
      simp only [scan_quality, merge_quality, QueryQuality.isPartial_default, Bool.false_or]
      split_ifs
      · trivial
      · refine ⟨.refl _, ?_⟩
        rw [scan_quality, merge_quality]
        rfl
  | false =>
      have hsame (target : FederatedScanTarget) : (match replies target with
          | .failed => true
          | .answered quality _ => quality.isPartial) = (replies target).incomplete := by
        cases hcase : replies target with
        | failed => rfl
        | answered quality converts =>
            have hconverted := hconverts rfl target (by rw [hcase]; simp)
            rw [hcase] at hconverted
            simp [PeerReply.incomplete, show converts = true from hconverted]
      have hmerged : (fun target => decide (replies target ≠ .failed)) =
          fun target => (replies target).converted := by
        funext target
        cases hcase : replies target with
        | failed => rfl
        | answered quality converts =>
            have hconverted := hconverts rfl target (by rw [hcase]; simp)
            rw [hcase] at hconverted
            simp [hconverted]
      simp only [Bool.false_eq_true, if_false]
      unfold enforceFanoutStrict
      simp only [scan_quality, append_quality, hsame]
      split_ifs
      · trivial
      · refine ⟨?_, ?_⟩
        · rw [hmerged]
          exact .refl _
        · rw [scan_quality, append_quality]
          simp only [hsame]

end Accounting

section Targets

variable {env : Env} {c : Cluster} {scope : FanoutScope}

theorem resolve_ne_auto : env.resolveFanoutScope scope ≠ .Auto := by
  unfold Env.resolveFanoutScope
  cases scope with
  | Auto => dsimp only; split_ifs <;> simp
  | Flat | Coordinator | Node | Local => simp

theorem remote_nodes_node (hmeta : hierarchicalMetadataAvailable c) :
    env.remoteNodesForScope c .Node = env.localLeafPeers c := by
  simp [Env.remoteNodesForScope, Env.resolveFanoutScope, Env.hierarchicalNodes, hmeta]

theorem remote_nodes_coordinator (hmeta : hierarchicalMetadataAvailable c) :
    env.remoteNodesForScope c .Coordinator = env.nodeAggregatorPeers c := by
  simp [Env.remoteNodesForScope, Env.resolveFanoutScope, Env.hierarchicalNodes, hmeta]

/-- Without remote peers no scope has endpoints. -/
theorem remote_nodes_alone (hpeers : env.remotePeersExcludingLocal c = []) :
    env.remoteNodesForScope c scope = [] := by
  have hnobody (node : Node) (hmem : node ∈ c.list) (halive : isNodeAlive node)
      (hforeign : env.foreign node) : False := by
    have hpeer := mem_remote_peers.mpr ⟨hmem, halive, hforeign⟩
    rw [hpeers] at hpeer
    cases hpeer
  have hleaves : env.localLeafPeers c = [] := by
    refine List.eq_nil_iff_forall_not_mem.mpr fun node hnode => ?_
    obtain ⟨hmem, halive, hforeign, -⟩ := mem_localLeafPeers.mp hnode
    exact hnobody node hmem halive hforeign
  have haggregators : env.nodeAggregatorPeers c = [] := by
    refine List.eq_nil_iff_forall_not_mem.mpr fun node hnode => ?_
    obtain ⟨g, hchosen⟩ := mem_nodeAggregatorPeers.mp hnode
    obtain ⟨hmem, halive, -, hforeign, -⟩ := aggregator_spec hchosen
    exact hnobody node hmem halive hforeign
  unfold Env.remoteNodesForScope Env.hierarchicalNodes
  rw [hpeers, hleaves, haggregators]
  cases env.resolveFanoutScope scope <;> simp

theorem pushdownTargets_alone (hpeers : env.remotePeersExcludingLocal c = []) :
    pushdownTargets env c scope = [] := by
  simp [pushdownTargets, scopedTargets, remote_nodes_alone hpeers]

/-- In aligned cases both paths ask the same endpoints. -/
theorem targets_of_aligned (h : Aligned env c scope) :
    env.federatedScanTargets c scope = some (pushdownTargets env c scope) := by
  have hplain (resolved : FanoutScope) (hresolved : resolved = .Local ∨ resolved = .Flat)
      (hscope : env.resolveFanoutScope scope = resolved) :
      env.federatedScanTargets c scope = some (pushdownTargets env c scope) := by
    unfold Env.federatedScanTargets pushdownTargets scopedTargets
    rcases hresolved with rfl | rfl
    · rw [hscope]
      simp [Env.resolveFanoutScope]
    · rw [hscope]
      simp [Env.resolveFanoutScope]
  rcases h with hlocal | hflat | hpeers | ⟨hmeta, hcoordinator⟩
  · exact hplain .Local (.inl rfl) hlocal
  · exact hplain .Flat (.inr rfl) hflat
  · rw [pushdownTargets_alone hpeers]
    unfold Env.federatedScanTargets
    cases env.resolveFanoutScope scope <;> simp [hpeers, remote_nodes_alone hpeers]
  · by_cases hpeers : env.remotePeersExcludingLocal c = []
    · rw [pushdownTargets_alone hpeers]
      unfold Env.federatedScanTargets
      cases env.resolveFanoutScope scope <;> simp [hpeers, remote_nodes_alone hpeers]
    · cases hscope : env.resolveFanoutScope scope with
      | Auto => exact absurd hscope resolve_ne_auto
      | Local => exact hplain .Local (.inl rfl) hscope
      | Flat => exact hplain .Flat (.inr rfl) hscope
      | Node =>
          unfold Env.federatedScanTargets pushdownTargets scopedTargets
          rw [hscope]
          simp [hpeers, hmeta, remote_nodes_node hmeta, Env.resolveFanoutScope]
      | Coordinator =>
          unfold Env.federatedScanTargets pushdownTargets scopedTargets
          rw [hscope]
          simp only [if_neg hpeers, if_pos hmeta, Env.hierarchicalScanTargets, true_and,
            remote_nodes_node hmeta, remote_nodes_coordinator hmeta, Option.some.injEq]
          rcases hcoordinator hscope with hlocal0 | hleaves
          · rw [if_pos hlocal0]
            rfl
          · rw [hleaves]
            split_ifs <;> rfl

end Targets

section Registries

def processNode (addr : String) (groupRank localRank : Option Int32) (rank : Int32) : Node :=
  ⟨"host", addr, localRank, some rank, groupRank, some "running", 0⟩

/-- Rank 0 under torchrun. -/
def rank0Env : Env := ⟨["10.0.0.1:8080"], some 0, some 0, some 0, true⟩

/-- Rank 1 has registered without its group. -/
def withoutGroup : Cluster :=
  (Cluster.empty.put (processNode "10.0.0.1:8080" (some 0) (some 0) 0)).put
    (processNode "10.0.0.1:8081" none (some 1) 1)

end Registries

end Probing.Federation
