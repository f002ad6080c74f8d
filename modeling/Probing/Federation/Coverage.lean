import Probing.Federation.Targets

/-!
# Coverage of the hierarchical fan-out

The coordinator queries the leaves of its own node and one aggregator of every
other group, and each aggregator queries the leaves of its group. All processes
hold the same registry, and the environment of a registered process is what its
entry was built from.
-/

namespace Probing.Federation

open Probing.Registry

/-- A registry, one of its processes as the coordinator, and the listen addresses
and settings of the processes. -/
structure Deployment where
  cluster : Cluster
  indexed : cluster.Indexed
  coordinator : Node
  registered : coordinator ∈ cluster.list
  addrs : Node → List String
  own_addr : ∀ node, node.addr ∈ addrs node
  hierarchical : Node → Bool

namespace Deployment

variable (D : Deployment)

def env (node : Node) : Env :=
  ⟨D.addrs node, node.rank, node.groupRank, node.localRank, D.hierarchical node⟩

/-- The nodes that answer for `node` when it is asked for its node tier, unless it
refuses for want of metadata. -/
def nodeTier (node : Node) : Option (List Node) :=
  if D.hierarchical node && (D.env node).isLocal0 && !hierarchicalMetadataAvailable D.cluster then
    none
  else if (D.env node).isLocal0 then some (node :: (D.env node).localLeafPeers D.cluster)
  else some [node]

/-- A coordinator target is asked for its node tier, any other for itself. -/
def served (target : FederatedScanTarget) : Option (List Node) :=
  match target.scope with
  | .Coordinator => D.nodeTier target.node
  | _ => some [target.node]

structure Reach where
  nodes : List Node
  incomplete : Bool
  deriving DecidableEq

/-- The nodes whose rows a scan of the coordinator returns, or the error. -/
def reach (scope : FanoutScope) : Option Reach :=
  ((D.env D.coordinator).federatedScanTargets D.cluster scope).map fun targets =>
    ⟨D.coordinator :: targets.flatMap fun target => (D.served target).getD [],
      targets.any fun target => (D.served target).isNone⟩

/-- Every alive node and the coordinator are reached exactly once, or the scan does
not claim to be complete. -/
def Covered (scope : FanoutScope) : Prop :=
  ∀ r ∈ D.reach scope, r.incomplete = false →
    ∀ node, node ∈ D.cluster.list ∧ isNodeAlive node ∨ node = D.coordinator →
      r.nodes.count node = 1

/-- Metadata is missing and there is somebody else, or the own group has no other
local rank 0 and nobody else with an own address, and every other group has a
local rank 0 that can reach its whole group. -/
def Coverable : Prop :=
  (hierarchicalMetadataAvailable D.cluster = false ∧ ∃ node ∈ D.cluster.list,
    isNodeAlive node ∧ (D.env D.coordinator).foreign node) ∨
  ∀ node ∈ D.cluster.list, isNodeAlive node → node ≠ D.coordinator →
    if node.groupRank = (D.env D.coordinator).ownGroup D.cluster then
      (D.env D.coordinator).foreign node ∧ node.localRank ≠ some 0
    else ∃ g a, node.groupRank = some g ∧ (D.env D.coordinator).aggregator D.cluster g = some a ∧
      (node = a ∨ (D.env a).foreign node)

instance (node : Node) : Decidable (∃ g a, node.groupRank = some g ∧
    (D.env D.coordinator).aggregator D.cluster g = some a ∧ (node = a ∨ (D.env a).foreign node)) :=
  decidable_of_iff ((node.groupRank.bind ((D.env D.coordinator).aggregator D.cluster)).any
      fun a => node = a ∨ (D.env a).foreign node) <| by
    simp only [Option.any_eq_true, Option.bind_eq_some_iff, decide_eq_true_eq]
    constructor
    · rintro ⟨a, ⟨g, hg, ha⟩, hserved⟩
      exact ⟨g, a, hg, ha, hserved⟩
    · rintro ⟨g, a, hg, ha, hserved⟩
      exact ⟨a, ⟨g, hg, ha⟩, hserved⟩

instance : Decidable D.Coverable := inferInstanceAs (Decidable (_ ∨ _))

variable {D} {node a : Node} {g : Int32}

/-- A process does not count itself as foreign. -/
theorem not_foreign_self (node : Node) : (D.env node).foreign node = false := by
  simp [Env.foreign, env, D.own_addr]

theorem ne_of_foreign (h : (D.env a).foreign node) : node ≠ a := by
  rintro rfl
  rw [not_foreign_self] at h
  cases h

theorem ownGroup_of_some (h : a.groupRank = some g) : (D.env a).ownGroup D.cluster = some g := by
  simp [Env.ownGroup, env, h]

/-- The leaves of a registered process: the rank test excludes nobody else. -/
theorem mem_leaves (ha : a ∈ D.cluster.list) : node ∈ (D.env a).localLeafPeers D.cluster ↔
    node ∈ D.cluster.list ∧ isNodeAlive node ∧ (D.env a).foreign node ∧ node.groupRank.isSome ∧
      node.groupRank = (D.env a).ownGroup D.cluster := by
  rw [mem_localLeafPeers]
  constructor
  · rintro ⟨hmem, halive, hforeign, hsome, hgroup, -⟩
    exact ⟨hmem, halive, hforeign, hsome, hgroup⟩
  · rintro ⟨hmem, halive, hforeign, hsome, hgroup⟩
    refine ⟨hmem, halive, hforeign, hsome, hgroup, ?_⟩
    rintro ⟨hranked, hrank⟩
    obtain ⟨rank, hnode⟩ := Option.isSome_iff_exists.mp hranked
    exact ne_of_foreign hforeign (eq_of_rank D.indexed hmem ha hnode (hrank.symm.trans hnode))

/-- The node tier of an aggregator is itself and its leaves. -/
theorem nodeTier_aggregator (hmeta : hierarchicalMetadataAvailable D.cluster)
    (hlocal : a.localRank = some 0) :
    D.nodeTier a = some (a :: (D.env a).localLeafPeers D.cluster) := by
  have hlocal0 : (D.env a).isLocal0 = true := by simp [Env.isLocal0, env, hlocal]
  simp [nodeTier, hmeta, hlocal0]

/-- What the aggregators of the coordinator answer for. -/
def remote (D : Deployment) : List Node :=
  ((D.env D.coordinator).nodeAggregatorPeers D.cluster).flatMap fun a =>
    a :: (D.env a).localLeafPeers D.cluster

theorem mem_remote : node ∈ D.remote ↔ node ∈ D.cluster.list ∧ isNodeAlive node ∧
    ∃ g a, node.groupRank = some g ∧ (D.env D.coordinator).aggregator D.cluster g = some a ∧
      (node = a ∨ (D.env a).foreign node) := by
  unfold remote
  simp only [List.mem_flatMap, mem_nodeAggregatorPeers, List.mem_cons]
  constructor
  · rintro ⟨a, ⟨g, ha⟩, rfl | hleaf⟩
    · obtain ⟨hmem, halive, -, -, hgroup⟩ := aggregator_spec ha
      exact ⟨hmem, halive, g, node, hgroup, ha, .inl rfl⟩
    · obtain ⟨hmem, -, -, -, hgroup⟩ := aggregator_spec ha
      obtain ⟨hnode, halive, hforeign, -, hown⟩ := (mem_leaves hmem).mp hleaf
      rw [ownGroup_of_some hgroup] at hown
      exact ⟨hnode, halive, g, a, hown, ha, .inr hforeign⟩
  · rintro ⟨hnode, halive, g, a, hgroup, ha, hself⟩
    obtain ⟨hmem, -, -, -, hagroup⟩ := aggregator_spec ha
    refine ⟨a, ⟨g, ha⟩, hself.imp_right fun hforeign => (mem_leaves hmem).mpr ?_⟩
    exact ⟨hnode, halive, hforeign, by rw [hgroup]; rfl, by rw [ownGroup_of_some hagroup, hgroup]⟩

/-- No node is served by two aggregators, or twice by one. -/
theorem remote_nodup (D : Deployment) : D.remote.Nodup := by
  have hgroup (a : Node) (ha : a ∈ (D.env D.coordinator).nodeAggregatorPeers D.cluster) :
      ∀ node ∈ a :: (D.env a).localLeafPeers D.cluster, ∃ g, node.groupRank = some g ∧
        (D.env D.coordinator).aggregator D.cluster g = some a := by
    obtain ⟨g, hchosen⟩ := mem_nodeAggregatorPeers.mp ha
    obtain ⟨hmem, -, -, -, hagroup⟩ := aggregator_spec hchosen
    intro node hnode
    rcases List.mem_cons.mp hnode with rfl | hleaf
    · exact ⟨g, hagroup, hchosen⟩
    · have hown := ((mem_leaves hmem).mp hleaf).2.2.2.2
      rw [ownGroup_of_some hagroup] at hown
      exact ⟨g, hown, hchosen⟩
  refine List.nodup_flatMap.mpr ⟨fun a ha => ?_, ?_⟩
  · obtain ⟨g, hchosen⟩ := mem_nodeAggregatorPeers.mp ha
    refine List.nodup_cons.mpr ⟨fun hself => ?_, localLeafPeers_nodup D.indexed⟩
    exact ne_of_foreign ((mem_leaves (aggregator_spec hchosen).1).mp hself).2.2.1 rfl
  · refine nodeAggregatorPeers_nodup.imp_of_mem fun ha hb hne node hnode hnode' => hne ?_
    obtain ⟨g, hg, hchosen⟩ := hgroup _ ha node hnode
    obtain ⟨g', hg', hchosen'⟩ := hgroup _ hb node hnode'
    obtain rfl : g = g' := Option.some.inj (hg.symm.trans hg')
    exact Option.some.inj (hchosen.symm.trans hchosen')

/-- How often the hierarchical fan-out reaches a node. -/
theorem count_reached (D : Deployment) (node : Node) :
    (D.coordinator :: ((D.env D.coordinator).localLeafPeers D.cluster ++ D.remote)).count node =
      (if node = D.coordinator then 1 else 0) +
      (if node ∈ (D.env D.coordinator).localLeafPeers D.cluster then 1 else 0) +
      (if node ∈ D.remote then 1 else 0) := by
  rw [List.count_cons, List.count_append, (localLeafPeers_nodup D.indexed).count,
    D.remote_nodup.count]
  simp only [beq_iff_eq, eq_comm (a := D.coordinator)]
  omega

section Reach

variable {scope : FanoutScope}

theorem reach_alone (hscope : (D.env D.coordinator).resolveFanoutScope scope = .Coordinator)
    (hpeers : (D.env D.coordinator).remotePeersExcludingLocal D.cluster = []) :
    D.reach scope = some ⟨[D.coordinator], false⟩ := by
  simp [reach, Env.federatedScanTargets, hscope, hpeers]

theorem reach_error (hscope : (D.env D.coordinator).resolveFanoutScope scope = .Coordinator)
    (hpeers : (D.env D.coordinator).remotePeersExcludingLocal D.cluster ≠ [])
    (hmeta : hierarchicalMetadataAvailable D.cluster = false) : D.reach scope = none := by
  simp [reach, Env.federatedScanTargets, hscope, hpeers, hmeta]

/-- With metadata the fan-out reaches the own leaves and what the aggregators serve. -/
theorem reach_hierarchical
    (hscope : (D.env D.coordinator).resolveFanoutScope scope = .Coordinator)
    (hpeers : (D.env D.coordinator).remotePeersExcludingLocal D.cluster ≠ [])
    (hmeta : hierarchicalMetadataAvailable D.cluster) : D.reach scope =
      some ⟨D.coordinator :: ((D.env D.coordinator).localLeafPeers D.cluster ++ D.remote),
        false⟩ := by
  have htier (a : Node) (ha : a ∈ (D.env D.coordinator).nodeAggregatorPeers D.cluster) :
      D.nodeTier a = some (a :: (D.env a).localLeafPeers D.cluster) := by
    obtain ⟨g, hchosen⟩ := mem_nodeAggregatorPeers.mp ha
    exact nodeTier_aggregator hmeta (aggregator_spec hchosen).2.2.1
  have hleaves (l : List Node) :
      (l.map (⟨·, FanoutScope.Node⟩)).flatMap (fun target => (D.served target).getD []) = l := by
    induction l with
    | nil => rfl
    | cons node l ih => simpa [served] using ih
  have hremote : (((D.env D.coordinator).nodeAggregatorPeers D.cluster).map
      (⟨·, FanoutScope.Coordinator⟩)).flatMap (fun target => (D.served target).getD []) =
        D.remote := by
    rw [List.flatMap_map]
    apply List.flatMap_congr
    intro a ha
    simp [served, htier a ha]
  unfold reach Env.federatedScanTargets
  simp only [hscope, if_neg hpeers, if_pos hmeta, Option.map_some, Env.hierarchicalScanTargets,
    List.flatMap_append, hleaves, hremote, Option.some.injEq, Reach.mk.injEq, true_and]
  simp only [List.any_eq_false, List.mem_append, List.mem_map]
  rintro target (⟨node, -, rfl⟩ | ⟨a, ha, rfl⟩)
  · simp [served]
  · simp [served, htier a ha]

end Reach

section Groups

/-- Where the fan-out covers the cluster, the coordinator's own group has no other
aggregator: it would be a leaf as well. -/
theorem no_own_aggregator (hcount : ∀ node, node ∈ D.cluster.list ∧ isNodeAlive node ∨
      node = D.coordinator → (D.coordinator ::
        ((D.env D.coordinator).localLeafPeers D.cluster ++ D.remote)).count node = 1)
    (hown : (D.env D.coordinator).ownGroup D.cluster = some g) :
    (D.env D.coordinator).aggregator D.cluster g = none := by
  cases ha : (D.env D.coordinator).aggregator D.cluster g with
  | none => rfl
  | some a =>
      obtain ⟨hmem, halive, -, hforeign, hgroup⟩ := aggregator_spec ha
      have hleaf : a ∈ (D.env D.coordinator).localLeafPeers D.cluster :=
        (mem_leaves D.registered).mpr ⟨hmem, halive, hforeign, by rw [hgroup]; rfl,
          by rw [hgroup, hown]⟩
      have hremote : a ∈ D.remote := mem_remote.2 ⟨hmem, halive, g, a, hgroup, ha, .inl rfl⟩
      have honce := hcount a (.inl ⟨hmem, halive⟩)
      rw [count_reached, if_pos hleaf, if_pos hremote] at honce
      omega

theorem aggregator_eq_none : (D.env D.coordinator).aggregator D.cluster g = none ↔
    ∀ node ∈ D.cluster.list, isNodeAlive node → node.groupRank = some g →
      (D.env D.coordinator).foreign node → node.localRank ≠ some 0 := by
  unfold Env.aggregator
  rw [List.find?_eq_none]
  constructor
  · intro h node hmem halive hgroup hforeign hlocal
    apply h node (mem_getNodes.mpr hmem)
    simp [Env.aggregates, halive, hgroup, hforeign, hlocal]
  · intro h node hmem hchosen
    simp only [Env.aggregates, Bool.and_eq_true, decide_eq_true_eq] at hchosen
    exact h node (mem_getNodes.mp hmem) hchosen.1.1.1.1 hchosen.2 hchosen.1.1.2 hchosen.1.1.1.2

end Groups

/-- With metadata, exactly one visit of everybody is coverability. -/
theorem count_iff (hmeta : hierarchicalMetadataAvailable D.cluster) :
    (∀ node, node ∈ D.cluster.list ∧ isNodeAlive node ∨ node = D.coordinator →
      (D.coordinator :: ((D.env D.coordinator).localLeafPeers D.cluster ++ D.remote)).count
        node = 1) ↔
    ∀ node ∈ D.cluster.list, isNodeAlive node → node ≠ D.coordinator →
      if node.groupRank = (D.env D.coordinator).ownGroup D.cluster then
        (D.env D.coordinator).foreign node ∧ node.localRank ≠ some 0
      else ∃ g a, node.groupRank = some g ∧
        (D.env D.coordinator).aggregator D.cluster g = some a ∧
        (node = a ∨ (D.env a).foreign node) := by
  have hgrouped (node : Node) (hmem : node ∈ D.cluster.list) (halive : isNodeAlive node) :
      ∃ g, node.groupRank = some g := by
    simp only [hierarchicalMetadataAvailable, Bool.and_eq_true, List.all_eq_true] at hmeta
    have hsome := hmeta.2 node (List.mem_filter.mpr ⟨mem_getNodes.mpr hmem, halive⟩)
    exact Option.isSome_iff_exists.mp hsome.1
  constructor
  · intro hcount node hmem halive hne
    obtain ⟨g, hg⟩ := hgrouped node hmem halive
    have honce := hcount node (.inl ⟨hmem, halive⟩)
    rw [count_reached, if_neg hne] at honce
    split_ifs with hown
    · have hnone := no_own_aggregator hcount (hown.symm.trans hg)
      have hnot_remote : node ∉ D.remote := by
        intro hremote
        obtain ⟨-, -, g', a, hg', ha, -⟩ := mem_remote.1 hremote
        rw [Option.some.inj (hg'.symm.trans hg), hnone] at ha
        cases ha
      have hleaf : node ∈ (D.env D.coordinator).localLeafPeers D.cluster := by
        by_contra hnot
        rw [if_neg hnot, if_neg hnot_remote] at honce
        omega
      have hforeign := ((mem_leaves D.registered).mp hleaf).2.2.1
      exact ⟨hforeign, aggregator_eq_none.1 hnone node hmem halive hg hforeign⟩
    · have hnot_leaf : node ∉ (D.env D.coordinator).localLeafPeers D.cluster :=
        fun hleaf => hown ((mem_leaves D.registered).mp hleaf).2.2.2.2
      have hremote : node ∈ D.remote := by
        by_contra hnot
        rw [if_neg hnot, if_neg hnot_leaf] at honce
        omega
      exact (mem_remote.1 hremote).2.2
  · intro hcover node hnode
    -- in the own group there is no other local rank 0
    have hown_none (g : Int32) (hown : (D.env D.coordinator).ownGroup D.cluster = some g) :
        (D.env D.coordinator).aggregator D.cluster g = none := by
      refine aggregator_eq_none.2 fun m hm halive hg hforeign => ?_
      have hm' := hcover m hm halive (ne_of_foreign hforeign)
      rw [if_pos (hg.trans hown.symm)] at hm'
      exact hm'.2
    have hnot_remote (m : Node) (hgroup : m.groupRank = (D.env D.coordinator).ownGroup D.cluster) :
        m ∉ D.remote := by
      intro hremote
      obtain ⟨-, -, g, a, hg, ha, -⟩ := mem_remote.1 hremote
      rw [hown_none g (hgroup.symm.trans hg)] at ha
      cases ha
    rw [count_reached]
    by_cases hself : node = D.coordinator
    · subst hself
      have hleaf : D.coordinator ∉ (D.env D.coordinator).localLeafPeers D.cluster := fun hleaf =>
        ne_of_foreign ((mem_leaves D.registered).mp hleaf).2.2.1 rfl
      have hremote : D.coordinator ∉ D.remote := by
        intro hremote
        obtain ⟨-, -, g, -, hg, -⟩ := mem_remote.1 hremote
        exact hnot_remote _ (hg.trans (ownGroup_of_some hg).symm) hremote
      rw [if_pos rfl, if_neg hleaf, if_neg hremote]
    · obtain ⟨hmem, halive⟩ := hnode.resolve_right hself
      obtain ⟨g, hg⟩ := hgrouped node hmem halive
      have hcase := hcover node hmem halive hself
      rw [if_neg hself]
      split_ifs at hcase with hown
      · have hleaf : node ∈ (D.env D.coordinator).localLeafPeers D.cluster :=
          (mem_leaves D.registered).mpr ⟨hmem, halive, hcase.1, by rw [hg]; rfl, hown⟩
        rw [if_pos hleaf, if_neg (hnot_remote node hown)]
      · have hleaf : node ∉ (D.env D.coordinator).localLeafPeers D.cluster :=
          fun hleaf => hown ((mem_leaves D.registered).mp hleaf).2.2.2.2
        rw [if_neg hleaf, if_pos (mem_remote.2 ⟨hmem, halive, hcase⟩)]

/-- The coordinator's fan-out covers the cluster exactly when it is coverable. -/
theorem fanout_covers_iff (D : Deployment) {scope : FanoutScope}
    (hscope : (D.env D.coordinator).resolveFanoutScope scope = .Coordinator) :
    D.Covered scope ↔ D.Coverable := by
  by_cases hpeers : (D.env D.coordinator).remotePeersExcludingLocal D.cluster = []
  · have hnobody (node : Node) (hmem : node ∈ D.cluster.list) (halive : isNodeAlive node)
        (hforeign : (D.env D.coordinator).foreign node) : False := by
      have hpeer := mem_remote_peers.mpr ⟨hmem, halive, hforeign⟩
      rw [hpeers] at hpeer
      cases hpeer
    constructor
    · intro hcovered
      refine .inr fun node hmem halive hne => ?_
      have honce := hcovered _ (reach_alone hscope hpeers) rfl node (.inl ⟨hmem, halive⟩)
      rw [List.count_singleton, if_neg (by simpa using Ne.symm hne)] at honce
      cases honce
    · rintro (⟨-, m, hmem, halive, hforeign⟩ | hcover) r hr - node hnode
      · exact absurd hforeign (hnobody m hmem halive)
      · rw [reach_alone hscope hpeers] at hr
        obtain rfl := Option.some.inj hr
        have hself : node = D.coordinator := by
          by_contra hne
          obtain ⟨hmem, halive⟩ := hnode.resolve_right hne
          have hcase := hcover node hmem halive hne
          split_ifs at hcase
          · exact hnobody node hmem halive hcase.1
          · obtain ⟨g, a, -, ha, -⟩ := hcase
            obtain ⟨hamem, haalive, -, haforeign, -⟩ := aggregator_spec ha
            exact hnobody a hamem haalive haforeign
        rw [hself, List.count_singleton_self]
  · obtain ⟨peer, hpeer⟩ := List.exists_mem_of_ne_nil _ hpeers
    obtain ⟨hpmem, hpalive, hpforeign⟩ := mem_remote_peers.mp hpeer
    by_cases hmeta : hierarchicalMetadataAvailable D.cluster = true
    · have hcount := count_iff hmeta
      constructor
      · intro hcovered
        exact .inr (hcount.mp (hcovered _ (reach_hierarchical hscope hpeers hmeta) rfl))
      · rintro (⟨hmissing, -⟩ | hcover) r hr -
        · rw [hmeta] at hmissing
          cases hmissing
        · rw [reach_hierarchical hscope hpeers hmeta] at hr
          obtain rfl := Option.some.inj hr
          exact hcount.mpr hcover
    · have hmissing : hierarchicalMetadataAvailable D.cluster = false := by simpa using hmeta
      constructor
      · exact fun _ => .inl ⟨hmissing, peer, hpmem, hpalive, hpforeign⟩
      · intro _ r hr
        rw [reach_error hscope hpeers hmissing] at hr
        cases hr

end Deployment

section Clusters

/-- The registry after these reports. -/
def register (nodes : List Node) : Cluster := nodes.foldl Cluster.put .empty

theorem register_indexed (nodes : List Node) : (register nodes).Indexed := by
  have hfold (c : Cluster) (hc : c.Indexed) : (nodes.foldl Cluster.put c).Indexed := by
    induction nodes generalizing c with
    | nil => exact hc
    | cons node nodes ih => exact ih _ (hc.put node)
  exact hfold _ Cluster.empty_indexed

def torchrunNode (addr : String) (groupRank localRank rank : Int32) (status : String) : Node :=
  ⟨"host", addr, some localRank, some rank, some groupRank, some status, 0⟩

def rank0 : Node := torchrunNode "10.0.0.1:8080" 0 0 0 "running"
def rank1 : Node := torchrunNode "10.0.0.1:8081" 0 1 1 "running"
def rank8 (status : String) : Node := torchrunNode "10.0.0.2:8080" 1 0 8 status
def rank9 : Node := torchrunNode "10.0.0.2:8081" 1 1 9 "running"

/-- Two groups of two ranks; the local rank 0 of the second group has a status. -/
def twoGroups (status : String) : Cluster := register [rank0, rank1, rank8 status, rank9]

/-- Rank 0 coordinates. -/
def twoGroupsAll : Deployment where
  cluster := twoGroups "running"
  indexed := register_indexed _
  coordinator := rank0
  registered := by decide
  addrs node := [node.addr]
  own_addr node := List.mem_singleton_self node.addr
  hierarchical _ := true

/-- With all four ranks alive the fan-out covers the cluster. -/
theorem fanout_covers_twoGroups : twoGroupsAll.Covered .Auto :=
  (twoGroupsAll.fanout_covers_iff (by decide)).mpr (by decide)

/-- The same two groups with rank 8 marked dead. -/
def twoGroupsDead : Deployment where
  cluster := twoGroups "dead"
  indexed := register_indexed _
  coordinator := rank0
  registered := by decide
  addrs node := [node.addr]
  own_addr node := List.mem_singleton_self node.addr
  hierarchical _ := true

/-- Without an aggregator rank 9 is left out, and the scan counts as complete. -/
theorem fanout_loses_rank :
    isNodeAlive rank9 ∧ rank9 ∈ twoGroupsDead.cluster.list ∧
      twoGroupsDead.reach .Auto = some ⟨[rank0, rank1], false⟩ ∧
        ¬ twoGroupsDead.Covered .Auto := by
  have hreach : twoGroupsDead.reach .Auto = some ⟨[rank0, rank1], false⟩ := by decide
  have hmem : rank9 ∈ twoGroupsDead.cluster.list := by decide
  refine ⟨by decide, hmem, hreach, fun hcovered => ?_⟩
  have honce := hcovered _ hreach rfl rank9 (.inl ⟨hmem, by decide⟩)
  exact absurd honce (by decide)

end Clusters

end Probing.Federation
