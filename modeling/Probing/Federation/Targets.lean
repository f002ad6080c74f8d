import Mathlib.Data.List.Sort
import Probing.Registry.Cluster

/-!
# Fan-out targets

Which registry entries a process queries depends on the registry, on the process
environment and on the fan-out scope.
-/

namespace Probing.Federation

open Probing.Registry

/-- What target selection reads from the process. -/
structure Env where
  localListenAddrs : List String
  rank : Option Int32
  /-- `GROUP_RANK`, or else `NODE_RANK`. -/
  groupRank : Option Int32
  localRank : Option Int32
  hierarchicalFanoutEnabled : Bool

inductive FanoutScope
  | Auto
  | Flat
  | Coordinator
  | Node
  | Local
  deriving DecidableEq

structure FederatedScanTarget where
  node : Registry.Node
  scope : FanoutScope
  deriving DecidableEq

/-- The order of `get_nodes`: by rank, and without rank by address. -/
def nodeLe (a b : Node) : Prop :=
  match a.rank, b.rank with
  | some ra, some rb => ra ≤ rb
  | some _, none => True
  | none, some _ => False
  | none, none => a.addr ≤ b.addr

instance : DecidableRel nodeLe := fun a b => by
  unfold nodeLe
  cases a.rank <;> cases b.rank <;> infer_instance

def getNodes (c : Cluster) : List Node := c.list.insertionSort nodeLe

def preferNodeRepresentative (candidate existing : Node) : Bool :=
  let lower := candidate.rank.getD Int32.maxValue < existing.rank.getD Int32.maxValue
  if candidate.localRank = some 0 then
    if existing.localRank = some 0 then lower else true
  else if existing.localRank = some 0 then false
  else lower

namespace Env

variable (env : Env) (c : Cluster)

/-- The entry has none of the listen addresses of this process. -/
def foreign (node : Node) : Bool := node.addr ∉ env.localListenAddrs

def isLocal0 : Bool := env.localRank.getD 0 = 0

def remotePeersExcludingLocal : List Node :=
  (getNodes c).filter fun node => isNodeAlive node && env.foreign node

/-- An entry that can stand for its group. -/
def aggregates (node : Node) : Bool :=
  isNodeAlive node && node.localRank = some 0 && env.foreign node && node.groupRank.isSome

/-- One step of the loop of `node_aggregator_peers`. -/
def offer (by_group : AList fun _ : Int32 => Node) (node : Node) : AList fun _ : Int32 => Node :=
  match node.groupRank with
  | none => by_group
  | some groupRank =>
      match by_group.lookup groupRank with
      | none => by_group.insert groupRank node
      | some existing =>
          if preferNodeRepresentative node existing then by_group.insert groupRank node
          else by_group

def groupLe (a b : Node) : Prop :=
  a.groupRank.getD Int32.maxValue ≤ b.groupRank.getD Int32.maxValue

instance : DecidableRel groupLe := fun _ _ => inferInstanceAs (Decidable (_ ≤ _))

/-- One aggregator for each group. -/
def nodeAggregatorPeers : List Node :=
  ((((getNodes c).filter env.aggregates).foldl offer ∅).entries.map Sigma.snd).insertionSort groupLe

/-- The own group: from the environment, or from the first entry with an own address. -/
def ownGroup : Option Int32 :=
  env.groupRank.or (((getNodes c).find? fun node => !env.foreign node).bind Node.groupRank)

/-- An entry that `local_leaf_peers` keeps. -/
def leaf (groupRank : Int32) (node : Node) : Bool :=
  isNodeAlive node && env.foreign node && node.groupRank = some groupRank &&
    !(node.rank.isSome && node.rank = env.rank)

def localLeafPeers : List Node :=
  match env.ownGroup c with
  | none => []
  | some groupRank => (getNodes c).filter (env.leaf groupRank)

def resolveFanoutScope : FanoutScope → FanoutScope
  | .Auto =>
      if env.hierarchicalFanoutEnabled && env.isLocal0 then .Coordinator
      else if env.hierarchicalFanoutEnabled then .Local
      else .Flat
  | other => other

end Env

def hierarchicalMetadataAvailable (c : Cluster) : Bool :=
  let alive := (getNodes c).filter isNodeAlive
  !alive.isEmpty && alive.all fun node => node.groupRank.isSome && node.localRank.isSome

namespace Env

variable (env : Env) (c : Cluster)

/-- A hierarchical scope without metadata falls back to all peers only if
hierarchical fan-out is disabled. -/
def hierarchicalNodes (peers : List Node) : List Node :=
  if hierarchicalMetadataAvailable c then peers
  else if env.hierarchicalFanoutEnabled then []
  else env.remotePeersExcludingLocal c

def remoteNodesForScope (scope : FanoutScope) : List Node :=
  match env.resolveFanoutScope scope with
  | .Local => []
  | .Flat => env.remotePeersExcludingLocal c
  | .Coordinator => env.hierarchicalNodes c (env.nodeAggregatorPeers c)
  | .Node => env.hierarchicalNodes c (env.localLeafPeers c)
  | .Auto => env.remotePeersExcludingLocal c

def hierarchicalScanTargets (local_leaves remote_aggregators : List Node) :
    List FederatedScanTarget :=
  local_leaves.map (⟨·, .Node⟩) ++ remote_aggregators.map (⟨·, .Coordinator⟩)

/-- `none` is the error of missing hierarchy metadata. -/
def federatedScanTargets (scope : FanoutScope) : Option (List FederatedScanTarget) :=
  match env.resolveFanoutScope scope with
  | .Coordinator =>
      if env.remotePeersExcludingLocal c = [] then some []
      else if hierarchicalMetadataAvailable c then
        some (hierarchicalScanTargets (env.localLeafPeers c) (env.nodeAggregatorPeers c))
      else none
  | .Node =>
      if env.remotePeersExcludingLocal c = [] then some []
      else if hierarchicalMetadataAvailable c then
        some ((env.localLeafPeers c).map (⟨·, .Node⟩))
      else none
  | resolved => some ((env.remoteNodesForScope c resolved).map (⟨·, resolved⟩))

end Env

section Members

variable {env : Env} {c : Cluster} {node : Node}

theorem mem_getNodes : node ∈ getNodes c ↔ node ∈ c.list := List.mem_insertionSort _

/-- The registered nodes are those that lie under their own key. -/
theorem mem_list (h : c.Indexed) : node ∈ c.list ↔ c.nodes.lookup (nodeKey node) = some node := by
  constructor
  · intro hmem
    obtain ⟨⟨key, n⟩, hentry, rfl⟩ := List.mem_map.mp hmem
    have hlookup := AList.mem_lookup_iff.mpr hentry
    rwa [h.keyed key n hlookup]
  · intro hlookup
    exact List.mem_map.mpr ⟨_, AList.mem_lookup_iff.mp hlookup, rfl⟩

/-- A rank has one node. -/
theorem eq_of_rank (h : c.Indexed) {m n : Node} (hm : m ∈ c.list) (hn : n ∈ c.list)
    {rank : Int32} (hmrank : m.rank = some rank) (hnrank : n.rank = some rank) : m = n := by
  rw [mem_list h] at hm hn
  have hkey := (h.index rank (nodeKey m)).mpr ⟨m, hm, hmrank⟩
  rw [(h.index rank (nodeKey n)).mpr ⟨n, hn, hnrank⟩] at hkey
  rw [Option.some.inj hkey, hm] at hn
  exact Option.some.inj hn

theorem getNodes_nodup (h : c.Indexed) : (getNodes c).Nodup := by
  unfold getNodes
  rw [List.Perm.nodup_iff (List.perm_insertionSort nodeLe c.list)]
  refine List.Nodup.map_on ?_ c.nodes.nodupKeys.nodup
  rintro ⟨k, m⟩ hm ⟨l, n⟩ hn hsame
  have hm' := h.keyed k m (AList.mem_lookup_iff.mpr hm)
  have hn' := h.keyed l n (AList.mem_lookup_iff.mpr hn)
  obtain rfl : m = n := hsame
  obtain rfl : k = l := hm'.symm.trans hn'
  rfl

theorem mem_remote_peers : node ∈ env.remotePeersExcludingLocal c ↔
    node ∈ c.list ∧ isNodeAlive node ∧ env.foreign node := by
  unfold Env.remotePeersExcludingLocal
  rw [List.mem_filter, mem_getNodes, Bool.and_eq_true]

theorem mem_localLeafPeers : node ∈ env.localLeafPeers c ↔ node ∈ c.list ∧
    isNodeAlive node ∧ env.foreign node ∧ node.groupRank.isSome ∧
      node.groupRank = env.ownGroup c ∧ ¬ (node.rank.isSome ∧ node.rank = env.rank) := by
  unfold Env.localLeafPeers
  cases hgroup : env.ownGroup c with
  | none =>
      simp only [List.not_mem_nil, false_iff, not_and]
      intro _ _ _ hsome hnone
      rw [hnone] at hsome
      cases hsome
  | some groupRank =>
      rw [List.mem_filter, mem_getNodes]
      simp only [Env.leaf, Bool.and_eq_true, Bool.not_eq_true', decide_eq_true_eq]
      constructor
      · rintro ⟨hmem, ⟨⟨halive, hforeign⟩, hown⟩, hrank⟩
        exact ⟨hmem, halive, hforeign, by rw [hown]; rfl, hown, by simpa using hrank⟩
      · rintro ⟨hmem, halive, hforeign, -, hown, hrank⟩
        exact ⟨hmem, ⟨⟨halive, hforeign⟩, hown⟩, by simpa using hrank⟩

theorem localLeafPeers_nodup (h : c.Indexed) : (env.localLeafPeers c).Nodup := by
  unfold Env.localLeafPeers
  split
  · exact List.nodup_nil
  · exact (getNodes_nodup h).filter _

end Members

section Order

instance : Std.Total nodeLe where
  total a b := by
    unfold nodeLe
    cases a.rank with
    | none =>
        cases b.rank with
        | none => exact String.le_total a.addr b.addr
        | some _ => exact .inr trivial
    | some ra =>
        cases b.rank with
        | none => exact .inl trivial
        | some rb => exact Int32.le_total ra rb

instance : IsTrans Node nodeLe where
  trans a b c := by
    unfold nodeLe
    cases a.rank <;> cases b.rank <;> cases c.rank <;>
      simp only [imp_self, implies_true, false_imp_iff, true_imp_iff] <;>
      first | exact String.le_trans | exact Int32.le_trans

theorem getNodes_sorted (c : Cluster) : (getNodes c).Pairwise nodeLe :=
  List.pairwise_insertionSort nodeLe c.list

theorem rank_le_maxValue (a : Int32) : a ≤ Int32.maxValue :=
  Int32.le_iff_toInt_le.mpr a.toInt_le

/-- A later node never displaces the representative. -/
theorem prefer_of_nodeLe {a b : Node} (h : nodeLe a b) (ha : a.localRank = some 0)
    (hb : b.localRank = some 0) : preferNodeRepresentative b a = false := by
  unfold preferNodeRepresentative
  rw [if_pos hb, if_pos ha]
  simp only [decide_eq_false_iff_not, Int32.not_lt]
  unfold nodeLe at h
  cases hra : a.rank with
  | none =>
      cases hrb : b.rank with
      | none => exact Int32.le_refl _
      | some rb => simp [hra, hrb] at h
  | some ra =>
      cases hrb : b.rank with
      | none => exact rank_le_maxValue ra
      | some rb => simpa [hra, hrb] using h

end Order

section Aggregators

variable {env : Env} {c : Cluster} {node : Node} {g : Int32}

theorem lookup_offer (m : AList fun _ : Int32 => Node) :
    (Env.offer m node).lookup g = if node.groupRank = some g then
      match m.lookup g with
      | none => some node
      | some existing => if preferNodeRepresentative node existing then some node else some existing
    else m.lookup g := by
  unfold Env.offer
  cases hgroup : node.groupRank with
  | none => simp
  | some own =>
      simp only [Option.some.injEq]
      by_cases hown : own = g
      · subst hown
        rw [if_pos rfl]
        cases hm : m.lookup own with
        | none => exact AList.lookup_insert m
        | some existing =>
            dsimp only
            split_ifs
            · exact AList.lookup_insert m
            · exact hm
      · rw [if_neg hown]
        have hinsert : (m.insert own node).lookup g = m.lookup g :=
          AList.lookup_insert_ne (Ne.symm hown)
        split
        · exact hinsert
        · split_ifs
          · exact hinsert
          · rfl

/-- Over nodes of which no later one displaces an earlier one, the first of each
group stays. -/
theorem lookup_foldl_offer {nodes : List Node} {m : AList fun _ : Int32 => Node}
    (hnodes : nodes.Pairwise fun a b => preferNodeRepresentative b a = false)
    (hm : ∀ g existing, m.lookup g = some existing → ∀ n ∈ nodes,
      preferNodeRepresentative n existing = false) :
    (nodes.foldl Env.offer m).lookup g =
      (m.lookup g).or (nodes.find? fun n => n.groupRank = some g) := by
  induction nodes generalizing m with
  | nil => simp
  | cons node nodes ih =>
      obtain ⟨hhead, htail⟩ := List.pairwise_cons.mp hnodes
      rw [List.foldl_cons, ih htail, lookup_offer, List.find?_cons]
      · by_cases hgroup : node.groupRank = some g
        · rw [if_pos hgroup]
          cases hexisting : m.lookup g with
          | none => simp [hgroup]
          | some existing => simp [hm g existing hexisting node (by simp)]
        · simp [hgroup]
      · intro g' existing hexisting n hn
        rw [lookup_offer] at hexisting
        split at hexisting
        · split at hexisting
          · rw [← Option.some.inj hexisting]
            exact hhead n hn
          · next old hold =>
              split at hexisting
              · rw [← Option.some.inj hexisting]
                exact hhead n hn
              · rw [← Option.some.inj hexisting]
                exact hm g' old hold n (List.mem_cons_of_mem node hn)
        · exact hm g' existing hexisting n (List.mem_cons_of_mem node hn)

/-- The first node, by rank, that can stand for the group. -/
def Env.aggregator (env : Env) (c : Cluster) (g : Int32) : Option Node :=
  (getNodes c).find? fun n => env.aggregates n && n.groupRank = some g

theorem lookup_by_group : (((getNodes c).filter env.aggregates).foldl Env.offer ∅).lookup g =
    env.aggregator c g := by
  rw [lookup_foldl_offer, AList.lookup_empty, Option.none_or]
  · rw [List.find?_filter]
    unfold Env.aggregator
    congr 1
    funext n
    simp
  · have hsorted := (getNodes_sorted c).filter env.aggregates
    refine hsorted.imp_of_mem fun ha hb hle => prefer_of_nodeLe hle ?_ ?_
    · have haggregates := (List.mem_filter.mp ha).2
      simp only [Env.aggregates, Bool.and_eq_true, decide_eq_true_eq] at haggregates
      exact haggregates.1.1.2
    · have haggregates := (List.mem_filter.mp hb).2
      simp only [Env.aggregates, Bool.and_eq_true, decide_eq_true_eq] at haggregates
      exact haggregates.1.1.2
  · intro _ _ hempty
    simp at hempty

theorem aggregator_spec {a : Node} (h : env.aggregator c g = some a) : a ∈ c.list ∧
    isNodeAlive a ∧ a.localRank = some 0 ∧ env.foreign a ∧ a.groupRank = some g := by
  have hmem := List.mem_of_find?_eq_some h
  have hprop := List.find?_some h
  simp only [Env.aggregates, Bool.and_eq_true, decide_eq_true_eq] at hprop
  exact ⟨mem_getNodes.1 hmem, hprop.1.1.1.1, hprop.1.1.1.2, hprop.1.1.2, hprop.2⟩

/-- The aggregators are the chosen nodes of the groups. -/
theorem mem_nodeAggregatorPeers {a : Node} :
    a ∈ env.nodeAggregatorPeers c ↔ ∃ g, env.aggregator c g = some a := by
  unfold Env.nodeAggregatorPeers
  rw [List.mem_insertionSort, List.mem_map]
  constructor
  · rintro ⟨⟨g, n⟩, hentry, rfl⟩
    exact ⟨g, lookup_by_group.symm.trans (AList.mem_lookup_iff.mpr hentry)⟩
  · rintro ⟨g, ha⟩
    exact ⟨⟨g, a⟩, AList.mem_lookup_iff.mp (lookup_by_group.trans ha), rfl⟩

theorem nodeAggregatorPeers_nodup : (env.nodeAggregatorPeers c).Nodup := by
  unfold Env.nodeAggregatorPeers
  rw [List.Perm.nodup_iff (List.perm_insertionSort _ _)]
  refine List.Nodup.map_on ?_ (AList.nodupKeys _).nodup
  rintro ⟨g, m⟩ hm ⟨g', n⟩ hn hsame
  obtain rfl : m = n := hsame
  have hg := aggregator_spec (lookup_by_group.symm.trans (AList.mem_lookup_iff.mpr hm))
  have hg' := aggregator_spec (lookup_by_group.symm.trans (AList.mem_lookup_iff.mpr hn))
  obtain rfl : g = g' := Option.some.inj (hg.2.2.2.2.symm.trans hg'.2.2.2.2)
  rfl

end Aggregators

end Probing.Federation
