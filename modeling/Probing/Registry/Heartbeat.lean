import Probing.Registry.Cluster

/-!
# Heartbeats

The coordinator merges the nodes of a report, sweeps the nodes that have not
reported for a while, and answers with the changes. A reporter applies the
answer to its own registry.
-/

namespace Probing.Registry

/-- A node as `update_node` stores it. -/
def Node.stamped (node : Node) (now : ℕ) : Node :=
  { node with timestamp := now, status := some (node.status.getD "running") }

def updateNode (now : ℕ) (c : Cluster) (node : Node) : Cluster := c.put (node.stamped now)

def updateNodes (now : ℕ) (c : Cluster) (nodes : List Node) : Cluster :=
  nodes.foldl (updateNode now) c

/-- The stored entries of the reported nodes and of the keys. -/
def deltaNodes (c : Cluster) (incoming : List Node) (removed : List String) : List Node :=
  incoming.map (fun node => (c.nodes.lookup (nodeKey node)).getD node) ++
    removed.filterMap c.nodes.lookup

/-- The former keys of ranks that are reported under another one. -/
def replacedNodeKeys (c : Cluster) (incoming : List Node) : List String :=
  incoming.filterMap fun node =>
    node.rank.bind fun rank => (c.get rank).bind fun previous =>
      if nodeKey previous ≠ nodeKey node then some (nodeKey previous) else none

/-- Not heard of for longer than the threshold and not marked dead yet. -/
def Node.stale (threshold now : ℕ) (node : Node) : Bool :=
  node.timestamp ≠ 0 ∧ threshold < now - node.timestamp ∧ isNodeAlive node

def Node.dead (node : Node) : Node := { node with status := some "dead" }

/-- Dead for longer than twice the threshold. -/
def Node.expired (threshold now : ℕ) (node : Node) : Bool :=
  ¬ isNodeAlive node ∧ threshold * 2 < now - node.timestamp

def Cluster.markDead (c : Cluster) (key : String) : Cluster :=
  match c.nodes.lookup key with
  | none => c
  | some node => ⟨c.nodes.insert key node.dead, c.rankIndex⟩

/-- Remove an expired node, and its rank if the index has this node for it. -/
def Cluster.expire (c : Cluster) (key : String) : Cluster :=
  match c.nodes.lookup key with
  | none => c
  | some node => ⟨c.nodes.erase key,
      match node.rank with
      | none => c.rankIndex
      | some rank =>
          if c.rankIndex.lookup rank = some key then c.rankIndex.erase rank else c.rankIndex⟩

/-- Mark stale nodes dead and remove those that have been dead for long; the keys of
both. -/
def sweepStaleNodes (threshold now : ℕ) (c : Cluster) : Cluster × List String × List String :=
  let newly_dead := (c.nodes.entries.filter fun e => e.2.stale threshold now).map Sigma.fst
  let marked := newly_dead.foldl Cluster.markDead c
  let expired := (marked.nodes.entries.filter fun e =>
    e.2.expired threshold now ∧ e.1 ∉ newly_dead).map Sigma.fst
  (expired.foldl Cluster.expire marked, newly_dead, expired)

structure NodeReportResponse where
  version : ℕ
  nodes : List Node
  removed : List String
  deriving DecidableEq

/-- `key.splitn(2, ':')`, if it has both parts. -/
def splitKey (key : String) : Option (String × String) :=
  match key.toList.span (· ≠ ':') with
  | (_, []) => none
  | (host, _ :: addr) => some (.ofList host, .ofList addr)

def removeSplit (c : Cluster) (key : String) : Cluster :=
  match splitKey key with
  | none => c
  | some (host, addr) => c.removeByAddr host addr

/-- Apply the nodes of an answer and then its removals. -/
def applySnapshotDelta (now : ℕ) (c : Cluster) (nodes : List Node) (removed : List String) :
    Cluster :=
  removed.foldl removeSplit (updateNodes now c nodes)

/-- `report_once` ignores an answer without changes. -/
def applyGlobalSnapshot (now : ℕ) (c : Cluster) (resp : NodeReportResponse) : Cluster :=
  if resp.nodes = [] ∧ resp.removed = [] then c
  else applySnapshotDelta now c resp.nodes resp.removed

section Merge

variable {c d : Cluster} {now threshold : ℕ}

@[simp] theorem Node.key_stamped (node : Node) (now : ℕ) :
    nodeKey (node.stamped now) = nodeKey node := rfl

@[simp] theorem Node.rank_stamped (node : Node) (now : ℕ) :
    (node.stamped now).rank = node.rank := rfl

theorem updateNodes_indexed (h : c.Indexed) (nodes : List Node) :
    (updateNodes now c nodes).Indexed := by
  induction nodes generalizing c with
  | nil => exact h
  | cons node nodes ih => exact ih (h.put _)

/-- What is stored after an update is one of the nodes, or was there before and is
not among the updated keys. -/
theorem lookup_updateNodes (h : c.Indexed) {nodes : List Node} {key : String} {stored : Node}
    (hstored : (updateNodes now c nodes).nodes.lookup key = some stored) :
    (∃ node ∈ nodes, nodeKey node = key ∧ stored = node.stamped now) ∨
      (∀ node ∈ nodes, nodeKey node ≠ key) ∧ c.nodes.lookup key = some stored := by
  induction nodes generalizing c with
  | nil => exact .inr ⟨by simp, hstored⟩
  | cons node nodes ih =>
      rcases ih (h.put (node.stamped now)) hstored with ⟨m, hm, hkey, hm'⟩ | ⟨hother, hold⟩
      · exact .inl ⟨m, List.mem_cons_of_mem node hm, hkey, hm'⟩
      · rw [Cluster.lookup_put h] at hold
        split_ifs at hold with hkey
        · exact .inl ⟨node, by simp, hkey.symm, (Option.some.inj hold).symm⟩
        · refine .inr ⟨?_, hold⟩
          intro m hm
          rcases List.mem_cons.mp hm with rfl | hm
          · exact Ne.symm hkey
          · exact hother m hm

/-- A key that is not stored and not updated is not stored afterwards. -/
theorem lookup_updateNodes_none (h : c.Indexed) {nodes : List Node} {key : String}
    (hkey : ∀ node ∈ nodes, nodeKey node ≠ key) (hnone : c.nodes.lookup key = none) :
    (updateNodes now c nodes).nodes.lookup key = none := by
  cases hstored : (updateNodes now c nodes).nodes.lookup key with
  | none => rfl
  | some stored =>
      rcases lookup_updateNodes h hstored with ⟨node, hnode, hself, -⟩ | ⟨-, hold⟩
      · exact absurd hself (hkey node hnode)
      · rw [hnone] at hold
        cases hold

/-- The former endpoint of a reported rank is gone. -/
theorem lookup_replaced (h : c.Indexed) {nodes : List Node} {key : String} {rank : Int32}
    (hrank : c.rankIndex.lookup rank = some key) (hkey : ∀ node ∈ nodes, nodeKey node ≠ key)
    (hmoved : ∃ node ∈ nodes, node.rank = some rank) :
    (updateNodes now c nodes).nodes.lookup key = none := by
  induction nodes generalizing c with
  | nil => simp at hmoved
  | cons node nodes ih =>
      have hself : key ≠ nodeKey node := Ne.symm (hkey node (by simp))
      have hrest : ∀ m ∈ nodes, nodeKey m ≠ key :=
        fun m hm => hkey m (List.mem_cons_of_mem node hm)
      have hput := h.put (node.stamped now)
      have hlookup : (c.put (node.stamped now)).nodes.lookup key =
          if ∃ own, node.rank = some own ∧ c.rankIndex.lookup own = some key then none
          else c.nodes.lookup key := by
        rw [Cluster.lookup_put h, Node.key_stamped, if_neg hself, Node.rank_stamped]
      by_cases hevict : ∃ own, node.rank = some own ∧ c.rankIndex.lookup own = some key
      · rw [if_pos hevict] at hlookup
        exact lookup_updateNodes_none hput hrest hlookup
      · rw [if_neg hevict] at hlookup
        obtain ⟨previous, hprevious, hown⟩ := (h.index rank key).mp hrank
        refine ih hput ((hput.index rank key).mpr ⟨previous, hlookup.trans hprevious, hown⟩)
          hrest ?_
        obtain ⟨m, hm, hmrank⟩ := hmoved
        rcases List.mem_cons.mp hm with rfl | hm
        · exact absurd ⟨rank, hmrank, hrank⟩ hevict
        · exact ⟨m, hm, hmrank⟩

end Merge

end Probing.Registry
