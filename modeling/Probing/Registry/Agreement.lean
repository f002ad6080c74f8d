import Mathlib.Data.List.TakeDrop
import Mathlib.Data.List.TakeWhile
import Probing.Registry.Heartbeat

/-!
# An applied answer reproduces the coordinator's change

A reporter whose registry agrees with the coordinator's before a report agrees
with it after it has applied the answer, provided that the report is coherent.

Six operations change the registry, each by its own rules for the two maps. A run is
any list of calls, and after every run the index is the one the nodes determine.
-/

namespace Probing.Registry

/-- What replication is about: the rank of a key and whether its node is alive. -/
def view (c : Cluster) (key : String) : Option (Option Int32 × Bool) :=
  (c.nodes.lookup key).map fun node => (node.rank, isNodeAlive node)

def Agree (c d : Cluster) : Prop := ∀ key, view c key = view d key

def SameRanks (c d : Cluster) : Prop :=
  ∀ key, (c.nodes.lookup key).map Node.rank = (d.nodes.lookup key).map Node.rank

/-- Entries of one report under one key have one rank, and no reported rank
belongs to another reported key. -/
structure Coherent (c : Cluster) (incoming : List Node) : Prop where
  one_rank : ∀ m ∈ incoming, ∀ n ∈ incoming, nodeKey m = nodeKey n → m.rank = n.rank
  moved : ∀ key ∈ replacedNodeKeys c incoming, ∀ node ∈ incoming, nodeKey node ≠ key

instance (c : Cluster) (incoming : List Node) : Decidable (Coherent c incoming) :=
  decidable_of_iff
    ((∀ m ∈ incoming, ∀ n ∈ incoming, nodeKey m = nodeKey n → m.rank = n.rank) ∧
      ∀ key ∈ replacedNodeKeys c incoming, ∀ node ∈ incoming, nodeKey node ≠ key)
    ⟨fun h => ⟨h.1, h.2⟩, fun h => ⟨h.1, h.2⟩⟩

theorem Agree.refl (c : Cluster) : Agree c c := fun _ => rfl

section Ranks

variable {c d : Cluster} {now : ℕ}

theorem Agree.sameRanks (h : Agree c d) : SameRanks c d := by
  intro key
  have hview := congrArg (Option.map Prod.fst) (h key)
  simp only [view, Option.map_map] at hview
  exact hview

/-- Equal ranks under all keys make equal rank indices. -/
theorem SameRanks.rankIndex (h : SameRanks c d) (hc : c.Indexed) (hd : d.Indexed)
    (rank : Int32) : c.rankIndex.lookup rank = d.rankIndex.lookup rank := by
  apply Option.ext
  intro key
  have hkey : (∃ node, c.nodes.lookup key = some node ∧ node.rank = some rank) ↔
      ∃ node, d.nodes.lookup key = some node ∧ node.rank = some rank := by
    have hmap := h key
    constructor
    · rintro ⟨node, hnode, hrank⟩
      rw [hnode, Option.map_some, hrank] at hmap
      exact Option.map_eq_some_iff.mp hmap.symm
    · rintro ⟨node, hnode, hrank⟩
      rw [hnode, Option.map_some, hrank] at hmap
      exact Option.map_eq_some_iff.mp hmap
  exact (hc.index rank key).trans (hkey.trans (hd.index rank key).symm)

theorem SameRanks.put (h : SameRanks c d) (hc : c.Indexed) (hd : d.Indexed) {m n : Node}
    (hkey : nodeKey m = nodeKey n) (hrank : m.rank = n.rank) :
    SameRanks (c.put m) (d.put n) := by
  intro key
  rw [Cluster.lookup_put hc, Cluster.lookup_put hd, hkey, hrank]
  simp only [h.rankIndex hc hd]
  split_ifs
  · simp [hrank]
  · rfl
  · exact h key

/-- Two lists with the same keys and ranks, position by position. -/
theorem SameRanks.updateNodes {now' : ℕ} (h : SameRanks c d) (hc : c.Indexed) (hd : d.Indexed)
    {xs ys : List Node}
    (hlists : List.Forall₂ (fun m n => nodeKey m = nodeKey n ∧ m.rank = n.rank) xs ys) :
    SameRanks (updateNodes now c xs) (updateNodes now' d ys) := by
  induction hlists generalizing c d with
  | nil => exact h
  | cons hhead _ ih =>
      apply ih
      · exact h.put hc hd hhead.1 hhead.2
      · exact hc.put _
      · exact hd.put _

/-- Registering a node again with the rank it has moves no rank. -/
theorem SameRanks.put_known (hc : c.Indexed) {node : Node}
    (hknown : (c.nodes.lookup (nodeKey node)).map Node.rank = some node.rank) :
    SameRanks (c.put node) c := by
  intro key
  obtain ⟨stored, hstored, hrank⟩ := Option.map_eq_some_iff.mp hknown
  rw [Cluster.lookup_put hc]
  by_cases hkey : key = nodeKey node
  · rw [if_pos hkey, hkey, hknown]
    rfl
  · rw [if_neg hkey, if_neg]
    rintro ⟨rank, hown, hindex⟩
    have hself := (hc.index rank (nodeKey node)).mpr ⟨stored, hstored, hrank.trans hown⟩
    rw [hself] at hindex
    exact hkey (Option.some.inj hindex).symm

theorem SameRanks.update_known (hc : c.Indexed) {nodes : List Node}
    (hknown : ∀ node ∈ nodes, (c.nodes.lookup (nodeKey node)).map Node.rank = some node.rank) :
    SameRanks (Registry.updateNodes now c nodes) c := by
  induction nodes generalizing c with
  | nil => exact fun _ => rfl
  | cons node nodes ih =>
      have hput : SameRanks (c.put (node.stamped now)) c :=
        .put_known hc (hknown node (by simp))
      have hrest : SameRanks (Registry.updateNodes now (c.put (node.stamped now)) nodes)
          (c.put (node.stamped now)) := by
        apply ih (hc.put _)
        intro m hm
        rw [hput (nodeKey m)]
        exact hknown m (List.mem_cons_of_mem node hm)
      exact fun key => (hrest key).trans (hput key)

end Ranks

section Removal

variable {c : Cluster}

/-- A key with a colon is split and joined again. -/
theorem splitKey_eq (key : String) :
    (∃ host addr, splitKey key = some (host, addr) ∧ host ++ ":" ++ addr = key) ∨
      splitKey key = none ∧ ':' ∉ key.toList := by
  unfold splitKey
  have hspan : (key.toList.span (· ≠ ':')).1 ++ (key.toList.span (· ≠ ':')).2 = key.toList := by
    rw [List.span_eq_takeWhile_dropWhile]
    exact List.takeWhile_append_dropWhile
  have hhead : ∀ x rest, (key.toList.span (· ≠ ':')).2 = x :: rest → x = ':' := by
    intro x rest hrest
    rw [List.span_eq_takeWhile_dropWhile] at hrest
    have hnot := List.head?_dropWhile_not (fun c => decide (c ≠ ':')) key.toList
    rw [show key.toList.dropWhile (fun c => decide (c ≠ ':')) = x :: rest from hrest] at hnot
    simpa using hnot
  have hinit : ∀ x ∈ (key.toList.span (· ≠ ':')).1, x ≠ ':' := by
    intro x hx
    rw [List.span_eq_takeWhile_dropWhile] at hx
    simpa using List.mem_takeWhile_imp hx
  rcases hparts : key.toList.span (· ≠ ':') with ⟨init, _ | ⟨x, rest⟩⟩
  · rw [hparts] at hspan hinit
    right
    refine ⟨rfl, fun hmem => ?_⟩
    rw [← hspan, List.append_nil] at hmem
    exact hinit ':' hmem rfl
  · rw [hparts] at hspan hhead
    obtain rfl := hhead x rest rfl
    left
    refine ⟨.ofList init, .ofList rest, rfl, ?_⟩
    rw [← String.toList_inj]
    simpa using hspan

theorem colon_mem_nodeKey (node : Node) : ':' ∈ (nodeKey node).toList := by
  simp [nodeKey]

/-- Removing by the parts of a key removes the key. -/
theorem removeSplit_eq (h : c.Indexed) (key : String) : removeSplit c key = c.removeKey key := by
  unfold removeSplit
  rcases splitKey_eq key with ⟨host, addr, hsplit, hjoin⟩ | ⟨hsplit, hcolon⟩
  · rw [hsplit]
    simp only [Cluster.removeByAddr, hjoin]
  · rw [hsplit]
    have hnone : c.nodes.lookup key = none := by
      cases hnode : c.nodes.lookup key with
      | none => rfl
      | some node => exact absurd (h.keyed key node hnode ▸ colon_mem_nodeKey node) hcolon
    simp only [Cluster.removeKey, hnone]

theorem remove_splits (h : c.Indexed) (keys : List String) :
    (keys.foldl removeSplit c).Indexed ∧ ∀ key, (keys.foldl removeSplit c).nodes.lookup key =
      if key ∈ keys then none else c.nodes.lookup key := by
  induction keys generalizing c with
  | nil => exact ⟨h, by simp⟩
  | cons k keys ih =>
      rw [List.foldl_cons, removeSplit_eq h]
      obtain ⟨hindexed, hlookup⟩ := ih (h.removeKey k)
      refine ⟨hindexed, fun key => ?_⟩
      rw [hlookup, Cluster.lookup_removeKey]
      simp only [List.mem_cons]
      split_ifs <;> tauto

end Removal

section Sweep

variable {c : Cluster} {key : String} {threshold now : ℕ}

theorem lookup_markDead :
    (c.markDead key).nodes.lookup key = (c.nodes.lookup key).map Node.dead := by
  unfold Cluster.markDead
  cases hnode : c.nodes.lookup key with
  | none => simpa using hnode
  | some node => exact AList.lookup_insert c.nodes

theorem lookup_markDead_ne {k : String} (hk : k ≠ key) :
    (c.markDead key).nodes.lookup k = c.nodes.lookup k := by
  unfold Cluster.markDead
  cases hnode : c.nodes.lookup key with
  | none => rfl
  | some node => exact AList.lookup_insert_ne hk

theorem Cluster.Indexed.markDead (h : c.Indexed) (key : String) : (c.markDead key).Indexed := by
  have hrank : (c.markDead key).rankIndex = c.rankIndex := by
    unfold Cluster.markDead
    split <;> rfl
  refine ⟨fun k node hnode => ?_, fun rank k => ?_⟩
  · by_cases hk : k = key
    · subst hk
      rw [lookup_markDead] at hnode
      obtain ⟨stored, hstored, rfl⟩ := Option.map_eq_some_iff.mp hnode
      exact h.keyed k stored hstored
    · rw [lookup_markDead_ne hk] at hnode
      exact h.keyed k node hnode
  · rw [hrank, h.index]
    by_cases hk : k = key
    · subst hk
      rw [lookup_markDead]
      simp [Node.dead]
    · rw [lookup_markDead_ne hk]

theorem mark_deads (h : c.Indexed) (keys : List String) :
    (keys.foldl Cluster.markDead c).Indexed ∧
      ∀ key, (keys.foldl Cluster.markDead c).nodes.lookup key =
        if key ∈ keys then (c.nodes.lookup key).map Node.dead else c.nodes.lookup key := by
  induction keys generalizing c with
  | nil => exact ⟨h, by simp⟩
  | cons k keys ih =>
      obtain ⟨hindexed, hlookup⟩ := ih (h.markDead k)
      refine ⟨hindexed, fun key => ?_⟩
      rw [List.foldl_cons, hlookup]
      by_cases hk : key = k
      · subst hk
        rw [lookup_markDead, if_pos (List.mem_cons_self), Option.map_map]
        split_ifs <;> rfl
      · rw [lookup_markDead_ne hk]
        simp [hk]

theorem expire_eq (h : c.Indexed) (key : String) : c.expire key = c.removeKey key := by
  unfold Cluster.expire Cluster.removeKey
  cases hnode : c.nodes.lookup key with
  | none => rfl
  | some node =>
      cases hrank : node.rank with
      | none => simp [hrank]
      | some rank =>
          have hindex := (h.index rank key).mpr ⟨node, hnode, hrank⟩
          simp [hrank, hindex]

theorem expires (h : c.Indexed) (keys : List String) :
    (keys.foldl Cluster.expire c).Indexed ∧ ∀ key, (keys.foldl Cluster.expire c).nodes.lookup key =
      if key ∈ keys then none else c.nodes.lookup key := by
  induction keys generalizing c with
  | nil => exact ⟨h, by simp⟩
  | cons k keys ih =>
      rw [List.foldl_cons, expire_eq h]
      obtain ⟨hindexed, hlookup⟩ := ih (h.removeKey k)
      refine ⟨hindexed, fun key => ?_⟩
      rw [hlookup, Cluster.lookup_removeKey]
      simp only [List.mem_cons]
      split_ifs <;> tauto

/-- What a sweep leaves under each key. -/
theorem sweep_spec (h : c.Indexed) {swept : Cluster} {newly_dead expired : List String}
    (hsweep : sweepStaleNodes threshold now c = (swept, newly_dead, expired)) :
    swept.Indexed ∧ (∀ key ∈ newly_dead, key ∉ expired ∧ (c.nodes.lookup key).isSome) ∧
      ∀ key, swept.nodes.lookup key = if key ∈ expired then none
        else if key ∈ newly_dead then (c.nodes.lookup key).map Node.dead
        else c.nodes.lookup key := by
  obtain ⟨hswept, hnewly, hexpired⟩ :
      _ = swept ∧ _ = newly_dead ∧ _ = expired := by
    simpa only [sweepStaleNodes, Prod.mk.injEq] using hsweep
  rw [hnewly] at hswept hexpired
  rw [hexpired] at hswept
  obtain ⟨hmarked, hmark⟩ := mark_deads h newly_dead
  obtain ⟨hindexed, hexpire⟩ := expires hmarked expired
  subst hswept
  refine ⟨hindexed, fun key hkey => ⟨?_, ?_⟩, fun key => ?_⟩
  · rw [← hexpired]
    intro hmem
    obtain ⟨e, he, rfl⟩ := List.mem_map.mp hmem
    simp only [List.mem_filter, decide_eq_true_eq] at he
    exact he.2.2 hkey
  · rw [← hnewly] at hkey
    obtain ⟨⟨k, node⟩, he, rfl⟩ := List.mem_map.mp hkey
    rw [AList.mem_lookup_iff.mpr (List.mem_filter.mp he).1]
    rfl
  · rw [hexpire, hmark]

end Sweep

section Answer

variable {c₀ c d : Cluster} {incoming : List Node} {newly_dead expired removed : List String}
  {threshold now now_sweep now_apply : ℕ}

/-- A replaced endpoint is gone after the merge. -/
theorem replaced_gone (hc : c₀.Indexed) (hcoherent : Coherent c₀ incoming) {key : String}
    (hkey : key ∈ replacedNodeKeys c₀ incoming) :
    (updateNodes now c₀ incoming).nodes.lookup key = none := by
  have hother := hcoherent.moved key hkey
  obtain ⟨node, hnode, hreplaced⟩ := List.mem_filterMap.mp hkey
  obtain ⟨rank, hrank, hreplaced⟩ := Option.bind_eq_some_iff.mp hreplaced
  obtain ⟨previous, hprevious, hreplaced⟩ := Option.bind_eq_some_iff.mp hreplaced
  obtain ⟨-, hself⟩ := Option.ite_none_right_eq_some.mp hreplaced
  obtain rfl := Option.some.inj hself
  obtain ⟨stored_key, hindex, hstored⟩ := Option.bind_eq_some_iff.mp hprevious
  rw [hc.keyed stored_key previous hstored] at hother ⊢
  exact lookup_replaced hc hindex hother ⟨node, hnode, hrank⟩

/-- After the sweep a reported key still has the rank it was reported with. -/
theorem reported_rank (hc : c₀.Indexed) (hcoherent : Coherent c₀ incoming)
    (hsweep : sweepStaleNodes threshold now_sweep (updateNodes now c₀ incoming) =
      (c, newly_dead, expired)) {node stored : Node} (hnode : node ∈ incoming)
    (hstored : c.nodes.lookup (nodeKey node) = some stored) : stored.rank = node.rank := by
  obtain ⟨-, -, hlookup⟩ := sweep_spec (updateNodes_indexed hc incoming) hsweep
  have hmerged : ((updateNodes now c₀ incoming).nodes.lookup (nodeKey node)).map Node.rank =
      some stored.rank := by
    have hswept := hlookup (nodeKey node)
    rw [hstored] at hswept
    split_ifs at hswept
    · obtain ⟨merged, hmerged, rfl⟩ := Option.map_eq_some_iff.mp hswept.symm
      rw [hmerged]
      rfl
    · rw [← hswept]
      rfl
  obtain ⟨merged, hmerged, hrank⟩ := Option.map_eq_some_iff.mp hmerged
  rcases lookup_updateNodes hc hmerged with ⟨m, hm, hkey, rfl⟩ | ⟨hother, -⟩
  · exact hrank.symm.trans (hcoherent.one_rank m hm node hnode hkey)
  · exact absurd rfl (hother node hnode)

/-- The nodes of an answer give the reporter the ranks of the merge. -/
theorem delta_ranks (hc : c₀.Indexed) (hd : d.Indexed) (hranks : SameRanks c₀ d)
    (hcoherent : Coherent c₀ incoming)
    (hsweep : sweepStaleNodes threshold now_sweep (updateNodes now c₀ incoming) =
      (c, newly_dead, expired)) :
    SameRanks (updateNodes now c₀ incoming)
      (updateNodes now_apply d (deltaNodes c incoming newly_dead)) := by
  obtain ⟨hindexed, hnewly, hlookup⟩ := sweep_spec (updateNodes_indexed hc incoming) hsweep
  have hreported : SameRanks (updateNodes now c₀ incoming) (updateNodes now_apply d
      (incoming.map fun node => (c.nodes.lookup (nodeKey node)).getD node)) := by
    apply hranks.updateNodes hc hd
    rw [List.forall₂_map_right_iff, List.forall₂_same]
    intro node hnode
    cases hstored : c.nodes.lookup (nodeKey node) with
    | none => exact ⟨rfl, rfl⟩
    | some stored =>
        exact ⟨(hindexed.keyed _ _ hstored).symm,
          (reported_rank hc hcoherent hsweep hnode hstored).symm⟩
  have hdead : SameRanks (updateNodes now_apply d (deltaNodes c incoming newly_dead))
      (updateNodes now_apply d
        (incoming.map fun node => (c.nodes.lookup (nodeKey node)).getD node)) := by
    unfold deltaNodes
    rw [updateNodes, List.foldl_append]
    apply SameRanks.update_known (updateNodes_indexed hd _)
    intro node hnode
    obtain ⟨key, hkey, hstored⟩ := List.mem_filterMap.mp hnode
    have hswept := hlookup key
    rw [if_neg (hnewly key hkey).1, if_pos hkey, hstored] at hswept
    obtain ⟨merged, hmerged, rfl⟩ := Option.map_eq_some_iff.mp hswept.symm
    rw [hindexed.keyed key _ hstored]
    exact (hreported key).symm.trans (by rw [hmerged]; rfl)
  exact fun key => (hreported key).trans (hdead key).symm

/-- The nodes of an answer give the reporter the status that the sweep left. -/
theorem delta_alive (hc : c₀.Indexed) (hd : d.Indexed) (hagree : Agree c₀ d)
    (hsweep : sweepStaleNodes threshold now_sweep (updateNodes now c₀ incoming) =
      (c, newly_dead, expired)) {key : String} {node stored : Node}
    (hnode : c.nodes.lookup key = some node)
    (hstored : (updateNodes now_apply d (deltaNodes c incoming newly_dead)).nodes.lookup key =
      some stored) : isNodeAlive stored = isNodeAlive node := by
  obtain ⟨hindexed, hnewly, hlookup⟩ := sweep_spec (updateNodes_indexed hc incoming) hsweep
  have hstamped (m : Node) : isNodeAlive (m.stamped now_apply) = isNodeAlive m := by
    unfold isNodeAlive Node.stamped
    cases m.status with
    | none => exact (by decide : (some "running" != some "dead") = (none != some "dead"))
    | some status => rfl
  rcases lookup_updateNodes hd hstored with ⟨m, hm, hkey, rfl⟩ | ⟨hother, hold⟩
  · -- the entry comes from the answer, which holds what the coordinator stores
    rw [hstamped]
    rcases List.mem_append.mp hm with hm | hm
    · obtain ⟨reported, hreported, rfl⟩ := List.mem_map.mp hm
      have hself : nodeKey reported = key := by
        cases hentry : c.nodes.lookup (nodeKey reported) with
        | none => simpa [hentry] using hkey
        | some entry =>
            rw [hentry, Option.getD_some, hindexed.keyed _ _ hentry] at hkey
            exact hkey
      rw [hself, hnode]
      rfl
    · obtain ⟨dead_key, -, hdead⟩ := List.mem_filterMap.mp hm
      rw [hindexed.keyed dead_key m hdead] at hkey
      rw [hkey, hnode] at hdead
      rw [Option.some.inj hdead]
  · -- the entry was there before, and neither merge nor sweep touched the coordinator's
    have hnot_reported : ∀ m ∈ incoming, nodeKey m ≠ key := by
      rintro m hm rfl
      apply hother _ (List.mem_append_left _ (List.mem_map_of_mem hm))
      rw [hnode]
      exact hindexed.keyed _ _ hnode
    have hnot_dead : key ∉ newly_dead := by
      intro hkey
      apply hother node (List.mem_append_right _ (List.mem_filterMap.mpr ⟨key, hkey, hnode⟩))
      exact hindexed.keyed key node hnode
    have hswept := hlookup key
    rw [hnode, if_neg hnot_dead] at hswept
    split_ifs at hswept
    rcases lookup_updateNodes hc hswept.symm with ⟨m, hm, hkey, -⟩ | ⟨-, hbefore⟩
    · exact absurd hkey (hnot_reported m hm)
    · have hview := hagree key
      simp only [view, hbefore, hold, Option.map_some, Option.some.injEq, Prod.mk.injEq] at hview
      exact hview.2.symm

/-- A reporter that agreed before its report agrees after the answer. -/
theorem answer_agrees (hc : c₀.Indexed) (hd : d.Indexed) (hagree : Agree c₀ d)
    (hcoherent : Coherent c₀ incoming)
    (hsweep : sweepStaleNodes threshold now_sweep (updateNodes now c₀ incoming) =
      (c, newly_dead, expired))
    (hremoved : ∀ key, key ∈ removed ↔ key ∈ replacedNodeKeys c₀ incoming ∨ key ∈ expired) :
    Agree c (applySnapshotDelta now_apply d (deltaNodes c incoming newly_dead) removed) := by
  intro key
  obtain ⟨-, -, hlookup⟩ := sweep_spec (updateNodes_indexed hc incoming) hsweep
  have hupdated : (updateNodes now_apply d (deltaNodes c incoming newly_dead)).Indexed :=
    updateNodes_indexed hd _
  have hremove := (remove_splits hupdated removed).2 key
  have hswept := hlookup key
  unfold applySnapshotDelta view
  rw [hremove]
  by_cases hkey : key ∈ removed
  · have hnone : c.nodes.lookup key = none := by
      rcases (hremoved key).mp hkey with hreplaced | hexpired
      · rw [replaced_gone hc hcoherent hreplaced] at hswept
        simpa using hswept
      · rwa [if_pos hexpired] at hswept
    rw [if_pos hkey, hnone]
  · rw [if_neg hkey]
    have hranks : (c.nodes.lookup key).map Node.rank =
        ((updateNodes now_apply d (deltaNodes c incoming newly_dead)).nodes.lookup key).map
          Node.rank := by
      rw [← delta_ranks hc hd hagree.sameRanks hcoherent hsweep key, hswept,
        if_neg fun hexpired => hkey ((hremoved key).mpr (.inr hexpired))]
      split_ifs
      · rw [Option.map_map]
        rfl
      · rfl
    cases hnode : c.nodes.lookup key with
    | none =>
        rw [hnode] at hranks
        rw [Option.map_eq_none_iff.mp hranks.symm]
    | some node =>
        rw [hnode] at hranks
        obtain ⟨stored, hstored, hrank⟩ := Option.map_eq_some_iff.mp hranks.symm
        rw [hstored, Option.map_some, Option.map_some, hrank,
          delta_alive hc hd hagree hsweep hnode hstored]

end Answer

/-- Remove the node of a rank; the removed node is returned. -/
def Cluster.remove (c : Cluster) (rank : Int32) : Cluster × Option Node :=
  match c.rankIndex.lookup rank with
  | some key => (⟨c.nodes.erase key, c.rankIndex.erase rank⟩, c.nodes.lookup key)
  | none => (c, none)

/-- `apply_snapshot_delta`; every node comes with the time at which `update_node` reads the
clock for it. -/
def applyStampedDelta (c : Cluster) (nodes : List (ℕ × Node)) (removed : List String) : Cluster :=
  removed.foldl removeSplit (nodes.foldl (fun c p => updateNode p.1 c p.2) c)

inductive Call where
  | put (node : Node)
  | remove (rank : Int32)
  | removeByAddr (host addr : String)
  | updateNode (now : ℕ) (node : Node)
  | sweepStaleNodes (threshold now : ℕ)
  | applySnapshotDelta (nodes : List (ℕ × Node)) (removed : List String)

/-- The registry after a call. -/
def Call.apply (c : Cluster) : Call → Cluster
  | put node => c.put node
  | remove rank => (c.remove rank).1
  | removeByAddr host addr => c.removeByAddr host addr
  | updateNode now node => Registry.updateNode now c node
  | sweepStaleNodes threshold now => (Registry.sweepStaleNodes threshold now c).1
  | applySnapshotDelta nodes removed => applyStampedDelta c nodes removed

variable {c : Cluster}

/-- With one reading of the clock for all nodes this is the reporter's operation. -/
theorem applySnapshotDelta_eq (now : ℕ) (c : Cluster) (nodes : List Node) (removed : List String) :
    applySnapshotDelta now c nodes removed =
      applyStampedDelta c (nodes.map fun node => (now, node)) removed := by
  simp only [applySnapshotDelta, applyStampedDelta, updateNodes, List.foldl_map]

/-- The node of a rank lies under the key of the index, so removing the rank is removing the
key. -/
theorem Cluster.Indexed.remove_eq (h : c.Indexed) (rank : Int32) :
    (c.remove rank).1 = match c.rankIndex.lookup rank with
      | some key => c.removeKey key
      | none => c := by
  unfold Cluster.remove
  cases hkey : c.rankIndex.lookup rank with
  | none => rfl
  | some key =>
      obtain ⟨node, hnode, hrank⟩ := (h.index rank key).mp hkey
      simp only [Cluster.removeKey, hnode, hrank]

theorem Cluster.Indexed.remove (h : c.Indexed) (rank : Int32) : (c.remove rank).1.Indexed := by
  rw [h.remove_eq]
  cases c.rankIndex.lookup rank with
  | none => exact h
  | some key => exact h.removeKey key

theorem applyStampedDelta_indexed (h : c.Indexed) (nodes : List (ℕ × Node))
    (removed : List String) : (applyStampedDelta c nodes removed).Indexed := by
  have hnodes : (nodes.foldl (fun c p => updateNode p.1 c p.2) c).Indexed := by
    induction nodes generalizing c with
    | nil => exact h
    | cons p nodes ih => exact ih (h.put _)
  exact (remove_splits hnodes removed).1

/-- Every operation keeps the two maps together. -/
theorem Call.indexed (h : c.Indexed) (call : Call) : (call.apply c).Indexed := by
  cases call with
  | put node => exact h.put node
  | remove rank => exact h.remove rank
  | removeByAddr host addr => exact h.removeKey _
  | updateNode now node => exact h.put _
  | sweepStaleNodes threshold now => exact (sweep_spec h rfl).1
  | applySnapshotDelta nodes removed => exact applyStampedDelta_indexed h nodes removed

/-- The maps are together after every run that starts with the empty registry. -/
theorem calls_indexed (h : c.Indexed) (calls : List Call) : (calls.foldl Call.apply c).Indexed := by
  induction calls generalizing c with
  | nil => exact h
  | cons call calls ih => exact ih (call.indexed h)

/-- `get` returns the node that has the rank. -/
theorem Cluster.Indexed.get_eq_some (h : c.Indexed) {rank : Int32} {node : Node} :
    c.get rank = some node ↔ ∃ key, c.nodes.lookup key = some node ∧ node.rank = some rank := by
  unfold Cluster.get
  rw [Option.bind_eq_some_iff]
  constructor
  · rintro ⟨key, hkey, hnode⟩
    obtain ⟨stored, hstored, hrank⟩ := (h.index rank key).mp hkey
    obtain rfl : node = stored := Option.some.inj (hnode.symm.trans hstored)
    exact ⟨key, hnode, hrank⟩
  · rintro ⟨key, hnode, hrank⟩
    exact ⟨key, (h.index rank key).mpr ⟨node, hnode, hrank⟩, hnode⟩

/-- In every reachable registry the index has exactly the ranks of the nodes, no rank has two
nodes, `get` finds the node of a rank and every node lies under its own key. -/
theorem rank_index_exact (calls : List Call) :
    let c := calls.foldl Call.apply Cluster.empty
    (∀ rank key, c.rankIndex.lookup rank = some key ↔
        ∃ node, c.nodes.lookup key = some node ∧ node.rank = some rank) ∧
      (∀ key key' node node' rank, c.nodes.lookup key = some node →
        c.nodes.lookup key' = some node' → node.rank = some rank → node'.rank = some rank →
          key = key') ∧
      (∀ rank node, c.get rank = some node ↔
        ∃ key, c.nodes.lookup key = some node ∧ node.rank = some rank) ∧
      ∀ key node, c.nodes.lookup key = some node → key = node.host ++ ":" ++ node.addr := by
  intro c
  have h : c.Indexed := calls_indexed Cluster.empty_indexed calls
  refine ⟨h.index, ?_, fun rank node => h.get_eq_some, fun key node hnode => ?_⟩
  · intro key key' node node' rank hnode hnode' hrank hrank'
    have hkey := (h.index rank key).mpr ⟨node, hnode, hrank⟩
    have hkey' := (h.index rank key').mpr ⟨node', hnode', hrank'⟩
    exact Option.some.inj (hkey.symm.trans hkey')
  · exact (h.keyed key node hnode).symm

end Probing.Registry
