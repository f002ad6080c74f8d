import Mathlib.Data.List.AList

/-!
# The cluster registry

A registry maps the key `host:addr` of a node to its entry and the rank of a node
to its key. Both maps are kept together: a rank has one node.
-/

namespace Probing.Registry

/-- A registered process, as far as fan-out and replication read it. -/
structure Node where
  host : String
  addr : String
  localRank : Option Int32
  rank : Option Int32
  groupRank : Option Int32
  status : Option String
  timestamp : ℕ
  deriving DecidableEq

def nodeKey (node : Node) : String := node.host ++ ":" ++ node.addr

def isNodeAlive (node : Node) : Bool := node.status != some "dead"

structure Cluster where
  nodes : AList fun _ : String => Node
  rankIndex : AList fun _ : Int32 => String

namespace Cluster

/-- `Cluster::default()`. -/
def empty : Cluster := ⟨∅, ∅⟩

/-- The rank index without the former rank of the node under `key`. -/
def forgetRank (c : Cluster) (key : String) (node : Node) : AList fun _ : Int32 => String :=
  match c.nodes.lookup key with
  | none => c.rankIndex
  | some previous =>
      if previous.rank = node.rank then c.rankIndex
      else match previous.rank with
        | none => c.rankIndex
        | some previous_rank =>
            if c.rankIndex.lookup previous_rank = some key then c.rankIndex.erase previous_rank
            else c.rankIndex

/-- Register a node. A rank that had another endpoint loses it. -/
def put (c : Cluster) (node : Node) : Cluster :=
  let key := nodeKey node
  let rankIndex := c.forgetRank key node
  match node.rank with
  | none => ⟨c.nodes.insert key node, rankIndex⟩
  | some rank =>
      let nodes := match rankIndex.lookup rank with
        | none => c.nodes
        | some previous_key => if previous_key ≠ key then c.nodes.erase previous_key else c.nodes
      ⟨nodes.insert key node, rankIndex.insert rank key⟩

def get (c : Cluster) (rank : Int32) : Option Node :=
  (c.rankIndex.lookup rank).bind c.nodes.lookup

/-- Remove the node under `key`, if there is one. -/
def removeKey (c : Cluster) (key : String) : Cluster :=
  match c.nodes.lookup key with
  | none => c
  | some node => ⟨c.nodes.erase key,
      match node.rank with
      | none => c.rankIndex
      | some rank => c.rankIndex.erase rank⟩

def removeByAddr (c : Cluster) (host addr : String) : Cluster := c.removeKey (host ++ ":" ++ addr)

/-- `nodes.values()`, in the order of the map. -/
def list (c : Cluster) : List Node := c.nodes.entries.map Sigma.snd

/-- The two maps agree: nodes lie under their own key, and the index has exactly
the ranks of the nodes. -/
structure Indexed (c : Cluster) : Prop where
  keyed : ∀ key node, c.nodes.lookup key = some node → nodeKey node = key
  index : ∀ rank key, c.rankIndex.lookup rank = some key ↔
    ∃ node, c.nodes.lookup key = some node ∧ node.rank = some rank

theorem empty_indexed : empty.Indexed := by
  refine ⟨fun key node h => ?_, fun rank key => ?_⟩
  · simp [empty] at h
  · simp [empty]

section Put

variable {c : Cluster} {node : Node} {key : String} {rank : Int32}

/-- Only the former rank of the key is forgotten, and only for another one. -/
theorem lookup_forgetRank (h : c.Indexed) :
    (c.forgetRank (nodeKey node) node).lookup rank =
      if c.rankIndex.lookup rank = some (nodeKey node) ∧ node.rank ≠ some rank then none
      else c.rankIndex.lookup rank := by
  have hindex := h.index rank (nodeKey node)
  unfold forgetRank
  cases hprevious : c.nodes.lookup (nodeKey node) with
  | none =>
      simp only [hprevious, reduceCtorEq, false_and, exists_false, iff_false] at hindex
      rw [if_neg fun hboth => hindex hboth.1]
  | some previous =>
      simp only [hprevious, Option.some.injEq, exists_eq_left'] at hindex
      simp only [hindex]
      by_cases hsame : previous.rank = node.rank
      · rw [if_pos hsame, if_neg (by rw [hsame]; tauto)]
      · rw [if_neg hsame]
        cases hrank : previous.rank with
        | none => simp
        | some previous_rank =>
            have hself : c.rankIndex.lookup previous_rank = some (nodeKey node) :=
              (h.index _ _).mpr ⟨previous, hprevious, hrank⟩
            simp only [Option.some.injEq]
            rw [if_pos hself]
            by_cases hr : previous_rank = rank
            · subst hr
              rw [AList.lookup_erase, if_pos ⟨rfl, fun hn => hsame (hrank.trans hn.symm)⟩]
            · rw [AList.lookup_erase_ne (Ne.symm hr), if_neg fun hboth => hr hboth.1]

/-- Registering a node sets its key and evicts the former endpoint of its rank. -/
theorem lookup_put (h : c.Indexed) :
    (c.put node).nodes.lookup key =
      if key = nodeKey node then some node
      else if ∃ rank, node.rank = some rank ∧ c.rankIndex.lookup rank = some key then none
      else c.nodes.lookup key := by
  unfold put
  cases hrank : node.rank with
  | none =>
      by_cases hkey : key = nodeKey node
      · rw [if_pos hkey, hkey]
        simp
      · rw [if_neg hkey]
        simp [AList.lookup_insert_ne hkey]
  | some rank =>
      have hforget : (c.forgetRank (nodeKey node) node).lookup rank = c.rankIndex.lookup rank := by
        rw [lookup_forgetRank h, hrank, if_neg (by simp)]
      by_cases hkey : key = nodeKey node
      · rw [if_pos hkey, hkey]
        simp
      · simp only [hforget]
        rw [if_neg hkey, AList.lookup_insert_ne hkey]
        simp only [Option.some.injEq, exists_eq_left']
        cases hprevious : c.rankIndex.lookup rank with
        | none => simp
        | some previous_key =>
            simp only [Option.some.injEq]
            by_cases hevict : previous_key = key
            · subst hevict
              rw [if_pos hkey, AList.lookup_erase, if_pos rfl]
            · rw [if_neg hevict]
              split_ifs with hown
              · exact AList.lookup_erase_ne (Ne.symm hevict)
              · rfl

theorem rank_put (h : c.Indexed) :
    (c.put node).rankIndex.lookup rank =
      if node.rank = some rank then some (nodeKey node)
      else if c.rankIndex.lookup rank = some (nodeKey node) then none
      else c.rankIndex.lookup rank := by
  have hforget : (c.forgetRank (nodeKey node) node).lookup rank =
      if c.rankIndex.lookup rank = some (nodeKey node) ∧ node.rank ≠ some rank then none
      else c.rankIndex.lookup rank := lookup_forgetRank h
  unfold put
  cases hrank : node.rank with
  | none =>
      rw [hrank] at hforget
      simpa using hforget
  | some own =>
      rw [hrank] at hforget
      by_cases hr : own = rank
      · subst hr
        simp
      · have hne : ¬ some own = some rank := by simpa using hr
        rw [if_neg hne]
        simp only [AList.lookup_insert_ne (Ne.symm hr)]
        rw [hforget]
        simp [hne]

/-- Registering keeps the maps together. -/
theorem Indexed.put (h : c.Indexed) (node : Node) : (c.put node).Indexed where
  keyed := by
    intro key stored hstored
    rw [lookup_put h] at hstored
    split_ifs at hstored with hkey
    · rw [hkey, Option.some.inj hstored]
    · exact h.keyed key stored hstored
  index := by
    intro rank key
    rw [rank_put h, lookup_put h]
    have hold := h.index rank key
    by_cases hkey : key = nodeKey node
    · subst hkey
      rw [if_pos rfl]
      simp only [Option.some.injEq, exists_eq_left']
      by_cases hrank : node.rank = some rank
      · simp [hrank]
      · rw [if_neg hrank]
        split_ifs with hown
        · simp [hrank]
        · simp [hrank, hown]
    · rw [if_neg hkey]
      by_cases hrank : node.rank = some rank
      · rw [if_pos hrank]
        have hne : ¬ some (nodeKey node) = some key := by simpa using Ne.symm hkey
        simp only [hne, false_iff, hrank, Option.some.injEq, exists_eq_left']
        rintro ⟨stored, hstored, hown⟩
        split_ifs at hstored with hevict
        exact hevict (hold.mpr ⟨stored, hstored, hown⟩)
      · rw [if_neg hrank]
        by_cases hforgot : c.rankIndex.lookup rank = some (nodeKey node)
        · rw [if_pos hforgot]
          simp only [reduceCtorEq, false_iff]
          rintro ⟨stored, hstored, hown⟩
          split_ifs at hstored
          have := hold.mpr ⟨stored, hstored, hown⟩
          rw [hforgot] at this
          exact hkey (Option.some.inj this).symm
        · rw [if_neg hforgot, hold]
          constructor
          · rintro ⟨stored, hstored, hown⟩
            refine ⟨stored, ?_, hown⟩
            rw [if_neg]
            · exact hstored
            · rintro ⟨own, hrank', hevict⟩
              obtain ⟨other, hother, hother_rank⟩ := (h.index own key).mp hevict
              rw [hstored] at hother
              obtain rfl := Option.some.inj hother
              exact hrank (hrank'.trans (hother_rank.symm.trans hown))
          · rintro ⟨stored, hstored, hown⟩
            split_ifs at hstored
            exact ⟨stored, hstored, hown⟩

end Put

section Remove

variable {c : Cluster} {key k : String} {rank : Int32}

theorem lookup_removeKey :
    (c.removeKey key).nodes.lookup k = if k = key then none else c.nodes.lookup k := by
  unfold removeKey
  cases hnode : c.nodes.lookup key with
  | none =>
      split_ifs with hk
      · rw [hk, hnode]
      · rfl
  | some node =>
      split_ifs with hk
      · rw [hk]
        exact AList.lookup_erase key _
      · exact AList.lookup_erase_ne hk

theorem rank_removeKey (h : c.Indexed) :
    (c.removeKey key).rankIndex.lookup rank =
      if c.rankIndex.lookup rank = some key then none else c.rankIndex.lookup rank := by
  have hindex := h.index rank key
  unfold removeKey
  cases hnode : c.nodes.lookup key with
  | none =>
      simp only [hnode, reduceCtorEq, false_and, exists_false, iff_false] at hindex
      rw [if_neg hindex]
  | some node =>
      simp only [hnode, Option.some.injEq, exists_eq_left'] at hindex
      simp only [hindex]
      cases hrank : node.rank with
      | none => simp
      | some own =>
          by_cases hr : own = rank
          · subst hr
            simp
          · have hne : ¬ some own = some rank := by simpa using hr
            rw [if_neg hne]
            exact AList.lookup_erase_ne (Ne.symm hr)

theorem Indexed.removeKey (h : c.Indexed) (key : String) : (c.removeKey key).Indexed where
  keyed := by
    intro k stored hstored
    rw [lookup_removeKey] at hstored
    split_ifs at hstored
    exact h.keyed k stored hstored
  index := by
    intro rank k
    rw [rank_removeKey h, lookup_removeKey]
    have hold := h.index rank k
    by_cases hk : k = key
    · subst hk
      rw [if_pos rfl]
      split_ifs with hown <;> simp [hown]
    · rw [if_neg hk, ← hold]
      split_ifs with hown
      · rw [hown]
        simpa using Ne.symm hk
      · exact Iff.rfl

end Remove

end Cluster

end Probing.Registry
