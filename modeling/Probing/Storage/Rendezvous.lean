import Mathlib.Order.MinMax
import Probing.Core.GreedyPick
import Probing.Storage.Addressing

/-!
# What a placement may give

The topology is a map, and `AddressAllocator` sees it in any order. A placement names a worker for
each of some nodes: the nodes with the best workers, from the best on.
-/

namespace Probing.Storage

/-- The map of nodes to workers, in one of its orders. -/
structure Topology where
  workersPerNode : List (String × List String)
  nodup : (workersPerNode.map Prod.fst).Nodup

section Scores

variable (hash : String → UInt64) (object : String)

def score (worker : String) : ℕ := (hash (worker ++ ":" ++ object)).toNat

/-- The score of the best worker, 0 for no workers. -/
def bestScore (workers : List String) : ℕ := (workers.map (score hash object)).foldr max 0

def firstBest (workers : List String) : Option String :=
  workers.find? fun worker => score hash object worker = bestScore hash object workers

variable {hash object} {workers workers' : List String} {w : String}

@[simp]
theorem bestScore_nil : bestScore hash object [] = 0 := rfl

@[simp]
theorem bestScore_cons : bestScore hash object (w :: workers) =
    max (score hash object w) (bestScore hash object workers) := rfl

theorem score_le_best (h : w ∈ workers) : score hash object w ≤ bestScore hash object workers := by
  induction workers with
  | nil => exact absurd h List.not_mem_nil
  | cons x rest ih =>
      rw [bestScore_cons]
      rcases List.mem_cons.mp h with rfl | h
      · exact le_max_left _ _
      · exact (ih h).trans (le_max_right _ _)

theorem bestScore_le {n : ℕ} (h : ∀ w ∈ workers, score hash object w ≤ n) :
    bestScore hash object workers ≤ n := by
  induction workers with
  | nil => exact Nat.zero_le n
  | cons x rest ih =>
      exact max_le (h x List.mem_cons_self) (ih fun w hw => h w (List.mem_cons_of_mem x hw))

variable (hash object) in
theorem exists_best (h : workers ≠ []) :
    ∃ w ∈ workers, score hash object w = bestScore hash object workers := by
  induction workers with
  | nil => exact absurd rfl h
  | cons x rest ih =>
      rw [bestScore_cons]
      rcases le_total (bestScore hash object rest) (score hash object x) with hle | hle
      · exact ⟨x, List.mem_cons_self, (max_eq_left hle).symm⟩
      · rw [max_eq_right hle]
        cases rest with
        | nil => exact ⟨x, List.mem_cons_self, Nat.le_zero.mp hle⟩
        | cons y rest =>
            obtain ⟨w, hw, heq⟩ := ih (List.cons_ne_nil y rest)
            exact ⟨w, List.mem_cons_of_mem x hw, heq⟩

theorem bestScore_congr (h : ∀ w, w ∈ workers ↔ w ∈ workers') :
    bestScore hash object workers = bestScore hash object workers' :=
  le_antisymm (bestScore_le fun w hw => score_le_best ((h w).mp hw))
    (bestScore_le fun w hw => score_le_best ((h w).mpr hw))

theorem firstBest_spec (h : firstBest hash object workers = some w) :
    w ∈ workers ∧ score hash object w = bestScore hash object workers := by
  have hbest := List.find?_some h
  exact ⟨List.mem_of_find?_eq_some h, of_decide_eq_true hbest⟩

variable (hash object) in
theorem exists_firstBest (h : workers ≠ []) : ∃ w, firstBest hash object workers = some w := by
  obtain ⟨w, hw, heq⟩ := exists_best hash object h
  exact Option.isSome_iff_exists.mp (List.find?_isSome.mpr ⟨w, hw, decide_eq_true heq⟩)

/-- The best worker of a list is looked for behind one that is worse. -/
theorem firstBest_cons_of_lt (h : score hash object w < bestScore hash object workers) :
    firstBest hash object (w :: workers) = firstBest hash object workers := by
  unfold firstBest
  rw [bestScore_cons, max_eq_right h.le, List.find?_cons_of_neg]
  exact fun heq => h.ne (of_decide_eq_true heq)

theorem firstBest_cons_of_le (h : bestScore hash object workers ≤ score hash object w) :
    firstBest hash object (w :: workers) = some w := by
  unfold firstBest
  rw [bestScore_cons, max_eq_left h, List.find?_cons_of_pos]
  exact decide_eq_true rfl

end Scores

namespace AddressAllocator

variable {P : Placement} {A : AddressAllocator} {object : String}

theorem score_eq (worker : String) :
    (calculateAssignmentScore P object worker).toNat = score P.hash object worker := rfl

variable (P object) in
/-- The scan over some workers, from the best one so far. -/
theorem foldl_scan (workers : List String) (best : UInt64 × Option String) :
    let res := workers.foldl (fun best worker =>
      let score := calculateAssignmentScore P object worker
      if best.1 < score then (score, some worker) else best) best
    res.1.toNat = max best.1.toNat (bestScore P.hash object workers) ∧
      res.2 = if best.1.toNat < bestScore P.hash object workers then
        firstBest P.hash object workers else best.2 := by
  induction workers generalizing best with
  | nil => exact ⟨(Nat.max_zero _).symm, (if_neg (Nat.not_lt_zero _)).symm⟩
  | cons w rest ih =>
      rw [List.foldl_cons, bestScore_cons]
      by_cases hlt : best.1 < calculateAssignmentScore P object w
      · have hnat : best.1.toNat < score P.hash object w := UInt64.lt_iff_toNat_lt.mp hlt
        obtain ⟨hscore, hworker⟩ := ih (calculateAssignmentScore P object w, some w)
        rw [score_eq] at hscore hworker
        rw [if_pos hlt, if_pos (hnat.trans_le (le_max_left _ _))]
        refine ⟨hscore.trans (max_eq_right (hnat.le.trans (le_max_left _ _))).symm,
          hworker.trans ?_⟩
        split
        case isTrue h => exact (firstBest_cons_of_lt h).symm
        case isFalse h => exact (firstBest_cons_of_le (Nat.not_lt.mp h)).symm
      · have hle : score P.hash object w ≤ best.1.toNat :=
          Nat.not_lt.mp fun h => hlt (UInt64.lt_iff_toNat_lt.mpr h)
        obtain ⟨hscore, hworker⟩ := ih best
        rw [if_neg hlt]
        refine ⟨hscore.trans ?_, hworker.trans ?_⟩
        · rw [← max_assoc, max_eq_left hle]
        · by_cases hbest : best.1.toNat < bestScore P.hash object rest
          · rw [if_pos hbest, if_pos (hbest.trans_le (le_max_right _ _)),
              firstBest_cons_of_lt (hle.trans_lt hbest)]
          · rw [if_neg hbest, if_neg fun h => (lt_max_iff.mp h).elim hle.not_gt hbest]

theorem best_eq : (A.best P object).2 =
    if 0 < bestScore P.hash object (A.workersPerNode.flatMap Prod.snd) then
      firstBest P.hash object (A.workersPerNode.flatMap Prod.snd) else none := by
  have h := (foldl_scan P object (A.workersPerNode.flatMap Prod.snd) (0, none)).2
  rw [List.foldl_flatMap] at h
  exact h

theorem allocate_primary_eq (hobject : object ≠ "") (hsufficient : A.sufficient = true) :
    A.allocatePrimaryAddress P ⟨none, object⟩ = match (A.best P object).2 with
      | some worker => .ok ⟨some worker, object⟩
      | none => .error .NoAvailableNodes := by
  unfold allocatePrimaryAddress
  cases (A.best P object).2 <;>
    simp only [hobject, if_false, Option.isSome_none, Bool.false_eq_true,
      hsufficient, Bool.not_true]

theorem pick_eq (n : ℕ) (used : List String) (l : List Candidate) : pick object n used l =
    (Core.picks Candidate.node n used l).map fun c => ⟨some c.worker, object⟩ := by
  induction l generalizing n used with
  | nil => cases n <;> rfl
  | cons c rest ih =>
      cases n with
      | zero => rfl
      | succ n =>
          unfold pick Core.picks
          by_cases h : c.node ∈ used
          · rw [if_pos h, if_pos h, ih]
          · rw [if_neg h, if_neg h, List.map_cons, ih]

end AddressAllocator

namespace Topology

variable (T : Topology)

def workers (node : String) : List String := (T.workersPerNode.lookup node).getD []

/-- The nodes with a worker. -/
def nodes : List String := (T.workersPerNode.filter fun p => p.2 ≠ []).map Prod.fst

/-- The allocator sees the nodes of the topology. -/
def Seen (A : AddressAllocator) : Prop := A.workersPerNode.Perm T.workersPerNode

variable {T} {node w : String} {ws : List String}

theorem workers_eq (h : (node, ws) ∈ T.workersPerNode) : T.workers node = ws := by
  unfold workers
  have hnodup := T.nodup
  revert h hnodup
  induction T.workersPerNode with
  | nil => exact fun h => absurd h List.not_mem_nil
  | cons p rest ih =>
      intro h hnodup
      obtain ⟨hfresh, hrest⟩ := List.nodup_cons.mp hnodup
      rcases List.mem_cons.mp h with rfl | h
      · simp
      · have hne : node ≠ p.1 := fun heq => hfresh (heq ▸ List.mem_map_of_mem h)
        rw [List.lookup_cons, beq_eq_false_iff_ne.mpr hne]
        exact ih h hrest

theorem mem_workersPerNode (h : T.workers node ≠ []) :
    (node, T.workers node) ∈ T.workersPerNode := by
  unfold workers at h ⊢
  cases hlookup : T.workersPerNode.lookup node with
  | none => exact absurd (by rw [hlookup]; rfl) h
  | some ws =>
      obtain ⟨before, after, heq, -⟩ := List.lookup_eq_some_iff.mp hlookup
      rw [heq]
      exact List.mem_append_right before List.mem_cons_self

theorem mem_nodes : node ∈ T.nodes ↔ T.workers node ≠ [] := by
  unfold nodes
  rw [List.mem_map]
  constructor
  · rintro ⟨⟨node, ws⟩, hmem, rfl⟩
    obtain ⟨hmem, hne⟩ := List.mem_filter.mp hmem
    rw [workers_eq hmem]
    exact of_decide_eq_true hne
  · exact fun h => ⟨(node, T.workers node),
      List.mem_filter.mpr ⟨mem_workersPerNode h, decide_eq_true h⟩, rfl⟩

theorem nodes_nodup : T.nodes.Nodup := T.nodup.sublist (List.filter_sublist.map Prod.fst)

theorem mem_flatMap : w ∈ T.workersPerNode.flatMap Prod.snd ↔ ∃ node, w ∈ T.workers node := by
  rw [List.mem_flatMap]
  constructor
  · rintro ⟨⟨node, ws⟩, hmem, hw⟩
    exact ⟨node, (workers_eq hmem).symm ▸ hw⟩
  · exact fun ⟨node, hw⟩ => ⟨_, mem_workersPerNode (List.ne_nil_of_mem hw), hw⟩

section Placed

variable (hash : String → UInt64) (object : String)

variable (T) in
/-- The score of the best worker of a node. -/
def value (node : String) : ℕ := bestScore hash object (T.workers node)

variable (T) in
/-- The score of the best worker of all. -/
def top : ℕ := bestScore hash object (T.workersPerNode.flatMap Prod.snd)

variable (T) in
/-- The nodes and workers of a placement: nodes with the best workers, each with one of its best,
and the first node with its first best. -/
structure Placed (r : ℕ) (ps : List (String × String)) : Prop where
  picks : Core.TopPicks (T.value hash object) (r + 1) T.nodes (ps.map Prod.fst)
  best : ∀ p ∈ ps, p.2 ∈ T.workers p.1 ∧ score hash object p.2 = T.value hash object p.1
  primary : ∀ p, ps[0]? = some p → firstBest hash object (T.workers p.1) = some p.2

variable (T) in
/-- Workers of up to `n` nodes that are not `home`: the nodes with the best workers, from the best
on, each with one of its best. Equal scores stand in any order. -/
structure Ranking (home : Option String) (n : ℕ) (ps : List (String × String)) : Prop where
  picks : Core.TopPicks (T.value hash object) n (T.nodes.filter fun node => home ≠ some node)
    (ps.map Prod.fst)
  best : ∀ p ∈ ps, p.2 ∈ T.workers p.1 ∧ score hash object p.2 = T.value hash object p.1

variable (T) in
/-- The node of a worker, if one lists it. -/
def Home (worker : String) : Option String → Prop
  | some node => worker ∈ T.workers node
  | none => ∀ node, worker ∉ T.workers node

variable (T) in
/-- The node and the worker that the scan in the order of `A` ends with. -/
structure Leads (A : AddressAllocator) (node w : String) : Prop where
  split : ∃ before after, A.workersPerNode = before ++ (node, T.workers node) :: after ∧
    ∀ p ∈ before, bestScore hash object p.2 < T.top hash object
  value : T.value hash object node = T.top hash object
  first : firstBest hash object (T.workers node) = some w

variable {hash object} {A : AddressAllocator} {r : ℕ}

theorem value_le_top : T.value hash object node ≤ T.top hash object :=
  bestScore_le fun _ hw => score_le_best (mem_flatMap.2 ⟨node, hw⟩)

theorem Seen.workers_eq (hseen : T.Seen A) {p : String × List String}
    (hp : p ∈ A.workersPerNode) : T.workers p.1 = p.2 :=
  Topology.workers_eq (hseen.mem_iff.mp hp)

theorem Seen.top_eq (hseen : T.Seen A) :
    bestScore hash object (A.workersPerNode.flatMap Prod.snd) = T.top hash object :=
  bestScore_congr fun _ => (hseen.flatMap_right Prod.snd).mem_iff

theorem Seen.exists_leads (hseen : T.Seen A) (hpos : 0 < T.top hash object) :
    ∃ node w, T.Leads hash object A node w := by
  have hworker : T.workersPerNode.flatMap Prod.snd ≠ [] := by
    intro hnil
    rw [top, hnil] at hpos
    exact absurd hpos (Nat.lt_irrefl 0)
  obtain ⟨w, hw, heq⟩ := exists_best hash object hworker
  obtain ⟨node, hnode⟩ := mem_flatMap.1 hw
  have hvalue : T.value hash object node = T.top hash object :=
    le_antisymm value_le_top (heq.symm.le.trans (score_le_best hnode))
  have hmem := hseen.mem_iff.mpr (mem_workersPerNode (List.ne_nil_of_mem hnode))
  have hfind : (A.workersPerNode.find? fun p =>
      bestScore hash object p.2 = T.top hash object).isSome :=
    List.find?_isSome.mpr ⟨_, hmem, decide_eq_true hvalue⟩
  obtain ⟨p, hp⟩ := Option.isSome_iff_exists.mp hfind
  obtain ⟨hbest, before, after, hsplit, hbefore⟩ := List.find?_eq_some_iff_append.mp hp
  have hworkers : T.workers p.1 = p.2 :=
    hseen.workers_eq (hsplit ▸ List.mem_append_right before List.mem_cons_self)
  have hvalue' : T.value hash object p.1 = T.top hash object := by
    rw [value, hworkers]
    exact of_decide_eq_true hbest
  obtain ⟨first, hfirst⟩ := exists_firstBest hash object
    (fun hnil : T.workers p.1 = [] => by
      rw [value, hnil] at hvalue'
      exact hpos.ne hvalue')
  refine ⟨p.1, first, ⟨⟨before, after, hworkers.symm ▸ hsplit, fun q hq => ?_⟩, hvalue', hfirst⟩⟩
  have hle : bestScore hash object q.2 ≤ T.top hash object := by
    rw [← hseen.workers_eq (hsplit ▸ List.mem_append_left _ hq)]
    exact value_le_top
  exact lt_of_le_of_ne hle fun heq => absurd (hbefore q hq) (by simp [heq])

section Rankings

variable {P : Placement} {primary : Address} {home : Option String}
variable {ps : List (String × String)}

theorem Seen.mem_potentialReplicas (hseen : T.Seen A) (c : Candidate) :
    c ∈ A.potentialReplicas P primary ↔ A.primaryNode primary ≠ some c.node ∧
      c.worker ∈ T.workers c.node ∧
        c.score = AddressAllocator.calculateAssignmentScore P primary.object c.worker := by
  unfold AddressAllocator.potentialReplicas
  rw [List.mem_flatMap]
  constructor
  · rintro ⟨p, hp, hc⟩
    obtain ⟨hp, hne⟩ := List.mem_filter.mp hp
    obtain ⟨x, hx, rfl⟩ := List.mem_map.mp hc
    refine ⟨of_decide_eq_true hne, ?_, rfl⟩
    rwa [hseen.workers_eq hp]
  · rintro ⟨hne, hmem, hscore⟩
    have hp := hseen.mem_iff.mpr (mem_workersPerNode (List.ne_nil_of_mem hmem))
    refine ⟨_, List.mem_filter.mpr ⟨hp, decide_eq_true hne⟩,
      List.mem_map.mpr ⟨c.worker, hmem, ?_⟩⟩
    obtain ⟨_, _, _⟩ := c
    exact congrArg (Candidate.mk · _ _) hscore.symm

/-- The picks among the candidates are a ranking of the other nodes. -/
theorem Seen.ranking (hseen : T.Seen A) {l qs : List Candidate}
    (hl : l.Perm (A.potentialReplicas P primary)) (hpicked : Core.Picked Candidate.node
      (fun x y => y.score ≤ x.score) r (A.primaryNode primary).toList l qs)
    (hsorted : qs.Pairwise fun x y => y.score ≤ x.score) :
    T.Ranking P.hash primary.object (A.primaryNode primary) r
      (qs.map fun c => (c.node, c.worker)) := by
  have hmem (c : Candidate) := hl.mem_iff.trans (hseen.mem_potentialReplicas c)
  have hbest : ∀ c ∈ qs, c.worker ∈ T.workers c.node ∧
      c.score.toNat = T.value P.hash primary.object c.node := by
    intro c hc
    obtain ⟨hne, hworker, hscore⟩ := (hmem c).mp (hpicked.sublist.subset hc)
    refine ⟨hworker, le_antisymm ?_ (bestScore_le fun x hx => ?_)⟩
    · rw [hscore]
      exact score_le_best hworker
    · exact UInt64.le_iff_toNat_le.mp (hpicked.first c hc ⟨_, c.node, x⟩
        ((hmem _).mpr ⟨hne, hx, rfl⟩) rfl)
  have hmap : (qs.map fun c => (c.node, c.worker)).map Prod.fst = qs.map Candidate.node := by
    rw [List.map_map]
    rfl
  refine ⟨hmap ▸ ⟨?_, hpicked.kinds, ?_, ?_, ?_⟩, ?_⟩
  · intro x hx
    obtain ⟨c, hc, rfl⟩ := List.mem_map.mp hx
    have hne := ((hmem c).mp (hpicked.sublist.subset hc)).1
    exact List.mem_filter.mpr
      ⟨Topology.mem_nodes.mpr (List.ne_nil_of_mem (hbest c hc).1), decide_eq_true hne⟩
  · rw [List.length_map]
    exact hpicked.length_le
  · rw [List.pairwise_map]
    refine hsorted.imp_of_mem fun {x y} hx hy hle => ?_
    rw [← (hbest x hx).2, ← (hbest y hy).2]
    exact UInt64.le_iff_toNat_le.mp hle
  · intro x hx hnot
    obtain ⟨hx, hne⟩ := List.mem_filter.mp hx
    have hne := of_decide_eq_true hne
    obtain ⟨b, hb, hscore⟩ := exists_best P.hash primary.object (Topology.mem_nodes.mp hx)
    obtain ⟨hlength, hbefore⟩ := hpicked.others
      ⟨AddressAllocator.calculateAssignmentScore P primary.object b, x, b⟩
      ((hmem _).mpr ⟨hne, hb, rfl⟩) (fun hin => hne (Option.mem_toList.mp hin)) hnot
    refine ⟨by rw [List.length_map, hlength], fun p hp => ?_⟩
    obtain ⟨c, hc, rfl⟩ := List.mem_map.mp hp
    rw [← (hbest c hc).2]
    exact hscore.symm.le.trans (UInt64.le_iff_toNat_le.mp (hbefore c hc))
  · intro p hp
    obtain ⟨c, hc, rfl⟩ := List.mem_map.mp hp
    obtain ⟨hworker, hvalue⟩ := hbest c hc
    have hscore := ((hmem c).mp (hpicked.sublist.subset hc)).2.2
    exact ⟨hworker, (congrArg UInt64.toNat hscore).symm.trans hvalue⟩

variable (P primary r) in
/-- The replicas of a primary are a ranking of the nodes other than its own. -/
theorem Seen.allocateReplicaAddresses (hseen : T.Seen A) : ∃ ps,
    T.Ranking P.hash primary.object (A.primaryNode primary) r ps ∧
      A.allocateReplicaAddresses P primary r =
        ps.map fun p => ⟨some p.2, primary.object⟩ := by
  have hsorted := P.sort_sorted (A.potentialReplicas P primary)
  have hpicked := Core.picked_picks Candidate.node r (A.primaryNode primary).toList
    (fun c => UInt64.le_refl c.score) hsorted
  refine ⟨_, hseen.ranking (P.sort_perm _) hpicked (hsorted.sublist hpicked.sublist), ?_⟩
  unfold AddressAllocator.allocateReplicaAddresses
  rw [List.map_map, AddressAllocator.pick_eq]
  split
  case isTrue hzero => simp [hzero, Core.picks]
  case isFalse => rfl

theorem Ranking.take (h : T.Ranking hash object home r ps) {n : ℕ} (hn : n ≤ r) :
    T.Ranking hash object home n (ps.take n) where
  picks := List.map_take ▸ h.picks.take hn
  best := fun p hp => h.best p (List.mem_of_mem_take hp)

theorem Seen.home_primaryNode (hseen : T.Seen A) (worker : String) :
    T.Home worker (A.primaryNode ⟨some worker, object⟩) := by
  unfold AddressAllocator.primaryNode
  rw [Option.bind_some]
  cases hfind : A.workersPerNode.find? fun p => worker ∈ p.2 with
  | none =>
      intro node hworker
      have hmem := hseen.mem_iff.mpr (mem_workersPerNode (List.ne_nil_of_mem hworker))
      exact List.find?_eq_none.mp hfind _ hmem (decide_eq_true hworker)
  | some p =>
      change worker ∈ T.workers p.1
      rw [hseen.workers_eq (List.mem_of_find?_eq_some hfind)]
      have hlisted := List.find?_some hfind
      exact of_decide_eq_true hlisted

end Rankings

namespace Leads

variable {P : Placement}

theorem mem_nodes (h : T.Leads hash object A node w) : node ∈ T.nodes :=
  Topology.mem_nodes.mpr (List.ne_nil_of_mem (firstBest_spec h.first).1)

theorem firstBest_eq (h : T.Leads hash object A node w) (hseen : T.Seen A) :
    firstBest hash object (A.workersPerNode.flatMap Prod.snd) = some w := by
  obtain ⟨before, after, hsplit, hbefore⟩ := h.split
  have hfirst := h.first
  unfold firstBest at hfirst ⊢
  rw [hseen.top_eq]
  rw [show bestScore hash object (T.workers node) = T.top hash object from h.value] at hfirst
  rw [hsplit, List.flatMap_append, List.flatMap_cons, List.find?_append, List.find?_append, hfirst,
    List.find?_eq_none.mpr]
  · rfl
  · intro x hx
    obtain ⟨p, hp, hxp⟩ := List.mem_flatMap.mp hx
    exact fun heq => ((score_le_best hxp).trans_lt (hbefore p hp)).ne (of_decide_eq_true heq)

theorem primaryNode (h : T.Leads hash object A node w) :
    A.primaryNode ⟨some w, object⟩ = some node := by
  obtain ⟨before, after, hsplit, hbefore⟩ := h.split
  obtain ⟨hmem, hscore⟩ := firstBest_spec h.first
  have hfind : A.workersPerNode.find? (fun p => w ∈ p.2) = some (node, T.workers node) := by
    refine List.find?_eq_some_iff_append.mpr ⟨decide_eq_true hmem, before, after, hsplit, ?_⟩
    intro p hp
    have hnot : w ∉ p.2 := fun hw => by
      have hle := (score_le_best hw).trans_lt (hbefore p hp)
      rw [hscore] at hle
      exact hle.ne h.value
    rw [decide_eq_false hnot]
    rfl
  unfold AddressAllocator.primaryNode
  rw [Option.bind_some, hfind]
  rfl

theorem mem_potentialReplicas (h : T.Leads P.hash object A node w) (hseen : T.Seen A)
    (c : Candidate) : c ∈ A.potentialReplicas P ⟨some w, object⟩ ↔ c.node ≠ node ∧
      c.worker ∈ T.workers c.node ∧
        c.score = AddressAllocator.calculateAssignmentScore P object c.worker := by
  rw [hseen.mem_potentialReplicas, h.primaryNode, ne_eq, Option.some_inj, eq_comm]

/-- The best candidates of distinct nodes follow the primary. -/
theorem placed (h : T.Leads P.hash object A node w) (hseen : T.Seen A) {l qs : List Candidate}
    (hl : l.Perm (A.potentialReplicas P ⟨some w, object⟩)) (hpicked : Core.Picked
      Candidate.node (fun x y => y.score ≤ x.score) r [node] l qs)
    (hsorted : qs.Pairwise fun x y => y.score ≤ x.score) :
    T.Placed P.hash object r ((node, w) :: qs.map fun c => (c.node, c.worker)) := by
  have hnode := h.primaryNode
  have hranking := hseen.ranking hl (by rwa [hnode]) hsorted
  rw [hnode] at hranking
  have hother : ∀ x ∈ (qs.map fun c => (c.node, c.worker)).map Prod.fst,
      x ∈ T.nodes ∧ x ≠ node := by
    intro x hx
    obtain ⟨hx, hne⟩ := List.mem_filter.mp (hranking.picks.subset hx)
    exact ⟨hx, fun heq => of_decide_eq_true hne (congrArg some heq.symm)⟩
  refine ⟨?_, ?_, ?_⟩
  · rw [List.map_cons]
    refine ⟨?_, ?_, ?_, ?_, ?_⟩
    · exact List.cons_subset.mpr ⟨h.mem_nodes, fun x hx => (hother x hx).1⟩
    · exact List.nodup_cons.mpr ⟨fun hx => (hother _ hx).2 rfl, hranking.picks.nodup⟩
    · exact Nat.succ_le_succ hranking.picks.length_le
    · exact List.pairwise_cons.mpr ⟨fun x _ => h.value ▸ value_le_top, hranking.picks.sorted⟩
    · intro x hx hnot
      obtain ⟨hne, hnot⟩ := not_or.mp (mt List.mem_cons.mpr hnot)
      have hkept : x ∈ T.nodes.filter fun other => some node ≠ some other :=
        List.mem_filter.mpr ⟨hx, decide_eq_true fun heq => hne (Option.some.inj heq).symm⟩
      obtain ⟨hlength, hbefore⟩ := hranking.picks.others x hkept hnot
      refine ⟨congrArg Nat.succ hlength, fun p hp => ?_⟩
      rcases List.mem_cons.mp hp with rfl | hp
      · exact h.value ▸ value_le_top
      · exact hbefore p hp
  · intro p hp
    rcases List.mem_cons.mp hp with rfl | hp
    · exact firstBest_spec h.first
    · exact hranking.best p hp
  · intro p hp
    obtain rfl : (node, w) = p := Option.some.inj hp
    exact h.first

theorem allocate_primary (h : T.Leads P.hash object A node w) (hseen : T.Seen A)
    (hpos : 0 < T.top P.hash object) (hobject : object ≠ "") (hsufficient : A.sufficient = true) :
    A.allocatePrimaryAddress P ⟨none, object⟩ = .ok ⟨some w, object⟩ := by
  rw [AddressAllocator.allocate_primary_eq hobject hsufficient,
    AddressAllocator.best_eq, hseen.top_eq, if_pos hpos, h.firstBest_eq hseen]

theorem allocate (h : T.Leads P.hash object A node w) (hseen : T.Seen A)
    (hpos : 0 < T.top P.hash object) (hobject : object ≠ "") (hsufficient : A.sufficient = true) :
    A.allocateAddresses P ⟨none, object⟩ = .ok (⟨some w, object⟩ ::
      (Core.picks Candidate.node A.replicaCount [node]
        (P.sort (A.potentialReplicas P ⟨some w, object⟩))).map fun c =>
          ⟨some c.worker, object⟩) := by
  unfold AddressAllocator.allocateAddresses
  rw [h.allocate_primary hseen hpos hobject hsufficient]
  unfold AddressAllocator.allocateReplicaAddresses
  by_cases hzero : A.replicaCount = 0
  · simp [Except.map, hzero, Core.picks]
  · rw [← AddressAllocator.pick_eq]
    simp only [Except.map, if_neg hzero, h.primaryNode, Option.toList_some]

end Leads

end Placed

end Topology

end Probing.Storage
