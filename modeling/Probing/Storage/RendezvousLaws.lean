import Mathlib.Data.List.Sort
import Probing.Storage.Rendezvous

/-!
# The laws of rendezvous placement

The list of addresses does not depend on the order of the map or of equal scores, its workers are
on distinct nodes, and another worker only draws objects to itself. This holds when some score is
positive and the best workers of the best nodes are told apart by their scores.
-/

namespace Probing.Storage

/-- Sorted by the score, with the candidate `c` first among those of its score. -/
def Candidate.Before (c x y : Candidate) : Prop :=
  y.score.toNat < x.score.toNat ∨ y.score.toNat = x.score.toNat ∧ (x = c ∨ y ≠ c)

instance (c : Candidate) : DecidableRel (Candidate.Before c) := fun _ _ =>
  inferInstanceAs (Decidable (_ ∨ _))

theorem Candidate.before_refl (c x : Candidate) : Candidate.Before c x x :=
  .inr ⟨rfl, em (x = c)⟩

theorem Candidate.Before.score_le {c x y : Candidate} (h : Candidate.Before c x y) :
    y.score ≤ x.score :=
  UInt64.le_iff_toNat_le.mpr (h.elim Nat.le_of_lt fun h => h.1.le)

/-- Of two candidates with one score, only the first may be `c`. -/
theorem Candidate.Before.eq {c x : Candidate} (h : Candidate.Before c x c)
    (hscore : x.score.toNat = c.score.toNat) : x = c :=
  h.elim (fun hlt => absurd hscore hlt.ne') fun h => h.2.resolve_right fun hne => hne rfl

instance (c : Candidate) : Std.Total (Candidate.Before c) where
  total x y := by
    unfold Candidate.Before
    by_cases hx : x = c <;> by_cases hy : y = c <;> simp [hx, hy] <;> omega

instance (c : Candidate) : IsTrans Candidate (Candidate.Before c) where
  trans x y z := by
    rintro (hxy | ⟨hxy, hx⟩) (hyz | ⟨hyz, hy⟩)
    · exact .inl (hyz.trans hxy)
    · exact .inl (hyz.trans_lt hxy)
    · exact .inl (hyz.trans_eq hxy)
    · exact .inr ⟨hyz.trans hxy, hx.imp id fun hne => hy.resolve_left hne⟩

/-- An unstable sort that puts `c` in front of its equals. -/
def Placement.preferring (hash : String → UInt64) (c : Candidate) : Placement where
  hash := hash
  sort := List.insertionSort (Candidate.Before c)
  sort_perm := List.perm_insertionSort _
  sort_sorted l := (List.pairwise_insertionSort (Candidate.Before c) l).imp fun h => h.score_le

namespace Topology

variable (T : Topology) (hash : String → UInt64) (object : String) (r : ℕ) (sufficient : Bool)

/-- The allocator of the topology, with the map in some order. -/
structure Views (A : AddressAllocator) : Prop where
  seen : T.Seen A
  replicaCount : A.replicaCount = r
  sufficient : A.sufficient = sufficient

/-- `T'` has the worker `w` more, on one node. -/
def Adds (w : String) (T' : Topology) : Prop :=
  ∃ node before after, T.workers node = before ++ after ∧ T'.workers node = before ++ w :: after ∧
    ∀ other, other ≠ node → T'.workers other = T.workers other

/-- The worker of the address is on the node. -/
def Hosts (node : String) (addr : Address) : Prop := ∃ w ∈ T.workers node, addr.worker = some w

/-- What the placement of an object promises. -/
structure Laws : Prop where
  same : ∀ (A A' : AddressAllocator) (P P' : Placement), T.Views r sufficient A →
    T.Views r sufficient A' → P.hash = hash → P'.hash = hash →
      A.allocateAddresses P ⟨none, object⟩ = A'.allocateAddresses P' ⟨none, object⟩
  distinct : ∀ (A : AddressAllocator) (P : Placement) addrs, T.Views r sufficient A →
    P.hash = hash → A.allocateAddresses P ⟨none, object⟩ = .ok addrs →
      addrs.Pairwise fun x y => ∀ node, T.Hosts node x → ¬ T.Hosts node y
  complete : sufficient = true → T.nodes ≠ [] → ∀ (A : AddressAllocator) (P : Placement),
    T.Views r sufficient A → P.hash = hash → ∃ w addrs,
      A.allocateAddresses P ⟨none, object⟩ = .ok (⟨some w, object⟩ :: addrs) ∧
        (∃ node, w ∈ T.workers node) ∧
        (∀ node, ∀ x ∈ T.workers node, score hash object x ≤ score hash object w) ∧
        addrs.length + 1 = min (r + 1) T.nodes.length
  moves : ∀ w T', T.Adds w T' → ∀ (A A' : AddressAllocator) (P P' : Placement),
    T.Views r sufficient A → T'.Views r sufficient A' → P.hash = hash → P'.hash = hash →
      A'.allocatePrimaryAddress P' ⟨none, object⟩ =
          A.allocatePrimaryAddress P ⟨none, object⟩ ∨
        A'.allocatePrimaryAddress P' ⟨none, object⟩ = .ok ⟨some w, object⟩

/-- The number of nodes with a better best worker. -/
abbrev ahead (node : String) : ℕ := Core.ahead (T.value hash object) T.nodes node

/-- The nodes that get an address are told apart by their best scores, up to the last address,
and each has one best worker, that is on no better node. -/
structure Settled : Prop where
  ties : ∀ node ∈ T.nodes, ∀ other ∈ T.nodes, node ≠ other →
    T.value hash object node = T.value hash object other → T.ahead hash object node ≤ r →
      T.ahead hash object node = r ∧
        firstBest hash object (T.workers node) = firstBest hash object (T.workers other)
  replicas : ∀ node ∈ T.nodes, 0 < T.ahead hash object node → T.ahead hash object node ≤ r →
    ∀ w ∈ T.workers node, score hash object w = T.value hash object node →
      firstBest hash object (T.workers node) = some w
  apart : ∀ node ∈ T.nodes, 0 < T.ahead hash object node → T.ahead hash object node ≤ r →
    ∀ other ∈ T.nodes, T.value hash object node < T.value hash object other →
      ∀ w ∈ T.workers other, firstBest hash object (T.workers node) ≠ some w

variable {T hash object r sufficient} {T' : Topology} {A A' : AddressAllocator} {P P' : Placement}
variable {node other w : String}

theorem top_eq_zero (h : T.nodes = []) : T.top hash object = 0 := by
  refine Nat.le_zero.mp (bestScore_le fun w hw => ?_)
  obtain ⟨node, hnode⟩ := mem_flatMap.mp hw
  exact absurd (h ▸ mem_nodes.mpr (List.ne_nil_of_mem hnode)) List.not_mem_nil

theorem value_eq_top (hahead : T.ahead hash object node = 0) :
    T.value hash object node = T.top hash object := by
  refine le_antisymm value_le_top (bestScore_le fun w hw => ?_)
  obtain ⟨other, hother⟩ := mem_flatMap.mp hw
  have hle : T.value hash object other ≤ T.value hash object node := Nat.not_lt.mp fun hlt =>
    List.countP_eq_zero.mp hahead other (mem_nodes.mpr (List.ne_nil_of_mem hother))
      (decide_eq_true hlt)
  exact (score_le_best hother).trans hle

theorem ahead_eq_zero (h : T.value hash object node = T.top hash object) :
    T.ahead hash object node = 0 :=
  List.countP_eq_zero.mpr fun _ _ hlt =>
    (value_le_top.trans h.symm.le).not_gt (of_decide_eq_true hlt)

/-- The addresses of a placement. -/
def addresses (object : String) (ps : List (String × String)) : List Address :=
  ps.map fun p => ⟨some p.2, object⟩

theorem Views.exists_placed (hview : T.Views r sufficient A) (hsufficient : sufficient = true)
    (hobject : object ≠ "") (hpos : 0 < T.top P.hash object) : ∃ node w qs,
      T.Leads P.hash object A node w ∧
      A.allocateAddresses P ⟨none, object⟩ = .ok (addresses object ((node, w) :: qs)) ∧
      T.Placed P.hash object r ((node, w) :: qs) := by
  obtain ⟨node, w, h⟩ := hview.seen.exists_leads hpos
  have hsorted := P.sort_sorted (A.potentialReplicas P ⟨some w, object⟩)
  have hpicked := Core.picked_picks Candidate.node r [node]
    (fun c => UInt64.le_refl c.score) hsorted
  have hplaced := h.placed hview.seen (P.sort_perm _) hpicked (hsorted.sublist hpicked.sublist)
  refine ⟨node, w, _, h, ?_, hplaced⟩
  rw [h.allocate hview.seen hpos hobject (hview.sufficient.trans hsufficient),
    hview.replicaCount]
  unfold addresses
  rw [List.map_cons, List.map_map]
  rfl

section Sufficient

variable {ps qs : List (String × String)} {p : String × String} {i : ℕ}

theorem Placed.name (hi : ps[i]? = some p) : (ps.map Prod.fst)[i]? = some p.1 := by
  rw [List.getElem?_map, hi]
  rfl

theorem Settled.ahead_eq (h : T.Settled hash object r) (hplaced : T.Placed hash object r ps)
    (hi : ps[i]? = some p) : T.ahead hash object p.1 = i := by
  have hname := Placed.name hi
  have hle := hplaced.picks.ahead_le nodes_nodup hname
  have hlength := hplaced.picks.length_le
  have hbound : i < (ps.map Prod.fst).length := (List.getElem?_eq_some_iff.mp hname).1
  have hmem := hplaced.picks.subset (List.mem_of_getElem? hname)
  refine le_antisymm hle (Nat.not_lt.mp fun hlt => ?_)
  obtain ⟨q, hq, hvalue⟩ := hplaced.picks.exists_at_ahead nodes_nodup hmem (by omega)
  have hne : p.1 ≠ q := by
    rintro rfl
    exact hlt.ne ((List.getElem?_inj (hlt.trans hbound) hplaced.picks.nodup).mp
      (hq.trans hname.symm))
  have := (h.ties p.1 hmem q (hplaced.picks.subset (List.mem_of_getElem? hq)) hne hvalue.symm
    (by omega)).1
  omega

theorem Settled.first_eq (h : T.Settled hash object r) (hplaced : T.Placed hash object r ps)
    (hi : ps[i]? = some p) : firstBest hash object (T.workers p.1) = some p.2 := by
  have hahead := h.ahead_eq hplaced hi
  cases i with
  | zero => exact hplaced.primary p hi
  | succ i =>
      have hlength := hplaced.picks.length_le
      have hname := Placed.name hi
      have hbound : i + 1 < (ps.map Prod.fst).length := (List.getElem?_eq_some_iff.mp hname).1
      obtain ⟨hworker, hscore⟩ := hplaced.best p (List.mem_of_getElem? hi)
      exact h.replicas p.1 (hplaced.picks.subset (List.mem_of_getElem? hname)) (by omega) (by omega)
        p.2 hworker hscore

theorem Placed.length_eq (hplaced : T.Placed hash object r ps) :
    ps.length = min (r + 1) T.nodes.length := by
  rw [← hplaced.picks.length_eq nodes_nodup, List.length_map]

theorem Settled.unique (h : T.Settled hash object r) (hps : T.Placed hash object r ps)
    (hqs : T.Placed hash object r qs) : addresses object ps = addresses object qs := by
  have hlength : ps.length = qs.length := hps.length_eq.trans hqs.length_eq.symm
  unfold addresses
  refine List.ext_getElem (by rw [List.length_map, List.length_map, hlength]) fun i hi hi' => ?_
  rw [List.length_map] at hi hi'
  rw [List.getElem_map, List.getElem_map]
  have hp := List.getElem?_eq_getElem hi
  have hq := List.getElem?_eq_getElem hi'
  generalize ps[i] = p at hp
  generalize qs[i] = q at hq
  have hmem := hps.picks.subset (List.mem_of_getElem? (Placed.name hp))
  have hmem' := hqs.picks.subset (List.mem_of_getElem? (Placed.name hq))
  have hahead := (h.ahead_eq hps hp).trans (h.ahead_eq hqs hq).symm
  have hvalue := Core.value_eq_of_ahead_eq hmem hmem' hahead
  have hr : T.ahead hash object p.1 ≤ r := by
    rw [h.ahead_eq hps hp]
    have := hps.length_eq
    omega
  have hfirst : firstBest hash object (T.workers p.1) = firstBest hash object (T.workers q.1) := by
    by_cases heq : p.1 = q.1
    · rw [heq]
    · exact (h.ties p.1 hmem q.1 hmem' heq hvalue hr).2
  rw [h.first_eq hps hp, h.first_eq hqs hq] at hfirst
  rw [Option.some.inj hfirst]

theorem Settled.distinct (h : T.Settled hash object r) (hps : T.Placed hash object r ps) :
    (addresses object ps).Pairwise fun x y => ∀ node, T.Hosts node x → ¬ T.Hosts node y := by
  unfold addresses
  rw [List.pairwise_map, List.pairwise_iff_getElem]
  intro i j hi hj hij node
  rintro ⟨x, hx, heq⟩ ⟨y, hy, heq'⟩
  obtain rfl := Option.some.inj heq
  obtain rfl := Option.some.inj heq'
  have hp := List.getElem?_eq_getElem hi
  have hq := List.getElem?_eq_getElem hj
  generalize ps[i] = p at hp hx
  generalize ps[j] = q at hq hy
  obtain ⟨-, hscore⟩ := hps.best p (List.mem_of_getElem? hp)
  obtain ⟨-, hscore'⟩ := hps.best q (List.mem_of_getElem? hq)
  have hmem := hps.picks.subset (List.mem_of_getElem? (Placed.name hp))
  have hmem' := hps.picks.subset (List.mem_of_getElem? (Placed.name hq))
  have hahead := h.ahead_eq hps hq
  have hlength := hps.length_eq
  have hnode : node ∈ T.nodes := mem_nodes.mpr (List.ne_nil_of_mem hx)
  -- the node is no better than the one of the later address, which has its score there
  have hle : T.value hash object node ≤ T.value hash object q.1 := Nat.not_lt.mp fun hlt =>
    h.apart q.1 hmem' (by omega) (by omega) node hnode hlt q.2 hy (h.first_eq hps hq)
  have hvalue : T.value hash object p.1 ≤ T.value hash object q.1 := by
    rw [← hscore]
    exact (score_le_best hx).trans hle
  have hge : T.ahead hash object q.1 ≤ T.ahead hash object p.1 := by
    rcases hvalue.lt_or_eq with hlt | heq
    · exact (Core.ahead_lt_ahead hmem' hlt).le
    · unfold ahead Core.ahead
      rw [heq]
  rw [h.ahead_eq hps hp, hahead] at hge
  omega

end Sufficient

section Adds

theorem Adds.mem (hadds : T.Adds w T') {x : String} (hx : x ∈ T'.workers node) :
    x = w ∨ x ∈ T.workers node := by
  obtain ⟨changed, before, after, hold, hnew, hothers⟩ := hadds
  by_cases hnode : node = changed
  · subst hnode
    rw [hnew] at hx
    rw [hold]
    rcases List.mem_append.mp hx with h | h
    · exact .inr (List.mem_append_left after h)
    · exact (List.mem_cons.mp h).imp id (List.mem_append_right before)
  · exact .inr (hothers node hnode ▸ hx)

theorem Adds.subset (hadds : T.Adds w T') {x : String} (hx : x ∈ T.workers node) :
    x ∈ T'.workers node := by
  obtain ⟨changed, before, after, hold, hnew, hothers⟩ := hadds
  by_cases hnode : node = changed
  · subst hnode
    rw [hold] at hx
    rw [hnew]
    exact (List.mem_append.mp hx).elim (List.mem_append_left _)
      fun h => List.mem_append_right _ (List.mem_cons_of_mem w h)
  · exact (hothers node hnode).symm ▸ hx

theorem Adds.top_le (hadds : T.Adds w T') : T.top hash object ≤ T'.top hash object :=
  bestScore_le fun _ hx =>
    have ⟨node, hnode⟩ := mem_flatMap.mp hx
    score_le_best (mem_flatMap.mpr ⟨node, hadds.subset hnode⟩)

/-- The first of the workers with the score `n` is the new one or the old first one. -/
theorem find_insert {before after : List String} {x : String} {n : ℕ} (hne : x ≠ w)
    (h : (before ++ w :: after).find? (fun x => score hash object x = n) = some x) :
    (before ++ after).find? (fun x => score hash object x = n) = some x := by
  rw [List.find?_append] at h ⊢
  cases hbefore : before.find? fun x => score hash object x = n with
  | some y =>
      rw [hbefore] at h
      exact h
  | none =>
      rw [hbefore, Option.none_or, List.find?_cons] at h
      rw [Option.none_or]
      split at h
      case h_1 => exact absurd (Option.some.inj h).symm hne
      case h_2 => exact h

/-- A leading worker that is not the new one led its node before. -/
theorem Leads.of_adds (h : T'.Leads hash object A node other) (hadds : T.Adds w T')
    (hne : other ≠ w) :
    T'.top hash object = T.top hash object ∧ T.value hash object node = T.top hash object ∧
      firstBest hash object (T.workers node) = some other := by
  obtain ⟨hmem, hscore⟩ := firstBest_spec h.first
  have hold : other ∈ T.workers node := (hadds.mem hmem).resolve_left hne
  have hscore' : score hash object other = T'.top hash object := hscore.trans h.value
  have hle : T'.top hash object ≤ T.value hash object node :=
    hscore'.symm.le.trans (score_le_best hold)
  have htop : T'.top hash object = T.top hash object :=
    le_antisymm (hle.trans value_le_top) hadds.top_le
  have hvalue : T.value hash object node = T.top hash object :=
    le_antisymm value_le_top (htop ▸ hle)
  refine ⟨htop, hvalue, ?_⟩
  have hfirst := h.first
  unfold firstBest at hfirst ⊢
  rw [show bestScore hash object (T'.workers node) =
    T.top hash object from h.value.trans htop] at hfirst
  rw [show bestScore hash object (T.workers node) = T.top hash object from hvalue]
  obtain ⟨changed, before, after, hbefore, hafter, hothers⟩ := hadds
  by_cases hnode : node = changed
  · subst hnode
    rw [hafter] at hfirst
    rw [hbefore]
    exact find_insert hne hfirst
  · rwa [hothers node hnode] at hfirst

end Adds

/-- Without enough knowledge, an object or a worker there is no placement. -/
theorem Views.error (hview : T.Views r sufficient A)
    (h : ¬ (sufficient = true ∧ object ≠ "" ∧ 0 < T.top P.hash object)) :
    A.allocatePrimaryAddress P ⟨none, object⟩ = .error (if object = "" then .EmptyObject
      else if sufficient then .NoAvailableNodes else .InsufficientTopology) := by
  by_cases hobject : object = ""
  · unfold AddressAllocator.allocatePrimaryAddress
    rw [if_pos hobject, if_pos hobject]
  · rw [if_neg hobject]
    cases hsufficient : sufficient with
    | false =>
        unfold AddressAllocator.allocatePrimaryAddress
        rw [if_neg hobject, hview.sufficient, hsufficient]
        rfl
    | true =>
        rw [AddressAllocator.allocate_primary_eq hobject (hview.sufficient.trans hsufficient),
          AddressAllocator.best_eq, hview.seen.top_eq,
          if_neg fun hpos => h ⟨hsufficient, hobject, hpos⟩]
        rfl

/-- Where the best nodes have one first worker, it stays first or the new one comes first. -/
theorem Adds.moves (hadds : T.Adds w T')
    (hfirsts : ∀ node ∈ T.nodes, ∀ other ∈ T.nodes,
      T.value hash object node = T.top hash object → T.value hash object other = T.top hash object →
        firstBest hash object (T.workers node) = firstBest hash object (T.workers other))
    (hview : T.Views r sufficient A) (hview' : T'.Views r sufficient A') (hP : P.hash = hash)
    (hP' : P'.hash = hash) : A'.allocatePrimaryAddress P' ⟨none, object⟩ =
      A.allocatePrimaryAddress P ⟨none, object⟩ ∨
    A'.allocatePrimaryAddress P' ⟨none, object⟩ = .ok ⟨some w, object⟩ := by
  by_cases hplaced' : sufficient = true ∧ object ≠ "" ∧ 0 < T'.top hash object
  · obtain ⟨hsufficient, hobject, hpos'⟩ := hplaced'
    obtain ⟨node', w', hleads'⟩ := hview'.seen.exists_leads (hP'.symm ▸ hpos')
    rw [hleads'.allocate_primary hview'.seen (hP'.symm ▸ hpos') hobject
      (hview'.sufficient.trans hsufficient)]
    by_cases hw : w' = w
    · exact .inr (by rw [hw])
    · refine .inl ?_
      obtain ⟨htop, hvalue, hfirst⟩ := hleads'.of_adds hadds hw
      rw [hP'] at htop hvalue hfirst
      have hpos : 0 < T.top hash object := htop ▸ hpos'
      obtain ⟨node, w₀, hleads⟩ := hview.seen.exists_leads (hP.symm ▸ hpos)
      rw [hleads.allocate_primary hview.seen (hP.symm ▸ hpos) hobject
        (hview.sufficient.trans hsufficient)]
      have hnode := hleads.mem_nodes
      have hvalue₀ := hleads.value
      have hfirst₀ := hleads.first
      rw [hP] at hvalue₀ hfirst₀
      have hnode' : node' ∈ T.nodes :=
        mem_nodes.mpr (List.ne_nil_of_mem (firstBest_spec hfirst).1)
      have hsame : firstBest hash object (T.workers node') =
          firstBest hash object (T.workers node) := hfirsts node' hnode' node hnode hvalue hvalue₀
      rw [hfirst, hfirst₀] at hsame
      rw [Option.some.inj hsame]
  · have hplaced : ¬ (sufficient = true ∧ object ≠ "" ∧ 0 < T.top hash object) :=
      fun ⟨hsufficient, hobject, hpos⟩ =>
        hplaced' ⟨hsufficient, hobject, hpos.trans_le hadds.top_le⟩
    rw [hview'.error (hP'.symm ▸ hplaced'), hview.error (hP.symm ▸ hplaced)]
    exact .inl rfl

variable (T hash object r) in
/-- The placement of an object is fixed. -/
structure Placeable : Prop where
  named : object ≠ ""
  positive : 0 < T.top hash object
  settled : T.Settled hash object r

theorem laws_of_placeable (h : sufficient = true → T.nodes ≠ [] → T.Placeable hash object r) :
    T.Laws hash object r sufficient := by
  have hplace (A : AddressAllocator) (P : Placement) (hview : T.Views r sufficient A)
      (hP : P.hash = hash) (hall : sufficient = true ∧ T.nodes ≠ []) := hP ▸ hview.exists_placed
    hall.1 (h hall.1 hall.2).named (hP.symm ▸ (h hall.1 hall.2).positive : 0 < T.top P.hash object)
  have herror (A : AddressAllocator) (P : Placement) (hview : T.Views r sufficient A)
      (hall : ¬ (sufficient = true ∧ T.nodes ≠ [])) := hview.error
    fun ⟨hsufficient, _, (hpos : 0 < T.top P.hash object)⟩ =>
      hall ⟨hsufficient, fun hnil => hpos.ne (top_eq_zero hnil).symm⟩
  constructor
  case same =>
    intro A A' P P' hview hview' hP hP'
    by_cases hall : sufficient = true ∧ T.nodes ≠ []
    · obtain ⟨node, w, ps, -, heq, hps⟩ := hplace A P hview hP hall
      obtain ⟨node', w', ps', -, heq', hps'⟩ := hplace A' P' hview' hP' hall
      rw [heq, heq', (h hall.1 hall.2).settled.unique hps hps']
    · unfold AddressAllocator.allocateAddresses
      rw [herror A P hview hall, herror A' P' hview' hall]
      rfl
  case distinct =>
    intro A P addrs hview hP haddrs
    by_cases hall : sufficient = true ∧ T.nodes ≠ []
    · obtain ⟨node, w, ps, -, heq, hps⟩ := hplace A P hview hP hall
      obtain rfl := Except.ok.inj (heq.symm.trans haddrs)
      exact (h hall.1 hall.2).settled.distinct hps
    · unfold AddressAllocator.allocateAddresses at haddrs
      rw [herror A P hview hall] at haddrs
      exact (nomatch haddrs)
  case complete =>
    intro hsufficient hnodes A P hview hP
    obtain ⟨node, w, ps, hleads, heq, hps⟩ := hplace A P hview hP ⟨hsufficient, hnodes⟩
    obtain ⟨hmem, hscore⟩ := firstBest_spec hleads.first
    refine ⟨w, addresses object ps, heq, ⟨node, hmem⟩, fun node' x hx => ?_, ?_⟩
    · rw [hscore, show bestScore hash object (T.workers node) = T.top hash object from hleads.value]
      exact (score_le_best hx).trans value_le_top
    · unfold addresses
      rw [List.length_map, ← hps.length_eq, List.length_cons]
  case moves =>
    intro w T' hadds A A' P P' hview hview' hP hP'
    by_cases hsufficient : sufficient = true
    · refine hadds.moves (fun node hnode other hother hvalue hvalue' => ?_) hview hview' hP hP'
      have hsettled := (h hsufficient (List.ne_nil_of_mem hnode)).settled
      by_cases heq : node = other
      · rw [heq]
      · exact (hsettled.ties node hnode other hother heq (hvalue.trans hvalue'.symm)
          ((ahead_eq_zero hvalue).trans_le (Nat.zero_le r))).2
    · rw [hview'.error fun hall => hsufficient hall.1, hview.error fun hall => hsufficient hall.1]
      exact .inl rfl

section Necessary

/-- The map in an order with one node in front. -/
def starting (T : Topology) (r : ℕ) (node : String) : AddressAllocator where
  workersPerNode := (node, T.workers node) :: T.workersPerNode.erase (node, T.workers node)
  replicaCount := r
  sufficient := true

theorem starting_views (h : node ∈ T.nodes) : T.Views r true (starting T r node) where
  seen := (List.perm_cons_erase (mem_workersPerNode (mem_nodes.mp h))).symm
  replicaCount := rfl
  sufficient := rfl

/-- A best node in front leads. -/
theorem starting_leads (hvalue : T.value hash object node = T.top hash object)
    (h : T.Leads hash object (starting T r node) other w) : other = node := by
  obtain ⟨before, after, hsplit, hbefore⟩ := h.split
  cases before with
  | nil => exact (congrArg Prod.fst (List.cons.inj hsplit).1).symm
  | cons p before =>
      have hp : (node, T.workers node) = p := (List.cons.inj hsplit).1
      have hlt := hbefore p List.mem_cons_self
      rw [← hp] at hlt
      exact absurd hvalue hlt.ne

/-- Each node among the best `r + 1` comes to the place of its rank under some order, with its
first best worker or, as a replica, any best one. -/
theorem exists_reach (hobject : object ≠ "") (hpos : 0 < T.top hash object)
    (hnode : node ∈ T.nodes) (hr : T.ahead hash object node ≤ r)
    (hfirst : T.ahead hash object node = 0 → firstBest hash object (T.workers node) = some w)
    (hw : w ∈ T.workers node) (hbest : score hash object w = T.value hash object node) :
    ∃ A P ps, T.Views r true A ∧ P.hash = hash ∧
      A.allocateAddresses P ⟨none, object⟩ = .ok (addresses object ps) ∧
      T.Placed hash object r ps ∧ ps[T.ahead hash object node]? = some (node, w) := by
  let c : Candidate := ⟨hash (w ++ ":" ++ object), node, w⟩
  let P := Placement.preferring hash c
  let A := starting T r node
  have hview : T.Views r true A := starting_views hnode
  have htop : 0 < T.top P.hash object := hpos
  obtain ⟨leader, v, h⟩ := hview.seen.exists_leads htop
  have hperm : (P.sort (A.potentialReplicas P ⟨some v, object⟩)).Perm _ := P.sort_perm _
  have hsorted : (P.sort (A.potentialReplicas P ⟨some v, object⟩)).Pairwise (Candidate.Before c) :=
    List.pairwise_insertionSort _ _
  have hpicked := Core.picked_picks Candidate.node r [leader]
    (Candidate.before_refl c) hsorted
  have hqs := hsorted.sublist hpicked.sublist
  have hallocate := h.allocate hview.seen hpos hobject rfl
  have hmem (x : Candidate) := hperm.mem_iff.trans (h.mem_potentialReplicas hview.seen x)
  change A.allocateAddresses P ⟨none, object⟩ = .ok (⟨some v, object⟩ ::
    (Core.picks Candidate.node r [leader] _).map _) at hallocate
  generalize Core.picks Candidate.node r [leader] _ = qs at hpicked hqs hallocate
  have hplaced := h.placed hview.seen hperm (hpicked.mono fun _ _ hxy => hxy.score_le)
    (hqs.imp fun hxy => hxy.score_le)
  refine ⟨A, P, _, hview, rfl, hallocate.trans ?_, hplaced, ?_⟩
  · unfold addresses
    rw [List.map_cons, List.map_map]
    rfl
  cases hk : T.ahead hash object node with
  | zero =>
      obtain rfl := starting_leads (value_eq_top hk) h
      have hv := h.first.symm.trans (hfirst hk)
      rw [Option.some.inj hv]
      rfl
  | succ k =>
      have hne : node ≠ leader := by
        rintro rfl
        exact absurd (ahead_eq_zero h.value) (hk.trans_ne (Nat.succ_ne_zero k))
      have hc : c ∈ P.sort (A.potentialReplicas P ⟨some v, object⟩) := (hmem c).mpr ⟨hne, hw, rfl⟩
      have hscore : ∀ x ∈ qs, x.score.toNat = T.value hash object x.node := by
        intro x hx
        have hx' := ((hmem x).mp (hpicked.sublist.subset hx)).2.2
        rw [hx']
        exact (hplaced.best (x.node, x.worker)
          (List.mem_cons_of_mem _ (List.mem_map_of_mem hx))).2
      have hname {j : ℕ} {x : Candidate} (hj : qs[j]? = some x) :
          (((leader, v) :: qs.map fun c => (c.node, c.worker)).map Prod.fst)[j + 1]? =
            some x.node := by
        rw [List.map_cons, List.getElem?_cons_succ, List.map_map, List.getElem?_map, hj]
        rfl
      obtain ⟨name, hat, hvalue⟩ := hplaced.picks.exists_at_ahead nodes_nodup hnode
        (Nat.lt_succ_of_le hr)
      rw [show Core.ahead (T.value P.hash object) T.nodes node = k + 1 from hk, List.map_cons,
        List.getElem?_cons_succ, List.map_map, List.getElem?_map] at hat
      obtain ⟨x, hx, rfl⟩ := Option.map_eq_some_iff.mp hat
      have hxq := List.mem_of_getElem? hx
      have hxc : x.score.toNat = c.score.toNat := ((hscore x hxq).trans hvalue).trans hbest.symm
      -- the preferred candidate stands at this place
      suffices heq : x = c by
        rw [List.getElem?_cons_succ, List.getElem?_map, hx, heq]
        rfl
      by_cases hin : node ∈ qs.map Candidate.node
      · obtain ⟨q, hq, hqnode⟩ := List.mem_map.mp hin
        have hqc : q = c := (hpicked.first q hq c hc hqnode.symm).eq
          ((hscore q hq).trans (hqnode ▸ hbest.symm))
        obtain ⟨j, hj⟩ := List.getElem?_of_mem (hqc ▸ hq)
        rcases Nat.lt_trichotomy j k with hjk | rfl | hkj
        · have hle := hplaced.picks.ahead_le nodes_nodup (hname hj)
          have : T.ahead hash object node ≤ j + 1 := hle
          omega
        · exact Option.some.inj (hx.symm.trans hj)
        · obtain ⟨hk', rfl⟩ := List.getElem?_eq_some_iff.mp hx
          obtain ⟨hj', hjc⟩ := List.getElem?_eq_some_iff.mp hj
          have hbefore := List.pairwise_iff_getElem.mp hqs k j hk' hj' hkj
          rw [hjc] at hbefore
          exact hbefore.eq hxc
      · have hother := hpicked.others c hc (fun hmem => hne (List.mem_singleton.mp hmem)) hin
        exact (hother.2 x hxq).eq hxc

variable {ps qs : List (String × String)} {p q : String × String} {i j : ℕ}

theorem Laws.addresses_eq (h : T.Laws hash object r true) (hview : T.Views r true A)
    (hview' : T.Views r true A') (hP : P.hash = hash) (hP' : P'.hash = hash)
    (hps : A.allocateAddresses P ⟨none, object⟩ = .ok (addresses object ps))
    (hqs : A'.allocateAddresses P' ⟨none, object⟩ = .ok (addresses object qs))
    (hi : ps[i]? = some p) (hj : qs[i]? = some q) : p.2 = q.2 := by
  have heq : addresses object ps = addresses object qs :=
    Except.ok.inj (hps.symm.trans ((h.same A A' P P' hview hview' hP hP').trans hqs))
  have hget := congrArg (·[i]?) heq
  simp only [addresses, List.getElem?_map, hi, hj, Option.map_some, Option.some.injEq,
    Address.mk.injEq, and_true] at hget
  exact hget

theorem Laws.apart (h : T.Laws hash object r true) (hview : T.Views r true A) (hP : P.hash = hash)
    (hps : A.allocateAddresses P ⟨none, object⟩ = .ok (addresses object ps)) (hij : i < j)
    (hi : ps[i]? = some p) (hj : ps[j]? = some q) (hp : p.2 ∈ T.workers node) :
    q.2 ∉ T.workers node := by
  obtain ⟨hilt, rfl⟩ := List.getElem?_eq_some_iff.mp hi
  obtain ⟨hjlt, rfl⟩ := List.getElem?_eq_some_iff.mp hj
  have hpair := List.pairwise_iff_getElem.mp (List.pairwise_map.mp
    (h.distinct A P _ hview hP hps)) i j hilt hjlt hij node
  exact fun hq => hpair ⟨_, hp, rfl⟩ ⟨_, hq, rfl⟩

/-- A node reaches its place with its first best worker. -/
theorem exists_reach_first (hobject : object ≠ "") (hpos : 0 < T.top hash object)
    (hnode : node ∈ T.nodes) (hr : T.ahead hash object node ≤ r)
    (hfirst : firstBest hash object (T.workers node) = some w) :
    ∃ A P ps, T.Views r true A ∧ P.hash = hash ∧
      A.allocateAddresses P ⟨none, object⟩ = .ok (addresses object ps) ∧
      T.Placed hash object r ps ∧ ps[T.ahead hash object node]? = some (node, w) :=
  exists_reach hobject hpos hnode hr (fun _ => hfirst) (firstBest_spec hfirst).1
    (firstBest_spec hfirst).2

theorem ahead_congr (h : T.value hash object node = T.value hash object other) :
    T.ahead hash object node = T.ahead hash object other := by
  unfold ahead Core.ahead
  rw [h]

/-- Nodes with one best score both reach the place of that score. -/
theorem Laws.first_eq (h : T.Laws hash object r true) (hobject : object ≠ "")
    (hpos : 0 < T.top hash object) (hnode : node ∈ T.nodes) (hother : other ∈ T.nodes)
    (hvalue : T.value hash object node = T.value hash object other)
    (hr : T.ahead hash object node ≤ r) :
    firstBest hash object (T.workers node) = firstBest hash object (T.workers other) := by
  obtain ⟨w, hw⟩ := exists_firstBest hash object (mem_nodes.mp hnode)
  obtain ⟨x, hx⟩ := exists_firstBest hash object (mem_nodes.mp hother)
  have hahead := ahead_congr hvalue
  obtain ⟨A, P, ps, hview, hP, hps, -, hi⟩ := exists_reach_first hobject hpos hnode hr hw
  obtain ⟨A', P', qs, hview', hP', hqs, -, hj⟩ :=
    exists_reach_first hobject hpos hother (hahead ▸ hr) hx
  rw [← hahead] at hj
  rw [hw, hx]
  exact congrArg some (h.addresses_eq hview hview' hP hP' hps hqs hi hj)

/-- The best workers of nodes with one score share a node, so that no further address follows. -/
theorem Laws.ties (h : T.Laws hash object r true) (hobject : object ≠ "")
    (hpos : 0 < T.top hash object) (hnode : node ∈ T.nodes) (hother : other ∈ T.nodes)
    (hne : node ≠ other) (hvalue : T.value hash object node = T.value hash object other)
    (hr : T.ahead hash object node ≤ r) : T.ahead hash object node = r := by
  refine hr.eq_of_not_lt fun hlt => ?_
  obtain ⟨w, hw⟩ := exists_firstBest hash object (mem_nodes.mp hnode)
  obtain ⟨A, P, ps, hview, hP, hps, hplaced, hi⟩ := exists_reach_first hobject hpos hnode hr hw
  -- some later address is on a node with the same best score
  suffices hlater : ∃ j q, T.ahead hash object node < j ∧ ps[j]? = some q ∧
      T.value hash object q.1 = T.value hash object node by
    obtain ⟨j, q, hj, hq, hsame⟩ := hlater
    have hmem := hplaced.picks.subset (List.mem_of_getElem? (Placed.name hq))
    have hfirst := h.first_eq hobject hpos hnode hmem hsame.symm hr
    have hwq : w ∈ T.workers q.1 := (firstBest_spec (hfirst.symm.trans hw)).1
    exact h.apart hview hP hps hj hi hq hwq (hplaced.best q (List.mem_of_getElem? hq)).1
  by_cases hin : other ∈ ps.map Prod.fst
  · obtain ⟨q, hq, rfl⟩ := List.mem_map.mp hin
    obtain ⟨j, hj⟩ := List.getElem?_of_mem hq
    have hle := hplaced.picks.ahead_le nodes_nodup (Placed.name hj)
    have hle' : T.ahead hash object node ≤ j := (ahead_congr hvalue).trans_le hle
    refine ⟨j, q, lt_of_le_of_ne hle' fun heq => hne ?_, hj, hvalue.symm⟩
    rw [heq, hj] at hi
    exact (congrArg Prod.fst (Option.some.inj hi)).symm
  · obtain ⟨hlength, hall⟩ := hplaced.picks.others other hother hin
    rw [List.length_map] at hlength
    have hbound : T.ahead hash object node + 1 < ps.length := by omega
    have hq := List.getElem?_eq_getElem hbound
    generalize ps[T.ahead hash object node + 1] = q at hq
    have hname := Placed.name hq
    refine ⟨_, q, Nat.lt_succ_self _, hq, le_antisymm ?_ ?_⟩
    · obtain ⟨hilt, hieq⟩ := List.getElem?_eq_some_iff.mp (Placed.name hi)
      obtain ⟨hjlt, hjeq⟩ := List.getElem?_eq_some_iff.mp hname
      have hle := List.pairwise_iff_getElem.mp hplaced.picks.sorted _ _ hilt hjlt
        (Nat.lt_succ_self _)
      rwa [hieq, hjeq] at hle
    · exact hvalue.trans_le (hall q.1 (List.mem_of_getElem? hname))

theorem Laws.settled (h : T.Laws hash object r true) (hobject : object ≠ "")
    (hpos : 0 < T.top hash object) : T.Settled hash object r where
  ties node hnode other hother hne hvalue hr :=
    ⟨h.ties hobject hpos hnode hother hne hvalue hr,
      h.first_eq hobject hpos hnode hother hvalue hr⟩
  replicas node hnode hahead hr w hw hscore := by
    obtain ⟨x, hx⟩ := exists_firstBest hash object (mem_nodes.mp hnode)
    obtain ⟨A, P, ps, hview, hP, hps, -, hi⟩ := exists_reach_first hobject hpos hnode hr hx
    obtain ⟨A', P', qs, hview', hP', hqs, -, hj⟩ := exists_reach hobject hpos hnode hr
      (fun hzero => absurd hzero hahead.ne') hw hscore
    exact hx.trans (congrArg some (h.addresses_eq hview hview' hP hP' hps hqs hi hj))
  apart node hnode hahead hr other hother hlt w hw hfirst := by
    obtain ⟨A, P, ps, hview, hP, hps, hplaced, hi⟩ :=
      exists_reach_first hobject hpos hnode hr hfirst
    obtain ⟨j, hj, hjeq⟩ := List.mem_take_iff_getElem.mp
      (hplaced.picks.mem_take (Placed.name hi) hother hlt)
    obtain ⟨hji, hjlt⟩ := lt_min_iff.mp hj
    rw [List.getElem_map] at hjeq
    rw [List.length_map] at hjlt
    have hq := List.getElem?_eq_getElem hjlt
    generalize ps[j] = q at hq hjeq
    refine h.apart hview hP hps hji hq hi ?_ (hjeq ▸ hw)
    exact hjeq ▸ (hplaced.best q (List.mem_of_getElem? hq)).1

end Necessary

theorem Laws.placeable (h : T.Laws hash object r true) (hnodes : T.nodes ≠ []) :
    T.Placeable hash object r := by
  obtain ⟨node, hnode⟩ := List.exists_mem_of_ne_nil T.nodes hnodes
  have hview := starting_views (r := r) hnode
  let P := Placement.preferring hash ⟨0, node, node⟩
  obtain ⟨w, addrs, hok, -⟩ := h.complete rfl hnodes (starting T r node) P hview rfl
  have hall : object ≠ "" ∧ 0 < T.top hash object := by
    by_contra hnot
    have herror := hview.error
      fun hall : _ ∧ object ≠ "" ∧ 0 < T.top P.hash object => hnot hall.2
    unfold AddressAllocator.allocateAddresses at hok
    rw [herror] at hok
    exact (nomatch hok)
  exact ⟨hall.1, hall.2, h.settled hall.1 hall.2⟩

/-- The laws of placement hold exactly if the placement, where there has to be one, is fixed. -/
theorem laws_iff (T : Topology) (hash : String → UInt64) (object : String) (r : ℕ)
    (sufficient : Bool) : T.Laws hash object r sufficient ↔
      (sufficient = true → T.nodes ≠ [] → T.Placeable hash object r) := by
  constructor
  · rintro h rfl hnodes
    exact h.placeable hnodes
  · exact laws_of_placeable

/-- One worker on two nodes is its own replica, whatever its score; two workers with one score
take turns as the primary; and a worker with the score 0 is not found. -/
theorem laws_broken :
    (∀ hash, ¬ Laws ⟨[("a", ["w"]), ("b", ["w"])], by decide⟩ hash "o" 1 true) ∧
      ¬ Laws ⟨[("a", ["v"]), ("b", ["w"])], by decide⟩ (fun _ => 1) "o" 0 true ∧
      ¬ Laws ⟨[("a", ["w"])], by decide⟩ (fun _ => 0) "o" 0 true := by
  refine ⟨fun hash h => ?_, fun h => ?_, fun h => ?_⟩
  · have hahead : Topology.ahead ⟨[("a", ["w"]), ("b", ["w"])], by decide⟩ hash "o" "a" = 0 :=
      List.countP_eq_zero.mpr fun node hnode hlt => by
        rcases List.mem_pair.mp hnode with rfl | rfl <;>
          exact absurd (of_decide_eq_true hlt) (Nat.lt_irrefl _)
    have hties := (h.placeable (by decide)).settled.ties "a" (by decide) "b" (by decide) (by decide)
      rfl (hahead.trans_le (Nat.zero_le 1))
    exact absurd (hahead.symm.trans hties.1) (by decide)
  · exact absurd ((h.placeable (by decide)).settled.ties "a" (by decide) "b" (by decide) (by decide)
      rfl (by decide)).2 (by decide)
  · exact absurd (h.placeable (by decide)).positive (by decide)

end Topology

end Probing.Storage
