import Probing.Federation.RouteRefinement

/-!
# Whether a fan-out says what it lacks

A query was to cover the peers of its routes. If it lacks one of them it is flagged
exactly if a failure on the way is kept; a peer whose routes are all unkept can be
silenced without a trace.
-/

namespace Probing.Federation

open Probing.Registry

/-- A route leads to the peer of its last request, and each request on the way is the
last one of a route that is kept if the longer one is and does not refuse unless the
longer one does. -/
structure Traced (routes : List Route) : Prop where
  ends : ∀ r ∈ routes, ∃ hop ∈ r.hops, hop.peer = r.peer
  stops : ∀ r ∈ routes, ∀ hop ∈ r.hops, ∃ s ∈ routes, s.peer = hop.peer ∧
    (r.kept = true → s.kept = true) ∧ (s.refused = true → r.refused = true)

def TracedAll (routes : Option (List Route)) : Prop := ∀ rs, routes = some rs → Traced rs

section Traces

variable {hop : Hop} {keeps : Bool} {routes routes' : List Route} {all : Option (List Route)}

theorem traced_nil : Traced [] := ⟨nofun, nofun⟩

theorem Traced.append (h : Traced routes) (h' : Traced routes') : Traced (routes ++ routes') where
  ends := by
    intro r hr
    rcases List.mem_append.mp hr with hr | hr
    · exact h.ends r hr
    · exact h'.ends r hr
  stops := by
    intro r hr hop hhop
    rcases List.mem_append.mp hr with hr | hr
    · obtain ⟨s, hs, hrest⟩ := h.stops r hr hop hhop
      exact ⟨s, List.mem_append_left _ hs, hrest⟩
    · obtain ⟨s, hs, hrest⟩ := h'.stops r hr hop hhop
      exact ⟨s, List.mem_append_right _ hs, hrest⟩

theorem traced_flatMap {α : Type*} (f : α → List Route) {xs : List α} (h : ∀ x ∈ xs, Traced (f x)) :
    Traced (xs.flatMap f) := by
  induction xs with
  | nil => exact traced_nil
  | cons x xs ih =>
      rw [List.flatMap_cons]
      exact (h x List.mem_cons_self).append (ih fun y hy => h y (List.mem_cons_of_mem x hy))

theorem Traced.unkept (h : Traced routes) : Traced (routes.map Route.unkept) where
  ends := by
    intro r hr
    obtain ⟨s, hs, rfl⟩ := List.mem_map.mp hr
    exact h.ends s hs
  stops := by
    intro r hr hop hhop
    obtain ⟨s, hs, rfl⟩ := List.mem_map.mp hr
    obtain ⟨t, ht, hpeer, -, hrefused⟩ := h.stops s hs hop hhop
    exact ⟨t.unkept, List.mem_map_of_mem ht, hpeer, nofun, hrefused⟩

theorem traced_request (h : TracedAll all) : Traced (request hop keeps all) := by
  cases all with
  | none =>
      refine ⟨?_, ?_⟩
      · intro r hr
        obtain rfl := List.mem_singleton.mp hr
        exact ⟨hop, List.mem_singleton_self hop, rfl⟩
      · intro r hr hop' hhop
        obtain rfl := List.mem_singleton.mp hr
        obtain rfl := List.mem_singleton.mp hhop
        exact ⟨_, hr, rfl, id, id⟩
  | some routes =>
      have htraced := h routes rfl
      have hfirst : (⟨[hop], hop.peer, true, false⟩ : Route) ∈ request hop keeps (some routes) :=
        List.mem_cons_self
      refine ⟨?_, ?_⟩
      · intro r hr
        rcases List.mem_cons.mp hr with rfl | hr
        · exact ⟨hop, List.mem_singleton_self hop, rfl⟩
        · obtain ⟨s, hs, rfl⟩ := List.mem_map.mp hr
          obtain ⟨last, hlast, hpeer⟩ := htraced.ends s hs
          exact ⟨last, List.mem_cons_of_mem hop hlast, hpeer⟩
      · intro r hr hop' hhop
        rcases List.mem_cons.mp hr with rfl | hr
        · obtain rfl := List.mem_singleton.mp hhop
          exact ⟨_, hfirst, rfl, id, id⟩
        · obtain ⟨s, hs, rfl⟩ := List.mem_map.mp hr
          rcases List.mem_cons.mp hhop with rfl | hhop
          · exact ⟨_, hfirst, rfl, fun _ => rfl, nofun⟩
          · obtain ⟨t, ht, hpeer, hkept, hrefused⟩ := htraced.stops s hs hop' hhop
            refine ⟨t.via hop keeps, List.mem_cons_of_mem _ (List.mem_map_of_mem ht),
              hpeer, ?_, hrefused⟩
            intro hboth
            obtain ⟨hkeeps, hs⟩ := Bool.and_eq_true_iff.mp hboth
            exact Bool.and_eq_true_iff.mpr ⟨hkeeps, hkept hs⟩

theorem TracedAll.map {f : List Route → List Route} (h : TracedAll all)
    (hf : ∀ routes, Traced routes → Traced (f routes)) : TracedAll (all.map f) := by
  rintro rs hrs
  obtain ⟨routes, hroutes, rfl⟩ := Option.map_eq_some_iff.mp hrs
  exact hf routes (h routes hroutes)

end Traces

namespace Deployment

section Traces

variable {D : Deployment} {plan : RoutePlan}

theorem traced_leaves (h : ∀ scope node, TracedAll (plan scope node)) (peers : List Node) :
    Traced (leafRoutes plan peers) :=
  traced_flatMap _ fun _ _ => traced_request (h _ _)

theorem traced_tier (h : ∀ scope node, TracedAll (plan scope node)) (node : Node) :
    TracedAll (D.tierRoutes plan node) := by
  unfold tierRoutes
  split_ifs
  · exact (h _ _).map fun own hown => hown.unkept.append (traced_leaves h _)
  · exact (h _ _).map fun own hown => hown.unkept

theorem traced_serve (h : ∀ scope node, TracedAll (plan scope node)) (node : Node) :
    TracedAll (D.serveRoutes plan node) := by
  rintro rs hrs
  obtain ⟨-, -, htier⟩ := Option.bind_eq_some_iff.mp hrs
  exact traced_tier h node rs htier

theorem traced_aggregators (h : ∀ scope node, TracedAll (plan scope node)) (peers : List Node) :
    Traced (D.aggregatorRoutes plan peers) :=
  traced_flatMap _ fun _ _ => traced_request (traced_serve h _)

theorem traced_probe (scope : FanoutScope) (node : Node) : TracedAll (probeRoutes scope node) := by
  rintro rs hrs
  obtain rfl := Option.some.inj hrs
  exact traced_nil

theorem traced_target (target : FederatedScanTarget) : TracedAll (D.targetRoutes target) := by
  unfold targetRoutes
  split
  · exact traced_serve traced_probe _
  · exact traced_probe .Auto target.node

theorem traced_plan (D : Deployment) (pushdown : Option Bool) (catalog : Catalog)
    (scope : FanoutScope) (node : Node) : TracedAll (D.plan pushdown catalog scope node) := by
  cases catalog with
  | probe => exact traced_probe scope node
  | global =>
      rintro rs hrs
      obtain ⟨targets, -, rfl⟩ := Option.map_eq_some_iff.mp hrs
      exact traced_flatMap _ fun _ _ => traced_request (traced_target _)

theorem traced_broadcast (h : ∀ scope node, TracedAll (plan scope node)) (node : Node)
    (scope : FanoutScope) : TracedAll (D.broadcastRoutes plan node scope) := by
  unfold broadcastRoutes coordinatorRoutes rankRoutes
  split_ifs
  · exact (traced_tier h node).map fun own hown => hown.append (traced_aggregators h _)
  · exact (h _ _).map fun own hown => hown.unkept.append (traced_aggregators h _)
  · exact (h _ _).map fun own hown => hown.unkept.append (traced_leaves h _)

theorem traced_query (D : Deployment) (statement : Statement) (node : Node)
    (cluster hierarchical : Bool) (requested : ClusterFanoutScope) :
    TracedAll (D.queryRoutes statement node cluster hierarchical requested) := by
  have hplan := D.traced_plan statement.pushdown statement.catalog
  have hlocal : TracedAll ((D.plan statement.pushdown statement.catalog .Auto node).map
      (List.map Route.unkept)) := (hplan _ _).map fun own hown => hown.unkept
  unfold queryRoutes
  cases cluster with
  | false => exact hlocal
  | true =>
      rintro rs hrs
      obtain ⟨fanout, -, hroutes⟩ := Option.bind_eq_some_iff.mp hrs
      cases hscope : fanout.scope with
      | Node =>
          rw [hscope] at hroutes
          exact traced_tier hplan node rs hroutes
      | Coordinator =>
          rw [hscope] at hroutes
          dsimp only at hroutes
          split_ifs at hroutes
          · exact traced_broadcast hplan node _ rs hroutes
          · exact D.traced_plan _ _ _ _ rs hroutes
          · exact traced_broadcast hplan node _ rs hroutes
      | Auto | Local =>
          rw [hscope] at hroutes
          exact hlocal rs hroutes

end Traces

end Deployment

section Silence

/-- Every request to the peer fails, and no other. -/
def Behaviour.silence (peer : Node) : Behaviour :=
  ⟨fun path => if path.getLast?.any (·.peer = peer) then .fails else .none, fun _ => ""⟩

/-- Only requests are asked for their faults. -/
theorem blocked_congr {B B' : Behaviour} {hops : List Hop}
    (h : ∀ path, path ≠ [] → B.fault path = B'.fault path) : B.blocked hops = B'.blocked hops := by
  induction hops generalizing B B' with
  | nil => rfl
  | cons hop hops ih =>
      have hlost : B.lost hop = B'.lost hop := by
        unfold Behaviour.lost
        rw [h [hop] (List.cons_ne_nil _ _)]
      have hrest : (B.after hop).blocked hops = (B'.after hop).blocked hops :=
        ih fun path _ => h (hop :: path) (List.cons_ne_nil _ _)
      unfold Behaviour.blocked
      rw [hlost, hrest]

theorem lost_silence (peer : Node) (hop : Hop) :
    (Behaviour.silence peer).lost hop = decide (hop.peer = peer) := by
  have hfault : (Behaviour.silence peer).fault [hop] = if hop.peer = peer then
    .fails else .none := by
    simp [Behaviour.silence]
  unfold Behaviour.lost
  rw [hfault]
  split_ifs with hpeer
  · exact (decide_eq_true hpeer).symm
  · exact (decide_eq_false hpeer).symm

theorem blocked_silence (peer : Node) (hops : List Hop) :
    (Behaviour.silence peer).blocked hops = hops.any (·.peer = peer) := by
  induction hops with
  | nil => rfl
  | cons hop hops ih =>
      have hrest : ((Behaviour.silence peer).after hop).blocked hops =
          (Behaviour.silence peer).blocked hops := by
        apply blocked_congr
        intro path hpath
        obtain ⟨first, rest, rfl⟩ := List.exists_cons_of_ne_nil hpath
        simp [Behaviour.after, Behaviour.silence, List.getLast?_cons_cons]
      unfold Behaviour.blocked
      rw [lost_silence, hrest, ih, List.any_cons]

variable {routes : List Route}

theorem not_arrived_silence (h : Traced routes) (peer : Node) :
    peer ∉ arrived (.silence peer) routes := by
  intro harrived
  obtain ⟨r, hr, rfl⟩ := List.mem_map.mp harrived
  obtain ⟨hmem, hstopped⟩ := List.mem_filter.mp hr
  obtain ⟨hop, hhop, hpeer⟩ := h.ends r hmem
  have hblocked : (Behaviour.silence r.peer).blocked r.hops = true := by
    rw [blocked_silence, List.any_eq_true]
    exact ⟨hop, hhop, decide_eq_true hpeer⟩
  simp [Route.stopped, hblocked] at hstopped

/-- Nobody notices if no route to the peer is kept and no kept route refuses. -/
theorem flagged_silence (h : Traced routes) {peer : Node}
    (hkept : ∀ r ∈ routes, r.kept = true → r.peer ≠ peer ∧ r.refused = false) :
    flagged (.silence peer) routes = false := by
  rw [Bool.eq_false_iff]
  intro hflagged
  obtain ⟨r, hr, hboth⟩ := List.any_eq_true.mp hflagged
  obtain ⟨hk, hstopped⟩ := Bool.and_eq_true_iff.mp hboth
  unfold Route.stopped at hstopped
  rw [(hkept r hr hk).2, Bool.false_or, blocked_silence, List.any_eq_true] at hstopped
  obtain ⟨hop, hhop, hpeer⟩ := hstopped
  obtain ⟨s, hs, hspeer, hskept, -⟩ := h.stops r hr hop hhop
  exact (hkept s hs (hskept hk)).1 (hspeer.trans (of_decide_eq_true hpeer))

/-- A kept route whose peer does not arrive is flagged. -/
theorem flagged_of_kept {B : Behaviour} {r : Route} (hr : r ∈ routes) (hk : r.kept = true)
    (hmissing : r.peer ∉ arrived B routes) : flagged B routes = true := by
  refine List.any_eq_true.mpr ⟨r, hr, ?_⟩
  rw [hk, Bool.true_and]
  by_contra hstopped
  refine hmissing (List.mem_map_of_mem (List.mem_filter.mpr ⟨hr, ?_⟩))
  simpa using hstopped

end Silence

/-- A kept route refuses, or whoever is asked over a route that is not kept is the
process itself or asked over a kept route as well. -/
def Reported (node : Node) (routes : List Route) : Prop :=
  (∃ r ∈ routes, r.kept = true ∧ r.refused = true) ∨
    ∀ r ∈ routes, r.kept = true ∨ r.peer = node ∨ ∃ s ∈ routes, s.kept = true ∧ s.peer = r.peer

/-- Somebody with rows whom the query was to cover is not among the nodes whose rows arrived. -/
def Lacks {ρ : Type*} (own : Node → List ρ) (routes : List Route) (nodes : List Node) : Prop :=
  ∃ r ∈ routes, own r.peer ≠ [] ∧ r.peer ∉ nodes

theorem flagged_of_lacks {ρ : Type*} {own : Node → List ρ} {B : Behaviour} {node : Node}
    {routes : List Route} (h : Reported node routes)
    (hlacks : Lacks own routes (node :: arrived B routes)) :
    flagged B routes = true := by
  obtain ⟨r, hr, -, hmissing⟩ := hlacks
  rw [List.mem_cons, not_or] at hmissing
  rcases h with ⟨s, hs, hkept, hrefused⟩ | hall
  · refine List.any_eq_true.mpr ⟨s, hs, ?_⟩
    rw [hkept, Route.stopped, hrefused]
    rfl
  · rcases hall r hr with hkept | hself | ⟨s, hs, hkept, hpeer⟩
    · exact flagged_of_kept hr hkept hmissing.2
    · exact absurd hself hmissing.1
    · exact flagged_of_kept hs hkept (by rw [hpeer]; exact hmissing.2)

/-- Otherwise somebody can be silenced without a trace. -/
theorem exists_silenced {node : Node} {routes : List Route} (htraced : Traced routes)
    (h : ¬ Reported node routes) : ∃ r ∈ routes, r.peer ∉ node :: arrived (.silence r.peer) routes ∧
      flagged (.silence r.peer) routes = false := by
  unfold Reported at h
  push Not at h
  obtain ⟨hrefused, r, hr, hunkept, hself, hnone⟩ := h
  refine ⟨r, hr, ?_, ?_⟩
  · rw [List.mem_cons, not_or]
    exact ⟨hself, not_arrived_silence htraced r.peer⟩
  · apply flagged_silence htraced
    intro s hs hkept
    exact ⟨hnone s hs hkept, Bool.eq_false_iff.mpr (hrefused s hs hkept)⟩

namespace Deployment

/-- Under all faults and for all rows, a query that lacks rows of somebody whom it was
to cover is flagged. -/
def KeepsIncompleteness (D : Deployment) (statement : Statement) (node : Node)
    (cluster hierarchical : Bool) (requested : ClusterFanoutScope) : Prop :=
  ∀ (B : Behaviour) (ρ : Type) (own : Node → List ρ) (routes : List Route) (o : FanoutOutcome),
    D.queryRoutes statement node cluster hierarchical requested = some routes →
    D.fanoutQuery B statement node cluster hierarchical requested = some o →
    Lacks own routes o.nodes → o.info.partialResult = true

theorem query_outcome (D : Deployment) (B : Behaviour) {statement : Statement} {node : Node}
    {cluster hierarchical : Bool} {requested : ClusterFanoutScope} {routes : List Route}
    (hroutes : D.queryRoutes statement node cluster hierarchical requested = some routes) :
    ∃ o, D.fanoutQuery B statement node cluster hierarchical requested = some o ∧
      o.nodes = node :: arrived B routes ∧ o.info.partialResult = flagged B routes := by
  rcases (D.finishes_query B statement node cluster hierarchical requested).cases with
    ⟨-, hnone⟩ | ⟨o, rs, ho, hrs, hnodes, hflag, -⟩
  · rw [hroutes] at hnone
    cases hnone
  · obtain rfl := Option.some.inj (hrs.symm.trans hroutes)
    exact ⟨o, ho, hnodes, hflag⟩

theorem keeps_incompleteness_iff (D : Deployment) (statement : Statement) (node : Node)
    (cluster hierarchical : Bool) (requested : ClusterFanoutScope) :
    D.KeepsIncompleteness statement node cluster hierarchical requested ↔
      ∀ routes, D.queryRoutes statement node cluster hierarchical requested = some routes →
        Reported node routes := by
  constructor
  · intro hkeeps routes hroutes
    by_contra hreported
    obtain ⟨r, hr, hmissing, hflag⟩ :=
      exists_silenced (D.traced_query _ _ _ _ _ routes hroutes) hreported
    obtain ⟨o, ho, hnodes, hinfo⟩ := D.query_outcome (.silence r.peer) hroutes
    have hlacks : Lacks (fun _ => [()]) routes o.nodes := by
      rw [hnodes]
      exact ⟨r, hr, List.cons_ne_nil _ _, hmissing⟩
    have htrue := hkeeps _ Unit _ routes o hroutes ho hlacks
    rw [hinfo, hflag] at htrue
    cases htrue
  · intro hreported B ρ own routes o hroutes ho hlacks
    obtain ⟨o', ho', hnodes, hinfo⟩ := D.query_outcome B hroutes
    obtain rfl := Option.some.inj (ho'.symm.trans ho)
    rw [hnodes] at hlacks
    rw [hinfo]
    exact flagged_of_lacks (hreported routes hroutes) hlacks

end Deployment

end Probing.Federation
