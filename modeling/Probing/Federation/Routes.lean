import Probing.Federation.Fanout

/-!
# Routes of a fan-out

A query without faults asks each of its peers over a route of requests. Under faults
the rows of those peers arrive whose route is not stopped, and the result is flagged
if a stopped route is one whose failure every process on the way passes on.
-/

namespace Probing.Federation

open Probing.Registry

structure Route where
  hops : List Hop
  peer : Node
  /-- Every process on the way passes a failure of the last request on. -/
  kept : Bool
  /-- The peer refuses for want of hierarchy metadata. -/
  refused : Bool

/-- The frame of the request does not reach the process that asked. -/
def Behaviour.lost (B : Behaviour) (hop : Hop) : Bool :=
  match B.fault [hop], hop with
  | .fails, _ => true
  | .drops, .scan _ true => true
  | _, _ => false

def Behaviour.blocked : Behaviour → List Hop → Bool
  | _, [] => false
  | B, hop :: rest => B.lost hop || (B.after hop).blocked rest

namespace Route

def stopped (B : Behaviour) (r : Route) : Bool := r.refused || B.blocked r.hops

def via (hop : Hop) (keeps : Bool) (r : Route) : Route :=
  ⟨hop :: r.hops, r.peer, keeps && r.kept, r.refused⟩

def unkept (r : Route) : Route := { r with kept := false }

end Route

/-- The routes of a request whose peer asks others, or refuses. -/
def request (hop : Hop) (keeps : Bool) : Option (List Route) → List Route
  | none => [⟨[hop], hop.peer, true, true⟩]
  | some routes => ⟨[hop], hop.peer, true, false⟩ :: routes.map (Route.via hop keeps)

/-- The nodes whose rows arrive. -/
def arrived (B : Behaviour) (routes : List Route) : List Node :=
  (routes.filter fun r => !r.stopped B).map Route.peer

def flagged (B : Behaviour) (routes : List Route) : Bool :=
  routes.any fun r => r.kept && r.stopped B

section Rules

variable {B : Behaviour} {hop : Hop} {routes routes' : List Route}

@[simp] theorem arrived_nil : arrived B [] = [] := rfl

@[simp] theorem arrived_append :
    arrived B (routes ++ routes') = arrived B routes ++ arrived B routes' := by
  unfold arrived
  rw [List.filter_append, List.map_append]

@[simp] theorem flagged_nil : flagged B [] = false := rfl

@[simp] theorem flagged_append :
    flagged B (routes ++ routes') = (flagged B routes || flagged B routes') :=
  List.any_append

@[simp] theorem arrived_unkept : arrived B (routes.map Route.unkept) = arrived B routes := by
  induction routes with
  | nil => rfl
  | cons r routes ih =>
      unfold arrived at ih ⊢
      rw [List.map_cons, List.filter_cons, List.filter_cons]
      have hsame : r.unkept.stopped B = r.stopped B := rfl
      rw [hsame]
      split_ifs
      · rw [List.map_cons, List.map_cons, ih]
        rfl
      · exact ih

@[simp] theorem flagged_unkept : flagged B (routes.map Route.unkept) = false := by
  simp [flagged, Route.unkept]

theorem stopped_via (keeps : Bool) (r : Route) :
    (r.via hop keeps).stopped B = (B.lost hop || r.stopped (B.after hop)) := by
  change (r.refused || (B.lost hop || (B.after hop).blocked r.hops)) = _
  exact Bool.or_left_comm ..

@[simp] theorem arrived_refused (keeps : Bool) : arrived B (request hop keeps none) = [] := rfl

@[simp] theorem flagged_refused (keeps : Bool) : flagged B (request hop keeps none) = true := rfl

theorem arrived_request (keeps : Bool) : arrived B (request hop keeps (some routes)) =
    if B.lost hop then [] else hop.peer :: arrived (B.after hop) routes := by
  unfold request arrived
  rw [List.filter_cons, List.filter_map, List.filter_congr (q := fun r =>
    !(B.lost hop || r.stopped (B.after hop)))]
  · cases hlost : B.lost hop with
    | true => simp [Route.stopped, Behaviour.blocked, hlost]
    | false => simp [Route.stopped, Behaviour.blocked, hlost, Route.via, Function.comp_def]
  · intro r _
    rw [Function.comp_apply, stopped_via]

theorem flagged_request (keeps : Bool) : flagged B (request hop keeps (some routes)) =
    (B.lost hop || (keeps && flagged (B.after hop) routes)) := by
  have hrest : flagged B (routes.map (Route.via hop keeps)) =
      (keeps && routes.any fun r => r.kept && (B.lost hop || r.stopped (B.after hop))) := by
    unfold flagged
    rw [List.any_map]
    induction routes with
    | nil => simp
    | cons r routes ih =>
        rw [List.any_cons, List.any_cons, ih, Function.comp_apply, stopped_via]
        cases keeps <;> simp [Route.via]
  have hhead : flagged B (request hop keeps (some routes)) =
      (B.lost hop || flagged B (routes.map (Route.via hop keeps))) := by
    simp [request, flagged, Route.stopped, Behaviour.blocked]
  rw [hhead, hrest]
  cases hlost : B.lost hop with
  | true => rfl
  | false => simp [flagged]

end Rules

namespace Deployment

variable (D : Deployment)

/-- The routes of an evaluation within a scope, if it does not refuse. -/
abbrev RoutePlan := FanoutScope → Node → Option (List Route)

def leafRoutes (plan : RoutePlan) (peers : List Node) : List Route :=
  peers.flatMap fun node => request (.leaf node) false (plan .Auto node)

def tierRoutes (plan : RoutePlan) (node : Node) : Option (List Route) :=
  if (D.env node).isLocal0 then
    (plan .Node node).map fun own =>
      own.map Route.unkept ++ leafRoutes plan ((D.env node).localLeafPeers D.cluster)
  else (plan .Auto node).map (List.map Route.unkept)

def serveRoutes (plan : RoutePlan) (node : Node) : Option (List Route) :=
  (D.planFanout node true .Node).bind fun _ => D.tierRoutes plan node

def aggregatorRoutes (plan : RoutePlan) (peers : List Node) : List Route :=
  peers.flatMap fun node => request (.aggregator node) true (D.serveRoutes plan node)

def probeRoutes : RoutePlan := fun _ _ => some []

def targetRoutes (target : FederatedScanTarget) : Option (List Route) :=
  match target.scope with
  | .Coordinator => D.serveRoutes probeRoutes target.node
  | _ => some []

def globalTargets (pushdown : Option Bool) (scope : FanoutScope) (node : Node) :
    Option (List FederatedScanTarget) :=
  match pushdown with
  | none => (D.env node).federatedScanTargets D.cluster scope
  | some _ => some (pushdownTargets (D.env node) D.cluster scope)

def globalRoutes (pushdown : Option Bool) : RoutePlan := fun scope node =>
  (D.globalTargets pushdown scope node).map fun targets =>
    targets.flatMap fun target =>
      request (.scan target (converts pushdown)) true (D.targetRoutes target)

def plan (pushdown : Option Bool) : Catalog → RoutePlan
  | .probe => probeRoutes
  | .global => D.globalRoutes pushdown

def coordinatorRoutes (plan : RoutePlan) (node : Node) : Option (List Route) :=
  (D.tierRoutes plan node).map fun own =>
    own ++ D.aggregatorRoutes plan ((D.env node).nodeAggregatorPeers D.cluster)

def rankRoutes (plan : RoutePlan) (node : Node) (scope : FanoutScope) : Option (List Route) :=
  (plan .Local node).map fun own =>
    own.map Route.unkept ++ if scope = .Coordinator
      then D.aggregatorRoutes plan (D.peersForScope node scope)
      else leafRoutes plan (D.peersForScope node scope)

def broadcastRoutes (plan : RoutePlan) (node : Node) (scope : FanoutScope) : Option (List Route) :=
  if scope = .Coordinator && (D.env node).isLocal0 then D.coordinatorRoutes plan node
  else D.rankRoutes plan node scope

/-- The routes of a query. -/
def queryRoutes (statement : Statement) (node : Node) (cluster hierarchical : Bool)
    (requested : ClusterFanoutScope) : Option (List Route) :=
  let plan := D.plan statement.pushdown statement.catalog
  if cluster then
    (D.planFanout node hierarchical requested).bind fun fanout =>
      match fanout.scope with
      | .Node => D.tierRoutes plan node
      | .Coordinator =>
          if fanout.hierarchicalRequested then D.broadcastRoutes plan node .Coordinator
          else if statement.singleRelation then
            D.plan statement.pushdown (rewriteSqlForGlobalFanout statement).catalog .Flat node
          else D.broadcastRoutes plan node .Flat
      | _ => (plan .Auto node).map (List.map Route.unkept)
  else (plan .Auto node).map (List.map Route.unkept)

section Summaries

/-- What the routes say about an evaluation at a process. -/
def Evaluates (evaluate : Evaluation) (plan : RoutePlan) : Prop :=
  ∀ B scope node, (evaluate B scope node).map (fun o => (o.nodes, o.quality.isPartial)) =
    (plan scope node).map fun routes => (node :: arrived B routes, flagged B routes)

/-- What the routes say about a finished fan-out. -/
def Finishes (B : Behaviour) (node : Node) (outcome : Option FanoutOutcome)
    (routes : Option (List Route)) : Prop :=
  outcome.map (fun o => (o.nodes, o.info.partialResult, o.info.incomplete)) =
    routes.map fun routes => (node :: arrived B routes, flagged B routes, flagged B routes)

end Summaries

end Deployment

namespace FanoutMeta

variable (m child : FanoutMeta)

@[simp] theorem incomplete_alone (cluster hierarchical : Bool) (scope : ClusterFanoutScope) :
    (alone cluster hierarchical scope).incomplete = false := rfl

@[simp] theorem incomplete_success : m.recordPeerSuccess.incomplete = m.incomplete := rfl

@[simp] theorem incomplete_failure (addr error : String) :
    (m.recordPeerFailure addr error).incomplete = true := by
  simp [incomplete, recordPeerFailure]

theorem incomplete_iff : m.incomplete = true ↔
    m.partialResult = true ∨ m.nodesFailed ≠ [] ∨ 0 < m.peerBatchesDropped := by
  simp [incomplete, or_assoc]

@[simp] theorem incomplete_finalize : m.finalize.incomplete = m.incomplete := by
  have hfinal : m.finalize.incomplete = true ↔
      m.incomplete = true ∨ m.nodesFailed ≠ [] ∨ 0 < m.peerBatchesDropped :=
    m.finalize.incomplete_iff
  rw [Bool.eq_iff_iff, hfinal, incomplete_iff]
  tauto

@[simp] theorem incomplete_absorb :
    (m.absorb child).incomplete = (m.incomplete || child.incomplete) := by
  rw [Bool.eq_iff_iff, Bool.or_eq_true]
  simp only [incomplete_iff]
  have hsum : 0 < m.peerBatchesDropped + child.peerBatchesDropped ↔
      0 < m.peerBatchesDropped ∨ 0 < child.peerBatchesDropped := by omega
  simp only [absorb, Bool.or_eq_true, ne_eq, List.append_eq_nil_iff, hsum]
  tauto

@[simp] theorem isPartial_stats : m.stats.isPartial = m.incomplete := rfl

end FanoutMeta

@[simp] theorem parse_leaf_status (b : Bool) (nodes : List Node) :
    parseLeafResponse (responseStatus b) nodes = some nodes := by
  cases b <;> rfl

@[simp] theorem parse_node_status (b : Bool) (o : FanoutOutcome) :
    parseNodeResponse (responseStatus b) o = some o := by
  cases b <;> rfl

namespace Deployment

variable {D : Deployment} {B : Behaviour} {evaluate : Evaluation} {plan : RoutePlan}

theorem finishes_none {node : Node} : Finishes B node none none := rfl

theorem finishes_some {node : Node} {o : FanoutOutcome} {routes : List Route} :
    Finishes B node (some o) (some routes) ↔ o.nodes = node :: arrived B routes ∧
      o.info.partialResult = flagged B routes ∧ o.info.incomplete = flagged B routes := by
  simp [Finishes]

/-- The cases of an evaluation that follows its routes. -/
theorem Evaluates.cases (h : Evaluates evaluate plan) (B : Behaviour) (scope : FanoutScope)
    (node : Node) : (evaluate B scope node = none ∧ plan scope node = none) ∨
      ∃ o routes, evaluate B scope node = some o ∧ plan scope node = some routes ∧
        o.nodes = node :: arrived B routes ∧ o.quality.isPartial = flagged B routes := by
  have hall := h B scope node
  cases heval : evaluate B scope node with
  | none =>
      cases hplan : plan scope node with
      | none => exact Or.inl ⟨rfl, rfl⟩
      | some routes => simp [heval, hplan] at hall
  | some o =>
      cases hplan : plan scope node with
      | none => simp [heval, hplan] at hall
      | some routes =>
          simp only [heval, hplan, Option.map_some, Option.some.injEq, Prod.mk.injEq] at hall
          exact Or.inr ⟨o, routes, rfl, rfl, hall.1, hall.2⟩

theorem Finishes.cases {node : Node} {outcome : Option FanoutOutcome}
    {routes : Option (List Route)} (h : Finishes B node outcome routes) :
    (outcome = none ∧ routes = none) ∨ ∃ o rs, outcome = some o ∧ routes = some rs ∧
      o.nodes = node :: arrived B rs ∧ o.info.partialResult = flagged B rs ∧
        o.info.incomplete = flagged B rs := by
  cases outcome with
  | none =>
      cases routes with
      | none => exact Or.inl ⟨rfl, rfl⟩
      | some rs => simp [Finishes] at h
  | some o =>
      cases routes with
      | none => simp [Finishes] at h
      | some rs => exact Or.inr ⟨o, rs, rfl, rfl, finishes_some.1 h⟩

/-- One reply of a leaf. -/
theorem mergeLeaf_routes (h : Evaluates evaluate plan) (acc : FanoutOutcome) (node : Node) :
    (mergeLeaf evaluate B acc node).nodes =
        acc.nodes ++ arrived B (request (.leaf node) false (plan .Auto node)) ∧
      (mergeLeaf evaluate B acc node).info.incomplete =
        (acc.info.incomplete || flagged B (request (.leaf node) false (plan .Auto node))) := by
  have hlost : B.lost (.leaf node) = decide (B.fault [.leaf node] = .fails) := by
    unfold Behaviour.lost
    cases B.fault [.leaf node] <;> rfl
  rcases h.cases (B.after (.leaf node)) .Auto node with ⟨heval, hplan⟩ | ⟨o, routes, heval,
    hplan, hnodes, -⟩
  · have hquery : queryLeaf evaluate B node = none := by
      unfold queryLeaf
      rw [heval]
      split_ifs <;> rfl
    simp [mergeLeaf, hquery, hplan]
  · rw [hplan, arrived_request, flagged_request, hlost]
    by_cases hfails : B.fault [.leaf node] = .fails
    · have hquery : queryLeaf evaluate B node = none := if_pos hfails
      simp [mergeLeaf, hquery, hfails]
    · have hquery : queryLeaf evaluate B node = some o.nodes := by
        unfold queryLeaf
        rw [if_neg hfails, heval, Option.bind_some, parse_leaf_status]
      simp [mergeLeaf, hquery, hfails, hnodes, Hop.peer]

theorem foldl_leafRoutes (h : Evaluates evaluate plan) (acc : FanoutOutcome) (peers : List Node) :
    (peers.foldl (mergeLeaf evaluate B) acc).nodes = acc.nodes ++ arrived B
    (leafRoutes plan peers) ∧
      (peers.foldl (mergeLeaf evaluate B) acc).info.incomplete =
        (acc.info.incomplete || flagged B (leafRoutes plan peers)) := by
  induction peers generalizing acc with
  | nil => simp [leafRoutes]
  | cons node peers ih =>
      obtain ⟨hnodes, hinfo⟩ := mergeLeaf_routes (B := B) h acc node
      obtain ⟨hnodes', hinfo'⟩ := ih (mergeLeaf evaluate B acc node)
      rw [List.foldl_cons, hnodes', hinfo', hnodes, hinfo]
      simp [leafRoutes, Bool.or_assoc]

theorem finishes_tier (h : Evaluates evaluate plan) (B : Behaviour) (node : Node)
    (hierarchical : Bool) :
    Finishes B node (D.fanoutNodeTier evaluate B node hierarchical) (D.tierRoutes plan node) := by
  unfold fanoutNodeTier tierRoutes
  split_ifs with hlocal
  · rcases h.cases B .Node node with ⟨heval, hplan⟩ | ⟨o, routes, heval, hplan, hnodes, -⟩
    · rw [heval, hplan]
      exact finishes_none
    · rw [heval, hplan, Option.map_some, Option.map_some, finishes_some]
      dsimp only
      obtain ⟨hall, hinfo⟩ :=
        foldl_leafRoutes (B := B) h ⟨[o.nodes], { FanoutMeta.alone true hierarchical .Node with
        localRanksQueried := ((D.env node).localLeafPeers D.cluster).length }⟩
        ((D.env node).localLeafPeers D.cluster)
      refine ⟨?_, ?_, ?_⟩
      · rw [finishFanout_nodes, hall, FanoutOutcome.nodes_mk, List.flatten_singleton, hnodes,
          arrived_append, arrived_unkept]
        rfl
      · rw [flagged_append, flagged_unkept]
        exact hinfo
      · rw [finishFanout, FanoutMeta.incomplete_finalize, flagged_append, flagged_unkept]
        exact hinfo
  · rcases h.cases B .Auto node with ⟨heval, hplan⟩ | ⟨o, routes, heval, hplan, hnodes, -⟩
    · rw [heval, hplan]
      exact finishes_none
    · rw [heval, hplan, Option.map_some, Option.map_some, finishes_some]
      refine ⟨?_, ?_, ?_⟩
      · rw [arrived_unkept, finishFanout_nodes, FanoutOutcome.nodes_mk, List.flatten_singleton]
        exact hnodes
      · rw [flagged_unkept]
        rfl
      · rw [flagged_unkept]
        rfl

theorem finishes_serve (h : Evaluates evaluate plan) (B : Behaviour) (node : Node) :
    Finishes B node (D.serveNode evaluate B node) (D.serveRoutes plan node) := by
  unfold serveNode serveRoutes
  cases D.planFanout node true .Node with
  | none => exact finishes_none
  | some fanout => exact finishes_tier h B node true

/-- One reply of an aggregator. -/
theorem mergeNode_routes (h : Evaluates evaluate plan) (acc : FanoutOutcome) (node : Node) :
    (D.mergeNode evaluate B acc node).nodes =
        acc.nodes ++ arrived B (request (.aggregator node) true (D.serveRoutes plan node)) ∧
      (D.mergeNode evaluate B acc node).info.incomplete =
        (acc.info.incomplete ||
          flagged B (request (.aggregator node) true (D.serveRoutes plan node))) := by
  have hlost : B.lost (.aggregator node) = decide (B.fault [.aggregator node] = .fails) := by
    unfold Behaviour.lost
    cases B.fault [.aggregator node] <;> rfl
  rcases (finishes_serve (D := D) h (B.after (.aggregator node)) node).cases with
    ⟨hserve, hroutes⟩ | ⟨o, routes, hserve, hroutes, hnodes, -, hinfo⟩
  · have hquery : D.queryNode evaluate B node = none := by
      unfold queryNode
      rw [hserve]
      split_ifs <;> rfl
    simp [mergeNode, hquery, hroutes]
  · rw [hroutes, arrived_request, flagged_request, hlost]
    by_cases hfails : B.fault [.aggregator node] = .fails
    · have hquery : D.queryNode evaluate B node = none := if_pos hfails
      simp [mergeNode, hquery, hfails]
    · have hquery : D.queryNode evaluate B node = some o := by
        unfold queryNode
        rw [if_neg hfails, hserve, Option.bind_some, parse_node_status]
      simp [mergeNode, hquery, hfails, hnodes, hinfo, Hop.peer]

theorem foldl_node_routes (h : Evaluates evaluate plan) (acc : FanoutOutcome) (peers : List Node) :
    (peers.foldl (D.mergeNode evaluate B) acc).nodes =
        acc.nodes ++ arrived B (D.aggregatorRoutes plan peers) ∧
      (peers.foldl (D.mergeNode evaluate B) acc).info.incomplete =
        (acc.info.incomplete || flagged B (D.aggregatorRoutes plan peers)) := by
  induction peers generalizing acc with
  | nil => simp [aggregatorRoutes]
  | cons node peers ih =>
      obtain ⟨hnodes, hinfo⟩ := mergeNode_routes (D := D) (B := B) h acc node
      obtain ⟨hnodes', hinfo'⟩ := ih (D.mergeNode evaluate B acc node)
      rw [List.foldl_cons, hnodes', hinfo', hnodes, hinfo]
      simp [aggregatorRoutes, Bool.or_assoc]

end Deployment

end Probing.Federation
