import Probing.Federation.Routes

/-!
# The fan-out follows its routes

What a query returns under faults, and whether it is flagged, can be read off its
routes.
-/

namespace Probing.Federation

open Probing.Registry

namespace Deployment

variable {D : Deployment} {B : Behaviour}

theorem evaluates_probe : Evaluates evaluateProbe probeRoutes := by
  intro B scope node
  rfl

theorem queryPeer_cases (B : Behaviour) (converted : Bool) (target : FederatedScanTarget) :
    (D.queryPeer B converted target = none ∧ D.targetRoutes target = none) ∨
      ∃ o routes, D.queryPeer B converted target = some o ∧ D.targetRoutes target = some routes ∧
        o.nodes = target.node :: arrived (B.after (.scan target converted)) routes ∧
          o.quality.isPartial = flagged (B.after (.scan target converted)) routes := by
  unfold queryPeer targetRoutes
  cases target.scope with
  | Coordinator =>
      have hserves :=
        finishes_serve (D := D) evaluates_probe (B.after (.scan target converted)) target.node
      rcases hserves.cases with ⟨hserve, hroutes⟩ | ⟨o, routes, hserve, hroutes, hnodes, -, hinfo⟩
      · left
        rw [hserve, hroutes]
        exact ⟨rfl, rfl⟩
      · right
        refine ⟨⟨o.nodes, o.info.stats⟩, routes, ?_, hroutes, hnodes, hinfo⟩
        rw [hserve, Option.bind_some, parse_node_status]
        rfl
  | Auto | Flat | Node | Local => exact Or.inr ⟨_, [], rfl, rfl, rfl, rfl⟩

/-- The frame of a reply is merged, converted or not. -/
def mergesReply (converted : Bool) (reply : PeerReply) : Bool :=
  if converted then reply.converted else reply ≠ .failed

/-- A reply leaves the result incomplete, where frames that do not convert may be merged. -/
def flagsReply (converted : Bool) : PeerReply → Bool
  | .failed => true
  | .answered quality converts => quality.isPartial || (converted && !converts)

/-- What one target contributes to a scan. -/
theorem scanReply_routes (B : Behaviour) (converted : Bool) (target : FederatedScanTarget) :
    (if mergesReply converted (D.scanReply B converted target) then
        ((D.queryPeer B converted target).map QueryOutcome.nodes).getD [] else []) =
        arrived B (request (.scan target converted) true (D.targetRoutes target)) ∧
      flagsReply converted (D.scanReply B converted target) =
        flagged B (request (.scan target converted) true (D.targetRoutes target)) := by
  rcases D.queryPeer_cases B converted target with
    ⟨hpeer, hroutes⟩ | ⟨o, routes, hpeer, hroutes, hnodes, hflag⟩
  · have hreply : D.scanReply B converted target = .failed := by
      unfold scanReply
      rw [hpeer]
      cases B.fault [.scan target converted] <;> rfl
    cases converted <;> simp [hreply, hroutes, mergesReply, flagsReply, PeerReply.converted]
  · rw [hroutes, arrived_request, flagged_request]
    unfold scanReply Behaviour.lost
    rw [hpeer]
    cases B.fault [.scan target converted] with
    | none =>
        cases converted <;>
          simp [mergesReply, flagsReply, PeerReply.converted, hnodes, hflag, Hop.peer]
    | fails => cases converted <;> simp [mergesReply, flagsReply, PeerReply.converted]
    | drops =>
        cases converted <;>
          simp [mergesReply, flagsReply, PeerReply.converted, hnodes, hflag, Hop.peer]

theorem merged_routes (B : Behaviour) (converted : Bool) (targets : List FederatedScanTarget) :
    (targets.filter fun target => mergesReply converted (D.scanReply B converted target)).flatMap
        (fun target => ((D.queryPeer B converted target).map QueryOutcome.nodes).getD []) =
      arrived B (targets.flatMap fun target =>
        request (.scan target converted) true (D.targetRoutes target)) ∧
    (targets.any fun target => flagsReply converted (D.scanReply B converted target)) =
      flagged B (targets.flatMap fun target =>
        request (.scan target converted) true (D.targetRoutes target)) := by
  induction targets with
  | nil => exact ⟨rfl, rfl⟩
  | cons target targets ih =>
      obtain ⟨hnodes, hflag⟩ := D.scanReply_routes B converted target
      rw [List.flatMap_cons, arrived_append, flagged_append, List.any_cons, ih.2, hflag,
        ← ih.1, ← hnodes]
      refine ⟨?_, rfl⟩
      rw [List.filter_cons]
      split_ifs
      · rw [List.flatMap_cons]
      · rfl

/-- What a fan-out over `global` tables merges and flags, read off the replies of its targets. -/
theorem globalFanout_replies (replies : FederatedScanTarget → PeerReply) (pushdown : Option Bool)
    (scope : FanoutScope) (node : Node) :
    (D.globalTargets pushdown scope node = none ∧
        ∃ e, D.globalFanout replies pushdown scope node = .error e) ∨
      ∃ targets result, D.globalTargets pushdown scope node = some targets ∧
        D.globalFanout replies pushdown scope node = .ok result ∧
        result.merged =
          targets.filter (fun target => mergesReply (converts pushdown) (replies target)) ∧
        result.quality.isPartial = targets.any fun target =>
        flagsReply (converts pushdown) (replies target) := by
  have hincomplete (target : FederatedScanTarget) :
      flagsReply true (replies target) = (replies target).incomplete := by
    unfold flagsReply PeerReply.incomplete
    cases replies target <;> rfl
  cases pushdown with
  | none =>
      unfold globalTargets globalFanout fanoutScan
      dsimp only
      cases (D.env node).federatedScanTargets D.cluster scope with
      | none => exact Or.inl ⟨rfl, _, rfl⟩
      | some targets =>
          refine Or.inr ⟨targets, _, rfl, rfl, rfl, ?_⟩
          rw [scan_quality, QueryQuality.isPartial_default, Bool.false_or]
          exact List.any_congr rfl fun target => (hincomplete target).symm
  | some merges =>
      unfold globalTargets globalFanout aggregatePushdown
      dsimp only
      cases merges with
      | true =>
          refine Or.inr ⟨_, _, rfl, rfl, rfl, ?_⟩
          rw [merge_quality]
          exact List.any_congr rfl fun target => (hincomplete target).symm
      | false =>
          refine Or.inr ⟨_, _, rfl, rfl, rfl, ?_⟩
          rw [append_quality, QueryQuality.isPartial_default, Bool.false_or]
          refine List.any_congr rfl fun target => ?_
          unfold flagsReply
          cases replies target with
          | failed => rfl
          | answered quality converts => simp [Deployment.converts]

theorem evaluates_global (D : Deployment) (pushdown : Option Bool) :
    Evaluates (D.evaluateGlobal pushdown) (D.globalRoutes pushdown) := by
  intro B scope node
  unfold evaluateGlobal globalRoutes
  rcases D.globalFanout_replies (D.scanReply B (converts pushdown)) pushdown scope node with
    ⟨htargets, e, hfanout⟩ | ⟨targets, result, htargets, hfanout, hmerged, hquality⟩
  · rw [htargets, hfanout]
    rfl
  · obtain ⟨hnodes, hflag⟩ := D.merged_routes B (converts pushdown) targets
    rw [htargets, hfanout]
    dsimp only
    rw [Option.map_some, Option.map_some, Option.map_some, hmerged, hnodes, hquality, hflag]

theorem evaluates (D : Deployment) (pushdown : Option Bool) (catalog : Catalog) :
    Evaluates (D.evaluate pushdown catalog) (D.plan pushdown catalog) := by
  cases catalog with
  | probe => exact evaluates_probe
  | global => exact D.evaluates_global pushdown

theorem finishes_local (statement : Statement) (scope : FanoutScope) (node : Node)
    {info : FanoutMeta} (hinfo : info.partialResult = false ∧ info.incomplete = false) :
    Finishes B node (D.queryLocal B statement scope node info)
      ((D.plan statement.pushdown statement.catalog scope node).map (List.map Route.unkept)) := by
  unfold queryLocal
  rcases (D.evaluates statement.pushdown statement.catalog).cases B scope node with
    ⟨heval, hplan⟩ | ⟨o, routes, heval, hplan, hnodes, -⟩
  · rw [heval, hplan]
    exact finishes_none
  · rw [heval, hplan, Option.map_some, Option.map_some, finishes_some,
      arrived_unkept, flagged_unkept, FanoutOutcome.nodes_mk, List.flatten_singleton]
    exact ⟨hnodes, hinfo⟩

/-- The replies of the aggregators follow an account that agrees with its routes. -/
theorem finishes_nodes {evaluate : Evaluation} {plan : RoutePlan} (h : Evaluates evaluate plan)
    {node : Node} {acc : FanoutOutcome} {own : List Route}
    (hnodes : acc.nodes = node :: arrived B own)
    (hinfo : acc.info.incomplete = flagged B own) (peers : List Node) :
    Finishes B node (some (finishFanout (peers.foldl (D.mergeNode evaluate B) acc)))
      (some (own ++ D.aggregatorRoutes plan peers)) := by
  obtain ⟨hall, hflag⟩ := foldl_node_routes (D := D) (B := B) h acc peers
  rw [finishes_some, arrived_append, flagged_append, ← hinfo, ← hflag]
  refine ⟨?_, rfl, FanoutMeta.incomplete_finalize _⟩
  rw [finishFanout_nodes, hall, hnodes]
  rfl

theorem finishes_leaves {evaluate : Evaluation} {plan : RoutePlan} (h : Evaluates evaluate plan)
    {node : Node} {acc : FanoutOutcome} {own : List Route}
    (hnodes : acc.nodes = node :: arrived B own)
    (hinfo : acc.info.incomplete = flagged B own) (peers : List Node) :
    Finishes B node (some (finishFanout (peers.foldl (mergeLeaf evaluate B) acc)))
      (some (own ++ leafRoutes plan peers)) := by
  obtain ⟨hall, hflag⟩ := foldl_leafRoutes (B := B) h acc peers
  rw [finishes_some, arrived_append, flagged_append, ← hinfo, ← hflag]
  refine ⟨?_, rfl, FanoutMeta.incomplete_finalize _⟩
  rw [finishFanout_nodes, hall, hnodes]
  rfl

theorem finishes_coordinator (statement : Statement) (node : Node) :
    Finishes B node (D.broadcastFromCoordinator B statement node)
      (D.coordinatorRoutes (D.plan statement.pushdown statement.catalog) node) := by
  have heval := D.evaluates statement.pushdown statement.catalog
  unfold broadcastFromCoordinator coordinatorRoutes
  rcases (finishes_tier (D := D) heval B node true).cases with
    ⟨htier, hroutes⟩ | ⟨o, own, htier, hroutes, hnodes, -, hinfo⟩
  · rw [htier, hroutes]
    exact finishes_none
  · rw [htier, hroutes, Option.map_some, Option.map_some]
    have hincomplete (aggregators : ℕ) :
        (coordinatorInfo o.info aggregators).incomplete = flagged B own := by
      have habsorb : (coordinatorInfo o.info aggregators).incomplete =
          ((FanoutMeta.empty true true .Coordinator).absorb o.info).incomplete := rfl
      rw [habsorb, FanoutMeta.incomplete_absorb, hinfo]
      rfl
    have hstart : (FanoutOutcome.mk o.parts (coordinatorInfo o.info
        ((D.env node).nodeAggregatorPeers D.cluster).length)).nodes =
          node :: arrived B own := hnodes
    exact finishes_nodes heval hstart (hincomplete _) _

theorem finishes_rank (statement : Statement) (node : Node) (scope : FanoutScope) :
    Finishes B node (D.broadcastFromCurrentRank B statement node scope)
      (D.rankRoutes (D.plan statement.pushdown statement.catalog) node scope) := by
  have heval := D.evaluates statement.pushdown statement.catalog
  unfold broadcastFromCurrentRank rankRoutes
  dsimp only
  have hstart : (rankInfo scope (D.peersForScope node scope).length).partialResult = false ∧
      (rankInfo scope (D.peersForScope node scope).length).incomplete = false := ⟨rfl, rfl⟩
  have hlocal := D.finishes_local (B := B) statement .Local node hstart
  cases hplan : D.plan statement.pushdown statement.catalog .Local node with
  | none =>
      rw [hplan] at hlocal
      rcases hlocal.cases with ⟨hnone, -⟩ | ⟨o, rs, -, hrs, -⟩
      · rw [hnone]
        exact finishes_none
      · cases hrs
  | some own =>
      rw [hplan] at hlocal
      rcases hlocal.cases with ⟨-, hrs⟩ | ⟨o, rs, ho, hrs, hnodes, -, hinfo⟩
      · cases hrs
      · obtain rfl := Option.some.inj hrs
        rw [ho, Option.map_some, Option.map_some]
        split_ifs with hscope
        · exact finishes_nodes heval hnodes hinfo _
        · exact finishes_leaves heval hnodes hinfo _

theorem finishes_broadcast (statement : Statement) (node : Node) (scope : FanoutScope) :
    Finishes B node (D.broadcastFanoutQuery B statement node scope)
      (D.broadcastRoutes (D.plan statement.pushdown statement.catalog) node scope) := by
  unfold broadcastFanoutQuery broadcastRoutes
  split_ifs
  · exact D.finishes_coordinator statement node
  · exact D.finishes_rank statement node scope

theorem finishes_catalog (statement : Statement) (node : Node) (scope : FanoutScope) :
    Finishes B node (D.fanoutViaGlobalCatalog B statement node scope)
      (D.plan statement.pushdown (rewriteSqlForGlobalFanout statement).catalog scope node) := by
  unfold fanoutViaGlobalCatalog
  rcases (D.evaluates statement.pushdown (rewriteSqlForGlobalFanout statement).catalog).cases
      B scope node with
    ⟨heval, hplan⟩ | ⟨o, routes, heval, hplan, hnodes, hflag⟩
  · rw [heval, hplan]
    exact finishes_none
  · rw [heval, hplan, Option.map_some, finishes_some, ← hflag]
    refine ⟨?_, rfl, FanoutMeta.incomplete_finalize _⟩
    rw [finishFanout_nodes, FanoutOutcome.nodes_mk, List.flatten_singleton]
    exact hnodes

/-- A query follows its routes, under all faults. -/
theorem finishes_query (D : Deployment) (B : Behaviour) (statement : Statement) (node : Node)
    (cluster hierarchical : Bool) (requested : ClusterFanoutScope) :
    Finishes B node (D.fanoutQuery B statement node cluster hierarchical requested)
      (D.queryRoutes statement node cluster hierarchical requested) := by
  have hlocal (info : FanoutMeta) (hinfo : info.partialResult = false ∧ info.incomplete = false) :
      Finishes B node ((D.queryLocal B statement .Auto node info).map finishFanout)
        ((D.plan statement.pushdown statement.catalog .Auto node).map (List.map Route.unkept)) := by
    rcases (D.finishes_local (B := B) statement .Auto node hinfo).cases with
      ⟨hlocal, hroutes⟩ | ⟨o, rs, hlocal, hroutes, hnodes, -, hincomplete⟩
    · rw [hlocal, hroutes]
      exact finishes_none
    · rw [hlocal, hroutes, Option.map_some, finishes_some]
      exact ⟨hnodes, hincomplete, (FanoutMeta.incomplete_finalize _).trans hincomplete⟩
  unfold fanoutQuery queryRoutes
  cases cluster with
  | false => exact D.finishes_local statement .Auto node ⟨rfl, rfl⟩
  | true =>
      rw [if_pos rfl, if_pos rfl]
      cases D.planFanout node hierarchical requested with
      | none => exact finishes_none
      | some fanout =>
          rw [Option.bind_some, Option.bind_some]
          cases fanout.scope with
          | Node =>
              exact finishes_tier (D.evaluates statement.pushdown statement.catalog) B node
                hierarchical
          | Coordinator =>
              unfold fanoutCoordinatorTier fanoutFlat
              dsimp only
              split_ifs
              · exact D.finishes_broadcast statement node .Coordinator
              · exact D.finishes_catalog statement node .Flat
              · exact D.finishes_broadcast statement node .Flat
          | Auto | Local => exact hlocal _ ⟨rfl, rfl⟩

end Deployment

end Probing.Federation
