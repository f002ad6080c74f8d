import Probing.Federation.Coverage
import Probing.Federation.Pushdown

/-!
# The query fan-out

`fanout_query` evaluates a statement at the own process and asks peers for more. The dataframe of an
evaluation is the list of the nodes whose rows it has, the evaluating one first, and that of a
fan-out is the list of its parts, one for each evaluation. Every request may fail, and a frame of a
scan may be dropped; the faults are given by the path of requests from the initiating process on.
An evaluation is limited where `ensure_global_scan_limit` appends a limit to the statement. Strict
mode, which turns a partial result into an error, is off, and statements that the query guard
rejects are left out.
-/

namespace Probing.Federation

open Probing.Registry

inductive ClusterFanoutScope
  | Auto
  | Coordinator
  | Node
  | Local
  deriving DecidableEq

def ClusterFanoutScope.asStr : ClusterFanoutScope → String
  | .Auto => "auto"
  | .Coordinator => "coordinator"
  | .Node => "node"
  | .Local => "local"

def FanoutScope.asStr : FanoutScope → String
  | .Auto => "auto"
  | .Flat => "flat"
  | .Coordinator => "coordinator"
  | .Node => "node"
  | .Local => "local"

/-- The catalog through which a statement names its tables. -/
inductive Catalog
  | probe
  | global
  deriving DecidableEq

/-- What the fan-out reads from a statement: the identifiers of each relation it names. -/
structure Statement where
  relations : List (List String)
  /-- `can_fanout_via_global_catalog`. -/
  singleRelation : Bool
  /-- It has a plan of the aggregate pushdown, and the plan merges. -/
  pushdown : Option Bool
  deriving DecidableEq

def knownSchemas : List String :=
  ["cluster", "process", "files", "python", "memtable", "gpu", "rdma"]

def eqIgnoreAsciiCase (a b : String) : Bool := a.toLower = b.toLower

theorem toLower_eq_ofList (s : String) : s.toLower = .ofList (s.toList.map Char.toLower) :=
  String.map_eq_internal

theorem global_toLower : "global".toLower = "global" := by
  rw [toLower_eq_ofList]
  decide

theorem probe_toLower : "probe".toLower = "probe" := by
  rw [toLower_eq_ofList]
  decide

def firstIdentEq (parts : List String) (expected : String) : Bool :=
  parts.head?.any (eqIgnoreAsciiCase · expected)

def rewriteRelationToGlobal (parts : List String) : List String :=
  if parts.isEmpty || firstIdentEq parts "global" then parts
  else if firstIdentEq parts "probe" then "global" :: parts.drop 1
  else if parts.head?.any fun part => knownSchemas.any (eqIgnoreAsciiCase part) then
    "global" :: parts
  else parts

def rewriteSqlForGlobalFanout (statement : Statement) : Statement :=
  { statement with relations := statement.relations.map rewriteRelationToGlobal }

/-- Names outside the `global` catalog are those of the process. -/
def Statement.catalog (statement : Statement) : Catalog :=
  if statement.relations.any (firstIdentEq · "global") then .global else .probe

/-- How the coordinator executes a statement. -/
inductive FederatedQueryPath
  | Local
  | AggregatePushdown
  | FederatedScan
  | Broadcast
  deriving DecidableEq

/-- The path of the statement once it is rewritten to the `global` catalog. -/
def Statement.federatedPath (statement : Statement) : FederatedQueryPath :=
  if (rewriteSqlForGlobalFanout statement).catalog = .probe then .Local
  else if !statement.singleRelation then .Broadcast
  else if statement.pushdown.isSome then .AggregatePushdown
  else .FederatedScan

/-- The limit that a process with this `global_scan_max_rows` appends to a statement without one. -/
def ensureGlobalScanLimit (statement : Statement) (globalScanMaxRows : ℕ) : Option ℕ :=
  match statement.federatedPath with
  | .Local | .Broadcast => none
  | _ => some globalScanMaxRows

structure FanoutMeta where
  cluster : Bool
  hierarchical : Bool
  scope : String
  nodesQueried : ℕ
  nodesFailed : List String
  peerBatchesDropped : ℕ
  nodeAggregatorsQueried : ℕ
  localRanksQueried : ℕ
  partialResult : Bool
  deriving DecidableEq

namespace FanoutMeta

def empty (cluster hierarchical : Bool) (scope : ClusterFanoutScope) : FanoutMeta :=
  ⟨cluster, hierarchical, scope.asStr, 0, [], 0, 0, 0, false⟩

def alone (cluster hierarchical : Bool) (scope : ClusterFanoutScope) : FanoutMeta :=
  { empty cluster hierarchical scope with nodesQueried := 1 }

def recordPeerSuccess (m : FanoutMeta) : FanoutMeta := { m with nodesQueried := m.nodesQueried + 1 }

def absorb (m child : FanoutMeta) : FanoutMeta :=
  { m with
    nodesQueried := m.nodesQueried + child.nodesQueried
    nodesFailed := m.nodesFailed ++ child.nodesFailed
    peerBatchesDropped := m.peerBatchesDropped + child.peerBatchesDropped
    partialResult := m.partialResult || child.partialResult }

def recordPeerFailure (m : FanoutMeta) (addr error : String) : FanoutMeta :=
  { m with
    nodesQueried := m.nodesQueried + 1
    nodesFailed := m.nodesFailed ++ [addr ++ ": " ++ error] }

def incomplete (m : FanoutMeta) : Bool :=
  m.partialResult || !m.nodesFailed.isEmpty || 0 < m.peerBatchesDropped

def finalize (m : FanoutMeta) : FanoutMeta := { m with partialResult := m.incomplete }

/-- The quality that `peer_query_outcome` hands to a scan. -/
def stats (m : FanoutMeta) : QueryQuality :=
  ⟨m.nodesQueried - m.nodesFailed.length, m.nodesFailed, m.peerBatchesDropped, m.partialResult⟩

end FanoutMeta

structure QueryOutcome where
  nodes : List Node
  quality : QueryQuality

/-- The parts of a fan-out, each of them the nodes of one evaluation. -/
structure FanoutOutcome where
  parts : List (List Node)
  info : FanoutMeta

def FanoutOutcome.nodes (o : FanoutOutcome) : List Node := o.parts.flatten

@[simp] theorem FanoutOutcome.nodes_mk (parts : List (List Node)) (info : FanoutMeta) :
    (FanoutOutcome.mk parts info).nodes = parts.flatten := rfl

@[simp] theorem FanoutOutcome.flatten_parts (o : FanoutOutcome) : o.parts.flatten = o.nodes := rfl

def finishFanout (o : FanoutOutcome) : FanoutOutcome := { o with info := o.info.finalize }

@[simp] theorem finishFanout_parts (o : FanoutOutcome) : (finishFanout o).parts = o.parts := rfl

@[simp] theorem finishFanout_nodes (o : FanoutOutcome) : (finishFanout o).nodes = o.nodes := rfl

/-- A request: a remote table scan or the pushdown of an aggregate, a statement for one
rank, or one for a node tier. -/
inductive Hop
  | scan (target : FederatedScanTarget) (converted : Bool)
  | leaf (node : Node)
  | aggregator (node : Node)
  deriving DecidableEq

def Hop.peer : Hop → Node
  | .scan target _ => target.node
  | .leaf node => node
  | .aggregator node => node

/-- What goes wrong with a request; the frame of a scan may be converted, and is dropped
if that fails. -/
inductive Fault
  | none
  | fails
  | drops
  deriving DecidableEq

structure Behaviour where
  fault : List Hop → Fault
  error : List Hop → String

namespace Behaviour

/-- The behaviour that the peer of a request meets. -/
def after (B : Behaviour) (hop : Hop) : Behaviour :=
  ⟨fun path => B.fault (hop :: path), fun path => B.error (hop :: path)⟩

/-- Everybody answers. -/
def answering : Behaviour := ⟨fun _ => .none, fun _ => ""⟩

end Behaviour

/-- The status of `/query` and of `/apis/cluster/query`. -/
def responseStatus (flagged : Bool) : ℕ := if flagged then 503 else 200

def parseLeafResponse (status : ℕ) (nodes : List Node) : Option (List Node) :=
  if status ≥ 400 then if status = 503 then some nodes else none else some nodes

def parseNodeResponse (status : ℕ) (outcome : FanoutOutcome) : Option FanoutOutcome :=
  if status ≥ 400 then if status = 503 then some outcome else none else some outcome

structure FanoutPlan where
  hierarchicalRequested : Bool
  scope : ClusterFanoutScope

def Env.resolveScope (env : Env) (requested : ClusterFanoutScope) (hierarchical : Bool) :
    ClusterFanoutScope :=
  match requested with
  | .Auto =>
      if hierarchical && env.isLocal0 then .Coordinator
      else if hierarchical then .Local
      else if env.isLocal0 then .Coordinator
      else .Local
  | explicit => explicit

/-- The local evaluation of a statement at a process within a scope. -/
abbrev Evaluation := Behaviour → FanoutScope → Node → Option QueryOutcome

namespace Deployment

variable (D : Deployment)

/-- `none` is the error of missing hierarchy metadata. -/
def planFanout (node : Node) (hierarchical : Bool) (requested : ClusterFanoutScope) :
    Option FanoutPlan :=
  let hierarchicalRequested := hierarchical && D.hierarchical node
  let scope := (D.env node).resolveScope requested hierarchicalRequested
  if hierarchicalRequested && (D.env node).isLocal0 && (scope = .Coordinator || scope = .Node) &&
      !hierarchicalMetadataAvailable D.cluster then none
  else some ⟨hierarchicalRequested, scope⟩

def peersForScope (node : Node) : FanoutScope → List Node
  | .Coordinator => (D.env node).nodeAggregatorPeers D.cluster
  | .Node => (D.env node).localLeafPeers D.cluster
  | .Flat | .Auto => (D.env node).remotePeersExcludingLocal D.cluster
  | .Local => []

section Tier

variable (evaluate : Evaluation) (B : Behaviour)

/-- The reply of `/query` as `query_leaf` reads it; its quality is not read. -/
def queryLeaf (node : Node) : Option (List Node) :=
  if B.fault [.leaf node] = .fails then none
  else (evaluate (B.after (.leaf node)) .Auto node).bind fun o =>
    parseLeafResponse (responseStatus o.quality.isPartial) o.nodes

/-- One reply in the loop over `query_leaf_peers`. -/
def mergeLeaf (acc : FanoutOutcome) (node : Node) : FanoutOutcome :=
  match queryLeaf evaluate B node with
  | some nodes => ⟨acc.parts ++ [nodes], acc.info.recordPeerSuccess⟩
  | none => ⟨acc.parts, acc.info.recordPeerFailure node.addr (B.error [.leaf node])⟩

/-- `none` where the local evaluation fails. -/
def fanoutNodeTier (node : Node) (hierarchical : Bool) : Option FanoutOutcome :=
  if (D.env node).isLocal0 then
    (evaluate B .Node node).map fun own =>
      let leaves := (D.env node).localLeafPeers D.cluster
      let info :=
        { FanoutMeta.alone true hierarchical .Node with localRanksQueried := leaves.length }
      finishFanout (leaves.foldl (mergeLeaf evaluate B) ⟨[own.nodes], info⟩)
  else
    (evaluate B .Auto node).map fun own =>
      finishFanout ⟨[own.nodes], .alone true hierarchical .Local⟩

/-- What a peer does for `/apis/cluster/query` with the scope `node`, which is explicit. -/
def serveNode (node : Node) : Option FanoutOutcome :=
  (D.planFanout node true .Node).bind fun _ => D.fanoutNodeTier evaluate B node true

def queryNode (node : Node) : Option FanoutOutcome :=
  if B.fault [.aggregator node] = .fails then none
  else (D.serveNode evaluate (B.after (.aggregator node)) node).bind fun o =>
    parseNodeResponse (responseStatus o.info.partialResult) o

/-- One reply in the loop over `query_node_peers`. -/
def mergeNode (acc : FanoutOutcome) (node : Node) : FanoutOutcome :=
  match D.queryNode evaluate B node with
  | some o => ⟨acc.parts ++ o.parts, acc.info.absorb o.info⟩
  | none => ⟨acc.parts, acc.info.recordPeerFailure node.addr (B.error [.aggregator node])⟩

end Tier

/-- A statement over `probe` tables reads the tables of the process. -/
def evaluateProbe : Evaluation := fun _ _ node => some ⟨[node], .default⟩

section Scan

variable (B : Behaviour) (converted : Bool)

/-- The reply to a remote scan, which names its table through `probe`. -/
def queryPeer (target : FederatedScanTarget) : Option QueryOutcome :=
  match target.scope with
  | .Coordinator =>
      (D.serveNode evaluateProbe (B.after (.scan target converted)) target.node).bind fun o =>
        (parseNodeResponse (responseStatus o.info.partialResult) o).map fun o =>
          ⟨o.nodes, o.info.stats⟩
  | _ => some ⟨[target.node], { QueryQuality.default with nodesSucceeded := 1 }⟩

def scanReply (target : FederatedScanTarget) : PeerReply :=
  match B.fault [.scan target converted], D.queryPeer B converted target with
  | .fails, _ => .failed
  | _, none => .failed
  | .none, some o => .answered o.quality true
  | .drops, some o => .answered o.quality false

/-- The frames of a pushdown without a merge query are not converted. -/
def converts (pushdown : Option Bool) : Bool := pushdown ≠ some false

def globalFanout (replies : FederatedScanTarget → PeerReply) (pushdown : Option Bool)
    (scope : FanoutScope) (node : Node) : Except FanoutError FanoutResult :=
  match pushdown with
  | none => fanoutScan replies (D.env node) D.cluster false scope
  | some merges => aggregatePushdown replies (D.env node) D.cluster false merges scope

/-- A statement over `global` tables also scans the tables of the targets. -/
def evaluateGlobal (pushdown : Option Bool) : Evaluation := fun B scope node =>
  match D.globalFanout (D.scanReply B (converts pushdown)) pushdown scope node with
  | .error _ => none
  | .ok result => some ⟨node :: result.merged.flatMap fun target =>
      ((D.queryPeer B (converts pushdown) target).map QueryOutcome.nodes).getD [], result.quality⟩

end Scan

def evaluate (pushdown : Option Bool) : Catalog → Evaluation
  | .probe => evaluateProbe
  | .global => D.evaluateGlobal pushdown

section Query

variable (B : Behaviour)

/-- The answer of `query_local_df`, which has no quality. -/
def queryLocal (statement : Statement) (scope : FanoutScope) (node : Node) (info : FanoutMeta) :
    Option FanoutOutcome :=
  (D.evaluate statement.pushdown statement.catalog B scope node).map fun own => ⟨[own.nodes], info⟩

/-- The account of the coordinator before its aggregators reply. -/
def coordinatorInfo (own : FanoutMeta) (aggregators : ℕ) : FanoutMeta :=
  let info := { FanoutMeta.empty true true .Coordinator with
    localRanksQueried := own.localRanksQueried }
  { info.absorb own with nodeAggregatorsQueried := aggregators }

def broadcastFromCoordinator (statement : Statement) (node : Node) : Option FanoutOutcome :=
  (D.fanoutNodeTier (D.evaluate statement.pushdown statement.catalog) B node true).map fun own =>
    let aggregators := (D.env node).nodeAggregatorPeers D.cluster
    finishFanout
      (aggregators.foldl (D.mergeNode (D.evaluate statement.pushdown statement.catalog) B)
      ⟨own.parts, coordinatorInfo own.info aggregators.length⟩)

/-- The account of any other process before its peers reply. -/
def rankInfo (scope : FanoutScope) (peers : ℕ) : FanoutMeta :=
  { FanoutMeta.alone true (scope ≠ .Flat) .Local with
    scope := scope.asStr
    nodeAggregatorsQueried := if scope = .Coordinator then peers else 0
    localRanksQueried := if scope = .Node then peers else 0 }

def broadcastFromCurrentRank (statement : Statement) (node : Node) (scope : FanoutScope) :
    Option FanoutOutcome :=
  let peers := D.peersForScope node scope
  (D.queryLocal B statement .Local node (rankInfo scope peers.length)).map fun own =>
    if scope = .Coordinator then
      finishFanout
        (peers.foldl (D.mergeNode (D.evaluate statement.pushdown statement.catalog) B) own)
    else finishFanout
      (peers.foldl (mergeLeaf (D.evaluate statement.pushdown statement.catalog) B) own)

def broadcastFanoutQuery (statement : Statement) (node : Node) (scope : FanoutScope) :
    Option FanoutOutcome :=
  if scope = .Coordinator && (D.env node).isLocal0 then D.broadcastFromCoordinator B statement node
  else D.broadcastFromCurrentRank B statement node scope

def fanoutViaGlobalCatalog (statement : Statement) (node : Node) (scope : FanoutScope) :
    Option FanoutOutcome :=
  (D.evaluate statement.pushdown (rewriteSqlForGlobalFanout statement).catalog B scope node).map
      fun o =>
    let stats := o.quality
    let nodesQueried := 1 + stats.nodesSucceeded + stats.nodesFailed.length
    finishFanout ⟨[o.nodes], {
      cluster := true
      hierarchical := scope ≠ .Flat
      scope := scope.asStr
      nodesQueried := nodesQueried
      nodesFailed := stats.nodesFailed
      peerBatchesDropped := stats.peerBatchesDropped
      nodeAggregatorsQueried := if scope = .Coordinator then nodesQueried - 1 else 0
      localRanksQueried := if scope = .Node then nodesQueried - 1 else 0
      partialResult := stats.partialResult }⟩

def fanoutFlat (statement : Statement) (node : Node) : Option FanoutOutcome :=
  if statement.singleRelation then D.fanoutViaGlobalCatalog B statement node .Flat
  else D.broadcastFanoutQuery B statement node .Flat

def fanoutCoordinatorTier (statement : Statement) (node : Node) (hierarchicalRequested : Bool) :
    Option FanoutOutcome :=
  if hierarchicalRequested then D.broadcastFanoutQuery B statement node .Coordinator
  else D.fanoutFlat B statement node

/-- `none` is an error. The ambient scope is `Auto`. -/
def fanoutQuery (statement : Statement) (node : Node) (cluster hierarchical : Bool)
    (requested : ClusterFanoutScope) : Option FanoutOutcome :=
  if cluster then
    (D.planFanout node hierarchical requested).bind fun plan =>
      match plan.scope with
      | .Node =>
          D.fanoutNodeTier (D.evaluate statement.pushdown statement.catalog) B node hierarchical
      | .Coordinator => D.fanoutCoordinatorTier B statement node plan.hierarchicalRequested
      | _ =>
          (D.queryLocal B statement .Auto node (.alone true hierarchical .Local)).map finishFanout
  else D.queryLocal B statement .Auto node (.alone false hierarchical .Local)

end Query

end Deployment

end Probing.Federation
