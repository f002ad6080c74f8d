import Mathlib.Data.List.Flatten
import Probing.Core.Limit
import Probing.Federation.RouteRefinement

/-!
# What a broadcast fetches

In a cluster with complete hierarchy metadata whose processes all answer, a broadcast
fetches the rows of every rank, and of some ranks more than once: of the initiating
rank if it is not a local rank 0, and of every leaf if the statement names `global`
tables, since the local evaluation of each aggregator scans its leaves too. Rows are
lost where an evaluation or a remote scan has more of them than the limit that its
process appends.
-/

namespace Probing.Federation

open Probing.Core (Limit)
open Probing.Registry

/-- The statement of a remote scan. -/
def buildRemoteTableSql (schemaName tableName : String) : Statement :=
  ⟨[["probe", schemaName, tableName]], true, none⟩

/-- A table and a statement over it. A process scans its rows for itself and for others, the
statement selects from the rows of a scan, and each process appends a limit of its own. -/
structure Tables (σ ρ : Type*) where
  schemaName : String
  tableName : String
  scanned : Node → List σ
  select : σ → Option ρ
  globalScanMaxRows : Node → ℕ
  scanLimit : ∀ node, Limit σ (globalScanMaxRows node)
  limit : ∀ node, Limit ρ (globalScanMaxRows node)

theorem rewriteRelationToGlobal_idem (relation : List String) :
    rewriteRelationToGlobal (rewriteRelationToGlobal relation) =
      rewriteRelationToGlobal relation := by
  unfold rewriteRelationToGlobal
  have hglobal (parts : List String) : firstIdentEq ("global" :: parts) "global" = true := by
    simp [firstIdentEq, eqIgnoreAsciiCase]
  split_ifs with hown hprobe hknown <;> simp_all

/-- The statement that a coordinator rewrites is limited as the rewritten one. -/
theorem ensureGlobalScanLimit_rewrite (statement : Statement) (n : ℕ) :
    ensureGlobalScanLimit (rewriteSqlForGlobalFanout statement) n =
      ensureGlobalScanLimit statement n := by
  have hidem : rewriteSqlForGlobalFanout (rewriteSqlForGlobalFanout statement) =
      rewriteSqlForGlobalFanout statement := by
    unfold rewriteSqlForGlobalFanout
    dsimp only
    rw [List.map_map]
    congr 1
    exact List.map_congr_left fun relation _ => rewriteRelationToGlobal_idem relation
  unfold ensureGlobalScanLimit Statement.federatedPath
  rw [hidem]
  rfl

/-- The rows that are left of the result of a statement. -/
def limited {α : Type*} {n : ℕ} (statement : Statement) (L : Limit α n) (rows : List α) : List α :=
  match ensureGlobalScanLimit statement n with
  | some _ => L.cut rows
  | none => rows

namespace Tables

variable {σ ρ : Type*} (T : Tables σ ρ)

/-- The result of the process over its own table. -/
def own (node : Node) : List ρ := (T.scanned node).filterMap T.select

/-- The reply of the process to a remote scan. -/
def served (node : Node) : List σ :=
  limited (buildRemoteTableSql T.schemaName T.tableName) (T.scanLimit node) (T.scanned node)

/-- The result of an evaluation with the given nodes: of the rows of the first one and of those it
scanned from the others. -/
def evaluated (statement : Statement) : List Node → List ρ
  | [] => []
  | node :: others => limited statement (T.limit node)
      ((T.scanned node ++ others.flatMap T.served).filterMap T.select)

/-- The rows of a fan-out. A rewritten statement has the limit of the statement. -/
def rows (statement : Statement) (o : FanoutOutcome) : List ρ :=
  o.parts.flatMap (T.evaluated statement)

/-- A remote scan of the process loses no row that the statement selects. -/
def Lossless (node : Node) : Prop := ((T.served node).filterMap T.select).Perm (T.own node)

section Rules

variable {T : Tables σ ρ} {statement : Statement}

theorem limited_perm_iff {α : Type*} {n : ℕ} (L : Limit α n) {rows all : List α}
    (h : rows.Subperm all) : (limited statement L rows).Perm all ↔
      rows.Perm all ∧ ∀ m ∈ ensureGlobalScanLimit statement n, all.length ≤ m := by
  unfold limited ensureGlobalScanLimit
  cases statement.federatedPath with
  | Local | Broadcast => simp
  | AggregatePushdown | FederatedScan => simpa using L.cut_perm_of_subperm h

theorem limited_subperm {α : Type*} {n : ℕ} (L : Limit α n) (rows : List α) :
    (limited statement L rows).Subperm rows := by
  unfold limited ensureGlobalScanLimit
  cases statement.federatedPath with
  | Local | Broadcast => exact List.Subperm.refl rows
  | AggregatePushdown | FederatedScan => exact L.subperm rows

variable (T) in
theorem served_subperm (node : Node) :
    ((T.served node).filterMap T.select).Subperm (T.own node) :=
  Core.Subperm.filterMap T.select (limited_subperm _ _)

/-- The rows that the statement selects at the first node of an evaluation. -/
theorem selected_eq (node : Node) (others : List Node) :
    (T.scanned node ++ others.flatMap T.served).filterMap T.select =
      T.own node ++ others.flatMap fun other => (T.served other).filterMap T.select := by
  rw [List.filterMap_append, List.filterMap_flatMap]
  rfl

theorem selected_subperm (node : Node) (others : List Node) :
    ((T.scanned node ++ others.flatMap T.served).filterMap T.select).Subperm
      ((node :: others).flatMap T.own) := by
  rw [selected_eq, List.flatMap_cons]
  exact (List.Subperm.refl _).append (Core.Subperm.flatMap fun other _ => T.served_subperm other)

theorem evaluated_subperm (part : List Node) :
    (T.evaluated statement part).Subperm (part.flatMap T.own) := by
  cases part with
  | nil => exact List.Subperm.refl _
  | cons node others => exact (limited_subperm _ _).trans (selected_subperm node others)

/-- An evaluation has the rows of all its nodes exactly if the remote scans lose none that is
selected and all together are within the limit. -/
theorem evaluated_perm_iff (node : Node) (others : List Node) :
    (T.evaluated statement (node :: others)).Perm ((node :: others).flatMap T.own) ↔
      (∀ other ∈ others, T.Lossless other) ∧
        ∀ n ∈ ensureGlobalScanLimit statement (T.globalScanMaxRows node),
          ((node :: others).flatMap T.own).length ≤ n := by
  unfold evaluated
  rw [limited_perm_iff _ (selected_subperm node others), selected_eq, List.flatMap_cons,
    Core.append_perm_iff (List.Subperm.refl _) (Core.Subperm.flatMap fun other _ =>
      T.served_subperm other), Core.flatMap_perm_iff fun other _ => T.served_subperm other]
  simp only [List.Perm.refl, true_and]
  rfl

theorem nodes_flatMap (o : FanoutOutcome) (own : Node → List ρ) :
    o.nodes.flatMap own = o.parts.flatMap fun part => part.flatMap own := by
  unfold FanoutOutcome.nodes
  rw [← List.flatMap_id, List.flatMap_assoc]
  rfl

theorem rows_perm_iff (o : FanoutOutcome) : (T.rows statement o).Perm (o.nodes.flatMap T.own) ↔
    ∀ part ∈ o.parts, (T.evaluated statement part).Perm (part.flatMap T.own) := by
  rw [nodes_flatMap]
  exact Core.flatMap_perm_iff fun part _ => evaluated_subperm part

/-- Rows are all rows through their nodes: if the nodes are right then exactly if the parts are
whole, and if the parts are whole then exactly if the nodes are right. -/
theorem rows_through_nodes (T : Tables σ ρ) (statement : Statement) (o : FanoutOutcome)
    (all : List ρ) :
    ((o.nodes.flatMap T.own).Perm all → ((T.rows statement o).Perm all ↔
      ∀ part ∈ o.parts, (T.evaluated statement part).Perm (part.flatMap T.own))) ∧
    ((∀ part ∈ o.parts, (T.evaluated statement part).Perm (part.flatMap T.own)) →
      ((T.rows statement o).Perm all ↔ (o.nodes.flatMap T.own).Perm all)) := by
  constructor
  · intro hnodes
    rw [← T.rows_perm_iff]
    exact ⟨fun hrows => hrows.trans hnodes.symm, fun hrows => hrows.trans hnodes⟩
  · intro hwhole
    have hrows := (T.rows_perm_iff o).mpr hwhole
    exact ⟨fun h => hrows.symm.trans h, fun h => hrows.trans h⟩

end Rules

end Tables

namespace Deployment

/-- Every process is alive, knows its place, listens on addresses of its own, and every
group has one local rank 0. -/
structure Complete (D : Deployment) : Prop where
  alive : ∀ node ∈ D.cluster.list, isNodeAlive node
  placed : ∀ node ∈ D.cluster.list, node.groupRank.isSome ∧ node.localRank.isSome
  foreign : ∀ a ∈ D.cluster.list, ∀ b ∈ D.cluster.list, a ≠ b → (D.env a).foreign b
  local0 : ∀ node ∈ D.cluster.list, ∃ a ∈ D.cluster.list,
    a.localRank = some 0 ∧ a.groupRank = node.groupRank
  unique : ∀ a ∈ D.cluster.list, ∀ b ∈ D.cluster.list, a.localRank = some 0 →
    b.localRank = some 0 → a.groupRank = b.groupRank → a = b

/-- A broadcast that is not hierarchical scans the tables of everybody if it can name
them globally. A hierarchical one starts at a local rank 0 or at a rank without rows,
and the statement names `probe` tables or no leaf has rows and none answers with
everybody's. -/
def Exact {ρ : Type*} (D : Deployment) (statement : Statement) (hierarchical : Bool)
    (own : Node → List ρ) : Prop :=
  if hierarchical && D.hierarchical D.coordinator then
    (D.coordinator.localRank = some 0 ∨ own D.coordinator = []) ∧
      (statement.catalog = .probe ∨ ∀ leaf ∈ D.cluster.list, leaf.localRank ≠ some 0 →
        own leaf = [] ∧ (D.hierarchical leaf = true ∨ ∀ node ∈ D.cluster.list, own node = []))
  else (rewriteSqlForGlobalFanout statement).catalog = .global ∨
    ∀ node ∈ D.cluster.list, node ≠ D.coordinator → own node = []

/-- No limit cuts the rows of a broadcast that fetches everybody's once: those of any process in a
hierarchical one, those of all together at the initiating process and in no remote scan
otherwise. -/
def Uncut {σ ρ : Type*} (D : Deployment) (statement : Statement) (hierarchical : Bool)
    (T : Tables σ ρ) : Prop :=
  if hierarchical && D.hierarchical D.coordinator then
    ∀ node ∈ D.cluster.list,
      ∀ n ∈ ensureGlobalScanLimit statement (T.globalScanMaxRows node), (T.own node).length ≤ n
  else
    ∀ n ∈ ensureGlobalScanLimit statement (T.globalScanMaxRows D.coordinator),
      (D.cluster.list.flatMap T.own).length ≤ n ∧
        ∀ node ∈ D.cluster.list, node ≠ D.coordinator → T.Lossless node

/-- No limit cuts anything, wherever the rows of everybody are fetched to. -/
def Roomy {σ ρ : Type*} (D : Deployment) (statement : Statement) (T : Tables σ ρ) : Prop :=
  ∀ node ∈ D.cluster.list,
    ∀ n ∈ ensureGlobalScanLimit statement (T.globalScanMaxRows node),
      (D.cluster.list.flatMap T.own).length ≤ n ∧ T.Lossless node

variable {D : Deployment} {a l node : Node}

theorem list_nodup (D : Deployment) : D.cluster.list.Nodup :=
  (List.perm_insertionSort nodeLe D.cluster.list).nodup_iff.mp (getNodes_nodup D.indexed)

section Places

variable (h : D.Complete)

include h

theorem Complete.metadata : hierarchicalMetadataAvailable D.cluster = true := by
  unfold hierarchicalMetadataAvailable
  simp only [Bool.and_eq_true, Bool.not_eq_true', List.isEmpty_eq_false_iff_exists_mem,
    List.all_eq_true, List.mem_filter, mem_getNodes]
  constructor
  · exact ⟨D.coordinator, D.registered, h.alive _ D.registered⟩
  · rintro node ⟨hmem, -⟩
    exact h.placed node hmem

theorem Complete.isLocal0_iff (ha : a ∈ D.cluster.list) :
    (D.env a).isLocal0 = true ↔ a.localRank = some 0 := by
  obtain ⟨r, hr⟩ := Option.isSome_iff_exists.mp (h.placed a ha).2
  simp [Env.isLocal0, env, hr]

theorem Complete.ownGroup (ha : a ∈ D.cluster.list) :
    (D.env a).ownGroup D.cluster = a.groupRank := by
  obtain ⟨g, hg⟩ := Option.isSome_iff_exists.mp (h.placed a ha).1
  rw [ownGroup_of_some hg, hg]

theorem Complete.mem_leaves_iff (ha : a ∈ D.cluster.list) :
    l ∈ (D.env a).localLeafPeers D.cluster ↔
      l ∈ D.cluster.list ∧ l ≠ a ∧ l.groupRank = a.groupRank := by
  rw [mem_leaves ha, h.ownGroup ha]
  constructor
  · rintro ⟨hmem, -, hforeign, -, hgroup⟩
    exact ⟨hmem, ne_of_foreign hforeign, hgroup⟩
  · rintro ⟨hmem, hne, hgroup⟩
    exact ⟨hmem, h.alive l hmem, h.foreign a ha l hmem hne.symm, (h.placed l hmem).1, hgroup⟩

theorem Complete.leaf_not_local0 (ha : a ∈ D.cluster.list) (hlocal : a.localRank = some 0)
    (hl : l ∈ (D.env a).localLeafPeers D.cluster) : l.localRank ≠ some 0 := by
  obtain ⟨hmem, hne, hgroup⟩ := (h.mem_leaves_iff ha).mp hl
  intro hzero
  exact hne (h.unique l hmem a ha hzero hlocal hgroup)

theorem Complete.mem_remote_peers_iff (ha : a ∈ D.cluster.list) :
    node ∈ (D.env a).remotePeersExcludingLocal D.cluster ↔ node ∈ D.cluster.list ∧ node ≠ a := by
  rw [mem_remote_peers]
  constructor
  · rintro ⟨hmem, -, hforeign⟩
    exact ⟨hmem, ne_of_foreign hforeign⟩
  · rintro ⟨hmem, hne⟩
    exact ⟨hmem, h.alive node hmem, h.foreign a ha node hmem hne.symm⟩

/-- Everybody else, and the process itself. -/
theorem Complete.remote_peers_perm (ha : a ∈ D.cluster.list) :
    (a :: (D.env a).remotePeersExcludingLocal D.cluster).Perm D.cluster.list := by
  have hnodup : (a :: (D.env a).remotePeersExcludingLocal D.cluster).Nodup := by
    rw [List.nodup_cons]
    refine ⟨?_, (getNodes_nodup D.indexed).filter _⟩
    intro hself
    exact ((h.mem_remote_peers_iff ha).mp hself).2 rfl
  rw [List.perm_ext_iff_of_nodup hnodup D.list_nodup]
  intro node
  rw [List.mem_cons, h.mem_remote_peers_iff ha]
  constructor
  · rintro (rfl | ⟨hmem, -⟩)
    · exact ha
    · exact hmem
  · intro hmem
    by_cases hself : node = a
    · exact Or.inl hself
    · exact Or.inr ⟨hmem, hself⟩

/-- The aggregators are the local ranks 0 of the others. -/
theorem Complete.mem_aggregators_iff : a ∈ (D.env D.coordinator).nodeAggregatorPeers D.cluster ↔
    a ∈ D.cluster.list ∧ a.localRank = some 0 ∧ a ≠ D.coordinator := by
  rw [mem_nodeAggregatorPeers]
  constructor
  · rintro ⟨g, hg⟩
    obtain ⟨hmem, -, hlocal, hforeign, -⟩ := aggregator_spec hg
    exact ⟨hmem, hlocal, ne_of_foreign hforeign⟩
  · rintro ⟨hmem, hlocal, hne⟩
    obtain ⟨g, hg⟩ := Option.isSome_iff_exists.mp (h.placed a hmem).1
    have hchosen : (D.env D.coordinator).aggregator D.cluster g ≠ none := by
      intro hnone
      exact aggregator_eq_none.mp hnone a hmem (h.alive a hmem) hg
        (h.foreign _ D.registered a hmem hne.symm) hlocal
    obtain ⟨b, hb⟩ := Option.ne_none_iff_exists'.mp hchosen
    obtain ⟨hbmem, -, hblocal, -, hbgroup⟩ := aggregator_spec hb
    obtain rfl := h.unique b hbmem a hmem hblocal hlocal (hbgroup.trans hg.symm)
    exact ⟨g, hb⟩

theorem Complete.mem_remote_iff : node ∈ D.remote ↔ node ∈ D.cluster.list ∧ ∃ a ∈ D.cluster.list,
    a.localRank = some 0 ∧ a ≠ D.coordinator ∧ a.groupRank = node.groupRank := by
  unfold remote
  simp only [List.mem_flatMap, h.mem_aggregators_iff, List.mem_cons]
  constructor
  · rintro ⟨a, ⟨hmem, hlocal, hne⟩, rfl | hleaf⟩
    · exact ⟨hmem, node, hmem, hlocal, hne, rfl⟩
    · obtain ⟨hnode, -, hgroup⟩ := (h.mem_leaves_iff hmem).mp hleaf
      exact ⟨hnode, a, hmem, hlocal, hne, hgroup.symm⟩
  · rintro ⟨hnode, a, hmem, hlocal, hne, hgroup⟩
    refine ⟨a, ⟨hmem, hlocal, hne⟩, ?_⟩
    by_cases hself : node = a
    · exact Or.inl hself
    · exact Or.inr ((h.mem_leaves_iff hmem).mpr ⟨hnode, hself, hgroup.symm⟩)

/-- From a rank that is no local rank 0 the aggregators serve everybody. -/
theorem Complete.remote_perm (hlocal : D.coordinator.localRank ≠ some 0) :
    D.remote.Perm D.cluster.list := by
  rw [List.perm_ext_iff_of_nodup D.remote_nodup D.list_nodup]
  intro node
  rw [h.mem_remote_iff]
  constructor
  · exact fun hnode => hnode.1
  · intro hnode
    obtain ⟨a, ha, hzero, hgroup⟩ := h.local0 node hnode
    refine ⟨hnode, a, ha, hzero, ?_, hgroup⟩
    rintro rfl
    exact hlocal hzero

/-- From a local rank 0 its group and the other aggregators serve everybody. -/
theorem Complete.tier_remote_perm (hlocal : D.coordinator.localRank = some 0) :
    (D.coordinator :: ((D.env D.coordinator).localLeafPeers D.cluster ++ D.remote)).Perm
      D.cluster.list := by
  have hnodup :
      (D.coordinator :: ((D.env D.coordinator).localLeafPeers D.cluster ++ D.remote)).Nodup := by
    rw [List.nodup_cons, List.mem_append, List.nodup_append']
    refine ⟨?_, localLeafPeers_nodup D.indexed, D.remote_nodup, ?_⟩
    · rintro (hleaf | hremote)
      · exact ((h.mem_leaves_iff D.registered).mp hleaf).2.1 rfl
      · obtain ⟨-, a, ha, hzero, hne, hgroup⟩ := h.mem_remote_iff.mp hremote
        exact hne (h.unique a ha _ D.registered hzero hlocal hgroup)
    · intro node hleaf hremote
      obtain ⟨-, -, hown⟩ := (h.mem_leaves_iff D.registered).mp hleaf
      obtain ⟨-, a, ha, hzero, hne, hgroup⟩ := h.mem_remote_iff.mp hremote
      exact hne (h.unique a ha _ D.registered hzero hlocal (hgroup.trans hown))
  rw [List.perm_ext_iff_of_nodup hnodup D.list_nodup]
  intro node
  rw [List.mem_cons, List.mem_append, h.mem_leaves_iff D.registered, h.mem_remote_iff]
  constructor
  · rintro (rfl | ⟨hnode, -⟩ | ⟨hnode, -⟩)
    · exact D.registered
    · exact hnode
    · exact hnode
  · intro hnode
    by_cases hself : node = D.coordinator
    · exact Or.inl hself
    · right
      by_cases hgroup : node.groupRank = D.coordinator.groupRank
      · exact Or.inl ⟨hnode, hself, hgroup⟩
      · obtain ⟨a, ha, hzero, hagroup⟩ := h.local0 node hnode
        refine Or.inr ⟨hnode, a, ha, hzero, ?_, hagroup⟩
        rintro rfl
        exact hgroup hagroup.symm

end Places

section Fetched

/-- The nodes whose rows are fetched when everybody answers. -/
def fetched (routes : List Route) : List Node := arrived .answering routes

@[simp] theorem fetched_nil : fetched [] = [] := rfl

@[simp] theorem fetched_append (routes routes' : List Route) :
    fetched (routes ++ routes') = fetched routes ++ fetched routes' := arrived_append

theorem fetched_request (hop : Hop) (keeps : Bool) (routes : List Route) :
    fetched (request hop keeps (some routes)) = hop.peer :: fetched routes :=
  arrived_request keeps

/-- What a leaf fetches beyond its own rows. -/
def leafExtra (D : Deployment) (catalog : Catalog) (leaf : Node) : List Node :=
  match catalog with
  | .probe => []
  | .global => if D.hierarchical leaf then [] else (D.env leaf).remotePeersExcludingLocal D.cluster

/-- What the local evaluation at a local rank 0 scans. -/
def tierScans (D : Deployment) (catalog : Catalog) (node : Node) : List Node :=
  match catalog with
  | .probe => []
  | .global => (D.env node).localLeafPeers D.cluster

/-- What a node tier fetches beyond the rows of its group. -/
def tierExtra (D : Deployment) (catalog : Catalog) (node : Node) : List Node :=
  D.tierScans catalog node ++
    ((D.env node).localLeafPeers D.cluster).flatMap (D.leafExtra catalog)

/-- The evaluations of a node tier: at its local rank 0 and at its leaves. -/
def tierParts (D : Deployment) (catalog : Catalog) (node : Node) : List (List Node) :=
  (node :: D.tierScans catalog node) ::
    ((D.env node).localLeafPeers D.cluster).map fun leaf => leaf :: D.leafExtra catalog leaf

/-- The parts of a hierarchical broadcast, and what it fetches beyond the rows of everybody. -/
def hierarchicalParts (D : Deployment) (catalog : Catalog) : List (List Node) :=
  let aggregators := (D.env D.coordinator).nodeAggregatorPeers D.cluster
  (if D.coordinator.localRank = some 0 then D.tierParts catalog D.coordinator
    else [[D.coordinator]]) ++ aggregators.flatMap (D.tierParts catalog)

def hierarchicalExtra (D : Deployment) (catalog : Catalog) : List Node :=
  let aggregators := (D.env D.coordinator).nodeAggregatorPeers D.cluster
  (if D.coordinator.localRank = some 0 then D.tierExtra catalog D.coordinator
    else [D.coordinator]) ++ aggregators.flatMap (D.tierExtra catalog)

theorem tierParts_perm (D : Deployment) (catalog : Catalog) (a : Node) :
    (D.tierParts catalog a).flatten.Perm
      ((a :: (D.env a).localLeafPeers D.cluster) ++ D.tierExtra catalog a) := by
  have hsplit : ((D.env a).localLeafPeers D.cluster ++
      ((D.env a).localLeafPeers D.cluster).flatMap (D.leafExtra catalog)).Perm
      (((D.env a).localLeafPeers D.cluster).flatMap fun l => l :: D.leafExtra catalog l) := by
    simpa using List.map_append_flatMap_perm ((D.env a).localLeafPeers D.cluster) id
      (D.leafExtra catalog)
  unfold tierParts tierExtra
  rw [List.flatten_cons, ← List.flatMap_def, List.cons_append, List.cons_append]
  apply List.Perm.cons
  refine (hsplit.symm.append_left _).trans ?_
  exact List.perm_append_comm_assoc _ _ _

theorem tiers_parts_perm (D : Deployment) (catalog : Catalog) (peers : List Node) :
    (peers.flatMap (D.tierParts catalog)).flatten.Perm
      ((peers.flatMap fun a => a :: (D.env a).localLeafPeers D.cluster) ++
        peers.flatMap (D.tierExtra catalog)) := by
  induction peers with
  | nil => exact List.Perm.refl _
  | cons a peers ih =>
      rw [List.flatMap_cons, List.flatMap_cons, List.flatMap_cons, List.flatten_append]
      refine ((D.tierParts_perm catalog a).append ih).trans ?_
      rw [List.append_assoc, List.append_assoc]
      exact (List.perm_append_comm_assoc _ _ _).append_left _

/-- Scans of leaves and of everybody ask for the rows of the target only. -/
theorem fetched_targets {scope : FanoutScope} (hscope : scope ≠ .Coordinator) (peers : List Node) :
    fetched ((peers.map (⟨·, scope⟩)).flatMap fun target : FederatedScanTarget =>
      request (.scan target true) true (D.targetRoutes target)) = peers := by
  induction peers with
  | nil => rfl
  | cons node peers ih =>
      have hone : D.targetRoutes ⟨node, scope⟩ = some [] := by
        cases scope with
        | Coordinator => exact absurd rfl hscope
        | Auto | Flat | Node | Local => rfl
      rw [List.map_cons, List.flatMap_cons, fetched_append, ih, hone, fetched_request]
      rfl

theorem fetched_flat (D : Deployment) (node : Node) :
    ∃ routes, D.globalRoutes none .Flat node = some routes ∧
      fetched routes = (D.env node).remotePeersExcludingLocal D.cluster :=
  ⟨_, rfl, fetched_targets (show FanoutScope.Flat ≠ .Coordinator by decide) _⟩

/-- Where everybody answers, an evaluation gives what its routes fetch. -/
theorem evaluate_of_plan {catalog : Catalog} {scope : FanoutScope} {routes : List Route}
    (hroutes : D.plan none catalog scope node = some routes) :
    ∃ q, D.evaluate none catalog .answering scope node = some q ∧
      q.nodes = node :: fetched routes := by
  rcases (D.evaluates none catalog).cases .answering scope node with
    ⟨-, hnone⟩ | ⟨q, rs, hq, hrs, hnodes, -⟩
  · rw [hroutes] at hnone
    cases hnone
  · obtain rfl := Option.some.inj (hrs.symm.trans hroutes)
    exact ⟨q, hq, hnodes⟩

theorem evaluate_of_global {scope : FanoutScope} {routes : List Route}
    (hroutes : D.globalRoutes none scope node = some routes) :
    ∃ q, D.evaluate none .global .answering scope node = some q ∧
      q.nodes = node :: fetched routes :=
  evaluate_of_plan hroutes

/-- Leaves that answer add one part each. -/
theorem foldl_leaf_parts {evaluate : Evaluation} {part : Node → List Node} {peers : List Node}
    (hpeers : ∀ l ∈ peers, ∃ q, evaluate .answering .Auto l = some q ∧ q.nodes = part l)
    (acc : FanoutOutcome) :
    (peers.foldl (mergeLeaf evaluate .answering) acc).parts = acc.parts ++ peers.map part := by
  induction peers generalizing acc with
  | nil => simp
  | cons l peers ih =>
      obtain ⟨q, hq, hnodes⟩ := hpeers l List.mem_cons_self
      have hquery : queryLeaf evaluate .answering l = some q.nodes := by
        unfold queryLeaf
        rw [if_neg (by simp [Behaviour.answering]),
          show Behaviour.answering.after (.leaf l) = .answering from rfl, hq, Option.bind_some,
          parse_leaf_status]
      have hmerge : (mergeLeaf evaluate .answering acc l).parts = acc.parts ++ [part l] := by
        rw [mergeLeaf, hquery, hnodes]
      rw [List.foldl_cons, ih (fun m hm => hpeers m (List.mem_cons_of_mem l hm)), hmerge,
        List.append_assoc]
      rfl

/-- Aggregators that answer add the parts of their tiers. -/
theorem foldl_node_parts {evaluate : Evaluation} {parts : Node → List (List Node)}
    {peers : List Node} (hpeers : ∀ a ∈ peers, ∃ o,
      D.serveNode evaluate .answering a = some o ∧ o.parts = parts a) (acc : FanoutOutcome) :
    (peers.foldl (D.mergeNode evaluate .answering) acc).parts =
      acc.parts ++ peers.flatMap parts := by
  induction peers generalizing acc with
  | nil => simp
  | cons a peers ih =>
      obtain ⟨o, ho, hparts⟩ := hpeers a List.mem_cons_self
      have hquery : D.queryNode evaluate .answering a = some o := by
        unfold queryNode
        rw [if_neg (by simp [Behaviour.answering]),
          show Behaviour.answering.after (.aggregator a) = .answering from rfl, ho,
          Option.bind_some, parse_node_status]
      have hmerge : (D.mergeNode evaluate .answering acc a).parts = acc.parts ++ parts a := by
        rw [mergeNode, hquery, ← hparts]
      rw [List.foldl_cons, ih (fun b hb => hpeers b (List.mem_cons_of_mem a hb)), hmerge,
        List.append_assoc, List.flatMap_cons]

variable (h : D.Complete)

include h

theorem Complete.fetched_node (ha : a ∈ D.cluster.list) :
    ∃ routes, D.globalRoutes none .Node a = some routes ∧
      fetched routes = (D.env a).localLeafPeers D.cluster := by
  unfold globalRoutes globalTargets Env.federatedScanTargets
  dsimp only
  by_cases hpeers : (D.env a).remotePeersExcludingLocal D.cluster = []
  · refine ⟨[], by simp [Env.resolveFanoutScope, hpeers], ?_⟩
    -- a leaf would be a peer
    rw [eq_comm, fetched_nil, List.eq_nil_iff_forall_not_mem]
    intro l hl
    obtain ⟨hmem, hne, -⟩ := (h.mem_leaves_iff ha).mp hl
    have hpeer := (h.mem_remote_peers_iff ha).mpr ⟨hmem, hne⟩
    rw [hpeers] at hpeer
    cases hpeer
  · refine ⟨_, by simp only [Env.resolveFanoutScope, if_neg hpeers, if_pos h.metadata]; rfl, ?_⟩
    exact fetched_targets (by decide) _

/-- A leaf answers for itself, or for everybody if hierarchical fan-out is disabled there. -/
theorem Complete.fetched_leaf (catalog : Catalog) (hl : l ∈ D.cluster.list)
    (hlocal : l.localRank ≠ some 0) :
    ∃ routes, D.plan none catalog .Auto l = some routes ∧
    fetched routes = D.leafExtra catalog l := by
  cases catalog with
  | probe => exact ⟨[], rfl, rfl⟩
  | global =>
      have hnot : (D.env l).isLocal0 = false := by
        rw [Bool.eq_false_iff]
        exact fun htrue => hlocal ((h.isLocal0_iff hl).mp htrue)
      change ∃ routes, D.globalRoutes none .Auto l = some routes ∧ _
      unfold leafExtra
      cases hier : D.hierarchical l with
      | true =>
          have hscope : (D.env l).resolveFanoutScope .Auto = .Local := by
            unfold Env.resolveFanoutScope
            rw [hnot]
            simp [env, hier]
          refine ⟨[], ?_, rfl⟩
          unfold globalRoutes globalTargets Env.federatedScanTargets
          dsimp only
          rw [hscope]
          rfl
      | false =>
          have hscope : (D.env l).resolveFanoutScope .Auto = .Flat := by
            simp [Env.resolveFanoutScope, env, hier]
          obtain ⟨routes, hroutes, hfetched⟩ := D.fetched_flat l
          refine ⟨routes, ?_, hfetched⟩
          rw [← hroutes]
          unfold globalRoutes globalTargets Env.federatedScanTargets
          dsimp only
          rw [hscope]
          rfl

/-- The local evaluation of a local rank 0 scans its leaves in a `global` table. -/
theorem Complete.evaluate_tier (catalog : Catalog) (ha : a ∈ D.cluster.list) :
    ∃ q, D.evaluate none catalog .answering .Node a = some q ∧
      q.nodes = a :: D.tierScans catalog a := by
  cases catalog with
  | probe => exact ⟨_, rfl, rfl⟩
  | global =>
      obtain ⟨routes, hroutes, hfetched⟩ := h.fetched_node ha
      obtain ⟨q, hq, hnodes⟩ := evaluate_of_global hroutes
      exact ⟨q, hq, hnodes.trans (congrArg (a :: ·) hfetched)⟩

theorem Complete.evaluate_leaf (catalog : Catalog) (hl : l ∈ D.cluster.list)
    (hlocal : l.localRank ≠ some 0) :
    ∃ q, D.evaluate none catalog .answering .Auto l = some q ∧
      q.nodes = l :: D.leafExtra catalog l := by
  obtain ⟨routes, hroutes, hfetched⟩ := h.fetched_leaf catalog hl hlocal
  obtain ⟨q, hq, hnodes⟩ := D.evaluate_of_plan hroutes
  exact ⟨q, hq, hnodes.trans (congrArg (l :: ·) hfetched)⟩

theorem Complete.tier_outcome (catalog : Catalog) (ha : a ∈ D.cluster.list)
    (hlocal : a.localRank = some 0) (hierarchical : Bool) :
    ∃ o, D.fanoutNodeTier (D.evaluate none catalog) .answering a hierarchical = some o ∧
      o.parts = D.tierParts catalog a := by
  obtain ⟨q, hq, hnodes⟩ := h.evaluate_tier catalog ha
  unfold fanoutNodeTier
  rw [if_pos ((h.isLocal0_iff ha).mpr hlocal), hq, Option.map_some]
  refine ⟨_, rfl, ?_⟩
  dsimp only
  have hleaves (l : Node) (hl : l ∈ (D.env a).localLeafPeers D.cluster) :=
    h.evaluate_leaf catalog ((h.mem_leaves_iff ha).mp hl).1 (h.leaf_not_local0 ha hlocal hl)
  rw [finishFanout_parts, foldl_leaf_parts hleaves, hnodes]
  rfl

/-- An aggregator does not refuse. -/
theorem Complete.serve_outcome (catalog : Catalog) (ha : a ∈ D.cluster.list)
    (hlocal : a.localRank = some 0) :
    ∃ o, D.serveNode (D.evaluate none catalog) .answering a = some o ∧
      o.parts = D.tierParts catalog a := by
  obtain ⟨o, ho, hparts⟩ := h.tier_outcome catalog ha hlocal true
  refine ⟨o, ?_, hparts⟩
  unfold serveNode planFanout
  simp [h.metadata, ho]

theorem Complete.aggregators_serve (catalog : Catalog) :
    ∀ a ∈ (D.env D.coordinator).nodeAggregatorPeers D.cluster, ∃ o,
      D.serveNode (D.evaluate none catalog) .answering a = some o ∧
        o.parts = D.tierParts catalog a :=
  fun _ ha => h.serve_outcome catalog (h.mem_aggregators_iff.mp ha).1
    (h.mem_aggregators_iff.mp ha).2.1

theorem Complete.broadcast_outcome (statement : Statement) (hpushdown : statement.pushdown = none) :
    ∃ o, D.broadcastFanoutQuery .answering statement D.coordinator .Coordinator = some o ∧
      o.parts = D.hierarchicalParts statement.catalog := by
  have hserve := h.aggregators_serve statement.catalog
  unfold broadcastFanoutQuery hierarchicalParts
  by_cases hlocal : D.coordinator.localRank = some 0
  · have hzero := (h.isLocal0_iff D.registered).mpr hlocal
    obtain ⟨own, hown, hparts⟩ := h.tier_outcome statement.catalog D.registered hlocal true
    rw [hzero, Bool.and_true, if_pos (decide_eq_true rfl), if_pos hlocal]
    unfold broadcastFromCoordinator
    rw [hpushdown, hown, Option.map_some]
    refine ⟨_, rfl, ?_⟩
    dsimp only
    rw [finishFanout_parts, foldl_node_parts hserve, hparts]
  · have hnot : (D.env D.coordinator).isLocal0 = false := by
      rw [Bool.eq_false_iff]
      exact fun hzero => hlocal ((h.isLocal0_iff D.registered).mp hzero)
    have hown : D.plan none statement.catalog .Local D.coordinator = some [] := by
      cases statement.catalog <;> rfl
    obtain ⟨q, hq, hnodes⟩ := D.evaluate_of_plan hown
    rw [hnot, Bool.and_false, if_neg Bool.false_ne_true, if_neg hlocal]
    unfold broadcastFromCurrentRank queryLocal
    dsimp only
    rw [hpushdown, hq, Option.map_some, Option.map_some, if_pos rfl]
    refine ⟨_, rfl, ?_⟩
    rw [finishFanout_parts]
    refine (foldl_node_parts hserve _).trans ?_
    rw [hnodes]
    rfl

/-- Everybody is fetched once, and then what is fetched again. -/
theorem Complete.hierarchical_perm (catalog : Catalog) :
    (D.hierarchicalParts catalog).flatten.Perm
      (D.cluster.list ++ D.hierarchicalExtra catalog) := by
  have haggregators := D.tiers_parts_perm catalog
    ((D.env D.coordinator).nodeAggregatorPeers D.cluster)
  unfold hierarchicalParts hierarchicalExtra
  dsimp only
  rw [List.flatten_append]
  split_ifs with hlocal
  · refine ((D.tierParts_perm catalog D.coordinator).append haggregators).trans ?_
    have hsame := (h.tier_remote_perm hlocal).append_right
      (D.tierExtra catalog D.coordinator ++
        ((D.env D.coordinator).nodeAggregatorPeers D.cluster).flatMap (D.tierExtra catalog))
    refine List.Perm.trans ?_ hsame
    rw [List.cons_append, List.cons_append, List.cons_append]
    apply List.Perm.cons
    rw [List.append_assoc, List.append_assoc]
    exact (List.perm_append_comm_assoc _ _ _).append_left _
  · refine (haggregators.cons D.coordinator).trans ?_
    refine List.Perm.trans ?_ List.perm_middle.symm
    exact ((h.remote_perm hlocal).append_right _).cons _

/-- The tiers of all local ranks 0 add nothing exactly if no leaf is fetched again. -/
theorem Complete.tierExtra_empty_iff {ρ : Type*} (own : Node → List ρ) (catalog : Catalog)
    {aggregators : List Node}
    (hall : ∀ a, a ∈ aggregators ↔ a ∈ D.cluster.list ∧ a.localRank = some 0) :
    (∀ node ∈ aggregators.flatMap (D.tierExtra catalog), own node = []) ↔
      (catalog = .probe ∨ ∀ leaf ∈ D.cluster.list, leaf.localRank ≠ some 0 →
        own leaf = [] ∧ (D.hierarchical leaf = true ∨ ∀ node ∈ D.cluster.list, own node = [])) := by
  cases catalog with
  | probe =>
      simp only [true_or, iff_true, tierExtra, tierScans, List.nil_append, List.mem_flatMap]
      rintro node ⟨a, -, l, -, hnode⟩
      cases hnode
  | global =>
      simp only [tierExtra, tierScans, List.mem_flatMap, List.mem_append, reduceCtorEq, false_or]
      constructor
      · intro hempty leaf hleaf hlocal
        obtain ⟨a, ha, hzero, hgroup⟩ := h.local0 leaf hleaf
        have hchild : leaf ∈ (D.env a).localLeafPeers D.cluster := by
          refine (h.mem_leaves_iff ha).mpr ⟨hleaf, ?_, hgroup.symm⟩
          rintro rfl
          exact hlocal hzero
        have hown := hempty leaf ⟨a, (hall a).mpr ⟨ha, hzero⟩, Or.inl hchild⟩
        refine ⟨hown, ?_⟩
        by_cases hier : D.hierarchical leaf = true
        · exact Or.inl hier
        · right
          intro node hnode
          by_cases hself : node = leaf
          · rw [hself, hown]
          · refine hempty node ⟨a, (hall a).mpr ⟨ha, hzero⟩, Or.inr ⟨leaf, hchild, ?_⟩⟩
            unfold leafExtra
            dsimp only
            rw [if_neg hier]
            exact (h.mem_remote_peers_iff hleaf).mpr ⟨hnode, hself⟩
      · rintro hleaves node ⟨a, ha, hnode⟩
        obtain ⟨hmem, hzero⟩ := (hall a).mp ha
        have hleaf (l : Node) (hl : l ∈ (D.env a).localLeafPeers D.cluster) :=
          hleaves l ((h.mem_leaves_iff hmem).mp hl).1 (h.leaf_not_local0 hmem hzero hl)
        rcases hnode with hnode | ⟨l, hl, hnode⟩
        · exact (hleaf node hnode).1
        · unfold leafExtra at hnode
          dsimp only at hnode
          split_ifs at hnode with hier
          · cases hnode
          · have hl' := ((h.mem_leaves_iff hmem).mp hl).1
            exact (hleaf l hl).2.resolve_left hier node ((h.mem_remote_peers_iff hl').mp hnode).1

theorem Complete.hierarchicalExtra_empty_iff {ρ : Type*} (own : Node → List ρ)
    (catalog : Catalog) : (∀ node ∈ D.hierarchicalExtra catalog, own node = []) ↔
      (D.coordinator.localRank = some 0 ∨ own D.coordinator = []) ∧
        (catalog = .probe ∨ ∀ leaf ∈ D.cluster.list, leaf.localRank ≠ some 0 →
          own leaf = [] ∧
          (D.hierarchical leaf = true ∨ ∀ node ∈ D.cluster.list, own node = [])) := by
  unfold hierarchicalExtra
  dsimp only
  by_cases hlocal : D.coordinator.localRank = some 0
  · have hall (a : Node) :
        a ∈ D.coordinator :: (D.env D.coordinator).nodeAggregatorPeers D.cluster ↔
          a ∈ D.cluster.list ∧ a.localRank = some 0 := by
      rw [List.mem_cons, h.mem_aggregators_iff]
      constructor
      · rintro (rfl | ⟨hmem, hrank, -⟩)
        · exact ⟨D.registered, hlocal⟩
        · exact ⟨hmem, hrank⟩
      · rintro ⟨hmem, hrank⟩
        by_cases hself : a = D.coordinator
        · exact Or.inl hself
        · exact Or.inr ⟨hmem, hrank, hself⟩
    rw [if_pos hlocal, ← List.flatMap_cons, h.tierExtra_empty_iff own catalog hall]
    simp only [hlocal, true_or, true_and]
  · have hall (a : Node) : a ∈ (D.env D.coordinator).nodeAggregatorPeers D.cluster ↔
        a ∈ D.cluster.list ∧ a.localRank = some 0 := by
      rw [h.mem_aggregators_iff]
      constructor
      · exact fun ha => ⟨ha.1, ha.2.1⟩
      · rintro ⟨hmem, hzero⟩
        refine ⟨hmem, hzero, ?_⟩
        rintro rfl
        exact hlocal hzero
    rw [if_neg hlocal, List.singleton_append, List.forall_mem_cons,
      h.tierExtra_empty_iff own catalog hall]
    simp only [hlocal, false_or]

end Fetched

/-- An evaluation in a broadcast: distinct nodes, and the scanned ones are fetched beyond the rows
of everybody. -/
structure Part (D : Deployment) (catalog : Catalog) (extra : List Node) (node : Node)
    (others : List Node) : Prop where
  mem : node ∈ D.cluster.list
  nodup : (node :: others).Nodup
  scans : ∀ other ∈ others, other ∈ D.cluster.list ∧ other ∈ extra
  alone : catalog = .probe → others = []

theorem Part.mono {catalog : Catalog} {extra extra' others : List Node}
    (h : D.Part catalog extra node others) (hsub : extra ⊆ extra') :
    D.Part catalog extra' node others where
  mem := h.mem
  nodup := h.nodup
  scans other hother := ⟨(h.scans other hother).1, hsub (h.scans other hother).2⟩
  alone := h.alone

theorem Complete.tier_part (h : D.Complete) (catalog : Catalog) (ha : a ∈ D.cluster.list)
    {part : List Node} (hpart : part ∈ D.tierParts catalog a) :
    ∃ node others, part = node :: others ∧
      D.Part catalog (D.tierExtra catalog a) node others := by
  rcases List.mem_cons.mp hpart with rfl | hleaf
  · refine ⟨a, _, rfl, ha, ?_, ?_, ?_⟩
    · cases catalog with
      | probe => exact List.nodup_singleton a
      | global =>
          refine List.nodup_cons.mpr ⟨?_, localLeafPeers_nodup D.indexed⟩
          exact fun hself => ((h.mem_leaves_iff ha).mp hself).2.1 rfl
    · intro other hother
      refine ⟨?_, List.mem_append_left _ hother⟩
      cases catalog with
      | probe => cases hother
      | global => exact ((h.mem_leaves_iff ha).mp hother).1
    · rintro rfl
      rfl
  · obtain ⟨l, hl, rfl⟩ := List.mem_map.mp hleaf
    have hlist := ((h.mem_leaves_iff ha).mp hl).1
    have hpeers : ∀ other ∈ D.leafExtra catalog l, other ∈ D.cluster.list ∧ other ≠ l := by
      intro other hother
      unfold leafExtra at hother
      cases catalog with
      | probe => cases hother
      | global =>
          dsimp only at hother
          split_ifs at hother
          · cases hother
          · exact (h.mem_remote_peers_iff hlist).mp hother
    refine ⟨l, _, rfl, hlist, List.nodup_cons.mpr ⟨fun hself => (hpeers l hself).2 rfl, ?_⟩, ?_, ?_⟩
    · unfold leafExtra
      cases catalog with
      | probe => exact List.nodup_nil
      | global =>
          dsimp only
          split_ifs
          · exact List.nodup_nil
          · exact (getNodes_nodup D.indexed).filter _
    · intro other hother
      exact ⟨(hpeers other hother).1,
        List.mem_append_right _ (List.mem_flatMap.mpr ⟨l, hl, hother⟩)⟩
    · rintro rfl
      rfl

theorem Complete.hierarchical_part (h : D.Complete) (catalog : Catalog) {part : List Node}
    (hpart : part ∈ D.hierarchicalParts catalog) : ∃ node others, part = node :: others ∧
      D.Part catalog (D.hierarchicalExtra catalog) node others := by
  unfold hierarchicalParts at hpart
  unfold hierarchicalExtra
  dsimp only at hpart ⊢
  rcases List.mem_append.mp hpart with hown | hother
  · split_ifs at hown ⊢ with hlocal
    · obtain ⟨node, others, rfl, hnode⟩ := h.tier_part catalog D.registered hown
      exact ⟨node, others, rfl, hnode.mono (List.subset_append_left _ _)⟩
    · obtain rfl := List.mem_singleton.mp hown
      exact ⟨D.coordinator, [], rfl, D.registered, List.nodup_singleton _,
        fun _ hnone => absurd hnone List.not_mem_nil, fun _ => rfl⟩
  · obtain ⟨a, ha, hin⟩ := List.mem_flatMap.mp hother
    obtain ⟨node, others, rfl, hnode⟩ :=
      h.tier_part catalog (h.mem_aggregators_iff.mp ha).1 hin
    refine ⟨node, others, rfl, hnode.mono fun other hextra => ?_⟩
    exact List.mem_append_right _ (List.mem_flatMap.mpr ⟨a, ha, hextra⟩)

/-- Rows beyond those of everybody change the multiset unless there are none. -/
theorem flatMap_perm_append_iff {ρ : Type*} (own : Node → List ρ) {nodes once more : List Node}
    (hperm : nodes.Perm (once ++ more)) :
    (nodes.flatMap own).Perm (once.flatMap own) ↔ ∀ node ∈ more, own node = [] := by
  rw [← List.flatMap_eq_nil_iff]
  have hsplit : (nodes.flatMap own).Perm (once.flatMap own ++ more.flatMap own) := by
    rw [← List.flatMap_append]
    exact hperm.flatMap_right own
  constructor
  · intro hsame
    have hlen := hsame.length_eq
    rw [hsplit.length_eq, List.length_append] at hlen
    exact List.eq_nil_of_length_eq_zero (by omega)
  · intro hnil
    rwa [hnil, List.append_nil] at hsplit

/-- A relation named in the `global` catalog keeps its name. -/
theorem global_rewrite {statement : Statement} (h : statement.catalog = .global) :
    (rewriteSqlForGlobalFanout statement).catalog = .global := by
  unfold Statement.catalog at h ⊢
  split_ifs at h with hany
  obtain ⟨parts, hparts, hglobal⟩ := List.any_eq_true.mp hany
  have hsame : rewriteRelationToGlobal parts = parts := by
    simp [rewriteRelationToGlobal, hglobal]
  refine if_pos (List.any_eq_true.mpr ⟨parts, ?_, hglobal⟩)
  exact List.mem_map.mpr ⟨parts, hparts, hsame⟩

/-- A scan of one table is limited exactly if its table can be named globally. -/
theorem limit_of_scan (relation : List String) (n : ℕ) :
    ensureGlobalScanLimit ⟨[relation], true, none⟩ n =
      if (rewriteSqlForGlobalFanout ⟨[relation], true, none⟩).catalog = .probe then none
      else some n := by
  unfold ensureGlobalScanLimit Statement.federatedPath
  cases (rewriteSqlForGlobalFanout ⟨[relation], true, none⟩).catalog <;> simp

section Rows

variable {σ ρ : Type*} {T : Tables σ ρ} {statement : Statement}

theorem lossless_of_own (hown : T.own node = []) : T.Lossless node := by
  have hsub := T.served_subperm node
  rw [hown] at hsub
  unfold Tables.Lossless
  rw [hown]
  exact hsub.antisymm (List.nil_subperm)

/-- Where nothing is fetched again, a hierarchical broadcast is whole exactly if the rows of every
process are within its limit. -/
theorem Complete.hierarchical_whole_iff (h : D.Complete)
    (hextra : ∀ node ∈ D.hierarchicalExtra statement.catalog, T.own node = []) :
    (∀ part ∈ D.hierarchicalParts statement.catalog,
        (T.evaluated statement part).Perm (part.flatMap T.own)) ↔
      ∀ node ∈ D.cluster.list,
        ∀ n ∈ ensureGlobalScanLimit statement (T.globalScanMaxRows node),
          (T.own node).length ≤ n := by
  constructor
  · intro hwhole node hnode n hn
    by_cases hown : T.own node = []
    · rw [hown]
      exact Nat.zero_le n
    · -- a process with rows is the first one of an evaluation
      have hfetched : node ∈ (D.hierarchicalParts statement.catalog).flatten :=
        (h.hierarchical_perm statement.catalog).mem_iff.mpr (List.mem_append_left _ hnode)
      obtain ⟨part, hpart, hin⟩ := List.mem_flatten.mp hfetched
      obtain ⟨first, others, rfl, hfirst⟩ := h.hierarchical_part statement.catalog hpart
      rcases List.mem_cons.mp hin with rfl | hother
      · have hle := ((T.evaluated_perm_iff node others).mp (hwhole _ hpart)).2 n hn
        rw [List.flatMap_cons, List.length_append] at hle
        omega
      · exact absurd (hextra node (hfirst.scans node hother).2) hown
  · intro hlimits part hpart
    obtain ⟨first, others, rfl, hfirst⟩ := h.hierarchical_part statement.catalog hpart
    have hothers : ∀ other ∈ others, T.own other = [] := fun other hother =>
      hextra other (hfirst.scans other hother).2
    refine (T.evaluated_perm_iff first others).mpr
      ⟨fun other hother => lossless_of_own (hothers other hother), fun n hn => ?_⟩
    rw [List.flatMap_cons, List.flatMap_eq_nil_iff.mpr hothers, List.append_nil]
    exact hlimits first hfirst.mem n hn

/-- A broadcast of distinct nodes is whole in a roomy deployment. -/
theorem Roomy.whole {relation : List String} {extra others : List Node}
    (hroomy : D.Roomy ⟨[relation], true, none⟩ T)
    (hpart : D.Part (Statement.catalog ⟨[relation], true, none⟩) extra node others) :
    (T.evaluated ⟨[relation], true, none⟩ (node :: others)).Perm
      ((node :: others).flatMap T.own) := by
  refine (T.evaluated_perm_iff node others).mpr ⟨fun other hother => ?_, fun n hn => ?_⟩
  · cases hcatalog : Statement.catalog ⟨[relation], true, none⟩ with
    | probe =>
        rw [hpart.alone hcatalog] at hother
        cases hother
    | global =>
        have hlimit : ensureGlobalScanLimit ⟨[relation], true, none⟩
            (T.globalScanMaxRows other) = some (T.globalScanMaxRows other) := by
          rw [limit_of_scan, global_rewrite hcatalog, if_neg (by simp)]
        exact (hroomy other (hpart.scans other hother).1 _ hlimit).2
  · refine le_trans ?_ (hroomy node hpart.mem n hn).1
    have hsub : (node :: others).Subperm D.cluster.list :=
      List.subperm_of_subset hpart.nodup fun other hother => by
        rcases List.mem_cons.mp hother with rfl | hother
        · exact hpart.mem
        · exact (hpart.scans other hother).1
    obtain ⟨l, hperm, hsublist⟩ := hsub
    rw [← (hperm.flatMap_right T.own).length_eq]
    exact (hsublist.flatMap T.own).length_le

/-- What the flat fan-out scans beyond the rows of its own process. -/
def flatScans (D : Deployment) (catalog : Catalog) : List Node :=
  match catalog with
  | .probe => []
  | .global => (D.env D.coordinator).remotePeersExcludingLocal D.cluster

theorem flat_outcome (D : Deployment) {statement : Statement}
    (hpushdown : statement.pushdown = none) :
    ∃ o, D.fanoutViaGlobalCatalog .answering statement D.coordinator .Flat = some o ∧
      o.parts = [D.coordinator ::
        D.flatScans (rewriteSqlForGlobalFanout statement).catalog] := by
  have hq : ∃ q, D.evaluate none (rewriteSqlForGlobalFanout statement).catalog .answering
      .Flat D.coordinator = some q ∧ q.nodes = D.coordinator ::
        D.flatScans (rewriteSqlForGlobalFanout statement).catalog := by
    cases (rewriteSqlForGlobalFanout statement).catalog with
    | probe => exact ⟨_, rfl, rfl⟩
    | global =>
        obtain ⟨routes, hroutes, hfetched⟩ := D.fetched_flat D.coordinator
        obtain ⟨q, hq, hnodes⟩ := evaluate_of_global hroutes
        exact ⟨q, hq, hnodes.trans (congrArg (D.coordinator :: ·) hfetched)⟩
  obtain ⟨q, hq, hnodes⟩ := hq
  unfold fanoutViaGlobalCatalog
  rw [hpushdown, hq, Option.map_some]
  refine ⟨_, rfl, ?_⟩
  rw [finishFanout_parts, hnodes]

theorem Complete.flat_exact_iff {ρ : Type*} (h : D.Complete) (own : Node → List ρ)
    (catalog : Catalog) :
    ((D.coordinator :: D.flatScans catalog).flatMap own).Perm (D.cluster.list.flatMap own) ↔
      catalog = .global ∨ ∀ node ∈ D.cluster.list, node ≠ D.coordinator → own node = [] := by
  have heverybody := h.remote_peers_perm D.registered
  cases catalog with
  | global =>
      simp only [flatScans, true_or, iff_true]
      exact heverybody.flatMap_right own
  | probe =>
      have hothers : (∀ node ∈ (D.env D.coordinator).remotePeersExcludingLocal D.cluster,
          own node = []) ↔ ∀ node ∈ D.cluster.list, node ≠ D.coordinator → own node = [] := by
        simp only [h.mem_remote_peers_iff D.registered, and_imp]
      have hsplit : D.cluster.list.Perm
          ([D.coordinator] ++ (D.env D.coordinator).remotePeersExcludingLocal D.cluster) :=
        heverybody.symm
      rw [← hothers, ← flatMap_perm_append_iff own hsplit]
      simp only [flatScans, reduceCtorEq, false_or]
      exact List.perm_comm

/-- The answer to a broadcast of a scan of one table, with its evaluations. -/
theorem Complete.scan_outcome (h : D.Complete) (relation : List String) (hierarchical : Bool)
    {requested : ClusterFanoutScope} (hscope : (D.env D.coordinator).resolveScope requested
      (hierarchical && D.hierarchical D.coordinator) = .Coordinator) :
    ∃ o, D.fanoutQuery .answering ⟨[relation], true, none⟩ D.coordinator true hierarchical
        requested = some o ∧
      o.parts = if hierarchical && D.hierarchical D.coordinator then
          D.hierarchicalParts (Statement.catalog ⟨[relation], true, none⟩)
        else [D.coordinator :: D.flatScans
          (rewriteSqlForGlobalFanout ⟨[relation], true, none⟩).catalog] := by
  have hplan : D.planFanout D.coordinator hierarchical requested =
      some ⟨hierarchical && D.hierarchical D.coordinator, .Coordinator⟩ := by
    simp [planFanout, h.metadata, hscope]
  unfold fanoutQuery
  rw [if_pos rfl, hplan, Option.bind_some]
  dsimp only
  unfold fanoutCoordinatorTier fanoutFlat
  cases hierarchical && D.hierarchical D.coordinator with
  | true => exact h.broadcast_outcome ⟨[relation], true, none⟩ rfl
  | false => exact D.flat_outcome rfl

/-- The nodes of the answer have everybody's rows once exactly if the broadcast is exact. -/
theorem Complete.nodes_exact_iff (h : D.Complete) (relation : List String) (hierarchical : Bool)
    (own : Node → List ρ) {o : FanoutOutcome} (hparts : o.parts =
      if hierarchical && D.hierarchical D.coordinator then
        D.hierarchicalParts (Statement.catalog ⟨[relation], true, none⟩)
      else [D.coordinator :: D.flatScans
        (rewriteSqlForGlobalFanout ⟨[relation], true, none⟩).catalog]) :
    (o.nodes.flatMap own).Perm (D.cluster.list.flatMap own) ↔
      D.Exact ⟨[relation], true, none⟩ hierarchical own := by
  unfold Exact FanoutOutcome.nodes
  rw [hparts]
  split_ifs
  · rw [flatMap_perm_append_iff own (h.hierarchical_perm _), h.hierarchicalExtra_empty_iff]
  · rw [List.flatten_singleton, h.flat_exact_iff]

/-- An exact broadcast is whole exactly if no limit cuts it. -/
theorem Complete.whole_iff (h : D.Complete) (relation : List String) {hierarchical : Bool}
    (hexact : D.Exact ⟨[relation], true, none⟩ hierarchical T.own) {o : FanoutOutcome}
    (hparts : o.parts = if hierarchical && D.hierarchical D.coordinator then
        D.hierarchicalParts (Statement.catalog ⟨[relation], true, none⟩)
      else [D.coordinator :: D.flatScans
        (rewriteSqlForGlobalFanout ⟨[relation], true, none⟩).catalog]) :
    (∀ part ∈ o.parts, (T.evaluated ⟨[relation], true, none⟩ part).Perm (part.flatMap T.own)) ↔
      D.Uncut ⟨[relation], true, none⟩ hierarchical T := by
  unfold Exact at hexact
  unfold Uncut
  rw [hparts]
  split_ifs at hexact ⊢
  · exact h.hierarchical_whole_iff ((h.hierarchicalExtra_empty_iff T.own _).mpr hexact)
  · rw [List.forall_mem_singleton, T.evaluated_perm_iff, limit_of_scan]
    cases hcatalog : (rewriteSqlForGlobalFanout ⟨[relation], true, none⟩).catalog with
    | probe => simp [flatScans]
    | global =>
        have heverybody := h.remote_peers_perm D.registered
        have hlength : ((D.coordinator :: D.flatScans .global).flatMap T.own).length =
            (D.cluster.list.flatMap T.own).length := (heverybody.flatMap_right T.own).length_eq
        have hothers : (∀ other ∈ D.flatScans .global, T.Lossless other) ↔
            ∀ node ∈ D.cluster.list, node ≠ D.coordinator → T.Lossless node := by
          simp only [flatScans, h.mem_remote_peers_iff D.registered, and_imp]
        have hlimited : (if Catalog.global = .probe then none
            else some (T.globalScanMaxRows D.coordinator)) =
              some (T.globalScanMaxRows D.coordinator) := if_neg (by simp)
        rw [hothers, hlength, hlimited]
        simp only [Option.mem_def, Option.some.injEq, forall_eq']
        exact and_comm

theorem Complete.whole_of_roomy (h : D.Complete) (relation : List String) {hierarchical : Bool}
    (hroomy : D.Roomy ⟨[relation], true, none⟩ T) {o : FanoutOutcome}
    (hparts : o.parts = if hierarchical && D.hierarchical D.coordinator then
        D.hierarchicalParts (Statement.catalog ⟨[relation], true, none⟩)
      else [D.coordinator :: D.flatScans
        (rewriteSqlForGlobalFanout ⟨[relation], true, none⟩).catalog]) :
    ∀ part ∈ o.parts,
      (T.evaluated ⟨[relation], true, none⟩ part).Perm (part.flatMap T.own) := by
  rw [hparts]
  split_ifs
  · intro part hpart
    obtain ⟨node, others, rfl, hnode⟩ := h.hierarchical_part _ hpart
    exact hroomy.whole hnode
  · intro part hpart
    obtain rfl := List.mem_singleton.mp hpart
    cases hcatalog : (rewriteSqlForGlobalFanout ⟨[relation], true, none⟩).catalog with
    | probe =>
        refine (T.evaluated_perm_iff _ _).mpr
          ⟨fun other hother => (by cases hother), fun n hn => ?_⟩
        rw [limit_of_scan, hcatalog, if_pos rfl] at hn
        cases hn
    | global =>
        have hlimit (n : ℕ) : ensureGlobalScanLimit ⟨[relation], true, none⟩ n = some n := by
          rw [limit_of_scan, hcatalog, if_neg (by simp)]
        have heverybody := h.remote_peers_perm D.registered
        refine (T.evaluated_perm_iff _ _).mpr ⟨fun other hother => ?_, fun n hn => ?_⟩
        · have hmem := ((h.mem_remote_peers_iff D.registered).mp hother).1
          exact (hroomy other hmem _ (hlimit _)).2
        · refine le_trans (Nat.le_of_eq ?_) (hroomy _ D.registered n hn).1
          exact (heverybody.flatMap_right T.own).length_eq

end Rows

theorem twoGroupsAll_complete : twoGroupsAll.Complete where
  alive := by decide
  placed := by decide
  foreign := by decide
  local0 := by decide
  unique := by decide

/-- One row at every rank: the rank. -/
def rankRows : Tables (Option Int32) (Option Int32) where
  schemaName := "python"
  tableName := "metrics"
  scanned node := [node.rank]
  select := some
  globalScanMaxRows _ := 10000
  scanLimit _ := Limit.first _ _
  limit _ := Limit.first _ _

end Deployment

end Probing.Federation
