import Probing.Federation.Completeness
import Probing.Skills.Runner

/-!
# What a skill run says about an incomplete result

The backend of the server asks the cluster with the fan-out. A step that finds no rows
is skipped by default, also where rows are lacking.
-/

namespace Probing.Skills

open Probing.Federation Probing.Registry

variable {ρ : Type*}

def clusterQueryMeta (info : FanoutMeta) : ClusterQueryMeta :=
  ⟨info.partialResult, info.nodesQueried, info.nodesFailed, info.peerBatchesDropped⟩

/-- The backend of the server at a process, where the parser turns a text into a statement. -/
def ServerBackend (D : Deployment) (B : Behaviour) (parse : String → Statement)
    (own : Node → List ρ) (node : Node) : SkillBackend ρ where
  queryLocal sql :=
    match D.evaluate (parse sql).pushdown (parse sql).catalog B .Auto node with
    | none => .error "query failed"
    | some o => .ok (o.nodes.flatMap own)
  clusterQuery sql :=
    match D.fanoutQuery B (parse sql) node true true .Auto with
    | none => .error "query failed"
    | some o => .ok (o.nodes.flatMap own, some (clusterQueryMeta o.info))

/-- A run that executes a step whose result lacks rows is not fine. -/
def ReportsIncompleteness (D : Deployment) (statement : Statement) (node : Node)
    (step : SkillStep) :
    Prop :=
  ∀ (B : Behaviour) (ρ : Type) (own : Node → List ρ) (routes : List Route) (o : FanoutOutcome),
    D.queryRoutes statement node true true .Auto = some routes →
    D.fanoutQuery B statement node true true .Auto = some o → Lacks own routes o.nodes →
    ∀ (parse : String → Statement) (ensureReadOnlySql : String → Except String Unit) (sql : String),
      parse sql = statement → ensureReadOnlySql sql = .ok () →
      sqlNeedsCluster sql (step.cluster.getD false) = true →
      ∀ steps, runSqlStep ensureReadOnlySql (ServerBackend D B parse own node) step sql ∈
        executeSteps steps → status (executeSteps steps) ≠ "ok"

theorem run_cluster_step {D : Deployment} {B : Behaviour} {parse : String → Statement}
    {own : Node → List ρ} {node : Node} {ensureReadOnlySql : String → Except String Unit}
    {step : SkillStep} {sql : String} {o : FanoutOutcome}
    (hguard : ensureReadOnlySql sql = .ok ())
    (hneeds : sqlNeedsCluster sql (step.cluster.getD false) = true)
    (ho : D.fanoutQuery B (parse sql) node true true .Auto = some o) :
    runSqlStep ensureReadOnlySql (ServerBackend D B parse own node) step sql =
      sqlOutcome step (o.nodes.flatMap own) (some (clusterMetaNote (clusterQueryMeta o.info)))
        (some (clusterQueryMeta o.info)) := by
  have hquery : (ServerBackend D B parse own node).clusterQuery sql =
      .ok (o.nodes.flatMap own, some (clusterQueryMeta o.info)) := by
    simp only [ServerBackend, ho]
  unfold runSqlStep
  rw [hguard]
  simp only [hneeds, if_true, hquery]
  rfl

/-- Whether all runs report is decided by the outcome of the step. -/
theorem reports_incompleteness_iff_outcome (D : Deployment) (statement : Statement) (node : Node)
    (step : SkillStep) : ReportsIncompleteness D statement node step ↔
      ∀ (B : Behaviour) (ρ : Type) (own : Node → List ρ) (routes : List Route) (o : FanoutOutcome),
        D.queryRoutes statement node true true .Auto = some routes →
        D.fanoutQuery B statement node true true .Auto = some o → Lacks own routes o.nodes →
        if o.nodes.flatMap own = [] then
          step.onEmpty = "abort" ∨ step.onEmpty = "warn" ∧ o.info.partialResult = true
        else o.info.partialResult = true := by
  unfold ReportsIncompleteness
  refine forall_congr' fun B => forall_congr' fun ρ => forall_congr' fun own =>
      forall_congr' fun routes =>
    forall_congr' fun o => forall_congr' fun hroutes => forall_congr' fun ho =>
      forall_congr' fun hlacks => ?_
  constructor
  · intro hall
    have hneeds : sqlNeedsCluster "global." (step.cluster.getD false) = true := by
      have hnamed : sqlNeedsCluster "global." false = true := by decide +kernel
      cases step.cluster.getD false with
      | false => exact hnamed
      | true => rfl
    have hrun : runSqlStep (fun _ => .ok ()) (ServerBackend D B (fun _ => statement) own node) step
        "global." = _ := run_cluster_step rfl hneeds ho
    have hbad := hall (fun _ => statement) (fun _ => .ok ()) "global." rfl rfl hneeds [(step, _)]
      (by rw [execute_single]; exact List.mem_singleton_self _)
    rw [hrun, execute_single, ne_eq, status_eq_ok_iff, List.forall_mem_singleton] at hbad
    apply (sqlOutcome_reports_iff step _ _ (clusterQueryMeta o.info)).mp
    by_contra hfine
    simp only [not_or, Bool.not_eq_true] at hfine
    exact hbad hfine
  · rintro houtcome parse guard sql rfl hguard hneeds steps hmem hok
    rw [run_cluster_step hguard hneeds ho] at hmem
    have hfine := (status_eq_ok_iff _).mp hok _ hmem
    rcases (sqlOutcome_reports_iff step _ _ (clusterQueryMeta o.info)).mpr houtcome with hbad | hbad
    · rw [hfine.1] at hbad
      cases hbad
    · rw [hfine.2] at hbad
      cases hbad

/-- A step reports what its results lack if nobody is asked, or if the fan-out reports it
and the step does not skip empty results. -/
theorem reports_incompleteness_iff (D : Deployment) (statement : Statement) (node : Node)
    (step : SkillStep) : ReportsIncompleteness D statement node step ↔
      ∀ routes, D.queryRoutes statement node true true .Auto = some routes →
        (∀ r ∈ routes, r.peer = node) ∨
          Reported node routes ∧ (step.onEmpty = "abort" ∨ step.onEmpty = "warn") := by
  rw [reports_incompleteness_iff_outcome]
  constructor
  · intro hall routes hroutes
    have htraced := D.traced_query _ _ _ _ _ routes hroutes
    by_cases halone : ∀ r ∈ routes, r.peer = node
    · exact Or.inl halone
    · right
      push Not at halone
      obtain ⟨r, hr, hpeer⟩ := halone
      constructor
      · -- everybody has a row, so the result is not empty
        by_contra hreported
        obtain ⟨s, hs, hmissing, hflag⟩ := exists_silenced htraced hreported
        obtain ⟨o, ho, hnodes, hinfo⟩ := D.query_outcome (.silence s.peer) hroutes
        have houtcome := hall _ Unit (fun _ => [()]) routes o hroutes ho
          (by rw [hnodes]; exact ⟨s, hs, List.cons_ne_nil _ _, hmissing⟩)
        rw [if_neg (by rw [hnodes]; exact List.cons_ne_nil _ _), hinfo, hflag] at houtcome
        cases houtcome
      · -- only the silenced peer has a row, so the result is empty
        have hmissing : r.peer ∉ node :: arrived (.silence r.peer) routes := by
          rw [List.mem_cons, not_or]
          exact ⟨hpeer, not_arrived_silence htraced r.peer⟩
        obtain ⟨o, ho, hnodes, -⟩ := D.query_outcome (.silence r.peer) hroutes
        have hempty : o.nodes.flatMap (fun n => if n = r.peer then [()] else []) = [] := by
          rw [List.flatMap_eq_nil_iff, hnodes]
          intro n hn
          apply if_neg
          rintro rfl
          exact hmissing hn
        have houtcome := hall _ Unit (fun n => if n = r.peer then [()] else []) routes o hroutes ho
          (by rw [hnodes]; exact ⟨r, hr, by simp, hmissing⟩)
        rw [if_pos hempty] at houtcome
        exact houtcome.imp id And.left
  · intro hcond B ρ own routes o hroutes ho hlacks
    obtain ⟨o', ho', hnodes, hinfo⟩ := D.query_outcome B hroutes
    obtain rfl := Option.some.inj (ho'.symm.trans ho)
    rw [hnodes] at hlacks
    rcases hcond routes hroutes with halone | ⟨hreported, hstep⟩
    · obtain ⟨r, hr, -, hmissing⟩ := hlacks
      exact absurd (List.mem_cons.mpr (Or.inl (halone r hr))) hmissing
    · have hflag := flagged_of_lacks hreported hlacks
      split_ifs
      · exact hstep.imp id fun hwarn => ⟨hwarn, hinfo.trans hflag⟩
      · exact hinfo.trans hflag

/-- When a fan-out reports what it lacks, and when a run that uses its result does. -/
theorem incompleteness_reported_iff (D : Deployment) (statement : Statement) (node : Node)
    (cluster hierarchical : Bool) (requested : ClusterFanoutScope) (step : SkillStep) :
    (D.KeepsIncompleteness statement node cluster hierarchical requested ↔
      ∀ routes, D.queryRoutes statement node cluster hierarchical requested = some routes →
        Reported node routes) ∧
    (ReportsIncompleteness D statement node step ↔
      ∀ routes, D.queryRoutes statement node true true .Auto = some routes →
        (∀ r ∈ routes, r.peer = node) ∨
          Reported node routes ∧ (step.onEmpty = "abort" ∨ step.onEmpty = "warn")) :=
  ⟨D.keeps_incompleteness_iff statement node cluster hierarchical requested,
    reports_incompleteness_iff D statement node step⟩

/-- Rank 0 evaluates a `global` statement for itself, with rank 1 failing: the answer has
no row of rank 1 and is not flagged. -/
theorem twoGroups_incompleteness_lost : ¬ ∀ (D : Deployment) (statement : Statement) (node : Node)
    (cluster hierarchical : Bool) (requested : ClusterFanoutScope),
      D.KeepsIncompleteness statement node cluster hierarchical requested := by
  intro hall
  have hkeeps :=
    hall twoGroupsAll ⟨[["global", "python", "metrics"]], true, none⟩ rank0 false true .Auto
  have hanswer :
    (twoGroupsAll.fanoutQuery (.silence rank1) ⟨[["global", "python", "metrics"]], true, none⟩
      rank0 false true .Auto).map (fun o => (decide (rank1 ∈ o.nodes), o.info.partialResult)) =
        some (false, false) := by
    decide +kernel
  have hasked :
    (twoGroupsAll.queryRoutes ⟨[["global", "python", "metrics"]], true, none⟩ rank0 false true
      .Auto).map (fun routes => routes.any fun r => r.peer = rank1) = some true := by
    decide +kernel
  obtain ⟨o, ho, hfields⟩ := Option.map_eq_some_iff.mp hanswer
  obtain ⟨routes, hroutes, hany⟩ := Option.map_eq_some_iff.mp hasked
  obtain ⟨r, hr, hpeer⟩ := List.any_eq_true.mp hany
  obtain ⟨hmissing, hflag⟩ := Prod.mk.inj hfields
  have hlacks : Lacks (fun _ => [()]) routes o.nodes := by
    refine ⟨r, hr, List.cons_ne_nil _ _, ?_⟩
    rw [of_decide_eq_true hpeer]
    exact of_decide_eq_false hmissing
  have htrue := hkeeps _ Unit _ routes o hroutes ho hlacks
  rw [hflag] at htrue
  cases htrue

end Probing.Skills
