import Mathlib.Data.List.Infix

/-!
# The skill runner

A skill is a list of steps. A SQL step asks the cluster or the process; the loop stops
at an error of a step that aborts, and the status of the run is read off the outcomes.
-/

namespace Probing.Skills

structure ClusterQueryMeta where
  partialResult : Bool
  nodesQueried : ℕ
  nodesFailed : List String
  peerBatchesDropped : ℕ
  deriving DecidableEq

def clusterMetaNote (m : ClusterQueryMeta) : String :=
  "cluster fan-out · " ++ toString m.nodesQueried ++ " nodes queried · " ++
    toString m.nodesFailed.length ++ " failed · " ++ toString m.peerBatchesDropped ++
    " peer batches dropped" ++ if m.partialResult then " · PARTIAL" else ""

/-- What a SQL step and the loop read from a step. -/
structure SkillStep where
  id : String
  title : String
  onEmpty : String
  emptyMessage : Option String
  cluster : Option Bool
  deriving DecidableEq

/-- The calls of a backend; a dataframe is the list of its rows. -/
structure SkillBackend (ρ : Type*) where
  queryLocal : String → Except String (List ρ)
  clusterQuery : String → Except String (List ρ × Option ClusterQueryMeta)

inductive StepOutcome (ρ : Type*)
  | Sql (step_id title : String) (dataframe : List ρ) (rowCount : ℕ) (note : Option String)
      (degraded : Bool) (cluster_meta : Option ClusterQueryMeta)
  | ApiText (step_id title text : String)
  | UiNavigate (step_id title view : String)
  | Skipped (step_id title reason : String)
  | Error (step_id title message : String)
  deriving DecidableEq

def sqlNeedsCluster (sql : String) (step_cluster : Bool) : Bool :=
  step_cluster || "global.".toList <:+: sql.toLower.toList

section Steps

variable {ρ : Type*}

/-- The outcome of a query that returned a dataframe. -/
def sqlOutcome (step : SkillStep) (df : List ρ) (note : Option String)
    (cluster_meta : Option ClusterQueryMeta) : StepOutcome ρ :=
  let degraded := cluster_meta.any ClusterQueryMeta.partialResult
  let rows := df.length
  if rows = 0 then
    if step.onEmpty = "abort" then
      .Error step.id step.title (step.emptyMessage.getD "Query returned no rows")
    else if step.onEmpty = "warn" then .Sql step.id step.title df 0 note degraded cluster_meta
    else .Skipped step.id step.title (step.emptyMessage.getD "No data")
  else .Sql step.id step.title df rows note degraded cluster_meta

/-- `ensure_read_only_sql` depends on the SQL parser. -/
def runSqlStep (ensureReadOnlySql : String → Except String Unit) (backend : SkillBackend ρ)
    (step : SkillStep) (sql : String) : StepOutcome ρ :=
  match ensureReadOnlySql sql with
  | .error e => .Error step.id step.title e
  | .ok _ =>
      let result : Except String (List ρ × Option String × Option ClusterQueryMeta) :=
        if sqlNeedsCluster sql (step.cluster.getD false) then
          (backend.clusterQuery sql).map fun (df, cluster_meta) =>
            (df, cluster_meta.map clusterMetaNote, cluster_meta)
        else (backend.queryLocal sql).map fun df => (df, none, none)
      match result with
      | .ok (df, note, cluster_meta) => sqlOutcome step df note cluster_meta
      | .error e =>
          if step.onEmpty = "skip" then .Skipped step.id step.title e
          else .Error step.id step.title e

namespace StepOutcome

def failed : StepOutcome ρ → Bool
  | .Error _ _ _ => true
  | _ => false

def isDegraded : StepOutcome ρ → Bool
  | .Sql _ _ _ _ _ degraded _ => degraded
  | _ => false

end StepOutcome

/-- The loop of `execute_skill_pb`, from what every step would give. -/
def executeSteps : List (SkillStep × StepOutcome ρ) → List (StepOutcome ρ)
  | [] => []
  | (step, outcome) :: rest =>
      if outcome.failed && step.onEmpty = "abort" then [outcome] else outcome :: executeSteps rest

def hadError (outcomes : List (StepOutcome ρ)) : Bool := outcomes.any StepOutcome.failed

def hadDegraded (outcomes : List (StepOutcome ρ)) : Bool := outcomes.any StepOutcome.isDegraded

/-- The status of `run_result_to_json`. -/
def status (outcomes : List (StepOutcome ρ)) : String :=
  if hadError outcomes then "error" else if hadDegraded outcomes then "degraded" else "ok"

/-- A run is fine if all its outcomes are. -/
theorem status_eq_ok_iff (outcomes : List (StepOutcome ρ)) :
    status outcomes = "ok" ↔ ∀ o ∈ outcomes, o.failed = false ∧ o.isDegraded = false := by
  have hall : (∀ o ∈ outcomes, o.failed = false ∧ o.isDegraded = false) ↔
      hadError outcomes = false ∧ hadDegraded outcomes = false := by
    simp only [hadError, hadDegraded, List.any_eq_false, Bool.not_eq_true]
    exact ⟨fun h => ⟨fun o ho => (h o ho).1, fun o ho => (h o ho).2⟩,
      fun h o ho => ⟨h.1 o ho, h.2 o ho⟩⟩
  rw [hall]
  unfold status
  cases hadError outcomes <;> cases hadDegraded outcomes <;> simp

theorem execute_single (step : SkillStep) (outcome : StepOutcome ρ) :
    executeSteps [(step, outcome)] = [outcome] := by
  unfold executeSteps
  split_ifs <;> rfl

/-- Rows that lack others are degraded, or an error where nothing is left and the step aborts. -/
theorem sqlOutcome_reports_iff (step : SkillStep) (df : List ρ) (note : Option String)
    (m : ClusterQueryMeta) :
    ((sqlOutcome step df note (some m)).failed = true ∨
      (sqlOutcome step df note (some m)).isDegraded = true) ↔
      if df = [] then step.onEmpty = "abort" ∨ step.onEmpty = "warn" ∧ m.partialResult = true
      else m.partialResult = true := by
  unfold sqlOutcome
  cases df with
  | nil =>
      rw [if_pos rfl]
      dsimp only
      rw [if_pos List.length_nil]
      split_ifs with habort hwarn
      · simp [StepOutcome.failed, habort]
      · simp [StepOutcome.failed, StepOutcome.isDegraded, hwarn]
      · simp [StepOutcome.failed, StepOutcome.isDegraded, habort, hwarn]
  | cons row rows =>
      rw [if_neg (List.cons_ne_nil row rows)]
      simp [StepOutcome.failed, StepOutcome.isDegraded]

end Steps

end Probing.Skills
