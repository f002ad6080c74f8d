import Probing.Core.Text
import Probing.Sql.Ast

/-!
# The read-only guards

The server and the skills refuse statements that are not read-only. Both guards recurse
through the same constructors and differ in the `SHOW` statements they list. What they
do not enter is collected, so that it can be said when an accepted string is read-only
throughout.
-/

namespace Probing.Sql.Ast

/-- `str::trim`. -/
def trim (sql : String) : String := .ofList (Core.trim sql.toList)

section Guard

variable (shows : ShowKind → Bool)

mutual

def queryIsReadOnly : Query → Bool
  | .mk _ cte_tables body _ => ctesAreReadOnly cte_tables && setExprIsReadOnly body

def ctesAreReadOnly : List Cte → Bool
  | [] => true
  | .mk _ query :: rest => queryIsReadOnly query && ctesAreReadOnly rest

def setExprIsReadOnly : SetExpr → Bool
  | .Select _ _ _ | .Values _ | .Table _ _ => true
  | .Query query => queryIsReadOnly query
  | .SetOperation left right => setExprIsReadOnly left && setExprIsReadOnly right
  | .Insert _ | .Update _ | .Delete _ | .Merge _ => false

end

def statementIsReadOnly : Statement → Bool
  | .Query query => queryIsReadOnly query
  | .Explain _ | .ExplainTable _ => true
  | .Show kind _ => shows kind
  | .Command _ _ => false

/-- The parser is given, with the text of its errors. -/
def ensureReadOnlySql (parse : String → Except String (List Statement)) (sql : String) :
    Except String Unit :=
  let trimmed := trim sql
  if trimmed = "" then .error "SQL must not be empty"
  else
    match parse trimmed with
    | .error e => .error ("invalid SQL: " ++ e)
    | .ok statements =>
        if statements = [] then .error "SQL must not be empty"
        else if statements.all (statementIsReadOnly shows) then .ok ()
        else .error "Only read-only SQL is allowed (SELECT/WITH/SHOW/DESCRIBE/EXPLAIN)"

end Guard

/-- The `SHOW` statements that the server lists. -/
def serverShows : ShowKind → Bool
  | .Tables | .Columns | .Create | .Functions | .Variable | .Variables | .Status => true
  | .Catalogs | .Databases | .ProcessList | .Schemas | .Charset | .Objects | .Views | .Collation =>
      false

/-- The `SHOW` statements that the skills list. -/
def skillsShows : ShowKind → Bool
  | .Functions | .Variable | .Status | .Variables | .Create | .Columns | .Catalogs
  | .Databases | .ProcessList
  | .Schemas | .Charset | .Objects | .Tables | .Views | .Collation => true

/-- `ensure_read_only_sql` of the server. -/
def serverEnsureReadOnlySql := ensureReadOnlySql serverShows

/-- `ensure_read_only_sql` of the skills. -/
def skillsEnsureReadOnlySql := ensureReadOnlySql skillsShows

/-- A write, `SET` or DDL statement, or a target to be created. -/
def Item.changes : Item → Bool
  | .command kind => kind ≠ .Other
  | .into _ => true
  | .query | .relation _ _ | .column _ _ => false

/-- Nothing among the items changes anything. -/
def Clean (items : List Item) : Prop := ∀ i ∈ items, i.changes = false

section Unvisited

mutual

/-- What a query holds where the guards do not look. -/
def queryUnvisited (env : Env) : Query → List Item
  | .mk recursive cte_tables body clauses =>
      let inner := env.define (cte_tables.map Cte.name)
      ctesUnvisited recursive env cte_tables ++
        (setExprUnvisited inner body ++ partsItems (inner.see body.names) clauses)

def ctesUnvisited (recursive : Bool) (env : Env) : List Cte → List Item
  | [] => []
  | .mk name query :: rest =>
      queryUnvisited (if recursive then env.define [name] else env) query ++
        ctesUnvisited recursive (env.define [name]) rest

/-- A select and a list of values are accepted as they are. -/
def setExprUnvisited (env : Env) : SetExpr → List Item
  | .Select into from_ exprs => SetExpr.items env (.Select into from_ exprs)
  | .Values exprs => exprsItems env exprs
  | .Query query => queryUnvisited env query
  | .SetOperation left right => setExprUnvisited env left ++ setExprUnvisited env right
  | .Table _ _ | .Insert _ | .Update _ | .Delete _ | .Merge _ => []

end

/-- An explained statement is accepted as it is, and the filter of a `SHOW`. -/
def statementUnvisited : Statement → List Item
  | .Query query => queryUnvisited .empty query
  | .Explain statement => statement.items .empty
  | .Show _ exprs => exprsItems .empty exprs
  | .ExplainTable _ | .Command _ _ => []

end Unvisited

theorem clean_nil : Clean [] := fun _ hi => nomatch hi

theorem clean_append {items more : List Item} : Clean (items ++ more) ↔ Clean items ∧ Clean more :=
  List.forall_mem_append

theorem clean_query {items : List Item} : Clean (.query :: items) ↔ Clean items := by
  unfold Clean
  rw [List.forall_mem_cons]
  exact and_iff_right rfl

mutual

/-- In a query that is accepted only the places that are not visited matter. -/
theorem query_clean (env : Env) : (query : Query) → queryIsReadOnly query = true →
    (Clean (query.items env) ↔ Clean (queryUnvisited env query))
  | .mk recursive cte_tables body clauses, h => by
      rw [queryIsReadOnly, Bool.and_eq_true] at h
      rw [Query.items, queryUnvisited, clean_query, clean_append, clean_append,
        clean_append, clean_append, ctes_clean recursive env cte_tables h.1,
        set_expr_clean _ body h.2]

theorem ctes_clean (recursive : Bool) (env : Env) : (cte_tables : List Cte) →
    ctesAreReadOnly cte_tables = true →
    (Clean (ctesItems recursive env cte_tables) ↔ Clean (ctesUnvisited recursive env cte_tables))
  | [], _ => Iff.rfl
  | .mk name query :: rest, h => by
      rw [ctesAreReadOnly, Bool.and_eq_true] at h
      rw [ctesItems, ctesUnvisited, clean_append, clean_append, query_clean _ query h.1,
        ctes_clean recursive _ rest h.2]

theorem set_expr_clean (env : Env) : (expr : SetExpr) → setExprIsReadOnly expr = true →
    (Clean (expr.items env) ↔ Clean (setExprUnvisited env expr))
  | .Select _ _ _, _ => Iff.rfl
  | .Values _, _ => Iff.rfl
  | .Table _ _, _ => Iff.rfl
  | .Query query, h => query_clean env query h
  | .SetOperation left right, h => by
      rw [setExprIsReadOnly, Bool.and_eq_true] at h
      rw [SetExpr.items, setExprUnvisited, clean_append, clean_append, set_expr_clean env left h.1,
        set_expr_clean env right h.2]

end

theorem statement_clean {shows : ShowKind → Bool} {statement : Statement}
    (h : statementIsReadOnly shows statement = true) :
    Clean (statement.items .empty) ↔ Clean (statementUnvisited statement) := by
  cases statement with
  | Query query => exact query_clean .empty query h
  | Explain statement => exact Iff.rfl
  | Show kind exprs => exact Iff.rfl
  | ExplainTable tableName =>
      refine iff_of_true (fun i hi => ?_) clean_nil
      rw [List.mem_singleton.mp hi]
      rfl
  | Command kind parts => cases h

section Accepted

variable {shows : ShowKind → Bool} {parse : String → Except String (List Statement)} {sql : String}

/-- A string is accepted when every one of its statements is. -/
theorem ensure_ok : ensureReadOnlySql shows parse sql = .ok () ↔
    trim sql ≠ "" ∧ ∃ statements, parse (trim sql) = .ok statements ∧ statements ≠ [] ∧
      ∀ s ∈ statements, statementIsReadOnly shows s = true := by
  unfold ensureReadOnlySql
  dsimp only
  by_cases hempty : trim sql = ""
  · rw [if_pos hempty]
    exact iff_of_false (fun h => nomatch h) fun h => h.1 hempty
  rw [if_neg hempty]
  cases hparse : parse (trim sql) with
  | error e => exact iff_of_false (fun h => nomatch h) fun ⟨_, _, h, _⟩ => nomatch h
  | ok statements =>
      dsimp only
      by_cases hnil : statements = []
      · rw [if_pos hnil]
        refine iff_of_false (fun h => nomatch h) fun ⟨_, statements', h, hsome, _⟩ => ?_
        exact hsome ((Except.ok.inj h).symm.trans hnil)
      rw [if_neg hnil]
      by_cases hall : statements.all (statementIsReadOnly shows) = true
      · rw [if_pos hall]
        exact iff_of_true rfl ⟨hempty, statements, rfl, hnil, List.all_eq_true.mp hall⟩
      · rw [if_neg hall]
        refine iff_of_false (fun h => nomatch h) fun ⟨_, statements', h, _, hread⟩ => hall ?_
        obtain rfl := Except.ok.inj h
        exact List.all_eq_true.mpr hread

/-- The guards accept the same strings, and what they accept changes nothing. -/
structure Guarded (parse : String → Except String (List Statement)) (sql : String) : Prop where
  server_clean : serverEnsureReadOnlySql parse sql = .ok () →
    ∀ statements, parse (trim sql) = .ok statements → ∀ s ∈ statements, Clean (s.items .empty)
  skills_clean : skillsEnsureReadOnlySql parse sql = .ok () →
    ∀ statements, parse (trim sql) = .ok statements → ∀ s ∈ statements, Clean (s.items .empty)
  agree : serverEnsureReadOnlySql parse sql = .ok () ↔ skillsEnsureReadOnlySql parse sql = .ok ()

/-- The skills list every `SHOW` that the server lists. -/
theorem skills_of_server {s : Statement} (h : statementIsReadOnly serverShows s = true) :
    statementIsReadOnly skillsShows s = true := by
  cases s with
  | Show kind exprs => cases kind <;> rfl
  | Query query => exact h
  | Explain statement => rfl
  | ExplainTable tableName => rfl
  | Command kind parts => cases h

theorem server_of_skills {s : Statement} (h : statementIsReadOnly skillsShows s = true)
    (hshow : ∀ kind exprs, s = .Show kind exprs → serverShows kind = true) :
    statementIsReadOnly serverShows s = true := by
  cases s with
  | Show kind exprs => exact hshow kind exprs rfl
  | Query query => exact h
  | Explain statement => rfl
  | ExplainTable tableName => rfl
  | Command kind parts => cases h

/-- The guards keep what they promise for the strings whose statements, where the skills
accept them, change nothing in the places that are not visited and are no `SHOW` that
only the skills list. -/
theorem guarded_iff (parse : String → Except String (List Statement)) (sql : String) :
    Guarded parse sql ↔ ∀ statements, trim sql ≠ "" → parse (trim sql) = .ok statements →
      (∀ s ∈ statements, statementIsReadOnly skillsShows s = true) →
        ∀ s ∈ statements, Clean (statementUnvisited s) ∧
          ∀ kind exprs, s = .Show kind exprs → serverShows kind = true := by
  constructor
  · intro h statements hsome hparse hread s hs
    have hskills : skillsEnsureReadOnlySql parse sql = .ok () :=
      ensure_ok.2 ⟨hsome, statements, hparse, List.ne_nil_of_mem hs, hread⟩
    refine ⟨(statement_clean (hread s hs)).mp (h.skills_clean hskills statements hparse s hs), ?_⟩
    rintro kind exprs rfl
    obtain ⟨-, statements', hparse', -, hserver⟩ := ensure_ok.1 (h.agree.mpr hskills)
    obtain rfl := Except.ok.inj (hparse.symm.trans hparse')
    exact hserver _ hs
  · intro h
    have hclean (hskills : skillsEnsureReadOnlySql parse sql = .ok ()) (statements : List Statement)
        (hparse : parse (trim sql) = .ok statements) : ∀ s ∈ statements, Clean (s.items .empty) ∧
          statementIsReadOnly serverShows s = true := by
      obtain ⟨hsome, statements', hparse', -, hread⟩ := ensure_ok.1 hskills
      obtain rfl := Except.ok.inj (hparse.symm.trans hparse')
      intro s hs
      obtain ⟨hunvisited, hshow⟩ := h statements hsome hparse hread s hs
      exact ⟨(statement_clean (hread s hs)).mpr hunvisited, server_of_skills (hread s hs) hshow⟩
    have hskills_of (hserver : serverEnsureReadOnlySql parse sql = .ok ()) :
        skillsEnsureReadOnlySql parse sql = .ok () := by
      obtain ⟨hsome, statements, hparse, hnil, hread⟩ := ensure_ok.1 hserver
      exact ensure_ok.2 ⟨hsome, statements, hparse, hnil, fun s hs => skills_of_server (hread s hs)⟩
    refine ⟨fun hserver statements hparse s hs =>
      (hclean (hskills_of hserver) statements hparse s hs).1, fun hskills statements hparse s hs =>
        (hclean hskills statements hparse s hs).1, hskills_of, fun hskills => ?_⟩
    obtain ⟨hsome, statements, hparse, hnil, -⟩ := ensure_ok.1 hskills
    exact ensure_ok.2 ⟨hsome, statements, hparse, hnil,
      fun s hs => (hclean hskills statements hparse s hs).2⟩

end Accepted

/-- A parser for one string. -/
def explainedDelete (sql : String) : Except String (List Statement) :=
  if sql = "EXPLAIN ANALYZE DELETE FROM t" then
    .ok [.Explain (.Command .Write [.Relation [.Identifier (.new "t")]])]
  else .error "unexpected statement"

/-- A write is accepted where it is explained. -/
theorem explained_delete_accepted : ¬ Guarded explainedDelete "EXPLAIN ANALYZE DELETE FROM t" := by
  intro h
  have hserver : serverEnsureReadOnlySql explainedDelete "EXPLAIN ANALYZE DELETE FROM t" =
      .ok () := by
    decide
  have hparse : explainedDelete (trim "EXPLAIN ANALYZE DELETE FROM t") =
      .ok [.Explain (.Command .Write [.Relation [.Identifier (.new "t")]])] := by
    have htrim : trim "EXPLAIN ANALYZE DELETE FROM t" = "EXPLAIN ANALYZE DELETE FROM t" := by decide
    rw [htrim]
    exact if_pos rfl
  have hclean :=
    h.server_clean hserver _ hparse _ List.mem_cons_self (.command .Write) List.mem_cons_self
  cases hclean

end Probing.Sql.Ast
