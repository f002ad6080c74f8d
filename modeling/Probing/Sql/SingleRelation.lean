import Probing.Core.Text
import Probing.Federation.AggregatePlan
import Probing.Federation.Fanout

/-!
# The single-relation gate

A query may fan out through the `global` catalog when it scans one relation. The gate
tests the shape of the query and searches the debug rendering of its body; the rendering
is not part of the repository, and only has to show the queries that expressions hold.
-/

namespace Probing.Sql.Ast

open Probing.Core (contains)
open Probing.Federation (firstIdentEq)
open Probing.Federation.AggregatePushdown (safeUnquoted)

section Gate

variable (parse : String → Except String (List Statement)) (debug : SetExpr → String)

def parseSingleQuery (sql : String) : Option Query :=
  match parse sql with
  | .ok [.Query query] => some query
  | _ => none

def queryContainsSubquery (body : SetExpr) : Bool :=
  contains (debug body) "Subquery" || contains (debug body) "Exists"

def queryIsSingleRelationScan : Query → Bool
  | .mk _ [] (.Select into [.mk relation [] exprs] selectExprs) _ =>
      !queryContainsSubquery debug (.Select into [.mk relation [] exprs] selectExprs)
  | _ => false

def canFanoutViaGlobalCatalog (sql : String) : Bool :=
  match parseSingleQuery parse sql with
  | some query => queryIsSingleRelationScan debug query
  | none => false

end Gate

def Expr.subquery : Expr → Option Query
  | .Subquery query => some query
  | .Column _ => none

/-- The queries that expressions hold. -/
def exprQueries (exprs : List Expr) : List Query := exprs.filterMap Expr.subquery

mutual

/-- The queries that expressions of a table hold, not those of derived tables. -/
def TableFactor.exprQueries : TableFactor → List Query
  | .Table _ _ exprs | .Function exprs => Ast.exprQueries exprs
  | .Derived _ _ => []
  | .NestedJoin table_with_joins => table_with_joins.exprQueries
  | .Pivot table exprs => table.exprQueries ++ Ast.exprQueries exprs

def TableWithJoins.exprQueries : TableWithJoins → List Query
  | .mk relation joins exprs =>
      relation.exprQueries ++ (factorsExprQueries joins ++ Ast.exprQueries exprs)

def factorsExprQueries : List TableFactor → List Query
  | [] => []
  | t :: rest => t.exprQueries ++ factorsExprQueries rest

end

mutual

/-- The derived tables of a table. -/
def TableFactor.derived : TableFactor → List Query
  | .Table _ _ _ | .Function _ => []
  | .Derived _ subquery => [subquery]
  | .NestedJoin table_with_joins => table_with_joins.derived
  | .Pivot table _ => table.derived

def TableWithJoins.derived : TableWithJoins → List Query
  | .mk relation joins _ => relation.derived ++ factorsDerived joins

def factorsDerived : List TableFactor → List Query
  | [] => []
  | t :: rest => t.derived ++ factorsDerived rest

end

mutual

/-- The names that stand as tables, not those in derived tables. -/
def TableFactor.tables : TableFactor → List ObjectName
  | .Table name _ _ => [name]
  | .Derived _ _ | .Function _ => []
  | .NestedJoin table_with_joins => table_with_joins.tables
  | .Pivot table _ => table.tables

def TableWithJoins.tables : TableWithJoins → List ObjectName
  | .mk relation joins _ => relation.tables ++ factorsTables joins

def factorsTables : List TableFactor → List ObjectName
  | [] => []
  | t :: rest => t.tables ++ factorsTables rest

end

/-- The rendering shows every query that an expression of a select holds, as
`Expr::Subquery`, `Expr::InSubquery`, `Expr::Exists` or a function argument. -/
def Renders (debug : SetExpr → String) : Prop :=
  ∀ into from_ exprs, (∃ t ∈ from_, TableWithJoins.exprQueries t ≠ []) ∨ exprQueries exprs ≠ [] →
    queryContainsSubquery debug (.Select into from_ exprs) = true

/-- The names of relations among the items. -/
def relations (items : List Item) : List ObjectName :=
  items.filterMap fun i => match i with
    | .relation _ name => some name
    | _ => none

/-- The tree has one reference to a relation and no query but itself. -/
def SingleRelation (query : Query) : Prop :=
  (relations (query.items .empty)).length = 1 ∧ (query.items .empty).count .query = 1

/-- A query of the accepted shape shows a marker, or the places that the gate does not look
at are harmless: the table of `FROM` and the clauses after the body name one relation,
and neither holds a query. -/
def Unchecked (debug : SetExpr → String) : Query → Prop
  | .mk _ [] (.Select into [.mk relation [] exprs] selectExprs) clauses =>
      let body := SetExpr.Select into [.mk relation [] exprs] selectExprs
      let after := partsItems (Env.empty.see body.names) clauses
      queryContainsSubquery debug body = true ∨
        (relation.tables ++ relations after).length = 1 ∧ relation.derived = [] ∧ Item.query ∉ after
  | _ => True

/-- The schema and the table of `global.<schema>.<table>`. -/
def globalTableRef : Query → Option (String × String)
  | .mk _ _ (.Select _ (.mk (.Table name _ _) [] _ :: _) _) _ =>
      match name.filterMap ObjectNamePart.asIdent with
      | [catalog, schema, table] =>
          if firstIdentEq [catalog.value] "global" then some (schema.value, table.value) else none
      | _ => none
  | _ => none

/-- The relation in the SQL text that each node is sent. -/
def perNodeFrom (schemaName tableName : String) : String :=
  "probe." ++ schemaName ++ "." ++ tableName

/-- The expressions of the select, of which some are copied for the nodes. -/
def selectExprs : Query → List Expr
  | .mk _ _ (.Select _ _ exprs) _ => exprs
  | _ => []

theorem relations_append (items more : List Item) :
    relations (items ++ more) = relations items ++ relations more :=
  List.filterMap_append

theorem query_mem_items (env : Env) (query : Query) : Item.query ∈ query.items env := by
  obtain ⟨recursive, cte_tables, body, clauses⟩ := query
  rw [Query.items]
  exact List.mem_cons_self

theorem query_mem_exprs {env : Env} {exprs : List Expr} :
    Item.query ∈ exprsItems env exprs ↔ exprQueries exprs ≠ [] := by
  induction exprs with
  | nil => exact iff_of_false (fun h => by cases h) fun h => h rfl
  | cons e rest ih =>
      cases e with
      | Subquery query =>
          rw [exprsItems, Expr.items]
          exact iff_of_true (List.mem_append_left _ (query_mem_items env query))
            (List.cons_ne_nil _ _)
      | Column qualifier =>
          rw [exprsItems, Expr.items, List.mem_append, List.mem_singleton, ih]
          exact or_iff_right fun h => by cases h

/-- Expressions without queries name no relation. -/
theorem relations_exprs {env : Env} {exprs : List Expr} (h : exprQueries exprs = []) :
    relations (exprsItems env exprs) = [] := by
  induction exprs with
  | nil => rfl
  | cons e rest ih =>
      cases e with
      | Subquery query => exact absurd h (List.cons_ne_nil _ _)
      | Column qualifier =>
          rw [exprsItems, Expr.items, relations_append]
          exact ih h

theorem append_ne_nil {α : Type} {as bs : List α} : as ++ bs ≠ [] ↔ as ≠ [] ∨ bs ≠ [] := by
  rw [ne_eq, List.append_eq_nil_iff, not_and_or]

mutual

/-- A table holds a query as a derived table or in an expression. -/
theorem query_mem_factor (env : Env) (names : List ObjectName) : (t : TableFactor) →
    (Item.query ∈ t.items env names ↔ t.derived ≠ [] ∨ t.exprQueries ≠ [])
  | .Table name aliased exprs => by
      rw [TableFactor.items, List.mem_cons, query_mem_exprs]
      simp [TableFactor.derived, TableFactor.exprQueries]
  | .Derived lateral_ subquery => by
      rw [TableFactor.items]
      exact iff_of_true (query_mem_items _ subquery) (.inl (List.cons_ne_nil _ _))
  | .Function exprs => by
      rw [TableFactor.items, query_mem_exprs]
      simp [TableFactor.derived, TableFactor.exprQueries]
  | .NestedJoin table_with_joins => query_mem_table env names table_with_joins
  | .Pivot table exprs => by
      rw [TableFactor.items, TableFactor.derived, TableFactor.exprQueries, List.mem_append,
        query_mem_exprs, query_mem_factor env names table, append_ne_nil, or_assoc]

theorem query_mem_table (env : Env) (names : List ObjectName) : (t : TableWithJoins) →
    (Item.query ∈ t.items env names ↔ t.derived ≠ [] ∨ t.exprQueries ≠ [])
  | .mk relation joins exprs => by
      rw [TableWithJoins.items, TableWithJoins.derived, TableWithJoins.exprQueries, List.mem_append,
        List.mem_append, query_mem_exprs, query_mem_factor env names relation,
        query_mem_factors env names joins, append_ne_nil, append_ne_nil, append_ne_nil]
      tauto

theorem query_mem_factors (env : Env) (names : List ObjectName) : (ts : List TableFactor) →
    (Item.query ∈ factorsItems env names ts ↔ factorsDerived ts ≠ [] ∨ factorsExprQueries ts ≠ [])
  | [] => by simp [factorsItems, factorsDerived, factorsExprQueries]
  | t :: rest => by
      rw [factorsItems, factorsDerived, factorsExprQueries, List.mem_append,
        query_mem_factor env names t, query_mem_factors env names rest,
        append_ne_nil, append_ne_nil]
      tauto

end

mutual

/-- A table without queries names its tables. -/
theorem relations_factor (env : Env) (names : List ObjectName) :
    (t : TableFactor) → t.derived = [] → t.exprQueries = [] → relations
    (t.items env names) = t.tables
  | .Table name aliased exprs, _, hexprs => by
      rw [TableFactor.items]
      exact congrArg (name :: ·) (relations_exprs hexprs)
  | .Derived _ _, hderived, _ => absurd hderived (List.cons_ne_nil _ _)
  | .Function exprs, _, hexprs => relations_exprs hexprs
  | .NestedJoin table_with_joins, hderived, hexprs =>
      relations_table env names table_with_joins hderived hexprs
  | .Pivot table exprs, hderived, hexprs => by
      obtain ⟨htable, hpivot⟩ := List.append_eq_nil_iff.mp hexprs
      rw [TableFactor.items, relations_append, relations_factor env names table hderived htable,
        relations_exprs hpivot, List.append_nil]
      rfl

theorem relations_table (env : Env) (names : List ObjectName) :
    (t : TableWithJoins) → t.derived = [] → t.exprQueries = [] → relations
    (t.items env names) = t.tables
  | .mk relation joins exprs, hderived, hexprs => by
      obtain ⟨hrelation, hrest⟩ := List.append_eq_nil_iff.mp hexprs
      obtain ⟨hjoins, hon⟩ := List.append_eq_nil_iff.mp hrest
      obtain ⟨hderived, hderived'⟩ := List.append_eq_nil_iff.mp hderived
      rw [TableWithJoins.items, relations_append, relations_append,
        relations_factor env names relation hderived hrelation,
        relations_factors env names joins hderived' hjoins, relations_exprs hon, List.append_nil]
      rfl

theorem relations_factors (env : Env) (names : List ObjectName) : (ts : List TableFactor) →
    factorsDerived ts = [] → factorsExprQueries ts = [] → relations
    (factorsItems env names ts) = factorsTables ts
  | [], _, _ => rfl
  | t :: rest, hderived, hexprs => by
      obtain ⟨hexpr, hexprs⟩ := List.append_eq_nil_iff.mp hexprs
      obtain ⟨hderived, hderived'⟩ := List.append_eq_nil_iff.mp hderived
      rw [factorsItems, relations_append, relations_factor env names t hderived hexpr,
        relations_factors env names rest hderived' hexprs]
      rfl

end

/-- A query that the gate accepts. -/
theorem accepted_shape {debug : SetExpr → String} {query : Query}
    (h : queryIsSingleRelationScan debug query = true) :
    ∃ recursive into relation exprs selectExprs clauses,
      query = .mk recursive [] (.Select into [.mk relation [] exprs] selectExprs) clauses ∧
        queryContainsSubquery debug (.Select into [.mk relation [] exprs] selectExprs) = false := by
  unfold queryIsSingleRelationScan at h
  split at h
  · exact ⟨_, _, _, _, _, _, rfl, by simpa using h⟩
  · cases h

/-- Where the rendering shows the queries of expressions, an accepted query has none. -/
theorem accepted_exprs {debug : SetExpr → String} (hdebug : Renders debug)
    {into : Option ObjectName} {relation : TableFactor} {exprs selectExprs : List Expr}
    (h : queryContainsSubquery debug (.Select into [.mk relation [] exprs] selectExprs) = false) :
    relation.exprQueries = [] ∧ exprQueries exprs = [] ∧ exprQueries selectExprs = [] := by
  have htable : (TableWithJoins.mk relation [] exprs).exprQueries = [] := by
    by_contra hsome
    exact nomatch h.symm.trans
      (hdebug into _ selectExprs (.inl ⟨_, List.mem_singleton_self _, hsome⟩))
  have hselect : exprQueries selectExprs = [] := by
    by_contra hsome
    exact nomatch h.symm.trans (hdebug into _ selectExprs (.inr hsome))
  obtain ⟨hrelation, hon⟩ := List.append_eq_nil_iff.mp htable
  exact ⟨hrelation, hon, hselect⟩

/-- What an accepted query holds once its expressions hold no query. -/
theorem accepted_single {recursive : Bool} {into : Option ObjectName} {relation : TableFactor}
    {exprs selectExprs : List Expr} {clauses : List Part} (hrelation : relation.exprQueries = [])
    (hexprs : exprQueries exprs = []) (hselect : exprQueries selectExprs = []) {after : List Item}
    (hafter : partsItems
      (Env.empty.see (SetExpr.names (.Select into [.mk relation [] exprs] selectExprs))) clauses =
      after) :
    SingleRelation (.mk recursive [] (.Select into [.mk relation [] exprs] selectExprs) clauses) ↔
      (relation.tables ++ relations after).length = 1 ∧ relation.derived = [] ∧
      Item.query ∉ after := by
  let names := [TableWithJoins.mk relation [] exprs].flatMap TableWithJoins.names
  let body := (into.map Item.into).toList ++
    ((TableWithJoins.mk relation [] exprs).items .empty names ++
      exprsItems (Env.empty.see names) selectExprs)
  have hitems :
      (Query.mk recursive [] (.Select into [.mk relation [] exprs] selectExprs) clauses).items
        .empty = .query :: (body ++ after) := by
    rw [← hafter, Query.items, SetExpr.items, ctesItems, tablesItems, tablesItems, List.append_nil]
    rfl
  have hinto : relations (into.map Item.into).toList = [] ∧
      Item.query ∉ (into.map Item.into).toList := by
    cases into with
    | none => exact ⟨rfl, fun h => by cases h⟩
    | some name => exact ⟨rfl, fun h => by cases List.mem_singleton.mp h⟩
  have hbody : Item.query ∈ body ↔ relation.derived ≠ [] := by
    have hderived : (TableWithJoins.mk relation [] exprs).derived = relation.derived :=
      List.append_nil _
    have htable : (TableWithJoins.mk relation [] exprs).exprQueries = [] := by
      rw [TableWithJoins.exprQueries, hrelation, hexprs]
      rfl
    rw [List.mem_append, List.mem_append, query_mem_exprs, query_mem_table,
      hderived, htable, hselect]
    have hnot := hinto.2
    tauto
  have hrelations (hderived : relation.derived = []) : relations body = relation.tables := by
    rw [relations_append, hinto.1, relations_append, relations_exprs hselect, List.append_nil,
      List.nil_append, TableWithJoins.items, relations_append,
      relations_factor _ _ _ hderived hrelation, relations_append,
      relations_exprs hexprs, List.append_nil]
    exact List.append_nil _
  unfold SingleRelation
  rw [hitems, List.count_cons_self, Nat.add_eq_right, List.count_eq_zero,
    List.mem_append, hbody, not_or, not_ne_iff]
  change (relations (body ++ after)).length = 1 ∧ _ ↔ _
  rw [relations_append]
  refine and_congr_left fun hharmless => ?_
  rw [hrelations hharmless.1]

/-- A name in the `global` catalog. -/
def namesGlobal (name : ObjectName) : Bool :=
  firstIdentEq (name.filterMap fun part => part.asIdent.map Ident.value) "global"

/-- A relation that is written without quotes is read as it is written. -/
def ReadsPlain (relations_of : String → List ObjectName) : Prop :=
  ∀ schemaName tableName, safeUnquoted schemaName = true → safeUnquoted tableName = true →
    relations_of (perNodeFrom schemaName tableName) =
      [[.Identifier (.new "probe"), .Identifier (.new schemaName), .Identifier (.new tableName)]]

section Exact

variable {parse : String → Except String (List Statement)} {debug : SetExpr → String}
  {relations_of : String → List ObjectName}

/-- The gate lets queries through that are no scan of one relation exactly where the places
that it does not look at are not harmless. What is then sent to the nodes for a relation
with plain names stays in the `probe` catalog. -/
theorem gate_exact_iff (hdebug : Renders debug) (hplain : ReadsPlain relations_of) (sql : String) :
    ((∀ query, parseSingleQuery parse sql = some query →
      canFanoutViaGlobalCatalog parse debug sql = true →
        SingleRelation query) ↔
      ∀ query, parseSingleQuery parse sql = some query → Unchecked debug query) ∧
    ∀ query, parseSingleQuery parse sql = some query →
    canFanoutViaGlobalCatalog parse debug sql = true →
      ∀ schemaName tableName, globalTableRef query = some (schemaName, tableName) →
        safeUnquoted schemaName = true → safeUnquoted tableName = true →
          ∀ copied ⊆ selectExprs query, ∀ name ∈ relations_of (perNodeFrom schemaName tableName) ++
            relations (exprsItems .empty copied), namesGlobal name = false := by
  have hgate {query : Query} (hquery : parseSingleQuery parse sql = some query) :
      canFanoutViaGlobalCatalog parse debug sql = queryIsSingleRelationScan debug query := by
    unfold canFanoutViaGlobalCatalog
    rw [hquery]
  refine ⟨⟨fun h query hquery => ?_, fun h query hquery hopen => ?_⟩, ?_⟩
  · unfold Unchecked
    split
    · rename_i recursive into relation exprs selectExprs clauses
      cases hmarked :
          queryContainsSubquery debug (.Select into [.mk relation [] exprs] selectExprs) with
      | true => exact .inl hmarked
      | false =>
          have hopen : canFanoutViaGlobalCatalog parse debug sql = true := by
            rw [hgate hquery, queryIsSingleRelationScan, hmarked]
            rfl
          obtain ⟨hrelation, hexprs, hselect⟩ := accepted_exprs hdebug hmarked
          exact .inr ((accepted_single hrelation hexprs hselect rfl).mp (h _ hquery hopen))
    · trivial
  · rw [hgate hquery] at hopen
    obtain ⟨recursive, into, relation, exprs, selectExprs, clauses, rfl, hmarked⟩ :=
      accepted_shape hopen
    obtain ⟨hrelation, hexprs, hselect⟩ := accepted_exprs hdebug hmarked
    rcases h _ hquery with hshown | hharmless
    · exact nomatch hmarked.symm.trans hshown
    · exact (accepted_single hrelation hexprs hselect rfl).mpr hharmless
  · intro query hquery hopen schemaName tableName _ hschema htable copied hcopied name hname
    rw [hgate hquery] at hopen
    obtain ⟨recursive, into, relation, exprs, selectExprs, clauses, rfl, hmarked⟩ :=
      accepted_shape hopen
    obtain ⟨-, -, hselect⟩ := accepted_exprs hdebug hmarked
    have hnone : exprQueries copied = [] := by
      rw [exprQueries, List.filterMap_eq_nil_iff] at hselect ⊢
      exact fun e he => hselect e (hcopied he)
    have hprobe : Federation.eqIgnoreAsciiCase "probe" "global" = false := by
      rw [Federation.eqIgnoreAsciiCase, Federation.probe_toLower, Federation.global_toLower]
      decide
    rw [hplain _ _ hschema htable, relations_exprs hnone, List.append_nil] at hname
    rw [List.mem_singleton.mp hname]
    exact hprobe

end Exact

/-- A rendering that keeps of a select only whether its expressions hold a query. -/
def abridged : SetExpr → String
  | .Select _ from_ exprs =>
      if from_.all (fun t => t.exprQueries.isEmpty) && (exprQueries exprs).isEmpty then
        "Select(Select { .. })"
      else "Select(Select { .. Subquery(Query { .. }) })"
  | _ => ""

theorem abridged_renders : Renders abridged := by
  intro into from_ exprs h
  have hmarked : abridged (.Select into from_ exprs) =
      "Select(Select { .. Subquery(Query { .. }) })" := by
    apply if_neg
    simp only [Bool.and_eq_true, List.all_eq_true, List.isEmpty_iff]
    rintro ⟨htables, hexprs⟩
    rcases h with ⟨t, ht, hsome⟩ | hsome
    · exact hsome (htables t ht)
    · exact hsome hexprs
  unfold queryContainsSubquery
  rw [hmarked]
  decide

/-- A name as it is written without quotes. -/
def plainName (parts : List String) : ObjectName := parts.map fun part => .Identifier (.new part)

/-- `SELECT rank FROM <name>`, with the limit that follows. -/
def scanOf (relation : TableFactor) : Query :=
  .mk false [] (.Select none [.mk relation [] []] []) []

/-- A parser for two strings. -/
def scans (sql : String) : Except String (List Statement) :=
  if sql = "SELECT rank FROM global.python.metrics LIMIT 5" then
    .ok [.Query (scanOf (.Table (plainName ["global", "python", "metrics"]) false []))]
  else if sql = "SELECT rank FROM (SELECT rank FROM python.a) AS d" then
    .ok [.Query (scanOf (.Derived false (scanOf (.Table (plainName ["python", "a"]) false []))))]
  else .error "unexpected statement"

/-- The relation of a text without quotes. -/
def splitName (text : String) : List ObjectName :=
  [plainName ((text.toList.splitOn '.').map String.ofList)]

theorem dot_not_mem {name : String} (h : safeUnquoted name = true) : '.' ∉ name.toList := by
  simp only [safeUnquoted, Bool.and_eq_true, List.all_eq_true] at h
  exact fun hmem => absurd (h.1.2 _ hmem) (by decide)

theorem splitName_plain : ReadsPlain splitName := by
  intro schemaName tableName hschema htable
  have hdots : (perNodeFrom schemaName tableName).toList =
      ['.'].intercalate ["probe".toList, schemaName.toList, tableName.toList] := by
    simp [perNodeFrom, List.intercalate]
  have hfree : ∀ l ∈ ["probe".toList, schemaName.toList, tableName.toList], '.' ∉ l := by
    simp only [List.mem_cons, List.not_mem_nil, or_false]
    rintro l (rfl | rfl | rfl)
    · decide
    · exact dot_not_mem hschema
    · exact dot_not_mem htable
  unfold splitName
  rw [hdots, List.splitOn_intercalate _ hfree (List.cons_ne_nil _ _)]
  simp [plainName]

theorem gate_exact_scan :
    SingleRelation (scanOf (.Table (plainName ["global", "python", "metrics"]) false [])) ∧
      ∀ name ∈ splitName (perNodeFrom "python" "metrics"), namesGlobal name = false := by
  have hquery : parseSingleQuery scans "SELECT rank FROM global.python.metrics LIMIT 5" =
      some (scanOf (.Table (plainName ["global", "python", "metrics"]) false [])) := rfl
  have hgate := @gate_exact_iff scans _ _ abridged_renders splitName_plain
    "SELECT rank FROM global.python.metrics LIMIT 5"
  refine ⟨hgate.1.mpr (fun query h => ?_) _ hquery (by decide), fun name hname => ?_⟩
  · obtain rfl := Option.some.inj (hquery.symm.trans h)
    exact .inr (by decide)
  · exact hgate.2 _ hquery (by decide) "python" "metrics" (by decide +kernel) (by decide)
      (by decide) [] (List.nil_subset _) name (List.mem_append_left _ hname)

theorem gate_lets_derived_through : Renders abridged ∧
    canFanoutViaGlobalCatalog scans abridged "SELECT rank FROM (SELECT rank FROM python.a) AS d" =
      true ∧
      ¬ SingleRelation
        (scanOf (.Derived false (scanOf (.Table (plainName ["python", "a"]) false [])))) := by
  refine ⟨abridged_renders, by decide, ?_⟩
  unfold SingleRelation
  decide

end Probing.Sql.Ast
