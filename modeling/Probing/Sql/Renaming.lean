import Probing.Sql.Ast

/-!
# Renaming relations

A visitor replaces the names of relations and leaves everything else. What a renamed tree
holds are the renamed items of the tree, in the same scopes.
-/

namespace Probing.Sql.Ast

section Visit

variable (f : ObjectName → ObjectName)

mutual

/-- `visit_relations_mut`. -/
def Statement.visitRelations : Statement → Statement
  | .Query query => .Query query.visitRelations
  | .Explain statement => .Explain statement.visitRelations
  | .ExplainTable tableName => .ExplainTable (f tableName)
  | .Show kind exprs => .Show kind (exprsVisit exprs)
  | .Command kind parts => .Command kind (partsVisit parts)

def Query.visitRelations : Query → Query
  | .mk recursive cte_tables body clauses =>
      .mk recursive (ctesVisit cte_tables) body.visitRelations (partsVisit clauses)

def ctesVisit : List Cte → List Cte
  | [] => []
  | .mk name query :: rest => .mk name query.visitRelations :: ctesVisit rest

def exprsVisit : List Expr → List Expr
  | [] => []
  | e :: rest => e.visitRelations :: exprsVisit rest

def Expr.visitRelations : Expr → Expr
  | .Subquery query => .Subquery query.visitRelations
  | .Column qualifier => .Column qualifier

def SetExpr.visitRelations : SetExpr → SetExpr
  | .Select into from_ exprs => .Select into (tablesVisit from_) (exprsVisit exprs)
  | .Query query => .Query query.visitRelations
  | .SetOperation left right => .SetOperation left.visitRelations right.visitRelations
  | .Values exprs => .Values (exprsVisit exprs)
  | .Table schemaName tableName => .Table schemaName tableName
  | .Insert statement => .Insert statement.visitRelations
  | .Update statement => .Update statement.visitRelations
  | .Delete statement => .Delete statement.visitRelations
  | .Merge statement => .Merge statement.visitRelations

def tablesVisit : List TableWithJoins → List TableWithJoins
  | [] => []
  | t :: rest => t.visitRelations :: tablesVisit rest

def TableWithJoins.visitRelations : TableWithJoins → TableWithJoins
  | .mk relation joins exprs => .mk relation.visitRelations (factorsVisit joins) (exprsVisit exprs)

def factorsVisit : List TableFactor → List TableFactor
  | [] => []
  | t :: rest => t.visitRelations :: factorsVisit rest

def TableFactor.visitRelations : TableFactor → TableFactor
  | .Table name aliased exprs => .Table (f name) aliased (exprsVisit exprs)
  | .Derived lateral_ subquery => .Derived lateral_ subquery.visitRelations
  | .Function exprs => .Function (exprsVisit exprs)
  | .NestedJoin table_with_joins => .NestedJoin table_with_joins.visitRelations
  | .Pivot table exprs => .Pivot table.visitRelations (exprsVisit exprs)

def partsVisit : List Part → List Part
  | [] => []
  | p :: rest => p.visitRelations :: partsVisit rest

def Part.visitRelations : Part → Part
  | .Expr expr => .Expr expr.visitRelations
  | .Relation name => .Relation (f name)
  | .Statement statement => .Statement statement.visitRelations

end

/-- An item whose relation names are replaced. -/
def Item.rename : Item → Item
  | .relation ctes name => .relation ctes (f name)
  | .column tables qualifier => .column (tables.map f) qualifier
  | .query => .query
  | .command kind => .command kind
  | .into name => .into name

/-- A scope whose tables are renamed. -/
def Env.rename (env : Env) : Env := { env with tables := env.tables.map f }

end Visit

variable {f : ObjectName → ObjectName} {env : Env} {names : List ObjectName}

@[simp] theorem rename_define (env : Env) (ctes : List Ident) :
    (env.define ctes).rename f = (env.rename f).define ctes := rfl

@[simp] theorem rename_see (env : Env) (names : List ObjectName) :
    (env.see names).rename f = (env.rename f).see (names.map f) := by
  unfold Env.rename Env.see
  rw [List.map_append]

mutual

theorem factor_names (t : TableFactor) : (t.visitRelations f).names = t.names.map f := by
  cases t with
  | Table name aliased exprs => cases aliased <;> rfl
  | Derived lateral_ subquery => rfl
  | Function exprs => rfl
  | NestedJoin table_with_joins => exact table_names table_with_joins
  | Pivot table exprs => exact factor_names table

theorem table_names (t : TableWithJoins) : (t.visitRelations f).names = t.names.map f := by
  obtain ⟨relation, joins, exprs⟩ := t
  rw [TableWithJoins.visitRelations, TableWithJoins.names, TableWithJoins.names, List.map_append,
    factor_names relation, factorsNames_visit joins]

theorem factorsNames_visit (ts : List TableFactor) :
    factorsNames (factorsVisit f ts) = (factorsNames ts).map f := by
  cases ts with
  | nil => rfl
  | cons t rest => rw [factorsVisit, factorsNames, factorsNames, List.map_append, factor_names t,
      factorsNames_visit rest]

end

theorem tables_names_visit (ts : List TableWithJoins) :
    (tablesVisit f ts).flatMap TableWithJoins.names = (ts.flatMap TableWithJoins.names).map f := by
  induction ts with
  | nil => rfl
  | cons t rest ih =>
      rw [tablesVisit, List.flatMap_cons, List.flatMap_cons, List.map_append, table_names, ih]

theorem body_names (body : SetExpr) : (body.visitRelations f).names = body.names.map f := by
  cases body with
  | Select into from_ exprs => exact tables_names_visit from_
  | Query query => rfl
  | SetOperation left right => rfl
  | Values exprs => rfl
  | Table schemaName tableName => rfl
  | Insert statement => rfl
  | Update statement => rfl
  | Delete statement => rfl
  | Merge statement => rfl

theorem cte_names_visit (ctes : List Cte) :
    (ctesVisit f ctes).map Cte.name = ctes.map Cte.name := by
  induction ctes with
  | nil => rfl
  | cons cte rest ih =>
      obtain ⟨name, query⟩ := cte
      rw [ctesVisit, List.map_cons, List.map_cons, ih]
      rfl

mutual

/-- A renamed tree holds the renamed items. -/
theorem statement_items (env : Env) : (s : Statement) →
    (s.visitRelations f).items (env.rename f) = (s.items env).map (Item.rename f)
  | .Query query => query_items env query
  | .Explain statement => statement_items env statement
  | .ExplainTable _ => rfl
  | .Show _ exprs => exprsItems_visit env exprs
  | .Command kind parts => congrArg (Item.command kind :: ·) (partsItems_visit env parts)

theorem query_items (env : Env) : (q : Query) →
    (q.visitRelations f).items (env.rename f) = (q.items env).map (Item.rename f)
  | .mk recursive cte_tables body clauses => by
      rw [Query.visitRelations, Query.items, Query.items, List.map_cons, List.map_append,
        List.map_append, ctesItems_visit recursive env cte_tables, cte_names_visit, body_names,
        ← rename_define, ← rename_see, set_expr_items _ body, partsItems_visit _ clauses]
      rfl

theorem ctesItems_visit (recursive : Bool) (env : Env) : (ctes : List Cte) →
    ctesItems recursive (env.rename f) (ctesVisit f ctes) = (ctesItems recursive env ctes).map
    (Item.rename f)
  | [] => rfl
  | .mk name query :: rest => by
      rw [ctesVisit, ctesItems, ctesItems, List.map_append, ← rename_define,
        ctesItems_visit recursive _ rest]
      cases recursive with
      | true => exact congrArg (· ++ _) (query_items (env.define [name]) query)
      | false => exact congrArg (· ++ _) (query_items env query)

theorem exprsItems_visit (env : Env) : (exprs : List Expr) →
    exprsItems (env.rename f) (exprsVisit f exprs) = (exprsItems env exprs).map (Item.rename f)
  | [] => rfl
  | e :: rest => by
      rw [exprsVisit, exprsItems, exprsItems, List.map_append, expr_items env e,
        exprsItems_visit env rest]

theorem expr_items (env : Env) : (e : Expr) →
    (e.visitRelations f).items (env.rename f) = (e.items env).map (Item.rename f)
  | .Subquery query => query_items env query
  | .Column _ => rfl

theorem set_expr_items (env : Env) : (e : SetExpr) →
    (e.visitRelations f).items (env.rename f) = (e.items env).map (Item.rename f)
  | .Select into from_ exprs => by
      rw [SetExpr.visitRelations, SetExpr.items, SetExpr.items, List.map_append, List.map_append,
        tables_names_visit, tablesItems_visit env _ from_, ← rename_see, exprsItems_visit _ exprs]
      cases into <;> rfl
  | .Query query => query_items env query
  | .SetOperation left right => by
      rw [SetExpr.visitRelations, SetExpr.items, SetExpr.items, List.map_append,
        set_expr_items env left, set_expr_items env right]
  | .Values exprs => exprsItems_visit env exprs
  | .Table _ _ => rfl
  | .Insert statement => statement_items env statement
  | .Update statement => statement_items env statement
  | .Delete statement => statement_items env statement
  | .Merge statement => statement_items env statement

theorem tablesItems_visit (env : Env) (names : List ObjectName) : (ts : List TableWithJoins) →
    tablesItems (env.rename f) (names.map f) (tablesVisit f ts) = (tablesItems env names ts).map
    (Item.rename f)
  | [] => rfl
  | t :: rest => by
      rw [tablesVisit, tablesItems, tablesItems, List.map_append, table_items env names t,
        tablesItems_visit env names rest]

theorem table_items (env : Env) (names : List ObjectName) : (t : TableWithJoins) →
    (t.visitRelations f).items (env.rename f) (names.map f) = (t.items env names).map
    (Item.rename f)
  | .mk relation joins exprs => by
      rw [TableWithJoins.visitRelations, TableWithJoins.items, TableWithJoins.items,
        List.map_append, List.map_append, factor_items env names relation,
        factorsItems_visit env names joins, ← rename_see, exprsItems_visit _ exprs]

theorem factorsItems_visit (env : Env) (names : List ObjectName) : (ts : List TableFactor) →
    factorsItems (env.rename f) (names.map f) (factorsVisit f ts) = (factorsItems env names ts).map
    (Item.rename f)
  | [] => rfl
  | t :: rest => by
      rw [factorsVisit, factorsItems, factorsItems, List.map_append, factor_items env names t,
        factorsItems_visit env names rest]

theorem factor_items (env : Env) (names : List ObjectName) : (t : TableFactor) →
    (t.visitRelations f).items (env.rename f) (names.map f) = (t.items env names).map
    (Item.rename f)
  | .Table name _ exprs => by
      rw [TableFactor.visitRelations, TableFactor.items, TableFactor.items,
        List.map_cons, ← rename_see, exprsItems_visit _ exprs]
      rfl
  | .Derived lateral_ subquery => by
      cases lateral_ with
      | true =>
          rw [TableFactor.visitRelations, TableFactor.items, TableFactor.items, if_pos rfl,
            if_pos rfl, ← rename_see, query_items _ subquery]
      | false =>
          rw [TableFactor.visitRelations, TableFactor.items, TableFactor.items,
            if_neg Bool.false_ne_true, if_neg Bool.false_ne_true, query_items env subquery]
  | .Function exprs => by
      rw [TableFactor.visitRelations, TableFactor.items, TableFactor.items, ← rename_see,
        exprsItems_visit _ exprs]
  | .NestedJoin table_with_joins => table_items env names table_with_joins
  | .Pivot table exprs => by
      rw [TableFactor.visitRelations, TableFactor.items, TableFactor.items, List.map_append,
        factor_items env names table, ← rename_see, exprsItems_visit _ exprs]

theorem partsItems_visit (env : Env) : (ps : List Part) →
    partsItems (env.rename f) (partsVisit f ps) = (partsItems env ps).map (Item.rename f)
  | [] => rfl
  | p :: rest => by
      rw [partsVisit, partsItems, partsItems, List.map_append, part_items env p,
        partsItems_visit env rest]

theorem part_items (env : Env) : (p : Part) →
    (p.visitRelations f).items (env.rename f) = (p.items env).map (Item.rename f)
  | .Expr expr => expr_items env expr
  | .Relation _ => rfl
  | .Statement statement => statement_items env statement

end

end Probing.Sql.Ast
