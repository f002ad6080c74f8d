import Mathlib.Data.List.Basic

/-!
# Parsed SQL

The parser is not part of the repository. Of its syntax trees we keep the constructors
that the code looks at, and everything that can hold a statement, a query, the name of a
relation or a qualified column; expressions are what they hold of these.
-/

namespace Probing.Sql.Ast

structure Ident where
  value : String
  quoteStyle : Option Char
  deriving DecidableEq

/-- `Ident::new`. -/
def Ident.new (value : String) : Ident := ⟨value, none⟩

inductive ObjectNamePart where
  | Identifier (ident : Ident)
  | Function (name : Ident)
  deriving DecidableEq

abbrev ObjectName := List ObjectNamePart

/-- `ObjectNamePart::as_ident`. -/
def ObjectNamePart.asIdent : ObjectNamePart → Option Ident
  | .Identifier ident => some ident
  | .Function _ => none

inductive ShowKind where
  | Tables | Columns | Create | Functions | Variable | Variables | Status
  | Catalogs | Databases | ProcessList | Schemas | Charset | Objects | Views | Collation
  deriving DecidableEq

/-- What the statements do that neither query, explain nor show. -/
inductive CommandKind where
  | Write | Set | Ddl | Other
  deriving DecidableEq

mutual

inductive Statement where
  | Query (query : Query)
  | Explain (statement : Statement)
  | ExplainTable (tableName : ObjectName)
  | Show (kind : ShowKind) (exprs : List Expr)
  | Command (kind : CommandKind) (parts : List Part)

/-- A query has no `WITH` where it has no CTE. The clauses are those after the body:
`ORDER BY`, `LIMIT`, `OFFSET`, `FETCH`, `FOR`. -/
inductive Query where
  | mk (recursive : Bool) (cte_tables : List Cte) (body : SetExpr) (clauses : List Part)

inductive Cte where
  | mk (name : Ident) (query : Query)

inductive SetExpr where
  | Select (into : Option ObjectName) (from_ : List TableWithJoins) (exprs : List Expr)
  | Query (query : Query)
  | SetOperation (left right : SetExpr)
  | Values (exprs : List Expr)
  | Table (schemaName tableName : Option String)
  | Insert (statement : Statement)
  | Update (statement : Statement)
  | Delete (statement : Statement)
  | Merge (statement : Statement)

/-- The expressions are the constraints of the joins. -/
inductive TableWithJoins where
  | mk (relation : TableFactor) (joins : List TableFactor) (exprs : List Expr)

/-- `UNPIVOT` and `MATCH_RECOGNIZE` are as `PIVOT`, `UNNEST` and its like as functions. -/
inductive TableFactor where
  | Table (name : ObjectName) (aliased : Bool) (exprs : List Expr)
  | Derived (lateral_ : Bool) (subquery : Query)
  | Function (exprs : List Expr)
  | NestedJoin (table_with_joins : TableWithJoins)
  | Pivot (table : TableFactor) (exprs : List Expr)

/-- What an expression holds: queries, and columns with their qualifiers. -/
inductive Expr where
  | Subquery (query : Query)
  | Column (qualifier : List Ident)

/-- What a clause or a command holds. -/
inductive Part where
  | Expr (expr : Expr)
  | Relation (name : ObjectName)
  | Statement (statement : Statement)

end

def Cte.name : Cte → Ident
  | .mk name _ => name

mutual

/-- The tables that columns can name, which have no alias. -/
def TableFactor.names : TableFactor → List ObjectName
  | .Table name aliased _ => if aliased then [] else [name]
  | .Derived _ _ | .Function _ => []
  | .NestedJoin table_with_joins => table_with_joins.names
  | .Pivot table _ => table.names

def TableWithJoins.names : TableWithJoins → List ObjectName
  | .mk relation joins _ => relation.names ++ factorsNames joins

def factorsNames : List TableFactor → List ObjectName
  | [] => []
  | t :: rest => t.names ++ factorsNames rest

end

/-- The tables of `FROM`, which the clauses after the body can name as well. -/
def SetExpr.names : SetExpr → List ObjectName
  | .Select _ from_ _ => from_.flatMap TableWithJoins.names
  | _ => []

/-- What is in scope: CTEs, and tables that columns can name. -/
structure Env where
  ctes : List Ident
  tables : List ObjectName
  deriving DecidableEq

def Env.empty : Env := ⟨[], []⟩

def Env.define (env : Env) (names : List Ident) : Env := { env with ctes := env.ctes ++ names }

def Env.see (env : Env) (names : List ObjectName) : Env :=
  { env with tables := names ++ env.tables }

/-- What a tree holds anywhere, with what is in its scope. -/
inductive Item where
  | query
  | command (kind : CommandKind)
  | into (name : ObjectName)
  | relation (ctes : List Ident) (name : ObjectName)
  | column (tables : List ObjectName) (qualifier : List Ident)
  deriving DecidableEq

mutual

def Statement.items (env : Env) : Statement → List Item
  | .Query query => query.items env
  | .Explain statement => statement.items env
  | .ExplainTable tableName => [.relation env.ctes tableName]
  | .Show _ exprs => exprsItems env exprs
  | .Command kind parts => .command kind :: partsItems env parts

/-- The clauses and the body see all CTEs. -/
def Query.items (env : Env) : Query → List Item
  | .mk recursive cte_tables body clauses =>
      let inner := env.define (cte_tables.map Cte.name)
      .query :: (ctesItems recursive env cte_tables ++
        (body.items inner ++ partsItems (inner.see body.names) clauses))

/-- A CTE sees the ones before it, and itself if it may recur. -/
def ctesItems (recursive : Bool) (env : Env) : List Cte → List Item
  | [] => []
  | .mk name query :: rest =>
      query.items (if recursive then env.define [name] else env) ++
        ctesItems recursive (env.define [name]) rest

def exprsItems (env : Env) : List Expr → List Item
  | [] => []
  | e :: rest => e.items env ++ exprsItems env rest

def Expr.items (env : Env) : Expr → List Item
  | .Subquery query => query.items env
  | .Column qualifier => [.column env.tables qualifier]

def SetExpr.items (env : Env) : SetExpr → List Item
  | .Select into from_ exprs =>
      let names := from_.flatMap TableWithJoins.names
      (into.map Item.into).toList ++
        (tablesItems env names from_ ++ exprsItems (env.see names) exprs)
  | .Query query => query.items env
  | .SetOperation left right => left.items env ++ right.items env
  | .Values exprs => exprsItems env exprs
  | .Table _ _ => []
  | .Insert statement | .Update statement | .Delete statement | .Merge statement =>
      statement.items env

def tablesItems (env : Env) (names : List ObjectName) : List TableWithJoins → List Item
  | [] => []
  | t :: rest => t.items env names ++ tablesItems env names rest

def TableWithJoins.items (env : Env) (names : List ObjectName) : TableWithJoins → List Item
  | .mk relation joins exprs =>
      relation.items env names ++ (factorsItems env names joins ++ exprsItems (env.see names) exprs)

def factorsItems (env : Env) (names : List ObjectName) : List TableFactor → List Item
  | [] => []
  | t :: rest => t.items env names ++ factorsItems env names rest

/-- Only a lateral table sees the other tables of `FROM`. -/
def TableFactor.items (env : Env) (names : List ObjectName) : TableFactor → List Item
  | .Table name _ exprs => .relation env.ctes name :: exprsItems (env.see names) exprs
  | .Derived lateral_ subquery => subquery.items (if lateral_ then env.see names else env)
  | .Function exprs => exprsItems (env.see names) exprs
  | .NestedJoin table_with_joins => table_with_joins.items env names
  | .Pivot table exprs => table.items env names ++ exprsItems (env.see names) exprs

def partsItems (env : Env) : List Part → List Item
  | [] => []
  | p :: rest => p.items env ++ partsItems env rest

def Part.items (env : Env) : Part → List Item
  | .Expr expr => expr.items env
  | .Relation name => [.relation env.ctes name]
  | .Statement statement => statement.items env

end

end Probing.Sql.Ast
