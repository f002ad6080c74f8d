import Mathlib.Data.List.ReduceOption
import Mathlib.Data.String.Basic
import Probing.Sql.Ast

/-!
# Plans for aggregates in parts

A grouped aggregate over all nodes is planned as a query for each node and a query that merges
what the nodes return. Both are texts; they are read here as queries that list their grouping
columns and then their aggregates.
-/

namespace Probing.Federation.AggregatePushdown

open Sql.Ast (Ident ObjectName ObjectNamePart)

/-- A call; `over_` is what stands behind the arguments. -/
structure Function where
  name : ObjectName
  distinct : Bool
  args : String
  over_ : String

inductive Expr where
  | Identifier (ident : Ident)
  | CompoundIdentifier (parts : List Ident)
  | Function (func : Function)
  | Nested (inner : Expr)
  | Other (text : String)

inductive SelectItem where
  | UnnamedExpr (expr : Expr)
  | ExprWithAlias (expr : Expr) (alias_ : Ident)
  | Other

/-- A relation that is not a table has no name; `joined` is that there are joins. -/
structure TableWithJoins where
  name : Option ObjectName
  joined : Bool

/-- What the planner reads of a `SELECT`; `GROUP BY ALL` has no expressions. -/
structure Select where
  projection : List SelectItem
  from_ : List TableWithJoins
  lateralViews : Bool
  having : Bool
  groupBy : Option (List Expr)
  selection : Option String

/-- A query; the clauses after its body are their texts. -/
structure Query where
  body : Option Select
  orderBy : Option String
  limitClause : Option String
  fetch : Option String

structure PlannedAggregate where
  alias_ : String
  mergeFn : Option String

structure FederatedAggregatePlan where
  perNodeSql : String
  coordinatorSql : Option String
  postMergeTail : Option String
  injectTags : Bool
  deriving DecidableEq

def federationTagColumns : List String :=
  ["_host", "_addr", "_rank", "_node_rank", "_local_rank", "_role"]

def isFederationTagColumn (name : String) : Bool := federationTagColumns.contains name

section Texts

/-- `to_lowercase`; what is compared with it has ASCII letters only. -/
def toLowercase (s : String) : String := String.ofList (s.toList.map Char.toLower)

/-- `join` of texts. -/
def join (sep : String) (parts : List String) : String := sep.intercalate parts

/-- `Display` of an identifier: a quote within is doubled. -/
def identToString (ident : Ident) : String :=
  match ident.quoteStyle with
  | none => ident.value
  | some q =>
      q.toString ++ String.ofList
      (ident.value.toList.flatMap fun c => if c = q then [c, c] else [c]) ++ q.toString

def ObjectNamePart.toString : ObjectNamePart → String
  | .Identifier ident => identToString ident
  | .Function name => identToString name ++ "()"

/-- `Display` of a function, as far as the arguments and what is behind them. -/
def functionToString (func : Function) : String :=
  join "." (func.name.map ObjectNamePart.toString) ++ "(" ++
    (if func.distinct then "DISTINCT " else "") ++ func.args ++ ")" ++ func.over_

def exprToText : Expr → String
  | .Identifier ident => identToString ident
  | .CompoundIdentifier parts => join "." (parts.map identToString)
  | .Function func => functionToString func
  | .Nested inner => "(" ++ exprToText inner ++ ")"
  | .Other text => text

/-- The text of an identifier needs no quotes. -/
def safeUnquoted (name : String) : Bool :=
  !name.toList.isEmpty && name.toList.all (fun c => c.isAlphanum || c == '_') &&
    !name.toList.head?.any Char.isDigit

def quoteIdent (name : String) : String := if safeUnquoted name then name else "\"" ++ name ++ "\""

end Texts

section Planning

/-- The last part of a qualified name. -/
def exprColumnName : Expr → Option String
  | .Identifier ident => some ident.value
  | .CompoundIdentifier parts => parts.getLast?.map Ident.value
  | _ => none

def exprMentionsTag (expr : Expr) : Bool := (exprColumnName expr).any isFederationTagColumn

def objectNameLast (name : ObjectName) : String :=
  match name.getLast? with
  | some (.Identifier ident) => ident.value
  | some (.Function name) => identToString name
  | none => ""

def isAggregateFunction (func : Function) : Bool :=
  ["count", "sum", "min", "max", "avg"].contains (toLowercase (objectNameLast func.name))

def exprHasAggregate : Expr → Bool
  | .Function func => isAggregateFunction func
  | .Nested inner => exprHasAggregate inner
  | _ => false

/-- The expression of an item, and its alias. -/
def SelectItem.parts : SelectItem → Option (Expr × Option Ident)
  | .UnnamedExpr expr => some (expr, none)
  | .ExprWithAlias expr alias_ => some (expr, some alias_)
  | .Other => none

def selectProjectionHasAggregate (select : Select) : Bool :=
  select.projection.any fun item => item.parts.any fun p => exprHasAggregate p.1

def groupByExpressions (select : Select) : List Expr := select.groupBy.getD []

def selectMentionsTags (select : Select) : Bool :=
  (select.projection.any fun item => item.parts.any fun p => exprMentionsTag p.1) ||
    (groupByExpressions select).any exprMentionsTag

def globalTableRef (select : Select) : Option (String × String) :=
  match select.from_.head? with
  | none => none
  | some table_with_joins =>
      if table_with_joins.joined then none
      else
        match table_with_joins.name.map fun name =>
            (name.filterMap ObjectNamePart.asIdent).map Ident.value with
        | some [catalog, schema, table] => if toLowercase catalog = "global" then
          some (schema, table) else none
        | _ => none

def mergeFnForFunction (func : Function) : Option String :=
  match toLowercase (objectNameLast func.name) with
  | "count" => some "sum"
  | "sum" => some "sum"
  | "min" => some "min"
  | "max" => some "max"
  | _ => none

/-- What the loop of `plan_aggregates` makes of an item: it fails, goes on, or plans an
aggregate. -/
def planItem (distinct_safe : Bool) (item : SelectItem) : Option (Option PlannedAggregate) :=
  match item.parts with
  | none => some none
  | some (.Function func, alias_) =>
      if func.distinct && !distinct_safe then none
      else
        let mergeFn := if func.distinct then none else mergeFnForFunction func
        if !func.distinct && mergeFn.isNone then none
        else some (some ⟨(alias_.map Ident.value).getD (exprToText (.Function func)), mergeFn⟩)
  | some (expr, _) => if (exprColumnName expr).isSome then some none else none

def planAggregates (select : Select) (distinct_safe : Bool) : Option (List PlannedAggregate) :=
  (select.projection.mapM (planItem distinct_safe)).map List.reduceOption

/-- `expr_to_string` of an item that has an expression. -/
def itemToString : Expr → Option Ident → String
  | expr, none => exprToText expr
  | expr, some alias_ => exprToText expr ++ " AS " ++ quoteIdent alias_.value

/-- The text of an item for the nodes; tags are left out. -/
def perNodeItem (item : SelectItem) : Option (Option String) :=
  item.parts.map fun (expr, alias_) => if exprMentionsTag expr then
    none else some (itemToString expr alias_)

def groupClause (names : List String) : String :=
  if names = [] then "" else " GROUP BY " ++ join ", " (names.map quoteIdent)

def buildPerNodeSql (select : Select) (schemaName tableName : String) (data_group : List String) :
    Option String :=
  match (select.projection.mapM perNodeItem).map List.reduceOption with
  | none => none
  | some select_parts =>
      if select_parts = [] then none
      else some ("SELECT " ++ join ", " select_parts ++ " FROM " ++
        ("probe." ++ schemaName ++ "." ++ tableName) ++
          (match select.selection with | some selection => " WHERE " ++ selection | none => "") ++
          groupClause data_group)

def buildGlobalMergeSql (data_group tag_group : List String) (aggregates : List PlannedAggregate) :
    String :=
  let group_cols := data_group ++ tag_group
  let select_parts := group_cols.map quoteIdent ++ aggregates.map fun agg =>
    agg.mergeFn.getD "sum" ++ "(" ++ quoteIdent agg.alias_ ++ ")" ++ " AS " ++ quoteIdent agg.alias_
  "SELECT " ++ join ", " select_parts ++ " FROM " ++ "partials" ++ groupClause group_cols

def buildPostMergeTail (query : Query) : Option String :=
  let orderBy := (query.orderBy.map (" " ++ ·)).getD ""
  let limit := (query.limitClause.map (" " ++ ·)).getD "" ++ (query.fetch.map (" " ++ ·)).getD ""
  if orderBy = "" ∧ limit = "" then none else some (orderBy ++ limit)

def planFromQuery (query : Query) : Option FederatedAggregatePlan := do
  let postMergeTail := buildPostMergeTail query
  let select ← query.body
  if select.from_.length ≠ 1 ∨ select.lateralViews ∨ select.having then none
  if select.groupBy.isNone then none
  let group_exprs := groupByExpressions select
  if group_exprs.isEmpty ∧ !selectProjectionHasAggregate select then none
  let (schemaName, tableName) ← globalTableRef select
  let names ← group_exprs.mapM exprColumnName
  let tag_group := names.filter isFederationTagColumn
  let data_group := names.filter fun name => !isFederationTagColumn name
  let distinct_safe := data_group.isEmpty && !tag_group.isEmpty
  let aggregates ← planAggregates select distinct_safe
  if aggregates.isEmpty then none
  let perNodeSql ← buildPerNodeSql select schemaName tableName data_group
  let injectTags := selectMentionsTags select || !tag_group.isEmpty
  let coordinatorSql :=
    if data_group.isEmpty && tag_group.isEmpty then some (buildGlobalMergeSql [] [] aggregates)
    else if data_group.isEmpty then none
    else some (buildGlobalMergeSql data_group tag_group aggregates)
  some { perNodeSql, coordinatorSql, postMergeTail, injectTags }

end Planning

/-- The aggregates that are merged. -/
inductive Fn where
  | count
  | sum
  | min
  | max
  deriving DecidableEq

namespace Fn

/-- The aggregate that merges the parts. -/
def merge : Fn → Fn
  | count => sum
  | sum => sum
  | min => min
  | max => max

def name : Fn → String
  | count => "count"
  | sum => "sum"
  | min => "min"
  | max => "max"

end Fn

/-- The argument of an aggregate: a text, or a column of the partial results. -/
inductive Arg where
  | expr (text : String)
  | column (name : String)

def Arg.text : Arg → String
  | expr text => text
  | column name => quoteIdent name

structure Item where
  fn : Fn
  written : String
  arg : Arg
  alias_ : String

def Item.text (item : Item) : String :=
  item.written ++ "(" ++ item.arg.text ++ ")" ++ " AS " ++ quoteIdent item.alias_

/-- A query that lists its grouping columns and then aggregates. -/
structure AggregateQuery where
  keys : List String
  items : List Item
  from_ : String
  filter : Option String

def AggregateQuery.text (q : AggregateQuery) : String :=
  "SELECT " ++ join ", " (q.keys.map quoteIdent ++ q.items.map Item.text) ++ " FROM " ++ q.from_ ++
    (match q.filter with | some selection => " WHERE " ++ selection | none => "") ++
      groupClause q.keys

structure Aggregate where
  fn : Fn
  written : String
  text : String
  alias_ : String
  spelled : toLowercase written = fn.name

/-- A name that the engine reads back from the texts as it is: without quotes and capitals, and not
a part of the table's name. -/
def readable (name : String) : Bool :=
  !name.toList.contains '"' && toLowercase name == name && !name.toList.tails.any fun rest =>
    "partials".toList.isPrefixOf rest

/-- A query over all nodes that lists the data columns, then the tags and then the aggregates, and
groups by the former. -/
structure Asked where
  schemaName : String
  tableName : String
  keys : List String
  tags : List String
  aggregates : List Aggregate
  filter : Option String
  tags_are : ∀ t ∈ tags, isFederationTagColumn t = true
  keys_are : ∀ k ∈ keys, isFederationTagColumn k = false
  aliases_are : ∀ a ∈ aggregates, isFederationTagColumn a.alias_ = false
  distinct : (keys ++ aggregates.map Aggregate.alias_).Nodup
  tags_beside_keys : keys = [] → tags = []
  asks : aggregates ≠ []
  names_readable : ∀ n ∈ keys ++ aggregates.map Aggregate.alias_, readable n = true

namespace Asked

def original (q : Asked) : AggregateQuery where
  keys := q.keys ++ q.tags
  items := q.aggregates.map fun a => ⟨a.fn, a.written, .expr a.text, a.alias_⟩
  from_ := "global." ++ q.schemaName ++ "." ++ q.tableName
  filter := q.filter

def perNode (q : Asked) : AggregateQuery where
  keys := q.keys
  items := q.aggregates.map fun a => ⟨a.fn, a.written, .expr a.text, a.alias_⟩
  from_ := "probe." ++ q.schemaName ++ "." ++ q.tableName
  filter := q.filter

def coordinator (q : Asked) : AggregateQuery where
  keys := q.keys ++ q.tags
  items := q.aggregates.map fun a => ⟨a.fn.merge, a.fn.merge.name, .column a.alias_, a.alias_⟩
  from_ := "partials"
  filter := none

/-- An identifier is quoted where it must be. -/
def ident (name : String) : Ident := ⟨name, if safeUnquoted name then none else some '"'⟩

def column (name : String) : Expr := .Identifier (ident name)

def call (a : Aggregate) : Expr := .Function ⟨[.Identifier ⟨a.written, none⟩], false, a.text, ""⟩

/-- The query as it is parsed. -/
def select (q : Asked) : Select where
  projection := (q.keys ++ q.tags).map (fun name => .UnnamedExpr (column name)) ++
    q.aggregates.map fun a => .ExprWithAlias (call a) (ident a.alias_)
  from_ :=
    [⟨some [.Identifier ⟨"global", none⟩, .Identifier ⟨q.schemaName, none⟩,
    .Identifier ⟨q.tableName, none⟩], false⟩]
  lateralViews := false
  having := false
  groupBy := some ((q.keys ++ q.tags).map column)
  selection := q.filter

end Asked

section Plans

variable {q : Asked} {query : Query}

/-- A loop over items that fails on none of them collects what it makes of each. -/
theorem collect_some {α β : Type} {f : α → Option (Option β)} {g : α → Option β} {l : List α}
    (h : ∀ x ∈ l, f x = some (g x)) : (l.mapM f).map List.reduceOption = some (l.filterMap g) := by
  induction l with
  | nil => rfl
  | cons x l ih =>
      have ih := ih fun y hy => h y (List.mem_cons_of_mem _ hy)
      obtain ⟨rest, hrest, hreduced⟩ := Option.map_eq_some_iff.mp ih
      rw [List.mapM_cons, h x List.mem_cons_self, hrest, List.filterMap_cons, ← hreduced]
      cases hx : g x with
      | none => rfl
      | some y => rfl

theorem identToString_ident {name : String} (h : readable name = true) :
    identToString (Asked.ident name) = quoteIdent name := by
  unfold quoteIdent Asked.ident identToString
  by_cases hsafe : safeUnquoted name = true
  · rw [if_pos hsafe, if_pos hsafe]
  · have hquote : '"' ∉ name.toList := by
      intro hmem
      simp [readable, hmem] at h
    have hsame : (name.toList.flatMap fun c => if c = '"' then [c, c] else [c]) = name.toList := by
      calc
        (name.toList.flatMap fun c => if c = '"' then [c, c] else [c])
            = name.toList.flatMap fun c => [c] :=
          List.flatMap_congr fun c hc => if_neg fun heq : c = '"' => hquote (heq ▸ hc)
        _ = name.toList := List.flatMap_singleton' _
    rw [if_neg hsafe, if_neg hsafe]
    dsimp only
    rw [hsame, String.ofList_toList]
    rfl

theorem mergeFn_call (a : Aggregate) :
    mergeFnForFunction ⟨[.Identifier ⟨a.written, none⟩], false, a.text, ""⟩ =
      some a.fn.merge.name := by
  have hname : toLowercase (objectNameLast [.Identifier ⟨a.written, none⟩]) = a.fn.name := a.spelled
  unfold mergeFnForFunction
  rw [hname]
  cases a.fn <;> rfl

theorem call_to_text (a : Aggregate) :
    exprToText (Asked.call a) = a.written ++ "(" ++ a.text ++ ")" := by
  have hname : functionToString ⟨[.Identifier ⟨a.written, none⟩], false, a.text, ""⟩ =
      a.written ++ "(" ++ "" ++ a.text ++ ")" ++ "" := rfl
  change functionToString _ = _
  rw [hname, String.append_empty, String.append_empty]

theorem filterMap_projection {β : Type} {g : SelectItem → Option β} (q : Asked) :
    q.select.projection.filterMap g =
      (q.keys.filterMap fun name => g (.UnnamedExpr (Asked.column name))) ++
        (q.tags.filterMap fun name => g (.UnnamedExpr (Asked.column name))) ++
        q.aggregates.filterMap fun a =>
        g (.ExprWithAlias (Asked.call a) (Asked.ident a.alias_)) := by
  change List.filterMap g (_ ++ _) = _
  rw [List.filterMap_append, List.filterMap_map, List.filterMap_map, List.filterMap_append]
  rfl

theorem planAggregates_select (q : Asked) :
    planAggregates q.select false =
      some (q.aggregates.map fun a => ⟨a.alias_, some a.fn.merge.name⟩) := by
  have hcall (a : Aggregate) :
    planItem false (.ExprWithAlias (Asked.call a) (Asked.ident a.alias_)) =
      some (some ⟨a.alias_, some a.fn.merge.name⟩) := by
    have hmerge := mergeFn_call a
    simp [planItem, SelectItem.parts, Asked.call, Asked.ident, hmerge]
  have hitem : ∀ item ∈ q.select.projection,
      planItem false item = some ((planItem false item).getD none) := by
    intro item hitem
    rcases List.mem_append.mp hitem with hmem | hmem
    · obtain ⟨name, -, rfl⟩ := List.mem_map.mp hmem
      rfl
    · obtain ⟨a, -, rfl⟩ := List.mem_map.mp hmem
      rw [hcall]
      rfl
  have hnone (names : List String) :
      (names.filterMap fun name => (planItem false (.UnnamedExpr (Asked.column name))).getD none) =
        [] :=
    List.filterMap_eq_nil_iff.mpr fun _ _ => rfl
  unfold planAggregates
  rw [collect_some hitem, filterMap_projection, hnone, hnone, List.append_nil, List.nil_append]
  simp only [hcall, Option.getD_some, List.filterMap_eq_map']

theorem perNode_parts (q : Asked) :
    (q.select.projection.mapM perNodeItem).map List.reduceOption =
      some (q.perNode.keys.map quoteIdent ++ q.perNode.items.map Item.text) := by
  have hcolumn (name : String) : perNodeItem (.UnnamedExpr (Asked.column name)) =
      some (if isFederationTagColumn name then none else some (identToString (Asked.ident name))) :=
    rfl
  have hcall (a : Aggregate) : perNodeItem (.ExprWithAlias (Asked.call a) (Asked.ident a.alias_)) =
      some (some (exprToText (Asked.call a) ++ " AS " ++ quoteIdent a.alias_)) := rfl
  have hitem : ∀ item ∈ q.select.projection,
      perNodeItem item = some ((perNodeItem item).getD none) := by
    intro item hitem
    rcases List.mem_append.mp hitem with hmem | hmem
    · obtain ⟨name, -, rfl⟩ := List.mem_map.mp hmem
      rfl
    · obtain ⟨a, -, rfl⟩ := List.mem_map.mp hmem
      rfl
  have hkeys :
    (q.keys.filterMap fun name => (perNodeItem (.UnnamedExpr (Asked.column name))).getD none) =
      q.keys.map quoteIdent := by
    rw [← List.filterMap_eq_map']
    refine List.filterMap_congr fun name hname => ?_
    rw [hcolumn, q.keys_are name hname,
      identToString_ident (q.names_readable name (List.mem_append_left _ hname))]
    rfl
  have htags :
      (q.tags.filterMap fun name => (perNodeItem (.UnnamedExpr (Asked.column name))).getD none) =
      [] := by
    refine List.filterMap_eq_nil_iff.mpr fun name hname => ?_
    rw [hcolumn, q.tags_are name hname]
    rfl
  rw [collect_some hitem, filterMap_projection, hkeys, htags, List.append_nil]
  simp only [hcall, Option.getD_some, List.filterMap_eq_map', call_to_text]
  change _ = some (_ ++ List.map Item.text (List.map _ _))
  rw [List.map_map]
  rfl

theorem perNode_text (q : Asked) :
    buildPerNodeSql q.select q.schemaName q.tableName q.keys = some q.perNode.text := by
  have hne : q.perNode.keys.map quoteIdent ++ q.perNode.items.map Item.text ≠ [] := by
    have hitems : q.perNode.items ≠ [] := fun h => q.asks (List.map_eq_nil_iff.mp h)
    simp [hitems]
  unfold buildPerNodeSql
  rw [perNode_parts]
  dsimp only
  rw [if_neg hne]
  rfl

theorem coordinator_text (q : Asked) :
    buildGlobalMergeSql q.keys q.tags (q.aggregates.map fun a => ⟨a.alias_, some a.fn.merge.name⟩) =
      q.coordinator.text := by
  unfold buildGlobalMergeSql AggregateQuery.text
  change "SELECT " ++ join ", " (_ ++ List.map _ (List.map _ _)) ++ _ ++ _ ++ _ =
    "SELECT " ++ join ", " (_ ++ List.map _ (List.map _ _)) ++ _ ++ _ ++ "" ++ _
  rw [List.map_map, List.map_map, String.append_empty]
  rfl

theorem names_select (q : Asked) : (groupByExpressions q.select).mapM exprColumnName =
    some (q.keys ++ q.tags) := by
  change (List.map Asked.column _).mapM _ = _
  induction q.keys ++ q.tags with
  | nil => rfl
  | cons name names ih =>
      rw [List.map_cons, List.mapM_cons, ih]
      rfl

theorem tag_group_select (q : Asked) :
    (q.keys ++ q.tags).filter isFederationTagColumn = q.tags := by
  rw [List.filter_append,
    List.filter_eq_nil_iff.mpr fun name hname => by simp [q.keys_are name hname], List.nil_append]
  exact List.filter_eq_self.mpr q.tags_are

theorem data_group_select (q : Asked) :
    ((q.keys ++ q.tags).filter fun name => !isFederationTagColumn name) = q.keys := by
  have htags : (q.tags.filter fun name => !isFederationTagColumn name) = [] :=
    List.filter_eq_nil_iff.mpr fun name hname => by simp [q.tags_are name hname]
  rw [List.filter_append, htags, List.append_nil]
  exact List.filter_eq_self.mpr fun name hname => by simp [q.keys_are name hname]

theorem has_aggregate_select (q : Asked) : selectProjectionHasAggregate q.select = true := by
  obtain ⟨a, ha⟩ := List.exists_mem_of_ne_nil _ q.asks
  have hname : isAggregateFunction ⟨[.Identifier ⟨a.written, none⟩], false, a.text, ""⟩ = true := by
    have hlast : toLowercase (objectNameLast [.Identifier ⟨a.written, none⟩]) =
        a.fn.name := a.spelled
    unfold isAggregateFunction
    rw [hlast]
    cases a.fn <;> rfl
  refine List.any_eq_true.mpr ⟨_, List.mem_append_right _ (List.mem_map.mpr ⟨a, ha, rfl⟩), ?_⟩
  exact hname

/-- The tags are injected exactly if the query groups by some. -/
theorem inject_select (q : Asked) : (selectMentionsTags q.select || !q.tags.isEmpty) =
    !q.tags.isEmpty := by
  cases htags : q.tags with
  | cons t tags => simp
  | nil =>
      have hcolumn : ∀ name ∈ q.keys ++ q.tags, exprMentionsTag (Asked.column name) = false := by
        intro name hname
        rw [htags, List.append_nil] at hname
        exact q.keys_are name hname
      have hprojection :
          (q.select.projection.any fun item => item.parts.any fun p => exprMentionsTag p.1) =
          false := by
        refine List.any_eq_false.mpr fun item hitem => ?_
        rcases List.mem_append.mp hitem with hmem | hmem
        · obtain ⟨name, hname, rfl⟩ := List.mem_map.mp hmem
          exact Bool.eq_false_iff.mp (hcolumn name hname)
        · obtain ⟨a, -, rfl⟩ := List.mem_map.mp hmem
          exact Bool.false_ne_true
      have hgroup : (groupByExpressions q.select).any exprMentionsTag = false := by
        refine List.any_eq_false.mpr fun expr hexpr => ?_
        obtain ⟨name, hname, rfl⟩ := List.mem_map.mp hexpr
        exact Bool.eq_false_iff.mp (hcolumn name hname)
      unfold selectMentionsTags
      rw [hprojection, hgroup]
      rfl

theorem global_table_select (q : Asked) :
    globalTableRef q.select = some (q.schemaName, q.tableName) := by
  have hglobal : toLowercase "global" = "global" := by decide
  change (if toLowercase "global" = "global" then some (q.schemaName, q.tableName) else none) = _
  rw [if_pos hglobal]

/-- The planner takes the query, and its two texts are those of the two queries. -/
theorem plan_select (hquery : query.body = some q.select) :
    planFromQuery query = some
      { perNodeSql := q.perNode.text
        coordinatorSql := some q.coordinator.text
        postMergeTail := buildPostMergeTail query
        injectTags := !q.tags.isEmpty } := by
  have hsafe : (q.keys.isEmpty && !q.tags.isEmpty) = false := by
    cases hkeys : q.keys with
    | nil => rw [q.tags_beside_keys hkeys]; rfl
    | cons k keys => rfl
  have haggregates :
      (q.aggregates.map fun a => (⟨a.alias_, some a.fn.merge.name⟩ : PlannedAggregate)).isEmpty =
      false := by
    simpa using q.asks
  have hmerge : (if q.keys.isEmpty && q.tags.isEmpty then
      some (buildGlobalMergeSql [] [] (q.aggregates.map fun a => ⟨a.alias_, some a.fn.merge.name⟩))
    else if q.keys.isEmpty then none
    else some (buildGlobalMergeSql q.keys q.tags
      (q.aggregates.map fun a => ⟨a.alias_, some a.fn.merge.name⟩))) = some q.coordinator.text := by
    rw [← coordinator_text]
    cases hkeys : q.keys with
    | nil => rw [q.tags_beside_keys hkeys]; rfl
    | cons k keys => rfl
  have hshape :
      ¬ (q.select.from_.length ≠ 1 ∨ q.select.lateralViews = true ∨ q.select.having = true) := by
    simp [Asked.select]
  have hexprs : ¬ q.select.groupBy.isNone = true := Bool.false_ne_true
  have hgroups : ¬ ((groupByExpressions q.select).isEmpty = true ∧ (!true) = true) :=
    fun h => Bool.false_ne_true h.2
  unfold planFromQuery
  simp only [hquery, names_select, tag_group_select, data_group_select, hsafe,
    planAggregates_select, inject_select, has_aggregate_select, haggregates, Option.bind_eq_bind,
    Option.bind_some]
  rw [if_neg hshape, if_neg hexprs, if_neg hgroups, global_table_select, Option.bind_some,
    if_neg Bool.false_ne_true, perNode_text, Option.bind_some, hmerge]

end Plans

end Probing.Federation.AggregatePushdown
