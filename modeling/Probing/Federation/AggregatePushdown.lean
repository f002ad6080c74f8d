import Probing.Core.Gather
import Probing.Federation.AggregatePlan
import Probing.Federation.Transport

/-!
# Aggregates in parts

The queries of a plan for an aggregate in parts, read over rows, so that the merged result can be
compared with that of the query as it was asked. What a node returns is cut at the limit that the
node appends, and travels as a dataframe: a column of a type that has no sequence arrives empty, and
a batch that has other columns too is dropped.
-/

namespace Probing.Federation.AggregatePushdown

open Core.Keyed (groups foldSome)

section Bounds

variable {α : Type} [LinearOrder α] (x y z : α)

theorem smaller_assoc : (if (if x ≤ y then x else y) ≤ z then (if x ≤ y then x else y) else z) =
    if x ≤ (if y ≤ z then y else z) then x else (if y ≤ z then y else z) := by
  simp only [← min_def]
  exact min_assoc x y z

theorem greater_assoc : (if (if x ≤ y then y else x) ≤ z then z else (if x ≤ y then y else x)) =
    if x ≤ (if y ≤ z then z else y) then (if y ≤ z then z else y) else x := by
  simp only [← max_def]
  exact max_assoc x y z

end Bounds

/-- A value of a column; numbers are exact. -/
inductive Datum where
  | num (n : ℤ)
  | text (s : String)
  deriving DecidableEq

/-- `NULL` is none. -/
abbrev Value := Option Datum

namespace Datum

/-- The engine adds no texts. -/
def add : Datum → Datum → Datum
  | num m, num n => num (m + n)
  | num _, text s => text s
  | text s, _ => text s

def min : Datum → Datum → Datum
  | num m, num n => num (if m ≤ n then m else n)
  | num m, text _ => num m
  | text _, num n => num n
  | text s, text t => text (if s ≤ t then s else t)

def max : Datum → Datum → Datum
  | num m, num n => num (if m ≤ n then n else m)
  | num _, text s => text s
  | text s, num _ => text s
  | text s, text t => text (if s ≤ t then t else s)

theorem add_assoc (a b c : Datum) : (a.add b).add c = a.add (b.add c) := by
  cases a with
  | text s => rfl
  | num m =>
      cases b with
      | text s => rfl
      | num n =>
          cases c with
          | text s => rfl
          | num o => exact congrArg num (Int.add_assoc m n o)

theorem min_assoc : ∀ a b c : Datum, (a.min b).min c = a.min (b.min c)
  | num m, num n, num o => congrArg num (smaller_assoc m n o)
  | text s, text t, text u => congrArg text (smaller_assoc s t u)
  | num _, num _, text _ | num _, text _, num _ | num _, text _, text _ => rfl
  | text _, num _, num _ | text _, num _, text _ | text _, text _, num _ => rfl

theorem max_assoc : ∀ a b c : Datum, (a.max b).max c = a.max (b.max c)
  | num m, num n, num o => congrArg num (greater_assoc m n o)
  | text s, text t, text u => congrArg text (greater_assoc s t u)
  | num _, num _, text _ | num _, text _, num _ | num _, text _, text _ => rfl
  | text _, num _, num _ | text _, num _, text _ | text _, text _, num _ => rfl

end Datum

/-- The values of a row by the names of their columns. -/
abbrev Row := String → Value

namespace Fn

/-- What an aggregate makes of the values of its argument. -/
def apply : Fn → List Value → Value
  | count, vs => some (.num (vs.filter Option.isSome).length)
  | sum, vs => foldSome Datum.add vs
  | min, vs => foldSome Datum.min vs
  | max, vs => foldSome Datum.max vs

theorem apply_count_flatten (vss : List (List Value)) (h : vss ≠ []) :
    foldSome Datum.add (vss.map (apply count)) = apply count vss.flatten := by
  induction vss with
  | nil => exact absurd rfl h
  | cons vs vss ih =>
      change Option.merge Datum.add (apply count vs) (foldSome Datum.add (vss.map (apply count))) =
        _
      by_cases hvss : vss = []
      · subst hvss
        rw [List.flatten_cons, List.flatten_nil, List.append_nil]
        rfl
      · rw [ih hvss, List.flatten_cons]
        simp only [apply, List.filter_append, List.length_append, Nat.cast_add]
        rfl

/-- An aggregate of a list is the merge of the aggregates of its parts, if there is a part. -/
theorem apply_flatten (f : Fn) (vss : List (List Value)) (h : vss ≠ []) :
    f.merge.apply (vss.map f.apply) = f.apply vss.flatten := by
  cases f with
  | count => exact apply_count_flatten vss h
  | sum => exact Core.Keyed.foldSome_flatten Datum.add_assoc vss
  | min => exact Core.Keyed.foldSome_flatten Datum.min_assoc vss
  | max => exact Core.Keyed.foldSome_flatten Datum.max_assoc vss

end Fn

/-- The type of an aggregate; the engine adds only numbers. -/
def Fn.result : Fn → DataType → DataType
  | count, _ => .Int64
  | sum, .Int8 | sum, .Int16 | sum, .Int32 | sum, .Int64 => .Int64
  | sum, .UInt8 | sum, .UInt16 | sum, .UInt32 | sum, .UInt64 => .UInt64
  | sum, .Float32 | sum, .Float64 => .Float64
  | _, d => d

/-- A result: its columns with their types, and its rows. -/
structure Frame where
  names : List String
  types : List DataType
  rows : List (List Value)

def Frame.row (names : List String) (vals : List Value) : Row :=
  fun c => ((names.zip vals).lookup c).join

section Meaning

-- how an engine reads an expression and a condition in a row
variable (eval : String → Row → Value) (holds : String → Row → Bool)

def Arg.value (r : Row) : Arg → Value
  | expr text => eval text r
  | column name => r name

def Item.value (rows : List Row) (item : Item) : Value :=
  item.fn.apply (rows.map fun r => item.arg.value eval r)

def Item.type (columnType exprType : String → DataType) (item : Item) : DataType :=
  item.fn.result (match item.arg with
    | .expr text => exprType text
    | .column name => columnType name)

def keyOf (keys : List String) (r : Row) : List Value := keys.map r

namespace AggregateQuery

def kept (q : AggregateQuery) (rows : List Row) : List Row :=
  match q.filter with
  | some text => rows.filter (holds text)
  | none => rows

def line (q : AggregateQuery) (key : List Value) (rows : List Row) : List Value :=
  key ++ q.items.map (Item.value eval rows)

/-- The rows of a result. Without grouping columns there is one. -/
def result (q : AggregateQuery) (rows : List Row) : List (List Value) :=
  if q.keys = [] then [q.line eval [] (q.kept holds rows)]
  else (groups (keyOf q.keys) (q.kept holds rows)).map fun g => q.line eval g.1 g.2

def types (columnType exprType : String → DataType) (q : AggregateQuery) : List DataType :=
  q.keys.map columnType ++ q.items.map (Item.type columnType exprType)

def frame (columnType exprType : String → DataType) (q : AggregateQuery) (rows : List Row) :
    Frame where
  names := q.keys ++ q.items.map Item.alias_
  types := q.types columnType exprType
  rows := q.result eval holds rows

/-- The columns that a query reads by name. -/
def columns (q : AggregateQuery) : List String :=
  q.keys ++ q.items.filterMap fun item => match item.arg with
    | .column name => some name
    | .expr _ => none

end AggregateQuery

end Meaning

abbrev Tags := String → Value

/-- The type of a column that has travelled as a sequence, which a `Nil` has not. -/
def arrivesAs (d : DataType) : Option DataType :=
  match arrowArrayToSeq ⟨d, []⟩ with
  | .Nil => none
  | seq => some (arrayDataType seq)

/-- A dataframe by its rows. A column of no kind is a `Nil`, without values. -/
structure DataFrame where
  names : List String
  kinds : List (Option DataType)
  rows : List (List Value)

/-- The longest column. -/
def DataFrame.rowCount (f : DataFrame) : ℕ :=
  if f.kinds.any Option.isSome then f.rows.length else 0

/-- What is sent of a value: a column holds some value under a `NULL` too, and this is what
arrives. -/
def sentValue (slot : String → Datum) (column : String × Option DataType) (v : Value) : Value :=
  column.2.map fun _ => v.getD (slot column.1)

def batchesToDataframe (slot : String → Datum) (f : Frame) : DataFrame :=
  let kinds := f.types.map arrivesAs
  ⟨f.names, kinds, f.rows.map (List.zipWith (sentValue slot) (f.names.zip kinds))⟩

/-- A column is appended where there is none of its name. -/
def DataFrame.withColumn (f : DataFrame) (name : String) (type : DataType) (v : Value) :
    DataFrame :=
  if name ∈ f.names then f
  else ⟨f.names ++ [name], f.kinds ++ [some type], f.rows.map (· ++ [v])⟩

/-- Ranks are numbers, the other tags are texts. -/
def tagType (name : String) : DataType :=
  if name ∈ ["_rank", "_node_rank", "_local_rank"] then .Int32 else .Utf8

def tagProtoDataframe (f : DataFrame) (tags : Tags) : DataFrame :=
  if f.rowCount = 0 then f
  else federationTagColumns.foldl (fun f name => f.withColumn name (tagType name) (tags name)) f

/-- A dataframe without rows becomes a batch without columns. Columns of different lengths are
no batch. -/
def protoDataframeToRecordBatch (f : DataFrame) : Option Frame :=
  if f.rowCount = 0 then some ⟨[], [], []⟩
  else if f.kinds.all Option.isSome then some ⟨f.names, f.kinds.reduceOption, f.rows⟩
  else none

/-- The batches of the nodes, each with its tags, without those that do not convert. -/
def toBatches (injectTags : Bool) (parts : List (Tags × DataFrame)) : List Frame :=
  parts.filterMap fun part =>
    protoDataframeToRecordBatch
      (if injectTags then tagProtoDataframe part.2 part.1 else part.2)

/-- The type of a column of a batch. -/
def Frame.typeOf (f : Frame) (name : String) : DataType :=
  ((f.names.zip f.types).lookup name).getD .Utf8

/-- The batches become a table with the columns of the first one, which all of them must have, and
the merge is run on it. -/
def mergeOnCoordinator (eval : String → Row → Value) (holds : String → Row → Bool)
    (exprType : String → DataType) (slot : String → Datum) (q : AggregateQuery)
    (batches : List Frame) : Option DataFrame :=
  match batches with
  | [] => none
  | first :: _ =>
      if (∀ b ∈ batches, b.names = first.names ∧ b.types = first.types) ∧
          q.columns ⊆ first.names then
        some (batchesToDataframe slot (q.frame eval holds first.typeOf exprType
          (batches.flatMap fun b => b.rows.map (Frame.row b.names))))
      else none

/-- A probing node with the tags of its endpoint. A peer appends its limit to the query for each
node, where the coordinator appends none to its own. -/
structure Node where
  tags : Tags
  rows : List Row
  globalScanMaxRows : Option ℕ

/-- The result of a node. Which rows a limit keeps is open; these are the first ones. -/
def Node.reply (n : Node) (f : Frame) : Frame :=
  { f with rows := match n.globalScanMaxRows with
      | some m => f.rows.take m
      | none => f.rows }

/-- A row with the tags of its node, whose tables have no columns of these names. -/
def tagged (tags : Tags) (r : Row) : Row :=
  fun name => if isFederationTagColumn name then tags name else r name

/-- The types of the columns with those of the tags. -/
def taggedType (columnType : String → DataType) (name : String) : DataType :=
  if isFederationTagColumn name then tagType name else columnType name

/-- The rows of all nodes, as a query of the `global` catalog sees them. -/
def allRows (nodes : List Node) : List Row := nodes.flatMap fun n => n.rows.map (tagged n.tags)

section Rows

theorem lookup_append_left {β : Type} {n₁ n₂ : List String} {v₁ v₂ : List β} {c : String}
    (hlen : n₁.length = v₁.length) (hc : c ∈ n₁) :
    ((n₁ ++ n₂).zip (v₁ ++ v₂)).lookup c = (n₁.zip v₁).lookup c := by
  rw [List.zip_append hlen, List.lookup_append]
  have hsome : ((n₁.zip v₁).lookup c).isSome = true := by
    rw [List.lookup_isSome_iff]
    obtain ⟨i, hi, rfl⟩ := List.getElem_of_mem hc
    exact ⟨(n₁[i], v₁[i]), List.mem_iff_getElem.mpr ⟨i, by simp; omega, by simp⟩, by simp⟩
  obtain ⟨v, hv⟩ := Option.isSome_iff_exists.mp hsome
  rw [hv]
  rfl

theorem lookup_append_right {β : Type} {n₁ n₂ : List String} {v₁ v₂ : List β} {c : String}
    (hlen : n₁.length = v₁.length) (hc : c ∉ n₁) :
    ((n₁ ++ n₂).zip (v₁ ++ v₂)).lookup c = (n₂.zip v₂).lookup c := by
  have hnone : (n₁.zip v₁).lookup c = none := by
    rw [List.lookup_eq_none_iff]
    intro p hp
    have hmem : p.1 ∈ n₁ := (List.of_mem_zip hp).1
    simpa using fun heq : c = p.1 => hc (heq ▸ hmem)
  rw [List.zip_append hlen, List.lookup_append, hnone, Option.none_or]

theorem lookup_map {α β : Type} {l : List α} {f : α → String} {g : α → β}
    (hnodup : (l.map f).Nodup) {a : α} (ha : a ∈ l) :
    ((l.map f).zip (l.map g)).lookup (f a) = some (g a) := by
  induction l with
  | nil => exact absurd ha List.not_mem_nil
  | cons b l ih =>
      obtain ⟨hb, hl⟩ := List.nodup_cons.mp hnodup
      rw [List.map_cons, List.map_cons, List.zip_cons_cons]
      rcases List.mem_cons.mp ha with rfl | hmem
      · exact List.lookup_cons_self
      · have hne : f a ≠ f b := fun heq => hb (heq ▸ List.mem_map_of_mem hmem)
        rw [List.lookup_cons, beq_false_of_ne hne]
        exact ih hl hmem

theorem row_append_left {n₁ n₂ : List String} {v₁ v₂ : List Value} {c : String}
    (hlen : n₁.length = v₁.length) (hc : c ∈ n₁) :
    Frame.row (n₁ ++ n₂) (v₁ ++ v₂) c = Frame.row n₁ v₁ c :=
  congrArg Option.join (lookup_append_left hlen hc)

theorem row_append_right {n₁ n₂ : List String} {v₁ v₂ : List Value} {c : String}
    (hlen : n₁.length = v₁.length) (hc : c ∉ n₁) :
    Frame.row (n₁ ++ n₂) (v₁ ++ v₂) c = Frame.row n₂ v₂ c :=
  congrArg Option.join (lookup_append_right hlen hc)

theorem row_map {α : Type} {l : List α} {f : α → String} {g : α → Value}
    (hnodup : (l.map f).Nodup) {a : α} (ha : a ∈ l) :
    Frame.row (l.map f) (l.map g) (f a) = g a :=
  congrArg Option.join (lookup_map hnodup ha)

/-- A row has its values under its names. -/
theorem map_row {names : List String} {vals : List Value} (hnodup : names.Nodup)
    (hlen : names.length = vals.length) :
    names.map (Frame.row names vals) = vals := by
  induction names generalizing vals with
  | nil => exact (List.length_eq_zero_iff.mp hlen.symm).symm
  | cons name names ih =>
      obtain ⟨v, vals, rfl⟩ := List.exists_cons_of_length_eq_add_one hlen.symm
      obtain ⟨hname, hnames⟩ := List.nodup_cons.mp hnodup
      have hhead : Frame.row (name :: names) (v :: vals) name = v := by
        unfold Frame.row
        rw [List.zip_cons_cons, List.lookup_cons_self]
        rfl
      have htail : ∀ c ∈ names, Frame.row (name :: names) (v :: vals) c =
          Frame.row names vals c := by
        intro c hc
        have hne : c ∉ [name] := fun hmem => hname (List.mem_singleton.mp hmem ▸ hc)
        have hlen : [name].length = [v].length := rfl
        exact row_append_right hlen hne
      rw [List.map_cons, hhead, List.map_congr_left htail, ih hnames (Nat.succ.inj hlen)]

end Rows

section Parts

theorem travels_iff {d : DataType} : (arrivesAs d).isSome = true ↔ Travels d := by
  cases d <;> simp [arrivesAs, arrowArrayToSeq, Travels, Sent]

/-- The type of a column after it has travelled. -/
def arrived (d : DataType) : DataType := (arrivesAs d).getD .Utf8

theorem arrivesAs_eq {d : DataType} (h : Travels d) : arrivesAs d = some (arrived d) :=
  (Option.getD_of_ne_none (Option.isSome_iff_ne_none.mp (travels_iff.mpr h)) _).symm

/-- What has travelled travels as itself. -/
theorem arrivesAs_arrived {d : DataType} (h : Travels d) :
    arrivesAs (arrived d) = arrivesAs d := by
  cases d <;> first
    | rfl
    | exact absurd h id

/-- The merge of an aggregate arrives as the aggregate does. -/
theorem arrivesAs_merged {f : Fn} {d : DataType} (h : Travels (f.result d)) :
    arrivesAs (f.merge.result (arrived (f.result d))) = arrivesAs (f.result d) := by
  cases f <;> cases d <;> first
    | rfl
    | exact absurd h id

/-- All the columns that tags are put in are new. -/
theorem tag_columns {cols : List String} {tags : Tags} {f : DataFrame} (hnodup : cols.Nodup)
    (hnew : ∀ c ∈ cols, c ∉ f.names) :
    cols.foldl (fun f name => f.withColumn name (tagType name) (tags name)) f =
      ⟨f.names ++ cols, f.kinds ++ cols.map fun c => some (tagType c),
        f.rows.map (· ++ cols.map tags)⟩ := by
  induction cols generalizing f with
  | nil => simp
  | cons c cols ih =>
      obtain ⟨hc, hcols⟩ := List.nodup_cons.mp hnodup
      have hfirst : f.withColumn c (tagType c) (tags c) =
          ⟨f.names ++ [c], f.kinds ++ [some (tagType c)], f.rows.map (· ++ [tags c])⟩ :=
        if_neg (hnew c List.mem_cons_self)
      have hrest : ∀ x ∈ cols, x ∉ f.names ++ [c] := by
        intro x hx hmem
        rcases List.mem_append.mp hmem with h | h
        · exact hnew x (List.mem_cons_of_mem _ hx) h
        · exact hc (List.mem_singleton.mp h ▸ hx)
      rw [List.foldl_cons, hfirst, ih hcols hrest]
      simp

/-- A column without values stays one under the tags. -/
theorem nil_tagged {f : DataFrame} {tags : Tags} (h : none ∈ f.kinds) :
    none ∈ (tagProtoDataframe f tags).kinds := by
  unfold tagProtoDataframe
  split
  · exact h
  next hrows =>
    clear hrows
    generalize federationTagColumns = cols
    induction cols generalizing f with
    | nil => exact h
    | cons c cols ih =>
        rw [List.foldl_cons]
        apply ih
        unfold DataFrame.withColumn
        by_cases hmem : c ∈ f.names
        · rw [if_pos hmem]
          exact h
        · rw [if_neg hmem]
          exact List.mem_append_left _ h

/-- A batch of a dataframe with a column without values has no columns. -/
theorem batch_of_nil {f : DataFrame} {b : Frame} (h : none ∈ f.kinds)
    (hb : protoDataframeToRecordBatch f = some b) : b = ⟨[], [], []⟩ := by
  unfold protoDataframeToRecordBatch at hb
  split at hb
  · exact (Option.some.inj hb).symm
  · split at hb
    next hall =>
        have hsome := List.all_eq_true.mp hall none h
        cases hsome
    next => cases hb

/-- A result without a `NULL` whose columns travel is sent as it is. -/
theorem batchesToDataframe_complete {slot : String → Datum} {f : Frame}
    (htypes : f.types.length = f.names.length) (htravel : ∀ d ∈ f.types, Travels d)
    (h : ∀ line ∈ f.rows, line.length = f.names.length ∧ ∀ v ∈ line, v.isSome = true) :
    batchesToDataframe slot f = ⟨f.names, f.types.map arrivesAs, f.rows⟩ := by
  have hline : ∀ line ∈ f.rows, List.zipWith (sentValue slot)
      (f.names.zip (f.types.map arrivesAs)) line = line := by
    intro line hmem
    obtain ⟨hlen, hsome⟩ := h line hmem
    refine List.ext_getElem (by simp [hlen, htypes]) fun i hi hi' => ?_
    obtain ⟨d, hd⟩ := Option.isSome_iff_exists.mp (hsome _ (List.getElem_mem hi'))
    have hi'' : i < f.types.length := by omega
    have harrives := arrivesAs_eq (htravel _ (List.getElem_mem hi''))
    rw [List.getElem_zipWith, List.getElem_zip, List.getElem_map, hd]
    unfold sentValue
    rw [harrives]
    rfl
  unfold batchesToDataframe
  dsimp only
  rw [List.map_congr_left hline, List.map_id']

end Parts

namespace Asked

variable (q : Asked) (eval : String → Row → Value) (holds : String → Row → Bool)

/-- No aggregate and no condition reads a tag. -/
structure Untagged : Prop where
  aggregates : ∀ a ∈ q.aggregates, ∀ tags r, eval a.text (tagged tags r) = eval a.text r
  filter : ∀ text, q.filter = some text → ∀ tags r, holds text (tagged tags r) = holds text r

/-- The partial result of a node has no `NULL`, and all its rows are returned. -/
structure Complete (n : Node) : Prop where
  valid : ∀ line ∈ q.perNode.result eval holds n.rows, ∀ v ∈ line, v.isSome = true
  room : ∀ m ∈ n.globalScanMaxRows, (q.perNode.result eval holds n.rows).length ≤ m

def names : List String := q.keys ++ q.aggregates.map Aggregate.alias_

/-- The columns that come with the tags. -/
def added : List String := if q.tags = [] then [] else federationTagColumns

def values (rows : List Row) (a : {a // a ∈ q.aggregates}) : Value :=
  a.1.fn.apply (rows.map (eval a.1.text))

/-- What the merge reads of a row. -/
def read (r : Row) : List Value × ({a // a ∈ q.aggregates} → Value) :=
  (keyOf (q.keys ++ q.tags) r, fun a => r a.1.alias_)

def merged (key : List Value) (parts : List (List Value × ({a // a ∈ q.aggregates} → Value))) :
    List Value :=
  key ++ q.aggregates.attach.map fun a => a.1.fn.merge.apply (parts.map fun part => part.2 a)

variable (columnType exprType : String → DataType)

/-- The types of a partial result. -/
def partialTypes : List DataType :=
  q.keys.map columnType ++ q.aggregates.map fun a => a.fn.result (exprType a.text)

/-- The types of the columns and the expressions. A partial result has no floats, whose sums depend
on their order. -/
structure Typing where
  columnType : String → DataType
  exprType : String → DataType
  exact : ∀ d ∈ q.partialTypes columnType exprType, d ≠ .Float32 ∧ d ≠ .Float64

/-- The batch of a node, if it converts. -/
def batch (slot : String → Datum) (n : Node) : Option Frame :=
  let sent := batchesToDataframe slot
    (n.reply (q.perNode.frame eval holds columnType exprType n.rows))
  protoDataframeToRecordBatch
    (if !q.tags.isEmpty then tagProtoDataframe sent n.tags else sent)

/-- The partial result of a node and its tags, or nothing at all. -/
def part (n : Node) : Frame :=
  if q.perNode.result eval holds n.rows = [] then ⟨[], [], []⟩
  else ⟨q.names ++ q.added,
    (q.partialTypes columnType exprType).map arrived ++ q.added.map tagType,
    (q.perNode.result eval holds n.rows).map (· ++ q.added.map n.tags)⟩

end Asked

section Merge

variable {q : Asked} {eval : String → Row → Value} {holds : String → Row → Bool}
  {slot : String → Datum} {columnType exprType : String → DataType} {n : Node}
  {key : List Value} {rows : List Row}

theorem names_not_tags {name : String} (h : name ∈ q.names) :
    isFederationTagColumn name = false := by
  rcases List.mem_append.mp h with hkey | halias
  · exact q.keys_are name hkey
  · obtain ⟨a, ha, rfl⟩ := List.mem_map.mp halias
    exact q.aliases_are a ha

theorem added_tags {name : String} (h : name ∈ q.added) : isFederationTagColumn name = true := by
  unfold Asked.added at h
  split at h
  · exact absurd h List.not_mem_nil
  · exact List.contains_iff_mem.mpr h

theorem added_nodup : q.added.Nodup := by
  unfold Asked.added
  split
  · exact List.nodup_nil
  · decide

theorem tags_added {name : String} (h : name ∈ q.tags) : name ∈ q.added := by
  unfold Asked.added
  rw [if_neg (List.ne_nil_of_mem h)]
  exact List.contains_iff_mem.mp (q.tags_are name h)

theorem perNode_line (key : List Value) (rows : List Row) :
    q.perNode.line eval key rows = key ++ q.aggregates.map fun a => a.fn.apply
    (rows.map (eval a.text)) := by
  unfold AggregateQuery.line
  change _ ++ List.map _ (List.map _ _) = _
  rw [List.map_map]
  rfl

theorem length_perNode_line (hkey : key.length = q.keys.length) :
    (q.perNode.line eval key rows).length = q.names.length := by
  unfold Asked.names
  rw [perNode_line, List.length_append, List.length_append, List.length_map, List.length_map, hkey]

/-- What the merge reads of a partial row and its tags. -/
theorem read_line {tags : Tags} (hkey : key.length = q.keys.length) :
    q.read (Frame.row (q.names ++ q.added) (q.perNode.line eval key rows ++ q.added.map tags)) =
      (key ++ q.tags.map tags, q.values eval rows) := by
  have hlen : q.names.length = (q.perNode.line eval key rows).length :=
    (length_perNode_line hkey).symm
  have hnodup := q.distinct
  have hkeys : q.keys.map
      (Frame.row (q.names ++ q.added) (q.perNode.line eval key rows ++ q.added.map tags)) =
        key := by
    have hcolumn : ∀ c ∈ q.keys, Frame.row (q.names ++ q.added)
        (q.perNode.line eval key rows ++ q.added.map tags) c = Frame.row q.keys key c := by
      intro c hc
      rw [row_append_left hlen (List.mem_append_left _ hc), perNode_line]
      exact row_append_left hkey.symm hc
    rw [List.map_congr_left hcolumn, map_row hnodup.of_append_left hkey.symm]
  have htags :
    q.tags.map (Frame.row (q.names ++ q.added) (q.perNode.line eval key rows ++ q.added.map tags)) =
      q.tags.map tags := by
    refine List.map_congr_left fun t ht => ?_
    have hnew : t ∉ q.names := fun hmem => by
      have hnot := names_not_tags hmem
      rw [q.tags_are t ht] at hnot
      cases hnot
    rw [row_append_right hlen hnew]
    have hid : q.added = q.added.map id := (List.map_id _).symm
    rw [hid, List.map_map]
    exact row_map (f := id) (g := tags) (hid ▸ added_nodup) (tags_added ht)
  refine Prod.ext ?_ (funext fun a => ?_)
  · change List.map _ (q.keys ++ q.tags) = _
    rw [List.map_append, hkeys, htags]
  · have hmem : a.1.alias_ ∈ q.aggregates.map Aggregate.alias_ := List.mem_map_of_mem a.2
    have hnew : a.1.alias_ ∉ q.keys := fun h => (List.disjoint_of_nodup_append hnodup) h hmem
    change Frame.row _ _ a.1.alias_ = _
    rw [row_append_left hlen (List.mem_append_right _ hmem), perNode_line]
    exact (row_append_right hkey.symm hnew).trans (row_map hnodup.of_append_right a.2)

theorem keyOf_tagged (tags : Tags) (r : Row) :
    keyOf (q.keys ++ q.tags) (tagged tags r) = keyOf q.keys r ++ q.tags.map tags := by
  unfold keyOf
  rw [List.map_append]
  congr 1
  · exact List.map_congr_left fun k hk => if_neg (by rw [q.keys_are k hk]; exact Bool.false_ne_true)
  · exact List.map_congr_left fun t ht => if_pos (q.tags_are t ht)

theorem kept_tagged (huntagged : q.Untagged eval holds) (tags : Tags) :
    q.original.kept holds (rows.map (tagged tags)) = (q.perNode.kept holds rows).map
    (tagged tags) := by
  have horiginal : q.original.filter = q.filter := rfl
  have hnode : q.perNode.filter = q.filter := rfl
  unfold AggregateQuery.kept
  rw [horiginal, hnode]
  cases hfilter : q.filter with
  | none => rfl
  | some text =>
      dsimp only
      rw [List.filter_map]
      exact congrArg _ (List.filter_congr fun r _ => huntagged.filter text hfilter tags r)

theorem values_tagged (huntagged : q.Untagged eval holds) (tags : Tags) :
    q.values eval (rows.map (tagged tags)) = q.values eval rows := by
  funext a
  unfold Asked.values
  rw [List.map_map]
  exact congrArg _ (List.map_congr_left fun r _ => huntagged.aggregates a.1 a.2 tags r)

/-- The rows that the query is asked about, node by node. -/
theorem kept_allRows (huntagged : q.Untagged eval holds) (nodes : List Node) :
    q.original.kept holds (allRows nodes) =
      (nodes.map fun n => (q.perNode.kept holds n.rows).map (tagged n.tags)).flatten := by
  have hflat : q.original.kept holds (allRows nodes) =
      nodes.flatMap fun n => q.original.kept holds (n.rows.map (tagged n.tags)) := by
    unfold AggregateQuery.kept allRows
    cases q.original.filter with
    | none => rfl
    | some text => exact List.filter_flatMap
  rw [hflat, ← List.flatMap_def]
  exact List.flatMap_congr fun n _ => kept_tagged huntagged n.tags

/-- A partial result has one row for each of the groups, whose keys are as long as the grouping
columns. -/
theorem length_perNode (n : Node) :
    ∀ line ∈ q.perNode.result eval holds n.rows, line.length = q.names.length := by
  intro line hline
  unfold AggregateQuery.result at hline
  split at hline
  next hkeys =>
      rw [List.mem_singleton.mp hline]
      exact length_perNode_line (congrArg List.length hkeys).symm
  next hkeys =>
      obtain ⟨g, hg, rfl⟩ := List.mem_map.mp hline
      obtain ⟨k, hk, rfl⟩ := List.mem_map.mp hg
      obtain ⟨r, -, rfl⟩ := List.mem_map.mp (List.mem_dedup.mp hk)
      exact length_perNode_line (List.length_map _)

/-- The result of a node, within its limit. -/
theorem frame_perNode (hroom : ∀ m ∈ n.globalScanMaxRows,
    (q.perNode.result eval holds n.rows).length ≤ m) :
    n.reply (q.perNode.frame eval holds columnType exprType n.rows) =
      ⟨q.names, q.partialTypes columnType exprType, q.perNode.result eval holds n.rows⟩ := by
  have hnames : q.perNode.keys ++ q.perNode.items.map Item.alias_ = q.names := by
    change _ ++ List.map _ (List.map _ _) = _
    rw [List.map_map]
    rfl
  have htypes : q.perNode.types columnType exprType =
      q.partialTypes columnType exprType := by
    change _ ++ List.map _ (List.map _ _) = _
    rw [List.map_map]
    rfl
  unfold Node.reply AggregateQuery.frame
  rw [hnames, htypes]
  cases hlimit : n.globalScanMaxRows with
  | none => rfl
  | some m =>
      have hall := List.take_of_length_le (hroom m hlimit)
      exact congrArg (Frame.mk _ _) hall

theorem length_partialTypes :
    (q.partialTypes columnType exprType).length = q.names.length := by
  unfold Asked.partialTypes Asked.names
  rw [List.length_append, List.length_append, List.length_map, List.length_map, List.length_map]

theorem map_arrives {types : List DataType} (h : ∀ d ∈ types, Travels d) :
    types.map arrivesAs = (types.map arrived).map some := by
  rw [List.map_map]
  exact List.map_congr_left fun d hd => arrivesAs_eq (h d hd)

/-- The batch of a node whose columns travel is its partial result and its tags, or nothing. -/
theorem batch_eq (htravel : ∀ d ∈ q.partialTypes columnType exprType, Travels d)
    (hcomplete : q.Complete eval holds n) : q.batch eval holds columnType exprType slot n =
      some (q.part eval holds columnType exprType n) := by
  have hsent : batchesToDataframe slot
      (n.reply (q.perNode.frame eval holds columnType exprType n.rows)) =
      ⟨q.names, ((q.partialTypes columnType exprType).map arrived).map some,
        q.perNode.result eval holds n.rows⟩ := by
    rw [frame_perNode hcomplete.room, batchesToDataframe_complete length_partialTypes htravel,
      map_arrives htravel]
    exact fun line hline => ⟨length_perNode n line hline, hcomplete.valid line hline⟩
  have hany : (((q.partialTypes columnType exprType).map arrived).map some).any
      Option.isSome = true := by
    obtain ⟨a, ha⟩ := List.exists_mem_of_ne_nil _ q.asks
    have hmem : a.fn.result (exprType a.text) ∈ q.partialTypes columnType exprType :=
      List.mem_append_right _ (List.mem_map.mpr ⟨a, ha, rfl⟩)
    exact List.any_eq_true.mpr
      ⟨_, List.mem_map_of_mem (List.mem_map_of_mem hmem), rfl⟩
  have hcount (lines : List (List Value)) :
      DataFrame.rowCount ⟨q.names, ((q.partialTypes columnType exprType).map arrived).map some,
        lines⟩ = lines.length := if_pos hany
  have hconvert (types : List DataType) (hsome : types ≠ []) (names : List String)
      {lines : List (List Value)} (hlines : lines ≠ []) :
      protoDataframeToRecordBatch ⟨names, types.map some, lines⟩ =
        some ⟨names, types, lines⟩ := by
    obtain ⟨d, types, rfl⟩ := List.exists_cons_of_ne_nil hsome
    have hall : (((d :: types).map some).all Option.isSome) = true := by simp
    have hrows : DataFrame.rowCount ⟨names, (d :: types).map some, lines⟩ ≠ 0 := by
      unfold DataFrame.rowCount
      rw [if_pos (by simp)]
      exact fun h => hlines (List.length_eq_zero_iff.mp h)
    unfold protoDataframeToRecordBatch
    rw [if_neg hrows, if_pos hall]
    dsimp only
    rw [List.reduceOption, List.filterMap_map]
    exact congrArg (fun types => some (Frame.mk names types lines)) List.filterMap_some
  have htypes : (q.partialTypes columnType exprType).map arrived ≠ [] := by
    rintro hnil
    rw [hnil] at hany
    cases hany
  unfold Asked.batch Asked.part
  dsimp only
  rw [hsent]
  by_cases hrows : q.perNode.result eval holds n.rows = []
  · have hempty : DataFrame.rowCount ⟨q.names,
        ((q.partialTypes columnType exprType).map arrived).map some, []⟩ = 0 :=
      hcount []
    have htagged : tagProtoDataframe ⟨q.names,
        ((q.partialTypes columnType exprType).map arrived).map some, []⟩ n.tags =
          ⟨q.names, ((q.partialTypes columnType exprType).map arrived).map some, []⟩ :=
      if_pos hempty
    rw [hrows, if_pos rfl, htagged, ite_self]
    exact if_pos hempty
  · rw [if_neg hrows]
    by_cases htags : q.tags = []
    · have hadded : q.added = [] := if_pos htags
      have hsame : (q.perNode.result eval holds n.rows).map (· ++ q.added.map n.tags) =
          q.perNode.result eval holds n.rows := by
        rw [hadded]
        simp
      rw [hsame, hadded, htags, if_neg (by simp), hconvert _ htypes _ hrows]
      simp
    · have hadded : q.added = federationTagColumns := if_neg htags
      have hnew : ∀ c ∈ federationTagColumns, c ∉ q.names := by
        intro c hc hmem
        have hnot := names_not_tags hmem
        rw [added_tags (hadded ▸ hc)] at hnot
        cases hnot
      have hinject : (!q.tags.isEmpty) = true := by simpa using htags
      have hfilled : DataFrame.rowCount ⟨q.names,
          ((q.partialTypes columnType exprType).map arrived).map some,
            q.perNode.result eval holds n.rows⟩ ≠ 0 := by
        rw [hcount]
        exact fun h => hrows (List.length_eq_zero_iff.mp h)
      rw [if_pos hinject, tagProtoDataframe, if_neg hfilled,
        tag_columns (hadded ▸ added_nodup) hnew, hadded]
      have hkinds : ((q.partialTypes columnType exprType).map arrived).map some ++
          federationTagColumns.map (fun c => some (tagType c)) =
            ((q.partialTypes columnType exprType).map arrived ++
              federationTagColumns.map tagType).map some := by
        rw [List.map_append, List.map_map (f := tagType)]
        rfl
      dsimp only
      rw [hkinds]
      refine hconvert _ (fun h => htypes (List.append_eq_nil_iff.mp h).1) _ ?_
      exact fun h => hrows (List.map_eq_nil_iff.mp h)

/-- The batch of a node with a column that does not travel is dropped or has no columns. -/
theorem batch_dropped {d : DataType} (hd : d ∈ q.partialTypes columnType exprType)
    (hnot : ¬ Travels d) {b : Frame}
    (hb : q.batch eval holds columnType exprType slot n = some b) : b = ⟨[], [], []⟩ := by
  have hnone : arrivesAs d = none := by
    rw [← Option.not_isSome_iff_eq_none]
    exact fun h => hnot (travels_iff.mp h)
  have hsent : none ∈ (batchesToDataframe slot
      (n.reply (q.perNode.frame eval holds columnType exprType n.rows))).kinds := by
    have htypes : q.perNode.types columnType exprType =
        q.partialTypes columnType exprType := by
      change _ ++ List.map _ (List.map _ _) = _
      rw [List.map_map]
      rfl
    change none ∈ (q.perNode.types columnType exprType).map arrivesAs
    rw [htypes]
    exact List.mem_map.mpr ⟨d, hd, hnone⟩
  refine batch_of_nil ?_ hb
  split
  · exact nil_tagged hsent
  · exact hsent

/-- What the merge reads in the batch of a node: the groups of the node, under its tags. -/
theorem read_batch (columnType exprType : String → DataType) (hkeys : q.keys ≠ [])
    (huntagged : q.Untagged eval holds) :
    ((q.part eval holds columnType exprType n).rows.map
      (Frame.row (q.part eval holds columnType exprType n).names)).map q.read =
      (groups (keyOf (q.keys ++ q.tags)) ((q.perNode.kept holds n.rows).map (tagged n.tags))).map
        fun g => (g.1, q.values eval g.2) := by
  have hframe : q.perNode.result eval holds n.rows =
      (groups (keyOf q.keys) (q.perNode.kept holds n.rows)).map fun g =>
        q.perNode.line eval g.1 g.2 := if_neg hkeys
  have hgroups :
    groups (keyOf (q.keys ++ q.tags)) ((q.perNode.kept holds n.rows).map (tagged n.tags)) =
      (groups (keyOf q.keys) (q.perNode.kept holds n.rows)).map fun g =>
        (g.1 ++ q.tags.map n.tags, g.2.map (tagged n.tags)) := by
    have hinjective : Function.Injective fun key : List Value => key ++ q.tags.map n.tags :=
      fun _ _ => List.append_cancel_right
    have hkey : (fun r => keyOf (q.keys ++ q.tags) (tagged n.tags r)) =
        fun r => keyOf q.keys r ++ q.tags.map n.tags :=
      funext fun r => keyOf_tagged n.tags r
    rw [Core.Keyed.groups_map, hkey, Core.Keyed.groups_injective hinjective, List.map_map]
    rfl
  have hlength : ∀ g ∈ groups (keyOf q.keys) (q.perNode.kept holds n.rows),
      g.1.length = q.keys.length := by
    intro g hg
    obtain ⟨k, hk, rfl⟩ := List.mem_map.mp hg
    obtain ⟨r, -, rfl⟩ := List.mem_map.mp (List.mem_dedup.mp hk)
    exact List.length_map _
  have hread : ((groups (keyOf q.keys) (q.perNode.kept holds n.rows)).map fun g => q.read
      (Frame.row (q.names ++ q.added) (q.perNode.line eval g.1 g.2 ++ q.added.map n.tags))) =
      (groups (keyOf q.keys) (q.perNode.kept holds n.rows)).map fun g =>
        (g.1 ++ q.tags.map n.tags, q.values eval (g.2.map (tagged n.tags))) :=
    List.map_congr_left fun g hg => by rw [read_line (hlength g hg), values_tagged huntagged]
  unfold Asked.part
  rw [hframe, hgroups, List.map_map]
  split
  next hnone =>
      rw [List.map_eq_nil_iff.mp hnone]
      rfl
  next hsome =>
      rw [List.map_map, List.map_map, List.map_map, List.map_map]
      exact hread

/-- Without grouping columns the batch of a node has its one row. -/
theorem read_batch_single (columnType exprType : String → DataType) (hkeys : q.keys = [])
    (huntagged : q.Untagged eval holds) :
    ((q.part eval holds columnType exprType n).rows.map
      (Frame.row (q.part eval holds columnType exprType n).names)).map q.read =
      [([], q.values eval ((q.perNode.kept holds n.rows).map (tagged n.tags)))] := by
  have hframe : q.perNode.result eval holds n.rows =
      [q.perNode.line eval [] (q.perNode.kept holds n.rows)] :=
    if_pos hkeys
  have hread : q.read (Frame.row (q.names ++ q.added)
      (q.perNode.line eval [] (q.perNode.kept holds n.rows) ++ q.added.map n.tags)) =
      ([] ++ q.tags.map n.tags, q.values eval (q.perNode.kept holds n.rows)) :=
    read_line (congrArg List.length hkeys).symm
  unfold Asked.part
  rw [hframe, if_neg (List.cons_ne_nil _ _)]
  change [q.read _] = _
  rw [hread, q.tags_beside_keys hkeys, values_tagged huntagged]
  rfl

theorem coordinator_line (key : List Value) (rows : List Row) :
    q.coordinator.line eval key rows = q.merged key (rows.map q.read) := by
  have hitem (a : Aggregate) (ha : a ∈ q.aggregates) :
      Item.value eval rows ⟨a.fn.merge, a.fn.merge.name, .column a.alias_, a.alias_⟩ =
        a.fn.merge.apply ((rows.map q.read).map fun part => part.2 ⟨a, ha⟩) := by
    rw [List.map_map]
    rfl
  unfold AggregateQuery.line Asked.merged
  change _ ++ List.map _ (List.map _ _) = _
  rw [List.map_map, ← List.attach_map_val]
  exact congrArg _ (List.map_congr_left fun a _ => hitem a.1 a.2)

theorem original_line (key : List Value) (rows : List Row) :
    q.original.line eval key rows = key ++ q.aggregates.attach.map (q.values eval rows) := by
  unfold AggregateQuery.line
  change _ ++ List.map _ (List.map _ _) = _
  rw [List.map_map, ← List.attach_map_val]
  rfl

/-- The merge of the aggregates of the parts are the aggregates of all rows. -/
theorem merged_values (key : List Value) (ess : List (List Row)) (hne : ess ≠ []) :
    q.merged key (ess.map fun es => (key, q.values eval es)) =
      q.original.line eval key ess.flatten := by
  rw [original_line]
  unfold Asked.merged
  refine congrArg _ (List.map_congr_left fun a _ => ?_)
  have hparts : (ess.map fun es => (key, q.values eval es)).map (fun part => part.2 a) =
      (ess.map (List.map (eval a.1.text))).map a.1.fn.apply := by
    rw [List.map_map, List.map_map]
    rfl
  rw [hparts, Fn.apply_flatten _ _ (fun h => hne (List.map_eq_nil_iff.mp h)), ← List.map_flatten]
  rfl

section Nodes

variable {nodes : List Node}

theorem read_batches {f : Node → List (List Value × ({a // a ∈ q.aggregates} → Value))}
    (h : ∀ n ∈ nodes,
      ((q.part eval holds columnType exprType n).rows.map
        (Frame.row (q.part eval holds columnType exprType n).names)).map q.read = f n) :
    ((nodes.map (q.part eval holds columnType exprType)).flatMap fun b =>
      b.rows.map (Frame.row b.names)).map q.read = nodes.flatMap f := by
  rw [List.flatMap_map, List.map_flatMap]
  exact List.flatMap_congr h

/-- The rows of the merge are those of the query as it was asked. -/
theorem merge_rows (hnodes : nodes ≠ []) (huntagged : q.Untagged eval holds) :
    (q.coordinator.result eval holds
      ((nodes.map (q.part eval holds columnType exprType)).flatMap fun b =>
        b.rows.map (Frame.row b.names))).Perm
      (q.original.result eval holds (allRows nodes)) := by
  by_cases hkeys : q.keys = []
  · have hgroup : q.keys ++ q.tags = [] := by rw [hkeys, q.tags_beside_keys hkeys]; rfl
    have hparts : nodes.map (fun n => (q.perNode.kept holds n.rows).map (tagged n.tags)) ≠ [] :=
      fun h => hnodes (List.map_eq_nil_iff.mp h)
    have hread := read_batches fun n (_ : n ∈ nodes) =>
      read_batch_single columnType exprType hkeys huntagged
    rw [← List.map_eq_flatMap] at hread
    have hvalues : q.merged [] (nodes.map fun n =>
        ([], q.values eval ((q.perNode.kept holds n.rows).map (tagged n.tags)))) =
          q.original.line eval []
          (nodes.map fun n => (q.perNode.kept holds n.rows).map (tagged n.tags)).flatten := by
      rw [← merged_values [] _ hparts, List.map_map]
      rfl
    have hline : q.coordinator.line eval []
        ((nodes.map (q.part eval holds columnType exprType)).flatMap fun b =>
          b.rows.map (Frame.row b.names)) =
              q.original.line eval [] (q.original.kept holds (allRows nodes)) := by
      rw [coordinator_line, hread, kept_allRows huntagged]
      exact hvalues
    have hmerge : q.coordinator.result eval holds
        ((nodes.map (q.part eval holds columnType exprType)).flatMap fun b =>
          b.rows.map (Frame.row b.names)) = [q.coordinator.line eval []
            ((nodes.map (q.part eval holds columnType exprType)).flatMap fun b =>
              b.rows.map (Frame.row b.names))] := if_pos hgroup
    have hwhole : q.original.result eval holds (allRows nodes) =
        [q.original.line eval [] (q.original.kept holds (allRows nodes))] := if_pos hgroup
    rw [hmerge, hwhole, hline]
  · have hgroup : q.keys ++ q.tags ≠ [] := fun h => hkeys (List.append_eq_nil_iff.mp h).1
    have hread := read_batches fun n (_ : n ∈ nodes) =>
      read_batch columnType exprType hkeys huntagged
    have hmerge : q.coordinator.result eval holds
        ((nodes.map (q.part eval holds columnType exprType)).flatMap fun b =>
          b.rows.map (Frame.row b.names)) =
            (groups Prod.fst
              ((nodes.map fun n => (q.perNode.kept holds n.rows).map (tagged n.tags)).flatMap
                fun es => (groups (keyOf (q.keys ++ q.tags)) es).map fun g =>
                  (g.1, q.values eval g.2))).map fun g => q.merged g.1 g.2 := by
      have hpart :
          ((nodes.map fun n => (q.perNode.kept holds n.rows).map (tagged n.tags)).flatMap fun es =>
          (groups (keyOf (q.keys ++ q.tags)) es).map fun g => (g.1, q.values eval g.2)) =
            ((nodes.map (q.part eval holds columnType exprType)).flatMap fun b =>
              b.rows.map (Frame.row b.names)).map q.read := by
        rw [hread, List.flatMap_map]
      rw [hpart, Core.Keyed.groups_map, List.map_map]
      refine (if_neg hgroup).trans (List.map_congr_left fun g _ => ?_)
      exact coordinator_line g.1 g.2
    have hwhole : q.original.result eval holds (allRows nodes) =
        (groups (keyOf (q.keys ++ q.tags)) (nodes.map fun n =>
          (q.perNode.kept holds n.rows).map (tagged n.tags)).flatten).map fun g =>
              q.original.line eval g.1 g.2 := by
      rw [← kept_allRows huntagged]
      exact if_neg hgroup
    rw [hmerge, hwhole]
    exact Core.Keyed.merge_groups (fun _ _ => rfl) merged_values _

theorem perNode_rows_nil (n : Node) : q.perNode.result eval holds n.rows = [] ↔
    q.keys ≠ [] ∧ q.perNode.kept holds n.rows = [] := by
  unfold AggregateQuery.result
  split
  next hkeys => simp [show q.keys = [] from hkeys]
  next hkeys =>
      have hgroups : groups (keyOf q.perNode.keys) (q.perNode.kept holds n.rows) = [] ↔
          q.perNode.kept holds n.rows = [] := by
        unfold groups
        rw [List.map_eq_nil_iff, List.dedup_eq_nil, List.map_eq_nil_iff]
      rw [List.map_eq_nil_iff, hgroups]
      exact (and_iff_right hkeys).symm

theorem coordinator_columns :
    q.coordinator.columns = q.keys ++ q.tags ++ q.aggregates.map Aggregate.alias_ := by
  unfold AggregateQuery.columns
  change _ ++ List.filterMap _ (List.map _ _) = _
  rw [List.filterMap_map]
  exact congrArg _ (congrFun List.filterMap_eq_map' _)

/-- The batches make a table with the columns of the merge, unless a node has no group. -/
theorem merge_defined (hnodes : nodes ≠ []) : (mergeOnCoordinator eval holds exprType slot
      q.coordinator (nodes.map (q.part eval holds columnType exprType))).isSome ↔
      q.keys = [] ∨ ∀ n ∈ nodes, q.perNode.kept holds n.rows ≠ [] := by
  obtain ⟨first, rest, rfl⟩ := List.exists_cons_of_ne_nil hnodes
  have hpart : ∀ n, q.part eval holds columnType exprType n =
      if q.keys ≠ [] ∧ q.perNode.kept holds n.rows = [] then ⟨[], [], []⟩
      else ⟨q.names ++ q.added,
        (q.partialTypes columnType exprType).map arrived ++ q.added.map tagType,
        (q.perNode.result eval holds n.rows).map (· ++ q.added.map n.tags)⟩ := by
    intro n
    unfold Asked.part
    simp only [perNode_rows_nil]
  have hsome : (mergeOnCoordinator eval holds exprType slot q.coordinator
      ((first :: rest).map (q.part eval holds columnType exprType))).isSome ↔
      (∀ n ∈ first :: rest,
        (q.part eval holds columnType exprType n).names =
          (q.part eval holds columnType exprType first).names ∧
        (q.part eval holds columnType exprType n).types =
          (q.part eval holds columnType exprType first).types) ∧
        q.coordinator.columns ⊆ (q.part eval holds columnType exprType first).names := by
    rw [← List.forall_mem_map (l := first :: rest) (P := fun b : Frame =>
      b.names = (q.part eval holds columnType exprType first).names ∧
        b.types = (q.part eval holds columnType exprType first).types)]
    exact Option.isSome_ite
  have hcolumns : q.coordinator.columns ⊆ q.names ++ q.added := by
    rw [coordinator_columns]
    intro c hc
    rcases List.mem_append.mp hc with hgroup | halias
    · rcases List.mem_append.mp hgroup with hkey | htag
      · exact List.mem_append_left _ (List.mem_append_left _ hkey)
      · exact List.mem_append_right _ (tags_added htag)
    · exact List.mem_append_left _ (List.mem_append_right _ halias)
  rw [hsome]
  constructor
  · rintro ⟨hsame, hsub⟩
    refine or_iff_not_imp_left.mpr fun hkeys n hn hnone => ?_
    have hfirst : (q.part eval holds columnType exprType first).names = [] := by
      rw [← (hsame n hn).1, hpart, if_pos ⟨hkeys, hnone⟩]
    obtain ⟨k, keys, hcons⟩ := List.exists_cons_of_ne_nil hkeys
    have hmem : k ∈ q.coordinator.columns := by
      rw [coordinator_columns, hcons]
      exact List.mem_cons_self
    rw [hfirst] at hsub
    exact absurd (hsub hmem) List.not_mem_nil
  · intro hgroups
    have hall : ∀ n ∈ first :: rest, ¬ (q.keys ≠ [] ∧ q.perNode.kept holds n.rows = []) :=
      fun n hn h => hgroups.elim h.1 fun hsome => hsome n hn h.2
    constructor
    · intro n hn
      rw [hpart n, hpart first, if_neg (hall n hn), if_neg (hall first List.mem_cons_self)]
      exact ⟨rfl, rfl⟩
    · rw [hpart first, if_neg (hall first List.mem_cons_self)]
      exact hcolumns

/-- Without columns there is no merge. -/
theorem merge_undefined {batches : List Frame} (h : ∀ b ∈ batches, b = ⟨[], [], []⟩) :
    mergeOnCoordinator eval holds exprType slot q.coordinator batches = none := by
  cases batches with
  | nil => rfl
  | cons first rest =>
      obtain ⟨a, ha⟩ := List.exists_mem_of_ne_nil _ q.asks
      have hmem : a.alias_ ∈ q.coordinator.columns := by
        rw [coordinator_columns]
        exact List.mem_append_right _ (List.mem_map_of_mem ha)
      refine if_neg fun hmerge => ?_
      have hin := hmerge.2 hmem
      rw [h first List.mem_cons_self] at hin
      exact List.not_mem_nil hin

end Nodes

theorem merge_cons {q : AggregateQuery} {first : Frame} {rest : List Frame} {f : DataFrame}
    (h : mergeOnCoordinator eval holds exprType slot q (first :: rest) = some f) :
    f = batchesToDataframe slot (q.frame eval holds first.typeOf exprType
      ((first :: rest).flatMap fun b => b.rows.map (Frame.row b.names))) :=
  (Option.some.inj (Option.ite_none_right_eq_some.mp h).2).symm

section Types

theorem typeOf_key (hrows : q.perNode.result eval holds n.rows ≠ []) {k : String}
    (hk : k ∈ q.keys) :
    (q.part eval holds columnType exprType n).typeOf k = arrived (columnType k) := by
  have hlen : q.names.length = ((q.partialTypes columnType exprType).map arrived).length := by
    rw [List.length_map, length_partialTypes]
  have hlookup : (q.keys.zip ((q.keys.map columnType).map arrived)).lookup k =
      some (arrived (columnType k)) := by
    have hid := lookup_map (f := id) (g := fun c => arrived (columnType c))
      (by rw [List.map_id]; exact q.distinct.of_append_left) hk
    rw [List.map_id] at hid
    rw [List.map_map]
    exact hid
  unfold Asked.part Frame.typeOf
  rw [if_neg hrows]
  dsimp only
  rw [lookup_append_left hlen (List.mem_append_left _ hk)]
  unfold Asked.partialTypes Asked.names
  rw [List.map_append, lookup_append_left (by simp) hk, hlookup]
  rfl

theorem typeOf_tag (hrows : q.perNode.result eval holds n.rows ≠ []) {t : String}
    (ht : t ∈ q.tags) :
    (q.part eval holds columnType exprType n).typeOf t = tagType t := by
  have hlen : q.names.length = ((q.partialTypes columnType exprType).map arrived).length := by
    rw [List.length_map, length_partialTypes]
  have hnew : t ∉ q.names := fun hmem => by
    have hnot := names_not_tags hmem
    rw [q.tags_are t ht] at hnot
    cases hnot
  have hid := lookup_map (f := id) (g := tagType)
    (by rw [List.map_id]; exact added_nodup) (tags_added ht)
  rw [List.map_id] at hid
  unfold Asked.part Frame.typeOf
  rw [if_neg hrows]
  dsimp only
  rw [lookup_append_right hlen hnew]
  exact congrArg (Option.getD · .Utf8) hid

theorem typeOf_alias (hrows : q.perNode.result eval holds n.rows ≠ []) {a : Aggregate}
    (ha : a ∈ q.aggregates) : (q.part eval holds columnType exprType n).typeOf a.alias_ =
      arrived (a.fn.result (exprType a.text)) := by
  have hlen : q.names.length = ((q.partialTypes columnType exprType).map arrived).length := by
    rw [List.length_map, length_partialTypes]
  have hmem : a.alias_ ∈ q.aggregates.map Aggregate.alias_ := List.mem_map_of_mem ha
  have hnew : a.alias_ ∉ q.keys := fun h => (List.disjoint_of_nodup_append q.distinct) h hmem
  have hlookup := lookup_map (f := Aggregate.alias_)
    (g := fun a => arrived (a.fn.result (exprType a.text))) q.distinct.of_append_right ha
  unfold Asked.part Frame.typeOf
  rw [if_neg hrows]
  dsimp only
  rw [lookup_append_left hlen (List.mem_append_right _ hmem)]
  unfold Asked.partialTypes Asked.names
  rw [List.map_append, lookup_append_right (by simp) hnew, List.map_map]
  exact congrArg (Option.getD · .Utf8) hlookup

/-- The columns of the merge arrive as those of the query as it was asked. -/
theorem merge_kinds (htravel : ∀ d ∈ q.partialTypes columnType exprType, Travels d)
    (hrows : q.perNode.result eval holds n.rows ≠ []) :
    (q.coordinator.types (q.part eval holds columnType exprType n).typeOf exprType).map
        arrivesAs =
      (q.original.types (taggedType columnType) exprType).map arrivesAs := by
  have hgroups : ∀ c ∈ q.keys ++ q.tags,
      arrivesAs ((q.part eval holds columnType exprType n).typeOf c) =
        arrivesAs (taggedType columnType c) := by
    intro c hc
    unfold taggedType
    rcases List.mem_append.mp hc with hkey | htag
    · rw [typeOf_key hrows hkey, q.keys_are c hkey, if_neg Bool.false_ne_true]
      exact arrivesAs_arrived (htravel _ (List.mem_append_left _ (List.mem_map_of_mem hkey)))
    · rw [typeOf_tag hrows htag, q.tags_are c htag, if_pos rfl]
  have haggregates : ∀ a ∈ q.aggregates, arrivesAs (a.fn.merge.result
      ((q.part eval holds columnType exprType n).typeOf a.alias_)) =
        arrivesAs (a.fn.result (exprType a.text)) := by
    intro a ha
    rw [typeOf_alias hrows ha]
    exact arrivesAs_merged (htravel _ (List.mem_append_right _ (List.mem_map.mpr ⟨a, ha, rfl⟩)))
  unfold AggregateQuery.types
  change List.map _ (List.map _ _ ++ List.map _ (List.map _ _)) =
    List.map _ (List.map _ _ ++ List.map _ (List.map _ _))
  simp only [List.map_append, List.map_map]
  congr 1
  · exact List.map_congr_left hgroups
  · exact List.map_congr_left haggregates

end Types

end Merge

section Counted

/-- `SELECT name, _rank, count(*) AS n FROM global.process.envs GROUP BY name, _rank`. -/
def counted : Asked where
  schemaName := "process"
  tableName := "envs"
  keys := ["name"]
  tags := ["_rank"]
  aggregates := [⟨.count, "count", "*", "n", by decide⟩]
  filter := none
  tags_are := by decide
  keys_are := by decide
  aliases_are := by decide
  distinct := by decide
  tags_beside_keys := fun h => absurd h (List.cons_ne_nil _ _)
  asks := List.cons_ne_nil _ _
  names_readable := by decide

def env (name : String) : Row := fun c => if c = "name" then some (.text name) else none

def twoNodes : List Node :=
  [⟨fun _ => some (.num 0), [env "HOME", env "PATH", env "HOME"], none⟩,
    ⟨fun _ => some (.num 1), [env "HOME"], some 10000⟩]

def countedTypes : counted.Typing where
  columnType _ := .Utf8
  exprType _ := .Int64
  exact := by decide

end Counted

end Probing.Federation.AggregatePushdown
