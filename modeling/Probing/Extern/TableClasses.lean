import Probing.Core.Gather
import Probing.Core.Run

/-!
# Table classes

A dataclass that is declared as a table gets its external table at the first append and keeps it in
a cache. External tables are registered by name. Each has a ring in a file that its name
determines: the file must not be there when the ring is made, and it goes with the last reference
to the table.
-/

namespace Probing.Extern

open Probing.Core.Keyed (get)

inductive PyErr where
  | ValueError (text : String)
  | RuntimeError (text : String)
  | Conversion
  deriving DecidableEq

/-- What a table is made with: values of Python that become cells, the types of columns, and rings.
A ring is made empty for columns with types, and may refuse a row. -/
structure Native (V E D T : Type) where
  pythonToEle : V → Option E
  inferExternColumnDtype : String → D
  eleDtype : E → Option D
  createRing : String → List String → List D → ℕ → T
  pushRow : T → List D → List E → Option T
  rows : T → List D → List (List E)

/-- What the decorator keeps of a class. -/
structure Decl where
  tableName : String
  fields : List String
  ringCapacity : ℕ
  deriving DecidableEq

structure ExternBacking (D T : Type) where
  name : String
  columns : List String
  capacityBytes : ℕ
  dtypes : List D
  schemaFixed : Bool
  table : Option T

/-- The cache of the classes, the registered tables, all tables that were ever made, and the files
that are there. -/
structure State (C D T : Type) where
  cache : List (C × ℕ)
  registry : List (String × ℕ)
  backings : List (ExternBacking D T)
  files : List String

/-- A call with whether the system lets it make files. -/
inductive Action (C V : Type) where
  | append (cls : C) (row : List V) (io : Bool)
  | appendMany (cls : C) (rows : List (List V)) (io : Bool)
  | take (cls : C) (n : Option ℕ)
  | drop (cls : C)

def mmapBasename (name : String) : String :=
  if name.toList.contains '.' then name else "python." ++ name

def externNumChunks : ℕ := 8

def minChunkBytes : ℕ := 4 * 1024

def maxChunkBytes : ℕ := 8 * 1024 * 1024

/-- With the strategy that the decorator uses, the threshold is the budget. -/
def ringCapacityBytes (discard_threshold : ℕ) : ℕ :=
  min (max discard_threshold (minChunkBytes * externNumChunks)) (2 ^ 30)

def ringChunkBytes (capacity : ℕ) : ℕ :=
  min (max (capacity / externNumChunks) minChunkBytes) maxChunkBytes

variable {C V E D T : Type}

namespace ExternBacking

variable [DecidableEq D] (N : Native V E D T)

/-- A ring for the columns, if its file can be made. -/
def createTable (b : ExternBacking D T) (dtypes : List D) (files : List String) (io : Bool) :
    Option (T × List String) :=
  let filename := mmapBasename b.name
  if io ∧ filename ∉ files then
    some (N.createRing filename b.columns dtypes (ringChunkBytes b.capacityBytes),
      filename :: files)
  else none

/-- The ring with the types that the names of the columns suggest. -/
def ensureRegistered (b : ExternBacking D T) (files : List String) (io : Bool) :
    Option (ExternBacking D T × List String) :=
  if b.table.isSome then some (b, files)
  else
    let dtypes := b.columns.map N.inferExternColumnDtype
    (b.createTable N dtypes files io).map fun (table, files) =>
      ({ b with dtypes := dtypes, table := some table }, files)

/-- The first row settles the types, for which the ring may have to be made again. -/
def ensureTable (b : ExternBacking D T) (first_row : List E) (files : List String) (io : Bool) :
    Bool × ExternBacking D T × List String :=
  if b.schemaFixed then (true, b, files)
  else
    let dtypes := List.zipWith (fun value inferred => (N.eleDtype value).getD inferred)
      first_row b.dtypes
    if b.table.isSome ∧ b.dtypes = dtypes then (true, { b with schemaFixed := true }, files)
    else
      let files := if b.table.isSome then files.erase (mmapBasename b.name) else files
      match b.createTable N dtypes files io with
      | some (table, files) =>
          (true, { b with dtypes := dtypes, schemaFixed := true, table := some table }, files)
      | none => (false, { b with dtypes := [], table := none }, files)

/-- `ExternBacking::append`, with what is left of the table also when it fails. -/
def append (b : ExternBacking D T) (values : List E) (files : List String) (io : Bool) :
    Except PyErr Unit × ExternBacking D T × List String :=
  if values.length ≠ b.columns.length then
    (.error (.ValueError "column count mismatch"), b, files)
  else
    match b.ensureTable N values files io with
    | (false, b, files) => (.error (.ValueError "memtable error"), b, files)
    | (true, b, files) =>
        match b.table with
        | none => (.error (.ValueError "table not initialized"), b, files)
        | some table =>
            match N.pushRow table b.dtypes values with
            | none =>
                (.error (.ValueError "push_row failed: schema mismatch or row too large"), b, files)
            | some table => (.ok (), { b with table := some table }, files)

/-- The rows, or only the most recent ones. -/
def take (b : ExternBacking D T) (limit : Option ℕ) : List (List E) :=
  match b.table with
  | none => []
  | some table =>
      let out := N.rows table b.dtypes
      match limit with
      | some limit => out.drop (out.length - limit)
      | none => out

end ExternBacking

namespace State

variable [DecidableEq C] [DecidableEq D] (N : Native V E D T) (decl : C → Decl)

/-- The table that is registered under a name. -/
def registered (s : State C D T) (name : String) : Option (ℕ × ExternBacking D T) :=
  (get s.registry name).bind fun t => s.backings[t]?.map fun b => (t, b)

/-- A reference to a table is gone: with the last one its file goes. -/
def release (s : State C D T) (t : ℕ) : State C D T :=
  if t ∈ s.cache.map Prod.snd ∨ t ∈ s.registry.map Prod.snd then s
  else match s.backings[t]? with
    | some b =>
        if b.table.isSome then { s with files := s.files.erase (mmapBasename b.name) } else s
    | none => s

def releases (s : State C D T) : Option ℕ → State C D T
  | some t => s.release t
  | none => s

/-- `ExternalTable::new`. -/
def newTable (s : State C D T) (d : Decl) (io : Bool) : Except PyErr ℕ × State C D T :=
  let backing : ExternBacking D T :=
    ⟨d.tableName, d.fields, ringCapacityBytes d.ringCapacity, [], false, none⟩
  match backing.ensureRegistered N s.files io with
  | none => (.error (.RuntimeError "memtable error"), s)
  | some (backing, files) =>
      let t := s.backings.length
      let named : State C D T := { s with
        registry := Core.Keyed.set Prod.fst s.registry (d.tableName, t)
        backings := s.backings ++ [backing]
        files := files }
      (.ok t, named.releases (get s.registry d.tableName))

def differentFields (name : String) : PyErr :=
  .ValueError ("Table " ++ name ++ " already exists with different fields")

/-- The `try` of `init_table`: the registered table, whose fields must be the same. -/
def getTable (s : State C D T) (d : Decl) : Except PyErr ℕ :=
  match s.registered d.tableName with
  | none => .error (.ValueError ("table " ++ d.tableName ++ " not found"))
  | some (t, b) => if b.columns ≠ d.fields then .error (differentFields d.tableName) else .ok t

def keep (s : State C D T) (cls : C) (t : ℕ) : State C D T :=
  { s with cache := Core.Keyed.set Prod.fst s.cache (cls, t) }

/-- `cls.init_table()`. The handler of the `try` makes a new table, whatever the error was. -/
def initTable (s : State C D T) (cls : C) (io : Bool) : Except PyErr ℕ × State C D T :=
  match get s.cache cls with
  | some t => (.ok t, s)
  | none => match s.getTable (decl cls) with
    | .ok t => (.ok t, s.keep cls t)
    | .error _ => match s.newTable N (decl cls) io with
      | (.ok t, s) => (.ok t, s.keep cls t)
      | (.error e, s) => (.error e, s)

/-- `ExternalTable::append`. -/
def appendRow (s : State C D T) (t : ℕ) (row : List V) (io : Bool) :
    Except PyErr Unit × State C D T :=
  match s.backings[t]? with
  | none => (.error (.RuntimeError "no table"), s)
  | some b =>
      if row.length ≠ b.columns.length then (.error (.ValueError "column count mismatch"), s)
      else match row.mapM N.pythonToEle with
        | none => (.error .Conversion, s)
        | some eles =>
            let (outcome, b, files) := b.append N eles s.files io
            (outcome, { s with backings := s.backings.set t b, files := files })

/-- The rows one after the other, up to the first that fails. -/
def appendRows (s : State C D T) (t : ℕ) (io : Bool) :
    List (List V) → Except PyErr Unit × State C D T
  | [] => (.ok (), s)
  | row :: rest => match s.appendRow N t row io with
    | (.ok _, s) => appendRows s t io rest
    | (.error e, s) => (.error e, s)

/-- `cls.drop()`: the class forgets its table, and the name is free. -/
def drop (s : State C D T) (cls : C) : State C D T :=
  let name := (decl cls).tableName
  let forgotten : State C D T := { s with cache := Core.Keyed.erase Prod.fst s.cache cls }
  let forgotten := forgotten.releases (get s.cache cls)
  let freed : State C D T :=
    { forgotten with registry := Core.Keyed.erase Prod.fst s.registry name }
  freed.releases (get s.registry name)

/-- The class appends to its table. -/
def use (s : State C D T) (cls : C) (rows : List (List V)) (io : Bool) :
    Except PyErr (List (List E)) × State C D T :=
  match s.initTable N decl cls io with
  | (.error e, s) => (.error e, s)
  | (.ok t, s) => match s.appendRows N t io rows with
    | (.ok _, s) => (.ok [], s)
    | (.error e, s) => (.error e, s)

/-- What a call returns, and the state it leaves. -/
def call (s : State C D T) : Action C V → Except PyErr (List (List E)) × State C D T
  | .append cls row io => s.use N decl cls [row] io
  | .appendMany cls rows io => s.use N decl cls rows io
  | .take cls n => (.ok (match (get s.cache cls).bind (s.backings[·]?) with
      | some b => b.take N n
      | none => []), s)
  | .drop cls => (.ok [], s.drop decl cls)

def step (s : State C D T) (a : Action C V) : Option (State C D T) := some (s.call N decl a).2

end State

/-- No class has a table, none is registered, and there are no files. -/
def start : State C D T := ⟨[], [], [], []⟩

end Probing.Extern
