import Probing.Core.TaggedUnion
import Probing.Memc.SegmentWriter
import Probing.Sql.Filter

/-!
# Scans of a hot ring and its cold segments

`HotColdTable::scan` prunes hot chunks, segments and pages by a time window. The
ranges it compares with are the ones the writers record: of a chunk over the
column the ring designates, of a page over the column its own table definition
designates, of a segment over the pages that have a range.
-/

namespace Probing.Sql

open Probing.Core
open Probing.Memt (DType Value headerTsCol viewTsCol)
open Probing.Memc (ColumnData Append tsRange tsCol tsMinInit tsMaxInit sourceChunkNone)

def columnValues : ColumnData → List Value
  | .U8 v => v.map .U8
  | .U32 v => v.map .U32
  | .I32 v => v.map .I32
  | .I64 v => v.map .I64
  | .F32 bits => bits.map .F32
  | .F64 bits => bits.map .F64
  | .U64 v => v.map .U64
  | .Str v => v.map .Str
  | .Bytes v => v.map .Bytes

/-- `RecordBatch::try_new`: the columns as rows of the schema, if their types and
lengths fit. -/
def recordBatch (cols : List (String × DType)) (columns : List ColumnData) : Option (List Row) :=
  let numRows := (columns.head?.map ColumnData.len).getD 0
  if columns.map ColumnData.dtype = cols.map Prod.snd ∧ ∀ c ∈ columns, c.len = numRows then
    some ((List.range numRows).map fun i => columns.map fun c => (columnValues c).getD i (.U8 0))
  else none

/-- Table instance, chunk and generation. -/
abbrev Tag := UInt64 × ℕ × UInt64

/-- A chunk that `chunks_logical` lists. -/
structure HotChunk where
  index : ℕ
  generation : UInt64
  rows : List Row

/-- A page, with the columns of the table definition it was appended under. -/
structure ColdPage where
  cols : List (String × DType)
  append : Append

namespace ColdPage

variable (p : ColdPage)

def ts : Int64 × Int64 := tsRange (tsCol p.cols) p.append.columns

def recorded : Option (Int64 × Int64) := if p.ts.1 ≤ p.ts.2 then some p.ts else none

def batch (cols : List (String × DType)) : Option (List Row) := recordBatch cols p.append.columns

/-- The hot chunk a page came from, if any. -/
def tag : Option Tag :=
  if p.append.sourceChunk = sourceChunkNone then none
  else some (p.append.sourceInstance, p.append.sourceChunk.toNat, p.append.sourceGen)

end ColdPage

/-- A segment, and the table id that its directory gives for the table's name. -/
structure ColdSegment where
  isSealed : Bool
  pages : List ColdPage
  tableIdByName : Option UInt32

namespace ColdSegment

variable (s : ColdSegment)

/-- The range in the header, over the pages that have one. -/
def headerTs : Int64 × Int64 :=
  (s.pages.filterMap ColdPage.recorded).foldl (fun r t => (min r.1 t.1, max r.2 t.2))
    (tsMinInit, tsMaxInit)

def tsRange : Option (Int64 × Int64) :=
  if s.isSealed ∧ s.headerTs.1 ≤ s.headerTs.2 then some s.headerTs else none

/-- `pages_in_range`. -/
def pagesInRange (tid : UInt32) (bounds : TsBounds) : List ColdPage :=
  s.pages.filter fun p => p.append.tableId = tid && !p.recorded.any bounds.misses

/-- The pages of the table that a scan of this segment decodes. -/
def scanned (bounds : TsBounds) : List ColdPage :=
  if s.tsRange.any bounds.misses then []
  else match s.tableIdByName with
    | none => []
    | some tid => s.pagesInRange tid bounds

end ColdSegment

/-- The value that `row_ts` notes. -/
def rowTs (ts : ℕ) (row : Row) : Option Int64 :=
  match row[ts]? with
  | some (.I64 v) => some v
  | _ => none

/-- `chunk_ts_range`, over the rows the writer has noted. -/
def chunkTsRange (ts : Option ℕ) (rows : List Row) : Option (Int64 × Int64) :=
  ts.bind fun i =>
    let range := (rows.filterMap (rowTs i)).foldl widen (tsMinInit, tsMaxInit)
    if range.1 > range.2 then none else some range

/-- What a scan finds: the ring with its schema and instance, and the segments. -/
structure Content where
  cols : List (String × DType)
  instance_id : UInt64
  chunks : List HotChunk
  segments : List ColdSegment
  designated : (tsCol cols).isSome
  names : (cols.map Prod.fst).Nodup
  typed : ∀ chunk ∈ chunks, ∀ row ∈ chunk.rows, row.map Value.dtype = cols.map Prod.snd
  indices : (chunks.map HotChunk.index).Nodup

namespace Content

variable (C : Content)

def columnNames : List String := C.cols.map Prod.fst

def viewTs : Option ℕ := viewTsCol (headerTsCol (tsCol C.cols))

def tag (chunk : HotChunk) : Tag := (C.instance_id, chunk.index, chunk.generation)

/-- `bounds_for`. -/
def boundsFor {F : Type} (filters : List (Expr F)) : TsBounds :=
  match C.viewTs with
  | some i => tsBoundsFromFilters (C.columnNames.getD i "") filters
  | none => .unbounded

def chunkMayMatch (bounds : TsBounds) (chunk : HotChunk) : Bool :=
  bounds.isUnbounded || !(chunkTsRange C.viewTs chunk.rows).any bounds.misses

/-- `view_to_recordbatches_pruned_excluding`. -/
def hotRows (bounds : TsBounds) (excluded : List Tag) : List Row :=
  (C.chunks.filter fun chunk => C.chunkMayMatch bounds chunk && C.tag chunk ∉ excluded).flatMap
    HotChunk.rows

/-- `cold_scan`: the rows and the tags of the decoded pages, or the error of a page
that is no batch of the schema. -/
def coldScan (bounds : TsBounds) : Option (List Row × List Tag) :=
  let pages := C.segments.flatMap fun s => s.scanned bounds
  if pages.all fun p => (p.batch C.cols).isSome then
    some (pages.flatMap fun p => (p.batch C.cols).getD [], pages.filterMap ColdPage.tag)
  else none

/-- The rows of a scan within a window. -/
def scan (bounds : TsBounds) : Option (List Row) :=
  (C.coldScan bounds).map fun (cold, covered) => C.hotRows bounds covered ++ cold

/-- Whatever the filters, the pruned scan has the passing rows of the full scan. -/
def PruningSound : Prop :=
  ∀ (F : Type) (E : Engine F) (filters : List (Expr F)), ∀ full ∈ C.scan .unbounded,
    ∃ pruned, C.scan (C.boundsFor filters) = some pruned ∧
      (full.filter (E.passes C.columnNames filters)).Perm
        (pruned.filter (E.passes C.columnNames filters))

/-- The pages of the table, each with its segment. -/
def tablePages : List (ColdSegment × ColdPage) :=
  C.segments.flatMap fun s => (s.scanned .unbounded).map (Prod.mk s)

/-- The tests of segment and page that a scan makes before it decodes. -/
def kept (bounds : TsBounds) (e : ColdSegment × ColdPage) : Bool :=
  !e.1.tsRange.any bounds.misses && !e.2.recorded.any bounds.misses

/-- The pages of the table that the window rules out. -/
def missed (bounds : TsBounds) : List (ColdSegment × ColdPage) :=
  C.tablePages.filter fun e => !kept bounds e

/-- The chunks of the ring that have a page, and no page that the window keeps. -/
def released (bounds : TsBounds) : List HotChunk :=
  C.chunks.filter fun chunk => C.tablePages.any (fun e => e.2.tag = some (C.tag chunk)) &&
    C.tablePages.all fun e => e.2.tag ≠ some (C.tag chunk) || !kept bounds e

/-- Some page of the table is no batch of the schema, or the pages that any window misses have a
row that the window admits as often as the chunks that only they stand for. -/
def Balanced : Prop :=
  (∃ e ∈ C.tablePages, e.2.batch C.cols = none) ∨
    ∀ k ∈ C.viewTs, ∀ (bounds : TsBounds) (row : Row), ∀ x ∈ row[k]?, bounds.Admits x →
      ((C.missed bounds).flatMap fun e => (e.2.batch C.cols).getD []).count row =
        ((C.released bounds).flatMap HotChunk.rows).count row

/-- A page tagged with a generation that the ring still has holds the rows of this chunk. -/
def Drained : Prop :=
  ∀ s ∈ C.segments, ∀ p ∈ s.pages, ∀ chunk ∈ C.chunks, p.tag = some (C.tag chunk) →
    p.batch C.cols = some chunk.rows

instance : Decidable C.Drained :=
  inferInstanceAs (Decidable (∀ s ∈ C.segments, ∀ p ∈ s.pages, ∀ chunk ∈ C.chunks, _ → _))

/-- The only page of a chunk generation that the ring still has. -/
def LoneCopy (p : ColdPage) : Prop :=
  ∃ chunk ∈ C.chunks, p.tag = some (C.tag chunk) ∧
    (C.tablePages.filter fun e => e.2.tag = p.tag).length ≤ 1

/-- The value lies in the range: an integer by comparison, another value only in the
range of everything. -/
def Covers (range : Int64 × Int64) (x : Value) : Prop :=
  match Datum.ofValue x with
  | .integer z => range.1.toInt ≤ z ∧ (z ≤ range.2.toInt ∨ range.2 = Int64.maxValue)
  | _ => range = (Int64.minValue, Int64.maxValue)

/-- Every value of column `k` in the page lies in the range of the page and of the
segment, where recorded. -/
def PageCovered (k : ℕ) (s : ColdSegment) (p : ColdPage) : Prop :=
  ∀ rows ∈ p.batch C.cols, ∀ row ∈ rows, ∀ x ∈ row[k]?,
    (∀ r ∈ p.recorded, Covers r x) ∧ ∀ r ∈ s.tsRange, Covers r x

/-- Some page of the table is no batch of the schema, or every page is the lone copy of
a chunk in the ring or within the recorded ranges. -/
def RangesCover : Prop :=
  (∃ e ∈ C.tablePages, e.2.batch C.cols = none) ∨
    ∀ k ∈ C.viewTs, ∀ e ∈ C.tablePages, C.LoneCopy e.2 ∨ C.PageCovered k e.1 e.2

end Content

end Probing.Sql
