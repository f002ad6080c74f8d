import Probing.Memc.Codec

/-!
# Writing a segment

`SegmentWriter` appends blocks at the cursor of its file and keeps its own
`offset`, from which the page directory is filled. `seal` appends the footer and
rewrites the header. A file write may fail after any number of its bytes.
-/

namespace Probing.Memc

open Probing.Core
open Probing.Memt (DType)

/-- Largest offset of a file, `i64::MAX`; a write past it fails. -/
def maxFileSize : ℕ := 2 ^ 63 - 1

/-- A file with its cursor, and the writes so far with their offsets. -/
structure File where
  bytes : Bytes
  cursor : ℕ
  writes : List (ℕ × Bytes)

/-- What the device takes of a write: a faulty one only the first `fault` bytes. -/
def File.taken (f : File) (bs : Bytes) (fault : Option ℕ) : Bytes :=
  bs.take (min (fault.getD bs.length) (maxFileSize - f.cursor))

/-- `write_all` at the cursor. The flag is false when the write fails. -/
def File.writeAll (f : File) (bs : Bytes) (fault : Option ℕ) : File × Bool :=
  let taken := f.taken bs fault
  (⟨splice f.bytes f.cursor taken, f.cursor + taken.length, f.writes ++ [(f.cursor, taken)]⟩,
    taken = bs)

/-- `std::io::Error` by its kind; `os` is an error of the file system. -/
inductive WriteError where
  | NotFound (message : String)
  | InvalidInput (message : String)
  | InvalidData (message : String)
  | os
  deriving DecidableEq

structure TableInfo where
  cols : List (String × DType)
  tsCol : Option ℕ

/-- Metadata of one page: an entry of the page directory. -/
structure PageMeta where
  tableId : UInt32
  rowCount : UInt32
  colCount : UInt32
  tsMin : Int64
  tsMax : Int64
  blockOff : UInt64
  blockLen : UInt32
  sourceGen : UInt64
  sourceChunk : UInt32
  sourceInstance : UInt64
  deriving DecidableEq

/-- Who writes a header, and when. -/
structure Stamp where
  writerPid : UInt32
  writerStart : UInt64
  createdUnixMs : UInt64

/-- The arguments of `append_page_from`. -/
structure Append where
  tableId : UInt32
  columns : List ColumnData
  sourceGen : UInt64
  sourceChunk : UInt32
  sourceInstance : UInt64
  deriving DecidableEq

inductive Call where
  | registerTable (name : String) (cols : List (String × DType))
  | appendPageFrom (a : Append)

structure SegmentWriter where
  file : File
  offset : ℕ
  tables : UInt32 → Option TableInfo
  nextTableId : UInt32
  pages : List PageMeta
  segTsMin : Int64
  segTsMax : Int64

/-- The header as `create` writes it. -/
def createHeader (stamp : Stamp) : SegmentHeader where
  flags := 0
  writerPid := stamp.writerPid
  writerStart := stamp.writerStart
  createdUnixMs := stamp.createdUnixMs
  footerOff := 0
  tsMin := tsMinInit
  tsMax := tsMaxInit
  pageCount := 0

/-- The bytes of a block: header, payload and zeros up to a 64-byte boundary. -/
def blockBytes (X : Crates) (header : BlockHeader) (payload : Bytes) : Bytes :=
  let raw := blockHeaderSize + payload.length
  header.encode X ++ (payload ++ List.replicate (align64 raw - raw) 0)

def tableHeader (X : Crates) (id : UInt32) (cols : List (String × DType)) (payload : Bytes) :
    BlockHeader where
  magic := magicTableBlock
  tableId := id
  rowCount := 0
  colCount := .ofNat cols.length
  tsMin := tsMinInit
  tsMax := tsMaxInit
  sourceGen := 0
  payloadLen := .ofNat payload.length
  payloadXxh := X.xxh32 payload
  sourceChunk := sourceChunkNone
  sourceInstance := 0

/-- `columns.first().map(len).unwrap_or(0)`. -/
def Append.rowCount (a : Append) : ℕ := (a.columns.head?.map ColumnData.len).getD 0

def pageHeader (X : Crates) (a : Append) (ts : Int64 × Int64) (payload : Bytes) : BlockHeader where
  magic := magicPageBlock
  tableId := a.tableId
  rowCount := .ofNat a.rowCount
  colCount := .ofNat a.columns.length
  tsMin := ts.1
  tsMax := ts.2
  sourceGen := a.sourceGen
  payloadLen := .ofNat payload.length
  payloadXxh := X.xxh32 payload
  sourceChunk := a.sourceChunk
  sourceInstance := a.sourceInstance

/-- The column checks of `append_page_from`, in order. -/
def checkColumns (rowCount : ℕ) :
    List ColumnData → List (String × DType) → Except WriteError Unit
  | col :: columns, (_, dtype) :: cols =>
      if col.dtype ≠ dtype then .error (.InvalidInput "page column dtype mismatch")
      else if col.len ≠ rowCount then .error (.InvalidInput "page columns have unequal lengths")
      else checkColumns rowCount columns cols
  | _, _ => .ok ()

/-- Timestamp range of a page, the sentinels without a timestamp column. -/
def tsRange (tsCol : Option ℕ) (columns : List ColumnData) : Int64 × Int64 :=
  match tsCol.bind (columns[·]?) with
  | some (.I64 v) => v.foldl (fun r t => (min r.1 t, max r.2 t)) (tsMinInit, tsMaxInit)
  | _ => (tsMinInit, tsMaxInit)

/-- The sub-blocks of the columns, one after the other. -/
def encodeColumns (X : Crates) : List ColumnData → Except String Bytes
  | [] => .ok []
  | col :: columns =>
      match encodeColumn X col with
      | .error e => .error e
      | .ok sub => (encodeColumns X columns).map (sub ++ ·)

/-- The directory entry of a page whose block lies at `off`. -/
def pageEntry (a : Append) (ts : Int64 × Int64) (off blockLen : ℕ) : PageMeta where
  tableId := a.tableId
  rowCount := .ofNat a.rowCount
  colCount := .ofNat a.columns.length
  tsMin := ts.1
  tsMax := ts.2
  blockOff := .ofNat off
  blockLen := .ofNat blockLen
  sourceGen := a.sourceGen
  sourceChunk := a.sourceChunk
  sourceInstance := a.sourceInstance

/-- One page-directory entry of the footer. -/
def PageMeta.encode (p : PageMeta) : Bytes :=
  le p.tableId ++ (le p.rowCount ++ (le p.tsMin ++ (le p.tsMax ++ (le p.blockOff ++
    (le p.blockLen ++ (le p.colCount ++ (le p.sourceGen ++ (le p.sourceChunk ++
    (le (0 : UInt32) ++ le p.sourceInstance)))))))))

/-- The footer: magic, count, byte length and checksum of the entries, entries. -/
def footerBytes (X : Crates) (pages : List PageMeta) : Bytes :=
  let entries := pages.flatMap PageMeta.encode
  le magicFooter ++ (le (UInt32.ofNat pages.length) ++
    (le (UInt32.ofNat (pages.length * pageDirEntrySize)) ++ (le (X.xxh32 entries) ++ entries)))

namespace SegmentWriter

def create (X : Crates) (stamp : Stamp) : SegmentWriter where
  file := ((⟨[], 0, []⟩ : File).writeAll ((createHeader stamp).encode X) none).1
  offset := segmentHeaderSize
  tables _ := none
  nextTableId := 1
  pages := []
  segTsMin := tsMinInit
  segTsMax := tsMaxInit

variable (X : Crates) (w : SegmentWriter)

/-- The three writes of a block, which a fault may cut anywhere. The offset moves
only when all of them succeed. -/
def writeBlock (header : BlockHeader) (payload : Bytes) (fault : Option ℕ) :
    SegmentWriter × Except WriteError ℕ :=
  let padded := align64 (blockHeaderSize + payload.length)
  let (file, written) := w.file.writeAll (blockBytes X header payload) fault
  if written then ({ w with file, offset := w.offset + padded }, .ok padded)
  else ({ w with file }, .error .os)

def registerTable (name : String) (cols : List (String × DType)) (fault : Option ℕ) :
    SegmentWriter × Except WriteError UInt32 :=
  let id := w.nextTableId
  let w : SegmentWriter := { w with nextTableId := w.nextTableId + 1 }
  let payload := encodeTablePayload name cols
  match w.writeBlock X (tableHeader X id cols payload) payload fault with
  | (w, .error e) => (w, .error e)
  | (w, .ok _) =>
      let info : TableInfo := ⟨cols, tsCol cols⟩
      ({ w with tables := fun i => if i = id then some info else w.tables i }, .ok id)

def appendPageFrom (a : Append) (fault : Option ℕ) : SegmentWriter × Except WriteError Unit :=
  match w.tables a.tableId with
  | none => (w, .error (.NotFound "unknown table_id"))
  | some info =>
      if a.columns.length ≠ info.cols.length then
        (w, .error (.InvalidInput "page column count mismatch"))
      else match checkColumns a.rowCount a.columns info.cols with
        | .error e => (w, .error e)
        | .ok _ =>
            if a.rowCount = 0 then (w, .ok ())
            else match encodeColumns X a.columns with
              | .error e => (w, .error (.InvalidData s!"column encode: {e}"))
              | .ok payload =>
                  let ts := tsRange info.tsCol a.columns
                  match w.writeBlock X (pageHeader X a ts payload) payload fault with
                  | (t, .error e) => (t, .error e)
                  | (t, .ok blockLen) =>
                      ({ t with
                        segTsMin := if ts.1 ≤ ts.2 then min t.segTsMin ts.1 else t.segTsMin
                        segTsMax := if ts.1 ≤ ts.2 then max t.segTsMax ts.2 else t.segTsMax
                        pages := t.pages ++ [pageEntry a ts w.offset blockLen] }, .ok ())

/-- The header as `seal` writes it. -/
def sealHeader (stamp : Stamp) : SegmentHeader where
  flags := flagSealed
  writerPid := stamp.writerPid
  writerStart := stamp.writerStart
  createdUnixMs := stamp.createdUnixMs
  footerOff := .ofNat w.offset
  tsMin := w.segTsMin
  tsMax := w.segTsMax
  pageCount := .ofNat w.pages.length

/-- The footer at the cursor, then the header at the start of the file. -/
def sealFile (stamp : Stamp) : Except WriteError File :=
  match w.file.writeAll (footerBytes X w.pages) none with
  | (_, false) => .error .os
  | (file, true) =>
      match ({ file with cursor := 0 } : File).writeAll ((w.sealHeader stamp).encode X) none with
      | (_, false) => .error .os
      | (file, true) => .ok file

/-- A call, and whether it returned `Ok`. -/
def call (fault : Option ℕ) : Call → SegmentWriter × Bool
  | .registerTable name cols =>
      let (t, result) := w.registerTable X name cols fault
      (t, result.isOk)
  | .appendPageFrom a =>
      let (t, result) := w.appendPageFrom X a fault
      (t, result.isOk)

/-- A sequence of calls, each with the fault of its writes; which of them returned
`Ok`. -/
def run : SegmentWriter → List (Call × Option ℕ) → SegmentWriter × List Bool
  | w, [] => (w, [])
  | w, (c, fault) :: rest =>
      let (t, ok) := w.call X fault c
      let (u, oks) := run t rest
      (u, ok :: oks)

end SegmentWriter

end Probing.Memc
