import Probing.Core.TsRange
import Probing.Memt.Schema

/-!
# The ring of chunks

A table writes rows into the payload of its write chunk and moves to the next chunk
when it is full. Addresses within a chunk are offsets into its payload; the leases of
readers appear as the answer whether the next chunk is pinned.
-/

namespace Probing.Memt

open Probing.Core

/-- Sentinel of `min_ts` when the chunk holds no rows. -/
def tsMinInit : Int64 := Int64.maxValue

/-- Sentinel of `max_ts` when the chunk holds no rows. -/
def tsMaxInit : Int64 := Int64.minValue

def readerLeaseSlots : ℕ := 16

/-- A chunk header and the bytes after it. -/
structure Chunk where
  generation : ℕ
  used : ℕ
  rowCount : UInt32
  state : ChunkState
  minTs : Int64
  maxTs : Int64
  payload : Bytes
  deriving DecidableEq

namespace Chunk

def noteRowTs (c : Chunk) (ts : Int64) : Chunk :=
  { c with
    minTs := if ts < c.minTs then ts else c.minTs
    maxTs := if ts > c.maxTs then ts else c.maxTs }

/-- The stores that publish a row: its timestamp, then `used`, then `row_count`. -/
def publish (c : Chunk) (ts : Option Int64) (used : ℕ) : Chunk :=
  let noted := ts.elim c c.noteRowTs
  { noted with used := used, rowCount := c.rowCount + 1 }

end Chunk

/-- What the operations read from a table: its header and its chunks. -/
structure Table where
  tsCol : UInt16
  dedupFlag : Bool
  cols : List (String × DType)
  numChunks : ℕ
  chunkSize : ℕ
  writeChunk : ℕ
  chunksRecycled : UInt32
  rowsOverwritten : UInt32
  writesBlocked : UInt64
  chunk : ℕ → Chunk

def align64 (n : ℕ) : ℕ := (n + 63) / 64 * 64

/-- `Header` has 128 bytes and `ColumnDesc` has 64. -/
def leaseOffset (numCols : ℕ) : ℕ := align64 (128 + 64 * numCols)

/-- `ReaderLease` has 16 bytes. -/
def dataOffset (numCols numChunks : ℕ) : ℕ :=
  align64 (16 * readerLeaseSlots * numChunks + leaseOffset numCols)

/-- The buffer is aligned and no size overflows 64 bits, since the other checks bound the
number of columns; the payloads keep what the buffer contains. -/
def initBuf (buf : Bytes) (cols : List (String × DType)) (chunkSize numChunks : UInt32) :
    Except String Table :=
  let dataOff := dataOffset cols.length numChunks.toNat
  if numChunks = 0 then .error "num_chunks must be > 0"
  else if chunkSize.toNat % 8 ≠ 0 then .error "chunk_size does not satisfy chunk header alignment"
  else if 2 ^ 32 ≤ cols.length then .error "too many columns"
  else if 2 ^ 32 ≤ dataOff then .error "column layout exceeds format"
  else if buf.length < dataOff + chunkSize.toNat * numChunks.toNat then .error "buffer too small"
  else if chunkSize.toNat < chunkHeaderSize + 8 then .error "chunk_size too small"
  else .ok {
    tsCol := headerTsCol (tsPosition cols)
    dedupFlag := false
    cols := cols
    numChunks := numChunks.toNat
    chunkSize := chunkSize.toNat
    writeChunk := 0
    chunksRecycled := 0
    rowsOverwritten := 0
    writesBlocked := 0
    chunk := fun i => {
      generation := if i = 0 then 1 else 0
      used := 0
      rowCount := 0
      state := if i = 0 then .Writing else .Empty
      minTs := tsMinInit
      maxTs := tsMaxInit
      payload := slice buf (dataOff + i * chunkSize.toNat + chunkHeaderSize)
        (chunkSize.toNat - chunkHeaderSize) } }

def rowTs (tsCol : UInt16) (values : List Value) : Option Int64 :=
  match tsCol.toNat with
  | 0 => none
  | i + 1 =>
      match values[i]? with
      | some (.I64 ts) => some ts
      | _ => none

def rowDataSize (values : List Value) : ℕ := (values.map Value.encodedSize).sum

/-- A row in a chunk: its length and its data. -/
def rowFrame (data : Bytes) : Bytes := le (UInt32.ofNat data.length) ++ data

inductive AdvanceOutcome
  | Advanced
  | ReadersPinned
  deriving DecidableEq

inductive WriteOutcome
  | Written
  | SchemaMismatch
  | RowTooLarge
  | ReadersPinned
  deriving DecidableEq

namespace Table

variable (t : Table)

def store (i : ℕ) (c : Chunk) : Table := { t with chunk := Function.update t.chunk i c }

/-- The chunk that is written. -/
def current : Chunk := t.chunk t.writeChunk

def nextChunk : ℕ := (t.writeChunk + 1) % t.numChunks

def dtypes : List DType := t.cols.map Prod.snd

def validateRowSchema (values : List Value) : Bool := values.map Value.dtype = t.dtypes

/-- The data fits after the rows of the write chunk. -/
def hasRoom (row_data : ℕ) : Bool := chunkHeaderSize + t.current.used + (4 + row_data) ≤ t.chunkSize

/-- The data is written after the rows of the write chunk and published. -/
def appendData (data : Bytes) (ts : Option Int64) : Table :=
  let c := t.current
  t.store t.writeChunk
    ({ c with payload := splice c.payload c.used (rowFrame data) }.publish ts
      (c.used + (4 + data.length)))

/-- `none` where the write chunk has no room. -/
def writeRowBytes (values : List Value) : Option Table :=
  if t.hasRoom (rowDataSize values) then
    some (t.appendData (values.flatMap Value.encode) (rowTs t.tsCol values))
  else none

/-- The recycled chunk is empty and takes the writes. -/
def recycle (c : Chunk) : Chunk :=
  { c with
    generation := c.generation + 1
    used := 0
    rowCount := 0
    minTs := tsMinInit
    maxTs := tsMaxInit
    state := .Writing }

/-- The state of a pinned chunk is restored. -/
def advanceChunkRawDetailed (pinned : Bool) : AdvanceOutcome × Table :=
  let new_wc := t.nextChunk
  if pinned then (.ReadersPinned, { t with writesBlocked := t.writesBlocked + 1 })
  else
    let sealedCur := if t.writeChunk ≠ new_wc then
      t.store t.writeChunk { t.current with state := .Sealed } else t
    let new_ch := t.chunk new_wc
    let rows_lost := new_ch.rowCount
    (.Advanced, { sealedCur.store new_wc (recycle new_ch) with
      writeChunk := new_wc
      chunksRecycled := if rows_lost > 0 then t.chunksRecycled + 1 else t.chunksRecycled
      rowsOverwritten := if rows_lost > 0 then
        t.rowsOverwritten + rows_lost else t.rowsOverwritten })

def pushPlainRowDetailed (pinned : Bool) (values : List Value) : WriteOutcome × Table :=
  match t.writeRowBytes values with
  | some t' => (.Written, t')
  | none =>
      match t.advanceChunkRawDetailed pinned with
      | (.ReadersPinned, t') => (.ReadersPinned, t')
      | (.Advanced, t') =>
          match t'.writeRowBytes values with
          | some t'' => (.Written, t'')
          | none => (.RowTooLarge, t')

end Table

end Probing.Memt
