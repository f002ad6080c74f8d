import Probing.Core.FrameLog
import Probing.Memt.Table

/-!
# Reading rows

An iterator splits the published bytes of a pinned chunk into rows. A column is found
by walking over the columns before it; a negative length prefix refers to a value
stored earlier in the chunk. The reader holds its pin throughout.
-/

namespace Probing.Memt

open Probing.Core

section Reads

variable (α : Type) [LeWord α]

/-- `try_read_u32` and its siblings. -/
def tryRead (data : Bytes) (off : ℕ) : Option α :=
  if off + LeWord.width α ≤ data.length then some (getLe α data off) else none

end Reads

/-- `raw.checked_neg()` of a negative length prefix. -/
def refDelta (raw : Int32) : Option ℕ :=
  if raw = Int32.minValue then none else some (-raw.toInt).toNat

def tryVarFieldSize (buf : Bytes) (off : ℕ) : Option ℕ :=
  (tryRead Int32 buf off).map fun raw => if raw < 0 then 4 else 4 + raw.toInt.toNat

/-- A value stored in the payload, at an offset into the chunk. -/
def referenced (payload : Bytes) (delta : ℕ) : Option Bytes :=
  if delta < chunkHeaderSize ∨ payload.length + chunkHeaderSize < delta + 4 then none
  else
    let len := (getLe UInt32 payload (delta - chunkHeaderSize)).toNat
    if payload.length + chunkHeaderSize < delta + 4 + len then none
    else some (slice payload (delta - chunkHeaderSize + 4) len)

def tryResolveVar (row_data : Bytes) (row_off : ℕ) (payload : Bytes) : Option Bytes :=
  (tryRead Int32 row_data row_off).bind fun raw =>
    if raw < 0 then (refDelta raw).bind (referenced payload)
    else
      let len := raw.toInt.toNat
      if row_off + 4 + len ≤ row_data.length then some (slice row_data (row_off + 4) len) else none

/-- A row, with the column types of its table and the payload of its chunk. -/
structure Row where
  dtypes : List DType
  data : Bytes
  payload : Bytes

namespace Row

variable (r : Row)

/-- One column of the walk in `try_col_offset`. -/
def skipCol (off : ℕ) (dt : DType) : Option ℕ :=
  match dt.fixedSize with
  | some sz => some (off + sz)
  | none => (tryVarFieldSize r.data off).map (off + ·)

def tryColOffset (col : ℕ) : Option ℕ :=
  if r.dtypes.length ≤ col then none else (r.dtypes.take col).foldlM r.skipCol 0

/-- `col_u8` and its siblings, 0 where there is nothing to read. -/
def colFixed (α : Type) [LeWord α] (col : ℕ) : α :=
  ((r.tryColOffset col).bind (tryRead α r.data)).getD (LeWord.ofNat 0)

def colU8 : ℕ → UInt8 := r.colFixed UInt8
def colU32 : ℕ → UInt32 := r.colFixed UInt32
def colI32 : ℕ → Int32 := r.colFixed Int32
def colI64 : ℕ → Int64 := r.colFixed Int64
def colF32 : ℕ → UInt32 := r.colFixed UInt32
def colF64 : ℕ → UInt64 := r.colFixed UInt64
def colU64 : ℕ → UInt64 := r.colFixed UInt64

def tryResolveVarCol (col : ℕ) : Option Bytes :=
  (r.tryColOffset col).bind fun off => tryResolveVar r.data off r.payload

def text (b : Bytes) : String := if b = [] then "" else (fromUtf8 b).getD ""

def colStr (col : ℕ) : String := ((r.tryResolveVarCol col).map text).getD ""

def colBytes (col : ℕ) : Bytes := (r.tryResolveVarCol col).getD []

/-- The accessor of a column type. -/
def col (dt : DType) (i : ℕ) : Value :=
  match dt with
  | .U8 => .U8 (r.colU8 i)
  | .U32 => .U32 (r.colU32 i)
  | .I32 => .I32 (r.colI32 i)
  | .I64 => .I64 (r.colI64 i)
  | .F32 => .F32 (r.colF32 i)
  | .F64 => .F64 (r.colF64 i)
  | .U64 => .U64 (r.colU64 i)
  | .Str => .Str (r.colStr i)
  | .Bytes => .Bytes (r.colBytes i)

end Row

structure RowCursor where
  data : Bytes
  pos : ℕ
  payload : Bytes
  stale : Bool

def Row.cursor (r : Row) : RowCursor := ⟨r.data, 0, r.payload, false⟩

namespace RowCursor

variable (c : RowCursor)

def markStale : RowCursor := { c with stale := true }

def readFixed (α : Type) [LeWord α] : α × RowCursor :=
  if c.stale then (LeWord.ofNat 0, c.markStale)
  else
    match tryRead α c.data c.pos with
    | none => (LeWord.ofNat 0, c.markStale)
    | some v => (v, { c with pos := c.pos + LeWord.width α })

def readLp : Bytes × RowCursor :=
  if c.stale then ([], c)
  else
    let (raw, c') := c.readFixed Int32
    if c'.stale then ([], c')
    else if raw < 0 then
      match (refDelta raw).bind (referenced c.payload) with
      | none => ([], c'.markStale)
      | some data => (data, c')
    else
      let len := raw.toInt.toNat
      if c'.pos + len ≤ c.data.length then
        (slice c.data c'.pos len, { c' with pos := c'.pos + len })
      else ([], c'.markStale)

/-- `next_u8` and its siblings. -/
def next (dt : DType) : Value × RowCursor :=
  match dt with
  | .U8 => let (v, c') := c.readFixed UInt8; (.U8 v, c')
  | .U32 => let (v, c') := c.readFixed UInt32; (.U32 v, c')
  | .I32 => let (v, c') := c.readFixed Int32; (.I32 v, c')
  | .I64 => let (v, c') := c.readFixed Int64; (.I64 v, c')
  | .F32 => let (v, c') := c.readFixed UInt32; (.F32 v, c')
  | .F64 => let (v, c') := c.readFixed UInt64; (.F64 v, c')
  | .U64 => let (v, c') := c.readFixed UInt64; (.U64 v, c')
  | .Str => let (b, c') := c.readLp; (.Str (Row.text b), c')
  | .Bytes => let (b, c') := c.readLp; (.Bytes b, c')

/-- The columns of the row one after the other. -/
def readRow (c : RowCursor) : List DType → List Value
  | [] => []
  | dt :: dts => (c.next dt).1 :: (c.next dt).2.readRow dts

end RowCursor

/-- The row at the head of the published bytes. -/
def rowHead (b : Bytes) : Head Bytes Empty :=
  if b.length < 4 then .stop
  else
    let row_total := 4 + (getLe UInt32 b 0).toNat
    if b.length < row_total then .stop else .frame (slice b 4 (row_total - 4)) row_total

/-- `RowIter` over published bytes. -/
def rowIter (b : Bytes) : List Bytes :=
  match scan rowHead 0 b with
  | .ok (frames, _) => frames.map Prod.snd
  | .error e => nomatch e

namespace Table

variable (t : Table)

/-- Empty chunks cannot be pinned, nor chunks whose `used` exceeds their payload. -/
def rows (i : ℕ) : List Row :=
  let c := t.chunk i
  if t.numChunks ≤ i ∨ c.state = .Empty ∨ t.chunkSize - chunkHeaderSize < c.used then []
  else (rowIter (c.payload.take c.used)).map (⟨t.dtypes, ·, c.payload⟩)

def numRows (i : ℕ) : ℕ := (t.chunk i).rowCount.toNat

def chunksLogical : List ℕ :=
  let order := (List.range t.numChunks).filterMap fun i =>
    if (t.chunk i).generation = 0 ∨ t.numRows i = 0 then none else some ((t.chunk i).generation, i)
  (order.mergeSort fun a b => a.1 < b.1 || (a.1 = b.1 && a.2 ≤ b.2)).map Prod.snd

/-- The index of the designated timestamp column. -/
def tsIndex : Option ℕ := viewTsCol t.tsCol

def chunkTsRange (i : ℕ) : Option (Int64 × Int64) :=
  t.tsIndex.bind fun _ =>
    let c := t.chunk i
    if c.minTs > c.maxTs then none else some (c.minTs, c.maxTs)

end Table

end Probing.Memt
