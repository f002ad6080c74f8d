import Probing.Core.Stores
import Probing.Memt.Row

/-!
# The bytes of a table

A header of 128 bytes, a descriptor of 64 bytes for each column, the reader leases of
every chunk, and the chunks. Initialisation stores them; a buffer is validated from its
bytes alone, while no other process moves them.
-/

namespace Probing.Memt

open Probing.Core

/-- A column as a schema gives it. -/
structure Col where
  name : String
  dtype : DType
  elemSize : ℕ
  deriving DecidableEq

/-- `Schema::col`. -/
def Schema.col (name : String) (dtype : DType) : Col := ⟨name, dtype, dtype.fixedSize.getD 0⟩

/-- The names and types of columns. -/
def Schema.pairs (cols : List Col) : List (String × DType) := cols.map fun c => (c.name, c.dtype)

namespace Layout

def magicMemt : UInt32 := 0x4D454D54
def layoutVersion : UInt16 := 5
def byteOrderMark : UInt16 := 0x0201
def flagDedup : UInt32 := 1
def flagsKnown : UInt32 := flagDedup

/-- `size_of::<Header>()`. -/
def sizeOfHeader : ℕ := 128

/-- `size_of::<ColumnDesc>()`. -/
def columnDescSize : ℕ := 64

/-- `size_of::<ReaderLease>()`. -/
def readerLeaseSize : ℕ := 16

structure Header where
  magic : UInt32
  version : UInt16
  headerSize : UInt16
  byteOrder : UInt16
  tsCol : UInt16
  flags : UInt32
  numCols : UInt32
  numChunks : UInt32
  chunkSize : UInt32
  dataOffset : UInt32
  writeChunk : UInt32
  refcount : UInt32
  creatorPid : UInt32
  pad0 : UInt32
  creatorStartTime : UInt64
  chunksRecycled : UInt32
  rowsOverwritten : UInt32
  leaseOffset : UInt32
  leaseSlots : UInt32
  instance_id : UInt64
  writesBlocked : UInt64
  readerLeaseFailures : UInt64

/-- The reserved words at the end are zero. -/
def Header.bytes (h : Header) : Bytes :=
  le h.magic ++
    (le h.version ++ (le h.headerSize ++ (le h.byteOrder ++ (le h.tsCol ++ (le h.flags ++
    (le h.numCols ++ (le h.numChunks ++ (le h.chunkSize ++ (le h.dataOffset ++ (le h.writeChunk ++
    (le h.refcount ++ (le h.creatorPid ++ (le h.pad0 ++ (le h.creatorStartTime ++
    (le h.chunksRecycled ++ (le h.rowsOverwritten ++ (le h.leaseOffset ++ (le h.leaseSlots ++
    (le h.instance_id ++ (le h.writesBlocked ++ (le h.readerLeaseFailures ++
    List.replicate 32 0)))))))))))))))))))))

def header (buf : Bytes) : Header where
  magic := getLe UInt32 buf 0
  version := getLe UInt16 buf 4
  headerSize := getLe UInt16 buf 6
  byteOrder := getLe UInt16 buf 8
  tsCol := getLe UInt16 buf 10
  flags := getLe UInt32 buf 12
  numCols := getLe UInt32 buf 16
  numChunks := getLe UInt32 buf 20
  chunkSize := getLe UInt32 buf 24
  dataOffset := getLe UInt32 buf 28
  writeChunk := getLe UInt32 buf 32
  refcount := getLe UInt32 buf 36
  creatorPid := getLe UInt32 buf 40
  pad0 := getLe UInt32 buf 44
  creatorStartTime := getLe UInt64 buf 48
  chunksRecycled := getLe UInt32 buf 56
  rowsOverwritten := getLe UInt32 buf 60
  leaseOffset := getLe UInt32 buf 64
  leaseSlots := getLe UInt32 buf 68
  instance_id := getLe UInt64 buf 72
  writesBlocked := getLe UInt64 buf 80
  readerLeaseFailures := getLe UInt64 buf 88

/-- A column descriptor; the name is a length and up to 54 bytes. -/
structure ColumnDesc where
  name : Bytes
  dtype : UInt32
  elemSize : UInt32

namespace ColumnDesc

/-- `ColumnDesc::set_name`. -/
def setName (s : String) : Bytes :=
  let b := utf8 s
  let n := min b.length 54
  le (UInt16.ofNat n) ++ (b.take n ++ List.replicate (54 - n) 0)

def nameStr (d : ColumnDesc) : String :=
  let len := (getLe UInt16 d.name 0).toNat
  if len = 0 then "" else (fromUtf8 (slice d.name 2 len)).getD ""

def bytes (d : ColumnDesc) : Bytes := d.name ++ (le d.dtype ++ le d.elemSize)

/-- The descriptor that `init_buf` stores for a column. -/
def ofCol (c : Col) : ColumnDesc := ⟨setName c.name, c.dtype.tag, UInt32.ofNat c.elemSize⟩

end ColumnDesc

def colDescOff (i : ℕ) : ℕ := sizeOfHeader + i * columnDescSize

def colDesc (buf : Bytes) (i : ℕ) : ColumnDesc where
  name := slice buf (colDescOff i) 56
  dtype := getLe UInt32 buf (colDescOff i + 56)
  elemSize := getLe UInt32 buf (colDescOff i + 60)

structure ChunkHeader where
  generation : UInt64
  used : UInt32
  rowCount : UInt32
  state : UInt32
  reserved : UInt32
  minTs : Int64
  maxTs : Int64

def ChunkHeader.bytes (c : ChunkHeader) : Bytes :=
  le c.generation ++
    (le c.used ++ (le c.rowCount ++ (le c.state ++ (le c.reserved ++ (le c.minTs ++ le c.maxTs)))))

def chunkHeader (buf : Bytes) (cs : ℕ) : ChunkHeader where
  generation := getLe UInt64 buf cs
  used := getLe UInt32 buf (cs + 8)
  rowCount := getLe UInt32 buf (cs + 12)
  state := getLe UInt32 buf (cs + 16)
  reserved := getLe UInt32 buf (cs + 20)
  minTs := getLe Int64 buf (cs + 24)
  maxTs := getLe Int64 buf (cs + 32)

/-- The number that stands for a chunk state. -/
def stateTag : ChunkState → UInt32
  | .Empty => 0
  | .Writing => 1
  | .Sealed => 2

/-- Where the lease of a slot is stored. -/
def readerLeaseOff (h : Header) (chunk slot : ℕ) : ℕ :=
  h.leaseOffset.toNat + (chunk * h.leaseSlots.toNat + slot) * readerLeaseSize

/-- What initialisation takes from its process. -/
structure Creator where
  pid : UInt32
  startTime : UInt64
  instance_id : UInt64

/-- The stores of `init_buf` once its checks have passed. -/
def initHeader (creator : Creator) (cols : List Col) (chunkSize numChunks : UInt32) : Header where
  magic := magicMemt
  version := layoutVersion
  headerSize := UInt16.ofNat sizeOfHeader
  byteOrder := byteOrderMark
  tsCol := headerTsCol (tsPosition (Schema.pairs cols))
  flags := 0
  numCols := UInt32.ofNat cols.length
  numChunks := numChunks
  chunkSize := chunkSize
  dataOffset := UInt32.ofNat (dataOffset cols.length numChunks.toNat)
  writeChunk := 0
  refcount := 1
  creatorPid := creator.pid
  pad0 := 0
  creatorStartTime := creator.startTime
  chunksRecycled := 0
  rowsOverwritten := 0
  leaseOffset := UInt32.ofNat (leaseOffset cols.length)
  leaseSlots := UInt32.ofNat readerLeaseSlots
  instance_id := creator.instance_id
  writesBlocked := 0
  readerLeaseFailures := 0

def colStores (cols : List Col) : List Store :=
  cols.mapIdx fun i c => ⟨colDescOff i, (ColumnDesc.ofCol c).bytes⟩

def leaseStores (h : Header) (numChunks : ℕ) : List Store :=
  (List.range numChunks).flatMap fun chunk => (List.range readerLeaseSlots).map fun slot =>
    ⟨readerLeaseOff h chunk slot, le (0 : UInt64) ++ le (0 : UInt64)⟩

/-- A chunk that was never written. -/
def emptyChunk : ChunkHeader := ⟨0, 0, 0, stateTag .Empty, 0, tsMinInit, tsMaxInit⟩

/-- Every chunk is empty, then chunk 0 takes the first writes. -/
def chunkStores (dataOff chunkSize numChunks : ℕ) : List Store :=
  ((List.range numChunks).map fun i => ⟨dataOff + i * chunkSize, emptyChunk.bytes⟩) ++
    [⟨dataOff, le (1 : UInt64)⟩, ⟨dataOff + 16, le (stateTag .Writing)⟩]

def initStores (creator : Creator) (cols : List Col) (chunkSize numChunks : UInt32) : List Store :=
  let h := initHeader creator cols chunkSize numChunks
  ⟨0, h.bytes⟩ :: (colStores cols ++ (leaseStores h numChunks.toNat ++
    chunkStores (dataOffset cols.length numChunks.toNat) chunkSize.toNat numChunks.toNat))

/-- `addr` is the address of the buffer. No size overflows 64 bits, since the other checks
bound the number of columns. -/
def initBuf (addr : ℕ) (creator : Creator) (buf : Bytes) (cols : List Col)
    (chunkSize numChunks : UInt32) :
    Except String Bytes :=
  let dataOff := dataOffset cols.length numChunks.toNat
  if addr % 8 ≠ 0 then .error "buffer address does not satisfy header alignment"
  else if numChunks = 0 then .error "num_chunks must be > 0"
  else if chunkSize.toNat % 8 ≠ 0 then .error "chunk_size does not satisfy chunk header alignment"
  else if 2 ^ 32 ≤ cols.length then .error "too many columns"
  else if 2 ^ 32 ≤ dataOff then .error "column layout exceeds format"
  else if buf.length < dataOff + chunkSize.toNat * numChunks.toNat then .error "buffer too small"
  else if chunkSize.toNat < chunkHeaderSize + 8 then .error "chunk_size too small"
  else .ok (storeAll buf (initStores creator cols chunkSize numChunks))

/-- `schema()`; a descriptor of no known type is left out. -/
def schema (buf : Bytes) : List Col :=
  (List.range (header buf).numCols.toNat).filterMap fun i =>
    let cd := colDesc buf i
    (DType.fromU32 cd.dtype).map fun dtype => ⟨cd.nameStr, dtype, cd.elemSize.toNat⟩

/-- `ts_col()`. -/
def tsCol (buf : Bytes) : Option ℕ := viewTsCol (header buf).tsCol

/-- Whether a process may take over a lease with this state and start time, zero apart. -/
abbrev Claimable := UInt64 → UInt64 → Bool

/-- `acquire_process_lease` finds a slot, while no other process moves the leases. -/
def acquireProcessLease (claimable : Claimable) (buf : Bytes) (chunk : ℕ) : Bool :=
  let h := header buf
  (List.range h.leaseSlots.toNat).any fun slot =>
    let off := readerLeaseOff h chunk slot
    getLe UInt64 buf off = 0 ∨ claimable (getLe UInt64 buf off) (getLe UInt64 buf (off + 8))

/-- `pin_chunk` and the extent it captures, while no other process moves the chunk. -/
def pinChunk (claimable : Claimable) (buf : Bytes) (cs : ℕ) : Except String (Option ℕ) :=
  let h := header buf
  let ch := chunkHeader buf cs
  if cs < h.dataOffset.toNat then .error "chunk starts before data region"
  else if h.chunkSize.toNat < chunkHeaderSize then .error "chunk payload capacity underflow"
  else if ch.state = stateTag .Empty then .ok none
  else if acquireProcessLease claimable buf
      ((cs - h.dataOffset.toNat) / h.chunkSize.toNat) = false then .error "reader lease exhausted"
  else if ch.used.toNat ≤ h.chunkSize.toNat - chunkHeaderSize then .ok (some ch.used.toNat)
  else .ok none

/-- The columns of a row: where the next one starts, an error, or no further check. -/
def validateCols (buf : Bytes) (used rowStart row_len : ℕ) (has_dedup : Bool) :
    ℕ → List ℕ → Except String Unit
  | _, [] => .ok ()
  | col_off, ci :: rest =>
      if row_len ≤ col_off then .ok ()
      else match DType.fromU32 (colDesc buf ci).dtype with
        | none => .ok ()
        | some dt =>
            match dt.fixedSize with
            | some sz => validateCols buf used rowStart row_len has_dedup (col_off + sz) rest
            | none =>
                if col_off + 4 ≤ row_len then
                  let raw := getLe Int32 buf (rowStart + col_off)
                  if raw < 0 then
                    if has_dedup = false then .error "dedup ref in non-dedup table"
                    else if (refDelta raw).all fun ref_off =>
                        ref_off < chunkHeaderSize ∨ chunkHeaderSize + used ≤ ref_off then
                      .error "dedup ref outside chunk data region"
                    else validateCols buf used rowStart row_len has_dedup (col_off + 4) rest
                  else validateCols buf used rowStart row_len has_dedup
                    (col_off + (4 + raw.toInt.toNat)) rest
                else validateCols buf used rowStart row_len has_dedup col_off rest

/-- The loop of `validate_chunk_rows` from a position on. -/
def validateChunkRows (buf : Bytes) (cs used nc : ℕ) (has_dedup : Bool) (pos : ℕ) :
    Except String Unit :=
  if used < pos + 4 then .ok ()
  else
    let data_base := cs + chunkHeaderSize
    let row_len := (getLe UInt32 buf (data_base + pos)).toNat
    if used < pos + 4 + row_len then .error "row extends beyond chunk used region"
    else match validateCols buf used (data_base + pos + 4) row_len has_dedup 0 (List.range nc) with
      | .error e => .error e
      | .ok () => validateChunkRows buf cs used nc has_dedup (pos + 4 + row_len)
  termination_by used - pos

/-- The descriptor checks of `validate_buf`. -/
def validateCol (d : ColumnDesc) : Except String Unit :=
  if 54 < (getLe UInt16 d.name 0).toNat then .error "column name length out of range"
  else if d.dtype < 1 ∨ 9 < d.dtype then .error "invalid column dtype"
  else .ok ()

/-- The check of `ts_col` in `validate_buf`. -/
def validateTs (buf : Bytes) (nc tsCol : ℕ) : Except String Unit :=
  if tsCol = 0 then .ok ()
  else if nc < tsCol then .error "ts_col out of range"
  else if DType.fromU32 (colDesc buf (tsCol - 1)).dtype ≠ some .I64 then
    .error "ts_col must reference an I64 column"
  else .ok ()

/-- The chunk checks of `validate_buf`. -/
def validateChunk (claimable : Claimable) (buf : Bytes) (cs : ℕ) : Except String Unit :=
  let h := header buf
  let ch := chunkHeader buf cs
  if 2 < ch.state then .error "invalid chunk state"
  else if h.chunkSize.toNat - chunkHeaderSize < ch.used.toNat then
    .error "chunk used exceeds payload capacity"
  else match pinChunk claimable buf cs with
    | .error e => .error e
    | .ok none => .ok ()
    | .ok (some snap_used) =>
        if 0 < snap_used then
          validateChunkRows buf cs snap_used h.numCols.toNat (h.flags &&& flagDedup != 0) 0
        else .ok ()

def validateBuf (claimable : Claimable) (addr : ℕ) (buf : Bytes) : Except String Unit :=
  let h := header buf
  let nc := h.numCols.toNat
  let csz := h.chunkSize.toNat
  let expected_off := dataOffset nc h.numChunks.toNat
  if buf.length < sizeOfHeader then .error "buffer too small for header"
  else if addr % 8 ≠ 0 then .error "buffer address does not satisfy header alignment"
  else if h.magic ≠ magicMemt then .error "invalid magic"
  else if h.version ≠ layoutVersion then .error "unsupported version"
  else if h.headerSize.toNat < sizeOfHeader then .error "header_size too small"
  else if h.byteOrder ≠ byteOrderMark then
    .error "byte order mismatch (buffer written on different-endian host)"
  else if h.flags &&& ~~~flagsKnown ≠ 0 then .error "unknown feature flags set"
  else if h.numChunks = 0 then .error "num_chunks must be > 0"
  else if csz < chunkHeaderSize + 8 then .error "chunk_size too small"
  else if csz % 8 ≠ 0 then .error "chunk_size does not satisfy chunk header alignment"
  else if h.leaseOffset.toNat ≠ leaseOffset nc ∨ h.leaseSlots.toNat ≠ readerLeaseSlots then
    .error "invalid reader lease layout"
  else if 2 ^ 32 ≤ expected_off then .error "column layout exceeds format"
  else if h.dataOffset.toNat ≠ expected_off then .error "invalid data_offset"
  else if buf.length < expected_off + csz * h.numChunks.toNat then
    .error "buffer too small for data"
  else do
    (List.range nc).forM fun i => validateCol (colDesc buf i)
    validateTs buf nc h.tsCol.toNat
    (List.range h.numChunks.toNat).forM fun i =>
      validateChunk claimable buf (expected_off + i * csz)

end Layout

end Probing.Memt
