import Probing.Memt.Row

/-!
# Writers

A writer may remember where the texts of its write chunk are stored, by column and
hash, and store a reference instead of a repeated text. The row writer stages what it
remembers until its row is finished.
-/

namespace Probing.Memt

open Probing.Core

/-- The 64-bit hash of a text, seeded by the column. -/
abbrev HashKey := ℕ → Bytes → UInt64

structure DedupState where
  seen : UInt64 → Option ℕ
  /-- Entries of the row that is being streamed. -/
  pending : List (UInt64 × ℕ)
  minDedupLen : ℕ

namespace DedupState

def new : DedupState := ⟨fun _ => none, [], 0⟩

variable (key : HashKey) (s : DedupState)

def setMinDedupLen (len : ℕ) : DedupState := { s with minDedupLen := len }

def clear : DedupState := { s with seen := fun _ => none, pending := [] }

/-- The entries lie in the payload, so only the payload is looked at. -/
def lookup (col : ℕ) (data payload : Bytes) : Option ℕ :=
  if data.length < s.minDedupLen then none
  else
    (s.seen (key col data)).bind fun offset =>
      let start := offset - chunkHeaderSize
      if payload.length < start + 4 then none
      else
        let len := (getLe UInt32 payload start).toNat
        if payload.length < start + 4 + len then none
        else if slice payload (start + 4) len = data then some offset else none

def insert (col : ℕ) (data : Bytes) (chunk_offset : ℕ) : DedupState :=
  if s.minDedupLen ≤ data.length then
    { s with seen := Function.update s.seen (key col data) (some chunk_offset) }
  else s

def beginRow : DedupState := { s with pending := [] }

def stageInsert (col : ℕ) (data : Bytes) (chunk_offset : ℕ) : DedupState :=
  if s.minDedupLen ≤ data.length then
    { s with pending := s.pending ++ [(key col data, chunk_offset)] }
  else s

def commitRow : DedupState :=
  { s with
    seen := s.pending.foldl (fun seen e => Function.update seen e.1 (some e.2)) s.seen
    pending := [] }

def rollbackRow : DedupState := { s with pending := [] }

end DedupState

def maxDedupCols : ℕ := 64

section Append

variable (key : HashKey) (state : DedupState) (payload : Bytes)

/-- Where the texts of a row are stored already. -/
def lookups (values : List Value) : List (Option ℕ) :=
  values.mapIdx fun i v => v.varlen.bind fun data => state.lookup key i data payload

/-- The bytes of a value, or of the reference that stands for it. -/
def field (v : Value) : Option ℕ → Bytes
  | some off => le (-(Int32.ofNat off))
  | none => v.encode

/-- The loop over the values: what is remembered of the texts stored from `off` on. -/
def insertFields (key : HashKey) : DedupState → ℕ → ℕ → List (Value × Option ℕ) → DedupState
  | state, _, _, [] => state
  | state, i, off, (v, dup) :: rest =>
      let state' := match v.varlen, dup with
        | some data, none => state.insert key i data off
        | _, _ => state
      insertFields key state' (i + 1) (off + (field v dup).length) rest

/-- The data of a row with references. -/
def rowFields (values : List Value) : List (Value × Option ℕ) :=
  values.zip (lookups key state payload values)

def fieldsData (fields : List (Value × Option ℕ)) : Bytes := fields.flatMap fun f => field f.1 f.2

end Append

namespace Table

variable (t : Table)

/-- `none` is `false`: too many columns, or no room. -/
def appendRowDedupBytes (key : HashKey) (state : DedupState) (values : List Value) :
    Option (Table × DedupState) :=
  if maxDedupCols < values.length then none
  else
    let fields := rowFields key state t.current.payload values
    let data := fieldsData fields
    if t.hasRoom data.length then
      some (t.appendData data (rowTs t.tsCol values),
        insertFields key state 0 (chunkHeaderSize + t.current.used + 4) fields)
    else none

end Table

/-- A row that is being streamed into the write chunk; offsets are relative to the chunk. -/
structure RowWriter where
  table : Table
  dedup : Option DedupState
  rowStart : ℕ
  pos : ℕ
  overflow : Bool
  colIdx : ℕ
  pendingTs : Option Int64

def makeRowWriter (t : Table) (dedup : Option DedupState) : RowWriter where
  table := t
  dedup := dedup.map DedupState.beginRow
  rowStart := chunkHeaderSize + t.current.used
  pos := chunkHeaderSize + t.current.used + 4
  overflow := false
  colIdx := 0
  pendingTs := none

namespace RowWriter

variable (w : RowWriter)

def canWrite (n : ℕ) : Bool := !w.overflow && w.pos + n ≤ w.table.chunkSize

/-- Bytes at the position of the writer. -/
def putBytesAt (off : ℕ) (bytes : Bytes) : Table :=
  w.table.store w.table.writeChunk { w.table.current with
    payload := splice w.table.current.payload (off - chunkHeaderSize) bytes }

def writeRaw (bytes : Bytes) : RowWriter :=
  if w.canWrite bytes.length then
    { w with table := w.putBytesAt w.pos bytes, pos := w.pos + bytes.length }
  else { w with overflow := true }

def writeLp (data : Bytes) : RowWriter := w.writeRaw (Value.encodeVarlen data)

def writeStrDedup (key : HashKey) (data : Bytes) : RowWriter :=
  let hit := if w.overflow then none
    else w.dedup.bind fun dedup => dedup.lookup key w.colIdx data w.table.current.payload
  match hit with
  | some off => w.writeRaw (le (-(Int32.ofNat off)))
  | none =>
      let chunk_off := w.pos
      let w' := w.writeLp data
      if w'.overflow then w'
      else { w' with dedup := w'.dedup.map fun dedup =>
        dedup.stageInsert key w'.colIdx data chunk_off }

/-- `put_u8` and its siblings. -/
def put (key : HashKey) (v : Value) : RowWriter :=
  let noted := match v with
    | .I64 ts => if w.table.tsCol.toNat = w.colIdx + 1 then { w with pendingTs := some ts } else w
    | _ => w
  let written := match v.varlen with
    | some data => if noted.dedup.isSome then noted.writeStrDedup key data else noted.writeLp data
    | none => noted.writeRaw v.encode
  { written with colIdx := written.colIdx + 1 }

/-- The first call of `finish`; the row is published unless it has overflowed. -/
def finish : Bool × Table × Option DedupState :=
  if w.overflow then (false, w.table, w.dedup.map DedupState.rollbackRow)
  else
    let row_data := w.pos - w.rowStart - 4
    let framed := w.putBytesAt w.rowStart (le (UInt32.ofNat row_data))
    (true,
      framed.store framed.writeChunk (framed.current.publish w.pendingTs (w.pos - chunkHeaderSize)),
      w.dedup.map DedupState.commitRow)

/-- `Drop` of an unfinished writer. -/
def drop : Table × Option DedupState := (w.table, w.dedup.map DedupState.rollbackRow)

end RowWriter

/-- A table with its write mode; `MemTable` is the one without deduplication. -/
structure MemTableWriter where
  table : Table
  dedup : Option DedupState

namespace MemTableWriter

variable (key : HashKey) (w : MemTableWriter)

/-- `MemTableWriter::init`, then `dedup` if asked for. -/
def init (buf : Bytes) (cols : List (String × DType)) (chunkSize numChunks : UInt32)
    (dedup : Bool) :
    Except String MemTableWriter :=
  (initBuf buf cols chunkSize numChunks).map fun t =>
    if dedup then ⟨{ t with dedupFlag := true }, some .new⟩ else ⟨t, none⟩

def setMinDedupLen (len : ℕ) : MemTableWriter :=
  { w with dedup := w.dedup.map fun s => s.setMinDedupLen len }

/-- The row is written into the write chunk if it fits. -/
def append (values : List Value) : Option MemTableWriter :=
  match w.dedup with
  | some state => (w.table.appendRowDedupBytes key state values).map fun (t, state') =>
      ⟨t, some state'⟩
  | none => (w.table.writeRowBytes values).map fun t => { w with table := t }

def appendRow (values : List Value) : Bool × MemTableWriter :=
  if w.table.validateRowSchema values then
    match w.append key values with
    | some w' => (true, w')
    | none => (false, w)
  else (false, w)

/-- What is remembered belongs to the old write chunk. -/
def advance (pinned : Bool) : AdvanceOutcome × MemTableWriter :=
  match w.table.advanceChunkRawDetailed pinned with
  | (.Advanced, t) => (.Advanced, ⟨t, w.dedup.map DedupState.clear⟩)
  | (.ReadersPinned, t) => (.ReadersPinned, { w with table := t })

def advanceChunk (pinned : Bool) : Bool × MemTableWriter :=
  ((w.advance pinned).1 = .Advanced, (w.advance pinned).2)

def tryPushInner (pinned : Bool) (values : List Value) : WriteOutcome × MemTableWriter :=
  match w.append key values with
  | some w' => (.Written, w')
  | none =>
      match w.advance pinned with
      | (.ReadersPinned, w') => (.ReadersPinned, w')
      | (.Advanced, w') =>
          match w'.append key values with
          | some w'' => (.Written, w'')
          | none => (.RowTooLarge, w')

/-- Without the map of texts the writer pushes plain rows. -/
theorem tryPushInner_plain (h : w.dedup = none) (pinned : Bool) (values : List Value) :
    w.tryPushInner key pinned values =
      ((w.table.pushPlainRowDetailed pinned values).1,
        { w with table := (w.table.pushPlainRowDetailed pinned values).2 }) := by
  unfold tryPushInner append advance Table.pushPlainRowDetailed
  rw [h]
  cases w.table.writeRowBytes values with
  | some t => rfl
  | none =>
      rcases w.table.advanceChunkRawDetailed pinned with ⟨_ | _, t⟩
      · cases hrow : t.writeRowBytes values with
        | some t' => simp [hrow]
        | none => simp [hrow]
      · rfl

def tryPushRow (pinned : Bool) (values : List Value) : WriteOutcome × MemTableWriter :=
  if w.table.validateRowSchema values then w.tryPushInner key pinned values
  else (.SchemaMismatch, w)

/-- A row writer that is given the values and then finished or dropped. -/
def rowWriter (values : List Value) (finish : Bool) : Bool × MemTableWriter :=
  let rw := values.foldl (fun rw v => rw.put key v) (makeRowWriter w.table w.dedup)
  if finish then (rw.finish.1, ⟨rw.finish.2.1, rw.finish.2.2⟩) else (false, ⟨rw.drop.1, rw.drop.2⟩)

end MemTableWriter

end Probing.Memt
