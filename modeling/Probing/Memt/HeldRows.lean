import Probing.Memt.CachedReader
import Probing.Memt.ReadBack

/-!
# Rows that a process holds

A process pins chunks, takes rows from them and reads the rows with one cached reader,
while the writer goes on. After a fork the child reads on, and adopts a pin of its parent
when the pin is asked for.
-/

namespace Probing.Memt

open Probing.Core

/-- Where the data of the published rows starts, and its length. -/
def rowSpans (b : Bytes) : List (ℕ × ℕ) :=
  match scan rowHead 0 b with
  | .ok (frames, _) => frames.map fun f => (f.1 + 4, f.2.length)
  | .error e => nomatch e

/-- A pin with the extent that was captured with it. Its owner is `none` once it is
`INVALID`. -/
structure ChunkReadPin where
  chunk : ℕ
  generation : ℕ
  used : ℕ
  ownerPid : Option ℕ
  deriving DecidableEq

/-- A row with its pin, and the place of its data in the payload. -/
structure HeldRow where
  pin : ℕ
  start : ℕ
  len : ℕ

/-- A cached cursor over a held row, and the columns it has read. -/
structure OpenCursor where
  row : ℕ
  pos : ℕ
  stale : Bool
  read : List DType

structure ReadState where
  writer : MemTableWriter
  process : ℕ
  /-- The leases of other processes on a chunk. -/
  others : ℕ → ℕ
  /-- Dropped pins leave their place. -/
  pins : List (Option ChunkReadPin)
  rows : List HeldRow
  reader : CachedReader
  cursor : Option OpenCursor
  /-- The values of the cached cursors, and what a fresh cursor would have read then. -/
  answers : List (Value × Value)

namespace ReadState

/-- A process that has not read anything. -/
def start (w : MemTableWriter) (others : ℕ → ℕ) (maxEntries : ℕ) : ReadState where
  writer := w
  process := 0
  others := others
  pins := []
  rows := []
  reader := .new maxEntries
  cursor := none
  answers := []

inductive Action where
  | write (op : MemTableWriter.Op)
  | lease (i : ℕ)
  | release (i : ℕ)
  | pinChunk (i : ℕ)
  /-- A row of the iterator that holds the pin. -/
  | row (p k : ℕ)
  /-- The last row that shares the pin is dropped. -/
  | drop (p : ℕ)
  /-- The parent keeps its leases, and the child reads on. -/
  | fork
  | isValid (p : ℕ) (claimable : Bool)
  | cursor (r : ℕ)
  | next (dt : DType) (claimable : Bool)
  deriving DecidableEq

variable (key : HashKey) (s : ReadState)

def chunk (i : ℕ) : Chunk := s.writer.table.chunk i

def chunkStart (i : ℕ) : ℕ :=
  dataOffset s.writer.table.cols.length s.writer.table.numChunks + i * s.writer.table.chunkSize

def pin (p : ℕ) : Option ChunkReadPin := s.pins.getD p none

def Owned (p : ChunkReadPin) : Prop := p.ownerPid = some s.process

instance (p : ChunkReadPin) : Decidable (s.Owned p) := inferInstanceAs (Decidable (_ = _))

def ownLeases (i : ℕ) : ℕ := s.pins.countP fun p => p.any fun p => s.Owned p && p.chunk = i

def chunkHasLiveLeases (i : ℕ) : Bool := 0 < s.others i + s.ownLeases i

/-- A lease for this process can be claimed or not; the pin is adopted or given up. -/
def ensureCurrentProcess (claimable : Bool) (p : ChunkReadPin) : Bool × ChunkReadPin :=
  match p.ownerPid with
  | none => (false, p)
  | some owner =>
      if owner = s.process then (true, p)
      else if claimable ∧ (s.chunk p.chunk).state ≠ .Empty ∧
        (s.chunk p.chunk).generation = p.generation then
        (true, { p with ownerPid := some s.process })
      else (false, { p with ownerPid := none })

section Cursors

variable (r : HeldRow) (p : ChunkReadPin)

/-- `Row::cursor`. -/
def rowCursor (claimable : Bool) : RowCursor where
  data := slice (s.chunk p.chunk).payload r.start r.len
  pos := 0
  payload := (s.chunk p.chunk).payload
  stale := !(s.ensureCurrentProcess claimable p).1

/-- A cursor of the cached reader that has come to some place. -/
def cachedCursor (c : OpenCursor) : CachedCursor where
  data := slice (s.chunk p.chunk).payload r.start r.len
  payload := (s.chunk p.chunk).payload
  pos := c.pos
  chunkStart := s.chunkStart p.chunk
  generation := p.generation
  cache := s.reader
  stale := c.stale

end Cursors

/-- The next column with the cached cursor, and with a fresh cursor that skips the columns
before it. -/
def next (dt : DType) (claimable : Bool) (c : OpenCursor) (r : HeldRow) (p : ChunkReadPin) :
    ReadState :=
  let read := (s.cachedCursor r p c).next dt
  let fresh := ((s.rowCursor r p claimable).after c.read).next dt
  { s with
    reader := read.2.cache
    cursor := some { c with pos := read.2.pos, stale := read.2.stale, read := c.read ++ [dt] }
    answers := s.answers ++ [(read.1, fresh.1)] }

/-- The open cursor with its row and its pin. -/
def reading : Option (OpenCursor × HeldRow × ChunkReadPin) :=
  s.cursor.bind fun c => (s.rows[c.row]?).bind fun r => (s.pin r.pin).map fun p => (c, r, p)

def step : Action → Option ReadState
  | .write op =>
      -- The writer finds every live lease on the chunk it would recycle.
      if s.chunkHasLiveLeases s.writer.table.nextChunk = true → op.pinned = true then
        (s.writer.step key op).map fun w => { s with writer := w }
      else none
  | .lease i => some { s with others := Function.update s.others i (s.others i + 1) }
  | .release i =>
      if 0 < s.others i then some { s with others := Function.update s.others i (s.others i - 1) }
      else none
  | .pinChunk i =>
      let c := s.chunk i
      if i < s.writer.table.numChunks ∧ c.state ≠ .Empty ∧
          c.used ≤ s.writer.table.chunkSize - chunkHeaderSize then
        some { s with pins := s.pins ++ [some ⟨i, c.generation, c.used, some s.process⟩] }
      else none
  | .row p k =>
      (s.pin p).bind fun pin =>
        if s.Owned pin then
          ((rowSpans ((s.chunk pin.chunk).payload.take pin.used))[k]?).map fun span =>
            { s with rows := s.rows ++ [⟨p, span.1, span.2⟩] }
        else none
  | .drop p =>
      -- A cursor that borrows from a row of the pin is gone by then.
      some { s with
        pins := s.pins.set p none
        cursor := s.cursor.filter fun c => (s.rows[c.row]?).map HeldRow.pin ≠ some p }
  | .fork => some { s with process := s.process + 1, others := fun i => s.others i + s.ownLeases i }
  | .isValid p claimable =>
      (s.pin p).map fun pin =>
        { s with pins := s.pins.set p (some (s.ensureCurrentProcess claimable pin).2) }
  | .cursor r => if r < s.rows.length then
    some { s with cursor := some ⟨r, 0, false, []⟩ } else none
  | .next dt claimable => s.reading.map fun (c, r, p) => s.next dt claimable c r p

/-- The process that reads owns the pin, and a reference that is followed leads to a length
in the published bytes. -/
def Guarded : Action → Prop
  | .next dt _ => ∀ x ∈ s.reading, s.Owned x.2.2 ∧
      (dt.fixedSize = none → ∀ delta ∈ (s.cachedCursor x.2.1 x.2.2 x.1).plain.followed,
        delta + 4 ≤ (s.chunk x.2.2.chunk).payload.length + chunkHeaderSize →
        delta + 4 ≤ (s.chunk x.2.2.chunk).used + chunkHeaderSize)
  | _ => True

instance (a : Action) : Decidable (s.Guarded a) := by
  unfold Guarded
  split <;> infer_instance

end ReadState

end Probing.Memt
