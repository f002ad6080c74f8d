import Probing.Core.FrameLog
import Probing.Memc.SegmentWriter

/-!
# Opening a segment

A sealed segment is read through its footer, an unsealed one by a forward scan
of its blocks. Offsets are natural numbers: on a file below 2^63 bytes no checked
addition of the source overflows but those that start from a stored 64-bit
offset.
-/

namespace Probing.Memc

open Probing.Core
open Probing.Memt (DType)

abbrev Tables := UInt32 → Option TableDef

def Tables.insert (tables : Tables) (d : TableDef) : Tables :=
  fun i => if i = d.id then some d else tables i

structure SegmentReader where
  mmap : Bytes
  header : SegmentHeader
  tables : Tables
  pages : List PageMeta

/-- One entry of the footer directory. -/
def PageMeta.decode (mmap : Bytes) (off : ℕ) : PageMeta where
  tableId := getLe UInt32 mmap off
  rowCount := getLe UInt32 mmap (off + 4)
  tsMin := getLe Int64 mmap (off + 8)
  tsMax := getLe Int64 mmap (off + 16)
  blockOff := getLe UInt64 mmap (off + 24)
  blockLen := getLe UInt32 mmap (off + 32)
  colCount := getLe UInt32 mmap (off + 36)
  sourceGen := getLe UInt64 mmap (off + 40)
  sourceChunk := getLe UInt32 mmap (off + 48)
  sourceInstance := getLe UInt64 mmap (off + 56)

/-- The entry loop of `load_footer`: `count` entries from `off` on. -/
def loadEntries (mmap : Bytes) (foff : ℕ) : ℕ → ℕ → Except String (List PageMeta)
  | 0, _ => .ok []
  | count + 1, off =>
      let p := PageMeta.decode mmap off
      let block_end := p.blockOff.toNat + p.blockLen.toNat
      if 2 ^ 64 ≤ block_end then .error "footer block length overflow"
      else if p.blockOff.toNat < segmentHeaderSize ∨ p.blockLen.toNat < blockHeaderSize ∨
          foff < block_end then
        .error "MEMC footer page block range invalid"
      else (loadEntries mmap foff count (off + pageDirEntrySize)).map (p :: ·)

/-- Parse and verify the footer page directory. -/
def loadFooter (X : Crates) (mmap : Bytes) (header : SegmentHeader) :
    Except String (List PageMeta) :=
  let foff := header.footerOff.toNat
  let entries_start := foff + 16
  if 2 ^ 64 ≤ entries_start then .error "footer header overflow"
  else if mmap.length < entries_start ∨ getLe UInt32 mmap foff ≠ magicFooter then
    .error "MEMC footer missing or invalid"
  else
    let count := (getLe UInt32 mmap (foff + 4)).toNat
    let entries_len := (getLe UInt32 mmap (foff + 8)).toNat
    if count ≠ header.pageCount.toNat ∨ entries_len ≠ count * pageDirEntrySize then
      .error "MEMC footer page count mismatch"
    else if mmap.length < entries_start + entries_len ∨
        X.xxh32 (slice mmap entries_start entries_len) ≠ getLe UInt32 mmap (foff + 12) then
      .error "MEMC footer checksum mismatch"
    else loadEntries mmap foff count entries_start

/-- Metadata of a page block found at `off`. -/
def BlockHeader.pageMeta (bh : BlockHeader) (off blockLen : ℕ) : PageMeta where
  tableId := bh.tableId
  rowCount := bh.rowCount
  colCount := bh.colCount
  tsMin := bh.tsMin
  tsMax := bh.tsMax
  blockOff := .ofNat off
  blockLen := .ofNat blockLen
  sourceGen := bh.sourceGen
  sourceChunk := bh.sourceChunk
  sourceInstance := bh.sourceInstance

/-- What the scan takes from a complete block. -/
inductive Entry where
  | table (d : TableDef)
  | page (bh : BlockHeader) (blockLen : ℕ)

/-- The payload of a complete block, by its magic. -/
def blockEntry (bh : BlockHeader) (payload : Bytes) : Except String Entry :=
  if bh.magic = magicTableBlock then (decodeTablePayload bh.tableId payload).map .table
  else .ok (.page bh (align64 (blockHeaderSize + bh.payloadLen.toNat)))

/-- Table definitions always, page metadata only without a footer. -/
def collect (footer_ok : Bool) (found : Tables × List PageMeta) (off : ℕ) :
    Entry → Tables × List PageMeta
  | .table d => (found.1.insert d, found.2)
  | .page bh blockLen =>
      if footer_ok then found else (found.1, found.2 ++ [bh.pageMeta off blockLen])

/-- The loop of `scan_blocks` at `off`, with what has been found so far. -/
def scanBlocks (X : Crates) (mmap : Bytes) (limit : ℕ) (isSealed footer_ok : Bool) (off : ℕ)
    (found : Tables × List PageMeta) : Except String (Tables × List PageMeta) :=
  if off + blockHeaderSize ≤ limit then
    match BlockHeader.decode X (mmap.drop off) with
    | none => .error "MEMC block header invalid"
    | some bh =>
        let payload_start := off + blockHeaderSize
        let payloadLen := bh.payloadLen.toNat
        if limit < payload_start + payloadLen then
          if isSealed then .error "sealed MEMC block payload out of bounds" else .ok found
        else if X.xxh32 (slice mmap payload_start payloadLen) ≠ bh.payloadXxh then
          .error "MEMC block payload checksum mismatch"
        else
          let next_off := off + align64 (blockHeaderSize + payloadLen)
          if limit < next_off then
            if isSealed then .error "sealed MEMC aligned block out of bounds" else .ok found
          else match blockEntry bh (slice mmap payload_start payloadLen) with
            | .error e => .error e
            | .ok entry =>
                scanBlocks X mmap limit isSealed footer_ok next_off
                  (collect footer_ok found off entry)
  else if isSealed ∧ off ≠ limit then
    .error "sealed MEMC segment has trailing or truncated block bytes"
  else .ok found
termination_by limit - off
decreasing_by
  have := le_align64 (blockHeaderSize + bh.payloadLen.toNat)
  simp only [blockHeaderSize] at *
  omega

namespace SegmentReader

/-- Parse an opened file. -/
def fromMmap (X : Crates) (mmap : Bytes) : Except String SegmentReader :=
  match SegmentHeader.decode X mmap with
  | .error e => .error e
  | .ok header =>
      if header.isSealed then
        if header.footerOff = 0 then .error "sealed MEMC segment has no footer"
        else match loadFooter X mmap header with
          | .error e => .error e
          | .ok pages =>
              (scanBlocks X mmap (min header.footerOff.toNat mmap.length) true true
                segmentHeaderSize (fun _ => none, pages)).map fun found =>
                  ⟨mmap, header, found.1, found.2⟩
      else
        let limit :=
          if header.footerOff ≠ 0 then min header.footerOff.toNat mmap.length else mmap.length
        (scanBlocks X mmap limit false false segmentHeaderSize (fun _ => none, [])).map
          fun found => ⟨mmap, header, found.1, found.2⟩

/-- The column loop of `read_page` over a payload; the remainder must be empty. -/
def readColumns (X : Crates) (rc : ℕ) : ℕ → Bytes → Except String (List ColumnData)
  | 0, payload => if payload = [] then .ok [] else .error "page payload has trailing bytes"
  | count + 1, payload =>
      match decodeColumn X payload rc with
      | .error e => .error e
      | .ok (col, used) =>
          if col.len ≠ rc then
            .error s!"decoded column row count mismatch: expected {rc}, got {col.len}"
          else (readColumns X rc count (payload.drop used)).map (col :: ·)

/-- Decode page `index` into its columns. -/
def readPage (X : Crates) (r : SegmentReader) (index : ℕ) : Except String (List ColumnData) :=
  match r.pages[index]? with
  | none => .error "page index out of range"
  | some p =>
      let hstart := p.blockOff.toNat
      if 2 ^ 64 ≤ hstart + blockHeaderSize then .error "page block header offset overflow"
      else if r.mmap.length < hstart + blockHeaderSize then .error "page block header out of bounds"
      else match BlockHeader.decode X (r.mmap.drop hstart) with
        | none => .error "page block header invalid"
        | some bh =>
            let payloadLen := bh.payloadLen.toNat
            let payload := slice r.mmap (hstart + blockHeaderSize) payloadLen
            if bh.magic ≠ magicPageBlock then .error "page directory points to a non-page block"
            else if bh.tableId ≠ p.tableId ∨ bh.rowCount ≠ p.rowCount ∨
                bh.colCount ≠ p.colCount ∨
                align64 (blockHeaderSize + payloadLen) ≠ p.blockLen.toNat then
              .error "page directory does not match block header"
            else if 2 ^ 64 ≤ hstart + blockHeaderSize + payloadLen then
              .error "page payload offset overflow"
            else if r.mmap.length < hstart + blockHeaderSize + payloadLen then
              .error "page payload out of bounds"
            else if X.xxh32 payload ≠ bh.payloadXxh then .error "page payload checksum mismatch"
            else readColumns X bh.rowCount.toNat bh.colCount.toNat payload

end SegmentReader

end Probing.Memc
