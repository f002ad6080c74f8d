import Probing.Memc.SegmentReader

/-!
# Blocks as frames of a log

The forward scan of `scan_blocks` is the scan of a log whose frames are blocks.
Every block with a payload below 4 GiB is recognised, whatever follows it, and
an unsealed scan stops at a block that is not complete.

A segment is a list of blocks. Its file is the header followed by the encoded
blocks, and its page directory is a function of them.
-/

namespace Probing.Memc

open Probing.Core
open Probing.Memt (DType)

variable {X : Crates}

/-- What `scan_blocks` finds at the head of the bytes below its limit. -/
def parseBlock (X : Crates) (isSealed : Bool) (log : Bytes) : Head Entry String :=
  if blockHeaderSize ≤ log.length then
    match BlockHeader.decode X log with
    | none => .corrupt "MEMC block header invalid"
    | some bh =>
        let payloadLen := bh.payloadLen.toNat
        if log.length < blockHeaderSize + payloadLen then
          if isSealed then .corrupt "sealed MEMC block payload out of bounds" else .stop
        else if X.xxh32 (slice log blockHeaderSize payloadLen) ≠ bh.payloadXxh then
          .corrupt "MEMC block payload checksum mismatch"
        else
          let blockLen := align64 (blockHeaderSize + payloadLen)
          if log.length < blockLen then
            if isSealed then .corrupt "sealed MEMC aligned block out of bounds" else .stop
          else Head.of blockLen (blockEntry bh (slice log blockHeaderSize payloadLen))
  else .stop

/-- All entries found, one after the other. -/
def collectAll (footer_ok : Bool) (found : Tables × List PageMeta) (entries : List (ℕ × Entry)) :
    Tables × List PageMeta :=
  entries.foldl (fun found e => collect footer_ok found e.1 e.2) found

/-- The loop of `scan_blocks` is the scan of the log below the limit. -/
theorem scanBlocks_eq_scan (mmap : Bytes) {limit : ℕ} (hlimit : limit ≤ mmap.length)
    (isSealed footer_ok : Bool) (off : ℕ) (found : Tables × List PageMeta) (hoff : off ≤ limit) :
    scanBlocks X mmap limit isSealed footer_ok off found =
      match scan (parseBlock X isSealed) off ((mmap.take limit).drop off) with
      | .error e => .error e
      | .ok (entries, stop) =>
          if isSealed ∧ stop ≠ limit then
            .error "sealed MEMC segment has trailing or truncated block bytes"
          else .ok (collectAll footer_ok found entries) := by
  have hlen : ((mmap.take limit).drop off).length = limit - off := by
    rw [List.length_drop, List.length_take, Nat.min_eq_left hlimit]
  rw [scanBlocks, scan, parseBlock, hlen]
  by_cases hhead : off + blockHeaderSize ≤ limit
  · have hhead' : blockHeaderSize ≤ limit - off := by omega
    have hdecode : BlockHeader.decode X ((mmap.take limit).drop off) =
        BlockHeader.decode X (mmap.drop off) := by
      rw [List.drop_take]
      apply BlockHeader.decode_take X hhead'
      rw [List.length_drop]
      omega
    rw [if_pos hhead, if_pos hhead', hdecode]
    cases BlockHeader.decode X (mmap.drop off) with
    | none => rfl
    | some bh =>
        dsimp only
        by_cases hpayload : limit < off + blockHeaderSize + bh.payloadLen.toNat
        · have hpayload' : limit - off < blockHeaderSize + bh.payloadLen.toNat := by omega
          rw [if_pos hpayload, if_pos hpayload']
          cases isSealed <;> rfl
        · have hpayload' : ¬ limit - off < blockHeaderSize + bh.payloadLen.toNat := by omega
          have hslice : slice ((mmap.take limit).drop off) blockHeaderSize bh.payloadLen.toNat =
              slice mmap (off + blockHeaderSize) bh.payloadLen.toNat := by
            rw [slice_drop, slice_take (by omega)]
          rw [if_neg hpayload, if_neg hpayload', hslice]
          generalize slice mmap (off + blockHeaderSize) bh.payloadLen.toNat = payload
          by_cases hxxh : X.xxh32 payload ≠ bh.payloadXxh
          · rw [if_pos hxxh, if_pos hxxh]
          · rw [if_neg hxxh, if_neg hxxh]
            have hpos := le_align64 (blockHeaderSize + bh.payloadLen.toNat)
            generalize align64 (blockHeaderSize + bh.payloadLen.toNat) = blockLen at hpos
            have hsize : 0 < blockHeaderSize := by decide
            by_cases hnext : limit < off + blockLen
            · have hnext' : limit - off < blockLen := by omega
              rw [if_pos hnext, if_pos hnext']
              cases isSealed <;> rfl
            · have hnext' : ¬ limit - off < blockLen := by omega
              rw [if_neg hnext, if_neg hnext']
              cases blockEntry bh payload with
              | error e => rfl
              | ok entry =>
                  have hstep : 0 < blockLen ∧ blockLen ≤ limit - off := by omega
                  have hih := scanBlocks_eq_scan mmap hlimit isSealed footer_ok
                    (off + blockLen) (collect footer_ok found off entry) (by omega)
                  simp only [Head.of]
                  rw [if_pos hstep, List.drop_drop, hih]
                  cases scan (parseBlock X isSealed) (off + blockLen)
                      ((mmap.take limit).drop (off + blockLen)) <;> rfl
  · have hhead' : ¬ blockHeaderSize ≤ limit - off := by omega
    rw [if_neg hhead, if_neg hhead']
    rfl
termination_by limit - off

@[simp] theorem blockBytes_length (header : BlockHeader) (payload : Bytes) :
    (blockBytes X header payload).length = align64 (blockHeaderSize + payload.length) := by
  have := le_align64 (blockHeaderSize + payload.length)
  simp only [blockBytes, List.length_append, BlockHeader.encode_length, List.length_replicate]
  omega

/-- The header of a block is one of the two kinds, and tells the length and
checksum of its payload. -/
structure BlockHeader.Covers (X : Crates) (header : BlockHeader) (payload : Bytes) : Prop where
  magic : header.magic = magicTableBlock ∨ header.magic = magicPageBlock
  payloadLen : header.payloadLen.toNat = payload.length
  payloadXxh : header.payloadXxh = X.xxh32 payload

variable {header : BlockHeader} {payload : Bytes}

theorem slice_block_payload (rest : Bytes) :
    slice (blockBytes X header payload ++ rest) blockHeaderSize payload.length = payload := by
  rw [blockBytes, List.append_assoc, List.append_assoc,
    slice_append_right (header.encode_length X).le, header.encode_length, Nat.sub_self]
  exact slice_zero_append rfl

/-- A complete block is recognised, whatever follows it. -/
theorem parseBlock_complete (h : header.Covers X payload) (isSealed : Bool) (rest : Bytes) :
    parseBlock X isSealed (blockBytes X header payload ++ rest) =
      Head.of (blockBytes X header payload).length (blockEntry header payload) := by
  have hdecode : BlockHeader.decode X (blockBytes X header payload ++ rest) = some header := by
    rw [blockBytes, List.append_assoc]
    exact BlockHeader.decode_encode X _ h.magic
  have hle := le_align64 (blockHeaderSize + payload.length)
  unfold parseBlock
  simp only [hdecode, h.payloadLen, slice_block_payload, List.length_append, blockBytes_length]
  rw [if_pos (by omega), if_neg (by omega), if_neg (by simp [h.payloadXxh]), if_neg (by omega)]

/-- A block that is cut short is no block: it stops an unsealed scan, and stops a
sealed one or fails it. -/
theorem parseBlock_torn (h : header.Covers X payload) (isSealed : Bool) {j : ℕ}
    (hj : j < (blockBytes X header payload).length) :
    parseBlock X isSealed ((blockBytes X header payload).take j) = .stop ∨
      isSealed = true ∧
        ∃ e, parseBlock X isSealed ((blockBytes X header payload).take j) = .corrupt e := by
  rw [blockBytes_length] at hj
  have hlen : ((blockBytes X header payload).take j).length = j := by
    rw [List.length_take, blockBytes_length]
    omega
  unfold parseBlock
  rw [hlen]
  by_cases hhead : blockHeaderSize ≤ j
  · have hdecode : BlockHeader.decode X ((blockBytes X header payload).take j) = some header := by
      rw [BlockHeader.decode_take X hhead (by rw [blockBytes_length]; omega), blockBytes]
      exact BlockHeader.decode_encode X _ h.magic
    rw [if_pos hhead, hdecode]
    simp only [h.payloadLen]
    by_cases hpayload : j < blockHeaderSize + payload.length
    · rw [if_pos hpayload]
      cases isSealed with
      | false => exact .inl rfl
      | true => exact .inr ⟨rfl, _, rfl⟩
    · have hslice : slice ((blockBytes X header payload).take j) blockHeaderSize payload.length =
          payload := by
        rw [slice_take (by omega)]
        have hself : slice (blockBytes X header payload ++ []) blockHeaderSize payload.length =
            payload := slice_block_payload []
        simpa using hself
      rw [if_neg hpayload, hslice, if_neg (by simp [h.payloadXxh]), if_pos hj]
      cases isSealed with
      | false => exact .inl rfl
      | true => exact .inr ⟨rfl, _, rfl⟩
  · rw [if_neg hhead]
    exact .inl rfl

/-- The empty log stops a scan. -/
theorem parseBlock_nil (isSealed : Bool) : parseBlock X isSealed [] = .stop := by
  unfold parseBlock
  rw [if_neg (by decide)]

end Probing.Memc

namespace Probing.Memc

open Probing.Core
open Probing.Memt (DType)

/-- A table definition, or a page with its timestamp range. -/
inductive Block where
  | table (id : UInt32) (name : String) (cols : List (String × DType))
  | page (a : Append) (ts : Int64 × Int64)
  deriving DecidableEq

def Append.payload (X : Crates) (a : Append) : Bytes :=
  match encodeColumns X a.columns with
  | .ok payload => payload
  | .error _ => []

namespace Block

def payload (X : Crates) : Block → Bytes
  | table _ name cols => encodeTablePayload name cols
  | page a _ => a.payload X

def header (X : Crates) : Block → BlockHeader
  | table id name cols => tableHeader X id cols (encodeTablePayload name cols)
  | page a ts => pageHeader X a ts (a.payload X)

def encode (X : Crates) (b : Block) : Bytes := blockBytes X (b.header X) (b.payload X)

/-- What the scan takes from the block. -/
def read (X : Crates) (b : Block) : Except String Entry := blockEntry (b.header X) (b.payload X)

/-- The table definition of a block. -/
def define (tables : Tables) : Block → Tables
  | table id name cols => tables.insert ⟨id, name, cols, tsCol cols⟩
  | page _ _ => tables

/-- The directory entry of a block at `off`. -/
def metas (X : Crates) (off : ℕ) : Block → List PageMeta
  | table _ _ _ => []
  | page a ts => [pageEntry a ts off (align64 (blockHeaderSize + (a.payload X).length))]

/-- The columns of a page have one length, which is not zero, and can be encoded. -/
def Valid (X : Crates) : Block → Prop
  | table _ _ _ => True
  | page a _ => a.rowCount ≠ 0 ∧ (∀ col ∈ a.columns, col.len = a.rowCount) ∧
      encodeColumns X a.columns = .ok (a.payload X)

/-- The payload length fits its 32-bit field. -/
def Small (X : Crates) (b : Block) : Prop := (b.payload X).length < 2 ^ 32

/-- A table fits its 16-bit fields. -/
def Named : Block → Prop
  | table _ name cols => TableFits name cols
  | page _ _ => True

end Block

/-- Table definitions of the blocks. -/
def tablesOf (tables : Tables) (blocks : List Block) : Tables := blocks.foldl Block.define tables

/-- The page directory of blocks that lie one after the other from `off` on. -/
def pagesOf (X : Crates) (off : ℕ) : List Block → List PageMeta
  | [] => []
  | b :: blocks => b.metas X off ++ pagesOf X (off + (b.encode X).length) blocks

variable {X : Crates}

theorem pagesOf_append (off : ℕ) (blocks : List Block) (b : Block) :
    pagesOf X off (blocks ++ [b]) =
      pagesOf X off blocks ++ b.metas X (off + (blocks.flatMap (Block.encode X)).length) := by
  induction blocks generalizing off with
  | nil => simp [pagesOf]
  | cons x blocks ih =>
      rw [List.cons_append, pagesOf, pagesOf, ih, List.append_assoc, List.flatMap_cons,
        List.length_append, Nat.add_assoc]

theorem Block.encode_length (b : Block) :
    (b.encode X).length = align64 (blockHeaderSize + (b.payload X).length) :=
  blockBytes_length _ _

theorem Block.metas_page (off : ℕ) (a : Append) (ts : Int64 × Int64) :
    (Block.page a ts).metas X off = [pageEntry a ts off ((Block.page a ts).encode X).length] := by
  rw [Block.encode_length]
  rfl

theorem Block.header_covers {b : Block} (h : b.Small X) :
    (b.header X).Covers X (b.payload X) := by
  have hlen : (UInt32.ofNat (b.payload X).length).toNat = (b.payload X).length := by
    have h : (b.payload X).length < 2 ^ 32 := h
    simp
    omega
  cases b with
  | table id name cols => exact ⟨.inl rfl, hlen, rfl⟩
  | page a ts => exact ⟨.inr rfl, hlen, rfl⟩

theorem Block.recognises {b : Block} (h : b.Small X) (isSealed : Bool) :
    Recognises (parseBlock X isSealed) (Block.encode X) (Block.read X) b := by
  refine ⟨?_, fun rest => parseBlock_complete (b.header_covers h) isSealed rest⟩
  have hle := le_align64 (blockHeaderSize + (b.payload X).length)
  have hpos : 0 < blockHeaderSize := by decide
  rw [b.encode_length]
  omega

theorem Block.read_table (id : UInt32) {name : String} {cols : List (String × DType)}
    (h : TableFits name cols) :
    (Block.table id name cols).read X = .ok (.table ⟨id, name, cols, tsCol cols⟩) := by
  have hmagic : ((Block.table id name cols).header X).magic = magicTableBlock := rfl
  rw [read, blockEntry, if_pos hmagic]
  exact congrArg (Except.map Entry.table) (decodeTablePayload_encode id h)

theorem Block.readPage {a : Append} {ts : Int64 × Int64} (h : (Block.page a ts).Small X) :
    (Block.page a ts).read X = .ok (.page (pageHeader X a ts (a.payload X))
      (align64 (blockHeaderSize + (a.payload X).length))) := by
  have hmagic : ((Block.page a ts).header X).magic ≠ magicTableBlock := by
    have hne : magicPageBlock ≠ magicTableBlock := by decide
    exact hne
  have hlen : (pageHeader X a ts (a.payload X)).payloadLen.toNat = (a.payload X).length :=
    (header_covers h).payloadLen
  rw [read, blockEntry, if_neg hmagic]
  simp only [header, hlen]

/-- Everything the scan takes from blocks whose table definitions fit. -/
theorem readings_of_named {blocks : List Block} (hnamed : ∀ b ∈ blocks, b.Named)
    (hsmall : ∀ b ∈ blocks, b.Small X) (footer_ok : Bool) (off : ℕ)
    (found : Tables × List PageMeta) :
    ∃ entries, readings (Block.encode X) (Block.read X) off blocks = .ok entries ∧
      collectAll footer_ok found entries = (tablesOf found.1 blocks,
        if footer_ok then found.2 else found.2 ++ pagesOf X off blocks) := by
  induction blocks generalizing off found with
  | nil => exact ⟨[], rfl, by simp [collectAll, tablesOf, pagesOf]⟩
  | cons b blocks ih =>
      obtain ⟨entry, hread, hcollect⟩ : ∃ entry, b.read X = .ok entry ∧
          collect footer_ok found off entry = (b.define found.1,
            if footer_ok then found.2 else found.2 ++ b.metas X off) := by
        cases b with
        | table id name cols =>
            refine ⟨_, Block.read_table id (hnamed (.table id name cols) (by simp)), ?_⟩
            cases footer_ok <;> simp [collect, Block.define, Block.metas]
        | page a ts =>
            refine ⟨_, Block.readPage (hsmall (.page a ts) (by simp)), ?_⟩
            cases footer_ok <;> rfl
      obtain ⟨entries, hreadings, hall⟩ := ih (fun x hx => hnamed x (List.mem_cons_of_mem b hx))
        (fun x hx => hsmall x (List.mem_cons_of_mem b hx)) (off + (b.encode X).length)
        (collect footer_ok found off entry)
      refine ⟨(off, entry) :: entries, ?_, ?_⟩
      · rw [readings, hread, hreadings]
        rfl
      · rw [collectAll, List.foldl_cons]
        refine hall.trans ?_
        rw [hcollect]
        cases footer_ok <;> simp [tablesOf, pagesOf]

end Probing.Memc
