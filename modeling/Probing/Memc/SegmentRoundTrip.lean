import Probing.Memc.SegmentPages
import Probing.Memc.SegmentSession

/-!
# Segment round trip

A segment written by calls that all returned `Ok` opens to the same tables and
pages before it is sealed, by the forward scan, and after, by its footer. This
holds exactly when the counts and block lengths of the pages fit their 32-bit
fields and there are fewer than 2^26 pages.
-/

namespace Probing.Memc

open Probing.Core
open Probing.Memt (DType)

/-- Everything the 32-bit fields of page headers and footer must hold. -/
structure SegmentFits (X : Crates) (blocks : List Block) : Prop where
  exact : ∀ b ∈ blocks, b.Exact X
  few : (pageBlocks X segmentHeaderSize blocks).length < 2 ^ 26

/-- Both files open to the blocks, with the same definitions and directory. -/
def RoundTrip (X : Crates) (blocks : List Block) (unsealed sealed : Bytes) : Prop :=
  ∃ r s, SegmentReader.fromMmap X unsealed = .ok r ∧ SegmentReader.fromMmap X sealed = .ok s ∧
    Reads X blocks r ∧ Reads X blocks s ∧ r.tables = s.tables ∧ r.pages = s.pages

variable {X : Crates} {stamp seal_stamp : Stamp} {w : SegmentWriter} {blocks : List Block}

theorem createHeader_isSealed (stamp : Stamp) : (createHeader stamp).isSealed = false := by
  have hflags : ((0 : UInt16) &&& flagSealed != 0) = false := by decide
  exact hflags

theorem sealHeader_isSealed (w : SegmentWriter) (stamp : Stamp) :
    (w.sealHeader stamp).isSealed = true := by
  have hflags : (flagSealed &&& flagSealed != 0) = true := by decide
  exact hflags

/-- The unsealed file of a writer opens to its blocks. -/
theorem Holds.open_unsealed (h : Holds X stamp w blocks) (hX : X.Lossless)
    (hnamed : ∀ b ∈ blocks, b.Named) (hsmall : ∀ b ∈ blocks, b.Small X)
    (hexact : ∀ b ∈ blocks, b.Exact X) :
    ∃ r, SegmentReader.fromMmap X w.file.bytes = .ok r ∧ Reads X blocks r ∧
      r.tables = tablesOf (fun _ => none) blocks ∧
      r.pages = pagesOf X segmentHeaderSize blocks := by
  have hmax := h.appended.2.1
  have hbytes : w.file.bytes =
      (createHeader stamp).encode X ++ (blocks.flatMap (Block.encode X) ++ []) := by
    rw [h.bytes, List.append_nil]
  have hopen := Memc.open_unsealed (SegmentHeader.encode_length X (createHeader stamp))
    (SegmentHeader.decode_encode X _ _) (createHeader_isSealed stamp) rfl hnamed hsmall
    (parseBlock_nil (X := X) false)
  rw [hbytes] at hmax ⊢
  refine ⟨_, hopen, reads_of_pages hX rfl rfl ?_ rfl rfl h.valid hexact, rfl, rfl⟩
  simp only [maxFileSize] at hmax
  dsimp only
  omega

/-- A page lies between the header and the end of the log. -/
theorem within_of_describes {e : ℕ × Append × (Int64 × Int64)} {p : PageMeta}
    (he : e ∈ pageBlocks X segmentHeaderSize blocks) (hp : Describes X e p) :
    p.Within (segmentHeaderSize + (blocks.flatMap (Block.encode X)).length) := by
  obtain ⟨pre, post, hlog, hoff, -⟩ := split_of_pageBlocks he
  have hle := le_align64 (blockHeaderSize + (e.2.1.payload X).length)
  have hlen : ((Block.page e.2.1 e.2.2).encode X).length =
      align64 (blockHeaderSize + (e.2.1.payload X).length) := Block.encode_length _
  have htotal : (blocks.flatMap (Block.encode X)).length =
      pre.length + (((Block.page e.2.1 e.2.2).encode X).length + post.length) := by
    rw [hlog, List.length_append, List.length_append]
  unfold PageMeta.Within
  rw [hp.blockOff, hp.blockLen, hoff, htotal]
  omega

theorem Holds.pages_length (h : Holds X stamp w blocks) :
    w.pages.length = (pageBlocks X segmentHeaderSize blocks).length := by
  rw [h.pages, pagesOf_eq_map, List.length_map]

/-- The header of a sealed file points behind the blocks. -/
theorem Holds.footerOff (h : Holds X stamp w blocks) (seal_stamp : Stamp) :
    (w.sealHeader seal_stamp).footerOff.toNat =
      segmentHeaderSize + (blocks.flatMap (Block.encode X)).length := by
  have hmax := h.appended.2.1
  have hoff : w.offset = segmentHeaderSize + (blocks.flatMap (Block.encode X)).length := by
    rw [h.offset, h.bytes, List.length_append, SegmentHeader.encode_length]
  rw [← h.offset, maxFileSize] at hmax
  rw [← hoff]
  exact UInt64.toNat_ofNat_of_lt' (by simp only [UInt64.size]; omega)

section Image

variable {head : Bytes} {header : SegmentHeader}

/-- The blocks and the footer behind a header that points to the footer open to the
blocks when everything fits. -/
theorem Holds.open_image (h : Holds X stamp w blocks) (hX : X.Lossless)
    (hnamed : ∀ b ∈ blocks, b.Named) (hsmall : ∀ b ∈ blocks, b.Small X)
    (hfits : SegmentFits X blocks) (hhead : head.length = segmentHeaderSize)
    (hdecode : SegmentHeader.decode X (head ++ (blocks.flatMap (Block.encode X) ++
      footerBytes X w.pages)) = .ok header)
    (hsealed : header.isSealed = true)
    (hfoff : header.footerOff.toNat =
      segmentHeaderSize + (blocks.flatMap (Block.encode X)).length)
    (hcount : header.pageCount.toNat = w.pages.length)
    (hmax : (head ++ (blocks.flatMap (Block.encode X) ++ footerBytes X w.pages)).length ≤
      maxFileSize) :
    ∃ r, SegmentReader.fromMmap X (head ++ (blocks.flatMap (Block.encode X) ++
        footerBytes X w.pages)) = .ok r ∧ Reads X blocks r ∧
      r.tables = tablesOf (fun _ => none) blocks ∧
      r.pages = pagesOf X segmentHeaderSize blocks := by
  have hpages := h.pages_length
  have hfew := hfits.few
  have hlength := hmax
  simp only [List.length_append, footerBytes_length, maxFileSize] at hlength
  have hwithin : ∀ p ∈ w.pages,
      p.Within (segmentHeaderSize + (blocks.flatMap (Block.encode X)).length) := by
    intro p hp
    rw [h.pages, pagesOf_eq_map] at hp
    obtain ⟨e, he, rfl⟩ := List.mem_map.mp hp
    obtain ⟨pre, post, hlog, hoff, hmem⟩ := split_of_pageBlocks he
    have hlog := congrArg List.length hlog
    simp only [List.length_append] at hlog
    exact within_of_describes he
      (describes_entry (hfits.exact _ hmem) (h.valid _ hmem) (by omega))
  have hpre : (head ++ blocks.flatMap (Block.encode X)).length =
      segmentHeaderSize + (blocks.flatMap (Block.encode X)).length := by
    rw [List.length_append, hhead]
  have hload : loadFooter X (head ++ (blocks.flatMap (Block.encode X) ++
      footerBytes X w.pages)) header = .ok w.pages := by
    rw [← List.append_assoc]
    exact loadFooter_ok (hfoff.trans hpre.symm) (by omega) hcount (by omega) (hpre ▸ hwithin)
  have hopen := Memc.open_sealed hhead hdecode hsealed hfoff hnamed hsmall hload
  refine ⟨_, hopen, reads_of_pages hX rfl hhead ?_ rfl h.pages h.valid hfits.exact, rfl, h.pages⟩
  simp only [maxFileSize] at hmax
  dsimp only
  omega

/-- If they open to the blocks, then the header points to the footer and
everything fits. -/
theorem Holds.fits_of_image (h : Holds X stamp w blocks) (hsmall : ∀ b ∈ blocks, b.Small X)
    (hhead : head.length = segmentHeaderSize)
    (hdecode : SegmentHeader.decode X (head ++ (blocks.flatMap (Block.encode X) ++
      footerBytes X w.pages)) = .ok header)
    (hsealed : header.isSealed = true)
    (hmax : (head ++ (blocks.flatMap (Block.encode X) ++ footerBytes X w.pages)).length ≤
      maxFileSize) {r : SegmentReader}
    (hopen : SegmentReader.fromMmap X (head ++ (blocks.flatMap (Block.encode X) ++
      footerBytes X w.pages)) = .ok r) (hreads : Reads X blocks r) :
    header.footerOff.toNat = segmentHeaderSize + (blocks.flatMap (Block.encode X)).length ∧
      header.pageCount.toNat = w.pages.length ∧ SegmentFits X blocks := by
  have hdir := hreads.pages
  simp only [List.length_append, footerBytes_length, maxFileSize] at hmax
  have hfoff := footerOff_of_open hhead hdecode hsealed hsmall hopen
  have hpre : (head ++ blocks.flatMap (Block.encode X)).length =
      segmentHeaderSize + (blocks.flatMap (Block.encode X)).length := by
    rw [List.length_append, hhead]
  have hload := load_of_open hdecode hsealed hopen
  rw [← List.append_assoc] at hload
  obtain ⟨hcount, hfew⟩ := few_of_loadFooter (hfoff.trans hpre.symm) (by omega) hload
    (hdir.length_eq.symm.trans h.pages_length.symm)
  exact ⟨hfoff, hcount, hreads.exact, h.pages_length ▸ hfew⟩

end Image

/-- A sealed file opens to its blocks when everything fits. -/
theorem Holds.open_sealed (h : Holds X stamp w blocks) (hX : X.Lossless)
    (hnamed : ∀ b ∈ blocks, b.Named) (hsmall : ∀ b ∈ blocks, b.Small X)
    (hfits : SegmentFits X blocks) {file : File} (hseal : w.sealFile X seal_stamp = .ok file) :
    ∃ r, SegmentReader.fromMmap X file.bytes = .ok r ∧ Reads X blocks r ∧
      r.tables = tablesOf (fun _ => none) blocks ∧
      r.pages = pagesOf X segmentHeaderSize blocks := by
  obtain ⟨hbytes, hmax, -⟩ := h.sealFile hseal
  have hpages := h.pages_length
  have hfew := hfits.few
  have hcount : (w.sealHeader seal_stamp).pageCount.toNat = w.pages.length :=
    UInt32.toNat_ofNat_of_lt' (by simp only [UInt32.size]; omega)
  rw [hbytes] at hmax ⊢
  exact h.open_image hX hnamed hsmall hfits (SegmentHeader.encode_length X _)
    (SegmentHeader.decode_encode X _ _) (sealHeader_isSealed w seal_stamp)
    (h.footerOff seal_stamp) hcount hmax

/-- A sealed file that reads its blocks has everything fit. -/
theorem Holds.fits_of_open (h : Holds X stamp w blocks) (hsmall : ∀ b ∈ blocks, b.Small X)
    {file : File} (hseal : w.sealFile X seal_stamp = .ok file) {r : SegmentReader}
    (hopen : SegmentReader.fromMmap X file.bytes = .ok r) (hreads : Reads X blocks r) :
    SegmentFits X blocks := by
  obtain ⟨hbytes, hmax, -⟩ := h.sealFile hseal
  rw [hbytes] at hmax hopen
  exact (h.fits_of_image hsmall (SegmentHeader.encode_length X _)
    (SegmentHeader.decode_encode X _ _) (sealHeader_isSealed w seal_stamp) hmax hopen hreads).2.2

section OnePage

/-- A write of the whole buffer that the file has room for. -/
theorem File.taken_all {f : File} {bs : Bytes} (h : f.cursor + bs.length ≤ maxFileSize) :
    f.taken bs none = bs := by
  apply List.take_of_length_le
  simp only [Option.getD_none]
  omega

theorem writeBlock_ok (header : BlockHeader) {payload : Bytes}
    (h : w.file.cursor + align64 (blockHeaderSize + payload.length) ≤ maxFileSize) :
    w.writeBlock X header payload none =
      ({ w with
        file := (w.file.writeAll (blockBytes X header payload) none).1
        offset := w.offset + align64 (blockHeaderSize + payload.length) },
        .ok (align64 (blockHeaderSize + payload.length))) := by
  have htaken : w.file.taken (blockBytes X header payload) none = blockBytes X header payload :=
    File.taken_all (by rwa [blockBytes_length])
  have hflag : (w.file.writeAll (blockBytes X header payload) none).2 = true := by
    simp [File.writeAll, htaken]
  rw [SegmentWriter.writeBlock]
  simp only [hflag, if_true]

theorem Holds.seal_ok (h : Holds X stamp w blocks) (seal_stamp : Stamp)
    (hroom : w.file.bytes.length + (footerBytes X w.pages).length ≤ maxFileSize) :
    ∃ file, w.sealFile X seal_stamp = .ok file := by
  have hfooter : (w.file.writeAll (footerBytes X w.pages) none).2 = true := by
    have htaken : w.file.taken (footerBytes X w.pages) none = footerBytes X w.pages :=
      File.taken_all (by rwa [h.appended.1])
    simp [File.writeAll, htaken]
  have hheader (f : File) : (({ f with cursor := 0 } : File).writeAll
      ((w.sealHeader seal_stamp).encode X) none).2 = true := by
    have htaken : ({ f with cursor := 0 } : File).taken ((w.sealHeader seal_stamp).encode X) none =
        (w.sealHeader seal_stamp).encode X := by
      apply File.taken_all
      rw [SegmentHeader.encode_length]
      simp [segmentHeaderSize, maxFileSize]
    simp [File.writeAll, htaken]
  unfold SegmentWriter.sealFile
  split
  · rename_i f hwrite
    rw [hwrite] at hfooter
    cases hfooter
  · rename_i f hwrite
    split
    · rename_i g hwrite'
      have := hheader f
      rw [hwrite'] at this
      cases this
    · exact ⟨_, rfl⟩

/-- One table with one byte column. -/
def byteTable : Call := .registerTable "" [("", .U8)]

/-- One page of `n` zero bytes for it. -/
def bytePage (n : ℕ) : Append where
  tableId := 1
  columns := [.U8 (List.replicate n 0)]
  sourceGen := 0
  sourceChunk := 0
  sourceInstance := 0

def byteCalls (n : ℕ) : List (Call × Option ℕ) :=
  [(byteTable, none), (.appendPageFrom (bytePage n), none)]

theorem create_cursor (X : Crates) (stamp : Stamp) :
    (SegmentWriter.create X stamp).file.cursor = segmentHeaderSize := by
  have h := create_holds X stamp
  rw [h.appended.1, ← h.offset]
  rfl

theorem byteTable_length :
    align64 (blockHeaderSize + (encodeTablePayload "" [("", .U8)]).length) = 128 := by
  have hname : (utf8 "").length = 0 := by decide
  simp [encodeTablePayload, encodeCol, hname, LeWord.width, align64, blockHeaderSize]

/-- The table is registered, and the cursor is behind its block. -/
theorem call_byteTable (X : Crates) (stamp : Stamp) :
    ((SegmentWriter.create X stamp).call X none byteTable).2 = true ∧
      ((SegmentWriter.create X stamp).call X none byteTable).1.tables 1 =
        some ⟨[("", .U8)], none⟩ ∧
      ((SegmentWriter.create X stamp).call X none byteTable).1.file.cursor = 192 := by
  have hcursor := create_cursor X stamp
  have hlen := byteTable_length
  have hroom : ({ SegmentWriter.create X stamp with
      nextTableId := (SegmentWriter.create X stamp).nextTableId + 1 } :
        SegmentWriter).file.cursor +
      align64 (blockHeaderSize + (encodeTablePayload "" [("", .U8)]).length) ≤
        maxFileSize := by
    rw [hlen]
    simp only [hcursor, segmentHeaderSize, maxFileSize]
    omega
  have hid : (SegmentWriter.create X stamp).nextTableId = 1 := rfl
  have hwrite := writeBlock_ok (X := X)
    (tableHeader X 1 [("", .U8)] (encodeTablePayload "" [("", .U8)])) hroom
  rw [hid] at hwrite
  simp only [byteTable, SegmentWriter.call, SegmentWriter.registerTable, hid, hwrite]
  refine ⟨rfl, rfl, ?_⟩
  have htaken : (SegmentWriter.create X stamp).file.taken (blockBytes X
      (tableHeader X 1 [("", .U8)] (encodeTablePayload "" [("", .U8)]))
        (encodeTablePayload "" [("", .U8)])) none = _ :=
    File.taken_all (by rwa [blockBytes_length])
  simp only [File.writeAll, htaken, blockBytes_length, hlen, hcursor]
  rfl

theorem bytePage_columns (X : Crates) (n : ℕ) :
    encodeColumns X (bytePage n).columns =
      .ok (subBlock .RawFixed .U8 (List.replicate n 0)) := by
  simp [bytePage, encodeColumns, encodeColumn, columnPayload, Except.map, ColumnData.dtype]

theorem bytePage_payload (X : Crates) (n : ℕ) :
    ((bytePage n).payload X).length = n + 8 := by
  rw [Append.payload, bytePage_columns]
  simp only [subBlock_length, List.length_replicate]
  omega

theorem bytePage_rows (n : ℕ) : (bytePage n).rowCount = n := by
  simp [bytePage, Append.rowCount, ColumnData.len]

theorem run_byteCalls (X : Crates) (stamp : Stamp) {n : ℕ} (hpos : n ≠ 0) (hn : n < 2 ^ 32) :
    ((SegmentWriter.create X stamp).run X (byteCalls n)).2 = [true, true] := by
  obtain ⟨hok, htables, hcursor⟩ := call_byteTable X stamp
  have hcall (w : SegmentWriter) (htables : w.tables 1 = some ⟨[("", .U8)], none⟩)
      (hcursor : w.file.cursor = 192) :
      (w.call X none (.appendPageFrom (bytePage n))).2 = true := by
    have hcheck : checkColumns n (bytePage n).columns [("", .U8)] = .ok () := by
      simp [bytePage, checkColumns, ColumnData.dtype, ColumnData.len]
    have hpayload := bytePage_payload X n
    rw [Append.payload, bytePage_columns] at hpayload
    have hroom : w.file.cursor + align64 (blockHeaderSize +
        (subBlock .RawFixed .U8 (List.replicate n 0)).length) ≤ maxFileSize := by
      have := align64_lt (blockHeaderSize + (n + 8))
      simp only [hpayload, hcursor, maxFileSize, blockHeaderSize] at *
      omega
    have htable : (bytePage n).tableId = 1 := rfl
    have hcols : (bytePage n).columns.length = [(("", .U8) : String × DType)].length := rfl
    simp only [SegmentWriter.call, SegmentWriter.appendPageFrom, htable, htables, hcols,
      bytePage_rows, hcheck, bytePage_columns, if_neg hpos, writeBlock_ok _ hroom]
    rfl
  simp only [byteCalls, SegmentWriter.run, hok, hcall _ htables hcursor]

/-- The table and the page. -/
theorem blocksOf_byteCalls (X : Crates) (stamp : Stamp) {n : ℕ} (hpos : n ≠ 0) (hn : n < 2 ^ 32) :
    (SegmentWriter.create X stamp).blocksOf X (byteCalls n) =
      [.table 1 "" [("", .U8)], .page (bytePage n) (tsMinInit, tsMaxInit)] := by
  obtain ⟨hok, htables, -⟩ := call_byteTable X stamp
  have hrun := run_byteCalls X stamp hpos hn
  simp only [byteCalls, SegmentWriter.run, List.cons.injEq] at hrun
  have hblocks : Call.blocks ((SegmentWriter.create X stamp).call X none byteTable).1
      (.appendPageFrom (bytePage n)) = [.page (bytePage n) (tsMinInit, tsMaxInit)] := by
    have htable : (bytePage n).tableId = 1 := rfl
    simp only [Call.blocks, bytePage_rows, if_neg hpos, htable, htables]
    rfl
  simp only [byteCalls, SegmentWriter.blocksOf, hok, hrun.2.1, hblocks, if_true]
  rfl

/-- The 64 bits that hold a number. -/
def Number.bits : (t : Number) → t.Repr → UInt64
  | .I32 => fun v : Int32 => v.toUInt32.toUInt64
  | .I64 => fun v : Int64 => v.toUInt64
  | .F32 | .U32 => fun v : UInt32 => v.toUInt64
  | .F64 | .U64 => fun v : UInt64 => v

def Number.ofBits : (t : Number) → UInt64 → t.Repr
  | .I32 => fun b => b.toUInt32.toInt32
  | .I64 => fun b => b.toInt64
  | .F32 | .U32 => fun b => b.toUInt32
  | .F64 | .U64 => fun b => b

theorem Number.ofBits_bits (t : Number) (v : t.Repr) : t.ofBits (t.bits v) = v := by
  have hnarrow (v : UInt32) : v.toUInt64.toUInt32 = v := by simp
  cases t with
  | I32 => exact congrArg UInt32.toInt32 (hnarrow _)
  | F32 | U32 => exact hnarrow v
  | I64 | F64 | U64 => rfl

def words : ℕ → Bytes → List UInt64
  | 0, _ => []
  | n + 1, bytes => getLe UInt64 bytes 0 :: words n (bytes.drop 8)

theorem words_flatMap_le (v : List UInt64) : words v.length (v.flatMap le) = v := by
  induction v with
  | nil => rfl
  | cons x v ih =>
      have hdrop : (le x ++ v.flatMap le).drop 8 = v.flatMap le := by
        rw [← le_length_u64 x, List.drop_left]
      rw [List.flatMap_cons, List.length_cons, words, getLe_le_append, hdrop, ih]

/-- Numbers stored in 8 bytes each, and a polynomial hash. -/
def stored : Crates where
  xxh364 bytes := bytes.foldl (fun h b => h * 31 + b.toUInt64) 7
  simplerCompress t nums := .ok ((nums.map t.bits).flatMap le)
  simpleDecompress t bytes := .ok ((words (bytes.length / 8) bytes).map t.ofBits)

theorem stored_lossless : stored.Lossless := by
  intro t nums bytes h
  obtain rfl := Except.ok.inj h
  have hlen : ((nums.map t.bits).flatMap le).length / 8 = (nums.map t.bits).length := by
    have hwidth (v : List UInt64) : (v.flatMap le).length = 8 * v.length := by
      induction v with
      | nil => rfl
      | cons x v ih =>
          rw [List.flatMap_cons, List.length_append, ih, le_length_u64, List.length_cons]
          omega
    rw [hwidth]
    omega
  simp only [stored, hlen, words_flatMap_le, List.map_map]
  have hid : t.ofBits ∘ t.bits = id := funext t.ofBits_bits
  rw [hid, List.map_id]

/-- The segment of one byte page, sealed. -/
theorem seal_byteCalls (X : Crates) (stamp seal_stamp : Stamp) {n : ℕ} (hpos : n ≠ 0)
    (hn : n < 2 ^ 32) :
    Holds X stamp ((SegmentWriter.create X stamp).run X (byteCalls n)).1
        ((SegmentWriter.create X stamp).blocksOf X (byteCalls n)) ∧
      ∃ file, ((SegmentWriter.create X stamp).run X (byteCalls n)).1.sealFile X seal_stamp =
        .ok file := by
  have hall : ∀ ok ∈ ((SegmentWriter.create X stamp).run X (byteCalls n)).2, ok = true := by
    simp [run_byteCalls X stamp hpos hn]
  have h := (create_holds X stamp).run (unbrokenRun_of_ok hall)
  rw [List.nil_append] at h
  refine ⟨h, h.seal_ok seal_stamp ?_⟩
  have halign := align64_lt (blockHeaderSize + (n + 8))
  rw [h.bytes, footerBytes_length, h.pages_length, blocksOf_byteCalls X stamp hpos hn]
  simp only [pageBlocks, List.flatMap_cons, List.flatMap_nil, List.length_append,
    Block.encode_length, Block.payload, byteTable_length, bytePage_payload,
    SegmentHeader.encode_length, List.length_cons, List.length_nil]
  simp only [blockHeaderSize, segmentHeaderSize, pageDirEntrySize, maxFileSize] at *
  omega

/-- The blocks are within what a caller is allowed. -/
theorem byteCalls_small (X : Crates) (stamp : Stamp) {n : ℕ} (hpos : n ≠ 0)
    (hn : n + 8 < 2 ^ 32) :
    ∀ b ∈ (SegmentWriter.create X stamp).blocksOf X (byteCalls n), b.Named ∧ b.Small X := by
  have hname : (utf8 "").length = 0 := by decide
  rw [blocksOf_byteCalls X stamp hpos (by omega)]
  intro b hb
  rcases List.mem_cons.mp hb with rfl | hb
  · have htable := byteTable_length
    have hle := le_align64 (blockHeaderSize + (encodeTablePayload "" [("", .U8)]).length)
    have hsmall : (encodeTablePayload "" [("", .U8)]).length < 2 ^ 32 := by omega
    exact ⟨by simp [Block.Named, TableFits, hname], hsmall⟩
  · obtain rfl := List.mem_singleton.mp hb
    have hsmall : ((bytePage n).payload X).length < 2 ^ 32 := by
      rwa [bytePage_payload]
    exact ⟨trivial, hsmall⟩

end OnePage

/-- Segments whose calls all return `Ok` make the round trip exactly when the pages
fit the fields that describe them. -/
theorem round_trip_iff (hX : X.Lossless) {calls : List (Call × Option ℕ)}
    (hok : ∀ ok ∈ ((SegmentWriter.create X stamp).run X calls).2, ok = true)
    (hnamed : ∀ b ∈ (SegmentWriter.create X stamp).blocksOf X calls, b.Named)
    (hsmall : ∀ b ∈ (SegmentWriter.create X stamp).blocksOf X calls, b.Small X) {file : File}
    (hseal : ((SegmentWriter.create X stamp).run X calls).1.sealFile X seal_stamp = .ok file) :
    RoundTrip X ((SegmentWriter.create X stamp).blocksOf X calls)
        ((SegmentWriter.create X stamp).run X calls).1.file.bytes file.bytes ↔
      SegmentFits X ((SegmentWriter.create X stamp).blocksOf X calls) := by
  have h := (create_holds X stamp).run (unbrokenRun_of_ok hok)
  rw [List.nil_append] at h
  constructor
  · rintro ⟨r, s, -, hopen, -, hreads, -, -⟩
    exact h.fits_of_open hsmall hseal hopen hreads
  · intro hfits
    obtain ⟨r, hunsealed, hr, hrtables, hrpages⟩ :=
      h.open_unsealed hX hnamed hsmall hfits.exact
    obtain ⟨s, hsealed, hs, hstables, hspages⟩ := h.open_sealed hX hnamed hsmall hfits hseal
    exact ⟨r, s, hunsealed, hsealed, hr, hs, hrtables.trans hstables.symm,
      hrpages.trans hspages.symm⟩

theorem round_trip_three_bytes :
    ∃ file, ((SegmentWriter.create stored ⟨1, 2, 3⟩).run stored (byteCalls 3)).1.sealFile stored
        ⟨1, 2, 4⟩ = .ok file ∧
      RoundTrip stored ((SegmentWriter.create stored ⟨1, 2, 3⟩).blocksOf stored (byteCalls 3))
        ((SegmentWriter.create stored ⟨1, 2, 3⟩).run stored (byteCalls 3)).1.file.bytes
        file.bytes := by
  have hn : (3 : ℕ) ≠ 0 := by decide
  obtain ⟨-, file, hseal⟩ := seal_byteCalls stored ⟨1, 2, 3⟩ ⟨1, 2, 4⟩ hn (by decide)
  have hsmall := byteCalls_small stored ⟨1, 2, 3⟩ hn (by decide)
  have hfits : SegmentFits stored
      ((SegmentWriter.create stored ⟨1, 2, 3⟩).blocksOf stored (byteCalls 3)) := by
    rw [blocksOf_byteCalls stored _ hn (by decide)]
    refine ⟨?_, by simp [pageBlocks]⟩
    simp [Block.Exact, bytePage_rows, bytePage_payload]
  refine ⟨file, hseal, (round_trip_iff stored_lossless ?_ (fun b hb => (hsmall b hb).1)
    (fun b hb => (hsmall b hb).2) hseal).mpr hfits⟩
  rw [run_byteCalls stored _ hn (by decide)]
  simp

/-- A payload of 2^32 - 127 bytes is allowed, but the length of its block is 2^32
and the directory entry has 0 for it. -/
theorem round_trip_cut_length :
    (∀ ok ∈ ((SegmentWriter.create stored ⟨1, 2, 3⟩).run stored
        (byteCalls (2 ^ 32 - 135))).2, ok = true) ∧
      (∀ b ∈ (SegmentWriter.create stored ⟨1, 2, 3⟩).blocksOf stored (byteCalls (2 ^ 32 - 135)),
        b.Named ∧ b.Small stored) ∧
      ∃ file, ((SegmentWriter.create stored ⟨1, 2, 3⟩).run stored
          (byteCalls (2 ^ 32 - 135))).1.sealFile stored ⟨1, 2, 4⟩ = .ok file ∧
        ¬ RoundTrip stored
          ((SegmentWriter.create stored ⟨1, 2, 3⟩).blocksOf stored (byteCalls (2 ^ 32 - 135)))
          ((SegmentWriter.create stored ⟨1, 2, 3⟩).run stored
            (byteCalls (2 ^ 32 - 135))).1.file.bytes file.bytes := by
  generalize hrows : 2 ^ 32 - 135 = n
  have hn : n ≠ 0 := by omega
  obtain ⟨h, file, hseal⟩ := seal_byteCalls stored ⟨1, 2, 3⟩ ⟨1, 2, 4⟩ hn (by omega)
  refine ⟨?_, byteCalls_small stored ⟨1, 2, 3⟩ hn (by omega), file, hseal, ?_⟩
  · rw [run_byteCalls stored _ hn (by omega)]
    simp
  · rintro ⟨r, s, -, hopen, -, hreads, -, -⟩
    have hsmall := byteCalls_small stored ⟨1, 2, 3⟩ hn (by omega)
    have hexact := (h.fits_of_open (fun b hb => (hsmall b hb).2) hseal hopen hreads).exact
      (.page (bytePage n) (tsMinInit, tsMaxInit))
      (by simp [blocksOf_byteCalls stored _ hn (by omega : n < 2 ^ 32)])
    have hlen := hexact.2
    rw [bytePage_payload] at hlen
    omega

end Probing.Memc
