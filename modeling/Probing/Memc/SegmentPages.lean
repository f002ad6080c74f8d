import Mathlib.Data.List.Forall2
import Probing.Memc.SegmentOpen

/-!
# Reading the pages of an opened segment

An opened segment reads a list of blocks when it has their table definitions,
one directory entry that describes each page, and decodes each page to the
columns that were appended.
-/

namespace Probing.Memc

open Probing.Core
open Probing.Memt (DType)

/-- The pages among blocks that lie one after the other from `off` on. -/
def pageBlocks (X : Crates) (off : ℕ) : List Block → List (ℕ × Append × (Int64 × Int64))
  | [] => []
  | .table id name cols :: blocks =>
      pageBlocks X (off + ((Block.table id name cols).encode X).length) blocks
  | .page a ts :: blocks =>
      (off, a, ts) :: pageBlocks X (off + ((Block.page a ts).encode X).length) blocks

/-- A directory entry tells the truth about a page: no count or length is cut. -/
structure Describes (X : Crates) (e : ℕ × Append × (Int64 × Int64)) (p : PageMeta) : Prop where
  tableId : p.tableId = e.2.1.tableId
  rowCount : p.rowCount.toNat = e.2.1.rowCount
  colCount : p.colCount.toNat = e.2.1.columns.length
  tsMin : p.tsMin = e.2.2.1
  tsMax : p.tsMax = e.2.2.2
  blockOff : p.blockOff.toNat = e.1
  blockLen : p.blockLen.toNat = ((Block.page e.2.1 e.2.2).encode X).length
  sourceGen : p.sourceGen = e.2.1.sourceGen
  sourceChunk : p.sourceChunk = e.2.1.sourceChunk
  sourceInstance : p.sourceInstance = e.2.1.sourceInstance

/-- The reader has exactly the table definitions and pages of the blocks. -/
structure Reads (X : Crates) (blocks : List Block) (r : SegmentReader) : Prop where
  tables : r.tables = tablesOf (fun _ => none) blocks
  pages : List.Forall₂ (Describes X) (pageBlocks X segmentHeaderSize blocks) r.pages
  columns : ∀ (i : ℕ) e, (pageBlocks X segmentHeaderSize blocks)[i]? = some e →
    r.readPage X i = .ok e.2.1.columns

/-- The counts and the block length of a page fit their 32-bit fields. -/
def Block.Exact (X : Crates) : Block → Prop
  | .table _ _ _ => True
  | .page a _ => a.rowCount < 2 ^ 32 ∧ (a.payload X).length ≤ 2 ^ 32 - 128

variable {X : Crates} {blocks : List Block}

theorem pagesOf_eq_map (off : ℕ) (blocks : List Block) :
    pagesOf X off blocks = (pageBlocks X off blocks).map fun e =>
      pageEntry e.2.1 e.2.2 e.1 ((Block.page e.2.1 e.2.2).encode X).length := by
  induction blocks generalizing off with
  | nil => rfl
  | cons b blocks ih =>
      cases b with
      | table id name cols => exact ih _
      | page a ts =>
          rw [pagesOf, pageBlocks, List.map_cons, ih, Block.metas_page]
          rfl

/-- A page block lies where it is placed. -/
theorem split_of_pageBlocks {off : ℕ} {e : ℕ × Append × (Int64 × Int64)}
    (h : e ∈ pageBlocks X off blocks) :
    ∃ pre post, blocks.flatMap (Block.encode X) =
        pre ++ ((Block.page e.2.1 e.2.2).encode X ++ post) ∧
      e.1 = off + pre.length ∧ Block.page e.2.1 e.2.2 ∈ blocks := by
  induction blocks generalizing off with
  | nil => cases h
  | cons b blocks ih =>
      have tail (h : e ∈ pageBlocks X (off + (b.encode X).length) blocks) :
          ∃ pre post, (b :: blocks).flatMap (Block.encode X) =
              pre ++ ((Block.page e.2.1 e.2.2).encode X ++ post) ∧
            e.1 = off + pre.length ∧ Block.page e.2.1 e.2.2 ∈ b :: blocks := by
        obtain ⟨pre, post, hlog, hoff, hmem⟩ := ih h
        refine ⟨b.encode X ++ pre, post, ?_, ?_, List.mem_cons_of_mem b hmem⟩
        · rw [List.flatMap_cons, hlog, List.append_assoc]
        · rw [hoff, List.length_append, Nat.add_assoc]
      cases b with
      | table id name cols => exact tail h
      | page a ts =>
          rcases List.mem_cons.mp h with rfl | h
          · exact ⟨[], blocks.flatMap (Block.encode X), rfl, rfl, by simp⟩
          · exact tail h

/-- Every page is placed somewhere. -/
theorem mem_pageBlocks {a : Append} {ts : Int64 × Int64} (h : Block.page a ts ∈ blocks) (off : ℕ) :
    ∃ pos, (pos, a, ts) ∈ pageBlocks X off blocks := by
  induction blocks generalizing off with
  | nil => cases h
  | cons b blocks ih =>
      rcases List.mem_cons.mp h with rfl | hmem
      · exact ⟨off, by simp [pageBlocks]⟩
      · obtain ⟨pos, hpos⟩ := ih hmem (off + (b.encode X).length)
        cases b with
        | table id name cols => exact ⟨pos, hpos⟩
        | page a' ts' => exact ⟨pos, List.mem_cons_of_mem _ hpos⟩

theorem encodeColumn_length {col : ColumnData} {sub : Bytes} (h : encodeColumn X col = .ok sub) :
    8 ≤ sub.length := by
  cases hp : columnPayload X col with
  | error e => simp [encodeColumn, hp, Except.map] at h
  | ok p =>
      simp only [encodeColumn, hp, Except.map, Except.ok.injEq] at h
      subst h
      simp

theorem encodeColumns_cons {col : ColumnData} {columns : List ColumnData} {payload : Bytes}
    (h : encodeColumns X (col :: columns) = .ok payload) :
    ∃ sub rest, encodeColumn X col = .ok sub ∧ encodeColumns X columns = .ok rest ∧
      payload = sub ++ rest := by
  rw [encodeColumns] at h
  cases hcol : encodeColumn X col with
  | error e => simp [hcol] at h
  | ok sub =>
      simp only [hcol] at h
      cases hrest : encodeColumns X columns with
      | error e => simp [hrest, Except.map] at h
      | ok rest => exact ⟨sub, rest, rfl, rfl, (Except.ok.inj (hrest ▸ h)).symm⟩

theorem columns_length_le {columns : List ColumnData} {payload : Bytes}
    (h : encodeColumns X columns = .ok payload) : 8 * columns.length ≤ payload.length := by
  induction columns generalizing payload with
  | nil => simp
  | cons col columns ih =>
      obtain ⟨sub, rest, hcol, hrest, rfl⟩ := encodeColumns_cons h
      have hsub := encodeColumn_length hcol
      have hlen := ih hrest
      simp only [List.length_cons, List.length_append]
      omega

/-- The columns of a payload below 4 GiB are read back. -/
theorem readColumns_encode (hX : X.Lossless) {columns : List ColumnData} {payload : Bytes} {rc : ℕ}
    (h : encodeColumns X columns = .ok payload) (hlen : payload.length < 2 ^ 32)
    (hrows : ∀ col ∈ columns, col.len = rc) :
    SegmentReader.readColumns X rc columns.length payload = .ok columns := by
  induction columns generalizing payload with
  | nil =>
      obtain rfl := Except.ok.inj h
      rfl
  | cons col columns ih =>
      obtain ⟨sub, rest, hcol, hrest, rfl⟩ := encodeColumns_cons h
      rw [List.length_append] at hlen
      have hrc : col.len = rc := hrows col (by simp)
      have hdecode := decodeColumn_encode hX hcol (by omega) rest
      rw [hrc] at hdecode
      have htail := ih hrest (by omega) fun c hc => hrows c (List.mem_cons_of_mem col hc)
      rw [List.length_cons, SegmentReader.readColumns, hdecode]
      simp only [hrc, ne_eq, not_true_eq_false, if_false, List.drop_left, htail]
      rfl

/-- The block length fits 32 bits exactly below 128 bytes of padding and header. -/
theorem align64_lt_iff (n : ℕ) : align64 (blockHeaderSize + n) < 2 ^ 32 ↔ n ≤ 2 ^ 32 - 128 := by
  unfold align64 blockHeaderSize
  omega

theorem describes_entry {e : ℕ × Append × (Int64 × Int64)}
    (hexact : (Block.page e.2.1 e.2.2).Exact X) (hvalid : (Block.page e.2.1 e.2.2).Valid X)
    (hoff : e.1 < 2 ^ 64) :
    Describes X e (pageEntry e.2.1 e.2.2 e.1 ((Block.page e.2.1 e.2.2).encode X).length) where
  tableId := rfl
  rowCount := UInt32.toNat_ofNat_of_lt' hexact.1
  colCount := by
    have hcols := columns_length_le hvalid.2.2
    have hpayload := hexact.2
    exact UInt32.toNat_ofNat_of_lt' (by simp only [UInt32.size]; omega)
  tsMin := rfl
  tsMax := rfl
  blockOff := UInt64.toNat_ofNat_of_lt' hoff
  blockLen := by
    rw [Block.encode_length]
    exact UInt32.toNat_ofNat_of_lt' ((align64_lt_iff _).mpr hexact.2)
  sourceGen := rfl
  sourceChunk := rfl
  sourceInstance := rfl

theorem exact_of_describes {e : ℕ × Append × (Int64 × Int64)} {p : PageMeta}
    (h : Describes X e p) : (Block.page e.2.1 e.2.2).Exact X := by
  have hrows := p.rowCount.toNat_lt
  have hlen := p.blockLen.toNat_lt
  rw [h.rowCount] at hrows
  rw [h.blockLen, Block.encode_length] at hlen
  exact ⟨hrows, (align64_lt_iff _).mp hlen⟩

/-- Pages that are read fit the fields of their directory entries. -/
theorem Reads.exact {r : SegmentReader} (h : Reads X blocks r) : ∀ b ∈ blocks, b.Exact X := by
  have hall : ∀ e ∈ pageBlocks X segmentHeaderSize blocks,
      (Block.page e.2.1 e.2.2).Exact X :=
    ((List.forall₂_and_left _ _).mp (h.pages.imp fun e p hp => ⟨exact_of_describes hp, hp⟩)).1
  intro b hb
  cases b with
  | table id name cols => trivial
  | page a ts =>
      obtain ⟨pos, hpos⟩ := mem_pageBlocks hb segmentHeaderSize
      exact hall _ hpos

/-- A page whose directory entry is the one of its block is decoded to its
columns. -/
theorem readPage_entry (hX : X.Lossless) {r : SegmentReader} {i : ℕ} {a : Append}
    {ts : Int64 × Int64} {pre post : Bytes}
    (hmmap : r.mmap = pre ++ ((Block.page a ts).encode X ++ post))
    (hpage : r.pages[i]? =
      some (pageEntry a ts pre.length ((Block.page a ts).encode X).length))
    (hmax : r.mmap.length < 2 ^ 64) (hvalid : (Block.page a ts).Valid X)
    (hexact : (Block.page a ts).Exact X) : r.readPage X i = .ok a.columns := by
  have hpayload := hexact.2
  have hsmall : (Block.page a ts).Small X := by
    have h : (a.payload X).length < 2 ^ 32 := by omega
    exact h
  have hcovers := Block.header_covers hsmall
  have hlen : ((Block.page a ts).encode X).length =
      align64 (blockHeaderSize + (a.payload X).length) := Block.encode_length _
  have hle := le_align64 (blockHeaderSize + (a.payload X).length)
  have htotal : r.mmap.length =
      pre.length + align64 (blockHeaderSize + (a.payload X).length) + post.length := by
    rw [hmmap, List.length_append, List.length_append, hlen, Nat.add_assoc]
  have hd : Describes X (pre.length, a, ts) (pageEntry a ts pre.length _) :=
    describes_entry hexact hvalid (by dsimp only; omega)
  have hdecode : BlockHeader.decode X (r.mmap.drop pre.length) =
      some ((Block.page a ts).header X) := by
    rw [hmmap, List.drop_left, Block.encode, blockBytes, List.append_assoc]
    exact BlockHeader.decode_encode X _ hcovers.magic
  have hslice : slice r.mmap (pre.length + blockHeaderSize) (a.payload X).length =
      a.payload X := by
    rw [hmmap, slice_length_add]
    exact slice_block_payload post
  have hplen : ((Block.page a ts).header X).payloadLen.toNat = (a.payload X).length :=
    hcovers.payloadLen
  have hxxh : ((Block.page a ts).header X).payloadXxh = X.xxh32 (a.payload X) :=
    hcovers.payloadXxh
  have hrow : ((Block.page a ts).header X).rowCount.toNat = a.rowCount := hd.rowCount
  have hcol : ((Block.page a ts).header X).colCount.toNat = a.columns.length := hd.colCount
  have hblock_len := hd.blockLen
  have hoff := hd.blockOff
  rw [hlen] at hblock_len hoff hpage
  have hcolumns := readColumns_encode hX hvalid.2.2 hsmall hvalid.2.1
  unfold SegmentReader.readPage
  rw [hpage]
  simp only [hoff, hdecode, hplen, hslice, hxxh, hblock_len]
  rw [if_neg (by omega), if_neg (by omega), if_neg (by simp [Block.header, pageHeader]),
    if_neg (by simp [Block.header, pageHeader, pageEntry]), if_neg (by omega),
    if_neg (by omega), if_neg (by simp), hrow, hcol]
  exact hcolumns

/-- A reader with the table definitions and the directory of the blocks reads
them, if the lengths of the pages fit their fields. -/
theorem reads_of_pages (hX : X.Lossless) {r : SegmentReader} {head post : Bytes}
    (hmmap : r.mmap = head ++ (blocks.flatMap (Block.encode X) ++ post))
    (hhead : head.length = segmentHeaderSize) (hmax : r.mmap.length < 2 ^ 64)
    (htables : r.tables = tablesOf (fun _ => none) blocks)
    (hpages : r.pages = pagesOf X segmentHeaderSize blocks)
    (hvalid : ∀ b ∈ blocks, b.Valid X) (hexact : ∀ b ∈ blocks, b.Exact X) : Reads X blocks r := by
  have hplace : ∀ e ∈ pageBlocks X segmentHeaderSize blocks,
      ∃ pre post, r.mmap = pre ++ ((Block.page e.2.1 e.2.2).encode X ++ post) ∧
        e.1 = pre.length ∧ Block.page e.2.1 e.2.2 ∈ blocks := by
    intro e he
    obtain ⟨pre, post', hlog, hoff, hmem⟩ := split_of_pageBlocks he
    refine ⟨head ++ pre, post' ++ post, ?_, ?_, hmem⟩
    · rw [hmmap, hlog]
      simp only [List.append_assoc]
    · rw [hoff, List.length_append, hhead]
  rw [pagesOf_eq_map] at hpages
  refine ⟨htables, ?_, ?_⟩
  · rw [hpages, List.forall₂_map_right_iff]
    refine List.forall₂_same.mpr fun e he => ?_
    obtain ⟨pre, post', hlog, hoff, hmem⟩ := hplace e he
    refine describes_entry (hexact _ hmem) (hvalid _ hmem) ?_
    rw [hlog, List.length_append] at hmax
    omega
  · intro i e he
    obtain ⟨pre, post', hlog, hoff, hmem⟩ := hplace e (List.mem_of_getElem? he)
    refine readPage_entry hX hlog ?_ hmax (hvalid _ hmem) (hexact _ hmem)
    rw [hpages, List.getElem?_map, he, Option.map_some, hoff]

end Probing.Memc
