import Probing.Memt.Schema

/-!
# Layout of a segment file

The segment header, the header of a table or page block, and the payload of a
table definition. All words are little-endian.
-/

namespace Probing.Memc

open Probing.Core
open Probing.Memt (DType)

/-- Numeric types of the Pco codec; a float is its bit pattern. -/
inductive Number where
  | I32
  | I64
  | F32
  | F64
  | U32
  | U64
  deriving DecidableEq

def Number.Repr : Number → Type
  | I32 => Int32
  | I64 => Int64
  | F32 | U32 => UInt32
  | F64 | U64 => UInt64

/-- The hash and the compressor the format takes from other packages. -/
structure Crates where
  xxh364 : Bytes → UInt64
  simplerCompress : (t : Number) → List t.Repr → Except String Bytes
  simpleDecompress : (t : Number) → Bytes → Except String (List t.Repr)

/-- What the compressor promises. -/
def Crates.Lossless (X : Crates) : Prop :=
  ∀ t nums bytes, X.simplerCompress t nums = .ok bytes → X.simpleDecompress t bytes = .ok nums

/-- Low 32 bits of xxh3-64. -/
def Crates.xxh32 (X : Crates) (bytes : Bytes) : UInt32 := (X.xxh364 bytes).toUInt32

def magicMemc : UInt32 := getLe UInt32 [0x4D, 0x45, 0x4D, 0x43] 0
def magicTableBlock : UInt32 := getLe UInt32 [0x4D, 0x43, 0x54, 0x42] 0
def magicPageBlock : UInt32 := getLe UInt32 [0x4D, 0x43, 0x50, 0x47] 0
def magicFooter : UInt32 := getLe UInt32 [0x4D, 0x43, 0x46, 0x54] 0
def versionMemc : UInt16 := 2
def byteOrderMark : Bytes := [0x01, 0x02]
@[simp] theorem byteOrderMark_length : byteOrderMark.length = 2 := by
  simp [byteOrderMark]

def segmentHeaderSize : ℕ := 64
def blockHeaderSize : ℕ := 64
def pageDirEntrySize : ℕ := 64
def flagSealed : UInt16 := 1
def tsMinInit : Int64 := Int64.maxValue
def tsMaxInit : Int64 := Int64.minValue
def sourceChunkNone : UInt32 := 0xFFFFFFFF

/-- `(n + 63) & !63`. -/
def align64 (n : ℕ) : ℕ := (n + 63) / 64 * 64

theorem le_align64 (n : ℕ) : n ≤ align64 n := by
  unfold align64
  omega

theorem align64_lt (n : ℕ) : align64 n < n + 64 := by
  unfold align64
  omega

structure SegmentHeader where
  flags : UInt16
  writerPid : UInt32
  writerStart : UInt64
  createdUnixMs : UInt64
  footerOff : UInt64
  tsMin : Int64
  tsMax : Int64
  pageCount : UInt32
  deriving DecidableEq

namespace SegmentHeader

def isSealed (h : SegmentHeader) : Bool := h.flags &&& flagSealed != 0

/-- The bytes below the checksum. -/
def fields (h : SegmentHeader) : Bytes :=
  le magicMemc ++ (le versionMemc ++ (le (64 : UInt16) ++ (byteOrderMark ++ (le h.flags ++
    (le h.writerPid ++ (le h.writerStart ++ (le h.createdUnixMs ++ (le h.footerOff ++
    (le h.tsMin ++ (le h.tsMax ++ le h.pageCount))))))))))

def encode (X : Crates) (h : SegmentHeader) : Bytes := h.fields ++ le (X.xxh32 h.fields)

def decode (X : Crates) (buf : Bytes) : Except String SegmentHeader :=
  if buf.length < segmentHeaderSize then .error "buffer too small for MEMC header"
  else if getLe UInt32 buf 0 ≠ magicMemc then .error "invalid MEMC magic"
  else if getLe UInt16 buf 4 ≠ versionMemc then .error "unsupported MEMC version (expected v2)"
  else if (getLe UInt16 buf 6).toNat ≠ segmentHeaderSize then .error "invalid MEMC header size"
  else if slice buf 8 2 ≠ byteOrderMark then .error "byte order mismatch"
  else if getLe UInt32 buf 60 ≠ X.xxh32 (slice buf 0 60) then
    .error "MEMC header checksum mismatch"
  else .ok {
    flags := getLe UInt16 buf 10
    writerPid := getLe UInt32 buf 12
    writerStart := getLe UInt64 buf 16
    createdUnixMs := getLe UInt64 buf 24
    footerOff := getLe UInt64 buf 32
    tsMin := getLe Int64 buf 40
    tsMax := getLe Int64 buf 48
    pageCount := getLe UInt32 buf 56 }

@[simp] theorem fields_length (h : SegmentHeader) : h.fields.length = 60 := rfl

@[simp] theorem encode_length (X : Crates) (h : SegmentHeader) :
    (h.encode X).length = segmentHeaderSize := rfl

theorem decode_encode (X : Crates) (h : SegmentHeader) (rest : Bytes) :
    decode X (h.encode X ++ rest) = .ok h := by
  have hsplit : h.encode X ++ rest = h.fields ++ (le (X.xxh32 h.fields) ++ rest) :=
    List.append_assoc _ _ _
  have hbody : slice (h.encode X ++ rest) 0 60 = h.fields := by
    rw [hsplit]
    exact slice_zero_append h.fields_length
  have hxxh : getLe UInt32 (h.encode X ++ rest) 60 = X.xxh32 h.fields := by
    rw [hsplit, getLe_append_right h.fields_length.le]
    exact getLe_le_append _ rest
  unfold decode
  rw [if_neg (by simp), hbody, hxxh, hsplit]
  generalize le (X.xxh32 h.fields) ++ rest = tail
  simp [fields, getLe_append_right, slice_append_right, LeWord.width, slice_zero_append,
    segmentHeaderSize]

/-- Only the 64 bytes of the header count. -/
theorem decode_append (X : Crates) {head : Bytes} (hhead : head.length = segmentHeaderSize)
    (rest : Bytes) : decode X (head ++ rest) = decode X head := by
  have hlong : ¬ (head ++ rest).length < segmentHeaderSize := by
    rw [List.length_append]
    omega
  have hshort : ¬ head.length < segmentHeaderSize := by omega
  simp only [segmentHeaderSize] at hhead
  have hbody : slice (head ++ rest) 0 60 = slice head 0 60 := slice_append_left (by omega)
  have hmark : slice (head ++ rest) 8 2 = slice head 8 2 := slice_append_left (by omega)
  unfold decode
  rw [if_neg hlong, if_neg hshort, hbody, hmark]
  simp (disch := simp only [LeWord.width]; omega) only [getLe_append_left]

theorem flags_of_decode {X : Crates} {buf : Bytes} {h : SegmentHeader}
    (hdecode : decode X buf = .ok h) : h.flags = getLe UInt16 buf 10 := by
  unfold decode at hdecode
  split_ifs at hdecode
  rw [← Except.ok.inj hdecode]

end SegmentHeader

/-- Header shared by table-definition and page blocks. -/
structure BlockHeader where
  magic : UInt32
  tableId : UInt32
  rowCount : UInt32
  colCount : UInt32
  tsMin : Int64
  tsMax : Int64
  sourceGen : UInt64
  payloadLen : UInt32
  payloadXxh : UInt32
  sourceChunk : UInt32
  sourceInstance : UInt64
  deriving DecidableEq

namespace BlockHeader

/-- The bytes below the checksum. -/
def fields (h : BlockHeader) : Bytes :=
  le h.magic ++ (le h.tableId ++ (le h.rowCount ++ (le h.colCount ++ (le h.tsMin ++
    (le h.tsMax ++ (le h.sourceGen ++ (le h.payloadLen ++ (le h.payloadXxh ++
    (le h.sourceChunk ++ le h.sourceInstance)))))))))

def encode (X : Crates) (h : BlockHeader) : Bytes := h.fields ++ le (X.xxh32 h.fields)

def decode (X : Crates) (buf : Bytes) : Option BlockHeader :=
  if buf.length < blockHeaderSize then none
  else if getLe UInt32 buf 0 ≠ magicTableBlock ∧ getLe UInt32 buf 0 ≠ magicPageBlock then none
  else if getLe UInt32 buf 60 ≠ X.xxh32 (slice buf 0 60) then none
  else some {
    magic := getLe UInt32 buf 0
    tableId := getLe UInt32 buf 4
    rowCount := getLe UInt32 buf 8
    colCount := getLe UInt32 buf 12
    tsMin := getLe Int64 buf 16
    tsMax := getLe Int64 buf 24
    sourceGen := getLe UInt64 buf 32
    payloadLen := getLe UInt32 buf 40
    payloadXxh := getLe UInt32 buf 44
    sourceChunk := getLe UInt32 buf 48
    sourceInstance := getLe UInt64 buf 52 }

@[simp] theorem fields_length (h : BlockHeader) : h.fields.length = 60 := rfl

@[simp] theorem encode_length (X : Crates) (h : BlockHeader) :
    (h.encode X).length = blockHeaderSize := rfl

theorem decode_encode (X : Crates) {h : BlockHeader} (rest : Bytes)
    (hmagic : h.magic = magicTableBlock ∨ h.magic = magicPageBlock) :
    decode X (h.encode X ++ rest) = some h := by
  have hsplit : h.encode X ++ rest = h.fields ++ (le (X.xxh32 h.fields) ++ rest) :=
    List.append_assoc _ _ _
  have hbody : slice (h.encode X ++ rest) 0 60 = h.fields := by
    rw [hsplit]
    exact slice_zero_append h.fields_length
  have hxxh : getLe UInt32 (h.encode X ++ rest) 60 = X.xxh32 h.fields := by
    rw [hsplit, getLe_append_right h.fields_length.le]
    exact getLe_le_append _ rest
  have hhead : getLe UInt32 (h.encode X ++ rest) 0 = h.magic := by
    rw [hsplit, fields, List.append_assoc]
    exact getLe_le_append _ _
  unfold decode
  rw [if_neg (by simp), hbody, hxxh, hhead, hsplit, if_neg (by tauto), if_neg (by simp)]
  generalize le (X.xxh32 h.fields) ++ rest = tail
  simp [fields, getLe_append_right, LeWord.width]

/-- Only the 64 bytes of the header count. -/
theorem decode_take (X : Crates) {buf : Bytes} {n : ℕ} (hn : blockHeaderSize ≤ n)
    (hlen : blockHeaderSize ≤ buf.length) : decode X (buf.take n) = decode X buf := by
  have hshort : ¬ (buf.take n).length < blockHeaderSize := by
    rw [List.length_take]
    omega
  have hlong : ¬ buf.length < blockHeaderSize := by omega
  simp only [blockHeaderSize] at hn
  have hbody : slice (buf.take n) 0 60 = slice buf 0 60 := slice_take (by omega)
  unfold decode
  rw [if_neg hshort, if_neg hlong, hbody]
  simp (disch := simp only [LeWord.width]; omega) only [getLe_take]

/-- A block header with another magic word is refused. -/
theorem decode_of_magic (X : Crates) {buf : Bytes}
    (htable : getLe UInt32 buf 0 ≠ magicTableBlock)
    (hpage : getLe UInt32 buf 0 ≠ magicPageBlock) : decode X buf = none := by
  unfold decode
  split_ifs with hlen hmagic
  · rfl
  · rfl
  · exact absurd ⟨htable, hpage⟩ hmagic
  · exact absurd ⟨htable, hpage⟩ hmagic

end BlockHeader

/-- Index of the designated timestamp column. -/
def tsCol (cols : List (String × DType)) : Option ℕ :=
  cols.findIdx? fun c => c.2 = .I64 ∧ c.1 ∈ Probing.Memt.tsColNames

/-- In-memory table definition. -/
structure TableDef where
  id : UInt32
  name : String
  cols : List (String × DType)
  tsCol : Option ℕ
  deriving DecidableEq

/-- One column of a table payload: `[u8 dtype][u8 0][u16 name_len][name]`. -/
def encodeCol (c : String × DType) : Bytes :=
  le c.2.tag.toUInt8 ++ (le (0 : UInt8) ++ (le (UInt16.ofNat (utf8 c.1).length) ++ utf8 c.1))

/-- `[u16 name_len][u16 col_count][name]`, then the columns. -/
def encodeTablePayload (name : String) (cols : List (String × DType)) : Bytes :=
  le (UInt16.ofNat (utf8 name).length) ++ (le (UInt16.ofNat cols.length) ++ (utf8 name ++
    cols.flatMap encodeCol))

/-- The column loop of `decode_table_payload`, at `off`. -/
def decodeCols (payload : Bytes) : ℕ → ℕ → Except String (List (String × DType))
  | 0, _ => .ok []
  | count + 1, off =>
      if payload.length < off + 4 then .error "column entry out of bounds"
      else match DType.fromU32 (getLe UInt8 payload off).toUInt32 with
        | none => .error "invalid column dtype"
        | some dtype =>
            let cname_len := (getLe UInt16 payload (off + 2)).toNat
            if payload.length < off + 4 + cname_len then .error "column name out of bounds"
            else match fromUtf8 (slice payload (off + 4) cname_len) with
              | none => .error "column name not utf-8"
              | some cname =>
                  (decodeCols payload count (off + 4 + cname_len)).map ((cname, dtype) :: ·)

def decodeTablePayload (id : UInt32) (payload : Bytes) : Except String TableDef :=
  if payload.length < 4 then .error "table payload too small"
  else
    let name_len := (getLe UInt16 payload 0).toNat
    let colCount := (getLe UInt16 payload 2).toNat
    if payload.length < 4 + name_len then .error "table name out of bounds"
    else match fromUtf8 (slice payload 4 name_len) with
      | none => .error "table name not utf-8"
      | some name => (decodeCols payload colCount (4 + name_len)).map fun cols =>
          ⟨id, name, cols, tsCol cols⟩

/-- Names and column counts that the 16-bit fields of the payload hold. -/
def TableFits (name : String) (cols : List (String × DType)) : Prop :=
  (utf8 name).length < 2 ^ 16 ∧ cols.length < 2 ^ 16 ∧ ∀ c ∈ cols, (utf8 c.1).length < 2 ^ 16

/-- One column is read back, at any offset. -/
theorem decodeCols_step (pre post : Bytes) {c : String × DType} (count : ℕ)
    (hc : (utf8 c.1).length < 2 ^ 16) :
    decodeCols (pre ++ (encodeCol c ++ post)) (count + 1) pre.length =
      (decodeCols (pre ++ (encodeCol c ++ post)) count
        (pre ++ encodeCol c).length).map (c :: ·) := by
  have htag : getLe UInt8 (pre ++ (encodeCol c ++ post)) pre.length = c.2.tag.toUInt8 := by
    rw [getLe_append_right le_rfl, Nat.sub_self, encodeCol, List.append_assoc]
    exact getLe_le_append _ _
  have hdtype : DType.fromU32 c.2.tag.toUInt8.toUInt32 = some c.2 := by
    cases c.2 <;> rfl
  have hlen : (getLe UInt16 (pre ++ (encodeCol c ++ post)) (pre.length + 2)).toNat =
      (utf8 c.1).length := by
    rw [getLe_length_add]
    simp [encodeCol, getLe_append_right, LeWord.width]
    omega
  have hname : slice (pre ++ (encodeCol c ++ post)) (pre.length + 4) (utf8 c.1).length =
      utf8 c.1 := by
    rw [slice_length_add]
    simp [encodeCol, slice_append_right, LeWord.width, slice_zero_append]
  have hcol : (encodeCol c).length = 4 + (utf8 c.1).length := by
    simp [encodeCol, LeWord.width]
    omega
  rw [decodeCols, htag, hdtype]
  simp only [hlen, hname, fromUtf8_utf8, List.length_append, hcol]
  rw [if_neg (by omega), if_neg (by omega), Nat.add_assoc]

theorem decodeCols_encode (pre post : Bytes) {cols : List (String × DType)}
    (hcols : ∀ c ∈ cols, (utf8 c.1).length < 2 ^ 16) :
    decodeCols (pre ++ (cols.flatMap encodeCol ++ post)) cols.length pre.length = .ok cols := by
  induction cols generalizing pre with
  | nil => rfl
  | cons c cols ih =>
      have hc : (utf8 c.1).length < 2 ^ 16 := hcols c (by simp)
      have hrest := ih (pre ++ encodeCol c) fun c hc => hcols c (by simp [hc])
      rw [List.flatMap_cons, List.append_assoc, List.length_cons, decodeCols_step _ _ _ hc]
      rw [List.append_assoc] at hrest
      rw [hrest]
      rfl

/-- A table definition that fits its fields is read back. -/
theorem decodeTablePayload_encode (id : UInt32) {name : String} {cols : List (String × DType)}
    (h : TableFits name cols) :
    decodeTablePayload id (encodeTablePayload name cols) = .ok ⟨id, name, cols, tsCol cols⟩ := by
  obtain ⟨hname, hcount, hcols⟩ := h
  have hlen : (getLe UInt16 (encodeTablePayload name cols) 0).toNat = (utf8 name).length := by
    rw [encodeTablePayload, getLe_le_append]
    simp
    omega
  have hcol_count : (getLe UInt16 (encodeTablePayload name cols) 2).toNat = cols.length := by
    simp [encodeTablePayload, getLe_append_right, LeWord.width]
    omega
  have hslice : slice (encodeTablePayload name cols) 4 (utf8 name).length = utf8 name := by
    simp [encodeTablePayload, slice_append_right, LeWord.width, slice_zero_append]
  have htotal : 4 + (utf8 name).length ≤ (encodeTablePayload name cols).length := by
    simp [encodeTablePayload, LeWord.width]
    omega
  have hdecode : decodeCols (encodeTablePayload name cols) cols.length
      (4 + (utf8 name).length) = .ok cols := by
    have := decodeCols_encode (le (UInt16.ofNat (utf8 name).length) ++
      (le (UInt16.ofNat cols.length) ++ utf8 name)) [] hcols
    simpa [encodeTablePayload, LeWord.width, ← Nat.add_assoc] using this
  unfold decodeTablePayload
  simp only [hlen, hcol_count, hslice, fromUtf8_utf8, hdecode]
  rw [if_neg (by omega), if_neg (by omega)]
  rfl

/-- Whatever is decoded has names and a column count below 65536. -/
theorem decodeCols_fits {payload : Bytes} {count off : ℕ} {cols : List (String × DType)}
    (h : decodeCols payload count off = .ok cols) :
    cols.length = count ∧ ∀ c ∈ cols, (utf8 c.1).length < 2 ^ 16 := by
  induction count generalizing off cols with
  | zero =>
      obtain rfl := Except.ok.inj h
      simp
  | succ count ih =>
      simp only [decodeCols] at h
      cases hdtype : DType.fromU32 (getLe UInt8 payload off).toUInt32 with
      | none =>
          simp only [hdtype] at h
          split_ifs at h
      | some dtype =>
          simp only [hdtype] at h
          split_ifs at h
          cases hname : fromUtf8 (slice payload (off + 4)
              (getLe UInt16 payload (off + 2)).toNat) with
          | none => simp [hname] at h
          | some cname =>
              simp only [hname] at h
              cases hrest : decodeCols payload count
                  (off + 4 + (getLe UInt16 payload (off + 2)).toNat) with
              | error e => simp [hrest, Except.map] at h
              | ok rest =>
                  simp only [hrest, Except.map, Except.ok.injEq] at h
                  subst h
                  obtain ⟨hlen, hfits⟩ := ih hrest
                  refine ⟨by simp [hlen], fun c hc => ?_⟩
                  rcases List.mem_cons.mp hc with rfl | hc
                  · have hlt := (getLe UInt16 payload (off + 2)).toNat_lt
                    rw [utf8_of_fromUtf8 hname, slice_length]
                    omega
                  · exact hfits c hc

theorem decodeTablePayload_fits {id : UInt32} {payload : Bytes} {d : TableDef}
    (h : decodeTablePayload id payload = .ok d) : TableFits d.name d.cols := by
  simp only [decodeTablePayload] at h
  split_ifs at h
  cases hname : fromUtf8 (slice payload 4 (getLe UInt16 payload 0).toNat) with
  | none => simp [hname] at h
  | some name =>
      simp only [hname] at h
      cases hcols : decodeCols payload (getLe UInt16 payload 2).toNat
          (4 + (getLe UInt16 payload 0).toNat) with
      | error e => simp [hcols, Except.map] at h
      | ok cols =>
          simp only [hcols, Except.map, Except.ok.injEq] at h
          subst h
          obtain ⟨hcount, hfits⟩ := decodeCols_fits hcols
          refine ⟨?_, ?_, hfits⟩
          · have hlt := (getLe UInt16 payload 0).toNat_lt
            rw [utf8_of_fromUtf8 hname, slice_length]
            omega
          · have hlt := (getLe UInt16 payload 2).toNat_lt
            rw [hcount]
            omega

end Probing.Memc
