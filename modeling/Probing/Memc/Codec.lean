import Probing.Memc.Layout

/-!
# Column payloads

A page payload is the concatenation of column sub-blocks
`[u8 encoding][u8 dtype][u16 pad][u32 byte_len][payload]`.
-/

namespace Probing.Memc

open Probing.Core
open Probing.Memt (DType)

/-- Column encoding inside a page payload. -/
inductive ColEncoding where
  | RawFixed
  | Pco
  | RawVarLen
  deriving DecidableEq

namespace ColEncoding

def tag : ColEncoding → UInt8
  | RawFixed => 0
  | Pco => 1
  | RawVarLen => 2

def fromU8 : UInt8 → Option ColEncoding
  | 0 => some RawFixed
  | 1 => some Pco
  | 2 => some RawVarLen
  | _ => none

@[simp] theorem fromU8_tag (e : ColEncoding) : fromU8 e.tag = some e := by
  cases e <;> rfl

end ColEncoding

/-- One column's worth of values, type-tagged. -/
inductive ColumnData where
  | U8 (v : List UInt8)
  | U32 (v : List UInt32)
  | I32 (v : List Int32)
  | I64 (v : List Int64)
  | F32 (bits : List UInt32)
  | F64 (bits : List UInt64)
  | U64 (v : List UInt64)
  | Str (v : List String)
  | Bytes (v : List Bytes)
  deriving DecidableEq

namespace ColumnData

def dtype : ColumnData → DType
  | U8 _ => .U8
  | U32 _ => .U32
  | I32 _ => .I32
  | I64 _ => .I64
  | F32 _ => .F32
  | F64 _ => .F64
  | U64 _ => .U64
  | Str _ => .Str
  | Bytes _ => .Bytes

def len : ColumnData → ℕ
  | U8 v => v.length
  | U32 v => v.length
  | I32 v => v.length
  | I64 v => v.length
  | F32 v => v.length
  | F64 v => v.length
  | U64 v => v.length
  | Str v => v.length
  | Bytes v => v.length

end ColumnData

/-- Concatenated `[u32 len][bytes]` entries. -/
def encodeVarlen (entries : List Bytes) : Bytes :=
  entries.flatMap fun b => le (UInt32.ofNat b.length) ++ b

/-- The encoding and payload of a column. -/
def columnPayload (X : Crates) : ColumnData → Except String (ColEncoding × Bytes)
  | .U8 v => .ok (.RawFixed, v)
  | .I32 v => (X.simplerCompress .I32 v).map (.Pco, ·)
  | .I64 v => (X.simplerCompress .I64 v).map (.Pco, ·)
  | .F32 v => (X.simplerCompress .F32 v).map (.Pco, ·)
  | .F64 v => (X.simplerCompress .F64 v).map (.Pco, ·)
  | .U32 v => (X.simplerCompress .U32 v).map (.Pco, ·)
  | .U64 v => (X.simplerCompress .U64 v).map (.Pco, ·)
  | .Str v => .ok (.RawVarLen, encodeVarlen (v.map utf8))
  | .Bytes v => .ok (.RawVarLen, encodeVarlen v)

/-- The sub-block of an encoded column. -/
def subBlock (encoding : ColEncoding) (dtype : DType) (payload : Bytes) : Bytes :=
  le encoding.tag ++ (le dtype.tag.toUInt8 ++ (le (0 : UInt16) ++
    (le (UInt32.ofNat payload.length) ++ payload)))

/-- Encode one column into its sub-block. -/
def encodeColumn (X : Crates) (col : ColumnData) : Except String Bytes :=
  (columnPayload X col).map fun p => subBlock p.1 col.dtype p.2

/-- The entry loop of `decode_varlen_entries`, at `off` with `out` entries read. -/
def varlenLoop (payload : Bytes) (rowCount off out : ℕ) : Except String (List Bytes) :=
  if hoff : off < payload.length then
    if payload.length < off + 4 then .error "trailing bytes in varlen column"
    else
      let len := (getLe UInt32 payload off).toNat
      if payload.length < off + 4 + len then .error "varlen entry out of bounds"
      else if rowCount < out + 1 then .error "varlen column has more rows than declared"
      else (varlenLoop payload rowCount (off + 4 + len) (out + 1)).map
        (slice payload (off + 4) len :: ·)
  else .ok []
termination_by payload.length - off

def decodeVarlenEntries (payload : Bytes) (rowCount : ℕ) : Except String (List Bytes) :=
  match varlenLoop payload rowCount 0 0 with
  | .error e => .error e
  | .ok out =>
      if out.length ≠ rowCount then
        .error s!"varlen column row count mismatch: expected {rowCount}, got {out.length}"
      else .ok out

def entryStr (b : Bytes) : Except String String :=
  match fromUtf8 b with
  | none => .error "varlen str not utf-8"
  | some s => .ok s

def decodeVarlenStr (payload : Bytes) (rowCount : ℕ) : Except String (List String) :=
  match decodeVarlenEntries payload rowCount with
  | .error e => .error e
  | .ok entries => entries.mapM entryStr

/-- The values of a sub-block. -/
def columnValues (X : Crates) (payload : Bytes) (rowCount : ℕ) :
    ColEncoding → DType → Except String ColumnData
  | .RawFixed, .U8 => .ok (.U8 payload)
  | .Pco, .I32 => (X.simpleDecompress .I32 payload).map .I32
  | .Pco, .I64 => (X.simpleDecompress .I64 payload).map .I64
  | .Pco, .F32 => (X.simpleDecompress .F32 payload).map .F32
  | .Pco, .F64 => (X.simpleDecompress .F64 payload).map .F64
  | .Pco, .U32 => (X.simpleDecompress .U32 payload).map .U32
  | .Pco, .U64 => (X.simpleDecompress .U64 payload).map .U64
  | .RawVarLen, .Str => (decodeVarlenStr payload rowCount).map .Str
  | .RawVarLen, .Bytes => (decodeVarlenEntries payload rowCount).map .Bytes
  | _, _ => .error "encoding/dtype mismatch"

/-- Decode one column sub-block, returning the column and the bytes consumed. -/
def decodeColumn (X : Crates) (buf : Bytes) (rowCount : ℕ) : Except String (ColumnData × ℕ) :=
  if buf.length < 8 then .error "column sub-block too small"
  else match ColEncoding.fromU8 (getLe UInt8 buf 0) with
    | none => .error "invalid column encoding"
    | some encoding => match DType.fromU32 (getLe UInt8 buf 1).toUInt32 with
      | none => .error "invalid column dtype"
      | some dtype =>
          let payloadLen := (getLe UInt32 buf 4).toNat
          if buf.length < 8 + payloadLen then .error "column payload out of bounds"
          else (columnValues X (slice buf 8 payloadLen) rowCount encoding dtype).map
            (·, 8 + payloadLen)

section RoundTrip

variable {X : Crates}

theorem encodeVarlen_cons (b : Bytes) (entries : List Bytes) :
    encodeVarlen (b :: entries) = le (UInt32.ofNat b.length) ++ (b ++ encodeVarlen entries) := by
  simp [encodeVarlen]

/-- The entries of a payload below 4 GiB are read back, from any offset. -/
theorem varlenLoop_encode (pre : Bytes) (entries : List Bytes) (rowCount out : ℕ)
    (hlen : (encodeVarlen entries).length < 2 ^ 32) (hrows : out + entries.length ≤ rowCount) :
    varlenLoop (pre ++ encodeVarlen entries) rowCount pre.length out = .ok entries := by
  induction entries generalizing pre out with
  | nil =>
      rw [varlenLoop, dif_neg (by simp [encodeVarlen])]
  | cons b entries ih =>
      have htotal : (encodeVarlen (b :: entries)).length =
          4 + b.length + (encodeVarlen entries).length := by
        simp [encodeVarlen_cons, LeWord.width]
        omega
      have hb : (getLe UInt32 (pre ++ encodeVarlen (b :: entries)) pre.length).toNat =
          b.length := by
        rw [getLe_append_right le_rfl, Nat.sub_self, encodeVarlen_cons, getLe_le_append]
        simp
        omega
      have hentry : slice (pre ++ encodeVarlen (b :: entries)) (pre.length + 4) b.length = b := by
        rw [slice_length_add, encodeVarlen_cons]
        simp [slice_append_right, LeWord.width, slice_zero_append]
      have hnext : pre ++ encodeVarlen (b :: entries) =
          (pre ++ le (UInt32.ofNat b.length) ++ b) ++ encodeVarlen entries := by
        simp [encodeVarlen_cons]
      have hoff : (pre ++ le (UInt32.ofNat b.length) ++ b).length = pre.length + 4 + b.length := by
        simp [LeWord.width]
        omega
      have hrest := ih (pre ++ le (UInt32.ofNat b.length) ++ b) (out + 1) (by omega)
        (by simp at hrows; omega)
      rw [varlenLoop, dif_pos (by simp [htotal])]
      simp only [hb, hentry]
      rw [if_neg (by simp [htotal]; omega), if_neg (by simp [htotal]; omega),
        if_neg (by simp at hrows; omega), ← hoff, hnext, hrest]
      rfl

theorem decodeVarlenEntries_encode {entries : List Bytes}
    (hlen : (encodeVarlen entries).length < 2 ^ 32) :
    decodeVarlenEntries (encodeVarlen entries) entries.length = .ok entries := by
  have hloop := varlenLoop_encode [] entries entries.length 0 hlen (by simp)
  unfold decodeVarlenEntries
  rw [List.nil_append, List.length_nil] at hloop
  rw [hloop]
  simp

theorem mapM_entryStr (v : List String) : (v.map utf8).mapM entryStr = .ok v := by
  induction v with
  | nil => rfl
  | cons s v ih =>
      have hs : entryStr (utf8 s) = .ok s := by
        rw [entryStr, fromUtf8_utf8]
      rw [List.map_cons, List.mapM_cons, hs, ih]
      rfl

theorem decodeVarlenStr_encode {v : List String}
    (hlen : (encodeVarlen (v.map utf8)).length < 2 ^ 32) :
    decodeVarlenStr (encodeVarlen (v.map utf8)) v.length = .ok v := by
  have hentries := decodeVarlenEntries_encode hlen
  rw [List.length_map] at hentries
  rw [decodeVarlenStr, hentries]
  exact mapM_entryStr v

/-- The values of a column are read back from its payload. -/
theorem columnValues_payload (hX : X.Lossless) {col : ColumnData} {encoding : ColEncoding}
    {payload : Bytes} (h : columnPayload X col = .ok (encoding, payload))
    (hlen : payload.length < 2 ^ 32) :
    columnValues X payload col.len encoding col.dtype = .ok col := by
  have pco {t : Number} {v : List t.Repr}
      (h : (X.simplerCompress t v).map (ColEncoding.Pco, ·) = .ok (encoding, payload)) :
      encoding = .Pco ∧ X.simpleDecompress t payload = .ok v := by
    cases hv : X.simplerCompress t v with
    | error e => simp [hv, Except.map] at h
    | ok bytes =>
        simp only [hv, Except.map, Except.ok.injEq, Prod.mk.injEq] at h
        obtain ⟨rfl, rfl⟩ := h
        exact ⟨rfl, hX t v bytes hv⟩
  cases col with
  | U8 v =>
      obtain ⟨rfl, rfl⟩ := Prod.mk.inj (Except.ok.inj h)
      rfl
  | Str v =>
      obtain ⟨rfl, rfl⟩ := Prod.mk.inj (Except.ok.inj h)
      simp only [columnValues, ColumnData.dtype, ColumnData.len, decodeVarlenStr_encode hlen]
      rfl
  | Bytes v =>
      obtain ⟨rfl, rfl⟩ := Prod.mk.inj (Except.ok.inj h)
      simp only [columnValues, ColumnData.dtype, ColumnData.len, decodeVarlenEntries_encode hlen]
      rfl
  | U32 v | I32 v | I64 v | F32 v | F64 v | U64 v =>
      obtain ⟨rfl, hv⟩ := pco h
      simp only [columnValues, ColumnData.dtype, hv]
      rfl

@[simp] theorem subBlock_length (encoding : ColEncoding) (dtype : DType) (payload : Bytes) :
    (subBlock encoding dtype payload).length = 8 + payload.length := by
  simp [subBlock, LeWord.width]
  omega

/-- A column whose sub-block is below 4 GiB is read back, whatever follows it. -/
theorem decodeColumn_encode (hX : X.Lossless) {col : ColumnData} {sub : Bytes}
    (h : encodeColumn X col = .ok sub) (hlen : sub.length < 2 ^ 32) (rest : Bytes) :
    decodeColumn X (sub ++ rest) col.len = .ok (col, sub.length) := by
  cases hp : columnPayload X col with
  | error e => simp [encodeColumn, hp, Except.map] at h
  | ok p =>
      obtain ⟨encoding, payload⟩ := p
      simp only [encodeColumn, hp, Except.map, Except.ok.injEq] at h
      subst h
      rw [subBlock_length] at hlen
      have hencoding : getLe UInt8 (subBlock encoding col.dtype payload ++ rest) 0 =
          encoding.tag := by
        simp [subBlock]
      have hdtype : DType.fromU32
          (getLe UInt8 (subBlock encoding col.dtype payload ++ rest) 1).toUInt32 =
          some col.dtype := by
        have htag : getLe UInt8 (subBlock encoding col.dtype payload ++ rest) 1 =
            col.dtype.tag.toUInt8 := by
          simp [subBlock, getLe_append_right, LeWord.width]
        rw [htag]
        cases col.dtype <;> rfl
      have hpayload_len : (getLe UInt32 (subBlock encoding col.dtype payload ++ rest) 4).toNat =
          payload.length := by
        simp [subBlock, getLe_append_right, LeWord.width]
        omega
      have hslice : slice (subBlock encoding col.dtype payload ++ rest) 8 payload.length =
          payload := by
        simp [subBlock, slice_append_right, LeWord.width, slice_zero_append]
      have hvalues := columnValues_payload hX hp (by omega)
      simp only [decodeColumn, hencoding, ColEncoding.fromU8_tag, hdtype, hpayload_len, hslice,
        hvalues, List.length_append, subBlock_length]
      rw [if_neg (by omega), if_neg (by omega)]
      rfl

end RoundTrip

end Probing.Memc
