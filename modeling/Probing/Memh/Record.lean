import Probing.Memh.Layout
import Probing.Memt.Schema

/-!
# Arena records of a table

A record is a header of 28 bytes, the key, the value where the slot does not hold it, and
a padding to 4 bytes.
-/

namespace Probing.Memh.Table

open Probing.Core Probing.Memt

def flagPut : UInt16 := 1
def flagTombstone : UInt16 := 2
def flagPutInline : UInt16 := 3

/-- The type of a record without a value. -/
def dtypeNone : UInt32 := 0xFFFFFFFF

/-- The previous version of a record without one. -/
def noPrev : UInt32 := 0xFFFFFFFF

/-- `size_of::<ArenaRecordHeader>()`. -/
def arenaHdrSize : ℕ := 28

structure ArenaRecordHeader where
  recordLen : UInt32
  slotIdx : UInt32
  hashLo : UInt32
  hashHi : UInt32
  prevOff : UInt32
  flags : UInt16
  keyLen : UInt16
  valDtype : UInt32
  deriving DecidableEq

def ArenaRecordHeader.bytes (h : ArenaRecordHeader) : Bytes :=
  le h.recordLen ++ (le h.slotIdx ++ (le h.hashLo ++ (le h.hashHi ++ (le h.prevOff ++ (le h.flags ++
    (le h.keyLen ++ le h.valDtype))))))

def isScalarDtype : DType → Bool
  | .Str | .Bytes => false
  | _ => true

def align4 (n : ℕ) : ℕ := (n + 3) / 4 * 4

/-- The scalar as a slot holds it: its type and 8 bytes. -/
def encodeInlineBytes (val : Value) : Option (UInt8 × Bytes) :=
  if isScalarDtype val.dtype then
    some (UInt8.ofNat val.dtype.tag.toNat, val.encode ++ List.replicate (8 - val.encode.length) 0)
  else none

/-- A record of a key and a payload behind it. -/
def encodeRecord (flags : UInt16) (valDtype : UInt32) (key : String) (payload : Bytes)
    (slotIdx : UInt32) (hash : UInt64) (prevOff : UInt32) : Bytes :=
  let key_bytes := utf8 key
  let size := arenaHdrSize + key_bytes.length + payload.length
  let hdr : ArenaRecordHeader :=
    ⟨UInt32.ofNat (align4 size), slotIdx, hash.toUInt32, (hash >>> 32).toUInt32, prevOff, flags,
      UInt16.ofNat key_bytes.length, valDtype⟩
  hdr.bytes ++ (key_bytes ++ (payload ++ List.replicate (align4 size - size) 0))

def encodePutRecord (key : String) (val : Value) : UInt32 → UInt64 → UInt32 → Bytes :=
  encodeRecord flagPut val.dtype.tag key val.encode

def encodePutInlineRecord (key : String) : UInt32 → UInt64 → UInt32 → Bytes :=
  encodeRecord flagPutInline dtypeNone key []

def encodeTombstoneRecord (key : String) : UInt32 → UInt64 → UInt32 → Bytes :=
  encodeRecord flagTombstone dtypeNone key []

def readRecordHeader (data : Bytes) : Option ArenaRecordHeader :=
  if data.length < arenaHdrSize then none
  else some
    { recordLen := getLe UInt32 data 0
      slotIdx := getLe UInt32 data 4
      hashLo := getLe UInt32 data 8
      hashHi := getLe UInt32 data 12
      prevOff := getLe UInt32 data 16
      flags := getLe UInt16 data 20
      keyLen := getLe UInt16 data 22
      valDtype := getLe UInt32 data 24 }

def recordKey (hdr : ArenaRecordHeader) (record_data : Bytes) : Option String :=
  let recordLen := hdr.recordLen.toNat
  if recordLen < arenaHdrSize ∨ record_data.length < recordLen then none
  else
    let klen := hdr.keyLen.toNat
    if recordLen < arenaHdrSize + klen then none else fromUtf8 (slice record_data arenaHdrSize klen)

section Encoded

variable {flags : UInt16} {valDtype slotIdx prevOff : UInt32} {key : String} {payload rest : Bytes}
  {hash : UInt64}

theorem align4_bounds (n : ℕ) : n ≤ align4 n ∧ align4 n < n + 4 := by
  unfold align4
  omega

theorem align4_mod (n : ℕ) : align4 n % 4 = 0 := Nat.mul_mod_left _ _

theorem header_bytes_length (h : ArenaRecordHeader) : h.bytes.length = arenaHdrSize := rfl

/-- The length that the header states, before it is cast. -/
theorem encodeRecord_length (flags : UInt16) (valDtype : UInt32) (key : String) (payload : Bytes)
    (slotIdx : UInt32) (hash : UInt64) (prevOff : UInt32) :
    (encodeRecord flags valDtype key payload slotIdx hash prevOff).length =
      align4 (arenaHdrSize + (utf8 key).length + payload.length) := by
  have h := align4_bounds (arenaHdrSize + (utf8 key).length + payload.length)
  unfold encodeRecord
  dsimp only
  rw [List.length_append, header_bytes_length, List.length_append, List.length_append,
    List.length_replicate]
  omega

/-- A record is at least its header, a multiple of 4 bytes, and stores the offset it was given. -/
theorem encodeRecord_spec (flags : UInt16) (valDtype : UInt32) (key : String) (payload : Bytes)
    (slotIdx : UInt32) (hash : UInt64) (prevOff : UInt32) :
    let record := encodeRecord flags valDtype key payload slotIdx hash prevOff
    arenaHdrSize ≤ record.length ∧ record.length % 4 = 0 ∧ getLe UInt32 record 16 = prevOff := by
  dsimp only
  refine ⟨?_, ?_, ?_⟩
  · rw [encodeRecord_length]
    have h := (align4_bounds (arenaHdrSize + (utf8 key).length + payload.length)).1
    omega
  · rw [encodeRecord_length]
    exact align4_mod _
  · simp [encodeRecord, ArenaRecordHeader.bytes, getLe_append_right, LeWord.width]

/-- The 8 bytes of every scalar. -/
theorem encodeInlineBytes_some {val : Value} (h : isScalarDtype val.dtype = true) :
    ∃ dtype bytes, encodeInlineBytes val = some (dtype, bytes) ∧ bytes.length = 8 := by
  refine ⟨_, _, if_pos h, ?_⟩
  have hle : val.encode.length ≤ 8 := by
    cases val with
    | Str s => exact absurd h (by simp [isScalarDtype, Value.dtype])
    | Bytes b => exact absurd h (by simp [isScalarDtype, Value.dtype])
    | _ => simp [Value.encodedSize]
  rw [List.length_append, List.length_replicate]
  omega

theorem readRecordHeader_bytes (h : ArenaRecordHeader) (rest : Bytes) :
    readRecordHeader (h.bytes ++ rest) = some h := by
  have hlen : ¬ (h.bytes ++ rest).length < arenaHdrSize := by
    rw [List.length_append, header_bytes_length]
    omega
  unfold readRecordHeader
  rw [if_neg hlen]
  simp [ArenaRecordHeader.bytes, getLe_append_right, LeWord.width]

/-- The header that a record was given, its key and its payload. -/
theorem encodeRecord_eq (flags : UInt16) (valDtype : UInt32) (key : String) (payload : Bytes)
    (slotIdx : UInt32) (hash : UInt64) (prevOff : UInt32) : ∃ hdr :
    ArenaRecordHeader, ∃ pad : Bytes, encodeRecord flags valDtype key payload slotIdx hash prevOff =
      hdr.bytes ++ (utf8 key ++ (payload ++ pad)) ∧
      hdr = ⟨UInt32.ofNat (align4 (arenaHdrSize + (utf8 key).length + payload.length)),
        slotIdx, hash.toUInt32, (hash >>> 32).toUInt32, prevOff, flags,
        UInt16.ofNat (utf8 key).length, valDtype⟩ :=
  ⟨_, _, rfl, rfl⟩

/-- The key of a record is read back, if its length fits 16 bits and that of the record 32. -/
theorem recordKey_encode (rest : Bytes) (hkey : (utf8 key).length < 2 ^ 16)
    (hrecord : (encodeRecord flags valDtype key payload slotIdx hash prevOff).length < 2 ^ 32) :
    let data := encodeRecord flags valDtype key payload slotIdx hash prevOff ++ rest
    (readRecordHeader data).bind (fun hdr => recordKey hdr data) = some key := by
  rw [encodeRecord_length] at hrecord
  have hbounds := (align4_bounds (arenaHdrSize + (utf8 key).length + payload.length)).1
  have hlen := encodeRecord_length flags valDtype key payload slotIdx hash prevOff
  obtain ⟨hdr, pad, hencode, hhdr⟩ :=
    encodeRecord_eq flags valDtype key payload slotIdx hash prevOff
  have hrec : hdr.recordLen.toNat = align4 (arenaHdrSize + (utf8 key).length + payload.length) := by
    rw [hhdr]
    exact UInt32.toNat_ofNat_of_lt' hrecord
  have hklen : hdr.keyLen.toNat = (utf8 key).length := by
    rw [hhdr]
    exact UInt16.toNat_ofNat_of_lt' hkey
  dsimp only
  have hslice :
    slice (hdr.bytes ++ (utf8 key ++ (payload ++ pad)) ++ rest) arenaHdrSize (utf8 key).length =
      utf8 key := by
    rw [List.append_assoc, slice_append_right (header_bytes_length hdr).le,
      header_bytes_length, Nat.sub_self, List.append_assoc]
    exact slice_zero_append rfl
  have hdata : ¬ (hdr.recordLen.toNat < arenaHdrSize ∨
      (hdr.bytes ++ (utf8 key ++ (payload ++ pad)) ++ rest).length < hdr.recordLen.toNat) := by
    rw [List.length_append, ← hencode, hlen, hrec]
    omega
  rw [hencode, List.append_assoc, readRecordHeader_bytes, ← List.append_assoc,
    Option.bind_some, recordKey, if_neg hdata, hklen, if_neg (by omega), hslice, fromUtf8_utf8]

end Encoded

end Probing.Memh.Table
