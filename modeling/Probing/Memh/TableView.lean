import Probing.Core.OpenAddressing
import Probing.Memh.TableInit

/-!
# Reading a table

A view looks keys up and lists the live entries. Both take the value of an inline slot from
the slot, and every other one from the record at its head. Where every slot holds a bucket,
the probe loops are the searches of open addressing over the buckets.
-/

namespace Probing.Memh.Table

open Probing.Core Probing.Memt Probing.Core.OpenAddressing

/-- A decoded value. -/
inductive TypedValue where
  | U8 (v : UInt8)
  | I32 (v : Int32)
  | I64 (v : Int64)
  | F32 (bits : UInt32)
  | F64 (bits : UInt64)
  | U64 (v : UInt64)
  | U32 (v : UInt32)
  | Str (s : String)
  | Bytes (b : Probing.Core.Bytes)
  deriving DecidableEq

def typedValueToValue : TypedValue → Value
  | .U8 v => .U8 v
  | .I32 v => .I32 v
  | .I64 v => .I64 v
  | .F32 v => .F32 v
  | .F64 v => .F64 v
  | .U64 v => .U64 v
  | .U32 v => .U32 v
  | .Str s => .Str s
  | .Bytes b => .Bytes b

section Decode

/-- `get(lo..hi)`. -/
def getRange (data : Bytes) (lo hi : ℕ) : Option Bytes :=
  if hi < lo ∨ data.length < hi then none else some (slice data lo (hi - lo))

/-- A word at the start, where there is room for one. -/
def firstWord (α : Type) [LeWord α] (payload : Bytes) : Option α :=
  (getRange payload 0 (LeWord.width α)).map fun bytes => getLe α bytes 0

/-- The bytes behind a length. -/
def decodeVarlen (payload : Bytes) : Option Bytes :=
  (firstWord UInt32 payload).bind fun slen => getRange payload 4 (4 + slen.toNat)

def decodeInlineValue (valDtype : UInt8) (valBytes : Bytes) : Option TypedValue :=
  match DType.fromU32 (UInt32.ofNat valDtype.toNat) with
  | none => none
  | some .U8 => some (.U8 (getLe UInt8 valBytes 0))
  | some .I32 => some (.I32 (getLe Int32 valBytes 0))
  | some .I64 => some (.I64 (getLe Int64 valBytes 0))
  | some .F32 => some (.F32 (getLe UInt32 valBytes 0))
  | some .F64 => some (.F64 (getLe UInt64 valBytes 0))
  | some .U64 => some (.U64 (getLe UInt64 valBytes 0))
  | some .U32 => some (.U32 (getLe UInt32 valBytes 0))
  | some .Str | some .Bytes => none

def slotInlineValue (valDtype : UInt8) (valBytes : Bytes) : Option TypedValue :=
  decodeInlineValue valDtype valBytes

def decodeValuePayload (dtype : DType) (payload : Bytes) : Option TypedValue :=
  match dtype with
  | .U8 => (firstWord UInt8 payload).map .U8
  | .I32 => (firstWord Int32 payload).map .I32
  | .I64 => (firstWord Int64 payload).map .I64
  | .F32 => (firstWord UInt32 payload).map .F32
  | .F64 => (firstWord UInt64 payload).map .F64
  | .U64 => (firstWord UInt64 payload).map .U64
  | .U32 => (firstWord UInt32 payload).map .U32
  | .Str => (decodeVarlen payload).bind fun bytes => (fromUtf8 bytes).map .Str
  | .Bytes => (decodeVarlen payload).map .Bytes

def recordValue (hdr : ArenaRecordHeader) (record_data : Bytes) : Option TypedValue :=
  if hdr.flags ≠ flagPut then none
  else
    (DType.fromU32 hdr.valDtype).bind fun dtype =>
      (getRange record_data (arenaHdrSize + hdr.keyLen.toNat) hdr.recordLen.toNat).bind
        (decodeValuePayload dtype)

end Decode

/-- The fields of the view, without the buffer. -/
structure MemhView where
  dataOff : ℕ
  numBuckets : ℕ
  mask : ℕ
  arenaStart : ℕ
  hashSeed : UInt64

namespace MemhView

def new (addr : ℕ) (buf : Bytes) : Except MemhValidateError MemhView :=
  (validateMemh addr buf).map fun _ =>
    { dataOff := (header buf).dataOffset.toNat
      numBuckets := (header buf).numBuckets.toNat
      mask := (header buf).numBuckets.toNat - 1
      arenaStart := (geometry buf).arenaStart.toNat
      hashSeed := (geometry buf).hashSeed }

variable (v : MemhView) (buf : Bytes)

def probeIdx (kh : UInt64) (probe : ℕ) : ℕ := (kh.toNat &&& v.mask) + probe &&& v.mask

/-- The end of the published records. -/
def liveEnd : ℕ := v.arenaStart + (header buf).arenaBump.toNat

/-- The record at the head of a slot and its key, as a lookup reads them. -/
def headRecord (headOff : UInt32) : Option (ArenaRecordHeader × Bytes × String) :=
  let ho := headOff.toNat
  if ho < v.arenaStart ∨ v.liveEnd buf < ho + arenaHdrSize then none
  else do
    let hdr ← (getRange buf ho (v.liveEnd buf)).bind readRecordHeader
    let record_end := ho + hdr.recordLen.toNat
    if hdr.recordLen.toNat < arenaHdrSize ∨ v.liveEnd buf < record_end then none
    else do
      let record_data ← getRange buf ho record_end
      let rkey ← recordKey hdr record_data
      some (hdr, record_data, rkey)

/-- The loop of `get` over the probes that are left. -/
def getProbe (key : String) (kh : UInt64) : ℕ → ℕ → Option TypedValue
  | 0, _ => none
  | n + 1, probe =>
      let slot := readSlot buf v.dataOff (v.probeIdx kh probe)
      if slot.tag = slotEmpty then none
      else if slot.tag = slotOccupied ∨ slot.tag = slotInline then
        if slot.hash ≠ kh then getProbe key kh n (probe + 1)
        else if slot.keyLen.toNat ≠ (utf8 key).length then getProbe key kh n (probe + 1)
        else
          match v.headRecord buf slot.headOff with
          | none => none
          | some (hdr, record_data, rkey) =>
              if rkey ≠ key then getProbe key kh n (probe + 1)
              else if slot.tag = slotInline then slotInlineValue slot.valDtype slot.valBytes
              else recordValue hdr record_data
      else getProbe key kh n (probe + 1)

def get (hash_key : UInt64 → String → UInt64) (key : String) : Option TypedValue :=
  v.getProbe buf key (hash_key v.hashSeed key) v.numBuckets 0

/-- What the iterator does at a slot: it goes on, it ends, or it yields. -/
inductive Visited where
  | skip
  | stop
  | yield (key : String) (value : TypedValue)

/-- A missing value ends the iterator. -/
def Visited.ofOption (key : String) : Option TypedValue → Visited
  | none => .stop
  | some value => .yield key value

def iterSlot (slotIdx : ℕ) : Visited :=
  let slot := readSlot buf v.dataOff slotIdx
  if slot.tag ≠ slotOccupied ∧ slot.tag ≠ slotInline then .skip
  else
    let abs_pos := slot.headOff.toNat
    if abs_pos < v.arenaStart ∨ v.liveEnd buf < abs_pos + arenaHdrSize then .skip
    else
      match (getRange buf abs_pos (v.liveEnd buf)).bind readRecordHeader with
      | none => .stop
      | some hdr =>
          let record_end := abs_pos + hdr.recordLen.toNat
          if hdr.recordLen.toNat < arenaHdrSize ∨ v.liveEnd buf < record_end ∨
            hdr.slotIdx.toNat ≠ slotIdx then
            .skip
          else
            match getRange buf abs_pos record_end with
            | none => .stop
            | some record_data =>
                match recordKey hdr record_data with
                | none => .stop
                | some key =>
                    if slot.tag = slotOccupied ∧ hdr.flags = flagPut then
                      .ofOption key (recordValue hdr record_data)
                    else if slot.tag = slotInline ∧ hdr.flags = flagPutInline then
                      .ofOption key (slotInlineValue slot.valDtype slot.valBytes)
                    else .skip

/-- The pairs of the slots that are left, up to where the iterator ends. -/
def iterFrom : List ℕ → List (String × TypedValue)
  | [] => []
  | slotIdx :: rest =>
      match v.iterSlot buf slotIdx with
      | .skip => iterFrom rest
      | .stop => []
      | .yield key value => (key, value) :: iterFrom rest

def iter : List (String × TypedValue) := v.iterFrom buf (List.range v.numBuckets)

def len : ℕ :=
  ((List.range v.numBuckets).filter fun i =>
    let tag := (readSlot buf v.dataOff i).tag
    tag = slotOccupied || tag = slotInline).length

end MemhView

section ReadBack

theorem getRange_some {data : Bytes} {lo hi : ℕ} (hlo : lo ≤ hi) (hhi : hi ≤ data.length) :
    getRange data lo hi = some (slice data lo (hi - lo)) :=
  if_neg (by omega)

theorem firstWord_le {α : Type} [LeWord α] (v : α) (pad : Bytes) :
    firstWord α (le v ++ pad) = some v := by
  have hlen : LeWord.width α ≤ (le v ++ pad).length := by
    rw [List.length_append, le_length]
    omega
  rw [firstWord, getRange_some (Nat.zero_le _) hlen, Option.map_some, Nat.sub_zero,
    slice_zero_append (le_length v), ← List.append_nil (le v), getLe_le_append]

theorem decodeVarlen_encode {b : Bytes} (h : b.length < 2 ^ 32) (pad : Bytes) :
    decodeVarlen (Value.encodeVarlen b ++ pad) = some b := by
  have hnat : (UInt32.ofNat b.length).toNat = b.length := UInt32.toNat_ofNat_of_lt' h
  have hlen : 4 + b.length ≤ (Value.encodeVarlen b ++ pad).length := by
    rw [Value.encodeVarlen, List.length_append, List.length_append, le_length_u32]
    omega
  have hslice : slice (Value.encodeVarlen b ++ pad) 4 b.length = b := by
    rw [Value.encodeVarlen, List.append_assoc, slice_append_right (le_length_u32 _).le,
      le_length_u32]
    exact slice_zero_append rfl
  rw [decodeVarlen]
  nth_rewrite 1 [Value.encodeVarlen]
  rw [List.append_assoc, firstWord_le, Option.bind_some, hnat,
    getRange_some (Nat.le_add_right _ _) hlen, Nat.add_sub_cancel_left, hslice]

/-- A value in a record is read back, whatever pads it. -/
theorem decodeValuePayload_encode (val : Value) (h : val.encodedSize < 2 ^ 32) (pad : Bytes) :
    (decodeValuePayload val.dtype (val.encode ++ pad)).map typedValueToValue = some val := by
  cases val with
  | Str s =>
      have hlen : (utf8 s).length < 2 ^ 32 := lt_of_le_of_lt (Nat.le_add_left _ 4) h
      simp [decodeValuePayload, Value.dtype, Value.encode, decodeVarlen_encode hlen,
        typedValueToValue]
  | Bytes b =>
      have hlen : b.length < 2 ^ 32 := lt_of_le_of_lt (Nat.le_add_left _ 4) h
      simp [decodeValuePayload, Value.dtype, Value.encode, decodeVarlen_encode hlen,
        typedValueToValue]
  | _ => simp [decodeValuePayload, Value.dtype, Value.encode, firstWord_le, typedValueToValue]

/-- A scalar in a slot is read back. -/
theorem slotInlineValue_encode {val : Value} {valDtype : UInt8} {valBytes : Bytes}
    (h : encodeInlineBytes val = some (valDtype, valBytes)) :
    (slotInlineValue valDtype valBytes).map typedValueToValue = some val := by
  unfold encodeInlineBytes at h
  split_ifs at h with hscalar
  obtain ⟨rfl, rfl⟩ := Prod.mk.inj (Option.some.inj h)
  cases val with
  | Str s => exact absurd hscalar (by simp [isScalarDtype, Value.dtype])
  | Bytes b => exact absurd hscalar (by simp [isScalarDtype, Value.dtype])
  | _ =>
      simp [slotInlineValue, decodeInlineValue, Value.dtype, DType.tag, DType.fromU32, Value.encode,
      typedValueToValue]

/-- The header of an encoded record. -/
def encodedHeader (flags : UInt16) (valDtype : UInt32) (key : String) (payload : Bytes)
    (slotIdx : UInt32) (hash : UInt64) (prevOff : UInt32) : ArenaRecordHeader :=
  ⟨UInt32.ofNat (align4 (arenaHdrSize + (utf8 key).length + payload.length)),
    slotIdx, hash.toUInt32, (hash >>> 32).toUInt32, prevOff, flags,
    UInt16.ofNat (utf8 key).length, valDtype⟩

variable {flags : UInt16} {valDtype slotIdx prevOff : UInt32} {key : String}
    {payload : Bytes} {hash : UInt64}

theorem readRecordHeader_encode (rest : Bytes) :
    readRecordHeader (encodeRecord flags valDtype key payload slotIdx hash prevOff ++ rest) =
      some (encodedHeader flags valDtype key payload slotIdx hash prevOff) := by
  obtain ⟨hdr, pad, hencode, rfl⟩ := encodeRecord_eq flags valDtype key payload slotIdx hash prevOff
  rw [hencode, List.append_assoc, readRecordHeader_bytes, encodedHeader]

theorem encodedHeader_recordLen
    (h : (encodeRecord flags valDtype key payload slotIdx hash prevOff).length < 2 ^ 32) :
    (encodedHeader flags valDtype key payload slotIdx hash prevOff).recordLen.toNat =
      (encodeRecord flags valDtype key payload slotIdx hash prevOff).length := by
  rw [encodeRecord_length] at h ⊢
  exact UInt32.toNat_ofNat_of_lt' h

/-- The value of a record of a key. -/
theorem recordValue_encode {val : Value} (hkey : (utf8 key).length < 2 ^ 16)
    (h : (encodePutRecord key val slotIdx hash prevOff).length < 2 ^ 32) :
    (recordValue (encodedHeader flagPut val.dtype.tag key val.encode slotIdx hash prevOff)
      (encodePutRecord key val slotIdx hash prevOff)).map typedValueToValue = some val := by
  have hrec := encodedHeader_recordLen h
  rw [encodePutRecord] at h ⊢
  have hsize := encodeRecord_length flagPut val.dtype.tag key val.encode slotIdx hash prevOff
  have hbounds := (align4_bounds (arenaHdrSize + (utf8 key).length + val.encode.length)).1
  have hvalue : val.encodedSize < 2 ^ 32 := by
    rw [← Value.encode_length]
    omega
  obtain ⟨hdr, pad, hencode, hhdr⟩ :=
    encodeRecord_eq flagPut val.dtype.tag key val.encode slotIdx hash prevOff
  have hprefix : (hdr.bytes ++ utf8 key).length = arenaHdrSize + (utf8 key).length := by
    rw [List.length_append, header_bytes_length]
  have hrange : getRange (encodeRecord flagPut val.dtype.tag key val.encode slotIdx hash prevOff)
      (arenaHdrSize + (utf8 key).length)
      (encodeRecord flagPut val.dtype.tag key val.encode slotIdx hash prevOff).length =
        some (val.encode ++ pad) := by
    rw [getRange_some (by omega) (le_refl _), hencode, ← List.append_assoc,
      slice_append_right hprefix.le, hprefix, Nat.sub_self, List.length_append, hprefix,
      Nat.add_sub_cancel_left]
    exact congrArg some (List.take_length)
  have hklen : (UInt16.ofNat (utf8 key).length).toNat = (utf8 key).length :=
    UInt16.toNat_ofNat_of_lt' hkey
  unfold recordValue
  rw [if_neg fun hne => hne rfl, hrec]
  simp only [encodedHeader, DType.fromU32_tag, Option.bind_some, hklen, hrange]
  exact decodeValuePayload_encode val hvalue pad

/-- A record that lies in the published part of the arena. -/
structure Published (v : MemhView) (buf : Bytes) (pos : ℕ) (record : Bytes) : Prop where
  behind : v.arenaStart ≤ pos
  inside : pos + record.length ≤ v.liveEnd buf
  room : v.liveEnd buf ≤ buf.length
  stored : slice buf pos record.length = record

namespace Published

variable {v : MemhView} {buf : Bytes} {pos : ℕ} {record : Bytes}

theorem whole (h : Published v buf pos record) :
    getRange buf pos (pos + record.length) = some record := by
  rw [getRange_some (Nat.le_add_right _ _) (h.inside.trans h.room),
    Nat.add_sub_cancel_left, h.stored]

theorem onwards (h : Published v buf pos record) :
    ∃ rest, getRange buf pos (v.liveEnd buf) = some (record ++ rest) := by
  have hinside := h.inside
  have hsplit : v.liveEnd buf - pos = record.length + (v.liveEnd buf - pos - record.length) := by
    omega
  refine ⟨slice buf (pos + record.length) (v.liveEnd buf - pos - record.length), ?_⟩
  rw [getRange_some (by omega) h.room, hsplit, slice_add, h.stored, Nat.add_sub_cancel_left]

variable {headOff : UInt32}

/-- The header of a published record is in reach. -/
theorem header_read (h : Published v buf headOff.toNat record)
    (hrecord : record = encodeRecord flags valDtype key payload slotIdx hash prevOff) :
    ¬ (headOff.toNat < v.arenaStart ∨ v.liveEnd buf < headOff.toNat + arenaHdrSize) ∧
      (getRange buf headOff.toNat (v.liveEnd buf)).bind readRecordHeader =
        some (encodedHeader flags valDtype key payload slotIdx hash prevOff) := by
  have hlong := (encodeRecord_spec flags valDtype key payload slotIdx hash prevOff).1
  rw [← hrecord] at hlong
  have hbehind := h.behind
  have hinside := h.inside
  obtain ⟨rest, hrest⟩ := h.onwards
  refine ⟨by omega, ?_⟩
  rw [hrest, Option.bind_some, hrecord, readRecordHeader_encode]

theorem key_read (hrecord : record = encodeRecord flags valDtype key payload slotIdx hash prevOff)
    (hkey : (utf8 key).length < 2 ^ 16) (hshort : record.length < 2 ^ 32) :
    recordKey (encodedHeader flags valDtype key payload slotIdx hash prevOff) record =
      some key := by
  rw [hrecord] at hshort
  have hread := recordKey_encode [] hkey hshort
  dsimp only at hread
  rw [readRecordHeader_encode, Option.bind_some, List.append_nil] at hread
  rw [hrecord]
  exact hread

/-- A lookup reads the record at the head of a slot and its key. -/
theorem headRecord (h : Published v buf headOff.toNat record)
    (hrecord : record = encodeRecord flags valDtype key payload slotIdx hash prevOff)
    (hkey : (utf8 key).length < 2 ^ 16) (hshort : record.length < 2 ^ 32) :
    v.headRecord buf headOff =
      some (encodedHeader flags valDtype key payload slotIdx hash prevOff, record, key) := by
  obtain ⟨hrange, hheader⟩ := h.header_read hrecord
  have hlen : (encodedHeader flags valDtype key payload slotIdx hash prevOff).recordLen.toNat =
      record.length := by
    rw [hrecord]
    exact encodedHeader_recordLen (hrecord ▸ hshort)
  have hlong := (encodeRecord_spec flags valDtype key payload slotIdx hash prevOff).1
  rw [← hrecord] at hlong
  have hinside := h.inside
  unfold MemhView.headRecord
  dsimp only
  rw [if_neg hrange, hheader]
  simp only [bind, Option.bind_some, hlen]
  rw [if_neg (by omega), h.whole, Option.bind_some, key_read hrecord hkey hshort, Option.bind_some]

/-- The writer reads the same key. -/
theorem headHasKey (h : Published v buf headOff.toNat record)
    (hrecord : record = encodeRecord flags valDtype key payload slotIdx hash prevOff)
    (hkey : (utf8 key).length < 2 ^ 16) (hshort : record.length < 2 ^ 32) (other : String) :
    MemhWriter.headHasKey buf headOff other = decide (key = other) := by
  obtain ⟨rest, hrest⟩ := drop_of_slice h.stored
  have hinside := h.inside
  have hroom := h.room
  rw [hrecord] at hshort
  have hread := recordKey_encode rest hkey hshort
  unfold MemhWriter.headHasKey
  dsimp only at hread ⊢
  rw [hrest, hrecord, hread, decide_eq_true (by omega : headOff.toNat ≤ buf.length), Bool.true_and]
  rw [Bool.eq_iff_iff, beq_iff_eq, decide_eq_true_eq, Option.some.injEq]

end Published

end ReadBack

/-- The view of a table of these sizes. -/
def Sizes.view (z : Sizes) : MemhView :=
  ⟨computeDataOffset, z.numBuckets.toNat, z.numBuckets.toNat - 1, z.arenaStart, z.hashSeed⟩

section Buckets

variable (hash : String → UInt64) (log : List Logged) (idx : ℕ) (slot : Slot)

/-- The record at the head of a slot, of a key that fits. -/
def HeadRecord (flags : UInt16) (valDtype : UInt32) (key : String) (payload : Bytes) : Prop :=
  (utf8 key).length < 2 ^ 16 ∧ ∃ prevOff, ∃ r ∈ log, r.pos = slot.headOff.toNat ∧
    r.bytes = encodeRecord flags valDtype key payload (UInt32.ofNat idx) (hash key) prevOff

/-- A slot of a key. -/
structure Keyed (key : String) : Prop where
  hash_eq : slot.hash = hash key
  keyLen : slot.keyLen = UInt32.ofNat (utf8 key).length

/-- What a slot and the record at its head stand for. -/
inductive Holds : Bucket String Value → Prop
  | empty (tag : slot.tag = slotEmpty) : Holds .empty
  | tomb (tag : slot.tag = slotTombstone)
      (head : slot.headOff = noHead ∨ ∃ key,
        HeadRecord hash log idx slot flagTombstone dtypeNone key []) :
      Holds .tomb
  | occupied {key : String} {val : Value} (tag : slot.tag = slotOccupied)
      (keyed : Keyed hash slot key) (scalar : isScalarDtype val.dtype = false)
      (head : HeadRecord hash log idx slot flagPut val.dtype.tag key val.encode) :
        Holds (.live key val)
  | inline {key : String} {val : Value} (tag : slot.tag = slotInline) (keyed : Keyed hash slot key)
      (stored : encodeInlineBytes val = some (slot.valDtype, slot.valBytes))
      (head : HeadRecord hash log idx slot flagPutInline dtypeNone key []) : Holds (.live key val)

variable {hash log idx slot} {flags : UInt16} {valDtype : UInt32} {key : String} {val : Value}
    {payload : Bytes}
  {b : Bucket String Value} {more : List Logged}

theorem HeadRecord.mono (h : HeadRecord hash log idx slot flags valDtype key payload)
    (hlog : ∀ r ∈ log, r ∈ more) :
    HeadRecord hash more idx slot flags valDtype key payload := by
  obtain ⟨hkey, prevOff, r, hr, hpos, hbytes⟩ := h
  exact ⟨hkey, prevOff, r, hlog r hr, hpos, hbytes⟩

/-- Records are only added. -/
theorem Holds.mono (h : Holds hash log idx slot b) (hlog : ∀ r ∈ log, r ∈ more) :
    Holds hash more idx slot b := by
  cases h with
  | empty tag => exact .empty tag
  | tomb tag head => exact .tomb tag (head.imp_right fun ⟨key, hrec⟩ => ⟨key, hrec.mono hlog⟩)
  | occupied tag keyed scalar head => exact .occupied tag keyed scalar (head.mono hlog)
  | inline tag keyed stored head => exact .inline tag keyed stored (head.mono hlog)

/-- A live slot holds its value exactly if the value is a scalar. -/
theorem Holds.tag_eq (h : Holds hash log idx slot (.live key val)) :
    slot.tag = if isScalarDtype val.dtype then slotInline else slotOccupied := by
  cases h with
  | occupied tag keyed scalar head => rw [tag, scalar, if_neg Bool.false_ne_true]
  | inline tag keyed stored head =>
      unfold encodeInlineBytes at stored
      split_ifs at stored with hscalar
      rw [tag, if_pos hscalar]

theorem Holds.keyed (h : Holds hash log idx slot (.live key val)) :
    Keyed hash slot key ∧ (utf8 key).length < 2 ^ 16 := by
  cases h with
  | occupied tag keyed scalar head => exact ⟨keyed, head.1⟩
  | inline tag keyed stored head => exact ⟨keyed, head.1⟩

theorem Holds.empty_iff (h : Holds hash log idx slot b) : slot.tag = slotEmpty ↔ b = .empty := by
  cases h with
  | empty tag => simp [tag]
  | tomb tag head => simp [tag, slotEmpty, slotTombstone]
  | occupied tag keyed scalar head => simp [tag, slotEmpty, slotOccupied]
  | inline tag keyed stored head => simp [tag, slotEmpty, slotInline]

theorem Holds.tomb_iff (h : Holds hash log idx slot b) : slot.tag = slotTombstone ↔ b = .tomb := by
  cases h with
  | empty tag => simp [tag, slotEmpty, slotTombstone]
  | tomb tag head => simp [tag]
  | occupied tag keyed scalar head => simp [tag, slotTombstone, slotOccupied]
  | inline tag keyed stored head => simp [tag, slotTombstone, slotInline]

theorem Holds.live_iff (h : Holds hash log idx slot b) :
    (slot.tag = slotOccupied ∨ slot.tag = slotInline) ↔ b.entry.isSome := by
  cases h with
  | empty tag => simp [tag, Bucket.entry, slotEmpty, slotOccupied, slotInline]
  | tomb tag head => simp [tag, Bucket.entry, slotTombstone, slotOccupied, slotInline]
  | occupied tag keyed scalar head => simp [tag, Bucket.entry]
  | inline tag keyed stored head => simp [tag, Bucket.entry]

end Buckets

section Reading

variable {hash : String → UInt64} {z : Sizes} {t : Traced} {idx : ℕ} {slot : Slot} {flags : UInt16}
  {valDtype : UInt32} {key : String} {payload : Bytes} {val : Value} {b : Bucket String Value}

/-- The record at the head of a slot is in the arena. -/
theorem HeadRecord.published (h : HeadRecord hash t.log idx slot flags valDtype key payload)
    (hi : Inv z t) :
    ∃ prevOff record, Published z.view t.buf slot.headOff.toNat record ∧
      record = encodeRecord flags valDtype key payload (UInt32.ofNat idx) (hash key) prevOff ∧
      record.length < 2 ^ 32 := by
  obtain ⟨-, prevOff, r, hr, hpos, hbytes⟩ := h
  obtain ⟨hstored, hbehind, hinside⟩ := hi.records r hr
  have hwithin := hi.within
  have hroom := hi.room
  have hcap := z.cap_lt
  rw [hpos] at hstored hbehind hinside
  refine ⟨prevOff, r.bytes, ⟨hbehind, hinside, ?_, hstored⟩, hbytes, by omega⟩
  change z.arenaStart + _ ≤ _
  omega

/-- The writer matches a slot exactly if it holds an entry of the key. -/
theorem Holds.matches_iff (h : Holds hash t.log idx slot b) (hi : Inv z t) (key : String) :
    MemhWriter.slotMatches t.buf slot key (hash key) = true ↔ ∃ val, b = .live key val := by
  have hmatch {other : String} {flags : UInt16} {valDtype : UInt32} {payload : Bytes}
      (hlive : slot.tag = slotOccupied ∨ slot.tag = slotInline) (hkeyed : Keyed hash slot other)
      (hhead : HeadRecord hash t.log idx slot flags valDtype other payload) :
      MemhWriter.slotMatches t.buf slot key (hash key) = true ↔ other = key := by
    obtain ⟨prevOff, record, hpub, hrecord, hshort⟩ := hhead.published hi
    have hread := hpub.headHasKey hrecord hhead.1 hshort key
    have hlen : slot.keyLen.toNat = (utf8 other).length := by
      rw [hkeyed.keyLen]
      exact UInt32.toNat_ofNat_of_lt' (hhead.1.trans (by decide))
    simp only [MemhWriter.slotMatches, Bool.and_eq_true, Bool.or_eq_true, decide_eq_true_eq,
      hread, hkeyed.hash_eq, hlen]
    constructor
    · exact fun h => h.2
    · rintro rfl
      exact ⟨⟨⟨hlive, rfl⟩, rfl⟩, rfl⟩
  have hdead (htag : ¬ (slot.tag = slotOccupied ∨ slot.tag = slotInline)) :
      ¬ MemhWriter.slotMatches t.buf slot key (hash key) = true := fun h => htag (live_of_matches h)
  cases h with
  | empty tag =>
      refine iff_of_false (hdead ?_) (not_exists.mpr fun _ => Bucket.empty_ne_live)
      rw [tag]
      decide
  | tomb tag head =>
      refine iff_of_false (hdead ?_) (not_exists.mpr fun _ => Bucket.tomb_ne_live)
      rw [tag]
      decide
  | @occupied other val tag keyed scalar head =>
      rw [hmatch (.inl tag) keyed head]
      constructor
      · rintro rfl
        exact ⟨val, rfl⟩
      · rintro ⟨v, hv⟩
        exact (Bucket.live.inj hv).1
  | @inline other val tag keyed stored head =>
      rw [hmatch (.inr tag) keyed head]
      constructor
      · rintro rfl
        exact ⟨val, rfl⟩
      · rintro ⟨v, hv⟩
        exact (Bucket.live.inj hv).1

/-- The record that a lookup reads at a slot, and the value that it then takes. -/
theorem Holds.looked_up (h : Holds hash t.log idx slot (.live key val)) (hi : Inv z t) :
    ∃ hdr record_data, z.view.headRecord t.buf slot.headOff = some (hdr, record_data, key) ∧
      hdr.slotIdx = UInt32.ofNat idx ∧
      ((slot.tag = slotOccupied ∧ hdr.flags = flagPut ∧
          (recordValue hdr record_data).map typedValueToValue = some val) ∨
        (slot.tag = slotInline ∧ hdr.flags = flagPutInline ∧
          (slotInlineValue slot.valDtype slot.valBytes).map typedValueToValue = some val)) := by
  cases h with
  | occupied tag keyed scalar head =>
      obtain ⟨prevOff, record, hpub, hrecord, hshort⟩ := head.published hi
      refine ⟨_, _, hpub.headRecord hrecord head.1 hshort, rfl, .inl ⟨tag, rfl, ?_⟩⟩
      rw [hrecord] at hshort ⊢
      exact recordValue_encode head.1 hshort
  | inline tag keyed stored head =>
      obtain ⟨prevOff, record, hpub, hrecord, hshort⟩ := head.published hi
      exact ⟨_, _, hpub.headRecord hrecord head.1 hshort, rfl,
        .inr ⟨tag, rfl, slotInlineValue_encode stored⟩⟩

end Reading

/-- Every slot of the table holds its bucket. -/
def Buckets (hash : String → UInt64) (z : Sizes) (t : Traced)
    (cell : ℕ → Bucket String Value) : Prop :=
  ∀ idx < z.numBuckets.toNat, Holds hash t.log idx (readSlot t.buf computeDataOffset idx) (cell idx)

section Lookups

variable {hash : String → UInt64} {z : Sizes} {t : Traced} {cell : ℕ → Bucket String Value}

def probed : Target → MemhWriter.Probed
  | .fresh i => .fresh i
  | .found i => .found i
  | .full => .absent

/-- The loop of an insertion is the search for its bucket. -/
theorem insertProbe_eq (hi : Inv z t) (hb : Buckets hash z t cell) (key : String) (n probe : ℕ)
    (first_tomb : Option ℕ) : z.writer.insertProbe t.buf key (hash key) n probe first_tomb =
      probed (target cell key ((List.range' probe n).map (z.writer.probeIdx (hash key)))
        first_tomb) := by
  induction n generalizing probe first_tomb with
  | zero => cases first_tomb <;> rfl
  | succ n ih =>
      have hh := hb _ (probeIdx_lt z.mask_lt (hash key) probe)
      have hempty := hh.empty_iff
      have htomb := hh.tomb_iff
      have hmatch := hh.matches_iff hi key
      have hdata : z.writer.dataOff = computeDataOffset := rfl
      rw [List.range'_succ, List.map_cons, MemhWriter.insertProbe, target]
      rw [hdata]
      cases hcell : cell (z.writer.probeIdx (hash key) probe) with
      | empty =>
          rw [if_pos (hempty.mpr hcell)]
          rfl
      | tomb =>
          rw [hcell] at hempty
          rw [if_neg (mt hempty.mp Bucket.tomb_ne_empty), if_pos (htomb.mpr hcell), ih]
      | live other val =>
          rw [hcell] at hempty htomb
          rw [if_neg (mt hempty.mp Bucket.live_ne_empty), if_neg (mt htomb.mp Bucket.live_ne_tomb)]
          by_cases hkey : other = key
          · subst hkey
            rw [if_pos (hmatch.mpr ⟨val, hcell⟩)]
            dsimp only
            rw [if_pos rfl]
            rfl
          · have hnot : ¬ MemhWriter.slotMatches t.buf
                (readSlot t.buf computeDataOffset (z.writer.probeIdx (hash key) probe)) key
                    (hash key) = true := by
              intro h
              obtain ⟨v, hv⟩ := hmatch.mp h
              exact hkey (Bucket.live.inj (hcell.symm.trans hv)).1
            rw [if_neg hnot, ih]
            dsimp only
            rw [if_neg hkey]

/-- The loop of a removal is a lookup. -/
theorem removeProbe_eq (hi : Inv z t) (hb : Buckets hash z t cell) (key : String) (n probe : ℕ) :
    z.writer.removeProbe t.buf key (hash key) n probe =
      match find cell key ((List.range' probe n).map (z.writer.probeIdx (hash key))) with
      | some (i, _) => .found i
      | none => .absent := by
  induction n generalizing probe with
  | zero => rfl
  | succ n ih =>
      have hh := hb _ (probeIdx_lt z.mask_lt (hash key) probe)
      have hempty := hh.empty_iff
      have hmatch := hh.matches_iff hi key
      have hdata : z.writer.dataOff = computeDataOffset := rfl
      rw [List.range'_succ, List.map_cons, MemhWriter.removeProbe, find]
      rw [hdata]
      have hnot (hne : ∀ v, cell (z.writer.probeIdx (hash key) probe) ≠ .live key v) :
          ¬ MemhWriter.slotMatches t.buf
            (readSlot t.buf computeDataOffset (z.writer.probeIdx (hash key) probe)) key (hash key)
              = true := by
        intro h
        obtain ⟨v, hv⟩ := hmatch.mp h
        exact hne v hv
      cases hcell : cell (z.writer.probeIdx (hash key) probe) with
      | empty => rw [if_pos (hempty.mpr hcell)]
      | tomb =>
          rw [hcell] at hempty
          rw [if_neg (mt hempty.mp Bucket.tomb_ne_empty),
            if_neg (hnot fun v hv => Bucket.tomb_ne_live (hcell.symm.trans hv)), ih]
      | live other val =>
          rw [hcell] at hempty
          rw [if_neg (mt hempty.mp Bucket.live_ne_empty)]
          dsimp only
          by_cases hkey : other = key
          · subst hkey
            rw [if_pos (hmatch.mpr ⟨val, hcell⟩), if_pos rfl]
          · rw [if_neg (hnot fun v hv => hkey (Bucket.live.inj (hcell.symm.trans hv)).1),
              if_neg hkey, ih]

/-- The loop of `get` is a lookup that decodes the value. -/
theorem getProbe_eq (hi : Inv z t) (hb : Buckets hash z t cell) (key : String) (n probe : ℕ) :
    (z.view.getProbe t.buf key (hash key) n probe).map typedValueToValue =
      (find cell key ((List.range' probe n).map (z.writer.probeIdx (hash key)))).map Prod.snd := by
  induction n generalizing probe with
  | zero => rfl
  | succ n ih =>
      have hh := hb _ (probeIdx_lt z.mask_lt (hash key) probe)
      have hempty := hh.empty_iff
      have hlive := hh.live_iff
      have hdata : z.view.dataOff = computeDataOffset := rfl
      have hidx : z.view.probeIdx (hash key) probe = z.writer.probeIdx (hash key) probe := rfl
      rw [List.range'_succ, List.map_cons, MemhView.getProbe, find]
      rw [hdata, hidx]
      cases hcell : cell (z.writer.probeIdx (hash key) probe) with
      | empty =>
          rw [if_pos (hempty.mpr hcell)]
          rfl
      | tomb =>
          rw [hcell] at hempty hlive
          rw [if_neg (mt hempty.mp Bucket.tomb_ne_empty),
            if_neg (mt hlive.mp Bool.false_ne_true), ih]
      | live other val =>
          rw [hcell] at hempty hlive hh
          obtain ⟨hkeyed, hshort⟩ := hh.keyed
          obtain ⟨hdr, record_data, hread, -, hvalue⟩ := hh.looked_up hi
          have hlen :
            (readSlot t.buf computeDataOffset (z.writer.probeIdx (hash key) probe)).keyLen.toNat =
              (utf8 other).length := by
            rw [hkeyed.keyLen]
            exact UInt32.toNat_ofNat_of_lt' (hshort.trans (by decide))
          rw [if_neg (mt hempty.mp Bucket.live_ne_empty), if_pos (hlive.mpr rfl),
            hkeyed.hash_eq, hlen, hread]
          dsimp only
          by_cases hkey : other = key
          · subst hkey
            rw [if_neg fun h => h rfl, if_neg fun h => h rfl, if_neg fun h => h rfl, if_pos rfl]
            rcases hvalue with ⟨htag, -, hvalue⟩ | ⟨htag, -, hvalue⟩
            · rw [if_neg (by rw [htag]; decide), hvalue]
              rfl
            · rw [if_pos htag, hvalue]
              rfl
          · -- another key is passed over at the first comparison that tells it apart
            have hnext :
              (if hash other ≠ hash key then z.view.getProbe t.buf key (hash key) n (probe + 1)
                else if (utf8 other).length ≠ (utf8 key).length then
                  z.view.getProbe t.buf key (hash key) n (probe + 1)
                else if other ≠ key then z.view.getProbe t.buf key (hash key) n (probe + 1)
                else if (readSlot t.buf computeDataOffset
                    (z.writer.probeIdx (hash key) probe)).tag = slotInline then
                  slotInlineValue
                    (readSlot t.buf computeDataOffset (z.writer.probeIdx (hash key) probe)).valDtype
                    (readSlot t.buf computeDataOffset (z.writer.probeIdx (hash key) probe)).valBytes
                else recordValue hdr record_data) =
                  z.view.getProbe t.buf key (hash key) n (probe + 1) := by
              split_ifs <;> rfl
            rw [hnext, if_neg hkey, ih]

/-- The iterator reads the header and the key at the head of a slot. -/
theorem HeadRecord.iterSlot {idx : ℕ} {flags : UInt16} {valDtype : UInt32} {key : String}
    {payload : Bytes} (h : HeadRecord hash t.log idx (readSlot t.buf computeDataOffset idx) flags
      valDtype key payload)
    (hi : Inv z t) (hidx : idx < z.numBuckets.toNat)
    (hlive : (readSlot t.buf computeDataOffset idx).tag = slotOccupied ∨
      (readSlot t.buf computeDataOffset idx).tag = slotInline) :
    ∃ prevOff record, record = encodeRecord flags valDtype key payload (UInt32.ofNat idx)
    (hash key) prevOff ∧
      record.length < 2 ^ 32 ∧
      z.view.iterSlot t.buf idx =
        if (readSlot t.buf computeDataOffset idx).tag = slotOccupied ∧ flags = flagPut then
          .ofOption key (recordValue
            (encodedHeader flags valDtype key payload (UInt32.ofNat idx) (hash key) prevOff) record)
        else if (readSlot t.buf computeDataOffset idx).tag = slotInline ∧ flags = flagPutInline then
          .ofOption key (slotInlineValue (readSlot t.buf computeDataOffset idx).valDtype
            (readSlot t.buf computeDataOffset idx).valBytes)
        else .skip := by
  obtain ⟨prevOff, record, hpub, hrecord, hshort⟩ := h.published hi
  obtain ⟨hrange, hheader⟩ := hpub.header_read hrecord
  have hlen :
    (encodedHeader flags valDtype key payload (UInt32.ofNat idx) (hash key)
    prevOff).recordLen.toNat =
      record.length := by
    rw [hrecord]
    exact encodedHeader_recordLen (hrecord ▸ hshort)
  have hslot : (UInt32.ofNat idx).toNat = idx :=
    UInt32.toNat_ofNat_of_lt' (hidx.trans (UInt32.toNat_lt _))
  have hlong :=
    (encodeRecord_spec flags valDtype key payload (UInt32.ofNat idx) (hash key) prevOff).1
  rw [← hrecord] at hlong
  have hinside := hpub.inside
  have hdata : z.view.dataOff = computeDataOffset := rfl
  refine ⟨prevOff, record, hrecord, hshort, ?_⟩
  unfold MemhView.iterSlot
  dsimp only
  rw [hdata, if_neg (not_and_or.mpr (hlive.imp not_not.mpr not_not.mpr)), if_neg hrange, hheader]
  dsimp only
  rw [hlen]
  have hfits : ¬ (record.length < arenaHdrSize ∨
      z.view.liveEnd t.buf < (readSlot t.buf computeDataOffset idx).headOff.toNat + record.length ∨
      (encodedHeader flags valDtype key payload (UInt32.ofNat idx) (hash key)
        prevOff).slotIdx.toNat ≠ idx) := by
    rintro (hshort | hpast | hother)
    · omega
    · omega
    · exact hother hslot
  rw [if_neg hfits, hpub.whole]
  dsimp only
  rw [Published.key_read hrecord h.1 hshort]
  rfl

/-- The iterator yields the entry of a live slot, and passes over every other one. -/
theorem iterSlot_eq (hi : Inv z t) (hb : Buckets hash z t cell) {idx : ℕ}
    (hidx : idx < z.numBuckets.toNat) :
    match (cell idx).entry with
    | none => z.view.iterSlot t.buf idx = .skip
    | some (key, val) => ∃ value, z.view.iterSlot t.buf idx = .yield key value ∧
    typedValueToValue value = val := by
  have hh := hb idx hidx
  have hlive := hh.live_iff
  have hyield {key : String} {val : Value} {o : Option TypedValue}
    (ho : o.map typedValueToValue = some val) :
      ∃ value, MemhView.Visited.ofOption key o = .yield key value ∧
      typedValueToValue value = val := by
    obtain ⟨value, rfl, hvalue⟩ := Option.map_eq_some_iff.mp ho
    exact ⟨value, rfl, hvalue⟩
  cases hcell : cell idx with
  | empty =>
      rw [hcell] at hlive
      exact if_pos (not_or.mp fun h => nomatch hlive.mp h)
  | tomb =>
      rw [hcell] at hlive
      exact if_pos (not_or.mp fun h => nomatch hlive.mp h)
  | live key val =>
      rw [hcell] at hlive hh
      dsimp only [Bucket.entry]
      cases hh with
      | occupied tag keyed scalar head =>
          obtain ⟨prevOff, record, hrecord, hshort, hiter⟩ := head.iterSlot hi hidx (.inl tag)
          rw [hiter, if_pos ⟨tag, rfl⟩]
          rw [hrecord] at hshort ⊢
          exact hyield (recordValue_encode head.1 hshort)
      | inline tag keyed stored head =>
          obtain ⟨prevOff, record, -, -, hiter⟩ := head.iterSlot hi hidx (.inr tag)
          rw [hiter, if_neg (fun h => absurd h.2 (by decide)), if_pos ⟨tag, rfl⟩]
          exact hyield (slotInlineValue_encode stored)

/-- The pairs that the iterator yields are the entries, bucket by bucket. -/
theorem iter_eq (hi : Inv z t) (hb : Buckets hash z t cell) :
    (z.view.iter t.buf).map (fun p => (p.1, typedValueToValue p.2)) =
      entries z.numBuckets.toNat cell := by
  have hfrom (idxs : List ℕ) (hidxs : ∀ idx ∈ idxs, idx < z.numBuckets.toNat) :
      (z.view.iterFrom t.buf idxs).map (fun p => (p.1, typedValueToValue p.2)) =
        idxs.filterMap fun i => (cell i).entry := by
    induction idxs with
    | nil => rfl
    | cons idx rest ih =>
        have hstep := iterSlot_eq hi hb (hidxs idx List.mem_cons_self)
        have hrest := ih fun i hi => hidxs i (List.mem_cons_of_mem _ hi)
        rw [MemhView.iterFrom]
        cases hentry : (cell idx).entry with
        | none =>
            rw [hentry] at hstep
            rw [hstep, List.filterMap_cons_none (f := fun i => (cell i).entry) hentry]
            exact hrest
        | some pair =>
            obtain ⟨key, val⟩ := pair
            rw [hentry] at hstep
            obtain ⟨value, hvisit, rfl⟩ := hstep
            rw [hvisit, List.filterMap_cons_some (f := fun i => (cell i).entry) hentry]
            dsimp only
            rw [List.map_cons, hrest]
  exact hfrom _ fun idx h => List.mem_range.mp h

theorem len_eq (hb : Buckets hash z t cell) :
    z.view.len t.buf = (entries z.numBuckets.toNat cell).length := by
  rw [length_entries, MemhView.len, ← List.countP_eq_length_filter]
  apply List.countP_congr
  intro idx hidx
  have hlive := (hb idx (List.mem_range.mp hidx)).live_iff
  simp only [Bool.or_eq_true, decide_eq_true_eq]
  exact hlive

end Lookups

end Probing.Memh.Table
