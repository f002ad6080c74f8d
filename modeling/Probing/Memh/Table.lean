import Probing.Memh.Record
import Probing.Memt.Layout

/-!
# The bytes of a hash table

A header of 128 bytes, 32 bytes of geometry, the slots and the arena. One writer calls
`insert` and `remove`; between its calls no process is inside a slot, so a slot is read
without waiting and no journal is restored. Whether a call becomes the owner of the writer
lock is decided outside; an owner leaves the lock words as it found them.
-/

namespace Probing.Memh.Table

open Probing.Core Probing.Memt

def magicMemh : UInt32 := 0x484D454D
def versionMemh : UInt16 := 5

/-- `size_of::<MemhHeader>()`. -/
def sizeOfHeader : ℕ := 128

/-- `size_of::<MemhMeta>()`. -/
def metaSize : ℕ := 32

/-- `u32::MAX`, the head offset of a tombstone without a record. -/
def noHead : UInt32 := 0xFFFFFFFF

structure MemhHeader where
  magic : UInt32
  version : UInt16
  headerSize : UInt16
  byteOrder : UInt16
  pad0 : UInt16
  flags : UInt32
  numBuckets : UInt32
  dataOffset : UInt32
  reservedCold : UInt64
  arenaBump : UInt32
  refcount : UInt32
  writerPid : UInt32
  journalState : UInt32
  writerStartTime : UInt64
  creatorPid : UInt32
  padHot : UInt32
  creatorStartTime : UInt64
  journalSlotOff : UInt32
  writerClaim : UInt32

/-- The journal and the reserved words at the end are zero at first. -/
def MemhHeader.bytes (h : MemhHeader) : Bytes :=
  le h.magic ++
    (le h.version ++ (le h.headerSize ++ (le h.byteOrder ++ (le h.pad0 ++ (le h.flags ++
    (le h.numBuckets ++
      (le h.dataOffset ++ (le h.reservedCold ++ (le h.arenaBump ++ (le h.refcount ++
    (le h.writerPid ++ (le h.journalState ++ (le h.writerStartTime ++ (le h.creatorPid ++
    (le h.padHot ++ (le h.creatorStartTime ++ (le h.journalSlotOff ++ (le h.writerClaim ++
    List.replicate 48 0))))))))))))))))))

def header (buf : Bytes) : MemhHeader where
  magic := getLe UInt32 buf 0
  version := getLe UInt16 buf 4
  headerSize := getLe UInt16 buf 6
  byteOrder := getLe UInt16 buf 8
  pad0 := getLe UInt16 buf 10
  flags := getLe UInt32 buf 12
  numBuckets := getLe UInt32 buf 16
  dataOffset := getLe UInt32 buf 20
  reservedCold := getLe UInt64 buf 24
  arenaBump := getLe UInt32 buf 32
  refcount := getLe UInt32 buf 36
  writerPid := getLe UInt32 buf 40
  journalState := getLe UInt32 buf 44
  writerStartTime := getLe UInt64 buf 48
  creatorPid := getLe UInt32 buf 56
  padHot := getLe UInt32 buf 60
  creatorStartTime := getLe UInt64 buf 64
  journalSlotOff := getLe UInt32 buf 72
  writerClaim := getLe UInt32 buf 76

structure MemhMeta where
  slotStride : UInt32
  pad : UInt32
  arenaStart : UInt32
  arenaCap : UInt32
  hashSeed : UInt64
  reserved : UInt64

def MemhMeta.bytes (m : MemhMeta) : Bytes :=
  le m.slotStride ++
    (le m.pad ++ (le m.arenaStart ++ (le m.arenaCap ++ (le m.hashSeed ++ le m.reserved))))

def geometry (buf : Bytes) : MemhMeta where
  slotStride := getLe UInt32 buf metaOffset
  pad := getLe UInt32 buf (metaOffset + 4)
  arenaStart := getLe UInt32 buf (metaOffset + 8)
  arenaCap := getLe UInt32 buf (metaOffset + 12)
  hashSeed := getLe UInt64 buf (metaOffset + 16)
  reserved := getLe UInt64 buf (metaOffset + 24)

/-- What initialisation takes from its process. -/
structure Creator where
  pid : UInt32
  startTime : UInt64

def initHeader (creator : Creator) (numBuckets dataOff : UInt32) : MemhHeader where
  magic := magicMemh
  version := versionMemh
  headerSize := UInt16.ofNat sizeOfHeader
  byteOrder := Layout.byteOrderMark
  pad0 := 0
  flags := 0
  numBuckets := numBuckets
  dataOffset := dataOff
  reservedCold := 0
  arenaBump := 0
  refcount := 1
  writerPid := 0
  journalState := 0
  writerStartTime := 0
  creatorPid := creator.pid
  padHot := 0
  creatorStartTime := creator.startTime
  journalSlotOff := 0
  writerClaim := 0

def initMetaFields (arenaStart arenaCap : UInt32) (hashSeed : UInt64) : MemhMeta where
  slotStride := UInt32.ofNat sizeOfSlot
  pad := 0
  arenaStart := arenaStart
  arenaCap := arenaCap
  hashSeed := hashSeed
  reserved := 0

inductive MemhInitError where
  | BufferTooSmall (need got : ℕ)
  | MisalignedBuffer (required : ℕ)
  | BucketsNotPowerOfTwo (n : UInt32)
  | BucketsZero
  | ArenaTooSmall
  | ArenaTooLarge
  deriving DecidableEq

inductive MemhValidateError where
  | TooShort
  | MisalignedBuffer (required : ℕ)
  | WrongMagic (m : UInt32)
  | UnsupportedVersion (v : UInt16)
  | InvalidLayout (message : String)
  | CorruptEntry (bucket : ℕ)
  deriving DecidableEq

/-- The stores of `init_buf` once its checks have passed. -/
def initStores (creator : Creator) (numBuckets : UInt32) (arenaCap : ℕ) (hashSeed : UInt64) :
    List Core.Store :=
  let arenaStart := arenaStartAbs numBuckets.toNat computeDataOffset
  [⟨0, List.replicate (arenaStart + arenaCap) 0⟩,
    ⟨0, (initHeader creator numBuckets (UInt32.ofNat computeDataOffset)).bytes⟩,
    ⟨metaOffset,
      (initMetaFields (UInt32.ofNat arenaStart) (UInt32.ofNat arenaCap) hashSeed).bytes⟩]

/-- The slots and the arena of 32-bit sizes never overflow a machine word. -/
def initBuf (addr : ℕ) (creator : Creator) (buf : Bytes) (numBuckets : UInt32) (arenaCap : ℕ)
    (hashSeed : UInt64) : Except MemhInitError Bytes :=
  let need := arenaStartAbs numBuckets.toNat computeDataOffset + arenaCap
  if addr % 8 ≠ 0 then .error (.MisalignedBuffer 8)
  else if numBuckets = 0 then .error .BucketsZero
  else if numBuckets &&& (numBuckets - 1) ≠ 0 then .error (.BucketsNotPowerOfTwo numBuckets)
  else if arenaCap = 0 then .error .ArenaTooSmall
  else if 2 ^ 32 ≤ arenaCap then .error .ArenaTooLarge
  else if buf.length < need then .error (.BufferTooSmall need buf.length)
  else .ok (storeAll buf (initStores creator numBuckets arenaCap hashSeed))

/-- The fields of a slot that `read_slot` returns. -/
@[ext] structure Slot where
  tag : UInt8
  valDtype : UInt8
  keyLen : UInt32
  hash : UInt64
  headOff : UInt32
  valBytes : Bytes

/-- A slot that no writer is inside. -/
def readSlot (buf : Bytes) (dataOffset idx : ℕ) : Slot where
  tag := getLe UInt8 buf (slotOff dataOffset idx)
  valDtype := getLe UInt8 buf (slotOff dataOffset idx + 1)
  keyLen := getLe UInt32 buf (slotOff dataOffset idx + 4)
  hash := getLe UInt64 buf (slotOff dataOffset idx + 8)
  headOff := getLe UInt32 buf (slotOff dataOffset idx + 16)
  valBytes := slice buf (slotOff dataOffset idx + 24) 8

/-- The generation of the slot at an offset. -/
def slotGeneration (buf : Bytes) (slot_offset : ℕ) : UInt32 := getLe UInt32 buf (slot_offset + 20)

/-- The checks that `validate_memh` makes on a slot. -/
def validateSlot (buf : Bytes) (dataOff arenaStart idx : ℕ) : Bool :=
  let slot := readSlot buf dataOff idx
  if slotInline < slot.tag then false
  else if slot.tag = slotEmpty then true
  else if slot.tag = slotTombstone ∧ slot.headOff = noHead then true
  else
    let ho := slot.headOff.toNat
    let live_arena_end := arenaStart + (header buf).arenaBump.toNat
    if ho < arenaStart ∨ live_arena_end < ho + arenaHdrSize then false
    else
      match readRecordHeader (slice buf ho (live_arena_end - ho)) with
      | none => false
      | some record =>
          let record_end := ho + record.recordLen.toNat
          !(decide (record.recordLen.toNat < arenaHdrSize) ||
            decide (live_arena_end < record_end) || decide (record.slotIdx.toNat ≠ idx) ||
            (recordKey record (slice buf ho (record_end - ho))).isNone)

def validateMemh (addr : ℕ) (buf : Bytes) : Except MemhValidateError Unit :=
  if buf.length < sizeOfHeader + metaSize then .error .TooShort
  else if addr % 8 ≠ 0 then .error (.MisalignedBuffer 8)
  else
    let h := header buf
    let m := geometry buf
    let arenaStart := m.arenaStart.toNat
    if h.magic ≠ magicMemh then .error (.WrongMagic h.magic)
    else if h.version ≠ versionMemh then .error (.UnsupportedVersion h.version)
    else if h.headerSize.toNat ≠ sizeOfHeader then .error (.InvalidLayout "invalid header_size")
    else if h.byteOrder ≠ Layout.byteOrderMark then .error (.InvalidLayout "byte order mismatch")
    else if h.numBuckets = 0 ∨ h.numBuckets &&& (h.numBuckets - 1) ≠ 0 then
      .error (.InvalidLayout "num_buckets must be a non-zero power of two")
    else if h.dataOffset.toNat ≠ computeDataOffset then
      .error (.InvalidLayout "invalid data_offset")
    else if m.slotStride.toNat ≠ sizeOfSlot then .error (.InvalidLayout "invalid slot_stride")
    else if arenaStart ≠ arenaStartAbs h.numBuckets.toNat h.dataOffset.toNat then
      .error (.InvalidLayout "invalid arena_start")
    else if buf.length < arenaStart + m.arenaCap.toNat then
      .error (.InvalidLayout "arena exceeds buffer")
    else if m.arenaCap.toNat < h.arenaBump.toNat then
      .error (.InvalidLayout "arena bump exceeds capacity")
    else
      match (List.range h.numBuckets.toNat).find? fun idx =>
          !validateSlot buf h.dataOffset.toNat arenaStart idx with
      | some idx => .error (.CorruptEntry idx)
      | none => .ok ()

section SlotWrites

/-- The slot goes to the journal, then its generation becomes odd. -/
def beginStores (buf : Bytes) (slot_offset : ℕ) : List Core.Store :=
  [⟨80, slice buf slot_offset 8⟩, ⟨88, slice buf (slot_offset + 8) 8⟩,
    ⟨96, slice buf (slot_offset + 16) 8⟩, ⟨104, slice buf (slot_offset + 24) 8⟩,
    ⟨72, le (UInt32.ofNat slot_offset)⟩, ⟨44, le (1 : UInt32)⟩,
    ⟨slot_offset + 16, le (getLe UInt32 buf (slot_offset + 16)) ++
      le (oddGeneration (slotGeneration buf slot_offset))⟩]

def finishStores (slot_offset : ℕ) (headOff odd : UInt32) : List Core.Store :=
  [⟨slot_offset + 16, le headOff ++ le (evenGeneration odd)⟩, ⟨44, le (0 : UInt32)⟩]

/-- A change of the other words of a slot between `begin_slot_write` and `finish_slot_write`. -/
def slotWrite (buf : Bytes) (slot_offset : ℕ) (headOff : UInt32)
    (words : List Core.Store) : Bytes :=
  storeAll buf (beginStores buf slot_offset ++ (words ++
    finishStores slot_offset headOff (oddGeneration (slotGeneration buf slot_offset))))

def commitSlot (buf : Bytes) (dataOffset idx : ℕ) (tag valDtype : UInt8)
    (keyLen : UInt32) (hash : UInt64) (headOff : UInt32) (valBytes : Bytes) : Bytes :=
  let o := slotOff dataOffset idx
  slotWrite buf o headOff
    [⟨o, le tag ++ (le valDtype ++ (le (0 : UInt16) ++ le keyLen))⟩, ⟨o + 8, le hash⟩,
      ⟨o + 24, valBytes⟩]

def commitSlotHead (buf : Bytes) (dataOffset idx : ℕ) (tag : UInt8) (headOff : UInt32) : Bytes :=
  let o := slotOff dataOffset idx
  slotWrite buf o headOff [⟨o, le tag ++ slice buf (o + 1) 7⟩]

def updateSlotInlineValue (buf : Bytes) (dataOffset idx : ℕ) (valDtype : UInt8)
    (valBytes : Bytes) : Bytes :=
  let o := slotOff dataOffset idx
  slotWrite buf o (getLe UInt32 buf (o + 16))
    [⟨o, le slotInline ++ (le valDtype ++ slice buf (o + 2) 6)⟩, ⟨o + 24, valBytes⟩]

end SlotWrites

inductive InsertResult where
  | Inserted
  | Updated
  deriving DecidableEq

inductive InsertError where
  | TableFull
  | ArenaFull
  | InvalidValue
  | WriterBusy
  deriving DecidableEq

/-- What a call has done to the head of a slot. The code keeps no such history. -/
inductive Event where
  /-- A record was appended at a position, in machine words, and the head was computed from it. -/
  | linked (idx abs : ℕ) (record : Bytes) (fresh : Bool)
  /-- The arena had no room for the record of a removal. -/
  | unlinked (idx : ℕ)

/-- The buffer after a call, with its history and its result. -/
structure Outcome (α : Type) where
  buf : Bytes
  event : Option Event
  result : α

/-- The fields of the writer, without the buffer and the scratch bytes. -/
structure MemhWriter where
  dataOff : ℕ
  numBuckets : ℕ
  mask : ℕ
  arenaStart : ℕ
  arenaCap : ℕ
  hashSeed : UInt64

namespace MemhWriter

def newUnchecked (buf : Bytes) : MemhWriter where
  dataOff := (header buf).dataOffset.toNat
  numBuckets := (header buf).numBuckets.toNat
  mask := (header buf).numBuckets.toNat - 1
  arenaStart := (geometry buf).arenaStart.toNat
  arenaCap := (geometry buf).arenaCap.toNat
  hashSeed := (geometry buf).hashSeed

variable (w : MemhWriter) (buf : Bytes)

def probeIdx (kh : UInt64) (probe : ℕ) : ℕ := (kh.toNat &&& w.mask) + probe &&& w.mask

/-- The record at the head of a slot has the key. -/
def headHasKey (headOff : UInt32) (key : String) : Bool :=
  let ho := headOff.toNat
  ho ≤ buf.length &&
    (readRecordHeader (buf.drop ho)).bind (fun hdr => recordKey hdr (buf.drop ho)) == some key

/-- A live slot of the key. -/
def slotMatches (slot : Slot) (key : String) (kh : UInt64) : Bool :=
  (slot.tag = slotOccupied || slot.tag = slotInline) && slot.hash = kh && slot.keyLen.toNat =
    (utf8 key).length && headHasKey buf slot.headOff key

/-- Where a probe ends. -/
inductive Probed where
  | fresh (idx : ℕ)
  | found (idx : ℕ)
  | absent

/-- The loop of `insert_locked` over the probes that are left. -/
def insertProbe (key : String) (kh : UInt64) : ℕ → ℕ → Option ℕ → Probed
  | 0, _, first_tomb => (first_tomb.map .fresh).getD .absent
  | n + 1, probe, first_tomb =>
      let idx := w.probeIdx kh probe
      let slot := readSlot buf w.dataOff idx
      if slot.tag = slotEmpty then .fresh (first_tomb.getD idx)
      else if slot.tag = slotTombstone then
        insertProbe key kh n (probe + 1) (some (first_tomb.getD idx))
      else if slotMatches buf slot key kh then .found idx
      else insertProbe key kh n (probe + 1) first_tomb

/-- The loop of `remove_locked`. -/
def removeProbe (key : String) (kh : UInt64) : ℕ → ℕ → Probed
  | 0, _ => .absent
  | n + 1, probe =>
      let idx := w.probeIdx kh probe
      let slot := readSlot buf w.dataOff idx
      if slot.tag = slotEmpty then .absent
      else if slotMatches buf slot key kh then .found idx
      else removeProbe key kh n (probe + 1)

/-- The record at the end of the arena, where it has room. -/
def appendRecord (bump : ℕ) (record : Bytes) : Option (Bytes × ℕ) :=
  if w.arenaCap < bump + record.length then none
  else
    let abs := w.arenaStart + bump
    some (storeAll buf [⟨abs, record⟩, ⟨32, le (UInt32.ofNat (bump + record.length))⟩], abs)

def encodePut (slotIdx : ℕ) (key : String) (val : Value) (kh : UInt64) (is_scalar : Bool)
    (prevOff : UInt32) :
    Bytes :=
  if is_scalar then encodePutInlineRecord key (UInt32.ofNat slotIdx) kh prevOff
  else encodePutRecord key val (UInt32.ofNat slotIdx) kh prevOff

def writeNewEntry (slotIdx : ℕ) (key : String) (val : Value) (kh : UInt64) (bump : ℕ)
    (is_scalar : Bool) :
    Outcome (Except InsertError Unit) :=
  let record := encodePut slotIdx key val kh is_scalar noPrev
  match w.appendRecord buf bump record with
  | none => ⟨buf, none, .error .ArenaFull⟩
  | some (appended, abs) =>
      let headOff := UInt32.ofNat abs
      let keyLen := UInt32.ofNat (utf8 key).length
      let event := Event.linked slotIdx abs record true
      if is_scalar then
        match encodeInlineBytes val with
        | none => ⟨appended, none, .error .InvalidValue⟩
        | some (dtype, inline_bytes) =>
            ⟨commitSlot appended w.dataOff slotIdx slotInline dtype keyLen kh headOff inline_bytes,
              event, .ok ()⟩
      else
        ⟨commitSlot appended w.dataOff slotIdx slotOccupied 0 keyLen kh headOff
          (List.replicate 8 0), event, .ok ()⟩

def writeUpdate (slotIdx : ℕ) (old_tag : UInt8) (key : String) (val : Value)
    (kh : UInt64) (bump : ℕ)
    (is_scalar : Bool) (old_head_off : UInt32) : Outcome (Except InsertError Unit) :=
  if old_tag = slotInline ∧ is_scalar then
    match encodeInlineBytes val with
    | none => ⟨buf, none, .error .InvalidValue⟩
    | some (dtype, inline_bytes) =>
        ⟨updateSlotInlineValue buf w.dataOff slotIdx dtype inline_bytes, none, .ok ()⟩
  else
    let record := encodePut slotIdx key val kh is_scalar old_head_off
    match w.appendRecord buf bump record with
    | none => ⟨buf, none, .error .ArenaFull⟩
    | some (appended, abs) =>
        let new_head_off := UInt32.ofNat abs
        let event := Event.linked slotIdx abs record false
        if is_scalar then
          match encodeInlineBytes val with
          | none => ⟨appended, none, .error .InvalidValue⟩
          | some (dtype, inline_bytes) =>
              ⟨commitSlot appended w.dataOff slotIdx slotInline dtype
                (UInt32.ofNat (utf8 key).length) kh new_head_off inline_bytes, event, .ok ()⟩
        else ⟨commitSlotHead appended w.dataOff slotIdx slotOccupied new_head_off, event, .ok ()⟩

variable (hash_key : UInt64 → String → UInt64)

def insertLocked (key : String) (val : Value) : Outcome (Except InsertError InsertResult) :=
  let kh := hash_key w.hashSeed key
  let is_scalar := isScalarDtype val.dtype
  let bump := (header buf).arenaBump.toNat
  match w.insertProbe buf key kh w.numBuckets 0 none with
  | .fresh target =>
      let done := w.writeNewEntry buf target key val kh bump is_scalar
      ⟨done.buf, done.event, done.result.map fun _ => .Inserted⟩
  | .found idx =>
      let slot := readSlot buf w.dataOff idx
      let done := w.writeUpdate buf idx slot.tag key val kh bump is_scalar slot.headOff
      ⟨done.buf, done.event, done.result.map fun _ => .Updated⟩
  | .absent => ⟨buf, none, .error .TableFull⟩

def removeLocked (key : String) : Outcome Bool :=
  let kh := hash_key w.hashSeed key
  match w.removeProbe buf key kh w.numBuckets 0 with
  | .found idx =>
      let slot := readSlot buf w.dataOff idx
      let bump := (header buf).arenaBump.toNat
      let record := encodeTombstoneRecord key (UInt32.ofNat idx) kh slot.headOff
      match w.appendRecord buf bump record with
      | some (appended, abs) =>
          ⟨commitSlotHead appended w.dataOff idx slotTombstone (UInt32.ofNat abs),
            some (.linked idx abs record false), true⟩
      | none => ⟨commitSlotHead buf w.dataOff idx slotTombstone noHead, some (.unlinked idx), true⟩
  | _ => ⟨buf, none, false⟩

/-- Whether `acquire_writer` returns a guard is a part of the call. -/
def insert (acquired : Bool) (key : String) (val : Value) :
    Outcome (Except InsertError InsertResult) :=
  if acquired then w.insertLocked buf hash_key key val else ⟨buf, none, .error .WriterBusy⟩

def remove (acquired : Bool) (key : String) : Outcome Bool :=
  if acquired then w.removeLocked buf hash_key key else ⟨buf, none, false⟩

end MemhWriter

end Probing.Memh.Table
