import Probing.Memh.Layout

/-!
# Slot transactions and their journal

The atomic steps an owner of the writer lock takes on the slot array and on the
recovery journal: `recover_slot_journal`, `begin_slot_write`, the four slot
updates and `finish_slot_write`. Every step performs one load or one store.
-/

namespace Probing.Memh

/-- The geometry `validate_memh` accepts: the arena start, just behind the
bucket array, has to survive its `u32` field. -/
structure Geometry where
  numBuckets : ℕ
  fits : arenaStartAbs numBuckets computeDataOffset < 2 ^ 32

theorem one_bucket_fits : arenaStartAbs 1 computeDataOffset < 2 ^ 32 := by decide

def Geometry.slotsEnd (G : Geometry) : ℕ := arenaStartAbs G.numBuckets computeDataOffset

/-- Byte offset of slot `idx` of a table. -/
def slotOffset (idx : ℕ) : ℕ := slotOff computeDataOffset idx

/-- The bucket array and the journal of one table. `committed` records, for
every slot index, the images that slot has been committed with; the code does
not store it. -/
structure Store where
  /-- The 64-bit word at each byte offset. -/
  mem : ℕ → UInt64
  journalState : UInt32
  journalSlotOff : UInt32
  journalWords : Fin 4 → UInt64
  committed : ℕ → List Image

namespace Store

/-- `slot_word(buf, off, w).load()`. -/
def load (st : Store) (off : ℕ) (w : Fin 4) : UInt64 := st.mem (off + 8 * w)

/-- `slot_word(buf, off, w).store(v)`. -/
def store (st : Store) (off : ℕ) (w : Fin 4) (v : UInt64) : Store :=
  { st with mem := Function.update st.mem (off + 8 * w) v }

def image (st : Store) (off : ℕ) : Image := .ofWords (st.load off)

def journal (st : Store) : Image := .ofWords st.journalWords

/-- The freshly initialised table: every word is zero. -/
def initial : Store where
  mem := fun _ => 0
  journalState := 0
  journalSlotOff := 0
  journalWords := fun _ => 0
  committed := fun _ => [⟨0, 0, 0, 0⟩]

end Store

/-- One payload access between `begin_slot_write` and `finish_slot_write`. -/
inductive BodyOp where
  | word0 (v : UInt64)
  | hash (v : UInt64)
  | value (v : UInt64)
  /-- Load word 0 and store it with a new tag and, where given, a new type. -/
  | patchWord0 (tag : UInt8) (valDtype : Option UInt8)
  deriving DecidableEq, Repr

/-- The four functions that change a slot. -/
inductive SlotUpdate where
  | commitSlot (tag valDtype : UInt8) (keyLen : UInt32) (hash : UInt64)
      (headOff : UInt32) (valBytes : UInt64)
  | commitSlotHead (tag : UInt8) (headOff : UInt32)
  | updateSlotInlineValue (valDtype : UInt8) (valBytes : UInt64)
  | clearSlot (tombstone : Bool)
  deriving DecidableEq, Repr

/-- Word 0 of a slot: tag, value type, two padding bytes and the key length. -/
def packWord0 (tag valDtype : UInt8) (keyLen : UInt32) : UInt64 :=
  .ofNat (tag.toNat + valDtype.toNat * 2 ^ 8 + keyLen.toNat * 2 ^ 32)

/-- Replace byte `n` of a little-endian word. -/
def setByte (word : UInt64) (n : ℕ) (b : UInt8) : UInt64 :=
  .ofNat (word.toNat - (byteOf word n).toNat * 256 ^ n + b.toNat * 256 ^ n)

def patchWord0 (word : UInt64) (tag : UInt8) : Option UInt8 → UInt64
  | none => setByte word 0 tag
  | some valDtype => setByte (setByte word 0 tag) 1 valDtype

namespace SlotUpdate

/-- The payload accesses of an update, in program order. -/
def body : SlotUpdate → List BodyOp
  | commitSlot tag valDtype keyLen hash _ valBytes =>
      [.word0 (packWord0 tag valDtype keyLen), .hash hash, .value valBytes]
  | commitSlotHead tag _ => [.patchWord0 tag none]
  | updateSlotInlineValue valDtype valBytes =>
      [.patchWord0 slotInline (some valDtype), .value valBytes]
  | clearSlot tombstone =>
      [.word0 (if tombstone then slotTombstone else slotEmpty).toUInt64, .hash 0, .value 0]

/-- The head offset an update publishes over the one it found. -/
def head (found : UInt32) : SlotUpdate → UInt32
  | commitSlot _ _ _ _ headOff _ => headOff
  | commitSlotHead _ headOff => headOff
  | updateSlotInlineValue _ _ => found
  | clearSlot _ => 0

end SlotUpdate

/-- Program counter of the lock owner. -/
inductive TxPc where
  /-- `recover_slot_journal`. -/
  | journalState
  | journalOff
  | journalGen (off : ℕ)
  | journalLoad (off : ℕ) (w : Fin 4)
  | journalStore (off : ℕ) (w : Fin 4) (v : UInt64)
  | journalClear
  /-- The journal's slot offset was rejected. -/
  | refused
  /-- Recovery is over and no update is under way. -/
  | held
  /-- `begin_slot_write`. -/
  | beginLoad (idx : ℕ) (u : SlotUpdate) (w : Fin 4)
  | beginSave (idx : ℕ) (u : SlotUpdate) (w : Fin 4) (v : UInt64)
  | beginOff (idx : ℕ) (u : SlotUpdate)
  | beginValid (idx : ℕ) (u : SlotUpdate)
  | beginControl (idx : ℕ) (u : SlotUpdate)
  | beginOdd (idx : ℕ) (u : SlotUpdate) (headOff generation : UInt32)
  /-- The payload accesses still to do; none left is the first store of
  `finish_slot_write`. -/
  | body (idx : ℕ) (headOff odd : UInt32) (ops : List BodyOp)
  | finishClear (idx : ℕ)
  deriving DecidableEq

/-- The word after `w` in a loop over the four words. -/
def nextWord (w : Fin 4) : Option (Fin 4) := if h : w.val + 1 < 4 then some ⟨w + 1, h⟩ else none

/-- The control word `finish_slot_write` publishes. -/
def finishControl (headOff odd : UInt32) : UInt64 := packControl headOff (evenGeneration odd)

/-- One atomic step of the lock owner. -/
def transact (G : Geometry) (st : Store) : TxPc → Store × TxPc
  | .journalState => (st, if st.journalState = 0 then .held else .journalOff)
  | .journalOff =>
      let off := st.journalSlotOff.toNat
      (st, if off < computeDataOffset ∨ G.slotsEnd < off + sizeOfSlot ∨ off % 8 ≠ 0 then
          .refused else .journalGen off)
  | .journalGen off =>
      (st, if isOdd (st.load off 2) then .journalLoad off 0 else .journalClear)
  | .journalLoad off w => (st, .journalStore off w (st.journalWords w))
  | .journalStore off w v =>
      (st.store off w v, ((nextWord w).map (.journalLoad off)).getD .journalClear)
  | .journalClear => ({ st with journalState := 0 }, .held)
  | .refused => (st, .refused)
  | .held => (st, .held)
  | .beginLoad idx u w => (st, .beginSave idx u w (st.load (slotOffset idx) w))
  | .beginSave idx u w v =>
      ({ st with journalWords := Function.update st.journalWords w v },
        ((nextWord w).map (.beginLoad idx u)).getD (.beginOff idx u))
  | .beginOff idx u =>
      ({ st with journalSlotOff := .ofNat (slotOffset idx) }, .beginValid idx u)
  | .beginValid idx u => ({ st with journalState := 1 }, .beginControl idx u)
  | .beginControl idx u =>
      let (headOff, generation) := controlParts (st.load (slotOffset idx) 2)
      (st, .beginOdd idx u headOff generation)
  | .beginOdd idx u headOff generation =>
      let odd := oddGeneration generation
      (st.store (slotOffset idx) 2 (packControl headOff odd), .body idx (u.head headOff) odd u.body)
  | .body idx headOff odd (.word0 v :: rest) =>
      (st.store (slotOffset idx) 0 v, .body idx headOff odd rest)
  | .body idx headOff odd (.hash v :: rest) =>
      (st.store (slotOffset idx) 1 v, .body idx headOff odd rest)
  | .body idx headOff odd (.value v :: rest) =>
      (st.store (slotOffset idx) 3 v, .body idx headOff odd rest)
  | .body idx headOff odd (.patchWord0 tag valDtype :: rest) =>
      (st, .body idx headOff odd
        (.word0 (patchWord0 (st.load (slotOffset idx) 0) tag valDtype) :: rest))
  | .body idx headOff odd [] =>
      let done := st.store (slotOffset idx) 2 (finishControl headOff odd)
      ({ done with
          committed := Function.update st.committed idx
            (done.image (slotOffset idx) :: st.committed idx) }, .finishClear idx)
  | .finishClear _ => ({ st with journalState := 0 }, .held)

/-- What a payload access makes of the image of its slot. -/
def BodyOp.apply (i : Image) : BodyOp → Image
  | word0 v => { i with word0 := v }
  | hash v => { i with hash := v }
  | value v => { i with value := v }
  | patchWord0 tag valDtype => { i with word0 := Memh.patchWord0 i.word0 tag valDtype }

/-- What an update makes of it. -/
def SlotUpdate.apply (i : Image) (u : SlotUpdate) : Image :=
  let (headOff, generation) := controlParts i.control
  { u.body.foldl BodyOp.apply i with
    control := finishControl (u.head headOff) (oddGeneration generation) }

end Probing.Memh
