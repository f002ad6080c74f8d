import Mathlib.Algebra.Order.Ring.Int

/-!
# MEMH slot layout

Offsets of the bucket array, the packed control word of a slot and the four-word
image of a slot. Word 2 of a slot holds the head offset in its low half and the
seqlock generation in its high half.
-/

namespace Probing.Memh

/-- Byte stride of one bucket slot. -/
def sizeOfSlot : ℕ := 32

def slotEmpty : UInt8 := 0
def slotTombstone : UInt8 := 1
def slotOccupied : UInt8 := 2
def slotInline : UInt8 := 3

def align64 (n : ℕ) : ℕ := (n + 63) / 64 * 64

/-- `MemhMeta` follows the 128-byte `MemhHeader`. -/
def metaOffset : ℕ := 128

/-- The 32-byte `MemhMeta` is followed by the bucket array. -/
def computeDataOffset : ℕ := align64 (metaOffset + 32)

def slotOff (dataOffset idx : ℕ) : ℕ := dataOffset + idx * sizeOfSlot

def arenaStartAbs (numBuckets dataOff : ℕ) : ℕ := dataOff + numBuckets * sizeOfSlot

/-- The head offset and the generation of a control word. -/
def controlParts (control : UInt64) : UInt32 × UInt32 :=
  (.ofNat (control.toNat % 2 ^ 32), .ofNat (control.toNat / 2 ^ 32))

def packControl (headOff generation : UInt32) : UInt64 :=
  .ofNat (headOff.toNat + generation.toNat * 2 ^ 32)

@[simp] theorem controlParts_packControl (headOff generation : UInt32) :
    controlParts (packControl headOff generation) = (headOff, generation) := by
  have hh := headOff.toNat_lt
  have hg := generation.toNat_lt
  have hword : (packControl headOff generation).toNat =
      headOff.toNat + generation.toNat * 2 ^ 32 := by
    simp only [packControl, UInt64.toNat_ofNat']
    omega
  have hlow : (packControl headOff generation).toNat % 2 ^ 32 = headOff.toNat := by omega
  have hhigh : (packControl headOff generation).toNat / 2 ^ 32 = generation.toNat := by omega
  simp only [controlParts, hlow, hhigh, UInt32.ofNat_toNat]

/-- Whether the generation half marks a writer inside the slot. -/
def isOdd (control : UInt64) : Bool := (controlParts control).2 &&& 1 != 0

/-- The generation published by `begin_slot_write`. -/
def oddGeneration (generation : UInt32) : UInt32 := (generation + 1) ||| 1

/-- The generation published by `finish_slot_write`. -/
def evenGeneration (odd : UInt32) : UInt32 := (odd + 1) &&& ~~~1

theorem oddGeneration_and_one (generation : UInt32) : oddGeneration generation &&& 1 = 1 := by
  apply UInt32.toBitVec_inj.mp
  simp only [oddGeneration, UInt32.toBitVec_and, UInt32.toBitVec_or]
  ext i hi
  simp
  grind

theorem evenGeneration_and_one (odd : UInt32) : evenGeneration odd &&& 1 = 0 := by
  rw [evenGeneration, UInt32.and_assoc]
  simp

@[simp] theorem isOdd_oddGeneration (headOff generation : UInt32) :
    isOdd (packControl headOff (oddGeneration generation)) = true := by
  simp [isOdd, oddGeneration_and_one]

@[simp] theorem isOdd_evenGeneration (headOff odd : UInt32) :
    isOdd (packControl headOff (evenGeneration odd)) = false := by
  simp [isOdd, evenGeneration_and_one]

/-- A slot has four words. -/
scoped instance fourWords : NeZero 4 := ⟨by decide⟩

/-- The four words of a slot: tag, type and key length; key hash; control word;
inline value. -/
structure Image where
  word0 : UInt64
  hash : UInt64
  control : UInt64
  value : UInt64
  deriving DecidableEq, Repr

namespace Image

/-- Read an image through a word accessor. -/
def ofWords (f : Fin 4 → UInt64) : Image := ⟨f 0, f 1, f 2, f 3⟩

theorem ofWords_congr {f g : Fin 4 → UInt64} (h : ∀ w, f w = g w) : ofWords f = ofWords g := by
  simp [ofWords, h]

end Image

/-- Byte `n` of a little-endian word. -/
def byteOf (word : UInt64) (n : ℕ) : UInt8 := .ofNat (word.toNat / 256 ^ n)

/-- The tuple `read_slot` returns for an image: tag, value type, key length,
hash, head offset and inline value bytes. -/
def Image.tuple (i : Image) : UInt8 × UInt8 × UInt32 × UInt64 × UInt32 × UInt64 :=
  (byteOf i.word0 0, byteOf i.word0 1, .ofNat (i.word0.toNat / 2 ^ 32), i.hash,
    (controlParts i.control).1, i.value)

end Probing.Memh
