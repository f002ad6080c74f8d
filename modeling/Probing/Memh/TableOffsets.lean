import Probing.Memh.TableSlots

/-!
# The offsets that a table stores

The head of a slot and the previous version of a record are positions cast to 32 bits. A
history keeps the positions before the cast. The two agree in every run exactly if the
records cannot reach past 32 bits.
-/

namespace Probing.Memh.Table

open Probing.Core Probing.Memt

/-- A record that was appended, and the position of the version before it. -/
structure Logged where
  pos : ℕ
  bytes : Bytes
  prev : Option ℕ

/-- A table, with the positions that its heads were computed from. -/
structure Traced where
  buf : Bytes
  heads : ℕ → Option ℕ
  log : List Logged

/-- A call of the writer. -/
inductive Call where
  | insert (acquired : Bool) (key : String) (val : Value)
  | remove (acquired : Bool) (key : String)

namespace Traced

def start (buf : Bytes) : Traced := ⟨buf, fun _ => none, []⟩

def note (t : Traced) (buf : Bytes) : Option Event → Traced
  | none => { t with buf := buf }
  | some (.linked idx abs record fresh) =>
      ⟨buf, Function.update t.heads idx (some abs),
        t.log ++ [⟨abs, record, if fresh then none else t.heads idx⟩]⟩
  | some (.unlinked idx) => ⟨buf, Function.update t.heads idx none, t.log⟩

variable (hash_key : UInt64 → String → UInt64)

def call (t : Traced) : Call → Traced
  | .insert acquired key val =>
      let done := (MemhWriter.newUnchecked t.buf).insert t.buf hash_key acquired key val
      t.note done.buf done.event
  | .remove acquired key =>
      let done := (MemhWriter.newUnchecked t.buf).remove t.buf hash_key acquired key
      t.note done.buf done.event

def run (t : Traced) (calls : List Call) : Traced := calls.foldl (call hash_key) t

/-- A stored offset is the position of a record, and none of the reserved values. -/
def Denotes (t : Traced) (stored : UInt32) (pos : ℕ) : Prop :=
  stored.toNat = pos ∧ stored ≠ 0 ∧ stored ≠ noPrev ∧ ∃ r ∈ t.log, r.pos = pos

/-- A slot, and the position that its head was computed from. A slot without one has no head. -/
def HeadOf (t : Traced) (slot : Slot) : Option ℕ → Prop
  | some pos => t.Denotes slot.headOff pos
  | none => slot.tag = slotEmpty ∨ slot.tag = slotTombstone ∧ slot.headOff = noHead

/-- The stored offset of a previous version, and its position. -/
def PrevOf (t : Traced) (stored : UInt32) : Option ℕ → Prop
  | some pos => t.Denotes stored pos
  | none => stored = noPrev

/-- Every stored offset denotes the record it was computed from, inside the buffer. -/
structure Sound (t : Traced) : Prop where
  records : ∀ r ∈ t.log, slice t.buf r.pos r.bytes.length = r.bytes ∧
    (geometry t.buf).arenaStart.toNat ≤ r.pos ∧
    r.pos + r.bytes.length ≤ (geometry t.buf).arenaStart.toNat + (header t.buf).arenaBump.toNat
  bump : (header t.buf).arenaBump.toNat = (t.log.map (·.bytes.length)).sum
  inside : (header t.buf).arenaBump.toNat ≤ (geometry t.buf).arenaCap.toNat ∧
    (geometry t.buf).arenaStart.toNat + (geometry t.buf).arenaCap.toNat ≤ t.buf.length
  heads : ∀ idx < (header t.buf).numBuckets.toNat,
    t.HeadOf (readSlot t.buf (header t.buf).dataOffset.toNat idx) (t.heads idx)
  prevs : ∀ r ∈ t.log, t.PrevOf (getLe UInt32 t.buf (r.pos + 16)) r.prev

end Traced

/-- Sizes that initialisation accepts. -/
structure Sizes where
  numBuckets : UInt32
  arenaCap : ℕ
  hashSeed : UInt64
  some_bucket : 0 < numBuckets.toNat
  cap_lt : arenaCap < 2 ^ 32

namespace Sizes

variable (z : Sizes)

def arenaStart : ℕ := arenaStartAbs z.numBuckets.toNat computeDataOffset

/-- The writer of a table of these sizes. -/
def writer : MemhWriter :=
  ⟨computeDataOffset, z.numBuckets.toNat, z.numBuckets.toNat - 1, z.arenaStart,
    z.arenaCap, z.hashSeed⟩

/-- No record of 28 bytes starts past 32 bits. -/
def Addressable : Prop := z.arenaStart + z.arenaCap < 2 ^ 32 + arenaHdrSize

theorem arenaStart_eq : z.arenaStart = 192 + z.numBuckets.toNat * 32 := rfl

theorem slot_placed {buf : Bytes} {idx : ℕ} (hidx : idx < z.numBuckets.toNat)
    (hroom : z.arenaStart ≤ buf.length) :
    Placed buf (slotOff computeDataOffset idx) ∧ slotOff computeDataOffset idx + 32 ≤
      z.arenaStart := by
  have hstart := z.arenaStart_eq
  have hoff : slotOff computeDataOffset idx = 192 + idx * 32 := rfl
  have hle : slotOff computeDataOffset idx + 32 ≤ z.arenaStart := by omega
  exact ⟨⟨by omega, hle.trans hroom⟩, hle⟩

end Sizes

/-- A table in the middle of a run. -/
structure Inv (z : Sizes) (t : Traced) : Prop where
  writer : MemhWriter.newUnchecked t.buf = z.writer
  room : z.arenaStart + z.arenaCap ≤ t.buf.length
  idle : (header t.buf).journalState = 0
  even : ∀ idx < z.numBuckets.toNat, slotGeneration t.buf (slotOff computeDataOffset idx) &&& 1 = 0
  aligned : (header t.buf).arenaBump.toNat % 4 = 0
  within : (header t.buf).arenaBump.toNat ≤ z.arenaCap
  long : ∀ r ∈ t.log, arenaHdrSize ≤ r.bytes.length
  records : ∀ r ∈ t.log, slice t.buf r.pos r.bytes.length = r.bytes ∧ z.arenaStart ≤ r.pos ∧
    r.pos + r.bytes.length ≤ z.arenaStart + (header t.buf).arenaBump.toNat
  bump : (header t.buf).arenaBump.toNat = (t.log.map (·.bytes.length)).sum
  heads : ∀ idx < z.numBuckets.toNat, t.HeadOf (readSlot t.buf computeDataOffset idx) (t.heads idx)
  prevs : ∀ r ∈ t.log, t.PrevOf (getLe UInt32 t.buf (r.pos + 16)) r.prev

theorem Inv.sound {z : Sizes} {t : Traced} (h : Inv z t) : t.Sound := by
  have hdata : (header t.buf).dataOffset.toNat = computeDataOffset :=
    congrArg MemhWriter.dataOff h.writer
  have hbuckets : (header t.buf).numBuckets.toNat = z.numBuckets.toNat :=
    congrArg MemhWriter.numBuckets h.writer
  have hstart : (geometry t.buf).arenaStart.toNat = z.arenaStart :=
    congrArg MemhWriter.arenaStart h.writer
  have hcap : (geometry t.buf).arenaCap.toNat = z.arenaCap := congrArg MemhWriter.arenaCap h.writer
  constructor
  · rw [hstart]
    exact h.records
  · exact h.bump
  · rw [hstart, hcap]
    exact ⟨h.within, h.room⟩
  · rw [hdata, hbuckets]
    exact h.heads
  · exact h.prevs

section Frames

variable {buf buf' : Bytes} {z : Sizes}

/-- The geometry lies in the header and behind it. -/
theorem newUnchecked_congr (hheader : slice buf' 0 32 = slice buf 0 32)
    (hmeta : slice buf' metaOffset 32 = slice buf metaOffset 32) :
    MemhWriter.newUnchecked buf' = MemhWriter.newUnchecked buf := by
  have hbuckets : (header buf').numBuckets = (header buf).numBuckets :=
    (getLe_of_slice_eq (k := 16) hheader (by decide)).trans (getLe_slice (by decide))
  have hdata : (header buf').dataOffset = (header buf).dataOffset :=
    (getLe_of_slice_eq (k := 20) hheader (by decide)).trans (getLe_slice (by decide))
  have hstart : (geometry buf').arenaStart = (geometry buf).arenaStart :=
    (getLe_of_slice_eq hmeta (by decide)).trans (getLe_slice (by decide))
  have hcap : (geometry buf').arenaCap = (geometry buf).arenaCap :=
    (getLe_of_slice_eq hmeta (by decide)).trans (getLe_slice (by decide))
  have hseed : (geometry buf').hashSeed = (geometry buf).hashSeed :=
    (getLe_of_slice_eq hmeta (by decide)).trans (getLe_slice (by decide))
  unfold MemhWriter.newUnchecked
  rw [hbuckets, hdata, hstart, hcap, hseed]

/-- What `append_record` does to a buffer. -/
structure Appended (w : MemhWriter) (buf buf' : Bytes) (bump : ℕ) (record : Bytes) : Prop where
  fits : bump + record.length ≤ w.arenaCap
  length : buf'.length = buf.length
  stored : slice buf' (w.arenaStart + bump) record.length = record
  end_stored : (header buf').arenaBump = UInt32.ofNat (bump + record.length)
  apart : ∀ {off n}, off + n ≤ 32 ∨ 36 ≤ off → off + n ≤ w.arenaStart + bump →
    slice buf' off n = slice buf off n

theorem appendRecord_none {w : MemhWriter} {bump : ℕ} {record : Bytes} :
    w.appendRecord buf bump record = none ↔ w.arenaCap < bump + record.length := by
  unfold MemhWriter.appendRecord
  split_ifs with hfull
  · exact iff_of_true rfl hfull
  · exact iff_of_false (fun h => nomatch h) hfull

theorem appendRecord_some {w : MemhWriter} {bump abs : ℕ} {record : Bytes}
    (hstart : 36 ≤ w.arenaStart) (hroom : w.arenaStart + w.arenaCap ≤ buf.length)
    (h : w.appendRecord buf bump record = some (buf', abs)) :
    abs = w.arenaStart + bump ∧ Appended w buf buf' bump record := by
  unfold MemhWriter.appendRecord at h
  split_ifs at h with hfull
  obtain ⟨rfl, rfl⟩ := Prod.mk.inj (Option.some.inj h)
  have hfits := Nat.le_of_not_lt hfull
  have hrecord :
      (⟨w.arenaStart + bump, record⟩ : Core.Store).Within (w.arenaStart + bump) buf.length :=
    ⟨le_refl _, by rw [Store.fin]; dsimp only; omega⟩
  have hbump : (⟨32, le (UInt32.ofNat (bump + record.length))⟩ : Core.Store).Within 32 36 :=
    ⟨le_refl _, by rw [Store.fin, le_length_u32]⟩
  have hin : ∀ s ∈
    [(⟨w.arenaStart + bump, record⟩ : Core.Store), ⟨32, le (UInt32.ofNat (bump + record.length))⟩],
      s.Within 0 buf.length := by
    intro s hs
    rcases List.mem_pair.mp hs with rfl | rfl
    · exact ⟨Nat.zero_le _, hrecord.2⟩
    · exact ⟨Nat.zero_le _, hbump.2.trans (by omega)⟩
  refine ⟨rfl, hfits, storeAll_length hin, ?_, ?_, ?_⟩
  · change slice (storeAll buf ([] ++ [(⟨w.arenaStart + bump, record⟩ : Core.Store),
      ⟨32, le (UInt32.ofNat (bump + record.length))⟩])) (w.arenaStart + bump) record.length = record
    apply slice_stored (s := ⟨w.arenaStart + bump, record⟩)
      (fun s hs => (List.not_mem_nil hs).elim) hin
    intro s hs
    obtain rfl := List.mem_singleton.mp hs
    exact hbump.apart (.inr (by dsimp only; omega))
  · have hbytes : slice (storeAll buf ([⟨w.arenaStart + bump, record⟩] ++
        [(⟨32, le (UInt32.ofNat (bump + record.length))⟩ : Core.Store)])) 32 4 =
          le (UInt32.ofNat (bump + record.length)) :=
      slice_stored (s := ⟨32, le (UInt32.ofNat (bump + record.length))⟩)
        (fun s hs => hin s (List.mem_append_left [_] hs))
          (fun s hs => hin s (List.mem_cons_of_mem _ hs))
        fun s hs => (List.not_mem_nil hs).elim
    exact getLe_of_slice hbytes
  · intro off n hoff hend
    apply slice_storeAll hin
    intro s hs
    rcases List.mem_pair.mp hs with rfl | rfl
    · exact hrecord.apart (.inl hend)
    · exact hbump.apart hoff

/-- What a call changes: one slot, the journal, and the arena behind the records. -/
structure Changed (z : Sizes) (buf buf' : Bytes) (idx : ℕ) : Prop where
  length : buf'.length = buf.length
  idle : (header buf').journalState = 0
  even : slotGeneration buf' (slotOff computeDataOffset idx) &&& 1 = 0
  apart : ∀ {off n}, off + n ≤ 32 ∨ 112 ≤ off →
    off + n ≤ slotOff computeDataOffset idx ∨ slotOff computeDataOffset idx + 32 ≤ off →
    off + n ≤ z.arenaStart + (header buf).arenaBump.toNat → slice buf' off n = slice buf off n

theorem SlotUpdated.changed {idx : ℕ} (h : SlotUpdated buf buf' (slotOff computeDataOffset idx)) :
    Changed z buf buf' idx :=
  ⟨h.length, h.idle, h.even, fun hoff hslot _ => h.apart (by omega) hslot⟩

/-- A slot update behind an appended record. -/
theorem Appended.changed {idx : ℕ} {mid record : Bytes}
    (happ : Appended z.writer buf mid (header buf).arenaBump.toNat record)
    (h : SlotUpdated mid buf' (slotOff computeDataOffset idx)) : Changed z buf buf' idx :=
  ⟨h.length.trans happ.length, h.idle, h.even, fun hoff hslot hend =>
    (h.apart (by omega) hslot).trans (happ.apart (by omega) hend)⟩

namespace Changed

variable {idx : ℕ}

theorem writer (h : Changed z buf buf' idx) (hidx : idx < z.numBuckets.toNat) :
    MemhWriter.newUnchecked buf' = MemhWriter.newUnchecked buf := by
  have hoff : slotOff computeDataOffset idx = 192 + idx * 32 := rfl
  have hstart := z.arenaStart_eq
  apply newUnchecked_congr
  · exact h.apart (.inl (by decide)) (.inl (by omega)) (by omega)
  · exact h.apart (.inr (by decide)) (.inl (by rw [hoff, metaOffset]; omega))
      (by rw [metaOffset]; omega)

theorem slots (h : Changed z buf buf' idx) {j : ℕ} (hj : j < z.numBuckets.toNat) (hne : j ≠ idx) :
    readSlot buf' computeDataOffset j = readSlot buf computeDataOffset j ∧
      slotGeneration buf' (slotOff computeDataOffset j) =
        slotGeneration buf (slotOff computeDataOffset j) := by
  have hstart := z.arenaStart_eq
  have hapart {k n : ℕ} (hk : k + n ≤ 32) :
      slice buf' (slotOff computeDataOffset j + k) n =
        slice buf (slotOff computeDataOffset j + k) n := by
    have hoff : slotOff computeDataOffset idx = 192 + idx * 32 := rfl
    have hoff' : slotOff computeDataOffset j = 192 + j * 32 := rfl
    exact h.apart (.inr (by omega)) (by omega) (by omega)
  constructor
  · ext1
    · exact getLe_congr (hapart (k := 0) (by decide))
    · exact getLe_congr (hapart (by decide))
    · exact getLe_congr (hapart (by decide))
    · exact getLe_congr (hapart (by decide))
    · exact getLe_congr (hapart (by decide))
    · exact hapart (by decide)
  · exact getLe_congr (hapart (by decide))

theorem records (h : Changed z buf buf' idx) (hidx : idx < z.numBuckets.toNat) {off n : ℕ}
    (hoff : z.arenaStart ≤ off) (hend : off + n ≤ z.arenaStart + (header buf).arenaBump.toNat) :
    slice buf' off n = slice buf off n := by
  have hslot : slotOff computeDataOffset idx = 192 + idx * 32 := rfl
  have hstart := z.arenaStart_eq
  exact h.apart (.inr (by omega)) (.inr (by omega)) hend

end Changed

end Frames

section Steps

variable {z : Sizes} {t : Traced} {buf' : Bytes} {idx : ℕ}

theorem Traced.HeadOf.mono {t' : Traced} {slot : Slot} {head : Option ℕ} (h : t.HeadOf slot head)
    (hlog : ∀ r ∈ t.log, r ∈ t'.log) : t'.HeadOf slot head := by
  cases head with
  | none => exact h
  | some pos =>
      obtain ⟨hpos, hzero, hprev, r, hr, hat⟩ := h
      exact ⟨hpos, hzero, hprev, r, hlog r hr, hat⟩

theorem Traced.PrevOf.mono {t' : Traced} {stored : UInt32} {prev : Option ℕ}
    (h : t.PrevOf stored prev) (hlog : ∀ r ∈ t.log, r ∈ t'.log) : t'.PrevOf stored prev := by
  cases prev with
  | none => exact h
  | some pos =>
      obtain ⟨hpos, hzero, hprev, r, hr, hat⟩ := h
      exact ⟨hpos, hzero, hprev, r, hlog r hr, hat⟩

/-- A live slot has a head. -/
theorem Inv.headOf_live (hi : Inv z t) (hidx : idx < z.numBuckets.toNat)
    (hlive : (readSlot t.buf computeDataOffset idx).tag = slotOccupied ∨
      (readSlot t.buf computeDataOffset idx).tag = slotInline) :
    ∃ pos, t.heads idx = some pos ∧ t.Denotes
    (readSlot t.buf computeDataOffset idx).headOff pos := by
  have hhead := hi.heads idx hidx
  cases hpos : t.heads idx with
  | some pos =>
      rw [hpos] at hhead
      exact ⟨pos, rfl, hhead⟩
  | none =>
      rw [hpos] at hhead
      rcases hhead with hempty | ⟨htomb, -⟩
      · rw [hempty] at hlive
        exact absurd hlive (by decide)
      · rw [htomb] at hlive
        exact absurd hlive (by decide)

/-- The records and the other slots stay. -/
theorem Changed.kept (hch : Changed z t.buf buf' idx) (hi : Inv z t)
    (hidx : idx < z.numBuckets.toNat) :
    (∀ r ∈ t.log, slice buf' r.pos r.bytes.length = r.bytes) ∧
      (∀ r ∈ t.log, getLe UInt32 buf' (r.pos + 16) = getLe UInt32 t.buf (r.pos + 16)) := by
  constructor
  · intro r hr
    obtain ⟨hslice, hstart, hend⟩ := hi.records r hr
    exact (hch.records hidx hstart hend).trans hslice
  · intro r hr
    obtain ⟨-, hstart, hend⟩ := hi.records r hr
    have hlong := hi.long r hr
    apply getLe_congr
    apply hch.records hidx (hstart.trans (Nat.le_add_right _ _))
    change r.pos + 16 + 4 ≤ _
    unfold arenaHdrSize at hlong
    omega

/-- A slot update that leaves the end of the arena. -/
theorem Inv.update (head : Option ℕ) (hi : Inv z t) (hidx : idx < z.numBuckets.toNat)
    (hch : Changed z t.buf buf' idx) (hbump : (header buf').arenaBump = (header t.buf).arenaBump)
    (hhead : t.HeadOf (readSlot buf' computeDataOffset idx) head) :
    Inv z ⟨buf', Function.update t.heads idx head, t.log⟩ := by
  obtain ⟨hslices, hprevs⟩ := hch.kept hi hidx
  refine ⟨(hch.writer hidx).trans hi.writer, hch.length ▸ hi.room, hch.idle, ?_, hbump ▸ hi.aligned,
    hbump ▸ hi.within, hi.long, ?_, hbump ▸ hi.bump, ?_, ?_⟩
  · intro j hj
    by_cases hne : j = idx
    · exact hne ▸ hch.even
    · rw [(hch.slots hj hne).2]
      exact hi.even j hj
  · intro r hr
    obtain ⟨-, hstart, hend⟩ := hi.records r hr
    exact ⟨hslices r hr, hstart, by rw [hbump]; exact hend⟩
  · intro j hj
    dsimp only
    by_cases hne : j = idx
    · subst hne
      rw [Function.update_self]
      exact hhead.mono fun r hr => hr
    · rw [Function.update_of_ne hne, (hch.slots hj hne).1]
      exact (hi.heads j hj).mono fun r hr => hr
  · intro r hr
    dsimp only
    rw [hprevs r hr]
    exact (hi.prevs r hr).mono fun r hr => hr

/-- A record at the end of the arena becomes the head of its slot. -/
theorem Inv.link (hi : Inv z t) (hz : z.arenaStart + (header t.buf).arenaBump.toNat < 2 ^ 32)
    (hidx : idx < z.numBuckets.toNat)
    (hch : Changed z t.buf buf' idx) {record : Bytes} {fresh : Bool}
    (hlong : arenaHdrSize ≤ record.length) (hmod : record.length % 4 = 0)
    (hfits : (header t.buf).arenaBump.toNat + record.length ≤ z.arenaCap)
    (hbump : (header buf').arenaBump =
      UInt32.ofNat ((header t.buf).arenaBump.toNat + record.length))
    (hrecord : slice buf' (z.arenaStart + (header t.buf).arenaBump.toNat) record.length = record)
    (hhead : (readSlot buf' computeDataOffset idx).headOff =
      UInt32.ofNat (z.arenaStart + (header t.buf).arenaBump.toNat))
    (hprev : t.PrevOf (getLe UInt32 record 16) (if fresh then none else t.heads idx)) :
    Inv z (t.note buf'
      (some (.linked idx (z.arenaStart + (header t.buf).arenaBump.toNat) record fresh))) := by
  obtain ⟨hslices, hprevs⟩ := hch.kept hi hidx
  have hstart := z.arenaStart_eq
  have haligned := hi.aligned
  have hcap := z.cap_lt
  have hlen : 28 ≤ record.length := hlong
  have hnat : (header buf').arenaBump.toNat = (header t.buf).arenaBump.toNat + record.length := by
    rw [hbump]
    exact UInt32.toNat_ofNat_of_lt' (by change _ < 2 ^ 32; omega)
  have hpos : (UInt32.ofNat (z.arenaStart + (header t.buf).arenaBump.toNat)).toNat =
      z.arenaStart + (header t.buf).arenaBump.toNat := UInt32.toNat_ofNat_of_lt' hz
  have hlog : ∀ r ∈ t.log, r ∈ (t.note buf'
      (some (.linked idx (z.arenaStart + (header t.buf).arenaBump.toNat) record fresh))).log :=
    fun r hr => List.mem_append_left _ hr
  refine ⟨(hch.writer hidx).trans hi.writer, hch.length ▸ hi.room, hch.idle, ?_, ?_, ?_,
    ?_, ?_, ?_, ?_, ?_⟩
  · intro j hj
    by_cases hne : j = idx
    · exact hne ▸ hch.even
    · change slotGeneration buf' _ &&& 1 = 0
      rw [(hch.slots hj hne).2]
      exact hi.even j hj
  · change (header buf').arenaBump.toNat % 4 = 0
    omega
  · change (header buf').arenaBump.toNat ≤ _
    omega
  · intro r hr
    rcases List.mem_append.mp hr with hold | hnew
    · exact hi.long r hold
    · rw [List.mem_singleton.mp hnew]
      exact hlong
  · intro r hr
    change slice buf' _ _ = _ ∧ _ ∧ _ ≤ _ + (header buf').arenaBump.toNat
    rcases List.mem_append.mp hr with hold | hnew
    · obtain ⟨-, hlow, hend⟩ := hi.records r hold
      exact ⟨hslices r hold, hlow, by omega⟩
    · rw [List.mem_singleton.mp hnew]
      exact ⟨hrecord, Nat.le_add_right _ _, by dsimp only; omega⟩
  · change (header buf').arenaBump.toNat = ((t.log ++ [_]).map _).sum
    rw [List.map_append, List.sum_append, hnat, hi.bump]
    simp
  · intro j hj
    change Traced.HeadOf _ (readSlot buf' _ _) (Function.update t.heads idx _ j)
    by_cases hne : j = idx
    · subst hne
      rw [Function.update_self]
      change Traced.Denotes _ (readSlot buf' _ _).headOff _
      rw [hhead]
      refine ⟨hpos, ?_, ?_, _, List.mem_append_right _ List.mem_cons_self, rfl⟩
      · intro hzero
        have := congrArg UInt32.toNat hzero
        rw [hpos] at this
        change _ = 0 at this
        omega
      · intro hmark
        have := congrArg UInt32.toNat hmark
        rw [hpos] at this
        change _ = 4294967295 at this
        omega
    · rw [Function.update_of_ne hne, (hch.slots hj hne).1]
      exact (hi.heads j hj).mono hlog
  · intro r hr
    change Traced.PrevOf _ (getLe UInt32 buf' _) _
    rcases List.mem_append.mp hr with hold | hnew
    · rw [hprevs r hold]
      exact (hi.prevs r hold).mono hlog
    · rw [List.mem_singleton.mp hnew]
      dsimp only
      rw [getLe_of_slice_eq hrecord (by change 16 + 4 ≤ _; omega)]
      exact hprev.mono hlog

end Steps

section Probes

variable {w : MemhWriter} {buf : Bytes} {key : String} {kh : UInt64} {n probe idx : ℕ}

theorem probeIdx_lt (hmask : w.mask < w.numBuckets) (kh : UInt64) (probe : ℕ) :
    w.probeIdx kh probe < w.numBuckets := (Nat.and_le_right).trans_lt hmask

theorem live_of_matches {slot : Slot} (h : MemhWriter.slotMatches buf slot key kh = true) :
    slot.tag = slotOccupied ∨ slot.tag = slotInline := by
  simp only [MemhWriter.slotMatches, Bool.and_eq_true, Bool.or_eq_true, decide_eq_true_eq] at h
  exact h.1.1.1

/-- An insertion ends at a slot of the table: one to fill, or a live one. -/
theorem insertProbe_spec (buf : Bytes) (key : String) (kh : UInt64) (n probe : ℕ)
    (first_tomb : Option ℕ) (hmask : w.mask < w.numBuckets)
    (htomb : ∀ i ∈ first_tomb, i < w.numBuckets) :
    match w.insertProbe buf key kh n probe first_tomb with
    | .fresh idx => idx < w.numBuckets
    | .found idx => idx < w.numBuckets ∧ ((readSlot buf w.dataOff idx).tag = slotOccupied ∨
        (readSlot buf w.dataOff idx).tag = slotInline)
    | .absent => True := by
  induction n generalizing probe first_tomb with
  | zero =>
      cases first_tomb with
      | none => trivial
      | some i => exact htomb i rfl
  | succ n ih =>
      have hidx := probeIdx_lt hmask kh probe
      have hfirst : first_tomb.getD (w.probeIdx kh probe) < w.numBuckets := by
        cases first_tomb with
        | none => exact hidx
        | some i => exact htomb i rfl
      unfold MemhWriter.insertProbe
      dsimp only
      by_cases hempty : (readSlot buf w.dataOff (w.probeIdx kh probe)).tag = slotEmpty
      · rw [if_pos hempty]
        exact hfirst
      rw [if_neg hempty]
      by_cases htombstone : (readSlot buf w.dataOff (w.probeIdx kh probe)).tag = slotTombstone
      · rw [if_pos htombstone]
        exact ih _ _ fun i hi => Option.some.inj hi ▸ hfirst
      rw [if_neg htombstone]
      by_cases hmatch :
        MemhWriter.slotMatches buf (readSlot buf w.dataOff (w.probeIdx kh probe)) key kh = true
      · rw [if_pos hmatch]
        exact ⟨hidx, live_of_matches hmatch⟩
      · rw [if_neg hmatch]
        exact ih _ _ htomb

/-- A removal ends at a live slot, if at any. -/
theorem removeProbe_found (hmask : w.mask < w.numBuckets)
    (h : w.removeProbe buf key kh n probe = .found idx) : idx < w.numBuckets ∧
      ((readSlot buf w.dataOff idx).tag = slotOccupied ∨ (readSlot buf w.dataOff idx).tag =
        slotInline) := by
  induction n generalizing probe with
  | zero => cases h
  | succ n ih =>
      unfold MemhWriter.removeProbe at h
      dsimp only at h
      split_ifs at h with hempty hmatch
      · obtain rfl := MemhWriter.Probed.found.inj h
        exact ⟨probeIdx_lt hmask kh probe, live_of_matches hmatch⟩
      · exact ih h

end Probes

section Calls

variable {z : Sizes} {t : Traced} {idx : ℕ} {key : String} {val : Value} {kh : UInt64}

theorem SlotUpdated.bump_eq {buf buf' : Bytes} {o : ℕ} (h : SlotUpdated buf buf' o) (ho : 36 ≤ o) :
    (header buf').arenaBump = (header buf).arenaBump :=
  getLe_congr (h.apart (.inl (by decide)) (.inl ho))

/-- A record is appended, and a slot update publishes its position. -/
theorem Inv.append (fresh : Bool) (hi : Inv z t)
    (hz : z.arenaStart + (header t.buf).arenaBump.toNat < 2 ^ 32) (hidx : idx < z.numBuckets.toNat)
    {flags : UInt16}
    {valDtype slotIdx prevOff : UInt32} {payload : Bytes} {mid buf' : Bytes} {abs : ℕ}
    (happ : z.writer.appendRecord t.buf (header t.buf).arenaBump.toNat
      (encodeRecord flags valDtype key payload slotIdx kh prevOff) = some (mid, abs))
    (hprev : t.PrevOf prevOff (if fresh then none else t.heads idx))
    (hupdated : Placed mid (slotOff computeDataOffset idx) →
      SlotUpdated mid buf' (slotOff computeDataOffset idx) ∧
        (readSlot buf' computeDataOffset idx).headOff = UInt32.ofNat abs) :
    Inv z (t.note buf' (some (.linked idx abs
      (encodeRecord flags valDtype key payload slotIdx kh prevOff) fresh))) := by
  have hstart := z.arenaStart_eq
  have hroom := hi.room
  obtain ⟨hlong, hmod, hstored⟩ := encodeRecord_spec flags valDtype key payload slotIdx kh prevOff
  obtain ⟨rfl, happended⟩ := appendRecord_some (by change 36 ≤ z.arenaStart; omega) hroom happ
  have hmid : z.arenaStart ≤ mid.length := by
    rw [happended.length]
    omega
  obtain ⟨hplaced, hend⟩ := z.slot_placed hidx hmid
  obtain ⟨hslot, hhead⟩ := hupdated hplaced
  have hbehind := hplaced.behind
  apply hi.link hz hidx (happended.changed hslot) hlong hmod happended.fits
  · exact (hslot.bump_eq (by omega)).trans happended.end_stored
  · exact (hslot.apart (.inr (by omega)) (.inr (hend.trans (Nat.le_add_right _ _)))).trans
      happended.stored
  · exact hhead
  · rw [hstored]
    exact hprev

/-- A record that is appended starts within 32 bits. -/
theorem Sizes.Addressable.start_lt (hz : z.Addressable) {flags : UInt16}
    {valDtype slotIdx prevOff : UInt32} {payload : Bytes} {r : Bytes × ℕ} {buf : Bytes} {bump : ℕ}
    (happ : z.writer.appendRecord buf bump
      (encodeRecord flags valDtype key payload slotIdx kh prevOff) = some r) :
    z.arenaStart + bump < 2 ^ 32 := by
  have hlong := (encodeRecord_spec flags valDtype key payload slotIdx kh prevOff).1
  have hfits : ¬ z.writer.arenaCap < bump +
      (encodeRecord flags valDtype key payload slotIdx kh prevOff).length := by
    intro hfull
    rw [appendRecord_none.2 hfull] at happ
    cases happ
  have hcap : z.writer.arenaCap = z.arenaCap := rfl
  unfold Sizes.Addressable at hz
  omega

/-- The two kinds of records that an insertion appends. -/
theorem encodePut_eq (slotIdx : ℕ) (key : String) (val : Value) (kh : UInt64) (is_scalar : Bool)
    (prevOff : UInt32) : ∃ flags valDtype payload,
    MemhWriter.encodePut slotIdx key val kh is_scalar prevOff =
      encodeRecord flags valDtype key payload (UInt32.ofNat slotIdx) kh prevOff := by
  cases is_scalar with
  | true => exact ⟨_, _, _, rfl⟩
  | false => exact ⟨_, _, _, rfl⟩

theorem Inv.writeNewEntry (hi : Inv z t) (hz : z.Addressable) (hidx : idx < z.numBuckets.toNat) :
    let done := z.writer.writeNewEntry t.buf idx key val kh (header t.buf).arenaBump.toNat
      (isScalarDtype val.dtype)
    Inv z (t.note done.buf done.event) := by
  unfold MemhWriter.writeNewEntry
  obtain ⟨flags, valDtype, payload, hencode⟩ :=
    encodePut_eq idx key val kh (isScalarDtype val.dtype) noPrev
  dsimp only
  rw [hencode]
  cases happ : z.writer.appendRecord t.buf (header t.buf).arenaBump.toNat
      (encodeRecord flags valDtype key payload (UInt32.ofNat idx) kh noPrev) with
  | none => exact hi
  | some r =>
      obtain ⟨mid, abs⟩ := r
      dsimp only
      by_cases hscalar : isScalarDtype val.dtype = true
      · obtain ⟨dtype, bytes, hinline, hlen⟩ := encodeInlineBytes_some hscalar
        rw [if_pos hscalar, hinline]
        apply Inv.append true hi (hz.start_lt happ) hidx happ rfl
        intro hp
        refine ⟨commitSlot_updated _ _ _ _ _ hp hlen, ?_⟩
        change (readSlot (commitSlot mid computeDataOffset _ _ _ _ _ _ _) _ _).headOff = _
        rw [readSlot_commitSlot _ _ _ _ _ hp hlen]
      · rw [if_neg hscalar]
        apply Inv.append true hi (hz.start_lt happ) hidx happ rfl
        intro hp
        refine ⟨commitSlot_updated _ _ _ _ _ hp List.length_replicate, ?_⟩
        change (readSlot (commitSlot mid computeDataOffset _ _ _ _ _ _ _) _ _).headOff = _
        rw [readSlot_commitSlot _ _ _ _ _ hp List.length_replicate]

theorem Inv.writeUpdate (hi : Inv z t) (hz : z.Addressable) (hidx : idx < z.numBuckets.toNat)
    (hlive : (readSlot t.buf computeDataOffset idx).tag = slotOccupied ∨
      (readSlot t.buf computeDataOffset idx).tag = slotInline) :
    let slot := readSlot t.buf computeDataOffset idx
    let done := z.writer.writeUpdate t.buf idx slot.tag key val kh (header t.buf).arenaBump.toNat
      (isScalarDtype val.dtype) slot.headOff
    Inv z (t.note done.buf done.event) := by
  obtain ⟨pos, hhead, hdenotes⟩ := hi.headOf_live hidx hlive
  have hroom := hi.room
  obtain ⟨hplaced, -⟩ := z.slot_placed hidx (by omega : z.arenaStart ≤ t.buf.length)
  have hbehind := hplaced.behind
  unfold MemhWriter.writeUpdate
  dsimp only
  by_cases hinline : (readSlot t.buf computeDataOffset idx).tag = slotInline ∧
    isScalarDtype val.dtype = true
  · -- a scalar over a scalar keeps the head
    obtain ⟨dtype, bytes, hbytes, hlen⟩ := encodeInlineBytes_some hinline.2
    have hupdated := update_inline_updated dtype hplaced hlen
    have hkept := Inv.update (some pos) hi hidx hupdated.changed (hupdated.bump_eq (by omega)) (by
      rw [readSlot_update_inline hplaced hlen]
      exact hdenotes)
    rw [← hhead, Function.update_eq_self] at hkept
    rw [if_pos hinline, hbytes]
    exact hkept
  obtain ⟨flags, valDtype, payload, hencode⟩ :=
    encodePut_eq idx key val kh (isScalarDtype val.dtype)
    (readSlot t.buf computeDataOffset idx).headOff
  have hprev : t.PrevOf (readSlot t.buf computeDataOffset idx).headOff
      (if false then none else t.heads idx) := by
    rw [hhead]
    exact hdenotes
  rw [if_neg hinline, hencode]
  cases happ : z.writer.appendRecord t.buf (header t.buf).arenaBump.toNat
      (encodeRecord flags valDtype key payload (UInt32.ofNat idx) kh
        (readSlot t.buf computeDataOffset idx).headOff) with
  | none => exact hi
  | some r =>
      obtain ⟨mid, abs⟩ := r
      dsimp only
      by_cases hscalar : isScalarDtype val.dtype = true
      · obtain ⟨dtype, bytes, hbytes, hlen⟩ := encodeInlineBytes_some hscalar
        rw [if_pos hscalar, hbytes]
        apply Inv.append false hi (hz.start_lt happ) hidx happ hprev
        intro hp
        refine ⟨commitSlot_updated _ _ _ _ _ hp hlen, ?_⟩
        change (readSlot (commitSlot mid computeDataOffset _ _ _ _ _ _ _) _ _).headOff = _
        rw [readSlot_commitSlot _ _ _ _ _ hp hlen]
      · rw [if_neg hscalar]
        apply Inv.append false hi (hz.start_lt happ) hidx happ hprev
        intro hp
        refine ⟨commitSlotHead_updated _ _ hp, ?_⟩
        change (readSlot (commitSlotHead mid computeDataOffset _ _ _) _ _).headOff = _
        rw [readSlot_commitSlotHead hp]

variable {hash_key : UInt64 → String → UInt64}

theorem Sizes.mask_lt (z : Sizes) : z.writer.mask < z.writer.numBuckets :=
  Nat.sub_one_lt_of_lt z.some_bucket

theorem Inv.insertLocked (hash_key : UInt64 → String → UInt64) (key : String) (val : Value)
    (hi : Inv z t) (hz : z.Addressable) :
    let done := z.writer.insertLocked t.buf hash_key key val
    Inv z (t.note done.buf done.event) := by
  have hspec :=
    insertProbe_spec t.buf key (hash_key z.writer.hashSeed key) z.writer.numBuckets 0 none z.mask_lt
    fun i hi => nomatch hi
  unfold MemhWriter.insertLocked
  dsimp only
  cases hprobe : z.writer.insertProbe t.buf key (hash_key z.writer.hashSeed key)
      z.writer.numBuckets 0 none with
  | fresh target =>
      rw [hprobe] at hspec
      exact hi.writeNewEntry hz hspec
  | found target =>
      rw [hprobe] at hspec
      exact hi.writeUpdate hz hspec.1 hspec.2
  | absent => exact hi

theorem Inv.removeLocked (hash_key : UInt64 → String → UInt64) (key : String) (hi : Inv z t)
    (hz : z.Addressable) :
    let done := z.writer.removeLocked t.buf hash_key key
    Inv z (t.note done.buf done.event) := by
  unfold MemhWriter.removeLocked
  dsimp only
  cases hprobe :
      z.writer.removeProbe t.buf key (hash_key z.writer.hashSeed key) z.writer.numBuckets 0 with
  | fresh target => exact hi
  | absent => exact hi
  | found target =>
      obtain ⟨hidx, hlive⟩ := removeProbe_found z.mask_lt hprobe
      obtain ⟨pos, hhead, hdenotes⟩ := hi.headOf_live hidx hlive
      have hroom := hi.room
      obtain ⟨hplaced, -⟩ := z.slot_placed hidx (by omega : z.arenaStart ≤ t.buf.length)
      have hbehind := hplaced.behind
      dsimp only
      cases happ : z.writer.appendRecord t.buf (header t.buf).arenaBump.toNat
          (encodeTombstoneRecord key (UInt32.ofNat target) (hash_key z.writer.hashSeed key)
            (readSlot t.buf z.writer.dataOff target).headOff) with
      | some r =>
          obtain ⟨mid, abs⟩ := r
          apply Inv.append false hi (hz.start_lt happ) hidx happ
          · change t.PrevOf _ (t.heads target)
            rw [hhead]
            exact hdenotes
          · intro hp
            refine ⟨commitSlotHead_updated _ _ hp, ?_⟩
            change (readSlot (commitSlotHead mid computeDataOffset _ _ _) _ _).headOff = _
            rw [readSlot_commitSlotHead hp]
      | none =>
          have hupdated := commitSlotHead_updated slotTombstone noHead hplaced
          apply Inv.update none hi hidx hupdated.changed (hupdated.bump_eq (by omega))
          rw [readSlot_commitSlotHead hplaced]
          exact .inr ⟨rfl, rfl⟩

theorem Inv.call (hi : Inv z t) (hz : z.Addressable) (c : Call) : Inv z (t.call hash_key c) := by
  cases c with
  | insert acquired key val =>
      cases acquired with
      | false => exact hi
      | true =>
          have h := Inv.insertLocked hash_key key val hi hz
          rw [← hi.writer] at h
          exact h
  | remove acquired key =>
      cases acquired with
      | false => exact hi
      | true =>
          have h := Inv.removeLocked hash_key key hi hz
          rw [← hi.writer] at h
          exact h

theorem Inv.run (hi : Inv z t) (hz : z.Addressable) (calls : List Call) :
    Inv z (t.run hash_key calls) := by
  induction calls generalizing t with
  | nil => exact hi
  | cons c calls ih => exact ih (hi.call hz c)

end Calls

end Probing.Memh.Table
