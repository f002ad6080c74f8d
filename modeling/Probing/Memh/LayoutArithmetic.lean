import Mathlib.Data.UInt
import Probing.Memh.TableInit

/-!
# Which sizes a table can address

A table whose arena reaches 28 bytes or more past 32 bits is initialised all the same. One
record can then fill the arena up to the 32 bits, and the next one starts behind them.
-/

namespace Probing.Memh.Table

open Probing.Core Probing.Memt

variable {creator : Creator} {z : Sizes} {buf : Bytes} {hash_key : UInt64 → String → UInt64}

namespace Sizes

/-- A value whose record reaches up to 32 bits. -/
def filler (z : Sizes) : Value := .Bytes (List.replicate (2 ^ 32 - z.arenaStart - 32) 0)

/-- The first slot that is probed for the empty key. -/
def firstSlot (z : Sizes) (hash_key : UInt64 → String → UInt64) : ℕ :=
  z.writer.probeIdx (hash_key z.hashSeed "") 0

theorem firstSlot_lt (z : Sizes) (hash_key : UInt64 → String → UInt64) :
    z.firstSlot hash_key < z.numBuckets.toNat := probeIdx_lt z.mask_lt _ _

theorem filler_length (hstart : z.arenaStart < 2 ^ 32) {slotIdx : UInt32} {kh : UInt64}
    {prevOff : UInt32} :
    (encodePutRecord "" z.filler slotIdx kh prevOff).length = 2 ^ 32 - z.arenaStart := by
  have hz := z.arenaStart_eq
  have hkey : (utf8 "").length = 0 := rfl
  have hval : z.filler.encode.length = 2 ^ 32 - z.arenaStart - 32 + 4 := by
    rw [Value.encode_length]
    change 4 + (List.replicate _ _).length = _
    rw [List.length_replicate, Nat.add_comm]
  rw [encodePutRecord, encodeRecord_length, hkey, hval]
  unfold align4 arenaHdrSize
  omega

end Sizes

/-- The table once the filling record is there. -/
structure Filled (hash_key : UInt64 → String → UInt64) (z : Sizes) (t : Traced) : Prop where
  inv : Inv z t
  bump : (header t.buf).arenaBump.toNat = 2 ^ 32 - z.arenaStart
  slot : readSlot t.buf computeDataOffset (z.firstSlot hash_key) =
    ⟨slotOccupied, 0, 0, hash_key z.hashSeed "", UInt32.ofNat z.arenaStart, List.replicate 8 0⟩
  key : MemhWriter.headHasKey t.buf (UInt32.ofNat z.arenaStart) "" = true
  head : t.heads (z.firstSlot hash_key) = some z.arenaStart

theorem Blank.filled (hash_key : UInt64 → String → UInt64) (h : Blank creator z buf)
    (hstart : z.arenaStart < 2 ^ 32) (hpast : 2 ^ 32 + arenaHdrSize ≤ z.arenaStart + z.arenaCap) :
    Filled hash_key z ((Traced.start buf).call hash_key (.insert true "" z.filler)) := by
  have hi := h.inv hstart
  have hroom := h.room
  have hz := z.arenaStart_eq
  have hidx := z.firstSlot_lt hash_key
  have hzero : (Table.header buf).arenaBump.toNat = 0 := by
    rw [h.header]
    rfl
  have hprobe : z.writer.insertProbe buf "" (hash_key z.hashSeed "") z.writer.numBuckets 0 none =
      .fresh (z.firstSlot hash_key) := by
    obtain ⟨m, hm⟩ := Nat.exists_eq_succ_of_ne_zero (Nat.ne_of_gt z.some_bucket)
    change z.writer.insertProbe buf "" _ z.numBuckets.toNat 0 none = _
    rw [hm]
    unfold MemhWriter.insertProbe
    exact if_pos (congrArg Slot.tag (h.readSlot hidx).1)
  generalize hrecord : encodePutRecord "" z.filler (UInt32.ofNat (z.firstSlot hash_key))
    (hash_key z.hashSeed "") noPrev = record
  have hlen : record.length = 2 ^ 32 - z.arenaStart := by
    rw [← hrecord]
    exact z.filler_length hstart
  have hfits : ¬ z.writer.arenaCap < 0 + record.length := by
    change ¬ z.arenaCap < _
    unfold arenaHdrSize at hpast
    omega
  cases happ : z.writer.appendRecord buf 0 record with
  | none => exact absurd (appendRecord_none.mp happ) hfits
  | some r =>
      obtain ⟨mid, abs⟩ := r
      obtain ⟨rfl, happended⟩ := appendRecord_some (by change 36 ≤ z.arenaStart; omega) hroom happ
      have hmid : z.arenaStart ≤ mid.length := by
        rw [happended.length]
        omega
      obtain ⟨hplaced, hend⟩ := z.slot_placed hidx hmid
      have hbehind := hplaced.behind
      have hdone : (z.writer.insertLocked buf hash_key "" z.filler).buf =
          commitSlot mid computeDataOffset (z.firstSlot hash_key) slotOccupied 0 0
            (hash_key z.hashSeed "") (UInt32.ofNat z.arenaStart) (List.replicate 8 0) ∧
          (z.writer.insertLocked buf hash_key "" z.filler).event =
            some (.linked (z.firstSlot hash_key) z.arenaStart record true) := by
        have hentry : z.writer.writeNewEntry buf (z.firstSlot hash_key) "" z.filler
          (hash_key z.hashSeed "") 0 false =
            ⟨commitSlot mid computeDataOffset (z.firstSlot hash_key) slotOccupied 0 0
              (hash_key z.hashSeed "") (UInt32.ofNat z.arenaStart) (List.replicate 8 0),
              some (.linked (z.firstSlot hash_key) z.arenaStart record true), .ok ()⟩ := by
          have hput :
            MemhWriter.encodePut (z.firstSlot hash_key) "" z.filler (hash_key z.hashSeed "") false
              noPrev = record := hrecord
          unfold MemhWriter.writeNewEntry
          dsimp only
          rw [hput, happ]
          rfl
        have hscalar : isScalarDtype z.filler.dtype = false := rfl
        have hseed : z.writer.hashSeed = z.hashSeed := rfl
        unfold MemhWriter.insertLocked
        dsimp only
        rw [hseed, hprobe, hscalar, hzero]
        dsimp only
        rw [hentry]
        exact ⟨rfl, rfl⟩
      have hcall : (Traced.start buf).call hash_key (.insert true "" z.filler) =
        (Traced.start buf).note
          (commitSlot mid computeDataOffset (z.firstSlot hash_key) slotOccupied 0 0
            (hash_key z.hashSeed "") (UInt32.ofNat z.arenaStart) (List.replicate 8 0))
          (some (.linked (z.firstSlot hash_key) z.arenaStart record true)) := by
        change (Traced.start buf).note
          ((MemhWriter.newUnchecked buf).insertLocked buf hash_key "" z.filler).buf
          ((MemhWriter.newUnchecked buf).insertLocked buf hash_key "" z.filler).event = _
        rw [h.writer hstart, hdone.1, hdone.2]
      have hslot := commitSlot_updated slotOccupied 0 0 (hash_key z.hashSeed "")
          (UInt32.ofNat z.arenaStart) hplaced
        (List.length_replicate (n := 8) (a := (0 : UInt8)))
      have hread := readSlot_commitSlot slotOccupied 0 0 (hash_key z.hashSeed "")
          (UInt32.ofNat z.arenaStart) hplaced
        (List.length_replicate (n := 8) (a := (0 : UInt8)))
      generalize commitSlot mid computeDataOffset (z.firstSlot hash_key) slotOccupied 0 0
        (hash_key z.hashSeed "") (UInt32.ofNat z.arenaStart) (List.replicate 8 0) =
          buf' at hcall hslot hread
      have hstored : slice buf' z.arenaStart record.length = record :=
        (hslot.apart (.inr (by omega)) (.inr hend)).trans happended.stored
      have hhead : (UInt32.ofNat z.arenaStart).toNat = z.arenaStart :=
        UInt32.toNat_ofNat_of_lt' hstart
      rw [hcall]
      refine ⟨?_, ?_, hread, ?_, Function.update_self _ _ _⟩
      · have happ' : z.writer.appendRecord buf (Table.header buf).arenaBump.toNat
            (encodePutRecord "" z.filler (UInt32.ofNat (z.firstSlot hash_key))
              (hash_key z.hashSeed "") noPrev) = some (mid, z.writer.arenaStart + 0) := by
          rw [hzero, hrecord]
          exact happ
        have hinv := Inv.append true hi (by
          change z.arenaStart + (Table.header buf).arenaBump.toNat < 2 ^ 32
          rw [hzero]
          exact hstart) hidx happ' rfl fun _ => ⟨hslot, congrArg Slot.headOff hread⟩
        rw [← hrecord]
        exact hinv
      · change (Table.header buf').arenaBump.toNat = _
        rw [hslot.bump_eq (by omega), happended.end_stored, Nat.zero_add, hlen]
        exact UInt32.toNat_ofNat_of_lt' (by change _ < 2 ^ 32; omega)
      · obtain ⟨rest, hrest⟩ := drop_of_slice hstored
        have hshort : (encodePutRecord "" z.filler (UInt32.ofNat (z.firstSlot hash_key))
            (hash_key z.hashSeed "") noPrev).length < 2 ^ 32 := by
          rw [hrecord, hlen]
          omega
        have hkey := recordKey_encode rest (by decide : (utf8 "").length < 2 ^ 16) hshort
        have hlength : buf'.length = buf.length := hslot.length.trans happended.length
        change MemhWriter.headHasKey buf' _ _ = true
        unfold MemhWriter.headHasKey
        dsimp only
        rw [hhead, hrest, ← hrecord]
        simp only [Bool.and_eq_true, decide_eq_true_eq, beq_iff_eq]
        exact ⟨by omega, hkey⟩

/-- The next record starts at 32 bits, and its offset is stored as 0. -/
theorem Filled.removed {t : Traced} (h : Filled hash_key z t) (hstart : z.arenaStart < 2 ^ 32)
    (hpast : 2 ^ 32 + arenaHdrSize ≤ z.arenaStart + z.arenaCap) :
    ¬ (t.call hash_key (.remove true "")).Sound := by
  have hi := h.inv
  have hroom := hi.room
  have hz := z.arenaStart_eq
  have hidx := z.firstSlot_lt hash_key
  have hprobe : z.writer.removeProbe t.buf "" (hash_key z.hashSeed "") z.writer.numBuckets 0 =
      .found (z.firstSlot hash_key) := by
    have hmatch :
      MemhWriter.slotMatches t.buf (readSlot t.buf computeDataOffset (z.firstSlot hash_key)) ""
        (hash_key z.hashSeed "") = true := by
      rw [h.slot]
      unfold MemhWriter.slotMatches
      dsimp only
      rw [h.key]
      simp
      rfl
    obtain ⟨m, hm⟩ := Nat.exists_eq_succ_of_ne_zero (Nat.ne_of_gt z.some_bucket)
    change z.writer.removeProbe t.buf "" _ z.numBuckets.toNat 0 = _
    rw [hm]
    unfold MemhWriter.removeProbe
    refine (if_neg ?_).trans (if_pos hmatch)
    change ¬ (readSlot t.buf computeDataOffset (z.firstSlot hash_key)).tag = _
    rw [h.slot]
    dsimp only
    decide
  generalize hrecord :
    encodeTombstoneRecord "" (UInt32.ofNat (z.firstSlot hash_key)) (hash_key z.hashSeed "")
    (UInt32.ofNat z.arenaStart) = record
  have hlen : record.length = 28 := by
    rw [← hrecord, encodeTombstoneRecord, encodeRecord_length]
    rfl
  have hfits : ¬ z.writer.arenaCap < (header t.buf).arenaBump.toNat + record.length := by
    change ¬ z.arenaCap < _
    rw [h.bump, hlen]
    unfold arenaHdrSize at hpast
    omega
  cases happ : z.writer.appendRecord t.buf (header t.buf).arenaBump.toNat record with
  | none => exact absurd (appendRecord_none.mp happ) hfits
  | some r =>
      obtain ⟨mid, abs⟩ := r
      obtain ⟨habs, happended⟩ := appendRecord_some (by change 36 ≤ z.arenaStart; omega) hroom happ
      have hpast32 : abs = 2 ^ 32 := by
        rw [habs, h.bump]
        change z.arenaStart + _ = _
        omega
      obtain ⟨hplaced, -⟩ :=
        z.slot_placed hidx (by rw [happended.length]; omega : z.arenaStart ≤ mid.length)
      have hslot := commitSlotHead_updated slotTombstone (UInt32.ofNat abs) hplaced
      have hdone : z.writer.removeLocked t.buf hash_key "" =
          ⟨commitSlotHead mid computeDataOffset (z.firstSlot hash_key) slotTombstone
            (UInt32.ofNat abs), some (.linked (z.firstSlot hash_key) abs record false), true⟩ := by
        have hseed : z.writer.hashSeed = z.hashSeed := rfl
        have hdata : z.writer.dataOff = computeDataOffset := rfl
        unfold MemhWriter.removeLocked
        dsimp only
        rw [hseed, hprobe]
        dsimp only
        rw [hdata, h.slot]
        dsimp only
        rw [hrecord, happ]
      have hcall : t.call hash_key (.remove true "") = t.note
          (commitSlotHead mid computeDataOffset (z.firstSlot hash_key) slotTombstone
            (UInt32.ofNat abs))
          (some (.linked (z.firstSlot hash_key) abs record false)) := by
        change t.note ((MemhWriter.newUnchecked t.buf).removeLocked t.buf hash_key "").buf
          ((MemhWriter.newUnchecked t.buf).removeLocked t.buf hash_key "").event = _
        rw [hi.writer, hdone]
      have hwriter := ((happended.changed hslot).writer hidx).trans hi.writer
      rw [hcall]
      intro hsound
      have hhead := hsound.heads (z.firstSlot hash_key)
        (hidx.trans_eq (congrArg MemhWriter.numBuckets hwriter).symm)
      change Traced.HeadOf _ _ (Function.update t.heads _ (some abs) _) at hhead
      rw [Function.update_self] at hhead
      have hstored := hhead.1
      rw [hpast32] at hstored
      exact absurd (UInt32.toNat_lt _) (Nat.not_lt_of_le hstored.ge)

/-- Initialisation keeps its promises exactly for the tables that end less than 28 bytes past 32
bits. -/
theorem layout_sound_iff {addr : ℕ} {numBuckets : UInt32} {arenaCap : ℕ} {hashSeed : UInt64}
    {fresh : Bytes} (hash_key : UInt64 → String → UInt64)
    (hinit : initBuf addr creator fresh numBuckets arenaCap hashSeed = .ok buf) :
    (validateMemh addr buf = .ok () ∧ ∀ calls, ((Traced.start buf).run hash_key calls).Sound) ↔
      arenaStartAbs numBuckets.toNat computeDataOffset + arenaCap < 2 ^ 32 + arenaHdrSize := by
  obtain ⟨hchecked, rfl⟩ := initBuf_ok.mp hinit
  have hblank := blank_of_init creator hashSeed hchecked
  have hvalid := hblank.validateMemh hchecked.aligned hchecked.pow_two
  have hcap : 0 < arenaCap := Nat.pos_of_ne_zero hchecked.some_arena
  have haligned : (hchecked.sizes hashSeed).arenaStart = 192 + numBuckets.toNat * 32 := rfl
  constructor
  · rintro ⟨haccepted, hsound⟩
    rw [hvalid] at haccepted
    split_ifs at haccepted with hstart
    by_contra hpast
    have hfilled := Blank.filled hash_key hblank hstart (Nat.le_of_not_lt hpast)
    have hrun := hsound [.insert true "" (hchecked.sizes hashSeed).filler, .remove true ""]
    rw [Traced.run, List.foldl_cons, List.foldl_cons, List.foldl_nil] at hrun
    exact hfilled.removed hstart (Nat.le_of_not_lt hpast) hrun
  · intro hfits
    change (hchecked.sizes hashSeed).arenaStart + arenaCap < _ at hfits
    unfold arenaHdrSize at hfits
    have hstart : (hchecked.sizes hashSeed).arenaStart < 2 ^ 32 := by
      -- an arena that starts at 32 bits would need a number of buckets that is no power of two
      have hne : numBuckets.toNat ≠ 134217722 := by
        intro heq
        have hbuckets : numBuckets = 134217722 := UInt32.toNat_inj.mp heq
        have hpow := hchecked.pow_two
        rw [hbuckets] at hpow
        exact absurd hpow (by decide)
      omega
    rw [if_pos hstart] at hvalid
    exact ⟨hvalid, fun calls => ((hblank.inv hstart).run hfits calls).sound⟩

/-- A table of 4 buckets and 128 bytes of records. -/
theorem layout_sound_small :
    validateMemh 0 (storeAll (List.replicate 512 0) (initStores ⟨1, 1⟩ 4 128 0)) = .ok () ∧
      ∀ calls, ((Traced.start (storeAll (List.replicate 512 0) (initStores ⟨1, 1⟩ 4 128 0))).run
        (fun _ _ => 0) calls).Sound :=
  (layout_sound_iff (fun _ _ => 0)
    (show initBuf 0 ⟨1, 1⟩ (List.replicate 512 0) 4 128 0 = .ok _ from
      initBuf_ok.mpr ⟨⟨rfl, by decide, by decide, by decide, by decide,
        by rw [List.length_replicate]; decide⟩, rfl⟩)).mpr (by decide)

/-- With 2^27 buckets initialisation succeeds and validation does not. -/
theorem large_table_rejected : ∃ buf,
    initBuf 0 ⟨1, 1⟩ (List.replicate (192 + 2 ^ 32 + 64) 0) (2 ^ 27) 64 0 = .ok buf ∧
      validateMemh 0 buf = .error (.InvalidLayout "invalid arena_start") := by
  have hchecked : Checked 0 (List.replicate (192 + 2 ^ 32 + 64) 0) (2 ^ 27) 64 :=
    ⟨rfl, by decide, by decide, by decide, by decide, by rw [List.length_replicate]; decide⟩
  have hblank := blank_of_init ⟨1, 1⟩ 0 hchecked
  have hpast : ¬ (hchecked.sizes 0).arenaStart < 2 ^ 32 := by
    change ¬ arenaStartAbs (2 ^ 27 : UInt32).toNat computeDataOffset < 2 ^ 32
    decide
  exact ⟨_, initBuf_ok.mpr ⟨hchecked, rfl⟩,
    (hblank.validateMemh rfl hchecked.pow_two).trans (if_neg hpast)⟩

end Probing.Memh.Table
