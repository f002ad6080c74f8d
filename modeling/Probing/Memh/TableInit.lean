import Probing.Memh.TableOffsets

/-!
# The table that initialisation leaves

Initialisation clears the table and stores its geometry. Validation accepts it exactly if
the arena starts within 32 bits.
-/

namespace Probing.Memh.Table

open Probing.Core Probing.Memt

section Read

variable {buf : Bytes}

@[simp] theorem MemhHeader.bytes_length (h : MemhHeader) : h.bytes.length = sizeOfHeader := by
  simp [MemhHeader.bytes, sizeOfHeader, LeWord.width]

@[simp] theorem MemhMeta.bytes_length (m : MemhMeta) : m.bytes.length = metaSize := by
  simp [MemhMeta.bytes, metaSize, LeWord.width]

theorem header_of_slice {h : MemhHeader} (hslice : slice buf 0 h.bytes.length = h.bytes) :
    header buf = h := by
  obtain ⟨rest, hrest⟩ := drop_of_slice hslice
  rw [List.drop_zero] at hrest
  subst hrest
  unfold header
  simp [MemhHeader.bytes, getLe_append_right, LeWord.width]

theorem geometry_of_slice {m : MemhMeta} (hslice : slice buf metaOffset m.bytes.length = m.bytes) :
    geometry buf = m := by
  obtain ⟨rest, hrest⟩ := drop_of_slice hslice
  have hshift : geometry buf =
    ⟨getLe UInt32 (buf.drop metaOffset) 0, getLe UInt32 (buf.drop metaOffset) 4,
      getLe UInt32 (buf.drop metaOffset) 8, getLe UInt32 (buf.drop metaOffset) 12,
      getLe UInt64 (buf.drop metaOffset) 16, getLe UInt64 (buf.drop metaOffset) 24⟩ := by
    simp only [getLe_drop]
    rfl
  rw [hshift, hrest]
  simp [MemhMeta.bytes, getLe_append_right, LeWord.width]

end Read

section Init

variable {addr : ℕ} {creator : Creator} {buf buf' : Bytes} {numBuckets : UInt32} {arenaCap : ℕ}
    {hashSeed : UInt64}

/-- The checks of `init_buf` pass. -/
structure Checked (addr : ℕ) (buf : Bytes) (numBuckets : UInt32) (arenaCap : ℕ) : Prop where
  aligned : addr % 8 = 0
  some_bucket : numBuckets ≠ 0
  pow_two : numBuckets &&& (numBuckets - 1) = 0
  some_arena : arenaCap ≠ 0
  cap_lt : arenaCap < 2 ^ 32
  room : arenaStartAbs numBuckets.toNat computeDataOffset + arenaCap ≤ buf.length

theorem initBuf_ok : initBuf addr creator buf numBuckets arenaCap hashSeed = .ok buf' ↔
    Checked addr buf numBuckets arenaCap ∧
      buf' = storeAll buf (initStores creator numBuckets arenaCap hashSeed) := by
  unfold initBuf
  dsimp only
  constructor
  · intro h
    split_ifs at h with haligned hzero hpow harena hlarge hroom
    exact ⟨⟨not_not.mp haligned, hzero, not_not.mp hpow, harena, Nat.lt_of_not_le hlarge,
      Nat.le_of_not_lt hroom⟩, (Except.ok.inj h).symm⟩
  · rintro ⟨h, rfl⟩
    rw [if_neg (not_not.mpr h.aligned), if_neg h.some_bucket, if_neg (not_not.mpr h.pow_two),
      if_neg h.some_arena, if_neg (Nat.not_le_of_lt h.cap_lt), if_neg (Nat.not_lt_of_le h.room)]

/-- The sizes of a table that is initialised. -/
def Checked.sizes (h : Checked addr buf numBuckets arenaCap) (hashSeed : UInt64) : Sizes where
  numBuckets := numBuckets
  arenaCap := arenaCap
  hashSeed := hashSeed
  some_bucket := Nat.pos_of_ne_zero fun hzero => h.some_bucket (UInt32.toNat_inj.mp hzero)
  cap_lt := h.cap_lt

/-- A buffer right after initialisation. -/
structure Blank (creator : Creator) (z : Sizes) (buf : Bytes) : Prop where
  room : z.arenaStart + z.arenaCap ≤ buf.length
  header : header buf = initHeader creator z.numBuckets (UInt32.ofNat computeDataOffset)
  geometry : geometry buf =
    initMetaFields (UInt32.ofNat z.arenaStart) (UInt32.ofNat z.arenaCap) z.hashSeed
  zero : ∀ {off n}, computeDataOffset ≤ off → off + n ≤ z.arenaStart →
    slice buf off n = List.replicate n 0

theorem slice_replicate_zero {k off n : ℕ} (h : off + n ≤ k) :
    slice (List.replicate k (0 : UInt8)) off n = List.replicate n 0 := by
  rw [slice, List.drop_replicate, List.take_replicate, Nat.min_eq_left (by omega)]

theorem blank_of_init (creator : Creator) (hashSeed : UInt64)
    (h : Checked addr buf numBuckets arenaCap) :
    Blank creator (h.sizes hashSeed)
    (storeAll buf (initStores creator numBuckets arenaCap hashSeed)) := by
  have hroom := h.room
  have hstart : 192 ≤ arenaStartAbs numBuckets.toNat computeDataOffset := Nat.le_add_right _ _
  unfold initStores
  dsimp only
  generalize hhdr : initHeader creator numBuckets (UInt32.ofNat computeDataOffset) = hdr
  generalize hgeo : initMetaFields (UInt32.ofNat (arenaStartAbs numBuckets.toNat computeDataOffset))
    (UInt32.ofNat arenaCap) hashSeed = geo
  generalize hz : arenaStartAbs numBuckets.toNat computeDataOffset + arenaCap = need at hroom
  have hclear : (⟨0, List.replicate need 0⟩ : Core.Store).Within 0 buf.length :=
    ⟨le_refl _, by rw [Store.fin, List.length_replicate]; dsimp only; omega⟩
  have hheader : (⟨0, hdr.bytes⟩ : Core.Store).Within 0 128 :=
    ⟨le_refl _, by rw [Store.fin, MemhHeader.bytes_length]; dsimp only; decide⟩
  have hmeta : (⟨metaOffset, geo.bytes⟩ : Core.Store).Within 128 160 :=
    ⟨le_refl _, by rw [Store.fin, MemhMeta.bytes_length]; dsimp only; decide⟩
  have hin :
    ∀ s ∈ [(⟨0, List.replicate need 0⟩ : Core.Store), ⟨0, hdr.bytes⟩, ⟨metaOffset, geo.bytes⟩],
      s.Within 0 buf.length := by
    intro s hs
    rcases List.mem_cons.mp hs with rfl | hs
    · exact hclear
    · rcases List.mem_pair.mp hs with rfl | rfl
      · exact ⟨Nat.zero_le _, hheader.2.trans (by omega)⟩
      · exact ⟨Nat.zero_le _, hmeta.2.trans (by omega)⟩
  refine ⟨?_, ?_, ?_, ?_⟩
  · rw [storeAll_length hin]
    exact h.room
  · refine (header_of_slice ?_).trans hhdr.symm
    change slice
      (storeAll buf
      ([⟨0, List.replicate need 0⟩] ++ [(⟨0, hdr.bytes⟩ : Core.Store), ⟨metaOffset, geo.bytes⟩]))
      0 hdr.bytes.length = hdr.bytes
    apply slice_stored (s := ⟨0, hdr.bytes⟩) (fun s hs => hin s (List.mem_append_left [_, _] hs))
      (fun s hs => hin s (List.mem_cons_of_mem _ hs))
    intro s hs
    obtain rfl := List.mem_singleton.mp hs
    exact hmeta.apart (.inl (by rw [MemhHeader.bytes_length]; dsimp only; decide))
  · refine (geometry_of_slice ?_).trans hgeo.symm
    change slice
      (storeAll buf
      ([⟨0, List.replicate need 0⟩, ⟨0, hdr.bytes⟩] ++ [(⟨metaOffset, geo.bytes⟩ : Core.Store)]))
      metaOffset geo.bytes.length = geo.bytes
    exact slice_stored (s := ⟨metaOffset, geo.bytes⟩)
      (fun s hs => hin s (List.mem_append_left [_] hs))
      (fun s hs => hin s (List.mem_cons_of_mem _ (List.mem_cons_of_mem _ hs))) fun s hs =>
        (List.not_mem_nil hs).elim
  · intro off n hoff hend
    change off + n ≤ arenaStartAbs numBuckets.toNat computeDataOffset at hend
    have hoff' : 192 ≤ off := hoff
    have hlen : (splice buf 0 (List.replicate need 0)).length = buf.length := splice_length hclear.2
    have hrest : slice (storeAll (splice buf 0 (List.replicate need 0))
        [(⟨0, hdr.bytes⟩ : Core.Store), ⟨metaOffset, geo.bytes⟩]) off n =
          slice (splice buf 0 (List.replicate need 0)) off n := by
      apply slice_storeAll
      · intro s hs
        rw [hlen]
        exact hin s (List.mem_cons_of_mem _ hs)
      · intro s hs
        rcases List.mem_pair.mp hs with rfl | rfl
        · exact hheader.apart (.inr (by omega))
        · exact hmeta.apart (.inr (by omega))
    have hcleared : slice (splice buf 0 (List.replicate need 0)) 0 need =
        List.replicate need 0 := by
      have h :
        slice (splice buf 0 (List.replicate need 0)) 0 (List.replicate need (0 : UInt8)).length =
          List.replicate need 0 := slice_splice_self (Nat.zero_le buf.length)
      rwa [List.length_replicate] at h
    refine hrest.trans ?_
    have h := slice_of_slice_eq (k := off) (m := n) hcleared (by omega)
    rw [Nat.zero_add] at h
    exact h.trans (slice_replicate_zero (by omega))

namespace Blank

variable {z : Sizes}

theorem readSlot (h : Blank creator z buf) {idx : ℕ} (hidx : idx < z.numBuckets.toNat) :
    readSlot buf computeDataOffset idx = ⟨0, 0, 0, 0, 0, List.replicate 8 0⟩ ∧
      slotGeneration buf (slotOff computeDataOffset idx) = 0 := by
  have hstart := z.arenaStart_eq
  have hzero {k n : ℕ} (hk : k + n ≤ 32) :
      slice buf (slotOff computeDataOffset idx + k) n = List.replicate n 0 := by
    have hoff : slotOff computeDataOffset idx = 192 + idx * 32 := rfl
    exact h.zero ((Nat.le_add_right _ _).trans (Nat.le_add_right _ _)) (by omega)
  constructor
  · ext1
    · exact getLe_of_slice (hzero (k := 0) (by decide))
    · exact getLe_of_slice (hzero (by decide))
    · exact getLe_of_slice (hzero (by decide))
    · exact getLe_of_slice (hzero (by decide))
    · exact getLe_of_slice (hzero (by decide))
    · exact hzero (by decide)
  · exact getLe_of_slice (hzero (by decide))

/-- The arena starts where the stored offset says, if it starts within 32 bits. -/
theorem arenaStart (h : Blank creator z buf) :
    (Table.geometry buf).arenaStart.toNat = z.arenaStart ↔ z.arenaStart < 2 ^ 32 := by
  rw [h.geometry]
  constructor
  · intro heq
    rw [← heq]
    exact UInt32.toNat_lt _
  · exact UInt32.toNat_ofNat_of_lt'

theorem writer (h : Blank creator z buf) (hstart : z.arenaStart < 2 ^ 32) :
    MemhWriter.newUnchecked buf = z.writer := by
  have hcap : (Table.geometry buf).arenaCap.toNat = z.arenaCap := by
    rw [h.geometry]
    exact UInt32.toNat_ofNat_of_lt' z.cap_lt
  have hseed : (Table.geometry buf).hashSeed = z.hashSeed := by
    rw [h.geometry]
    rfl
  unfold MemhWriter.newUnchecked Sizes.writer
  rw [h.arenaStart.mpr hstart, hcap, hseed, h.header]
  rfl

/-- A run starts in a table that keeps the invariant. -/
theorem inv (h : Blank creator z buf) (hstart : z.arenaStart < 2 ^ 32) :
    Inv z (Traced.start buf) := by
  have hbump : (Table.header buf).arenaBump = 0 := by
    rw [h.header]
    rfl
  refine ⟨h.writer hstart, h.room, ?_, ?_, ?_, ?_, fun r hr => (List.not_mem_nil hr).elim,
    fun r hr => (List.not_mem_nil hr).elim, ?_, ?_, fun r hr => (List.not_mem_nil hr).elim⟩
  · change (Table.header buf).journalState = 0
    rw [h.header]
    rfl
  · intro idx hidx
    change slotGeneration buf _ &&& 1 = 0
    rw [(h.readSlot hidx).2]
    rfl
  · change (Table.header buf).arenaBump.toNat % 4 = 0
    rw [hbump]
    rfl
  · change (Table.header buf).arenaBump.toNat ≤ _
    rw [hbump]
    exact Nat.zero_le _
  · change (Table.header buf).arenaBump.toNat = 0
    rw [hbump]
    rfl
  · intro idx hidx
    change Traced.HeadOf _ (Table.readSlot buf _ _) none
    rw [(h.readSlot hidx).1]
    exact .inl rfl

/-- Validation compares the stored start of the arena with where it is. -/
theorem validateMemh (h : Blank creator z buf) (haddr : addr % 8 = 0)
    (hpow : z.numBuckets &&& (z.numBuckets - 1) = 0) :
    validateMemh addr buf =
      if z.arenaStart < 2 ^ 32 then .ok () else .error (.InvalidLayout "invalid arena_start") := by
  have hroom := h.room
  have hz := z.arenaStart_eq
  have hlen : ¬ buf.length < sizeOfHeader + metaSize := by
    change ¬ buf.length < 160
    omega
  have hbuckets : ¬ (z.numBuckets = 0 ∨ z.numBuckets &&& (z.numBuckets - 1) ≠ 0) := by
    rintro (hzero | hne)
    · have := z.some_bucket
      rw [hzero] at this
      exact absurd this (by decide)
    · exact hne hpow
  have hcap : (UInt32.ofNat z.arenaCap).toNat = z.arenaCap := UInt32.toNat_ofNat_of_lt' z.cap_lt
  have hslots (start : ℕ) : (List.range z.numBuckets.toNat).find?
      (fun idx => !validateSlot buf computeDataOffset start idx) = none := by
    apply List.find?_eq_none.mpr
    intro idx hidx
    unfold validateSlot
    rw [(h.readSlot (List.mem_range.mp hidx)).1]
    simp [slotInline, slotEmpty]
  have hsame {α : Type} (a : α) : ¬ a ≠ a := fun hne => hne rfl
  unfold Table.validateMemh
  rw [if_neg hlen, if_neg (not_not.mpr haddr)]
  dsimp only
  rw [h.header, h.geometry]
  refine (if_neg (hsame magicMemh)).trans ?_
  refine (if_neg (hsame versionMemh)).trans ?_
  refine (if_neg (hsame sizeOfHeader)).trans ?_
  refine (if_neg (hsame Layout.byteOrderMark)).trans ?_
  refine (if_neg hbuckets).trans ?_
  refine (if_neg (hsame computeDataOffset)).trans ?_
  refine (if_neg (hsame sizeOfSlot)).trans ?_
  by_cases hstart : z.arenaStart < 2 ^ 32
  · have hnat : (UInt32.ofNat z.arenaStart).toNat = z.arenaStart := UInt32.toNat_ofNat_of_lt' hstart
    have hfits : ¬ buf.length < (UInt32.ofNat z.arenaStart).toNat +
        (UInt32.ofNat z.arenaCap).toNat := by
      rw [hnat, hcap]
      exact Nat.not_lt_of_le hroom
    rw [if_pos hstart]
    refine (if_neg (not_not.mpr hnat)).trans ?_
    refine (if_neg hfits).trans ?_
    refine (if_neg (Nat.not_lt_zero _)).trans ?_
    have hnone := hslots (UInt32.ofNat z.arenaStart).toNat
    split
    next idx hidx => cases hnone.symm.trans hidx
    next => rfl
  · have hne : (UInt32.ofNat z.arenaStart).toNat ≠ z.arenaStart := by
      intro heq
      exact hstart (heq ▸ UInt32.toNat_lt _)
    rw [if_neg hstart]
    exact if_pos hne

end Blank

end Init

end Probing.Memh.Table
