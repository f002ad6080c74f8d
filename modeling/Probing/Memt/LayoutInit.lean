import Mathlib.Data.List.Range
import Probing.Memt.Layout

/-!
# The bytes that initialisation leaves

The stores before the last two are ordered, so each of them is read back: the header, the
descriptors, empty leases and empty chunks.
-/

namespace Probing.Memt.Layout

open Probing.Core

section Read

variable {buf rest : Bytes} {off n : ℕ}

@[simp] theorem header_bytes_length (h : Header) : h.bytes.length = sizeOfHeader := by
  simp [Header.bytes, sizeOfHeader, LeWord.width]

theorem header_of_slice {h : Header} (hslice : slice buf 0 h.bytes.length = h.bytes) :
    header buf = h := by
  obtain ⟨rest, hrest⟩ := drop_of_slice hslice
  rw [List.drop_zero] at hrest
  subst hrest
  unfold header
  simp [Header.bytes, getLe_append_right, LeWord.width]

@[simp] theorem setName_length (s : String) : (ColumnDesc.setName s).length = 56 := by
  unfold ColumnDesc.setName
  simp only [List.length_append, le_length_u16, List.length_take, List.length_replicate]
  omega

theorem ofCol_bytes_length (c : Col) : (ColumnDesc.ofCol c).bytes.length = columnDescSize := by
  unfold ColumnDesc.bytes ColumnDesc.ofCol
  simp [columnDescSize, LeWord.width]

theorem colDesc_of_slice {i : ℕ} {d : ColumnDesc} (hname : d.name.length = 56)
    (hslice : slice buf (colDescOff i) d.bytes.length = d.bytes) : colDesc buf i = d := by
  obtain ⟨rest, hrest⟩ := drop_of_slice hslice
  have hget (k : ℕ) : getLe UInt32 buf (colDescOff i + k) = getLe UInt32 (d.bytes ++ rest) k := by
    rw [← hrest, getLe_drop]
  have hbytes : slice buf (colDescOff i) 56 = slice (d.bytes ++ rest) 0 56 := by
    rw [← hrest, slice_drop, Nat.add_zero]
  unfold colDesc
  rw [hget, hget, hbytes]
  unfold ColumnDesc.bytes
  rw [List.append_assoc, slice_zero_append hname]
  have hdtype : getLe UInt32 (d.name ++ (le d.dtype ++ le d.elemSize ++ rest)) 56 = d.dtype := by
    rw [getLe_append_right hname.le, hname, Nat.sub_self, List.append_assoc, getLe_le_append]
  have helem : getLe UInt32 (d.name ++ (le d.dtype ++ le d.elemSize ++ rest)) 60 = d.elemSize := by
    rw [getLe_append_right (by omega), hname, List.append_assoc,
      getLe_append_right (by simp [LeWord.width])]
    exact getLe_le_append _ _
  rw [hdtype, helem]

@[simp] theorem chunk_bytes_length (c : ChunkHeader) : c.bytes.length = chunkHeaderSize := rfl

theorem chunkHeader_of_slice {c : ChunkHeader} (hslice : slice buf off c.bytes.length = c.bytes) :
    chunkHeader buf off = c := by
  obtain ⟨rest, hrest⟩ := drop_of_slice hslice
  have hshift : chunkHeader buf off = chunkHeader (buf.drop off) 0 := by
    unfold chunkHeader
    simp only [getLe_drop, Nat.add_zero, Nat.zero_add]
  rw [hshift, hrest]
  unfold chunkHeader
  simp [ChunkHeader.bytes, getLe_append_right, LeWord.width]

end Read

section Offsets

variable {numCols numChunks : ℕ}

theorem align64_bounds (n : ℕ) : n ≤ align64 n ∧ align64 n < n + 64 := by
  unfold align64
  omega

theorem leaseOffset_le : sizeOfHeader + numCols * columnDescSize ≤ leaseOffset numCols := by
  have h := (align64_bounds (128 + 64 * numCols)).1
  unfold leaseOffset sizeOfHeader columnDescSize
  omega

theorem dataOffset_le : leaseOffset numCols + numChunks * readerLeaseSlots * readerLeaseSize ≤
    dataOffset numCols numChunks := by
  have h := (align64_bounds (16 * readerLeaseSlots * numChunks + leaseOffset numCols)).1
  unfold dataOffset readerLeaseSize readerLeaseSlots at *
  omega

end Offsets

section Regions

variable {cols : List Col} {h : Header} {n dataOff csz : ℕ}

theorem colStores_within : ∀ s ∈ colStores cols,
    s.Within sizeOfHeader (sizeOfHeader + cols.length * columnDescSize) := by
  intro s hs
  obtain ⟨i, hi, rfl⟩ := List.mem_mapIdx.mp hs
  refine ⟨Nat.le_add_right _ _, ?_⟩
  change sizeOfHeader + i * columnDescSize + (ColumnDesc.ofCol cols[i]).bytes.length ≤ _
  rw [ofCol_bytes_length]
  have hmul := Nat.mul_le_mul_right columnDescSize (Nat.succ_le_of_lt hi)
  rw [Nat.succ_mul] at hmul
  omega

theorem colStores_ordered : Ordered (colStores cols) := by
  apply List.pairwise_iff_getElem.mpr
  intro i j hi hj hij
  simp only [colStores, List.getElem_mapIdx]
  change sizeOfHeader + i * columnDescSize + (ColumnDesc.ofCol _).bytes.length ≤
    sizeOfHeader + j * columnDescSize
  rw [ofCol_bytes_length]
  have hmul := Nat.mul_le_mul_right columnDescSize (Nat.succ_le_of_lt hij)
  rw [Nat.succ_mul] at hmul
  omega

/-- The lease of one slot is empty. -/
def leaseStore (h : Header) (chunk slot : ℕ) : Store :=
  ⟨readerLeaseOff h chunk slot, le (0 : UInt64) ++ le (0 : UInt64)⟩

theorem leaseStore_fin (h : Header) (chunk slot : ℕ) :
    (leaseStore h chunk slot).fin = readerLeaseOff h chunk slot + readerLeaseSize := rfl

theorem mem_leaseStores {s : Store} : s ∈ leaseStores h n ↔
    ∃ chunk < n, ∃ slot < readerLeaseSlots, leaseStore h chunk slot = s := by
  simp only [leaseStores, List.mem_flatMap, List.mem_range, List.mem_map]
  rfl

/-- The leases of a chunk lie before those of the next one. -/
theorem lease_fin_le (hslots : h.leaseSlots.toNat = readerLeaseSlots) {chunk slot : ℕ}
    (hslot : slot < readerLeaseSlots) : (leaseStore h chunk slot).fin ≤
      h.leaseOffset.toNat + (chunk + 1) * readerLeaseSlots * readerLeaseSize := by
  rw [leaseStore_fin, readerLeaseOff, hslots]
  have hindex : chunk * readerLeaseSlots + slot + 1 ≤ (chunk + 1) * readerLeaseSlots := by
    rw [Nat.succ_mul]
    omega
  have hmul := Nat.mul_le_mul_right readerLeaseSize hindex
  rw [Nat.succ_mul] at hmul
  omega

theorem leaseStores_within (hslots : h.leaseSlots.toNat = readerLeaseSlots) : ∀ s ∈ leaseStores h n,
    s.Within h.leaseOffset.toNat
    (h.leaseOffset.toNat + n * readerLeaseSlots * readerLeaseSize) := by
  intro s hs
  obtain ⟨chunk, hchunk, slot, hslot, rfl⟩ := mem_leaseStores.1 hs
  refine ⟨Nat.le_add_right _ _, (lease_fin_le hslots hslot).trans ?_⟩
  apply Nat.add_le_add_left
  exact Nat.mul_le_mul_right _ (Nat.mul_le_mul_right _ hchunk)

theorem leaseStores_ordered (hslots : h.leaseSlots.toNat = readerLeaseSlots) :
    Ordered (leaseStores h n) := by
  apply List.pairwise_flatMap.mpr
  constructor
  · intro chunk _
    apply List.pairwise_map.mpr
    apply List.pairwise_lt_range.imp
    intro slot slot' hlt
    change (leaseStore h chunk slot).fin ≤ (leaseStore h chunk slot').off
    rw [leaseStore_fin]
    change readerLeaseOff h chunk slot + readerLeaseSize ≤ readerLeaseOff h chunk slot'
    unfold readerLeaseOff readerLeaseSize
    omega
  · apply List.pairwise_lt_range.imp
    intro chunk chunk' hlt s hs s' hs'
    obtain ⟨slot, hslot, rfl⟩ := List.mem_map.mp hs
    obtain ⟨slot', hslot', rfl⟩ := List.mem_map.mp hs'
    refine (lease_fin_le hslots (List.mem_range.mp hslot)).trans ?_
    change _ ≤ readerLeaseOff h chunk' slot'
    unfold readerLeaseOff
    rw [hslots]
    apply Nat.add_le_add_left
    apply Nat.mul_le_mul_right
    exact (Nat.mul_le_mul_right _ hlt).trans (Nat.le_add_right _ _)

/-- An empty chunk. -/
def chunkStore (dataOff csz i : ℕ) : Store := ⟨dataOff + i * csz, emptyChunk.bytes⟩

/-- The chunks before chunk 0 takes the first writes. -/
def emptyStores (dataOff csz n : ℕ) : List Store := (List.range n).map (chunkStore dataOff csz)

theorem chunkStore_fin (dataOff csz i : ℕ) :
    (chunkStore dataOff csz i).fin = dataOff + i * csz + chunkHeaderSize := rfl

theorem emptyStores_within (hcsz : chunkHeaderSize ≤ csz) : ∀ s ∈ emptyStores dataOff csz n,
    s.Within dataOff (dataOff + csz * n) := by
  intro s hs
  obtain ⟨i, hi, rfl⟩ := List.mem_map.mp hs
  refine ⟨Nat.le_add_right _ _, ?_⟩
  have hmul := Nat.mul_le_mul_right csz (Nat.succ_le_of_lt (List.mem_range.mp hi))
  rw [Nat.succ_mul, Nat.mul_comm n] at hmul
  rw [chunkStore_fin]
  omega

theorem emptyStores_ordered (hcsz : chunkHeaderSize ≤ csz) :
    Ordered (emptyStores dataOff csz n) := by
  apply List.pairwise_map.mpr
  apply List.pairwise_lt_range.imp
  intro i j hij
  rw [chunkStore_fin]
  change _ ≤ dataOff + j * csz
  have hmul := Nat.mul_le_mul_right csz (Nat.succ_le_of_lt hij)
  rw [Nat.succ_mul] at hmul
  omega

end Regions

/-- The checks of `init_buf` pass. -/
structure Checked (addr : ℕ) (buf : Bytes) (cols : List Col) (chunkSize numChunks : UInt32) :
    Prop where
  aligned : addr % 8 = 0
  some_chunk : numChunks ≠ 0
  chunk_aligned : chunkSize.toNat % 8 = 0
  cols_lt : cols.length < 2 ^ 32
  data_lt : dataOffset cols.length numChunks.toNat < 2 ^ 32
  room : dataOffset cols.length numChunks.toNat + chunkSize.toNat * numChunks.toNat ≤ buf.length
  chunk_ge : chunkHeaderSize + 8 ≤ chunkSize.toNat

section Init

variable {addr : ℕ} {creator : Creator} {buf buf' : Bytes} {cols : List Col}
    {chunkSize numChunks : UInt32}

theorem initBuf_ok : initBuf addr creator buf cols chunkSize numChunks = .ok buf' ↔
    Checked addr buf cols chunkSize numChunks ∧
      buf' = storeAll buf (initStores creator cols chunkSize numChunks) := by
  unfold initBuf
  dsimp only
  constructor
  · intro h
    split_ifs at h with haligned hsome hmod hcols hdata hroom hge
    exact ⟨⟨not_not.mp haligned, hsome, not_not.mp hmod, Nat.lt_of_not_le hcols,
      Nat.lt_of_not_le hdata, Nat.le_of_not_lt hroom, Nat.le_of_not_lt hge⟩, (Except.ok.inj h).symm⟩
  · rintro ⟨h, rfl⟩
    rw [if_neg (not_not.mpr h.aligned), if_neg h.some_chunk, if_neg (not_not.mpr h.chunk_aligned),
      if_neg (Nat.not_le_of_lt h.cols_lt), if_neg (Nat.not_le_of_lt h.data_lt),
      if_neg (Nat.not_lt_of_le h.room), if_neg (Nat.not_lt_of_le h.chunk_ge)]

/-- The stores before chunk 0 takes the first writes. -/
def blankStores (creator : Creator) (cols : List Col) (chunkSize numChunks : UInt32) : List Store :=
  ⟨0, (initHeader creator cols chunkSize numChunks).bytes⟩ :: (colStores cols ++
    (leaseStores (initHeader creator cols chunkSize numChunks) numChunks.toNat ++
      emptyStores (dataOffset cols.length numChunks.toNat) chunkSize.toNat numChunks.toNat))

/-- Chunk 0 takes the first writes. -/
def chunk0Stores (dataOff : ℕ) : List Store :=
  [⟨dataOff, le (1 : UInt64)⟩, ⟨dataOff + 16, le (stateTag .Writing)⟩]

theorem initStores_eq : initStores creator cols chunkSize numChunks =
    blankStores creator cols chunkSize numChunks ++
      chunk0Stores (dataOffset cols.length numChunks.toNat) := by
  unfold initStores blankStores chunkStores
  simp only [List.cons_append, List.append_assoc]
  rfl

theorem initHeader_leaseSlots :
    (initHeader creator cols chunkSize numChunks).leaseSlots.toNat = readerLeaseSlots := rfl

namespace Checked

variable (h : Checked addr buf cols chunkSize numChunks)
include h

theorem lease_lt : leaseOffset cols.length < 2 ^ 32 :=
  ((Nat.le_add_right _ _).trans dataOffset_le).trans_lt h.data_lt

theorem numCols : (initHeader creator cols chunkSize numChunks).numCols.toNat = cols.length :=
  UInt32.toNat_ofNat_of_lt' h.cols_lt

theorem dataOffset : (initHeader creator cols chunkSize numChunks).dataOffset.toNat =
    Memt.dataOffset cols.length numChunks.toNat := UInt32.toNat_ofNat_of_lt' h.data_lt

theorem leaseOffset : (initHeader creator cols chunkSize numChunks).leaseOffset.toNat =
    Memt.leaseOffset cols.length := UInt32.toNat_ofNat_of_lt' h.lease_lt

/-- The stores before chunk 0 takes the first writes are ordered, within the buffer. -/
theorem blank_ordered : Ordered (blankStores creator cols chunkSize numChunks) ∧
    ∀ s ∈ blankStores creator cols chunkSize numChunks, s.Within 0 buf.length := by
  have hcols_end := @leaseOffset_le cols.length
  have hleases_end := @dataOffset_le cols.length numChunks.toNat
  have hcsz : chunkHeaderSize ≤ chunkSize.toNat := (Nat.le_add_right _ _).trans h.chunk_ge
  have hroom := h.room
  have hcols := @colStores_within cols
  have hleases := @leaseStores_within (initHeader creator cols chunkSize numChunks) numChunks.toNat
    initHeader_leaseSlots
  rw [h.leaseOffset] at hleases
  have hchunks := @emptyStores_within numChunks.toNat (Memt.dataOffset cols.length numChunks.toNat)
    chunkSize.toNat hcsz
  have htail : Ordered (leaseStores (initHeader creator cols chunkSize numChunks) numChunks.toNat ++
      emptyStores (Memt.dataOffset cols.length numChunks.toNat) chunkSize.toNat numChunks.toNat) :=
    (leaseStores_ordered initHeader_leaseSlots).append (emptyStores_ordered hcsz)
      (fun s hs => (hleases s hs).2.trans hleases_end) fun s hs => (hchunks s hs).1
  have hrest : Ordered (colStores cols ++ (leaseStores (initHeader creator cols chunkSize numChunks)
      numChunks.toNat ++ emptyStores (Memt.dataOffset cols.length numChunks.toNat) chunkSize.toNat
      numChunks.toNat)) := by
    apply colStores_ordered.append htail (fun s hs => (hcols s hs).2.trans hcols_end)
    intro s hs
    rcases List.mem_append.mp hs with hs | hs
    · exact (hleases s hs).1
    · exact (Nat.le_add_right _ _).trans (hleases_end.trans (hchunks s hs).1)
  have hlow : ∀ s ∈ colStores cols ++ (leaseStores (initHeader creator cols chunkSize numChunks)
      numChunks.toNat ++ emptyStores (Memt.dataOffset cols.length numChunks.toNat) chunkSize.toNat
      numChunks.toNat), sizeOfHeader ≤ s.off ∧ s.fin ≤ buf.length := by
    intro s hs
    rcases List.mem_append.mp hs with hs | hs
    · have hin := hcols s hs
      exact ⟨hin.1, by have := hin.2; omega⟩
    · rcases List.mem_append.mp hs with hs | hs
      · have hin := hleases s hs
        exact ⟨by have := hin.1; omega, by have := hin.2; omega⟩
      · have hin := hchunks s hs
        exact ⟨by have := hin.1; omega, hin.2.trans hroom⟩
  have hfin : Store.fin ⟨0, (initHeader creator cols chunkSize numChunks).bytes⟩ =
      sizeOfHeader := by
    rw [Store.fin, header_bytes_length, Nat.zero_add]
  constructor
  · exact List.pairwise_cons.mpr ⟨fun s hs => hfin ▸ (hlow s hs).1, hrest⟩
  · intro s hs
    rcases List.mem_cons.mp hs with rfl | hs
    · refine ⟨Nat.zero_le _, ?_⟩
      rw [hfin]
      omega
    · exact ⟨Nat.zero_le _, (hlow s hs).2⟩

/-- The buffer before chunk 0 takes the first writes. -/
theorem blank_slice {s : Store} (hs : s ∈ blankStores creator cols chunkSize numChunks) :
    slice (storeAll buf (blankStores creator cols chunkSize numChunks)) s.off s.bytes.length =
      s.bytes :=
  h.blank_ordered.1.slice h.blank_ordered.2 hs

theorem chunk0_within : ∀ s ∈ chunk0Stores (Memt.dataOffset cols.length numChunks.toNat),
    s.Within 0 (storeAll buf (blankStores creator cols chunkSize numChunks)).length := by
  have hlen := storeAll_length (@blank_ordered addr creator buf cols chunkSize numChunks h).2
  have hsome : 0 < numChunks.toNat := by
    apply Nat.pos_of_ne_zero
    intro hzero
    exact h.some_chunk (UInt32.toNat_inj.mp hzero)
  have hroom := h.room
  have hmul := Nat.le_mul_of_pos_right chunkSize.toNat hsome
  have hge := h.chunk_ge
  unfold chunkHeaderSize at hge
  rw [hlen]
  intro s hs
  simp only [chunk0Stores, List.mem_cons, List.not_mem_nil, or_false] at hs
  rcases hs with rfl | rfl
  · refine ⟨Nat.zero_le _, ?_⟩
    simp only [Store.fin, le_length_u64]
    omega
  · refine ⟨Nat.zero_le _, ?_⟩
    simp only [Store.fin, le_length_u32]
    omega

/-- Bytes outside the two words of chunk 0 are as before. -/
theorem blank_kept {off n : ℕ}
    (hapart : ∀ s ∈ chunk0Stores (Memt.dataOffset cols.length numChunks.toNat), s.Apart off n) :
    slice (storeAll buf (initStores creator cols chunkSize numChunks)) off n =
      slice (storeAll buf (blankStores creator cols chunkSize numChunks)) off n := by
  rw [initStores_eq, storeAll_append]
  exact slice_storeAll h.chunk0_within hapart

end Checked

end Init

end Probing.Memt.Layout
