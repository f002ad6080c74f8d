import Probing.Memt.LayoutInit

/-!
# Initialised tables are valid

What initialisation stored is read back: the header, the descriptors as far as they hold
their columns, and chunks without rows. The buffer is valid and describes the schema
exactly where every column fits its descriptor and the index of the timestamp column fits
its field; other schemas are stored as well.
-/

namespace Probing.Memt.Layout

open Probing.Core

variable {addr : ℕ} {creator : Creator} {buf buf' : Bytes} {cols : List Col}
  {chunkSize numChunks : UInt32}

/-- The buffer after initialisation. -/
def fresh (creator : Creator) (buf : Bytes) (cols : List Col)
    (chunkSize numChunks : UInt32) : Bytes :=
  storeAll buf (initStores creator cols chunkSize numChunks)

/-- The chunk that takes the first writes. -/
def firstChunk : ChunkHeader := { emptyChunk with generation := 1, state := stateTag .Writing }

namespace Checked

variable (h : Checked addr buf cols chunkSize numChunks)
include h

theorem fresh_length : (fresh creator buf cols chunkSize numChunks).length = buf.length := by
  have hblank := (@blank_ordered addr creator buf cols chunkSize numChunks h).2
  unfold fresh
  rw [initStores_eq, storeAll_append, storeAll_length h.chunk0_within, storeAll_length hblank]

/-- A store before the chunks is read back. -/
theorem fresh_slice {s : Store} (hs : s ∈ blankStores creator cols chunkSize numChunks)
    (hfin : s.fin ≤ Memt.dataOffset cols.length numChunks.toNat) :
    slice (fresh creator buf cols chunkSize numChunks) s.off s.bytes.length = s.bytes := by
  unfold fresh
  rw [h.blank_kept, h.blank_slice hs]
  intro s' hs'
  left
  simp only [chunk0Stores, List.mem_cons, List.not_mem_nil, or_false] at hs'
  rcases hs' with rfl | rfl
  · exact hfin
  · exact hfin.trans (Nat.le_add_right _ _)

theorem fresh_header : header (fresh creator buf cols chunkSize numChunks) =
    initHeader creator cols chunkSize numChunks := by
  apply header_of_slice
  have hcols := @leaseOffset_le cols.length
  have hleases := @dataOffset_le cols.length numChunks.toNat
  have hmem : (⟨0, (initHeader creator cols chunkSize numChunks).bytes⟩ : Store) ∈
      blankStores creator cols chunkSize numChunks := List.mem_cons_self
  apply h.fresh_slice hmem
  rw [Store.fin, header_bytes_length]
  change 0 + sizeOfHeader ≤ _
  omega

theorem fresh_colDesc {i : ℕ} (hi : i < cols.length) :
    colDesc (fresh creator buf cols chunkSize numChunks) i = ColumnDesc.ofCol cols[i] := by
  have hleases := @dataOffset_le cols.length numChunks.toNat
  have hstart := @leaseOffset_le cols.length
  have hcol : (⟨colDescOff i, (ColumnDesc.ofCol cols[i]).bytes⟩ : Store) ∈ colStores cols :=
    List.mem_mapIdx.mpr ⟨i, hi, rfl⟩
  have hmem : (⟨colDescOff i, (ColumnDesc.ofCol cols[i]).bytes⟩ : Store) ∈
      blankStores creator cols chunkSize numChunks :=
    List.mem_cons_of_mem _ (List.mem_append_left _ hcol)
  apply colDesc_of_slice (setName_length _)
  apply h.fresh_slice hmem
  have hfin := (colStores_within _ hcol).2
  omega

theorem fresh_lease {chunk slot : ℕ} (hchunk : chunk < numChunks.toNat)
    (hslot : slot < readerLeaseSlots) :
    getLe UInt64 (fresh creator buf cols chunkSize numChunks)
      (readerLeaseOff (initHeader creator cols chunkSize numChunks) chunk slot) = 0 := by
  have hlease : leaseStore (initHeader creator cols chunkSize numChunks) chunk slot ∈
      leaseStores (initHeader creator cols chunkSize numChunks) numChunks.toNat :=
    mem_leaseStores.mpr ⟨chunk, hchunk, slot, hslot, rfl⟩
  have hmem : leaseStore (initHeader creator cols chunkSize numChunks) chunk slot ∈
      blankStores creator cols chunkSize numChunks :=
    List.mem_cons_of_mem _ (List.mem_append_right _ (List.mem_append_left _ hlease))
  have hfin := (leaseStores_within initHeader_leaseSlots _ hlease).2
  rw [h.leaseOffset] at hfin
  have hslice := h.fresh_slice hmem (hfin.trans dataOffset_le)
  have hroom := h.room
  have hend : readerLeaseOff (initHeader creator cols chunkSize numChunks) chunk slot + 16 ≤
      (fresh creator buf cols chunkSize numChunks).length := by
    rw [h.fresh_length]
    exact (hfin.trans dataOffset_le).trans ((Nat.le_add_right _ _).trans hroom)
  change slice _ (readerLeaseOff _ _ _) (8 + 8) = le (0 : UInt64) ++ le (0 : UInt64) at hslice
  rw [slice_add] at hslice
  apply getLe_of_slice
  apply (List.append_inj hslice _).1
  rw [slice_length, le_length_u64]
  omega

/-- The header of a chunk before chunk 0 takes the first writes. -/
theorem blank_chunk {i : ℕ} (hi : i < numChunks.toNat) :
    chunkHeader (storeAll buf (blankStores creator cols chunkSize numChunks))
      (Memt.dataOffset cols.length numChunks.toNat + i * chunkSize.toNat) = emptyChunk := by
  have hchunk : chunkStore (Memt.dataOffset cols.length numChunks.toNat) chunkSize.toNat i ∈
      emptyStores (Memt.dataOffset cols.length numChunks.toNat) chunkSize.toNat numChunks.toNat :=
    List.mem_map.mpr ⟨i, List.mem_range.mpr hi, rfl⟩
  have hmem : chunkStore (Memt.dataOffset cols.length numChunks.toNat) chunkSize.toNat i ∈
      blankStores creator cols chunkSize numChunks :=
    List.mem_cons_of_mem _ (List.mem_append_right _ (List.mem_append_right _ hchunk))
  exact chunkHeader_of_slice (h.blank_slice hmem)

/-- A word of the chunks is as before unless it is one of the two of chunk 0. -/
theorem fresh_word {α : Type} [LeWord α] {off : ℕ}
    (hapart : ∀ s ∈ chunk0Stores (Memt.dataOffset cols.length numChunks.toNat),
      s.Apart off (LeWord.width α)) :
    getLe α (fresh creator buf cols chunkSize numChunks) off =
      getLe α (storeAll buf (blankStores creator cols chunkSize numChunks)) off :=
  getLe_congr (h.blank_kept hapart)

/-- The words of chunk 0. -/
theorem fresh_first
    (hblank : chunkHeader (storeAll buf (blankStores creator cols chunkSize numChunks))
      (Memt.dataOffset cols.length numChunks.toNat) = emptyChunk) :
    chunkHeader (fresh creator buf cols chunkSize numChunks)
      (Memt.dataOffset cols.length numChunks.toNat) = firstChunk := by
  have hin := @chunk0_within addr creator buf cols chunkSize numChunks h
  have hbefore := (@blank_ordered addr creator buf cols chunkSize numChunks h).2
  have hlen := storeAll_length hbefore
  have hword {α : Type} [LeWord α] (k : ℕ) (hk : 8 ≤ k)
    (hapart : k + LeWord.width α ≤ 16 ∨ 20 ≤ k) :
      getLe α (fresh creator buf cols chunkSize numChunks)
        (Memt.dataOffset cols.length numChunks.toNat + k) =
        getLe α (storeAll buf (blankStores creator cols chunkSize numChunks))
          (Memt.dataOffset cols.length numChunks.toNat + k) := by
    apply h.fresh_word
    intro s hs
    simp only [chunk0Stores, List.mem_cons, List.not_mem_nil, or_false] at hs
    rcases hs with rfl | rfl
    · right
      simp only [Store.fin, le_length_u64]
      omega
    · rcases hapart with hlow | hhigh
      · left
        simp only
        omega
      · right
        simp only [Store.fin, le_length_u32]
        omega
  have hgeneration : getLe UInt64 (fresh creator buf cols chunkSize numChunks)
      (Memt.dataOffset cols.length numChunks.toNat) = 1 := by
    apply getLe_of_slice
    unfold fresh
    rw [initStores_eq]
    apply @slice_stored buf
      _ [⟨Memt.dataOffset cols.length numChunks.toNat + 16, le (stateTag .Writing)⟩]
      ⟨Memt.dataOffset cols.length numChunks.toNat, le (1 : UInt64)⟩ hbefore
    · rw [← hlen]
      exact hin
    · intro s hs
      rw [List.mem_singleton.mp hs]
      left
      simp only [le_length_u64]
      omega
  have hstate : getLe UInt32 (fresh creator buf cols chunkSize numChunks)
      (Memt.dataOffset cols.length numChunks.toNat + 16) = stateTag .Writing := by
    apply getLe_of_slice
    unfold fresh
    rw [initStores_eq, storeAll_append]
    apply @slice_stored _ [⟨Memt.dataOffset cols.length numChunks.toNat, le (1 : UInt64)⟩] []
      ⟨Memt.dataOffset cols.length numChunks.toNat + 16, le (stateTag .Writing)⟩
    · exact fun s hs => hin s (List.mem_cons.mpr (.inl (List.mem_singleton.mp hs)))
    · exact fun s hs => hin s (List.mem_cons_of_mem _ hs)
    · exact fun s hs => (by cases hs)
  unfold chunkHeader at hblank ⊢
  rw [hgeneration, hstate, hword 8 (by omega) (.inl (by simp [LeWord.width])),
    hword 12 (by omega) (.inl (by simp [LeWord.width])), hword 20 (by omega) (.inr (by omega)),
    hword 24 (by omega) (.inr (by omega)), hword 32 (by omega) (.inr (by omega))]
  injection hblank with _ hused hrows _ hreserved hmin hmax
  rw [hused, hrows, hreserved, hmin, hmax]
  rfl

theorem fresh_chunk {i : ℕ} (hi : i < numChunks.toNat) :
    chunkHeader (fresh creator buf cols chunkSize numChunks)
      (Memt.dataOffset cols.length numChunks.toNat + i * chunkSize.toNat) =
        if i = 0 then firstChunk else emptyChunk := by
  have hblank : chunkHeader (storeAll buf (blankStores creator cols chunkSize numChunks))
      (Memt.dataOffset cols.length numChunks.toNat + i * chunkSize.toNat) = emptyChunk :=
        h.blank_chunk hi
  by_cases hzero : i = 0
  · subst hzero
    rw [if_pos rfl]
    rw [Nat.zero_mul, Nat.add_zero] at hblank ⊢
    exact h.fresh_first hblank
  · rw [if_neg hzero, ← hblank]
    have hmul := Nat.le_mul_of_pos_left chunkSize.toNat (Nat.pos_of_ne_zero hzero)
    have hge := h.chunk_ge
    unfold chunkHeaderSize at hge
    have hword {α : Type} [LeWord α] (k : ℕ) : getLe α (fresh creator buf cols chunkSize numChunks)
        (Memt.dataOffset cols.length numChunks.toNat + i * chunkSize.toNat + k) =
          getLe α (storeAll buf (blankStores creator cols chunkSize numChunks))
            (Memt.dataOffset cols.length numChunks.toNat + i * chunkSize.toNat + k) := by
      apply h.fresh_word
      intro s hs
      right
      simp only [chunk0Stores, List.mem_cons, List.not_mem_nil, or_false] at hs
      rcases hs with rfl | rfl
      · simp only [Store.fin, le_length_u64]
        omega
      · simp only [Store.fin, le_length_u32]
        omega
    unfold chunkHeader
    have hfirst := @hword UInt64 _ 0
    rw [Nat.add_zero] at hfirst
    simp only [hword, hfirst]

end Checked

section Columns

variable {c : Col}

theorem utf8_eq_nil {s : String} (h : utf8 s = []) : s = "" := by
  have hdecode := fromUtf8_utf8 s
  have hempty := fromUtf8_utf8 ""
  rw [h] at hdecode
  exact Option.some.inj (hdecode.symm.trans hempty)

/-- What a descriptor says its name has of bytes. -/
theorem setName_len (s : String) :
    (getLe UInt16 (ColumnDesc.setName s) 0).toNat = min (utf8 s).length 54 := by
  unfold ColumnDesc.setName
  rw [getLe_le_append]
  exact UInt16.toNat_ofNat_of_lt' ((Nat.min_le_right _ _).trans_lt (by decide))

theorem setName_text (s : String) : slice (ColumnDesc.setName s) 2 (min (utf8 s).length 54) =
    (utf8 s).take (min (utf8 s).length 54) := by
  unfold ColumnDesc.setName
  rw [slice_append_right (by rw [le_length_u16]), le_length_u16, Nat.sub_self]
  apply slice_zero_append
  rw [List.length_take, Nat.min_eq_left (Nat.min_le_left _ _)]

/-- A name reads back exactly when it fits. -/
theorem nameStr_iff : (ColumnDesc.ofCol c).nameStr = c.name ↔ (utf8 c.name).length ≤ 54 := by
  unfold ColumnDesc.nameStr
  change (if (getLe UInt16 (ColumnDesc.setName c.name) 0).toNat = 0 then ""
    else (fromUtf8 (slice (ColumnDesc.setName c.name) 2
      (getLe UInt16 (ColumnDesc.setName c.name) 0).toNat)).getD "") = c.name ↔ _
  rw [setName_len, setName_text]
  by_cases hshort : (utf8 c.name).length ≤ 54
  · rw [Nat.min_eq_left hshort, List.take_length, fromUtf8_utf8]
    refine iff_of_true ?_ hshort
    split_ifs with hzero
    · exact (utf8_eq_nil (List.eq_nil_of_length_eq_zero hzero)).symm
    · rfl
  · refine iff_of_false ?_ hshort
    have hcut : min (utf8 c.name).length 54 = 54 := Nat.min_eq_right (Nat.le_of_not_le hshort)
    rw [hcut, if_neg (by decide)]
    intro hname
    have hlen : (utf8 c.name).length ≤ 54 := by
      rw [← hname]
      cases htext : fromUtf8 ((utf8 c.name).take 54) with
      | none => exact Nat.zero_le _
      | some t =>
          rw [Option.getD_some, utf8_of_fromUtf8 htext, List.length_take]
          exact Nat.min_le_left _ _
    exact hshort hlen

/-- The column that a descriptor describes. -/
def storedCol (c : Col) : Col :=
  ⟨(ColumnDesc.ofCol c).nameStr, c.dtype, (UInt32.ofNat c.elemSize).toNat⟩

/-- A column fits its descriptor. -/
def ColFits (c : Col) : Prop := (utf8 c.name).length ≤ 54 ∧ c.elemSize < 2 ^ 32

theorem storedCol_iff : storedCol c = c ↔ ColFits c := by
  have helem : (UInt32.ofNat c.elemSize).toNat = c.elemSize ↔ c.elemSize < 2 ^ 32 := by
    constructor
    · intro h
      rw [← h]
      exact UInt32.toNat_lt _
    · exact fun h => UInt32.toNat_ofNat_of_lt' h
  unfold ColFits
  rw [← nameStr_iff, ← helem]
  cases c
  simp only [storedCol, Col.mk.injEq, true_and]

end Columns

section Ts

/-- The index of the timestamp column fits its field. -/
def TsFits (cols : List Col) : Prop := ∀ i, tsPosition (Schema.pairs cols) = some i → i + 1 < 2 ^ 16

theorem tsCol_iff : viewTsCol (headerTsCol (tsPosition (Schema.pairs cols))) =
    tsPosition (Schema.pairs cols) ↔ TsFits cols := by
  unfold TsFits
  cases tsPosition (Schema.pairs cols) with
  | none => exact iff_of_true rfl fun i hi => (nomatch hi)
  | some i =>
      constructor
      · intro h j hj
        obtain rfl := Option.some.inj hj
        unfold viewTsCol at h
        split_ifs at h
        have hlt := (headerTsCol (some i)).toNat_lt
        have hval := Option.some.inj h
        omega
      · exact fun h => viewTsCol_header (h i rfl)

end Ts

section Read

theorem filterMap_getElem? {α : Type} (l : List α) :
    ((List.range l.length).filterMap fun i => l[i]?) = l := by
  induction l with
  | nil => rfl
  | cons a l ih =>
      rw [List.length_cons, List.range_succ_eq_map, List.filterMap_cons, List.filterMap_map]
      exact congrArg (a :: ·) ih

theorem map_eq_self_iff {f : Col → Col} : cols.map f = cols ↔ ∀ c ∈ cols, f c = c := by
  induction cols with
  | nil => simp
  | cons c cols ih => simp [ih]

namespace Checked

variable (h : Checked addr buf cols chunkSize numChunks)
include h

theorem fresh_schema : schema (fresh creator buf cols chunkSize numChunks) =
    cols.map storedCol := by
  unfold schema
  rw [h.fresh_header, h.numCols]
  have hcol : ∀ i ∈ List.range cols.length,
    (DType.fromU32 (colDesc (fresh creator buf cols chunkSize numChunks) i).dtype).map
      (fun dtype => (⟨(colDesc (fresh creator buf cols chunkSize numChunks) i).nameStr, dtype,
        (colDesc (fresh creator buf cols chunkSize numChunks) i).elemSize.toNat⟩ : Col)) =
      (cols[i]?).map storedCol := by
    intro i hi
    have hlt := List.mem_range.mp hi
    rw [h.fresh_colDesc hlt, List.getElem?_eq_getElem hlt]
    change (DType.fromU32 cols[i].dtype.tag).map _ = _
    rw [DType.fromU32_tag]
    rfl
  rw [List.filterMap_congr hcol, ← List.map_filterMap, filterMap_getElem?]

theorem fresh_tsCol : tsCol (fresh creator buf cols chunkSize numChunks) =
    viewTsCol (headerTsCol (tsPosition (Schema.pairs cols))) := by
  unfold tsCol
  rw [h.fresh_header]
  rfl

/-- A chunk can be pinned, and has no rows. -/
theorem fresh_pin (claimable : Claimable) {i : ℕ} (hi : i < numChunks.toNat) :
    pinChunk claimable (fresh creator buf cols chunkSize numChunks)
      (Memt.dataOffset cols.length numChunks.toNat + i * chunkSize.toNat) =
        .ok (if i = 0 then some 0 else none) := by
  have hge := h.chunk_ge
  have hpos : 0 < chunkSize.toNat := by omega
  have hindex : (Memt.dataOffset cols.length numChunks.toNat + i * chunkSize.toNat -
      Memt.dataOffset cols.length numChunks.toNat) / chunkSize.toNat = i := by
    rw [Nat.add_sub_cancel_left, Nat.mul_div_cancel _ hpos]
  have hacquire : acquireProcessLease claimable (fresh creator buf cols chunkSize numChunks) i =
      true := by
    unfold acquireProcessLease
    dsimp only
    rw [h.fresh_header, initHeader_leaseSlots]
    apply List.any_eq_true.mpr
    refine ⟨0, List.mem_range.mpr (by decide), ?_⟩
    rw [h.fresh_lease hi (by decide)]
    simp
  have hcsz : (initHeader creator cols chunkSize numChunks).chunkSize = chunkSize := rfl
  unfold pinChunk
  dsimp only
  rw [h.fresh_header, h.fresh_chunk hi, h.dataOffset, hcsz, hindex, hacquire,
    if_neg (Nat.not_lt_of_le (Nat.le_add_right _ _)), if_neg (by omega)]
  by_cases hzero : i = 0
  · rw [if_pos hzero, if_pos hzero, if_neg (by decide), if_neg (by decide)]
    exact if_pos (Nat.zero_le _)
  · rw [if_neg hzero, if_neg hzero]
    exact if_pos rfl

theorem fresh_chunk_valid (claimable : Claimable) {i : ℕ} (hi : i < numChunks.toNat) :
    validateChunk claimable (fresh creator buf cols chunkSize numChunks)
      (Memt.dataOffset cols.length numChunks.toNat + i * chunkSize.toNat) = .ok () := by
  unfold validateChunk
  dsimp only
  rw [h.fresh_pin claimable hi, h.fresh_chunk hi]
  by_cases hzero : i = 0
  · have hused (n : ℕ) : ¬ n < firstChunk.used.toNat := Nat.not_lt_zero n
    rw [if_pos hzero, if_pos hzero, if_neg (by decide), if_neg (hused _)]
    rfl
  · have hused (n : ℕ) : ¬ n < emptyChunk.used.toNat := Nat.not_lt_zero n
    rw [if_neg hzero, if_neg hzero, if_neg (by decide), if_neg (hused _)]

theorem fresh_col_valid {i : ℕ} (hi : i < cols.length) :
    validateCol (colDesc (fresh creator buf cols chunkSize numChunks) i) = .ok () := by
  rw [h.fresh_colDesc hi]
  unfold validateCol
  have hlen : (getLe UInt16 (ColumnDesc.ofCol cols[i]).name 0).toNat ≤ 54 := by
    change (getLe UInt16 (ColumnDesc.setName cols[i].name) 0).toNat ≤ 54
    rw [setName_len]
    exact Nat.min_le_right _ _
  rw [if_neg (Nat.not_lt_of_le hlen), if_neg]
  change ¬ (cols[i].dtype.tag < 1 ∨ 9 < cols[i].dtype.tag)
  cases cols[i].dtype <;> decide

end Checked

theorem forM_ok {f : ℕ → Except String Unit} {n : ℕ} (h : ∀ i < n, f i = .ok ()) :
    (List.range n).forM f = .ok () := by
  have hall (l : List ℕ) (hl : ∀ i ∈ l, f i = .ok ()) : l.forM f = .ok () := by
    induction l with
    | nil => rfl
    | cons i l ih =>
        change (f i >>= fun _ => l.forM f) = .ok ()
        rw [hl i List.mem_cons_self]
        exact ih fun j hj => hl j (List.mem_cons_of_mem _ hj)
  exact hall _ fun i hi => h i (List.mem_range.mp hi)

/-- The column that the timestamp index of a header stands for. -/
theorem tsPosition_col {i : ℕ} (h : tsPosition (Schema.pairs cols) = some i) :
    ∃ hi : i < cols.length, cols[i].dtype = .I64 := by
  unfold tsPosition at h
  obtain ⟨hlt, hcol, -⟩ := List.findIdx?_eq_some_iff_getElem.mp h
  have hi : i < cols.length := by
    rw [Schema.pairs, List.length_map] at hlt
    exact hlt
  refine ⟨hi, ?_⟩
  simp only [Schema.pairs, List.getElem_map, decide_eq_true_eq] at hcol
  exact hcol.1

theorem Checked.fresh_ts_valid (h : Checked addr buf cols chunkSize numChunks) (hts : TsFits cols) :
    validateTs (fresh creator buf cols chunkSize numChunks) cols.length
      (headerTsCol (tsPosition (Schema.pairs cols))).toNat = .ok () := by
  unfold validateTs
  cases hpos : tsPosition (Schema.pairs cols) with
  | none => exact if_pos rfl
  | some i =>
      obtain ⟨hi, hdtype⟩ := tsPosition_col hpos
      have hnat : (headerTsCol (some i)).toNat = i + 1 := UInt16.toNat_ofNat_of_lt' (hts i hpos)
      rw [hnat, if_neg (Nat.succ_ne_zero i), if_neg (Nat.not_lt_of_le hi), Nat.add_sub_cancel,
        h.fresh_colDesc hi, if_neg]
      change ¬ DType.fromU32 cols[i].dtype.tag ≠ some .I64
      rw [DType.fromU32_tag, hdtype]
      exact not_not.mpr rfl

theorem Checked.fresh_valid (h : Checked addr buf cols chunkSize numChunks) (claimable : Claimable)
    (hts : TsFits cols) :
    validateBuf claimable addr (fresh creator buf cols chunkSize numChunks) = .ok () := by
  have hhead : header (fresh creator buf cols chunkSize numChunks) =
      initHeader creator cols chunkSize numChunks := h.fresh_header
  have hlen : (fresh creator buf cols chunkSize numChunks).length = buf.length := h.fresh_length
  have hcols := @leaseOffset_le cols.length
  have hleases := @dataOffset_le cols.length numChunks.toNat
  have hroom := h.room
  have hchunks : (initHeader creator cols chunkSize numChunks).numChunks = numChunks := rfl
  have hcsz : (initHeader creator cols chunkSize numChunks).chunkSize = chunkSize := rfl
  have hts_col : (initHeader creator cols chunkSize numChunks).tsCol =
      headerTsCol (tsPosition (Schema.pairs cols)) := rfl
  have hmagic : (initHeader creator cols chunkSize numChunks).magic = magicMemt := rfl
  have hversion : (initHeader creator cols chunkSize numChunks).version = layoutVersion := rfl
  have hsize : (initHeader creator cols chunkSize numChunks).headerSize =
      UInt16.ofNat sizeOfHeader := rfl
  have horder : (initHeader creator cols chunkSize numChunks).byteOrder = byteOrderMark := rfl
  have hflags : (initHeader creator cols chunkSize numChunks).flags = 0 := rfl
  unfold validateBuf
  dsimp only
  rw [hhead, hlen, h.numCols, h.dataOffset, h.leaseOffset, hchunks, hcsz, hts_col,
    hmagic, hversion, hsize, horder, hflags]
  rw [if_neg (by omega), if_neg (not_not.mpr h.aligned),
    if_neg (show ¬ magicMemt ≠ magicMemt from not_not.mpr rfl),
    if_neg (show ¬ layoutVersion ≠ layoutVersion from not_not.mpr rfl),
    if_neg (show ¬ (UInt16.ofNat sizeOfHeader).toNat < sizeOfHeader by decide),
    if_neg (show ¬ byteOrderMark ≠ byteOrderMark from not_not.mpr rfl),
    if_neg (show ¬ (0 : UInt32) &&& ~~~flagsKnown ≠ 0 by decide), if_neg h.some_chunk,
    if_neg (Nat.not_lt_of_le h.chunk_ge), if_neg (not_not.mpr h.chunk_aligned),
    if_neg (by simp [initHeader_leaseSlots]), if_neg (Nat.not_le_of_lt h.data_lt),
    if_neg (not_not.mpr rfl), if_neg (Nat.not_lt_of_le h.room),
    forM_ok fun i hi => h.fresh_col_valid hi, h.fresh_ts_valid hts,
    forM_ok fun i hi => h.fresh_chunk_valid claimable hi]
  rfl

/-- Initialisation leaves a valid buffer that describes its schema exactly where every
column fits its descriptor and the index of the timestamp column fits its field. -/
theorem init_describes_iff (claimable : Claimable)
    (hinit : initBuf addr creator buf cols chunkSize numChunks = .ok buf') :
    (validateBuf claimable addr buf' = .ok () ∧ schema buf' = cols ∧
        tsCol buf' = tsPosition (Schema.pairs cols)) ↔
      (∀ c ∈ cols, ColFits c) ∧ TsFits cols := by
  obtain ⟨h, rfl⟩ := initBuf_ok.mp hinit
  change (validateBuf claimable addr (fresh creator buf cols chunkSize numChunks) = .ok () ∧
    schema (fresh creator buf cols chunkSize numChunks) = cols ∧
    tsCol (fresh creator buf cols chunkSize numChunks) = _) ↔ _
  rw [h.fresh_schema, h.fresh_tsCol, map_eq_self_iff, tsCol_iff]
  have hcol : (∀ c ∈ cols, storedCol c = c) ↔ ∀ c ∈ cols, ColFits c :=
    forall₂_congr fun c _ => storedCol_iff
  rw [hcol]
  constructor
  · exact And.right
  · exact fun hfits => ⟨h.fresh_valid claimable hfits.2, hfits⟩

theorem init_describes_timestamp : ∃ buf', initBuf 0 ⟨7, 100, 1⟩ (List.replicate 496 0)
      [Schema.col "timestamp" .I64] 48 1 = .ok buf' ∧
    validateBuf (fun _ _ => false) 0 buf' = .ok () ∧ schema buf' = [Schema.col "timestamp" .I64] ∧
      tsCol buf' = some 0 := by
  have hinit : initBuf 0 ⟨7, 100, 1⟩ (List.replicate 496 0) [Schema.col "timestamp" .I64] 48 1 =
      .ok (fresh ⟨7, 100, 1⟩ (List.replicate 496 0) [Schema.col "timestamp" .I64] 48 1) :=
    initBuf_ok.mpr
      ⟨⟨rfl, by decide, by decide, by decide, by decide, by rw [List.length_replicate]; decide,
      by decide⟩, rfl⟩
  have hpos : tsPosition (Schema.pairs [Schema.col "timestamp" .I64]) = some 0 := by decide
  have hfits : (∀ c ∈ [Schema.col "timestamp" .I64], ColFits c) ∧
      TsFits [Schema.col "timestamp" .I64] := by
    refine ⟨fun c hc => ?_, fun i hi => ?_⟩
    · rw [List.mem_singleton.mp hc]
      exact ⟨by decide, by decide⟩
    · obtain rfl := Option.some.inj (hpos.symm.trans hi)
      decide
  have hread := (init_describes_iff (fun _ _ => false) hinit).mpr hfits
  exact ⟨_, hinit, hread.1, hread.2.1, hread.2.2.trans hpos⟩

/-- A name of 55 bytes. -/
def wideName : String := "nccl_all_reduce_bytes_received_from_previous_rank_total"

/-- A name that does not fit is stored without its last byte. -/
theorem init_cuts_name :
    ∃ buf', initBuf 0 ⟨7, 100, 1⟩ (List.replicate 496 0) [Schema.col wideName .I64] 48 1 =
      .ok buf' ∧ schema buf' ≠ [Schema.col wideName .I64] := by
  have hchecked : Checked 0 (List.replicate 496 0) [Schema.col wideName .I64] 48 1 :=
    ⟨rfl, by decide, by decide, by decide, by decide, by rw [List.length_replicate]; decide,
      by decide⟩
  refine ⟨_, initBuf_ok.mpr ⟨hchecked, rfl⟩, fun hschema => ?_⟩
  have hsame := map_eq_self_iff.1 (hchecked.fresh_schema.symm.trans hschema) _ List.mem_cons_self
  exact absurd (storedCol_iff.1 hsame).1 (by decide)

end Read

section Table

/-- The chunk state a number stands for. -/
def stateOf (tag : UInt32) : ChunkState :=
  if tag = stateTag .Writing then .Writing else if tag = stateTag .Sealed then .Sealed else .Empty

/-- The chunk at an offset. -/
def chunkAt (buf : Bytes) (cs : ℕ) : Chunk where
  generation := (chunkHeader buf cs).generation.toNat
  used := (chunkHeader buf cs).used.toNat
  rowCount := (chunkHeader buf cs).rowCount
  state := stateOf (chunkHeader buf cs).state
  minTs := (chunkHeader buf cs).minTs
  maxTs := (chunkHeader buf cs).maxTs
  payload := slice buf (cs + chunkHeaderSize) ((header buf).chunkSize.toNat - chunkHeaderSize)

/-- The table that a buffer stores. -/
def tableOf (buf : Bytes) (cols : List (String × DType)) : Table where
  tsCol := (header buf).tsCol
  dedupFlag := (header buf).flags &&& flagDedup != 0
  cols := cols
  numChunks := (header buf).numChunks.toNat
  chunkSize := (header buf).chunkSize.toNat
  writeChunk := (header buf).writeChunk.toNat
  chunksRecycled := (header buf).chunksRecycled
  rowsOverwritten := (header buf).rowsOverwritten
  writesBlocked := (header buf).writesBlocked
  chunk := fun i => chunkAt buf ((header buf).dataOffset.toNat + i * (header buf).chunkSize.toNat)

/-- Two tables of the same shape with the same chunks. -/
def SameTable (t t' : Table) : Prop :=
  { t with chunk := t'.chunk } = t' ∧ ∀ i < t.numChunks, t.chunk i = t'.chunk i

/-- Initialisation leaves the payloads alone. -/
theorem Checked.fresh_payload (h : Checked addr buf cols chunkSize numChunks) {i : ℕ} :
    slice (fresh creator buf cols chunkSize numChunks)
      (Memt.dataOffset cols.length numChunks.toNat + i * chunkSize.toNat + chunkHeaderSize)
      (chunkSize.toNat - chunkHeaderSize) =
    slice buf (Memt.dataOffset cols.length numChunks.toNat + i * chunkSize.toNat + chunkHeaderSize)
      (chunkSize.toNat - chunkHeaderSize) := by
  have hge := h.chunk_ge
  have hcsz : chunkHeaderSize ≤ chunkSize.toNat := by omega
  have hblank := @Checked.blank_ordered addr creator buf cols chunkSize numChunks h
  have hcols := @leaseOffset_le cols.length
  have hleases := @dataOffset_le cols.length numChunks.toNat
  unfold fresh
  rw [h.blank_kept, slice_storeAll hblank.2]
  · intro s hs
    rcases List.mem_cons.mp hs with rfl | hs
    · right
      rw [Store.fin, header_bytes_length]
      change 0 + sizeOfHeader ≤ _
      omega
    · rcases List.mem_append.mp hs with hs | hs
      · right
        have hfin := (colStores_within s hs).2
        omega
      · rcases List.mem_append.mp hs with hs | hs
        · right
          have hfin := (leaseStores_within initHeader_leaseSlots s hs).2
          rw [h.leaseOffset] at hfin
          omega
        · obtain ⟨j, hj, rfl⟩ := List.mem_map.mp hs
          rcases Nat.lt_or_ge i j with hlt | hle
          · left
            have hmul := Nat.mul_le_mul_right chunkSize.toNat (Nat.succ_le_of_lt hlt)
            rw [Nat.succ_mul] at hmul
            change _ ≤ Memt.dataOffset cols.length numChunks.toNat + j * chunkSize.toNat
            omega
          · right
            have hmul := Nat.mul_le_mul_right chunkSize.toNat hle
            rw [chunkStore_fin]
            omega
  · intro s hs
    right
    unfold chunkHeaderSize
    simp only [chunk0Stores, List.mem_cons, List.not_mem_nil, or_false] at hs
    rcases hs with rfl | rfl
    · simp only [Store.fin, le_length_u64]
      omega
    · simp only [Store.fin, le_length_u32]
      omega

/-- The bytes that initialisation leaves are those of the initial ring of chunks. -/
theorem initTable (hinit : initBuf addr creator buf cols chunkSize numChunks = .ok buf') :
    ∃ t, Memt.initBuf buf (Schema.pairs cols) chunkSize numChunks = .ok t ∧
      SameTable (tableOf buf' (Schema.pairs cols)) t := by
  obtain ⟨h, rfl⟩ := initBuf_ok.mp hinit
  change ∃ t, _ ∧ SameTable (tableOf (fresh creator buf cols chunkSize numChunks) _) t
  have hlen : (Schema.pairs cols).length = cols.length := List.length_map _
  have hcols := h.cols_lt
  have hdata := h.data_lt
  have hroom := h.room
  have hge := h.chunk_ge
  unfold Memt.initBuf
  dsimp only
  rw [hlen, if_neg h.some_chunk, if_neg (not_not.mpr h.chunk_aligned),
    if_neg (Nat.not_le_of_lt hcols), if_neg (Nat.not_le_of_lt hdata),
    if_neg (Nat.not_lt_of_le hroom), if_neg (Nat.not_lt_of_le hge)]
  refine ⟨_, rfl, ?_, fun i hi => ?_⟩
  · have hflag : ((initHeader creator cols chunkSize numChunks).flags &&& flagDedup != 0) =
        false := by
      change ((0 : UInt32) &&& flagDedup != 0) = false
      decide
    unfold tableOf
    dsimp only
    rw [h.fresh_header, hflag]
    rfl
  · have hchunks :
      (tableOf (fresh creator buf cols chunkSize numChunks) (Schema.pairs cols)).numChunks =
        numChunks.toNat := by
      unfold tableOf
      rw [h.fresh_header]
      rfl
    rw [hchunks] at hi
    have hcsz : (initHeader creator cols chunkSize numChunks).chunkSize = chunkSize := rfl
    unfold tableOf chunkAt
    dsimp only
    rw [h.fresh_header, h.dataOffset, hcsz, h.fresh_chunk hi, h.fresh_payload]
    by_cases hzero : i = 0
    · subst hzero
      rfl
    · rw [if_neg hzero, if_neg hzero, if_neg hzero]
      rfl

end Table

end Probing.Memt.Layout
