import Probing.Memc.SegmentScan

/-!
# Opening the file of a list of blocks

An unsealed file, cut anywhere after its header, opens to its complete blocks. A
sealed file opens to all of its blocks, as long as the page count and the block
lengths fit the fields of the footer.
-/

namespace Probing.Memc

open Probing.Core
open Probing.Memt (DType)

variable {X : Crates} {blocks : List Block} {header : SegmentHeader}

theorem log_of_file {head : Bytes} (hhead : head.length = segmentHeaderSize) (log : Bytes) :
    ((head ++ log).take (head ++ log).length).drop segmentHeaderSize = log := by
  rw [List.take_length, ← hhead, List.drop_left]

/-- The scan of an unsealed file, up to a tail it cannot parse. -/
theorem open_unsealed {head tail : Bytes} (hhead : head.length = segmentHeaderSize)
    (hdecode : SegmentHeader.decode X (head ++ (blocks.flatMap (Block.encode X) ++ tail)) =
      .ok header)
    (hunsealed : header.isSealed = false) (hoff : header.footerOff = 0)
    (hnamed : ∀ b ∈ blocks, b.Named) (hsmall : ∀ b ∈ blocks, b.Small X)
    (htail : parseBlock X false tail = .stop) :
    SegmentReader.fromMmap X (head ++ (blocks.flatMap (Block.encode X) ++ tail)) =
      .ok ⟨head ++ (blocks.flatMap (Block.encode X) ++ tail), header,
        tablesOf (fun _ => none) blocks, pagesOf X segmentHeaderSize blocks⟩ := by
  have hrecognised : ∀ b ∈ blocks,
      Recognises (parseBlock X false) (Block.encode X) (Block.read X) b :=
    fun b hb => Block.recognises (hsmall b hb) false
  obtain ⟨entries, hreadings, hcollect⟩ := readings_of_named hnamed hsmall false
    segmentHeaderSize (fun _ => none, [])
  have hstop (off : ℕ) : scan (parseBlock X false) off tail = .ok ([], off) := by
    rw [scan, htail]
  unfold SegmentReader.fromMmap
  rw [hdecode]
  simp only [hunsealed, hoff]
  rw [if_neg (by simp), if_neg (by simp), scanBlocks_eq_scan _ le_rfl _ _ _ _ (by simp [hhead]),
    log_of_file hhead, scan_flatMap hrecognised, hreadings, hstop]
  simp only [Except.map, List.append_nil, hcollect]
  rfl

/-- The tail of an unsealed file that opens is not corrupt. -/
theorem stop_of_open_unsealed {head tail : Bytes} (hhead : head.length = segmentHeaderSize)
    (hdecode : SegmentHeader.decode X (head ++ (blocks.flatMap (Block.encode X) ++ tail)) =
      .ok header)
    (hunsealed : header.isSealed = false) (hoff : header.footerOff = 0)
    (hsmall : ∀ b ∈ blocks, b.Small X)
    (htail : parseBlock X false tail = .stop ∨ ∃ e, parseBlock X false tail = .corrupt e)
    {r : SegmentReader}
    (h : SegmentReader.fromMmap X (head ++ (blocks.flatMap (Block.encode X) ++ tail)) = .ok r) :
    parseBlock X false tail = .stop := by
  have hrecognised : ∀ b ∈ blocks,
      Recognises (parseBlock X false) (Block.encode X) (Block.read X) b :=
    fun b hb => Block.recognises (hsmall b hb) false
  unfold SegmentReader.fromMmap at h
  rw [hdecode] at h
  simp only [hunsealed, hoff] at h
  rw [if_neg (by simp), if_neg (by simp), scanBlocks_eq_scan _ le_rfl _ _ _ _ (by simp [hhead]),
    log_of_file hhead] at h
  cases hscan : scan (parseBlock X false) segmentHeaderSize
      (blocks.flatMap (Block.encode X) ++ tail) with
  | error e => simp [hscan, Except.map] at h
  | ok found => exact (stop_of_scan hrecognised htail hscan).1

@[simp] theorem PageMeta.encode_length (p : PageMeta) : p.encode.length = pageDirEntrySize := rfl

theorem entries_length (pages : List PageMeta) :
    (pages.flatMap PageMeta.encode).length = pages.length * pageDirEntrySize := by
  induction pages with
  | nil => rfl
  | cons p pages ih =>
      rw [List.flatMap_cons, List.length_append, ih, p.encode_length, List.length_cons,
        Nat.succ_mul, Nat.add_comm]

@[simp] theorem footerBytes_length (pages : List PageMeta) :
    (footerBytes X pages).length = 16 + pages.length * pageDirEntrySize := by
  simp only [footerBytes, List.length_append, entries_length, le_length_u32]
  omega

/-- A directory entry is read back, at any offset. -/
theorem PageMeta.decode_encode (pre post : Bytes) (p : PageMeta) :
    PageMeta.decode (pre ++ (p.encode ++ post)) pre.length = p := by
  have hzero (α : Type) [LeWord α] : getLe α (pre ++ (p.encode ++ post)) pre.length =
      getLe α (p.encode ++ post) 0 := getLe_length_add pre _ 0
  unfold PageMeta.decode
  simp only [getLe_length_add, hzero]
  simp [PageMeta.encode, getLe_append_right, LeWord.width]

/-- A directory entry that describes a block between the header and the footer. -/
def PageMeta.Within (foff : ℕ) (p : PageMeta) : Prop :=
  segmentHeaderSize ≤ p.blockOff.toNat ∧ blockHeaderSize ≤ p.blockLen.toNat ∧
    p.blockOff.toNat + p.blockLen.toNat ≤ foff

theorem loadEntries_encode {pages : List PageMeta} {foff : ℕ} (hfoff : foff < 2 ^ 64)
    (hwithin : ∀ p ∈ pages, p.Within foff) (pre post : Bytes) :
    loadEntries (pre ++ (pages.flatMap PageMeta.encode ++ post)) foff pages.length pre.length =
      .ok pages := by
  induction pages generalizing pre with
  | nil => rfl
  | cons p pages ih =>
      obtain ⟨hoff, hlen, hend⟩ := hwithin p (by simp)
      have hrest := ih (fun q hq => hwithin q (List.mem_cons_of_mem p hq)) (pre ++ p.encode)
      rw [List.append_assoc, List.length_append, p.encode_length] at hrest
      rw [List.flatMap_cons, List.append_assoc, List.length_cons, loadEntries,
        PageMeta.decode_encode, if_neg (by omega), if_neg (by omega), hrest]
      rfl

theorem length_of_loadEntries {mmap : Bytes} {foff count off : ℕ} {pages : List PageMeta}
    (h : loadEntries mmap foff count off = .ok pages) : pages.length = count := by
  induction count generalizing off pages with
  | zero =>
      obtain rfl := Except.ok.inj h
      rfl
  | succ count ih =>
      simp only [loadEntries] at h
      split_ifs at h
      cases hrest : loadEntries mmap foff count (off + pageDirEntrySize) with
      | error e => simp [hrest, Except.map] at h
      | ok rest =>
          simp only [hrest, Except.map, Except.ok.injEq] at h
          subst h
          simp [ih hrest]

section Footer

variable {pages : List PageMeta} {pre : Bytes}

/-- What `load_footer` finds at the footer: the fields are 32 bits wide. -/
theorem loadFooter_eq (hfoff : header.footerOff.toNat = pre.length)
    (hmax : pre.length + 16 < 2 ^ 64) :
    loadFooter X (pre ++ footerBytes X pages) header =
      if pages.length % 2 ^ 32 ≠ header.pageCount.toNat ∨
          pages.length * pageDirEntrySize % 2 ^ 32 ≠
            pages.length % 2 ^ 32 * pageDirEntrySize then
        .error "MEMC footer page count mismatch"
      else if X.xxh32 ((pages.flatMap PageMeta.encode).take
            (pages.length * pageDirEntrySize % 2 ^ 32)) ≠
          X.xxh32 (pages.flatMap PageMeta.encode) then .error "MEMC footer checksum mismatch"
      else loadEntries (pre ++ footerBytes X pages) pre.length (pages.length % 2 ^ 32)
        (pre.length + 16) := by
  have hmagic : getLe UInt32 (pre ++ footerBytes X pages) pre.length = magicFooter := by
    rw [getLe_append_right le_rfl, Nat.sub_self]
    exact getLe_le_append _ _
  have hcount : (getLe UInt32 (pre ++ footerBytes X pages) (pre.length + 4)).toNat =
      pages.length % 2 ^ 32 := by
    rw [getLe_length_add]
    simp [footerBytes, getLe_append_right, LeWord.width]
  have hentries_len : (getLe UInt32 (pre ++ footerBytes X pages) (pre.length + 8)).toNat =
      pages.length * pageDirEntrySize % 2 ^ 32 := by
    rw [getLe_length_add]
    simp [footerBytes, getLe_append_right, LeWord.width]
  have hchecksum : getLe UInt32 (pre ++ footerBytes X pages) (pre.length + 12) =
      X.xxh32 (pages.flatMap PageMeta.encode) := by
    rw [getLe_length_add]
    simp only [footerBytes]
    generalize X.xxh32 (pages.flatMap PageMeta.encode) = checksum
    simp [getLe_append_right, LeWord.width]
  have hentries (n : ℕ) : slice (pre ++ footerBytes X pages) (pre.length + 16) n =
      (pages.flatMap PageMeta.encode).take n := by
    rw [slice_length_add]
    simp only [footerBytes]
    generalize X.xxh32 (pages.flatMap PageMeta.encode) = checksum
    simp [slice_append_right, LeWord.width]
    rfl
  have hmod : pages.length * pageDirEntrySize % 2 ^ 32 ≤ pages.length * pageDirEntrySize :=
    Nat.mod_le _ _
  have hbound : ¬ pre.length + (16 + pages.length * pageDirEntrySize) <
      pre.length + 16 + pages.length * pageDirEntrySize % 2 ^ 32 := by
    omega
  unfold loadFooter
  simp only [hfoff, hmagic, hcount, hentries_len, hchecksum, hentries, List.length_append,
    footerBytes_length, hbound, false_or]
  rw [if_neg (by omega), if_neg (by simp)]

/-- A footer of fewer than 2^26 pages, each between the header and the footer. -/
theorem loadFooter_ok (hfoff : header.footerOff.toNat = pre.length)
    (hmax : pre.length + 16 < 2 ^ 64) (hcount : header.pageCount.toNat = pages.length)
    (hfew : pages.length < 2 ^ 26) (hwithin : ∀ p ∈ pages, p.Within pre.length) :
    loadFooter X (pre ++ footerBytes X pages) header = .ok pages := by
  have hlen : pages.length % 2 ^ 32 = pages.length := Nat.mod_eq_of_lt (by omega)
  have hbytes : pages.length * pageDirEntrySize % 2 ^ 32 =
      pages.length * pageDirEntrySize :=
    Nat.mod_eq_of_lt (by simp only [pageDirEntrySize]; omega)
  have hsplit : pre ++ footerBytes X pages = (pre ++ (le magicFooter ++
      (le (UInt32.ofNat pages.length) ++ (le (UInt32.ofNat (pages.length * pageDirEntrySize)) ++
        le (X.xxh32 (pages.flatMap PageMeta.encode)))))) ++
      (pages.flatMap PageMeta.encode ++ []) := by
    simp [footerBytes]
  have hstart : (pre ++ (le magicFooter ++ (le (UInt32.ofNat pages.length) ++
      (le (UInt32.ofNat (pages.length * pageDirEntrySize)) ++
        le (X.xxh32 (pages.flatMap PageMeta.encode)))))).length = pre.length + 16 := by
    simp [LeWord.width]
  rw [loadFooter_eq hfoff hmax, hlen, hbytes, if_neg (by simp [hcount]), ← entries_length,
    List.take_length, if_neg (by simp), hsplit, ← hstart]
  exact loadEntries_encode (by omega) hwithin _ _

/-- A footer that loads with all of its pages has fewer than 2^26, as many as the
header says. -/
theorem few_of_loadFooter (hfoff : header.footerOff.toNat = pre.length)
    (hmax : pre.length + 16 < 2 ^ 64) {found : List PageMeta}
    (h : loadFooter X (pre ++ footerBytes X pages) header = .ok found)
    (hall : found.length = pages.length) :
    header.pageCount.toNat = pages.length ∧ pages.length < 2 ^ 26 := by
  rw [loadFooter_eq hfoff hmax] at h
  split_ifs at h with hbad hxxh
  have hlen := length_of_loadEntries h
  simp only [pageDirEntrySize] at hbad
  omega

end Footer

/-- The scan of a sealed file ends at its footer. -/
theorem open_sealed {head footer : Bytes} (hhead : head.length = segmentHeaderSize)
    (hdecode : SegmentHeader.decode X (head ++ (blocks.flatMap (Block.encode X) ++ footer)) =
      .ok header)
    (hsealed : header.isSealed = true)
    (hfoff : header.footerOff.toNat =
      segmentHeaderSize + (blocks.flatMap (Block.encode X)).length)
    (hnamed : ∀ b ∈ blocks, b.Named) (hsmall : ∀ b ∈ blocks, b.Small X) {pages : List PageMeta}
    (hload : loadFooter X (head ++ (blocks.flatMap (Block.encode X) ++ footer)) header =
      .ok pages) :
    SegmentReader.fromMmap X (head ++ (blocks.flatMap (Block.encode X) ++ footer)) =
      .ok ⟨head ++ (blocks.flatMap (Block.encode X) ++ footer), header,
        tablesOf (fun _ => none) blocks, pages⟩ := by
  have hlimit : min header.footerOff.toNat
      (head ++ (blocks.flatMap (Block.encode X) ++ footer)).length =
      segmentHeaderSize + (blocks.flatMap (Block.encode X)).length := by
    rw [hfoff, List.length_append, List.length_append, hhead]
    omega
  have hle : segmentHeaderSize + (blocks.flatMap (Block.encode X)).length ≤
      (head ++ (blocks.flatMap (Block.encode X) ++ footer)).length := by
    rw [← hlimit]
    exact Nat.min_le_right _ _
  have hlog : ((head ++ (blocks.flatMap (Block.encode X) ++ footer)).take
      (segmentHeaderSize + (blocks.flatMap (Block.encode X)).length)).drop
        segmentHeaderSize = blocks.flatMap (Block.encode X) ++ [] := by
    rw [← hhead, List.take_length_add_append, List.drop_left, List.take_left,
      List.append_nil]
  have hrecognised : ∀ b ∈ blocks,
      Recognises (parseBlock X true) (Block.encode X) (Block.read X) b :=
    fun b hb => Block.recognises (hsmall b hb) true
  obtain ⟨entries, hreadings, hcollect⟩ := readings_of_named hnamed hsmall true
    segmentHeaderSize (fun _ => none, pages)
  have hstop (off : ℕ) : scan (parseBlock X true) off [] = .ok ([], off) := by
    rw [scan, parseBlock_nil]
  have hnonzero : header.footerOff ≠ 0 := by
    intro hzero
    rw [hzero] at hfoff
    simp [segmentHeaderSize] at hfoff
    omega
  unfold SegmentReader.fromMmap
  rw [hdecode]
  simp only [hsealed, hlimit, hload]
  rw [if_pos trivial, if_neg hnonzero,
    scanBlocks_eq_scan _ hle _ _ _ _ (Nat.le_add_right _ _), hlog,
    scan_flatMap hrecognised, hreadings, hstop]
  simp only [Except.map, List.append_nil, hcollect]
  simp

/-- With a footer the scan adds no pages. -/
theorem pagesOf_scanBlocks {mmap : Bytes} {limit off : ℕ} {isSealed : Bool}
    {found found' : Tables × List PageMeta}
    (h : scanBlocks X mmap limit isSealed true off found = .ok found') : found'.2 = found.2 := by
  fun_induction scanBlocks X mmap limit isSealed true off found with
  | case1 | case2 | case4 | case5 | case7 | case9 => cases h
  | case3 | case6 | case10 =>
      obtain rfl := Except.ok.inj h
      rfl
  | case8 off found _ _ _ _ _ _ _ _ _ entry _ ih =>
      rw [ih h]
      cases entry <;> rfl

/-- A sealed file that opens has loaded its footer and been scanned up to it. -/
theorem parts_of_open {mmap : Bytes} {r : SegmentReader}
    (hdecode : SegmentHeader.decode X mmap = .ok header) (hsealed : header.isSealed = true)
    (h : SegmentReader.fromMmap X mmap = .ok r) :
    loadFooter X mmap header = .ok r.pages ∧
      ∃ found, scanBlocks X mmap (min header.footerOff.toNat mmap.length) true true
        segmentHeaderSize (fun _ => none, r.pages) = .ok found := by
  unfold SegmentReader.fromMmap at h
  rw [hdecode] at h
  simp only [hsealed, if_true] at h
  split_ifs at h with hoff
  cases hload : loadFooter X mmap header with
  | error e => simp [hload] at h
  | ok pages =>
      simp only [hload] at h
      cases hfound : scanBlocks X mmap (min header.footerOff.toNat mmap.length) true true
          segmentHeaderSize (fun _ => none, pages) with
      | error e => simp [hfound, Except.map] at h
      | ok found =>
          simp only [hfound, Except.map, Except.ok.injEq] at h
          subst h
          have hpages := pagesOf_scanBlocks hfound
          dsimp only at hpages ⊢
          rw [hpages]
          exact ⟨rfl, found, hfound⟩

theorem magic_of_loadFooter {mmap : Bytes} {pages : List PageMeta}
    (h : loadFooter X mmap header = .ok pages) :
    header.footerOff.toNat + 16 ≤ mmap.length ∧
      getLe UInt32 mmap header.footerOff.toNat = magicFooter := by
  simp only [loadFooter] at h
  split_ifs at h with hbig hmagic
  exact ⟨by omega, by tauto⟩

/-- A cut footer is no block: below 64 bytes it stops a scan, from 64 bytes on it
fails it. -/
theorem parseBlock_footer (pages : List PageMeta) (isSealed : Bool) (j : ℕ) :
    parseBlock X isSealed ((footerBytes X pages).take j) =
      if blockHeaderSize ≤ min j (footerBytes X pages).length then
        .corrupt "MEMC block header invalid"
      else .stop := by
  unfold parseBlock
  rw [List.length_take]
  by_cases hlen : blockHeaderSize ≤ min j (footerBytes X pages).length
  · have hmagic : getLe UInt32 ((footerBytes X pages).take j) 0 = magicFooter := by
      have hj : 0 + LeWord.width UInt32 ≤ j := by
        simp only [blockHeaderSize, LeWord.width] at *
        omega
      rw [getLe_take hj]
      exact getLe_le_append _ _
    have hnone : BlockHeader.decode X ((footerBytes X pages).take j) = none := by
      apply BlockHeader.decode_of_magic
      · rw [hmagic]
        decide
      · rw [hmagic]
        decide
    rw [if_pos hlen, if_pos hlen, hnone]
  · rw [if_neg hlen, if_neg hlen]

theorem Block.magic_ne_footer (b : Block) (rest : Bytes) :
    getLe UInt32 (b.encode X ++ rest) 0 ≠ magicFooter := by
  have hhead : getLe UInt32 (b.encode X ++ rest) 0 = (b.header X).magic := by
    rw [Block.encode, blockBytes, BlockHeader.encode, BlockHeader.fields]
    simp only [List.append_assoc]
    exact getLe_le_append _ _
  rw [hhead]
  cases b with
  | table id name cols =>
      have hne : magicTableBlock ≠ magicFooter := by decide
      exact hne
  | page a ts =>
      have hne : magicPageBlock ≠ magicFooter := by decide
      exact hne

/-- A sealed scan that ends within the blocks ends between two of them. -/
theorem boundary_of_scan (hsmall : ∀ b ∈ blocks, b.Small X) {m off : ℕ}
    {entries : List (ℕ × Entry)}
    (hscan : scan (parseBlock X true) off ((blocks.flatMap (Block.encode X)).take m) =
      .ok (entries, off + m)) :
    ((complete (Block.encode X) blocks m).flatMap (Block.encode X)).length = m := by
  obtain ⟨tail, htake, htail⟩ := take_flatMap (Block.encode X) blocks m
  have hrecognised : ∀ b ∈ complete (Block.encode X) blocks m,
      Recognises (parseBlock X true) (Block.encode X) (Block.read X) b :=
    fun b hb => Block.recognises (hsmall b (complete_subset hb)) true
  have hparse : parseBlock X true tail = .stop ∨ ∃ e, parseBlock X true tail = .corrupt e := by
    rcases htail with rfl | ⟨b, hb, j, hj, rfl⟩
    · exact .inl (parseBlock_nil true)
    · exact (parseBlock_torn (b.header_covers (hsmall b hb)) true hj).imp_right And.right
  rw [htake] at hscan
  have hstop := (stop_of_scan hrecognised hparse hscan).2
  omega

/-- The footer of a sealed file that opens lies behind its blocks. -/
theorem footerOff_of_open {head : Bytes} {pages : List PageMeta}
    (hhead : head.length = segmentHeaderSize)
    (hdecode : SegmentHeader.decode X (head ++ (blocks.flatMap (Block.encode X) ++
      footerBytes X pages)) = .ok header)
    (hsealed : header.isSealed = true) (hsmall : ∀ b ∈ blocks, b.Small X) {r : SegmentReader}
    (h : SegmentReader.fromMmap X (head ++ (blocks.flatMap (Block.encode X) ++
      footerBytes X pages)) = .ok r) :
    header.footerOff.toNat = segmentHeaderSize + (blocks.flatMap (Block.encode X)).length := by
  obtain ⟨hload, found, hscan⟩ := parts_of_open hdecode hsealed h
  obtain ⟨hle, hmagic⟩ := magic_of_loadFooter hload
  generalize header.footerOff.toNat = foff at *
  rw [Nat.min_eq_left (by omega)] at hscan
  have hstart : segmentHeaderSize ≤ foff := by
    by_contra hlt
    rw [scanBlocks, if_neg (by omega), if_pos (by simp; omega)] at hscan
    cases hscan
  obtain ⟨m, rfl⟩ := Nat.exists_eq_add_of_le hstart
  have hbody : ((head ++ (blocks.flatMap (Block.encode X) ++ footerBytes X pages)).take
      (segmentHeaderSize + m)).drop segmentHeaderSize =
        (blocks.flatMap (Block.encode X) ++ footerBytes X pages).take m := by
    rw [← hhead, List.take_length_add_append, List.drop_left]
  rw [scanBlocks_eq_scan _ (by omega) _ _ _ _ (by omega), hbody] at hscan
  cases hentries : scan (parseBlock X true) segmentHeaderSize
      ((blocks.flatMap (Block.encode X) ++ footerBytes X pages).take m) with
  | error e => simp [hentries] at hscan
  | ok p =>
      obtain ⟨entries, stop⟩ := p
      simp only [hentries] at hscan
      split_ifs at hscan with hstop
      have hstop : stop = segmentHeaderSize + m := by
        by_contra hne
        exact hstop ⟨trivial, hne⟩
      subst hstop
      rw [getLe_append_right (by omega), hhead, Nat.add_sub_cancel_left] at hmagic
      rcases Nat.lt_trichotomy m (blocks.flatMap (Block.encode X)).length with hm | hm | hm
      · -- within the blocks: the next block has another magic
        rw [List.take_append_of_le_length hm.le] at hentries
        have hlen := boundary_of_scan hsmall hentries
        obtain ⟨rest, hrest⟩ := complete_prefix (Block.encode X) blocks m
        cases rest with
        | nil =>
            rw [List.append_nil] at hrest
            rw [← hrest] at hlen
            omega
        | cons b rest =>
            have hsplit : blocks.flatMap (Block.encode X) =
                (complete (Block.encode X) blocks m).flatMap (Block.encode X) ++
                  (b.encode X ++ rest.flatMap (Block.encode X)) := by
              conv_lhs => rw [hrest]
              rw [List.flatMap_append, List.flatMap_cons]
            rw [hsplit, List.append_assoc, getLe_append_right hlen.le, hlen, Nat.sub_self,
              List.append_assoc] at hmagic
            exact absurd hmagic (b.magic_ne_footer _)
      · rw [hm]
      · -- behind the blocks: the scan stops at the footer or fails there
        rw [List.take_append, List.take_of_length_le hm.le] at hentries
        have hfooter := parseBlock_footer (X := X) pages true
          (m - (blocks.flatMap (Block.encode X)).length)
        have hparse : parseBlock X true ((footerBytes X pages).take
            (m - (blocks.flatMap (Block.encode X)).length)) = .stop ∨
              ∃ e, parseBlock X true ((footerBytes X pages).take
                (m - (blocks.flatMap (Block.encode X)).length)) = .corrupt e := by
          rw [hfooter]
          split_ifs
          · exact .inr ⟨_, rfl⟩
          · exact .inl rfl
        have hend := (stop_of_scan (fun b hb => Block.recognises (hsmall b hb) true) hparse
          hentries).2
        omega

/-- A sealed file that opens has loaded its footer. -/
theorem load_of_open {mmap : Bytes} {r : SegmentReader}
    (hdecode : SegmentHeader.decode X mmap = .ok header) (hsealed : header.isSealed = true)
    (h : SegmentReader.fromMmap X mmap = .ok r) : loadFooter X mmap header = .ok r.pages :=
  (parts_of_open hdecode hsealed h).1

end Probing.Memc
