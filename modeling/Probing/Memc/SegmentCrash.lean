import Probing.Memc.SegmentRoundTrip

/-!
# Failing writes

A write may fail after any number of its bytes. When it has left no part of a
block in the file, the segment still seals to the blocks of the calls that
returned `Ok`. A part of a block moves the cursor away from the offset, and the
footer is then not where the header says it is.

A crash cuts the sequence of writes after some byte. While the old header is in
place the file opens by the forward scan, which takes a tail of fewer than 64
bytes for an incomplete block and refuses a longer piece of the footer. Once the
rewrite of the header has reached its flags, the file opens only if what is
written of the header passes its checksum.
-/

namespace Probing.Memc

open Probing.Core

variable {X : Crates} {stamp seal_stamp : Stamp}

/-- A sealed file reads exactly the blocks of the calls that returned `Ok`, if no
failing call has left a part of a block and the blocks fit their fields. -/
theorem faults_contained (hX : X.Lossless) {calls : List (Call × Option ℕ)}
    (hunbroken : UnbrokenRun X (.create X stamp) calls)
    (hnamed : ∀ b ∈ (SegmentWriter.create X stamp).blocksOf X calls, b.Named)
    (hsmall : ∀ b ∈ (SegmentWriter.create X stamp).blocksOf X calls, b.Small X)
    (hfits : SegmentFits X ((SegmentWriter.create X stamp).blocksOf X calls)) {file : File}
    (hseal : ((SegmentWriter.create X stamp).run X calls).1.sealFile X seal_stamp = .ok file) :
    ∃ r, SegmentReader.fromMmap X file.bytes = .ok r ∧
      Reads X ((SegmentWriter.create X stamp).blocksOf X calls) r := by
  have h := (create_holds X stamp).run hunbroken
  rw [List.nil_append] at h
  obtain ⟨r, hopen, hreads, -, -⟩ := h.open_sealed hX hnamed hsmall hfits hseal
  exact ⟨r, hopen, hreads⟩

theorem ok_of_toOption {ε α : Type} {e : Except ε α} {a : α} (h : e.toOption = some a) :
    e = .ok a := by
  cases e with
  | error e => cases h
  | ok b => exact congrArg _ (Option.some.inj h)

/-- An append that fails after `fault` bytes, and the same append again. -/
def retriedCalls (fault : ℕ) : List (Call × Option ℕ) :=
  [(byteTable, none), (.appendPageFrom (bytePage 3), some fault),
    (.appendPageFrom (bytePage 3), none)]

/-- A device that is full from the start of the block on. -/
theorem faults_contained_retried :
    ∃ file, ((SegmentWriter.create stored ⟨1, 2, 3⟩).run stored (retriedCalls 0)).1.sealFile
        stored ⟨1, 2, 4⟩ = .ok file ∧
      ∃ r, SegmentReader.fromMmap stored file.bytes = .ok r ∧
        Reads stored ((SegmentWriter.create stored ⟨1, 2, 3⟩).blocksOf stored
          (retriedCalls 0)) r := by
  have hblocks : (SegmentWriter.create stored ⟨1, 2, 3⟩).blocksOf stored (retriedCalls 0) =
      [.table 1 "" [("", .U8)], .page (bytePage 3) (tsMinInit, tsMaxInit)] := by
    decide +kernel
  have hsame := blocksOf_byteCalls stored ⟨1, 2, 3⟩ (n := 3) (by decide) (by decide)
  have hsmall := byteCalls_small stored ⟨1, 2, 3⟩ (n := 3) (by decide) (by decide)
  rw [hsame, ← hblocks] at hsmall
  have hfits : SegmentFits stored
      ((SegmentWriter.create stored ⟨1, 2, 3⟩).blocksOf stored (retriedCalls 0)) := by
    rw [hblocks]
    refine ⟨?_, by simp [pageBlocks]⟩
    simp [Block.Exact, bytePage_rows, bytePage_payload]
  have hfirst : ((SegmentWriter.create stored ⟨1, 2, 3⟩).call stored none byteTable).2 = true := by
    decide +kernel
  have hlast : ((((SegmentWriter.create stored ⟨1, 2, 3⟩).call stored none byteTable).1.call stored
      (some 0) (.appendPageFrom (bytePage 3))).1.call stored none
        (.appendPageFrom (bytePage 3))).2 = true := by
    decide +kernel
  have hunbroken : UnbrokenRun stored (.create stored ⟨1, 2, 3⟩) (retriedCalls 0) := by
    refine ⟨fun hfail => ?_, fun _ _ b _ => .inl ?_, fun hfail => ?_, trivial⟩
    · rw [hfirst] at hfail
      cases hfail
    · simp [File.taken]
    · rw [hlast] at hfail
      cases hfail
  have hseal : (((SegmentWriter.create stored ⟨1, 2, 3⟩).run stored
      (retriedCalls 0)).1.sealFile stored ⟨1, 2, 4⟩).toOption.isSome = true := by
    decide +kernel
  obtain ⟨file, hfile⟩ := Option.isSome_iff_exists.mp hseal
  have hfile := ok_of_toOption hfile
  exact ⟨file, hfile, faults_contained stored_lossless hunbroken (fun b hb => (hsmall b hb).1)
    (fun b hb => (hsmall b hb).2) hfits hfile⟩

/-- The append fails after 10 bytes of its block; the next one succeeds, and the
sealed file does not open. -/
theorem faults_lose_segment :
    ((SegmentWriter.create stored ⟨1, 2, 3⟩).run stored (retriedCalls 10)).2 =
        [true, false, true] ∧
      ∃ file, ((SegmentWriter.create stored ⟨1, 2, 3⟩).run stored (retriedCalls 10)).1.sealFile
          stored ⟨1, 2, 4⟩ = .ok file ∧
        ∀ r, SegmentReader.fromMmap stored file.bytes ≠ .ok r := by
  have hseal : (((SegmentWriter.create stored ⟨1, 2, 3⟩).run stored
      (retriedCalls 10)).1.sealFile stored ⟨1, 2, 4⟩).toOption.any (fun file =>
        loadFooter stored file.bytes (((SegmentWriter.create stored ⟨1, 2, 3⟩).run stored
            (retriedCalls 10)).1.sealHeader ⟨1, 2, 4⟩) =
          .error "MEMC footer missing or invalid" ∧
        SegmentHeader.decode stored file.bytes = .ok (((SegmentWriter.create stored
          ⟨1, 2, 3⟩).run stored (retriedCalls 10)).1.sealHeader ⟨1, 2, 4⟩)) = true := by
    decide +kernel
  obtain ⟨file, hfile, hcheck⟩ := (Option.any_eq_true _ _).mp hseal
  obtain ⟨hload, hdecode⟩ := of_decide_eq_true hcheck
  refine ⟨by decide +kernel, file, ?_, fun r hopen => ?_⟩
  · exact ok_of_toOption hfile
  · have hfound := load_of_open hdecode (sealHeader_isSealed _ _) hopen
    rw [hload] at hfound
    cases hfound

open Probing.Core

/-- The header of the file when `n` bytes of the new one are written. -/
def tornHeader (X : Crates) (stamp seal_stamp : Stamp) (w : SegmentWriter) (n : ℕ) : Bytes :=
  ((w.sealHeader seal_stamp).encode X).take n ++ ((createHeader stamp).encode X).drop n

/-- The image opens to the blocks that are complete within `k` bytes of writes. -/
def Recovers (X : Crates) (blocks : List Block) (image : Bytes) (k : ℕ) : Prop :=
  ∃ r, SegmentReader.fromMmap X image = .ok r ∧
    Reads X (complete (Block.encode X) blocks (k - segmentHeaderSize)) r

/-- Bytes of the header up to its flags, the same before and after `seal`. -/
def headerPrefix : Bytes :=
  le magicMemc ++ (le versionMemc ++ (le (64 : UInt16) ++ byteOrderMark))

/-- The cut after `k` of `len` bytes and those of the new header leaves a file that
opens: its complete pages fit their fields, and either the old header is in place
and less than 64 bytes of the footer are written, or what is there of the new
header passes its checksum and points to the footer. -/
structure CrashSafe (X : Crates) (stamp seal_stamp : Stamp) (w : SegmentWriter)
    (blocks : List Block) (len k : ℕ) : Prop where
  exact : ∀ b ∈ complete (Block.encode X) blocks (k - segmentHeaderSize), b.Exact X
  scanned : k - len ≤ headerPrefix.length → min k len < w.offset + blockHeaderSize
  sealed : headerPrefix.length < k - len → ∃ header,
    SegmentHeader.decode X (tornHeader X stamp seal_stamp w (k - len)) = .ok header ∧
      header.footerOff.toNat = w.offset ∧ header.pageCount.toNat = w.pages.length ∧
      w.pages.length < 2 ^ 26

variable {X : Crates} {stamp seal_stamp : Stamp} {w : SegmentWriter} {blocks : List Block}

theorem headerPrefix_length : headerPrefix.length = 10 := by
  simp [headerPrefix, LeWord.width]

theorem header_split (X : Crates) (h : SegmentHeader) :
    ∃ rest, h.encode X = headerPrefix ++ (le h.flags ++ rest) := by
  refine ⟨le h.writerPid ++ (le h.writerStart ++ (le h.createdUnixMs ++ (le h.footerOff ++
    (le h.tsMin ++ (le h.tsMax ++ (le h.pageCount ++ le (X.xxh32 h.fields))))))), ?_⟩
  simp only [SegmentHeader.encode, SegmentHeader.fields, headerPrefix, List.append_assoc]

@[simp] theorem tornHeader_length (n : ℕ) :
    (tornHeader X stamp seal_stamp w n).length = segmentHeaderSize := by
  rw [tornHeader, List.length_append, List.length_take, List.length_drop,
    SegmentHeader.encode_length, SegmentHeader.encode_length]
  omega

/-- Up to the flags nothing of the header has changed. -/
theorem tornHeader_old {n : ℕ} (hn : n ≤ headerPrefix.length) :
    tornHeader X stamp seal_stamp w n = (createHeader stamp).encode X := by
  obtain ⟨new, hnew⟩ := header_split X (w.sealHeader seal_stamp)
  obtain ⟨old, hold⟩ := header_split X (createHeader stamp)
  have hsame : ((w.sealHeader seal_stamp).encode X).take n =
      ((createHeader stamp).encode X).take n := by
    rw [hnew, hold, List.take_append_of_le_length hn, List.take_append_of_le_length hn]
  rw [tornHeader, hsame, List.take_append_drop]

/-- From the flags on the header is one of a sealed segment. -/
theorem tornHeader_sealed {n : ℕ} (hn : headerPrefix.length < n) :
    ∃ tail, tornHeader X stamp seal_stamp w n = headerPrefix ++ (le flagSealed ++ tail) := by
  obtain ⟨new, hnew⟩ := header_split X (w.sealHeader seal_stamp)
  obtain ⟨old, hold⟩ := header_split X (createHeader stamp)
  have hsealed : le (w.sealHeader seal_stamp).flags = [1, 0] := by
    have h : le flagSealed = [1, 0] := by decide
    exact h
  have hunsealed : le (createHeader stamp).flags = [0, 0] := by
    have h : le (0 : UInt16) = [0, 0] := by decide
    exact h
  have hflags : le flagSealed = [1, 0] := by decide
  obtain ⟨j, rfl⟩ := Nat.exists_eq_add_of_lt hn
  rw [tornHeader, hnew, hold, hsealed, hunsealed, hflags, Nat.add_assoc,
    List.take_length_add_append, List.drop_length_add_append]
  cases j with
  | zero => exact ⟨old, by simp⟩
  | succ j => exact ⟨new.take j ++ old.drop j, by simp⟩

theorem tornHeader_isSealed {n : ℕ} (hn : headerPrefix.length < n) {header : SegmentHeader}
    (h : SegmentHeader.decode X (tornHeader X stamp seal_stamp w n) = .ok header) :
    header.isSealed = true := by
  obtain ⟨tail, htail⟩ : ∃ tail, tornHeader X stamp seal_stamp w n =
      headerPrefix ++ (le flagSealed ++ tail) := tornHeader_sealed hn
  have hflags := SegmentHeader.flags_of_decode h
  rw [htail, getLe_append_right headerPrefix_length.le, headerPrefix_length, Nat.sub_self,
    getLe_le_append] at hflags
  rw [SegmentHeader.isSealed, hflags]
  decide

/-- The image of a crash: the header as far as it is rewritten, and the blocks and
the footer as far as they are written. -/
theorem Holds.crash_image (h : Holds X stamp w blocks) {file : File}
    (hseal : w.sealFile X seal_stamp = .ok file) {k : ℕ} (hk : segmentHeaderSize ≤ k) :
    replay [] file.writes k = tornHeader X stamp seal_stamp w (k - file.bytes.length) ++
      (blocks.flatMap (Block.encode X) ++ footerBytes X w.pages).take
        (k - segmentHeaderSize) := by
  obtain ⟨-, -, hreplay⟩ := h.sealFile hseal
  have hold := SegmentHeader.encode_length X (createHeader stamp)
  have hnew := SegmentHeader.encode_length X (w.sealHeader seal_stamp)
  obtain ⟨j, rfl⟩ := Nat.exists_eq_add_of_le hk
  rw [hreplay, tornHeader]
  generalize segmentHeaderSize + j - file.bytes.length = n
  generalize (w.sealHeader seal_stamp).encode X = new at *
  generalize (createHeader stamp).encode X = old at *
  rw [← hold, List.take_length_add_append, Nat.add_sub_cancel_left, splice, List.take_zero,
    List.nil_append, Nat.zero_add, List.append_assoc, List.append_right_inj, List.length_take,
    hnew, ← hold]
  by_cases hn : n ≤ old.length
  · rw [Nat.min_eq_left hn, List.drop_append_of_le_length hn]
  · rw [Nat.min_eq_right (by omega), List.drop_left, List.drop_eq_nil_of_le (by omega),
      List.nil_append]

/-- What the forward scan finds behind the complete blocks of a crash image stops
it unless it is 64 bytes of the footer. -/
theorem crash_tail (hsmall : ∀ b ∈ blocks, b.Small X) (pages : List PageMeta) (j : ℕ) :
    ∃ tail, (blocks.flatMap (Block.encode X) ++ footerBytes X pages).take j =
        (complete (Block.encode X) blocks j).flatMap (Block.encode X) ++ tail ∧
      (parseBlock X false tail = .stop ∨ ∃ e, parseBlock X false tail = .corrupt e) ∧
      (parseBlock X false tail = .stop ↔
        min j ((blocks.flatMap (Block.encode X)).length + (footerBytes X pages).length) <
          (blocks.flatMap (Block.encode X)).length + blockHeaderSize) := by
  by_cases hj : j ≤ (blocks.flatMap (Block.encode X)).length
  · obtain ⟨tail, htake, htail⟩ := take_flatMap (Block.encode X) blocks j
    have hstop : parseBlock X false tail = .stop := by
      rcases htail with rfl | ⟨b, hb, i, hi, rfl⟩
      · exact parseBlock_nil false
      · have htorn := parseBlock_torn (b.header_covers (hsmall b hb)) false hi
        exact htorn.resolve_right (by simp)
    refine ⟨tail, ?_, .inl hstop, ?_⟩
    · rw [List.take_append_of_le_length hj, htake]
    · simp only [hstop, blockHeaderSize, true_iff]
      omega
  · have hfooter := parseBlock_footer (X := X) pages false
      (j - (blocks.flatMap (Block.encode X)).length)
    refine ⟨(footerBytes X pages).take (j - (blocks.flatMap (Block.encode X)).length), ?_, ?_, ?_⟩
    · rw [List.take_append, List.take_of_length_le (by omega), complete_of_length_le (by omega)]
    · rw [hfooter]
      split_ifs
      · exact .inr ⟨_, rfl⟩
      · exact .inl rfl
    · rw [hfooter]
      split_ifs with hlong
      · simp only [false_iff]
        omega
      · simp only [true_iff]
        omega

/-- With the old header in place the image recovers exactly when the scan does not
meet the footer. -/
theorem recovers_scanned (hX : X.Lossless) {gs : List Block} {k : ℕ} {tail : Bytes}
    (hgs : gs = complete (Block.encode X) blocks (k - segmentHeaderSize))
    (hvalid : ∀ b ∈ gs, b.Valid X) (hnamed : ∀ b ∈ gs, b.Named) (hsmall : ∀ b ∈ gs, b.Small X)
    (hmax : ((createHeader stamp).encode X ++ (gs.flatMap (Block.encode X) ++ tail)).length <
      2 ^ 64)
    (htail : parseBlock X false tail = .stop ∨ ∃ e, parseBlock X false tail = .corrupt e) :
    Recovers X blocks ((createHeader stamp).encode X ++ (gs.flatMap (Block.encode X) ++ tail)) k ↔
      (∀ b ∈ gs, b.Exact X) ∧ parseBlock X false tail = .stop := by
  have hhead := SegmentHeader.encode_length X (createHeader stamp)
  have hdecode := SegmentHeader.decode_encode X (createHeader stamp)
    (gs.flatMap (Block.encode X) ++ tail)
  rw [Recovers, ← hgs]
  constructor
  · rintro ⟨r, hopen, hreads⟩
    exact ⟨hreads.exact, stop_of_open_unsealed hhead hdecode (createHeader_isSealed stamp) rfl
      hsmall htail hopen⟩
  · rintro ⟨hexact, hstop⟩
    have hopen := open_unsealed hhead hdecode (createHeader_isSealed stamp) rfl hnamed hsmall hstop
    exact ⟨_, hopen, reads_of_pages hX rfl hhead hmax rfl rfl hvalid hexact⟩

/-- Every cut of the writes of a sealed segment, at or after the first header, is
recovered exactly when it is safe. -/
theorem crash_recovery (hX : X.Lossless) {calls : List (Call × Option ℕ)}
    (hok : ∀ ok ∈ ((SegmentWriter.create X stamp).run X calls).2, ok = true)
    (hnamed : ∀ b ∈ (SegmentWriter.create X stamp).blocksOf X calls, b.Named)
    (hsmall : ∀ b ∈ (SegmentWriter.create X stamp).blocksOf X calls, b.Small X) {file : File}
    (hseal : ((SegmentWriter.create X stamp).run X calls).1.sealFile X seal_stamp = .ok file)
    {k : ℕ} (hk : segmentHeaderSize ≤ k) :
    Recovers X ((SegmentWriter.create X stamp).blocksOf X calls) (replay [] file.writes k) k ↔
      CrashSafe X stamp seal_stamp ((SegmentWriter.create X stamp).run X calls).1
        ((SegmentWriter.create X stamp).blocksOf X calls) file.bytes.length k := by
  have h := (create_holds X stamp).run (unbrokenRun_of_ok hok)
  rw [List.nil_append] at h
  generalize (SegmentWriter.create X stamp).blocksOf X calls = blocks at *
  generalize ((SegmentWriter.create X stamp).run X calls).1 = w at *
  obtain ⟨hbytes, hmax, -⟩ := h.sealFile hseal
  have himage := h.crash_image hseal hk
  have hoff : w.offset = segmentHeaderSize + (blocks.flatMap (Block.encode X)).length := by
    rw [h.offset, h.bytes, List.length_append, SegmentHeader.encode_length]
  have hlen : file.bytes.length = segmentHeaderSize +
      ((blocks.flatMap (Block.encode X)).length + (footerBytes X w.pages).length) := by
    rw [hbytes, List.length_append, List.length_append, SegmentHeader.encode_length]
  have hsub {b : Block} (hb : b ∈ complete (Block.encode X) blocks (k - segmentHeaderSize)) :
      b ∈ blocks := complete_subset hb
  simp only [maxFileSize] at hmax
  rw [himage]
  by_cases hcut : k - file.bytes.length ≤ headerPrefix.length
  · -- the old header is in place
    obtain ⟨tail, htake, hparse, hstop⟩ := crash_tail hsmall w.pages (k - segmentHeaderSize)
    have hshort : ((createHeader stamp).encode X ++
        ((complete (Block.encode X) blocks (k - segmentHeaderSize)).flatMap (Block.encode X) ++
          tail)).length < 2 ^ 64 := by
      rw [← htake, List.length_append, List.length_take, List.length_append,
        SegmentHeader.encode_length]
      omega
    rw [tornHeader_old hcut, htake, recovers_scanned hX rfl (fun b hb => h.valid b (hsub hb))
      (fun b hb => hnamed b (hsub hb)) (fun b hb => hsmall b (hsub hb)) hshort hparse, hstop]
    constructor
    · rintro ⟨hexact, hfew⟩
      exact ⟨hexact, fun _ => by omega, fun hlate => by omega⟩
    · intro hsafe
      have hfew := hsafe.scanned hcut
      exact ⟨hsafe.exact, by omega⟩
  · -- the flags of the new header are written
    have hlate : headerPrefix.length < k - file.bytes.length := by omega
    have hlength : (blocks.flatMap (Block.encode X) ++ footerBytes X w.pages).length ≤
        k - segmentHeaderSize := by
      rw [List.length_append]
      omega
    have hall : complete (Block.encode X) blocks (k - segmentHeaderSize) = blocks := by
      rw [List.length_append] at hlength
      exact complete_of_length_le (by omega)
    have hhead : (tornHeader X stamp seal_stamp w (k - file.bytes.length)).length =
        segmentHeaderSize := tornHeader_length _
    have hdecode := SegmentHeader.decode_append X hhead
      (blocks.flatMap (Block.encode X) ++ footerBytes X w.pages)
    have hfit : (tornHeader X stamp seal_stamp w (k - file.bytes.length) ++
        (blocks.flatMap (Block.encode X) ++ footerBytes X w.pages)).length ≤ maxFileSize := by
      rw [List.length_append, List.length_append, hhead, maxFileSize]
      omega
    rw [List.take_of_length_le hlength]
    constructor
    · rintro ⟨r, hopen, hreads⟩
      rw [hall] at hreads
      cases hheader : SegmentHeader.decode X
          (tornHeader X stamp seal_stamp w (k - file.bytes.length)) with
      | error e =>
          rw [SegmentReader.fromMmap, hdecode, hheader] at hopen
          cases hopen
      | ok header =>
          obtain ⟨hfoff, hcount, hfits⟩ := h.fits_of_image hsmall hhead (hdecode.trans hheader)
            (tornHeader_isSealed hlate hheader) hfit hopen hreads
          refine ⟨fun b hb => hfits.exact b (hsub hb), fun hearly => by omega, fun _ => ?_⟩
          exact ⟨header, hheader, hfoff.trans hoff.symm, hcount, h.pages_length ▸ hfits.few⟩
    · intro hsafe
      obtain ⟨header, hheader, hfoff, hcount, hfew⟩ := hsafe.sealed hlate
      have hexact := hsafe.exact
      rw [hall] at hexact
      obtain ⟨r, hopen, hreads, -, -⟩ := h.open_image hX hnamed hsmall
        ⟨hexact, h.pages_length ▸ hfew⟩ hhead (hdecode.trans hheader)
        (tornHeader_isSealed hlate hheader) (hfoff.trans hoff) hcount hfit
      refine ⟨r, hopen, ?_⟩
      rwa [hall]

/-- A cut in the page block of a segment with one page. -/
theorem crash_recovery_in_page :
    ∃ file, ((SegmentWriter.create stored ⟨1, 2, 3⟩).run stored (byteCalls 3)).1.sealFile stored
        ⟨1, 2, 4⟩ = .ok file ∧
      Recovers stored ((SegmentWriter.create stored ⟨1, 2, 3⟩).blocksOf stored (byteCalls 3))
        (replay [] file.writes 200) 200 := by
  have hsmall := byteCalls_small stored ⟨1, 2, 3⟩ (n := 3) (by decide) (by decide)
  have hseal : (((SegmentWriter.create stored ⟨1, 2, 3⟩).run stored (byteCalls 3)).1.sealFile
      stored ⟨1, 2, 4⟩).toOption.any (fun file => file.bytes.length = 400) = true := by
    decide +kernel
  obtain ⟨file, hfile, hlen⟩ := (Option.any_eq_true _ _).mp hseal
  have hlen : file.bytes.length = 400 := of_decide_eq_true hlen
  have hoffset : ((SegmentWriter.create stored ⟨1, 2, 3⟩).run stored (byteCalls 3)).1.offset =
      320 := by
    decide +kernel
  have hsafe : CrashSafe stored ⟨1, 2, 3⟩ ⟨1, 2, 4⟩
      ((SegmentWriter.create stored ⟨1, 2, 3⟩).run stored (byteCalls 3)).1
      ((SegmentWriter.create stored ⟨1, 2, 3⟩).blocksOf stored (byteCalls 3))
      file.bytes.length 200 := by
    refine ⟨fun b hb => ?_, fun _ => ?_, fun hlate => ?_⟩
    · have hmem := complete_subset hb
      rw [blocksOf_byteCalls stored _ (by decide) (by decide)] at hmem
      rcases List.mem_cons.mp hmem with rfl | hmem
      · trivial
      · obtain rfl := List.mem_singleton.mp hmem
        simp [Block.Exact, bytePage_rows, bytePage_payload]
    · rw [hlen, hoffset]
      decide
    · rw [hlen] at hlate
      omega
  refine ⟨file, ok_of_toOption hfile,
    (crash_recovery stored_lossless ?_ (fun b hb => (hsmall b hb).1)
    (fun b hb => (hsmall b hb).2) (ok_of_toOption hfile) (by decide)).mpr hsafe⟩
  rw [run_byteCalls stored _ (by decide) (by decide)]
  simp

/-- A crash after 64 of the 80 bytes of the footer: the scan takes them for a block
header and refuses the file. -/
theorem crash_in_footer_lost :
    (∀ ok ∈ ((SegmentWriter.create stored ⟨1, 2, 3⟩).run stored (byteCalls 3)).2, ok = true) ∧
      ∃ file, ((SegmentWriter.create stored ⟨1, 2, 3⟩).run stored (byteCalls 3)).1.sealFile stored
          ⟨1, 2, 4⟩ = .ok file ∧ segmentHeaderSize ≤ 384 ∧ 384 < file.bytes.length ∧
        ¬ Recovers stored ((SegmentWriter.create stored ⟨1, 2, 3⟩).blocksOf stored (byteCalls 3))
          (replay [] file.writes 384) 384 := by
  have hsmall := byteCalls_small stored ⟨1, 2, 3⟩ (n := 3) (by decide) (by decide)
  obtain ⟨h, file, hseal⟩ := seal_byteCalls stored ⟨1, 2, 3⟩ ⟨1, 2, 4⟩ (n := 3) (by decide)
    (by decide)
  have hlen : (((SegmentWriter.create stored ⟨1, 2, 3⟩).run stored (byteCalls 3)).1.sealFile
      stored ⟨1, 2, 4⟩).toOption.any (fun file => file.bytes.length = 400) = true := by
    decide +kernel
  rw [hseal] at hlen
  have hlen : file.bytes.length = 400 := of_decide_eq_true hlen
  have hblocks : (((SegmentWriter.create stored ⟨1, 2, 3⟩).blocksOf stored
      (byteCalls 3)).flatMap (Block.encode stored)).length = 256 := by
    decide +kernel
  have hfooter : (footerBytes stored
      ((SegmentWriter.create stored ⟨1, 2, 3⟩).run stored (byteCalls 3)).1.pages).length = 80 := by
    decide +kernel
  refine ⟨?_, file, hseal, by decide, by omega, fun hrecovers => ?_⟩
  · rw [run_byteCalls stored _ (by decide) (by decide)]
    simp
  · obtain ⟨tail, htake, hparse, hstop⟩ := crash_tail (fun b hb => (hsmall b hb).2)
      ((SegmentWriter.create stored ⟨1, 2, 3⟩).run stored (byteCalls 3)).1.pages
      (384 - segmentHeaderSize)
    have hshort : ((createHeader ⟨1, 2, 3⟩).encode stored ++ ((complete (Block.encode stored)
        ((SegmentWriter.create stored ⟨1, 2, 3⟩).blocksOf stored (byteCalls 3))
          (384 - segmentHeaderSize)).flatMap (Block.encode stored) ++ tail)).length < 2 ^ 64 := by
      rw [← htake, List.length_append, List.length_take, SegmentHeader.encode_length]
      simp only [segmentHeaderSize]
      omega
    rw [h.crash_image hseal (by decide), hlen, tornHeader_old (by decide), htake,
      recovers_scanned stored_lossless rfl (fun b hb => h.valid b (complete_subset hb))
      (fun b hb => (hsmall b (complete_subset hb)).1)
      (fun b hb => (hsmall b (complete_subset hb)).2) hshort hparse, hstop, hblocks, hfooter]
      at hrecovers
    simp only [segmentHeaderSize, blockHeaderSize] at hrecovers
    omega

end Probing.Memc
