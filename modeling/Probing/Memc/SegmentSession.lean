import Probing.Memc.SegmentScan

/-!
# What a writer has written

As long as every write takes all of its bytes or none, the file of a writer is
its header and the blocks of the calls that returned `Ok`, the offset is the end
of the file and the page directory describes the blocks.
-/

namespace Probing.Memc

open Probing.Core
open Probing.Memt (DType)

/-- The block a call adds if it returns `Ok`. -/
def Call.blocks (w : SegmentWriter) : Call → List Block
  | .registerTable name cols => [.table w.nextTableId name cols]
  | .appendPageFrom a =>
      if a.rowCount = 0 then []
      else [.page a (tsRange ((w.tables a.tableId).bind TableInfo.tsCol) a.columns)]

/-- The call passes its checks, and goes on to write unless it has no rows. -/
def Call.Checked (X : Crates) (w : SegmentWriter) : Call → Prop
  | .registerTable _ _ => True
  | .appendPageFrom a => ∃ info, w.tables a.tableId = some info ∧
      a.columns.length = info.cols.length ∧
      checkColumns a.rowCount a.columns info.cols = .ok () ∧
      (encodeColumns X a.columns).isOk

/-- The blocks of the calls that return `Ok`, in order. -/
def SegmentWriter.blocksOf (X : Crates) : SegmentWriter → List (Call × Option ℕ) → List Block
  | _, [] => []
  | w, (c, fault) :: rest =>
      (if (w.call X fault c).2 then c.blocks w else []) ++ blocksOf X (w.call X fault c).1 rest

/-- The contents of a file after the first `k` bytes of its writes. -/
def replay : Bytes → List (ℕ × Bytes) → ℕ → Bytes
  | bytes, [], _ => bytes
  | bytes, (pos, bs) :: writes, k =>
      if k < bs.length then splice bytes pos (bs.take k)
      else replay (splice bytes pos bs) writes (k - bs.length)

/-- The writes of a file have appended one after the other. -/
def File.Appended (f : File) : Prop :=
  f.cursor = f.bytes.length ∧ f.bytes.length ≤ maxFileSize ∧
    ∀ later k, replay [] (f.writes ++ later) k =
      if k < f.bytes.length then f.bytes.take k
      else replay f.bytes later (k - f.bytes.length)

/-- What the state of a writer says about the blocks in its file. -/
structure Holds (X : Crates) (stamp : Stamp) (w : SegmentWriter) (blocks : List Block) : Prop where
  bytes : w.file.bytes = (createHeader stamp).encode X ++ blocks.flatMap (Block.encode X)
  appended : w.file.Appended
  offset : w.offset = w.file.bytes.length
  pages : w.pages = pagesOf X segmentHeaderSize blocks
  valid : ∀ b ∈ blocks, b.Valid X

variable {X : Crates} {stamp : Stamp} {w : SegmentWriter} {blocks : List Block}

theorem File.taken_length_le (f : File) (bs : Bytes) (fault : Option ℕ) :
    (f.taken bs fault).length ≤ maxFileSize - f.cursor := by
  rw [taken, List.length_take]
  omega

/-- A write at the end of the file appends what the device takes. -/
theorem File.writeAll_appended {f : File} (h : f.Appended) (bs : Bytes) (fault : Option ℕ) :
    (f.writeAll bs fault).1.bytes = f.bytes ++ f.taken bs fault ∧
      (f.writeAll bs fault).1.Appended := by
  obtain ⟨hcursor, hmax, hreplay⟩ := h
  have hbytes : (f.writeAll bs fault).1.bytes = f.bytes ++ f.taken bs fault := by
    rw [writeAll, hcursor]
    exact splice_end _ _
  have htaken := f.taken_length_le bs fault
  refine ⟨hbytes, ?_, ?_, fun later k => ?_⟩
  · rw [hbytes, List.length_append, ← hcursor]
    rfl
  · rw [hbytes, List.length_append]
    omega
  · rw [hbytes, List.length_append, writeAll, List.append_assoc, hreplay]
    by_cases hk : k < f.bytes.length
    · rw [if_pos hk, if_pos (by omega), List.take_append_of_le_length hk.le]
    · rw [if_neg hk, List.singleton_append, replay, hcursor]
      by_cases hk' : k - f.bytes.length < (f.taken bs fault).length
      · rw [if_pos hk', if_pos (by omega), splice_end, List.take_append,
          List.take_of_length_le (Nat.le_of_not_lt hk)]
      · rw [if_neg hk', if_neg (by omega), splice_end, Nat.sub_sub]

theorem create_holds (X : Crates) (stamp : Stamp) : Holds X stamp (.create X stamp) [] := by
  have hempty : (⟨[], 0, []⟩ : File).Appended := by
    refine ⟨rfl, by simp [maxFileSize], fun later k => ?_⟩
    simp
  have hall : (⟨[], 0, []⟩ : File).taken ((createHeader stamp).encode X) none =
      (createHeader stamp).encode X := by
    apply List.take_of_length_le
    simp [segmentHeaderSize, maxFileSize]
  obtain ⟨hbytes, happended⟩ :=
    File.writeAll_appended hempty ((createHeader stamp).encode X) none
  rw [hall, List.nil_append] at hbytes
  refine ⟨?_, happended, ?_, rfl, by simp⟩
  · rw [List.flatMap_nil, List.append_nil]
    exact hbytes
  · refine Eq.trans ?_ (congrArg List.length hbytes).symm
    rfl

/-- The device takes nothing of a block, or all of it. -/
def NoPart (X : Crates) (w : SegmentWriter) (fault : Option ℕ) (b : Block) : Prop :=
  w.file.taken (b.encode X) fault = [] ∨ w.file.taken (b.encode X) fault = b.encode X

/-- A block is written whole at the end of the file, or the write fails and has
left the file as it was if the device took nothing. -/
theorem Holds.writeBlock (h : Holds X stamp w blocks) (b : Block) (fault : Option ℕ) :
    (∃ file, w.writeBlock X (b.header X) (b.payload X) fault =
        ({ w with file }, .error .os) ∧
        (NoPart X w fault b → Holds X stamp { w with file } blocks)) ∨
      ∃ file, w.writeBlock X (b.header X) (b.payload X) fault =
        ({ w with file, offset := w.offset + (b.encode X).length }, .ok (b.encode X).length) ∧
        file.bytes = w.file.bytes ++ b.encode X ∧ file.Appended := by
  obtain ⟨hbytes, happended⟩ := File.writeAll_appended h.appended (b.encode X) fault
  have hblock : blockBytes X (b.header X) (b.payload X) = b.encode X := rfl
  simp only [SegmentWriter.writeBlock, hblock, ← b.encode_length]
  by_cases hall : w.file.taken (b.encode X) fault = b.encode X
  · have hflag : (w.file.writeAll (b.encode X) fault).2 = true := by simp [File.writeAll, hall]
    rw [hall] at hbytes
    rw [hflag]
    exact .inr ⟨_, rfl, hbytes, happended⟩
  · have hflag : (w.file.writeAll (b.encode X) fault).2 = false := by simp [File.writeAll, hall]
    rw [hflag]
    refine .inl ⟨_, rfl, fun hfault => ?_⟩
    have hsame : (w.file.writeAll (b.encode X) fault).1.bytes = w.file.bytes := by
      rw [hbytes, hfault.resolve_right hall, List.append_nil]
    refine ⟨hsame.trans h.bytes, happended, ?_, h.pages, h.valid⟩
    exact h.offset.trans (congrArg List.length hsame).symm

/-- A block written whole, with its directory entry. -/
theorem Holds.add (h : Holds X stamp w blocks) {b : Block} (hvalid : b.Valid X) {t : SegmentWriter}
    (hbytes : t.file.bytes = w.file.bytes ++ b.encode X) (happended : t.file.Appended)
    (hoffset : t.offset = w.offset + (b.encode X).length)
    (hpages : t.pages = w.pages ++ b.metas X w.offset) : Holds X stamp t (blocks ++ [b]) where
  bytes := by
    rw [hbytes, h.bytes, List.flatMap_append, List.append_assoc]
    simp
  appended := happended
  offset := by
    rw [hoffset, h.offset, hbytes, List.length_append]
  pages := by
    have hoff : w.offset = segmentHeaderSize + (blocks.flatMap (Block.encode X)).length := by
      rw [h.offset, h.bytes, List.length_append, SegmentHeader.encode_length]
    rw [hpages, h.pages, pagesOf_append, hoff]
  valid := by
    intro x hx
    rcases List.mem_append.mp hx with hold | hnew
    · exact h.valid x hold
    · rw [List.mem_singleton.mp hnew]
      exact hvalid

theorem len_of_checkColumns {rowCount : ℕ} {columns : List ColumnData}
    {cols : List (String × DType)} {u : Unit} (hlen : columns.length = cols.length)
    (h : checkColumns rowCount columns cols = .ok u) : ∀ col ∈ columns, col.len = rowCount := by
  induction columns generalizing cols with
  | nil => simp
  | cons col columns ih =>
      cases cols with
      | nil => simp at hlen
      | cons c cols =>
          simp only [checkColumns] at h
          split_ifs at h with hdtype hcount
          intro x hx
          rcases List.mem_cons.mp hx with rfl | hx
          · exact not_not.mp hcount
          · exact ih (by simpa using hlen) h x hx

/-- A call that has not failed in the middle of a block has left the blocks as they
were or, if it returned `Ok`, added some. -/
def Leaves (X : Crates) (stamp : Stamp) (blocks added : List Block) (intact : Prop) {α : Type}
    (r : SegmentWriter × Except WriteError α) : Prop :=
  (r.2.isOk = false → intact) → Holds X stamp r.1 (blocks ++ if r.2.isOk then added else [])

theorem leaves_error {added : List Block} {intact : Prop} (h : intact → Holds X stamp w blocks)
    {α : Type} (e : WriteError) :
    Leaves X stamp blocks added intact (w, (.error e : Except WriteError α)) := by
  intro hintact
  simpa [Except.isOk, Except.toBool] using h (hintact rfl)

theorem Holds.registerTable (h : Holds X stamp w blocks) (name : String)
    (cols : List (String × DType)) (fault : Option ℕ) :
    Leaves X stamp blocks [.table w.nextTableId name cols]
      (∀ b ∈ [Block.table w.nextTableId name cols], NoPart X w fault b)
      (w.registerTable X name cols fault) := by
  have hw : Holds X stamp { w with nextTableId := w.nextTableId + 1 } blocks :=
    ⟨h.bytes, h.appended, h.offset, h.pages, h.valid⟩
  simp only [SegmentWriter.registerTable]
  rcases hw.writeBlock (.table w.nextTableId name cols) fault with
    ⟨file, hwrite, hholds⟩ | ⟨file, hwrite, hbytes, happended⟩
  · simp only [Block.header, Block.payload] at hwrite
    rw [hwrite]
    exact leaves_error (fun hintact => hholds (hintact _ (by simp))) _
  · simp only [Block.header, Block.payload] at hwrite
    rw [hwrite]
    intro _
    exact hw.add (b := .table w.nextTableId name cols) trivial hbytes happended rfl
      (by simp [Block.metas])

theorem Holds.appendPageFrom (h : Holds X stamp w blocks) (a : Append) (fault : Option ℕ) :
    Leaves X stamp blocks (Call.blocks w (.appendPageFrom a))
      (Call.Checked X w (.appendPageFrom a) →
        ∀ b ∈ Call.blocks w (.appendPageFrom a), NoPart X w fault b)
      (w.appendPageFrom X a fault) := by
  unfold SegmentWriter.appendPageFrom
  cases hinfo : w.tables a.tableId with
  | none => exact leaves_error (fun _ => h) _
  | some info =>
      dsimp only
      by_cases hcount : a.columns.length ≠ info.cols.length
      · rw [if_pos hcount]
        exact leaves_error (fun _ => h) _
      · rw [if_neg hcount]
        cases hcheck : checkColumns a.rowCount a.columns info.cols with
        | error e => exact leaves_error (fun _ => h) e
        | ok u =>
            dsimp only
            by_cases hrows : a.rowCount = 0
            · rw [if_pos hrows]
              intro _
              simpa [Call.blocks, hrows] using h
            · rw [if_neg hrows]
              cases hpayload : encodeColumns X a.columns with
              | error e => exact leaves_error (fun _ => h) _
              | ok payload =>
                  have ha : a.payload X = payload := by rw [Append.payload, hpayload]
                  have hblocks : Call.blocks w (.appendPageFrom a) =
                      [.page a (tsRange info.tsCol a.columns)] := by
                    simp [Call.blocks, hrows, hinfo]
                  have hchecked : Call.Checked X w (.appendPageFrom a) :=
                    ⟨info, hinfo, not_not.mp hcount, hcheck, by rw [hpayload]; rfl⟩
                  have hvalid : (Block.page a (tsRange info.tsCol a.columns)).Valid X :=
                    ⟨hrows, len_of_checkColumns (not_not.mp hcount) hcheck, by rw [ha, hpayload]⟩
                  rw [hblocks]
                  rcases h.writeBlock (.page a (tsRange info.tsCol a.columns)) fault with
                    ⟨file, hwrite, hholds⟩ | ⟨file, hwrite, hbytes, happended⟩
                  · simp only [Block.header, Block.payload, ha] at hwrite
                    simp only [hwrite]
                    exact leaves_error (fun hintact => hholds (hintact hchecked _ (by simp))) _
                  · simp only [Block.header, Block.payload, ha] at hwrite
                    simp only [hwrite]
                    intro _
                    refine h.add hvalid hbytes happended rfl ?_
                    rw [Block.metas_page]

/-- If the call fails in its write, this has not left a part of a block in the file. -/
def Unbroken (X : Crates) (w : SegmentWriter) (c : Call) (fault : Option ℕ) : Prop :=
  (w.call X fault c).2 = false → c.Checked X w → ∀ b ∈ c.blocks w, NoPart X w fault b

theorem Holds.call (h : Holds X stamp w blocks) (c : Call) {fault : Option ℕ}
    (hfault : Unbroken X w c fault) : Holds X stamp (w.call X fault c).1
      (blocks ++ if (w.call X fault c).2 then c.blocks w else []) := by
  cases c with
  | registerTable name cols =>
      exact h.registerTable name cols fault fun hfail => hfault hfail trivial
  | appendPageFrom a => exact h.appendPageFrom a fault hfault

/-- No failing call of a sequence leaves a part of a block in the file. -/
def UnbrokenRun (X : Crates) : SegmentWriter → List (Call × Option ℕ) → Prop
  | _, [] => True
  | w, (c, fault) :: rest => Unbroken X w c fault ∧ UnbrokenRun X (w.call X fault c).1 rest

/-- Calls that all return `Ok`. -/
theorem unbrokenRun_of_ok {calls : List (Call × Option ℕ)}
    (h : ∀ ok ∈ (w.run X calls).2, ok = true) : UnbrokenRun X w calls := by
  induction calls generalizing w with
  | nil => trivial
  | cons call rest ih =>
      obtain ⟨c, fault⟩ := call
      have hall : ∀ ok ∈ (w.call X fault c).2 :: ((w.call X fault c).1.run X rest).2, ok = true := h
      have hok := hall _ (List.mem_cons_self ..)
      refine ⟨fun hfail => ?_, ih fun ok hmem => hall ok (List.mem_cons_of_mem _ hmem)⟩
      rw [hok] at hfail
      cases hfail

theorem Holds.run (h : Holds X stamp w blocks) {calls : List (Call × Option ℕ)}
    (hfault : UnbrokenRun X w calls) :
    Holds X stamp (w.run X calls).1 (blocks ++ w.blocksOf X calls) := by
  induction calls generalizing w blocks with
  | nil => simpa [SegmentWriter.run, SegmentWriter.blocksOf] using h
  | cons call rest ih =>
      obtain ⟨c, fault⟩ := call
      have hrest := ih (h.call c hfault.1) hfault.2
      rw [List.append_assoc] at hrest
      exact hrest

/-- A write that succeeds has taken all of its bytes. -/
theorem File.writeAll_ok {f file : File} {bs : Bytes} (h : f.writeAll bs none = (file, true)) :
    f.taken bs none = bs ∧ file.bytes = splice f.bytes f.cursor bs ∧
      file.writes = f.writes ++ [(f.cursor, bs)] := by
  have htaken : f.taken bs none = bs := of_decide_eq_true (congrArg Prod.snd h)
  have hfile : (f.writeAll bs none).1 = file := congrArg Prod.fst h
  rw [writeAll, htaken] at hfile
  refine ⟨htaken, ?_, ?_⟩
  · rw [← hfile]
  · rw [← hfile]

/-- The footer at the end of the file, written whole. -/
theorem Holds.write_footer (h : Holds X stamp w blocks) {file : File}
    (hok : w.file.writeAll (footerBytes X w.pages) none = (file, true)) :
    file.bytes = (createHeader stamp).encode X ++
        (blocks.flatMap (Block.encode X) ++ footerBytes X w.pages) ∧ file.Appended := by
  obtain ⟨hbytes, happended⟩ := File.writeAll_appended h.appended (footerBytes X w.pages) none
  rw [hok, (File.writeAll_ok hok).1] at hbytes
  rw [hok] at happended
  rw [h.bytes, List.append_assoc] at hbytes
  exact ⟨hbytes, happended⟩

/-- A seal that succeeds has written the footer and then the new header. -/
theorem sealFile_eq {seal_stamp : Stamp} {file : File}
    (hseal : w.sealFile X seal_stamp = .ok file) :
    ∃ unsealed, w.file.writeAll (footerBytes X w.pages) none = (unsealed, true) ∧
      ({ unsealed with cursor := 0 } : File).writeAll
        ((w.sealHeader seal_stamp).encode X) none = (file, true) := by
  unfold SegmentWriter.sealFile at hseal
  split at hseal
  · cases hseal
  · rename_i unsealed hfooter
    split at hseal
    · cases hseal
    · rename_i sealed hheader
      obtain rfl := Except.ok.inj hseal
      exact ⟨unsealed, hfooter, hheader⟩

/-- The sealed file is the new header, the blocks and the footer. After `k` bytes
of its writes the file has the first `k` bytes of the old header, the blocks and
the footer, and over them what is written of the new header by then. -/
theorem Holds.sealFile (h : Holds X stamp w blocks) {seal_stamp : Stamp} {file : File}
    (hseal : w.sealFile X seal_stamp = .ok file) :
    file.bytes = (w.sealHeader seal_stamp).encode X ++
        (blocks.flatMap (Block.encode X) ++ footerBytes X w.pages) ∧
      file.bytes.length ≤ maxFileSize ∧
      ∀ k, replay [] file.writes k =
        splice (((createHeader stamp).encode X ++ (blocks.flatMap (Block.encode X) ++
            footerBytes X w.pages)).take k) 0
          (((w.sealHeader seal_stamp).encode X).take (k - file.bytes.length)) := by
  obtain ⟨unsealed, hfooter, hheader⟩ := sealFile_eq hseal
  obtain ⟨hbytes, -, hmax, hreplay⟩ := h.write_footer hfooter
  obtain ⟨-, hfile, hwrites⟩ := File.writeAll_ok hheader
  have hlengths : ((w.sealHeader seal_stamp).encode X).length =
      ((createHeader stamp).encode X).length := by
    rw [SegmentHeader.encode_length, SegmentHeader.encode_length]
  generalize (w.sealHeader seal_stamp).encode X = new at *
  have hsplice : splice unsealed.bytes 0 new =
      new ++ (blocks.flatMap (Block.encode X) ++ footerBytes X w.pages) := by
    rw [hbytes]
    exact splice_zero_append hlengths
  have hlen : file.bytes.length = unsealed.bytes.length := by
    rw [hfile, hsplice, hbytes]
    simp only [List.length_append, hlengths]
  refine ⟨hfile.trans hsplice, hlen ▸ hmax, fun k => ?_⟩
  rw [hlen, hwrites, hreplay, ← hbytes]
  by_cases hk : k < unsealed.bytes.length
  · rw [if_pos hk, Nat.sub_eq_zero_of_le hk.le]
    simp [splice]
  · rw [if_neg hk, replay, List.take_of_length_le (Nat.le_of_not_lt hk)]
    by_cases hk' : k - unsealed.bytes.length < new.length
    · rw [if_pos hk']
    · rw [if_neg hk', replay, List.take_of_length_le (Nat.le_of_not_lt hk')]

end Probing.Memc
