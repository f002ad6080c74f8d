import Probing.Memc.SegmentRoundTrip

/-!
# Table definitions, registered and read back

`register_table` narrows the length of the table name, the number of columns and the length of
every column name to 16 bits and refuses nothing. What it has written decodes to the definition
exactly if these numbers fit.
-/

namespace Probing.Memc

open Probing.Core
open Probing.Memt (DType)

variable {X : Crates} {w : SegmentWriter} {name : String} {cols : List (String × DType)}
  {fault : Option ℕ}

/-- The block `register_table` writes. -/
def definitionBlock (X : Crates) (w : SegmentWriter) (name : String)
    (cols : List (String × DType)) : Bytes :=
  let payload := encodeTablePayload name cols
  blockBytes X (tableHeader X w.nextTableId cols payload) payload

/-- Nothing that a reader of the segment or a later call sees has changed. -/
structure SegmentUnchanged (before after : SegmentWriter) : Prop where
  bytes : after.file.bytes = before.file.bytes
  cursor : after.file.cursor = before.file.cursor
  offset : after.offset = before.offset
  tables : after.tables = before.tables
  pages : after.pages = before.pages

/-- An error leaves the segment as it was, and the payload of a registered table decodes to its
definition. -/
def Registers (X : Crates) (w : SegmentWriter) (name : String) (cols : List (String × DType))
    (fault : Option ℕ) : Prop :=
  match w.registerTable X name cols fault with
  | (after, .error _) => SegmentUnchanged w after
  | (after, .ok id) =>
      decodeTablePayload id (slice after.file.bytes (w.file.cursor + blockHeaderSize)
        (encodeTablePayload name cols).length) = .ok ⟨id, name, cols, tsCol cols⟩

/-- A payload decodes to its definition exactly if the definition fits. -/
theorem decodeTablePayload_iff (id : UInt32) :
    decodeTablePayload id (encodeTablePayload name cols) = .ok ⟨id, name, cols, tsCol cols⟩ ↔
      TableFits name cols :=
  ⟨fun h => decodeTablePayload_fits h, decodeTablePayload_encode id⟩

/-- All of the block is written and the table is known, or the call fails with what the device
took. -/
theorem registerTable_cases (X : Crates) (w : SegmentWriter) (name : String)
    (cols : List (String × DType)) (fault : Option ℕ) :
    (w.file.taken (definitionBlock X w name cols) fault = definitionBlock X w name cols ∧
      (w.registerTable X name cols fault).2 = .ok w.nextTableId ∧
      (w.registerTable X name cols fault).1.file =
        (w.file.writeAll (definitionBlock X w name cols) fault).1) ∨
    (w.file.taken (definitionBlock X w name cols) fault ≠ definitionBlock X w name cols ∧
      w.registerTable X name cols fault =
        ({ w with
            nextTableId := w.nextTableId + 1
            file := (w.file.writeAll (definitionBlock X w name cols) fault).1 }, .error .os)) := by
  by_cases htaken : w.file.taken (definitionBlock X w name cols) fault =
      definitionBlock X w name cols
  · have hwritten : (w.file.writeAll (definitionBlock X w name cols) fault).2 = true :=
      decide_eq_true htaken
    refine .inl ⟨htaken, ?_, ?_⟩
    · simp only [SegmentWriter.registerTable, SegmentWriter.writeBlock]
      simp only [definitionBlock] at hwritten
      rw [if_pos hwritten]
    · simp only [SegmentWriter.registerTable, SegmentWriter.writeBlock, definitionBlock]
      simp only [definitionBlock] at hwritten
      rw [if_pos hwritten]
  · have hwritten : ¬ (w.file.writeAll (definitionBlock X w name cols) fault).2 = true :=
      fun h => htaken (of_decide_eq_true h)
    refine .inr ⟨htaken, ?_⟩
    simp only [SegmentWriter.registerTable, SegmentWriter.writeBlock, definitionBlock]
    simp only [definitionBlock] at hwritten
    rw [if_neg hwritten]

/-- The payload of a block that was written at the cursor is read back. -/
theorem slice_written (hcursor : w.file.cursor ≤ w.file.bytes.length)
    (htaken : w.file.taken (definitionBlock X w name cols) fault =
      definitionBlock X w name cols) :
    slice (w.file.writeAll (definitionBlock X w name cols) fault).1.bytes
      (w.file.cursor + blockHeaderSize) (encodeTablePayload name cols).length =
        encodeTablePayload name cols := by
  have hbytes : (w.file.writeAll (definitionBlock X w name cols) fault).1.bytes =
      w.file.bytes.take w.file.cursor ++ (definitionBlock X w name cols ++
        w.file.bytes.drop (w.file.cursor + (definitionBlock X w name cols).length)) := by
    simp only [File.writeAll, htaken, splice, List.append_assoc]
  have hlen : (w.file.bytes.take w.file.cursor).length = w.file.cursor := by simpa using hcursor
  rw [hbytes, slice_append_right (by omega), hlen, Nat.add_sub_cancel_left]
  exact slice_block_payload _

/-- A write that the device takes nothing of leaves the file. -/
theorem written_unchanged (bs : Bytes) :
    ((w.file.writeAll bs fault).1.bytes = w.file.bytes ∧
      (w.file.writeAll bs fault).1.cursor = w.file.cursor) ↔ w.file.taken bs fault = [] := by
  simp only [File.writeAll]
  constructor
  · rintro ⟨-, hsame⟩
    exact List.length_eq_zero_iff.mp (by omega)
  · intro hnone
    rw [hnone, splice_nil]
    exact ⟨rfl, rfl⟩

theorem registers_iff (hcursor : w.file.cursor ≤ w.file.bytes.length) :
    Registers X w name cols fault ↔
      if w.file.taken (definitionBlock X w name cols) fault = definitionBlock X w name cols then
        TableFits name cols
      else w.file.taken (definitionBlock X w name cols) fault = [] := by
  unfold Registers
  rcases registerTable_cases X w name cols fault with
    ⟨htaken, hresult, hfile⟩ | ⟨htaken, hresult⟩
  · rw [if_pos htaken]
    rcases hcall : w.registerTable X name cols fault with ⟨after, result⟩
    rw [hcall] at hresult hfile
    obtain rfl : result = .ok w.nextTableId := hresult
    have hafter : after.file = (w.file.writeAll (definitionBlock X w name cols) fault).1 := hfile
    simp only [hafter]
    rw [slice_written hcursor htaken, decodeTablePayload_iff]
  · rw [if_neg htaken, hresult, ← written_unchanged]
    exact ⟨fun h => ⟨h.bytes, h.cursor⟩, fun h => ⟨h.1, h.2, rfl, rfl, rfl⟩⟩

section Reachable

/-- Writes go to the end of the file. -/
theorem writeAll_at_end {f : File} (h : f.cursor = f.bytes.length) (bs : Bytes)
    (fault : Option ℕ) :
    (f.writeAll bs fault).1.cursor = (f.writeAll bs fault).1.bytes.length := by
  simp only [File.writeAll, h, splice_end, List.length_append]

theorem writeBlock_at_end (X : Crates) (fault : Option ℕ)
    (h : w.file.cursor = w.file.bytes.length) (header : BlockHeader)
    (payload : Bytes) : (w.writeBlock X header payload fault).1.file.cursor =
      (w.writeBlock X header payload fault).1.file.bytes.length := by
  simp only [SegmentWriter.writeBlock]
  split <;> exact writeAll_at_end h _ fault

theorem call_at_end (h : w.file.cursor = w.file.bytes.length) (c : Call) :
    (w.call X fault c).1.file.cursor = (w.call X fault c).1.file.bytes.length := by
  cases c with
  | registerTable name cols =>
      have hfile : (w.registerTable X name cols fault).1.file =
          (w.file.writeAll (definitionBlock X w name cols) fault).1 := by
        rcases registerTable_cases X w name cols fault with ⟨-, -, hfile⟩ | ⟨-, hresult⟩
        · exact hfile
        · rw [hresult]
      simp only [SegmentWriter.call, hfile]
      exact writeAll_at_end h _ fault
  | appendPageFrom a =>
      simp only [SegmentWriter.call, SegmentWriter.appendPageFrom]
      cases w.tables a.tableId with
      | none => exact h
      | some info =>
          dsimp only
          by_cases hcount : a.columns.length ≠ info.cols.length
          · rw [if_pos hcount]
            exact h
          rw [if_neg hcount]
          cases checkColumns a.rowCount a.columns info.cols with
          | error e => exact h
          | ok =>
              dsimp only
              by_cases hrows : a.rowCount = 0
              · rw [if_pos hrows]
                exact h
              rw [if_neg hrows]
              cases encodeColumns X a.columns with
              | error e => exact h
              | ok payload =>
                  dsimp only
                  have hblock := writeBlock_at_end X fault h
                    (pageHeader X a (tsRange info.tsCol a.columns) payload) payload
                  rcases hwrite : w.writeBlock X
                    (pageHeader X a (tsRange info.tsCol a.columns) payload) payload fault with
                    ⟨t, result⟩
                  rw [hwrite] at hblock
                  cases result with
                  | error e => exact hblock
                  | ok blockLen => exact hblock

/-- The cursor of a writer is always at the end of its file. -/
theorem run_at_end (calls : List (Call × Option ℕ)) (h : w.file.cursor = w.file.bytes.length) :
    (w.run X calls).1.file.cursor = (w.run X calls).1.file.bytes.length := by
  induction calls generalizing w with
  | nil => exact h
  | cons c calls ih => exact ih (call_at_end h c.1)

end Reachable

/-- After any calls and faults, registering a table keeps what the claim promises exactly if the
definition fits its 16-bit fields or, on a failing write, the device takes nothing of the block. -/
theorem register_table_round_trip_iff (X : Crates) (stamp : Stamp) (calls : List (Call × Option ℕ))
    (name : String) (cols : List (String × DType)) (fault : Option ℕ) :
    let w := ((SegmentWriter.create X stamp).run X calls).1
    Registers X w name cols fault ↔
      if w.file.taken (definitionBlock X w name cols) fault = definitionBlock X w name cols then
        TableFits name cols
      else w.file.taken (definitionBlock X w name cols) fault = [] := by
  intro w
  refine registers_iff (Nat.le_of_eq (run_at_end calls ?_))
  exact (create_holds X stamp).appended.1

/-- 65536 columns of bytes. -/
def manyCols : List (String × DType) := List.replicate (2 ^ 16) ("", .U8)

/-- A table with 65536 columns is registered and decodes to a table without columns. -/
theorem many_cols_lost :
    ((SegmentWriter.create stored ⟨1, 2, 3⟩).registerTable stored "t" manyCols none).2 = .ok 1 ∧
      ¬ Registers stored (.create stored ⟨1, 2, 3⟩) "t" manyCols none ∧
      decodeTablePayload 1 (encodeTablePayload "t" manyCols) = .ok ⟨1, "t", [], none⟩ := by
  have hname : (utf8 "t").length = 1 := by decide
  have hcount : manyCols.length = 2 ^ 16 := List.length_replicate
  have hcol : (encodeCol ("", .U8)).length = 4 := by decide
  have hpayload : (encodeTablePayload "t" manyCols).length = 5 + 2 ^ 16 * 4 := by
    simp only [encodeTablePayload, List.length_append, le_length_u16, hname,
      List.length_flatMap, manyCols, List.map_replicate, hcol, List.sum_replicate_nat]
    omega
  have hstart := (create_holds stored ⟨1, 2, 3⟩).appended.1
  have htaken : (SegmentWriter.create stored ⟨1, 2, 3⟩).file.taken
      (definitionBlock stored (.create stored ⟨1, 2, 3⟩) "t" manyCols) none =
        definitionBlock stored (.create stored ⟨1, 2, 3⟩) "t" manyCols := by
    apply File.taken_all
    have hcursor : (SegmentWriter.create stored ⟨1, 2, 3⟩).file.cursor = 64 := by decide
    have halign := align64_lt (blockHeaderSize + (encodeTablePayload "t" manyCols).length)
    simp only [definitionBlock, blockBytes_length, hcursor]
    rw [hpayload] at halign ⊢
    simp only [blockHeaderSize, maxFileSize] at halign ⊢
    omega
  refine ⟨?_, ?_, ?_⟩
  · rcases registerTable_cases stored (.create stored ⟨1, 2, 3⟩) "t" manyCols none with
      ⟨-, hresult, -⟩ | ⟨hnot, -⟩
    · exact hresult
    · exact absurd htaken hnot
  · rw [registers_iff (Nat.le_of_eq hstart), if_pos htaken]
    rintro ⟨-, hfits, -⟩
    omega
  · have hlen : (getLe UInt16 (encodeTablePayload "t" manyCols) 0).toNat = 1 := by
      rw [encodeTablePayload, getLe_le_append, hname]
      rfl
    have hcols : (getLe UInt16 (encodeTablePayload "t" manyCols) 2).toNat = 0 := by
      simp [encodeTablePayload, getLe_append_right, LeWord.width, hcount]
    have hslice : slice (encodeTablePayload "t" manyCols) 4 1 = utf8 "t" := by
      simp [encodeTablePayload, slice_append_right, LeWord.width, slice_zero_append hname]
    simp only [decodeTablePayload, hlen, hcols, hslice, fromUtf8_utf8, hpayload]
    rw [if_neg (by omega), if_neg (by omega)]
    rfl

end Probing.Memc
