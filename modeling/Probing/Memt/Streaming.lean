import Mathlib.Data.List.Induction
import Probing.Memt.Remembered

/-!
# Streamed rows

A row writer stores the fields of its row one after the other past the published bytes.
When it is finished the row is the one that a batch write of the same values stores.
-/

namespace Probing.Memt

open Probing.Core

namespace RowWriter

variable (key : HashKey) (w : RowWriter) (v : Value)

/-- Where the text of the next column is stored already. -/
def hit : Option ℕ :=
  if w.overflow then none
  else v.varlen.bind fun data => w.dedup.bind fun dedup =>
    dedup.lookup key w.colIdx data w.table.current.payload

/-- The timestamp to publish after the next column. -/
def noted : Option Int64 :=
  match v with
  | .I64 ts => if w.table.tsCol.toNat = w.colIdx + 1 then some ts else w.pendingTs
  | _ => w.pendingTs

/-- What is remembered after the next column has been written. -/
def staged : Option DedupState :=
  match v.varlen, w.hit key v with
  | some data, none => w.dedup.map fun dedup => dedup.stageInsert key w.colIdx data w.pos
  | _, _ => w.dedup

@[simp] theorem writeRaw_dedup (bytes : Bytes) : (w.writeRaw bytes).dedup = w.dedup := by
  unfold writeRaw
  split_ifs <;> rfl

@[simp] theorem writeRaw_colIdx (bytes : Bytes) : (w.writeRaw bytes).colIdx = w.colIdx := by
  unfold writeRaw
  split_ifs <;> rfl

@[simp] theorem writeRaw_pendingTs (bytes : Bytes) :
    (w.writeRaw bytes).pendingTs = w.pendingTs := by
  unfold writeRaw
  split_ifs <;> rfl

/-- The timestamp does not matter for what is written. -/
theorem writeRaw_noted (ts : Option Int64) (bytes : Bytes) :
    ({ w with pendingTs := ts } : RowWriter).writeRaw bytes =
      { w.writeRaw bytes with pendingTs := ts } := by
  unfold writeRaw
  change (if w.canWrite bytes.length then _ else _) = _
  split_ifs <;> rfl

/-- The step that writes a column, without its timestamp and position. -/
def written : RowWriter :=
  match v.varlen with
  | some data => if w.dedup.isSome then w.writeStrDedup key data else w.writeLp data
  | none => w.writeRaw v.encode

variable {key w v}

theorem hit_of_varlen_none (hv : v.varlen = none) : w.hit key v = none := by
  unfold hit
  rw [hv, Option.bind_none, ite_self]

theorem hit_of_plain (hplain : w.dedup = none) : w.hit key v = none := by
  unfold hit
  rw [hplain]
  cases v.varlen <;> simp

theorem staged_of_varlen_none (hv : v.varlen = none) : w.staged key v = w.dedup := by
  unfold staged
  rw [hv]

theorem staged_of_plain (hplain : w.dedup = none) : w.staged key v = w.dedup := by
  unfold staged
  rw [hit_of_plain hplain, hplain]
  cases v.varlen <;> rfl

/-- A column that changes nothing that is remembered. -/
theorem writeRaw_staged (hstaged : w.staged key v = w.dedup) (bytes : Bytes) :
    (if (w.writeRaw bytes).overflow then w.writeRaw bytes
      else { w.writeRaw bytes with dedup := w.staged key v }) = w.writeRaw bytes := by
  rw [hstaged, ← w.writeRaw_dedup bytes, ite_self]

/-- Every column writes its field, and stages it if it has been stored. -/
theorem written_eq {bytes : Bytes} (hbytes : field v (w.hit key v) = bytes) : written key w v =
    if (w.writeRaw bytes).overflow then w.writeRaw bytes
    else { w.writeRaw bytes with dedup := w.staged key v } := by
  unfold written
  cases hv : v.varlen with
  | none =>
      rw [hit_of_varlen_none hv] at hbytes
      subst hbytes
      exact (writeRaw_staged (staged_of_varlen_none hv) _).symm
  | some data =>
      cases hdedup : w.dedup with
      | none =>
          rw [hit_of_plain hdedup] at hbytes
          subst hbytes
          rw [writeRaw_staged (staged_of_plain hdedup)]
          exact congrArg w.writeRaw (encode_eq hv).symm
      | some state =>
          have hhit : w.hit key v = if w.overflow then none else
              w.dedup.bind fun dedup => dedup.lookup key w.colIdx data w.table.current.payload := by
            unfold hit
            rw [hv, Option.bind_some]
          dsimp only [Option.isSome_some, if_true]
          unfold writeStrDedup staged
          rw [← hhit, hv]
          cases hsome : w.hit key v with
          | some off =>
              rw [hsome] at hbytes
              subst hbytes
              dsimp only
              rw [← w.writeRaw_dedup (field v (some off)), ite_self]
              rfl
          | none =>
              rw [hsome] at hbytes
              have hlp : w.writeLp data = w.writeRaw bytes := by
                rw [← hbytes]
                exact congrArg w.writeRaw (encode_eq hv).symm
              dsimp only
              rw [hlp, writeRaw_dedup, writeRaw_colIdx]
              exact if_pos rfl

theorem canWrite_overflow {n : ℕ} (h : w.canWrite n = true) : w.overflow = false := by
  simp only [canWrite, Bool.and_eq_true, Bool.not_eq_true'] at h
  exact h.1

theorem canWrite_le {n : ℕ} (h : w.canWrite n = true) : w.pos + n ≤ w.table.chunkSize := by
  simp only [canWrite, Bool.and_eq_true, decide_eq_true_eq] at h
  exact h.2

theorem written_colIdx : (written key w v).colIdx = w.colIdx := by
  rw [written_eq rfl]
  split_ifs <;> simp

theorem written_pendingTs : (written key w v).pendingTs = w.pendingTs := by
  rw [written_eq rfl]
  split_ifs <;> simp

/-- Every `put` writes its column and takes down its timestamp. -/
theorem put_eq_written : w.put key v =
    { written key w v with colIdx := w.colIdx + 1, pendingTs := w.noted v } := by
  have hplain (hnoted : w.noted v = w.pendingTs) : { written key w v with
      colIdx := (written key w v).colIdx + 1 } =
      { written key w v with colIdx := w.colIdx + 1, pendingTs := w.noted v } := by
    have hpending : w.pendingTs = (written key w v).pendingTs := written_pendingTs.symm
    rw [hnoted, hpending, written_colIdx]
  cases v with
  | I64 ts =>
      by_cases hts : w.table.tsCol.toNat = w.colIdx + 1
      · have hnoted : w.noted (.I64 ts) = some ts := if_pos hts
        unfold put
        dsimp only [Value.varlen]
        rw [if_pos hts, hnoted, writeRaw_noted]
        dsimp only
        rw [writeRaw_colIdx]
        rfl
      · have hnoted : w.noted (.I64 ts) = w.pendingTs := if_neg hts
        unfold put
        dsimp only [Value.varlen]
        rw [if_neg hts]
        exact hplain hnoted
  | U8 | U32 | I32 | F32 | F64 | U64 | Str | Bytes => exact hplain rfl

/-- A field that fits. -/
theorem put_fits (h : w.canWrite (field v (w.hit key v)).length = true) : w.put key v =
    { w with
      table := w.putBytesAt w.pos (field v (w.hit key v))
      pos := w.pos + (field v (w.hit key v)).length
      dedup := w.staged key v
      colIdx := w.colIdx + 1
      pendingTs := w.noted v } := by
  have hraw : w.writeRaw (field v (w.hit key v)) = _ := if_pos h
  rw [put_eq_written, written_eq rfl, hraw]
  simp [canWrite_overflow h]

theorem put_overflows (h : w.canWrite (field v (w.hit key v)).length = false) : w.put key v =
    { w with overflow := true, colIdx := w.colIdx + 1, pendingTs := w.noted v } := by
  have hraw : w.writeRaw (field v (w.hit key v)) = _ := if_neg (by simp [h])
  rw [put_eq_written, written_eq rfl, hraw]
  rfl

end RowWriter

section Stage

variable (key : HashKey)

/-- What is staged for a row whose fields are stored from `off` on. -/
def stageFields : DedupState → ℕ → ℕ → List (Value × Option ℕ) → DedupState
  | state, _, _, [] => state
  | state, i, off, (v, dup) :: rest =>
      let state' := match v.varlen, dup with
        | some data, none => state.stageInsert key i data off
        | _, _ => state
      stageFields state' (i + 1) (off + (field v dup).length) rest

variable {key} {s : DedupState} {i off : ℕ}

theorem commit_stageInsert (col : ℕ) (data : Bytes) :
    (s.stageInsert key col data off).commitRow = s.commitRow.insert key col data off := by
  unfold DedupState.stageInsert DedupState.insert
  by_cases hlen : s.minDedupLen ≤ data.length
  · rw [if_pos hlen, if_pos (show s.commitRow.minDedupLen ≤ data.length from hlen)]
    simp [DedupState.commitRow, List.foldl_append]
  · rw [if_neg hlen, if_neg (show ¬ s.commitRow.minDedupLen ≤ data.length from hlen)]

/-- Committing the staged texts of a row is remembering them one by one. -/
theorem commit_stageFields (fields : List (Value × Option ℕ)) :
    (stageFields key s i off fields).commitRow = insertFields key s.commitRow i off fields := by
  induction fields generalizing s i off with
  | nil => rfl
  | cons f fields ih =>
      obtain ⟨v, dup⟩ := f
      unfold stageFields insertFields
      cases hv : v.varlen with
      | none => exact ih
      | some data =>
          cases dup with
          | some off' => exact ih
          | none =>
              dsimp only
              rw [ih, commit_stageInsert]

theorem stageFields_append (fields : List (Value × Option ℕ)) (v : Value) (dup : Option ℕ) :
    stageFields key s i off (fields ++ [(v, dup)]) =
      match v.varlen, dup with
      | some data, none => (stageFields key s i off fields).stageInsert key (i + fields.length) data
          (off + (fieldsData fields).length)
      | _, _ => stageFields key s i off fields := by
  induction fields generalizing s i off with
  | nil => rfl
  | cons f fields ih =>
      rw [List.cons_append, List.length_cons, fieldsData_cons, List.length_append]
      unfold stageFields
      rw [ih, Nat.add_assoc i, Nat.add_comm 1, Nat.add_assoc off]

/-- Staging changes no lookup. -/
theorem lookup_stageFields (fields : List (Value × Option ℕ)) (col : ℕ) (data payload : Bytes) :
    (stageFields key s i off fields).lookup key col data payload =
      s.lookup key col data payload := by
  induction fields generalizing s i off with
  | nil => rfl
  | cons f fields ih =>
      obtain ⟨v, dup⟩ := f
      unfold stageFields
      cases hv : v.varlen with
      | none => exact ih
      | some text =>
          cases dup with
          | some off' => exact ih
          | none =>
              dsimp only
              rw [ih]
              unfold DedupState.stageInsert
              split_ifs <;> rfl

end Stage

namespace MemTableWriter

variable (key : HashKey) (w : MemTableWriter)

/-- Where the text of a column is stored already. -/
def lookup (i : ℕ) (v : Value) : Option ℕ :=
  v.varlen.bind fun data => w.dedup.bind fun state =>
    state.lookup key i data w.table.current.payload

/-- The fields of a row as the write chunk stores them. -/
def fields (values : List Value) : List (Value × Option ℕ) :=
  values.mapIdx fun i v => (v, w.lookup key i v)

/-- The offset of the first field of the next row. -/
def fieldsOff : ℕ := chunkHeaderSize + w.table.current.used + 4

/-- The row is published and its texts are remembered. -/
def stored (values : List Value) : MemTableWriter where
  table := w.table.appendData (fieldsData (w.fields key values)) (rowTs w.table.tsCol values)
  dedup := w.dedup.map fun state => insertFields key state 0 w.fieldsOff (w.fields key values)

/-- The fields of the row fit the write chunk. -/
def fits (values : List Value) : Bool := w.table.hasRoom (fieldsData (w.fields key values)).length

variable {key w}

theorem fields_append (values : List Value) (v : Value) :
    w.fields key (values ++ [v]) = w.fields key values ++ [(v, w.lookup key values.length v)] := by
  unfold fields
  rw [List.mapIdx_append]
  simp

@[simp] theorem fields_length (values : List Value) :
    (w.fields key values).length = values.length :=
  List.length_mapIdx

theorem lookup_plain (hplain : w.dedup = none) (i : ℕ) (v : Value) : w.lookup key i v = none := by
  unfold lookup
  rw [hplain]
  cases v.varlen <;> rfl

/-- Where nothing is found every value is stored as itself. -/
theorem fields_of_lookup_none (h : ∀ i v, w.lookup key i v = none) (values : List Value) :
    fieldsData (w.fields key values) = values.flatMap Value.encode := by
  induction values using List.reverseRecOn with
  | nil => rfl
  | append_singleton values v ih =>
      rw [fields_append, fieldsData_append, ih, h, List.flatMap_append]
      rfl

theorem fields_plain (hplain : w.dedup = none) (values : List Value) :
    fieldsData (w.fields key values) = values.flatMap Value.encode :=
  fields_of_lookup_none (lookup_plain hplain) values

theorem rowDataSize_eq (values : List Value) :
    rowDataSize values = (values.flatMap Value.encode).length := by
  rw [rowDataSize, List.length_flatMap]
  simp only [Value.encode_length]

theorem rowFields_eq {state : DedupState} (hdedup : w.dedup = some state) (values : List Value) :
    rowFields key state w.table.current.payload values = w.fields key values := by
  have hlookup (i : ℕ) (v : Value) :
      w.lookup key i v = v.varlen.bind fun data =>
      state.lookup key i data w.table.current.payload := by
    unfold lookup
    rw [hdedup]
    rfl
  unfold rowFields lookups fields
  simp only [hlookup]
  apply List.ext_getElem
  · simp
  · intro i hi hi'
    simp

/-- A batch write stores the row if it fits; only deduplicated rows are limited in columns. -/
theorem append_eq (values : List Value) : w.append key values =
    if (w.dedup.isSome → values.length ≤ maxDedupCols) ∧ w.fits key values then
      some (w.stored key values)
    else none := by
  unfold append
  cases hdedup : w.dedup with
  | none =>
      have hsame : w.stored key values =
          ⟨w.table.appendData (values.flatMap Value.encode) (rowTs w.table.tsCol values),
            none⟩ := by
        unfold stored
        rw [fields_plain hdedup, hdedup]
        rfl
      dsimp only
      unfold Table.writeRowBytes fits
      rw [fields_plain hdedup, hsame, rowDataSize_eq]
      by_cases hroom : w.table.hasRoom (values.flatMap Value.encode).length = true
      · rw [if_pos hroom, if_pos ⟨fun h => (nomatch h), hroom⟩, Option.map_some]
      · rw [if_neg hroom, if_neg fun h => hroom h.2, Option.map_none]
  | some state =>
      have hsame : w.stored key values =
          ⟨w.table.appendData (fieldsData (w.fields key values)) (rowTs w.table.tsCol values),
            some (insertFields key state 0 w.fieldsOff (w.fields key values))⟩ := by
        unfold stored
        rw [hdedup]
        rfl
      dsimp only
      unfold Table.appendRowDedupBytes fits
      rw [rowFields_eq hdedup, hsame]
      dsimp only
      by_cases hcols : maxDedupCols < values.length
      · rw [if_pos hcols, if_neg fun h => absurd (h.1 rfl) (Nat.not_le_of_lt hcols),
          Option.map_none]
      · by_cases hroom : w.table.hasRoom (fieldsData (w.fields key values)).length = true
        · rw [if_neg hcols, if_pos hroom, if_pos ⟨fun _ => Nat.le_of_not_lt hcols, hroom⟩]
          rfl
        · rw [if_neg hcols, if_neg hroom, if_neg fun h => hroom h.2, Option.map_none]

/-- The chunks hold these rows, and what is remembered is in the write chunk. -/
structure Sound (w : MemTableWriter) (contents : ℕ → List Bytes) : Prop where
  filled : w.table.Filled contents
  remembers : ∀ s, w.dedup = some s → s.Remembers (log (contents w.table.writeChunk))

/-- A row writer that has written the fields of these values. -/
structure Streamed (key : HashKey) (w : MemTableWriter) (values : List Value)
    (rw : RowWriter) : Prop where
  overflow : rw.overflow = false
  table : rw.table = w.table.scribble (fieldsData (w.fields key values))
  rowStart : rw.rowStart = chunkHeaderSize + w.table.current.used
  pos : rw.pos = w.fieldsOff + (fieldsData (w.fields key values)).length
  within : values = [] ∨ rw.pos ≤ w.table.chunkSize
  colIdx : rw.colIdx = values.length
  pendingTs : rw.pendingTs = rowTs w.table.tsCol values
  dedup : rw.dedup =
    w.dedup.map fun s => stageFields key s.beginRow 0 w.fieldsOff (w.fields key values)

/-- A row writer that has run out of room. -/
structure Overflowed (w : MemTableWriter) (rw : RowWriter) : Prop where
  overflow : rw.overflow = true
  table : ∃ data, rw.table = w.table.scribble data ∧
    (data = [] ∨ w.table.current.used + 4 + data.length ≤ w.table.current.payload.length)
  dedup : rw.dedup.map DedupState.rollbackRow = w.dedup.map DedupState.rollbackRow

variable {contents : ℕ → List Bytes} {values : List Value} {rw : RowWriter}

theorem rowTs_append (tsCol : UInt16) (values : List Value) (v : Value) :
    rowTs tsCol (values ++ [v]) = match v with
      | .I64 ts => if tsCol.toNat = values.length + 1 then some ts else rowTs tsCol values
      | _ => rowTs tsCol values := by
  unfold rowTs
  cases tsCol.toNat with
  | zero => cases v <;> rfl
  | succ i =>
      rcases Nat.lt_trichotomy i values.length with hlt | heq | hgt
      · have hne : i + 1 ≠ values.length + 1 := by omega
        dsimp only
        rw [List.getElem?_append_left hlt]
        cases v with
        | I64 ts => exact (if_neg hne).symm
        | U8 | U32 | I32 | F32 | F64 | U64 | Str | Bytes => rfl
      · subst heq
        dsimp only
        rw [List.getElem?_concat_length, List.getElem?_eq_none (le_refl _)]
        cases v with
        | I64 ts => exact (if_pos rfl).symm
        | U8 | U32 | I32 | F32 | F64 | U64 | Str | Bytes => rfl
      · have hne : i + 1 ≠ values.length + 1 := by omega
        dsimp only
        rw [List.getElem?_eq_none (by simp; omega), List.getElem?_eq_none hgt.le]
        cases v with
        | I64 ts => exact (if_neg hne).symm
        | U8 | U32 | I32 | F32 | F64 | U64 | Str | Bytes => rfl

theorem start_streamed (w : MemTableWriter) :
    Streamed key w [] (makeRowWriter w.table w.dedup) where
  overflow := rfl
  table := (Table.scribble_nil _).symm
  rowStart := rfl
  pos := rfl
  within := .inl rfl
  colIdx := rfl
  pendingTs := by
    unfold rowTs
    split <;> simp [makeRowWriter]
  dedup := rfl

/-- Bytes that follow what was written past the published bytes. -/
theorem scribble_more {t : Table} (h : t.current.used + 4 ≤ t.current.payload.length)
    (data more : Bytes) :
    (t.scribble data).store t.writeChunk { (t.scribble data).current with
      payload :=
    splice (t.scribble data).current.payload (t.current.used + 4 + data.length) more } =
    t.scribble (data ++ more) := by
  unfold Table.scribble
  rw [Table.store_current, Table.store_store]
  dsimp only
  rw [splice_append h]

/-- A streamed row that is rolled back leaves what was remembered. -/
theorem rollback_stageFields (s : DedupState) (i off : ℕ) (fields : List (Value × Option ℕ)) :
    (stageFields key s i off fields).rollbackRow = s.rollbackRow := by
  induction fields generalizing s i off with
  | nil => rfl
  | cons f fields ih =>
      obtain ⟨v, dup⟩ := f
      unfold stageFields
      rw [ih]
      cases v.varlen with
      | none => rfl
      | some data =>
          cases dup with
          | some off' => rfl
          | none =>
              dsimp only
              unfold DedupState.stageInsert
              split_ifs <;> rfl

section Put

variable (hsound : w.Sound contents)
include hsound

/-- Writing past the published bytes leaves every lookup as it was. -/
theorem Sound.lookup_scribble {s : DedupState} (hs : w.dedup = some s) (col : ℕ)
    (data bytes : Bytes) :
    s.lookup key col data (w.table.scribble bytes).current.payload =
      s.lookup key col data w.table.current.payload := by
  have hholds : w.table.current.Holds (contents w.table.writeChunk) :=
    hsound.filled.holds _ hsound.filled.write_lt
  have hsplit (payload : Bytes)
    (hpub : payload.take w.table.current.used = log (contents w.table.writeChunk)) :
      s.lookup key col data payload =
        s.lookup key col data (log (contents w.table.writeChunk)) := by
    rw [← List.take_append_drop w.table.current.used payload, hpub]
    exact (hsound.remembers s hs).lookup_congr _
  rw [hsplit _ hholds.published]
  apply hsplit
  unfold Table.scribble
  rw [Table.store_current]
  dsimp only
  rw [take_splice_before (Nat.le_add_right _ _) hholds.used_le, hholds.published]

theorem Streamed.hit_eq (h : Streamed key w values rw) (v : Value) :
    rw.hit key v = w.lookup key values.length v := by
  unfold RowWriter.hit lookup
  rw [h.overflow, h.dedup, h.table, h.colIdx]
  cases hdedup : w.dedup with
  | none => cases v.varlen <;> rfl
  | some s =>
      cases v.varlen with
      | none => rfl
      | some data =>
          simp only [Option.bind_some, Option.map_some, lookup_stageFields,
            Bool.false_eq_true, if_false]
          exact hsound.lookup_scribble hdedup _ _ _

theorem Streamed.within_payload (h : Streamed key w values rw) :
    fieldsData (w.fields key values) = [] ∨ w.table.current.used + 4 +
      (fieldsData (w.fields key values)).length ≤ w.table.current.payload.length := by
  have hlen : w.table.current.payload.length = w.table.chunkSize - chunkHeaderSize :=
    hsound.filled.payload _ hsound.filled.write_lt
  rcases h.within with rfl | hwithin
  · exact .inl rfl
  · have hpos := h.pos
    unfold fieldsOff at hpos
    right
    omega

/-- The column fits. -/
theorem Streamed.put_fits (h : Streamed key w values rw) {v : Value}
    (hcan : rw.canWrite (field v (rw.hit key v)).length = true) :
    Streamed key w (values ++ [v]) (rw.put key v) := by
  have hlen : w.table.current.payload.length = w.table.chunkSize - chunkHeaderSize :=
    hsound.filled.payload _ hsound.filled.write_lt
  have hle := RowWriter.canWrite_le hcan
  have hsize : rw.table.chunkSize = w.table.chunkSize := by rw [h.table]; rfl
  have hpos := h.pos
  unfold fieldsOff at hpos
  rw [RowWriter.put_fits hcan, h.hit_eq hsound v]
  rw [h.hit_eq hsound v] at hle
  have hfields : fieldsData (w.fields key (values ++ [v])) =
      fieldsData (w.fields key values) ++ field v (w.lookup key values.length v) := by
    rw [fields_append, fieldsData_append, fieldsData_cons, fieldsData_nil, List.append_nil]
  have hroom : w.table.current.used + 4 ≤ w.table.current.payload.length := by omega
  have hoff : rw.pos - chunkHeaderSize = w.table.current.used + 4 +
      (fieldsData (w.fields key values)).length := by
    omega
  refine ⟨h.overflow, ?_, h.rowStart, ?_, .inr (hsize ▸ hle), ?_, ?_, ?_⟩
  · rw [hfields, ← scribble_more hroom]
    unfold RowWriter.putBytesAt
    rw [hoff, h.table]
    rfl
  · dsimp only
    rw [h.pos, hfields, List.length_append, Nat.add_assoc]
  · dsimp only
    rw [h.colIdx, List.length_append, List.length_singleton]
  · have hts : rw.table.tsCol = w.table.tsCol := by rw [h.table]; rfl
    dsimp only
    unfold RowWriter.noted
    rw [rowTs_append, hts, h.colIdx, h.pendingTs]
  · dsimp only
    unfold RowWriter.staged
    rw [h.hit_eq hsound v, h.dedup, h.colIdx, h.pos, fields_append]
    cases w.dedup with
    | none =>
        cases v.varlen with
        | none => rfl
        | some data => cases w.lookup key values.length v <;> rfl
    | some s =>
        rw [Option.map_some, Option.map_some, stageFields_append, fields_length, Nat.zero_add]
        cases v.varlen with
        | none => rfl
        | some data => cases w.lookup key values.length v <;> rfl

/-- The column does not fit. -/
theorem Streamed.put_overflows (h : Streamed key w values rw) {v : Value}
    (hcan : rw.canWrite (field v (rw.hit key v)).length = false) : Overflowed w (rw.put key v) := by
  rw [RowWriter.put_overflows hcan]
  refine ⟨rfl, ⟨_, h.table, h.within_payload hsound⟩, ?_⟩
  dsimp only
  rw [h.dedup, Option.map_map]
  congr 1
  funext s
  exact rollback_stageFields _ _ _ _

end Put

theorem Overflowed.put (h : Overflowed w rw) (v : Value) : Overflowed w (rw.put key v) := by
  have hcan : rw.canWrite (field v (rw.hit key v)).length = false := by
    simp [RowWriter.canWrite, h.overflow]
  rw [RowWriter.put_overflows hcan]
  exact ⟨rfl, h.table, h.dedup⟩

/-- A row writer that ran out of room after these columns of its row. -/
structure Stopped (key : HashKey) (w : MemTableWriter) (stored values : List Value)
    (rw : RowWriter) : Prop where
  leading : ∃ v rest, values = stored ++ v :: rest ∧ ¬ w.fits key (stored ++ [v]) = true
  fitted : stored = [] ∨ w.fits key stored = true
  table : rw.table = w.table.scribble (fieldsData (w.fields key stored))
  overflowed : Overflowed w rw

theorem Streamed.fitted (h : Streamed key w values rw) :
    values = [] ∨ w.fits key values = true := by
  apply h.within.imp_right
  intro hwithin
  have hpos := h.pos
  unfold fieldsOff at hpos
  apply Table.hasRoom_iff.mpr
  omega

theorem fits_append_iff {v : Value} : w.fits key (values ++ [v]) = true ↔
    w.fieldsOff + (fieldsData (w.fields key values)).length +
      (field v (w.lookup key values.length v)).length ≤ w.table.chunkSize := by
  unfold fits fieldsOff
  rw [Table.hasRoom_iff, fields_append, fieldsData_append, fieldsData_cons, fieldsData_nil,
    List.append_nil, List.length_append]
  dsimp only
  omega

theorem fits_append {v : Value} (h : w.fits key (values ++ [v]) = true) :
    w.fits key values = true := by
  have hroom := fits_append_iff.mp h
  unfold fieldsOff at hroom
  apply Table.hasRoom_iff.mpr
  omega

/-- A row that fits has leading columns that fit. -/
theorem fits_of_initial {stored : List Value} (hstored : stored <+: values)
    (h : w.fits key values = true) : w.fits key stored = true := by
  obtain ⟨rest, rfl⟩ := hstored
  induction rest using List.reverseRecOn with
  | nil => rwa [List.append_nil] at h
  | append_singleton rest v ih =>
      rw [← List.append_assoc] at h
      exact ih (fits_append h)

/-- The next column is written if the row fits with it. -/
theorem Streamed.canWrite_iff (h : Streamed key w values rw)
    (hsound : w.Sound contents) (v : Value) :
    rw.canWrite (field v (rw.hit key v)).length = true ↔ w.fits key (values ++ [v]) = true := by
  have hsize : rw.table.chunkSize = w.table.chunkSize := by rw [h.table]; rfl
  unfold RowWriter.canWrite
  rw [h.overflow, h.hit_eq hsound, Bool.not_false, Bool.true_and, decide_eq_true_eq, h.pos, hsize]
  exact fits_append_iff.symm

/-- A row writer has written all its fields, or the leading ones up to the first without room. -/
theorem Sound.streams (h : w.Sound contents) (values : List Value) :
    Streamed key w values
    (values.foldl (fun rw v => rw.put key v) (makeRowWriter w.table w.dedup)) ∨
      ∃ stored, Stopped key w stored values
        (values.foldl (fun rw v => rw.put key v) (makeRowWriter w.table w.dedup)) := by
  induction values using List.reverseRecOn with
  | nil => exact .inl (start_streamed w)
  | append_singleton values v ih =>
      rw [List.foldl_append]
      generalize values.foldl (fun rw v => rw.put key v) (makeRowWriter w.table w.dedup) = rw at ih
      rcases ih with hstream | ⟨stored, hstop⟩
      · by_cases hfits : w.fits key (values ++ [v]) = true
        · exact .inl (hstream.put_fits h ((hstream.canWrite_iff h v).mpr hfits))
        · have hcan : rw.canWrite (field v (rw.hit key v)).length = false :=
            Bool.eq_false_iff.mpr fun hcan => hfits ((hstream.canWrite_iff h v).mp hcan)
          refine .inr ⟨values, ⟨v, [], rfl, hfits⟩, hstream.fitted, ?_,
            hstream.put_overflows h hcan⟩
          change (rw.put key v).table = _
          rw [RowWriter.put_overflows hcan]
          exact hstream.table
      · obtain ⟨u, rest, rfl, hfits⟩ := hstop.leading
        have hcan : rw.canWrite (field v (rw.hit key v)).length = false := by
          simp [RowWriter.canWrite, hstop.overflowed.overflow]
        refine .inr ⟨stored, ⟨u, rest ++ [v], List.append_assoc _ _ _, hfits⟩, hstop.fitted, ?_,
          hstop.overflowed.put v⟩
        change (rw.put key v).table = _
        rw [RowWriter.put_overflows hcan]
        exact hstop.table

end MemTableWriter

end Probing.Memt
