import Probing.Core.RingTurns
import Probing.Memt.ReadBack
import Probing.Memt.Recycling
import Probing.Memt.RejectedPush

/-!
# The batches of a ring

A batch is what was committed between two advances. Chunk `i` holds the batch of the last
turn that it has taken, and the batches of the turns before the window have been
overwritten.
-/

namespace Probing.Memt

open Probing.Core Probing.Core.RingTurns

/-- A committed row, and the data that stands for it in its chunk. -/
structure StoredRow where
  data : Bytes
  values : List Value

/-- The rows of chunk `i` after turn `k`. -/
def rowsOf (n k : ℕ) (batch : ℕ → List StoredRow) (i : ℕ) : List StoredRow :=
  if turns n k i = 0 then [] else batch (lastTurn n k i)

/-- Everything that has been committed up to turn `k`. -/
def committedUpto (k : ℕ) (batch : ℕ → List StoredRow) : List StoredRow :=
  (List.range (k + 1)).flatMap batch

section RowsOf

variable {n k i : ℕ} {batch : ℕ → List StoredRow} {rows : List StoredRow}

theorem rowsOf_window {j : ℕ} (hn : 0 < n) (hj : j ∈ window n k) :
    rowsOf n k batch (j % n) = batch j := by
  rw [rowsOf, turns_of_window hn hj, if_neg (Nat.succ_ne_zero _), lastTurn_of_window hn hj]

/-- Only the chunk of the current turn changes with its batch. -/
theorem rowsOf_update (hi : i < n) : rowsOf n k (Function.update batch k rows) i =
    if i = k % n then rows else rowsOf n k batch i := by
  have hn : 0 < n := Nat.zero_lt_of_lt hi
  by_cases hcur : i = k % n
  · rw [if_pos hcur, hcur, rowsOf_window hn (self_mem_window hn), Function.update_self]
  · rw [if_neg hcur]
    unfold rowsOf
    by_cases hturn : turns n k i = 0
    · rw [if_pos hturn, if_pos hturn]
    · rw [if_neg hturn, if_neg hturn]
      have hlast := (lastTurn_spec hi hturn).2
      apply Function.update_of_ne
      intro heq
      rw [heq] at hlast
      exact hcur hlast.symm

/-- The next turn empties its chunk. -/
theorem rowsOf_succ (hi : i < n) (hnext : batch (k + 1) = []) : rowsOf n (k + 1) batch i =
    if i = (k + 1) % n then [] else rowsOf n k batch i := by
  have hn : 0 < n := Nat.zero_lt_of_lt hi
  by_cases hturn : i = (k + 1) % n
  · rw [if_pos hturn, hturn, rowsOf_window hn (self_mem_window hn), hnext]
  · have hsame := turns_succ (k := k) hi
    rw [if_neg hturn] at hsame
    rw [if_neg hturn]
    unfold rowsOf lastTurn
    rw [hsame]

theorem committedUpto_update : committedUpto k (Function.update batch k (batch k ++ rows)) =
    committedUpto k batch ++ rows := by
  have hbefore : (List.range k).flatMap (Function.update batch k (batch k ++ rows)) =
      (List.range k).flatMap batch := by
    apply List.flatMap_congr
    intro j hj
    exact Function.update_of_ne (List.mem_range.mp hj).ne _ _
  unfold committedUpto
  rw [List.range_succ, List.flatMap_append, List.flatMap_append, hbefore, List.flatMap_singleton,
    List.flatMap_singleton, Function.update_self, List.append_assoc]

theorem committedUpto_succ (hnext : batch (k + 1) = []) :
    committedUpto (k + 1) batch = committedUpto k batch := by
  unfold committedUpto
  rw [List.range_succ (n := k + 1), List.flatMap_append, List.flatMap_singleton,
    hnext, List.append_nil]

/-- What was overwritten comes before what is in the ring. -/
theorem committedUpto_window (n k : ℕ) (batch : ℕ → List StoredRow) :
    committedUpto k batch = (List.range (oldest n k)).flatMap batch ++
      (window n k).flatMap batch := by
  have hle : oldest n k ≤ k + 1 := Nat.sub_le _ _
  have hsplit := List.range'_append_1 (s := 0) (m := oldest n k) (n := k + 1 - oldest n k)
  rw [Nat.zero_add, Nat.add_sub_cancel' hle] at hsplit
  unfold committedUpto window
  rw [← List.flatMap_append, List.range_eq_range', List.range_eq_range', hsplit]

end RowsOf

/-- The timestamps of rows. -/
def timestamps (tsCol : UInt16) (rows : List StoredRow) : List Int64 :=
  rows.filterMap fun s => rowTs tsCol s.values

namespace MemTableWriter

/-- The chunks after turn `k`, and the rows that were committed in each turn. -/
structure History (w : MemTableWriter) (k : ℕ) (batch : ℕ → List StoredRow) : Prop where
  sound : w.Sound fun i => (rowsOf w.table.numChunks k batch i).map StoredRow.data
  writeChunk : w.table.writeChunk = k % w.table.numChunks
  generation : ∀ i < w.table.numChunks, (w.table.chunk i).generation = turns w.table.numChunks k i
  future : ∀ j, k < j → batch j = []
  tsCol : w.table.tsCol = headerTsCol (tsPosition w.table.cols)
  overwritten : w.table.rowsOverwritten.toNat =
    ((List.range (oldest w.table.numChunks k)).flatMap batch).length % 2 ^ 32
  range : ∀ i < w.table.numChunks, ((w.table.chunk i).minTs, (w.table.chunk i).maxTs) =
    (timestamps w.table.tsCol (rowsOf w.table.numChunks k batch i)).foldl widen
      (tsMinInit, tsMaxInit)
  reads : w.table.chunkSize ≤ 2 ^ 31 → ∀ j, ∀ s ∈ batch j,
    RowReads (log ((batch j).map StoredRow.data)) s.data s.values

section Steps

variable {key : HashKey} {w w' : MemTableWriter} {k : ℕ} {batch : ℕ → List StoredRow}
    {values : List Value}

/-- Only the contents of the chunks of the table matter. -/
theorem Sound.congr {contents contents' : ℕ → List Bytes} (h : w.Sound contents)
    (heq : ∀ i < w.table.numChunks, contents' i = contents i) : w.Sound contents' where
  filled := { h.filled with
    holds := fun i hi => heq i hi ▸ h.filled.holds i hi
    untouched := fun i hi hempty => (heq i hi).trans (h.filled.untouched i hi hempty) }
  remembers s hs := by
    rw [heq _ h.filled.write_lt]
    exact h.remembers s hs

theorem History.chunks_pos (h : w.History k batch) : 0 < w.table.numChunks :=
  Nat.zero_lt_of_lt h.sound.filled.write_lt

theorem History.current_rows (h : w.History k batch) :
    rowsOf w.table.numChunks k batch w.table.writeChunk = batch k := by
  rw [h.writeChunk]
  exact rowsOf_window h.chunks_pos (self_mem_window h.chunks_pos)

/-- An operation that publishes nothing changes neither the heads of the chunks nor the counters. -/
structure SameHeads (t t' : Table) : Prop where
  writeChunk : t'.writeChunk = t.writeChunk
  tsCol : t'.tsCol = t.tsCol
  rowsOverwritten : t'.rowsOverwritten = t.rowsOverwritten
  range : ∀ i, (t'.chunk i).minTs = (t.chunk i).minTs ∧ (t'.chunk i).maxTs = (t.chunk i).maxTs

theorem Quiet.heads (hquiet : Quiet w w') : SameHeads w.table w'.table := by
  cases hquiet with
  | scribbled hroom hdedup =>
      refine ⟨rfl, rfl, rfl, fun i => ?_⟩
      unfold Table.scribble
      by_cases hwrite : i = w.table.writeChunk
      · subst hwrite
        rw [Table.store_chunk_self]
        exact ⟨rfl, rfl⟩
      · rw [Table.store_chunk_of_ne _ hwrite]
        exact ⟨rfl, rfl⟩
  | blocked => exact ⟨rfl, rfl, rfl, fun _ => ⟨rfl, rfl⟩⟩
  | minDedupLen len => exact ⟨rfl, rfl, rfl, fun _ => ⟨rfl, rfl⟩⟩
  | reopened dedup => cases dedup <;> exact ⟨rfl, rfl, rfl, fun _ => ⟨rfl, rfl⟩⟩

theorem History.quiet (h : w.History k batch) (hquiet : Quiet w w') : w'.History k batch := by
  have hshape := hquiet.shape
  have hheads := hquiet.heads
  have hnum := hshape.numChunks
  constructor
  · rw [hnum]
    exact hquiet.sound h.sound
  · rw [hheads.writeChunk, hnum, h.writeChunk]
  · intro i hi
    rw [hnum] at hi ⊢
    rw [(hquiet.extends h.sound i).generation, h.generation i hi]
  · exact h.future
  · rw [hheads.tsCol, hshape.cols, h.tsCol]
  · rw [hheads.rowsOverwritten, hnum, h.overwritten]
  · intro i hi
    rw [hnum] at hi ⊢
    rw [(hheads.range i).1, (hheads.range i).2, hheads.tsCol, h.range i hi]
  · rw [hshape.chunkSize]
    exact h.reads

/-- Every field of a row that fits a chunk of at most 2 GiB is legible. -/
theorem Sound.legible {contents : ℕ → List Bytes} (h : w.Sound contents)
    (hfits : w.fits key values = true)
    (hsmall : w.table.chunkSize ≤ 2 ^ 31) : ∀ f ∈ w.fields key values, Legible f := by
  have hroom := h.filled.room hfits
  have hpayload : w.table.current.payload.length = w.table.chunkSize - chunkHeaderSize :=
    h.filled.payload _ h.filled.write_lt
  have hholds : w.table.current.Holds (contents w.table.writeChunk) :=
    h.filled.holds _ h.filled.write_lt
  have hheader : chunkHeaderSize = 40 := rfl
  intro f hf data hdata
  have hlen := field_length_le hf
  have hplaced : Placed (log (contents w.table.writeChunk)) f := h.placed hfits f hf
  have hat := hplaced data hdata
  cases hdup : f.2 with
  | none =>
      rw [hdup, show field f.1 none = f.1.encode from rfl, encode_of_varlen hdata,
        Value.encodeVarlen, List.length_append, le_length_u32] at hlen
      dsimp only
      omega
  | some off =>
      rw [hdup] at hat
      have hhigh := hat.high
      rw [← hholds.used] at hhigh
      dsimp only
      omega

/-- A row that fits reads back among the rows of its chunk. -/
theorem Sound.row_reads {contents : ℕ → List Bytes} (h : w.Sound contents)
    (hfits : w.fits key values = true) (hsmall : w.table.chunkSize ≤ 2 ^ 31) :
    RowReads (log (contents w.table.writeChunk)) (fieldsData (w.fields key values)) values := by
  have hfields := forall₂_of_legible (h.placed hfits) fields_only_texts (h.legible hfits hsmall)
  rw [fields_values] at hfields
  exact ⟨_, List.flatMap_def, hfields⟩

/-- The row that is stored next. -/
def nextRow (key : HashKey) (w : MemTableWriter) (values : List Value) : StoredRow :=
  ⟨fieldsData (w.fields key values), values⟩

theorem timestamps_concat (tsCol : UInt16) (rows : List StoredRow) (s : StoredRow)
    (r : Int64 × Int64) :
    (timestamps tsCol (rows ++ [s])).foldl widen r =
      (rowTs tsCol s.values).elim ((timestamps tsCol rows).foldl widen r)
        (widen ((timestamps tsCol rows).foldl widen r)) := by
  unfold timestamps
  rw [List.filterMap_append, List.foldl_append]
  cases hts : rowTs tsCol s.values with
  | none => simp [hts]
  | some ts => simp [hts]

/-- A published timestamp widens the range of its chunk. -/
theorem publish_range (c : Chunk) (ts : Option Int64) (used : ℕ) :
    ((c.publish ts used).minTs, (c.publish ts used).maxTs) =
      ts.elim (c.minTs, c.maxTs) (widen (c.minTs, c.maxTs)) := by
  cases ts with
  | none => rfl
  | some ts =>
      change ((if ts < c.minTs then ts else c.minTs), if ts > c.maxTs then ts else c.maxTs) =
        (min c.minTs ts, max c.maxTs ts)
      rw [Prod.mk.injEq, min_def, max_def]
      constructor
      · split_ifs with hlt hle hle
        · exact absurd hlt (not_lt_of_ge hle)
        · rfl
        · rfl
        · exact absurd (not_le.mp hle) hlt
      · split_ifs with hlt hle hle
        · rfl
        · exact absurd hlt.le hle
        · exact le_antisymm hle (not_lt.mp hlt)
        · rfl

/-- A stored row is the last one of the current batch. -/
theorem History.stored (h : w.History k batch) (hfits : w.fits key values = true) :
    (w.stored key values).History k
    (Function.update batch k (batch k ++ [w.nextRow key values])) := by
  have hcurrent := h.current_rows
  have hwrite := h.writeChunk
  have hlt := h.sound.filled.write_lt
  have hnum : (w.stored key values).table.numChunks = w.table.numChunks := rfl
  have hcol : (w.stored key values).table.tsCol = w.table.tsCol := rfl
  have hchunk (i : ℕ) (hi : i ≠ w.table.writeChunk) : (w.stored key values).table.chunk i =
      w.table.chunk i :=
    Table.store_chunk_of_ne _ hi
  have hself : (w.stored key values).table.chunk w.table.writeChunk = _ := Table.store_chunk_self _
  constructor
  · refine (h.sound.stored hfits).congr fun i hi => ?_
    rw [hnum] at hi ⊢
    rw [rowsOf_update hi, ← hwrite]
    by_cases hi' : i = w.table.writeChunk
    · rw [if_pos hi', hi', Function.update_self, hcurrent, List.map_append]
      rfl
    · rw [if_neg hi', Function.update_of_ne hi']
  · exact hwrite
  · intro i hi
    rw [hnum] at hi ⊢
    rw [← h.generation i hi]
    by_cases hi' : i = w.table.writeChunk
    · rw [hi', hself]
      exact Chunk.publish_generation _ _ _
    · rw [hchunk i hi']
  · intro j hj
    rw [Function.update_of_ne hj.ne']
    exact h.future j hj
  · exact h.tsCol
  · have hsame : (List.range (oldest w.table.numChunks k)).flatMap
        (Function.update batch k (batch k ++ [w.nextRow key values])) =
        (List.range (oldest w.table.numChunks k)).flatMap batch := by
      apply List.flatMap_congr
      intro j hj
      have hj' := List.mem_range.mp hj
      have hpos := h.chunks_pos
      unfold oldest at hj'
      exact Function.update_of_ne (by omega) _ _
    rw [hnum, hsame]
    exact h.overwritten
  · intro i hi
    rw [hnum] at hi
    rw [hnum, hcol, rowsOf_update hi, ← hwrite]
    have hrange := h.range i hi
    by_cases hi' : i = w.table.writeChunk
    · rw [if_pos hi', hi', hself, publish_range, timestamps_concat]
      rw [hi', hcurrent] at hrange
      rw [← hrange]
      rfl
    · rw [if_neg hi', hchunk i hi']
      exact hrange
  · intro hsmall j s hs
    by_cases hj : j = k
    · subst hj
      rw [Function.update_self] at hs ⊢
      rw [List.map_append, List.map_singleton, log_append]
      rcases List.mem_append.mp hs with hs | hs
      · exact (h.reads hsmall j s hs).mono _
      · obtain rfl := List.mem_singleton.mp hs
        have hreads := h.sound.row_reads hfits hsmall
        rw [hcurrent] at hreads
        exact hreads.mono _
    · rw [Function.update_of_ne hj] at hs ⊢
      exact h.reads hsmall j s hs

/-- The rows of the chunk that takes the next turn are overwritten. -/
theorem History.overwritten_succ (h : w.History k batch) :
    w.advanced.table.rowsOverwritten.toNat =
      ((List.range (oldest w.table.numChunks (k + 1))).flatMap batch).length % 2 ^ 32 := by
  have hpos := h.chunks_pos
  have hnext : w.table.nextChunk = (k + 1) % w.table.numChunks := by
    rw [Table.nextChunk, h.writeChunk, Nat.mod_add_mod]
  have hcount := (h.sound.filled.holds _ h.sound.filled.next_lt).rowCount
  have hbefore := h.overwritten
  have hadvanced : w.advanced.table.rowsOverwritten = _ := Table.advanced_rowsOverwritten
  rw [hnext] at hcount hadvanced
  rw [List.length_map] at hcount
  rw [hadvanced]
  by_cases hturn : turns w.table.numChunks k ((k + 1) % w.table.numChunks) = 0
  · obtain ⟨hsucc, hzero⟩ := oldest_succ_of_fresh hpos hturn
    rw [rowsOf, if_pos hturn, List.length_nil] at hcount
    have hnone : ¬ (w.table.chunk ((k + 1) % w.table.numChunks)).rowCount > 0 := by
      intro hlt
      have hlt' := UInt32.lt_iff_toNat_lt.mp hlt
      rw [hcount] at hlt'
      exact Nat.not_lt_zero _ hlt'
    rw [if_neg hnone, hbefore, hsucc, hzero]
  · obtain ⟨hlast, hsucc⟩ := lastTurn_succ_mod hpos hturn
    rw [rowsOf, if_neg hturn, hlast] at hcount
    rw [hsucc, List.range_succ, List.flatMap_append, List.flatMap_singleton, List.length_append]
    have hadd :
      (w.table.rowsOverwritten + (w.table.chunk ((k + 1) % w.table.numChunks)).rowCount).toNat =
        (((List.range (oldest w.table.numChunks k)).flatMap batch).length +
          (batch (oldest w.table.numChunks k)).length) % 2 ^ 32 := by
      rw [UInt32.toNat_add, hbefore, hcount, Nat.mod_add_mod]
    by_cases hlost : (w.table.chunk ((k + 1) % w.table.numChunks)).rowCount > 0
    · rw [if_pos hlost, hadd]
    · have hzero : (w.table.chunk ((k + 1) % w.table.numChunks)).rowCount = 0 := by
        apply UInt32.toNat_inj.mp
        have hle := UInt32.le_iff_toNat_le.mp (UInt32.not_lt.mp hlost)
        exact Nat.le_zero.mp hle
      rw [hzero, UInt32.add_zero] at hadd
      rw [if_neg hlost, hadd]

/-- The next turn empties the next chunk. -/
theorem History.advanced (h : w.History k batch) : w.advanced.History (k + 1) batch := by
  have hpos := h.chunks_pos
  have hnum : w.advanced.table.numChunks = w.table.numChunks := Table.advanced_numChunks
  have hnext : w.table.nextChunk = (k + 1) % w.table.numChunks := by
    rw [Table.nextChunk, h.writeChunk, Nat.mod_add_mod]
  have hempty : batch (k + 1) = [] := h.future _ (Nat.lt_succ_self k)
  have hother (i : ℕ) (hi : i ≠ w.table.nextChunk) : w.advanced.table.chunk i = _ :=
    Table.advanced_chunk hi
  have hself : w.advanced.table.chunk w.table.nextChunk = _ := Table.advanced_chunk_next
  constructor
  · refine h.sound.advanced.congr fun i hi => ?_
    rw [hnum] at hi ⊢
    rw [rowsOf_succ hi hempty, ← hnext]
    by_cases hi' : i = w.table.nextChunk
    · rw [if_pos hi', hi', Function.update_self]
      rfl
    · rw [if_neg hi', Function.update_of_ne hi']
  · rw [hnum]
    exact hnext
  · intro i hi
    rw [hnum] at hi ⊢
    rw [turns_succ hi, ← hnext]
    by_cases hi' : i = w.table.nextChunk
    · rw [if_pos hi', hi', hself, ← h.generation _ h.sound.filled.next_lt]
      rfl
    · rw [if_neg hi', hother i hi', ← h.generation i hi]
      split_ifs <;> rfl
  · intro j hj
    exact h.future j (Nat.lt_of_succ_lt hj)
  · have hcols : w.advanced.table.cols = w.table.cols := Table.advanced_cols
    have hcol : w.advanced.table.tsCol = w.table.tsCol := Table.advanced_tsCol
    rw [hcols, hcol, h.tsCol]
  · rw [hnum]
    exact h.overwritten_succ
  · intro i hi
    rw [hnum] at hi ⊢
    have hcol : w.advanced.table.tsCol = w.table.tsCol := Table.advanced_tsCol
    rw [rowsOf_succ hi hempty, ← hnext, hcol]
    by_cases hi' : i = w.table.nextChunk
    · rw [if_pos hi', hi', hself]
      rfl
    · rw [if_neg hi', hother i hi', ← h.range i hi]
      split_ifs <;> rfl
  · have hsize : w.advanced.table.chunkSize = w.table.chunkSize := Table.advanced_chunkSize
    rw [hsize]
    exact h.reads

/-- Without an advance, a row that is published is the last one of the current batch. -/
theorem History.still (h : w.History k batch) {row : Option (List Value)}
    (hstill : Still key w row w') :
    ∃ batch', w'.History k batch' ∧
      (committedUpto k batch').map StoredRow.values =
        (committedUpto k batch).map StoredRow.values ++ row.toList := by
  cases hstill with
  | quiet hquiet => exact ⟨batch, h.quiet hquiet, (List.append_nil _).symm⟩
  | stored hfits =>
      refine ⟨_, h.stored hfits, ?_⟩
      rw [committedUpto_update, List.map_append]
      rfl

end Steps

section Runs

variable (key : HashKey) (w : MemTableWriter)

/-- How often the operation recycles the next chunk. -/
def advances : Op → ℕ
  | .pushRow pinned values =>
      if w.table.validateRowSchema values ∧ w.append key values = none ∧
        pinned = false then 1 else 0
  | .advanceChunk pinned => if pinned then 0 else 1
  | .appendRow _ | .rowWriter _ _ | .setMinDedupLen _ | .reopen _ => 0

/-- How often a run recycles a chunk. -/
def runAdvances : MemTableWriter → List Op → ℕ
  | _, [] => 0
  | w, op :: ops => w.advances key op + runAdvances (w.perform key op) ops

/-- The rows that a run reports as published, in order. -/
def runCommitted : MemTableWriter → List Op → List (List Value)
  | _, [] => []
  | w, op :: ops => (w.committed key op).toList ++ runCommitted (w.perform key op) ops

variable {key w} {w' : MemTableWriter} {k : ℕ} {batch : ℕ → List StoredRow}
    {contents : ℕ → List Bytes}

/-- An operation that advances does so before it publishes anything. -/
theorem Sound.advances_cases (h : w.Sound contents) {op : Op} (hop : w.FinishFits op) :
    w.advances key op = 0 ∧ Still key w (w.committed key op) (w.perform key op) ∨
      w.advances key op = 1 ∧ Still key w.advanced (w.committed key op) (w.perform key op) := by
  cases op with
  | appendRow values => exact .inl ⟨rfl, h.still hop rfl⟩
  | rowWriter values finish => exact .inl ⟨rfl, h.still hop rfl⟩
  | setMinDedupLen len => exact .inl ⟨rfl, h.still hop rfl⟩
  | reopen dedup => exact .inl ⟨rfl, h.still hop rfl⟩
  | advanceChunk pinned =>
      cases pinned with
      | true => exact .inl ⟨rfl, h.still hop rfl⟩
      | false => exact .inr ⟨rfl, .quiet (.refl _)⟩
  | pushRow pinned values =>
      cases pinned with
      | true =>
          refine .inl ⟨?_, h.still hop rfl⟩
          unfold advances
          dsimp only
          rw [if_neg fun hall => Bool.noConfusion hall.2.2]
      | false =>
          unfold advances perform committed tryPushRow
          dsimp only
          by_cases hschema : w.table.validateRowSchema values = true
          · cases happend : w.append key values with
            | some w' =>
                obtain ⟨hfits, rfl⟩ := append_some happend
                rw [if_neg fun hall => (nomatch hall.2.1 : False), if_pos hschema]
                unfold tryPushInner
                rw [happend]
                exact .inl ⟨rfl, .stored hfits⟩
            | none =>
                rw [if_pos ⟨hschema, rfl, rfl⟩, if_pos hschema, tryPushInner_none happend,
                  if_neg Bool.false_ne_true]
                refine .inr ⟨rfl, ?_⟩
                cases hagain : w.advanced.append key values with
                | some w' =>
                    obtain ⟨hfits, rfl⟩ := append_some hagain
                    exact .stored hfits
                | none => exact .quiet (.refl _)
          · rw [if_neg fun hall => hschema hall.1, if_neg hschema]
            exact .inl ⟨rfl, .quiet (.refl w)⟩

/-- One operation adds its advances to the turns and its row to what was committed. -/
theorem History.step (h : w.History k batch) {op : Op} (hstep : w.step key op = some w') :
    ∃ batch', w'.History (k + w.advances key op) batch' ∧
      (committedUpto (k + w.advances key op) batch').map StoredRow.values =
        (committedUpto k batch).map StoredRow.values ++ (w.committed key op).toList := by
  unfold MemTableWriter.step at hstep
  split_ifs at hstep with hop
  obtain rfl := Option.some.inj hstep
  rcases h.sound.advances_cases hop with ⟨hadv, hstill⟩ | ⟨hadv, hstill⟩
  · rw [hadv]
    exact h.still hstill
  · rw [hadv]
    obtain ⟨batch', hhistory, hrows⟩ := h.advanced.still hstill
    rw [committedUpto_succ (h.future _ (Nat.lt_succ_self k))] at hrows
    exact ⟨batch', hhistory, hrows⟩

theorem History.run {ops : List Op} (h : w.History k batch)
    (hrun : exec (MemTableWriter.step key) w ops = some w') :
    ∃ batch', w'.History (k + runAdvances key w ops) batch' ∧
      (committedUpto (k + runAdvances key w ops) batch').map StoredRow.values =
        (committedUpto k batch).map StoredRow.values ++ runCommitted key w ops := by
  induction ops generalizing w k batch with
  | nil =>
      obtain rfl := Option.some.inj hrun
      exact ⟨batch, h, (List.append_nil _).symm⟩
  | cons op ops ih =>
      obtain ⟨u, hstep, hrest⟩ := Option.bind_eq_some_iff.mp hrun
      obtain ⟨batch', hhistory, hrows⟩ := h.step hstep
      have hperform : u = w.perform key op := by
        unfold MemTableWriter.step at hstep
        split_ifs at hstep
        exact (Option.some.inj hstep).symm
      obtain ⟨batch'', hlast, hall⟩ := ih hhistory hrest
      rw [hperform, Nat.add_assoc] at hlast hall
      rw [hrows, List.append_assoc] at hall
      exact ⟨batch'', hlast, hall⟩

/-- A fresh table has taken turn 0, and nothing has been committed. -/
theorem init_history {buf : Bytes} {cols : List (String × DType)} {chunkSize numChunks : UInt32}
    {dedup : Bool}
    (h : init buf cols chunkSize numChunks dedup = .ok w) : w.History 0 fun _ => [] := by
  have hsound := init_sound h
  have hempty (n i : ℕ) : rowsOf n 0 (fun _ => []) i = [] := ite_self _
  unfold init at h
  cases hinit : initBuf buf cols chunkSize numChunks with
  | error e =>
      rw [hinit] at h
      cases h
  | ok t =>
      have hw : w.table = t ∨ w.table = { t with dedupFlag := true } := by
        rw [hinit] at h
        cases dedup with
        | true => exact .inr (congrArg MemTableWriter.table (Except.ok.inj h).symm)
        | false => exact .inl (congrArg MemTableWriter.table (Except.ok.inj h).symm)
      unfold initBuf at hinit
      dsimp only at hinit
      split_ifs at hinit
      obtain rfl := Except.ok.inj hinit
      have hstart : w.table.writeChunk = 0 ∧ w.table.rowsOverwritten = 0 ∧
          w.table.tsCol = headerTsCol (tsPosition w.table.cols) ∧ ∀ i,
          (w.table.chunk i).generation = (if i = 0 then 1 else 0) ∧
          (w.table.chunk i).minTs = tsMinInit ∧ (w.table.chunk i).maxTs = tsMaxInit := by
        rcases hw with hw | hw
        · rw [hw]
          exact ⟨rfl, rfl, rfl, fun _ => ⟨rfl, rfl, rfl⟩⟩
        · rw [hw]
          exact ⟨rfl, rfl, rfl, fun _ => ⟨rfl, rfl, rfl⟩⟩
      obtain ⟨hwrite, hlost, hcol, hchunks⟩ := hstart
      constructor
      · exact hsound.congr fun i _ => by rw [hempty]; rfl
      · rw [hwrite, Nat.zero_mod]
      · intro i hi
        rw [(hchunks i).1, turns_start hi]
      · exact fun _ _ => rfl
      · exact hcol
      · rw [hlost]
        simp
      · intro i hi
        rw [(hchunks i).2.1, (hchunks i).2.2, hempty]
        rfl
      · exact fun _ _ s hs => nomatch hs

end Runs

section Results

variable {key : HashKey} {w : MemTableWriter} {k : ℕ} {batch : ℕ → List StoredRow}

/-- A row that reads back in a payload that starts with the published bytes. -/
theorem reads_back_of_reads {published payload data : Bytes} {values : List Value} {n : ℕ}
    (h : RowReads published data values) (hpayload : payload.take n = published) :
    ReadsBack ⟨values.map Value.dtype, data, payload⟩ values := by
  have hsplit : payload = published ++ payload.drop n := by rw [← hpayload, List.take_append_drop]
  rw [hsplit]
  refine ⟨h.cursor_eq _, ?_, fun i v hv => h.col_eq hv⟩
  obtain ⟨fields, rfl, hfields⟩ := h
  exact after_of_reads hfields []

/-- The rows of a chunk are those of its batch. -/
theorem History.rows_eq (h : w.History k batch) {i : ℕ} (hi : i < w.table.numChunks) :
    w.table.rows i = (rowsOf w.table.numChunks k batch i).map fun s =>
      ⟨w.table.dtypes, s.data, (w.table.chunk i).payload⟩ := by
  rw [h.sound.filled.rows_eq hi, List.map_map]
  rfl

/-- A row reads back among the rows of its chunk. -/
theorem History.reads_row (h : w.History k batch) (hsmall : w.table.chunkSize ≤ 2 ^ 31)
    {i : ℕ} {s : StoredRow} (hs : s ∈ rowsOf w.table.numChunks k batch i) :
    RowReads (log ((rowsOf w.table.numChunks k batch i).map StoredRow.data)) s.data s.values := by
  unfold rowsOf at hs ⊢
  split_ifs at hs ⊢ with hturn
  · cases hs
  · exact h.reads hsmall _ s hs

theorem History.numRows_eq (h : w.History k batch) {i : ℕ} (hi : i < w.table.numChunks) :
    w.table.numRows i = (rowsOf w.table.numChunks k batch i).length := by
  rw [Table.numRows, (h.sound.filled.holds i hi).rowCount, List.length_map]

/-- Entries that are filtered out have nothing to add. -/
theorem flatMap_filter_eq {α β : Type*} {p : α → Bool} {f g : α → List β} {l : List α}
    (hkept : ∀ a ∈ l, p a = true → f a = g a) (hnone : ∀ a ∈ l, p a = false → g a = []) :
    (l.filter p).flatMap f = l.flatMap g := by
  induction l with
  | nil => rfl
  | cons a l ih =>
      have hrest := ih (fun b hb => hkept b (List.mem_cons_of_mem _ hb)) fun b hb =>
          hnone b (List.mem_cons_of_mem _ hb)
      rw [List.flatMap_cons, ← hrest]
      cases hp : p a with
      | true => rw [List.filter_cons_of_pos hp, List.flatMap_cons, hkept a List.mem_cons_self hp]
      | false =>
          rw [List.filter_cons_of_neg (by rw [hp]; exact Bool.false_ne_true),
            hnone a List.mem_cons_self hp, List.nil_append]

/-- The chunks are read in the order of their turns. -/
theorem History.readable_eq (h : w.History k batch) :
    w.table.readable = (window w.table.numChunks k).flatMap fun j =>
      (batch j).map fun s =>
          ⟨w.table.dtypes, s.data, (w.table.chunk (j % w.table.numChunks)).payload⟩ := by
  have hpos := h.chunks_pos
  have hlogical : w.table.chunksLogical =
      ((window w.table.numChunks k).filter fun j =>
        !(rowsOf w.table.numChunks k batch (j % w.table.numChunks)).isEmpty).map (· %
            w.table.numChunks) := by
    have hcells := sorted_cells (k := k) hpos fun i => !(rowsOf w.table.numChunks k batch i).isEmpty
    rw [← hcells]
    unfold Table.chunksLogical
    dsimp only
    congr 2
    apply List.filterMap_congr
    intro i hi
    have hi' := List.mem_range.mp hi
    rw [h.generation i hi', h.numRows_eq hi']
    simp only [Bool.not_eq_false', List.isEmpty_iff, List.length_eq_zero_iff]
  unfold Table.readable
  rw [hlogical, List.flatMap_map]
  apply flatMap_filter_eq
  · intro j hj _
    rw [h.rows_eq (Nat.mod_lt j hpos), rowsOf_window hpos hj]
  · intro j hj hempty
    rw [rowsOf_window hpos hj, Bool.not_eq_false', List.isEmpty_iff] at hempty
    rw [hempty, List.map_nil]

/-- The ring is a lossy queue. The rows that can be read are the last ones that were committed, in
order. The rows before them are counted. In chunks of at most 2 GiB a row that has the columns of
the table reads back. -/
theorem ring_fifo {buf : Bytes} {cols : List (String × DType)} {chunkSize numChunks : UInt32}
    {dedup : Bool} {fresh : MemTableWriter} {ops : List Op}
    (hinit : init buf cols chunkSize numChunks dedup = .ok fresh)
    (hrun : exec (step key) fresh ops = some w) :
    w.table.writeChunk = runAdvances key fresh ops % w.table.numChunks ∧
    w.table.current.generation = runAdvances key fresh ops / w.table.numChunks + 1 ∧
    ∃ lost kept, runCommitted key fresh ops = lost ++ kept ∧
      w.table.rowsOverwritten.toNat = lost.length % 2 ^ 32 ∧
      List.Forall₂ (fun r values => w.table.chunkSize ≤ 2 ^ 31 →
        values.map Value.dtype = w.table.dtypes → ReadsBack r values) w.table.readable kept := by
  obtain ⟨batch, h, hrows⟩ := (init_history hinit).run hrun
  rw [Nat.zero_add] at h hrows
  have hpos := h.chunks_pos
  have hgen := h.generation _ h.sound.filled.write_lt
  rw [h.writeChunk, turns_of_window hpos (self_mem_window hpos), ← h.writeChunk] at hgen
  refine ⟨h.writeChunk, hgen,
    ((List.range (oldest w.table.numChunks (runAdvances key fresh ops))).flatMap batch).map
      StoredRow.values,
    ((window w.table.numChunks (runAdvances key fresh ops)).flatMap batch).map StoredRow.values,
    ?_, ?_, ?_⟩
  · rw [← List.map_append, ← committedUpto_window, hrows]
    rfl
  · rw [List.length_map]
    exact h.overwritten
  · rw [h.readable_eq, List.map_flatMap]
    refine List.rel_flatMap
      (R := fun a b => a = b ∧ b ∈ window w.table.numChunks (runAdvances key fresh ops))
      (List.forall₂_same.mpr fun j hj => ⟨rfl, hj⟩) ?_
    rintro j _ ⟨rfl, hj⟩
    rw [List.forall₂_map_left_iff, List.forall₂_map_right_iff, List.forall₂_same]
    intro s hs hsmall hdtypes
    rw [← hdtypes]
    have hlt := Nat.mod_lt j hpos
    have hholds := h.sound.filled.holds _ hlt
    rw [rowsOf_window hpos hj] at hholds
    exact reads_back_of_reads (h.reads hsmall j s hs) hholds.published

/-- The designated timestamp column of a table, and what its rows have there. -/
theorem History.ts_column (h : w.History k batch) (hcols : w.table.cols.length < 2 ^ 16) :
    (w.table.tsIndex = none ∧ w.table.tsCol.toNat = 0) ∨
      ∃ c, w.table.tsIndex = some c ∧ w.table.tsCol.toNat = c + 1 ∧
      w.table.dtypes[c]? = some .I64 := by
  have hcol := h.tsCol
  cases hpos : tsPosition w.table.cols with
  | none =>
      rw [hpos] at hcol
      refine .inl ⟨?_, by rw [hcol]; rfl⟩
      rw [Table.tsIndex, hcol]
      rfl
  | some c =>
      rw [hpos] at hcol
      unfold tsPosition at hpos
      obtain ⟨hlt, hat, -⟩ := List.findIdx?_eq_some_iff_getElem.mp hpos
      have hfits : c + 1 < 2 ^ 16 := by omega
      have hnat : (headerTsCol (some c)).toNat = c + 1 := UInt16.toNat_ofNat_of_lt' hfits
      refine .inr ⟨c, ?_, by rw [hcol, hnat], ?_⟩
      · rw [Table.tsIndex, hcol, viewTsCol_header hfits]
      · rw [Table.dtypes, List.getElem?_map, List.getElem?_eq_getElem hlt, Option.map_some,
          (of_decide_eq_true hat).1]

/-- The timestamps of a batch are what its rows have in the timestamp column. -/
theorem History.timestamps_eq (h : w.History k batch) {i c : ℕ} (hi : i < w.table.numChunks)
    (hsmall : w.table.chunkSize ≤ 2 ^ 31)
    (hschema : ∀ s ∈ rowsOf w.table.numChunks k batch i, s.values.map Value.dtype = w.table.dtypes)
    (hts : w.table.tsCol.toNat = c + 1) (hcol : w.table.dtypes[c]? = some .I64) :
    (w.table.rows i).map (Row.colI64 · c) =
      timestamps w.table.tsCol (rowsOf w.table.numChunks k batch i) := by
  have hholds := (h.sound.filled.holds i hi).published
  have hrow : ∀ s ∈ rowsOf w.table.numChunks k batch i,
      rowTs w.table.tsCol s.values =
        some (Row.colI64 ⟨w.table.dtypes, s.data, (w.table.chunk i).payload⟩ c) := by
    intro s hs
    have hvalue : ∃ ts, s.values[c]? = some (.I64 ts) := by
      rw [← hschema s hs, List.getElem?_map, Option.map_eq_some_iff] at hcol
      obtain ⟨v, hv, hdtype⟩ := hcol
      cases v with
      | I64 ts => exact ⟨ts, hv⟩
      | _ => cases hdtype
    obtain ⟨ts, hv⟩ := hvalue
    have hback := (reads_back_of_reads (h.reads_row hsmall hs) hholds).col c _ hv
    rw [hschema s hs] at hback
    have hread : Row.colI64 ⟨w.table.dtypes, s.data, (w.table.chunk i).payload⟩ c = ts :=
      Value.I64.inj hback
    unfold rowTs
    rw [hts, hread]
    dsimp only
    rw [hv]
  rw [h.rows_eq hi, List.map_map, timestamps, List.filterMap_congr hrow]
  exact (List.filterMap_eq_map.symm ▸ rfl)

/-- The rows of every batch were committed by the run. -/
theorem mem_committed_of_rowsOf {n i : ℕ} (hi : i < n) {s : StoredRow}
    (hs : s ∈ rowsOf n k batch i) :
    s ∈ committedUpto k batch := by
  unfold rowsOf at hs
  split_ifs at hs with hturn
  · cases hs
  · have hlast := (mem_window.mp (lastTurn_spec hi hturn).1).2
    exact List.mem_flatMap.mpr ⟨_, List.mem_range.mpr (Nat.lt_succ_of_le hlast), hs⟩

/-- The range of a chunk is that of the timestamps of its rows. -/
theorem History.range_exact (h : w.History k batch) {i c : ℕ} (hi : i < w.table.numChunks)
    (hsmall : w.table.chunkSize ≤ 2 ^ 31) (hcols : w.table.cols.length < 2 ^ 16)
    (hschema : ∀ s ∈ committedUpto k batch, s.values.map Value.dtype = w.table.dtypes)
    (hc : w.table.tsIndex = some c) :
    (w.table.chunkTsRange i = none ↔ w.table.rows i = []) ∧
      ∀ lo hi', w.table.chunkTsRange i = some (lo, hi') →
        (∀ r ∈ w.table.rows i, lo ≤ r.colI64 c ∧ r.colI64 c ≤ hi') ∧
        (∃ r ∈ w.table.rows i, r.colI64 c = lo) ∧ ∃ r ∈ w.table.rows i, r.colI64 c = hi' := by
  have hcolumn : w.table.tsCol.toNat = c + 1 ∧ w.table.dtypes[c]? = some .I64 := by
    rcases h.ts_column hcols with ⟨hnone, -⟩ | ⟨c', hc', hts, hcol⟩
    · rw [hnone] at hc
      cases hc
    · obtain rfl := Option.some.inj (hc'.symm.trans hc)
      exact ⟨hts, hcol⟩
  have hstamps := h.timestamps_eq hi hsmall (fun s hs => hschema s (mem_committed_of_rowsOf hi hs))
    hcolumn.1 hcolumn.2
  have hrange := h.range i hi
  rw [← hstamps] at hrange
  have hlow : tsMaxInit < tsMinInit := by decide
  have hexact := @widen_exact _ _ _ _ ((w.table.rows i).map (Row.colI64 · c)) hlow
      (fun t _ => Int64.le_iff_toInt_le.mpr t.toInt_le)
    fun t _ => Int64.le_iff_toInt_le.mpr t.minValue_le_toInt
  rw [← hrange, List.map_eq_nil_iff] at hexact
  obtain ⟨hnone, hsome⟩ := hexact
  have hvalue : w.table.chunkTsRange i =
      if (w.table.chunk i).minTs > (w.table.chunk i).maxTs then none
      else some ((w.table.chunk i).minTs, (w.table.chunk i).maxTs) := by
    rw [Table.chunkTsRange, hc, Option.bind_some]
  rw [hvalue]
  by_cases hempty : w.table.rows i = []
  · rw [if_pos (hnone.mpr hempty)]
    exact ⟨⟨fun _ => hempty, fun _ => rfl⟩, fun _ _ hbad => nomatch hbad⟩
  · rw [if_neg fun hlt => hempty (hnone.mp hlt)]
    refine ⟨⟨fun hbad => (nomatch hbad), fun hbad => absurd hbad hempty⟩, fun lo hi' heq => ?_⟩
    obtain ⟨rfl, rfl⟩ := Prod.mk.inj (Option.some.inj heq)
    obtain ⟨hall, hlow, hhigh⟩ := hsome (List.map_eq_nil_iff.not.mpr hempty)
    exact ⟨fun r hr => hall _ (List.mem_map_of_mem hr), List.mem_map.mp hlow, List.mem_map.mp hhigh⟩

/-- Every chunk head says what its rows are. Only the write chunk is written, `used` and `row_count`
count the rows, and the range of a chunk is exactly that of the timestamps of its rows. -/
theorem chunk_heads_exact {buf : Bytes} {cols : List (String × DType)}
    {chunkSize numChunks : UInt32} {dedup : Bool} {fresh : MemTableWriter} {ops : List Op}
    (hinit : init buf cols chunkSize numChunks dedup = .ok fresh)
    (hrun : exec (step key) fresh ops = some w) {i : ℕ} (hi : i < w.table.numChunks) :
    ((w.table.chunk i).state = .Writing ↔ i = w.table.writeChunk) ∧
    ((w.table.chunk i).state = .Empty ↔ (w.table.chunk i).generation = 0) ∧
    ((w.table.chunk i).state = .Empty → w.table.rows i = []) ∧
    (w.table.chunk i).used = ((w.table.rows i).map fun r => 4 + r.data.length).sum ∧
    w.table.numRows i = (w.table.rows i).length ∧
    (w.table.tsIndex = none → w.table.chunkTsRange i = none) ∧
    (w.table.cols.length < 2 ^ 16 → w.table.chunkSize ≤ 2 ^ 31 →
      (∀ values ∈ runCommitted key fresh ops, values.map Value.dtype = w.table.dtypes) →
      ∀ c, w.table.tsIndex = some c →
        (w.table.chunkTsRange i = none ↔ w.table.rows i = []) ∧
        ∀ lo hi', w.table.chunkTsRange i = some (lo, hi') →
          (∀ r ∈ w.table.rows i, lo ≤ r.colI64 c ∧ r.colI64 c ≤ hi') ∧
          (∃ r ∈ w.table.rows i, r.colI64 c = lo) ∧ ∃ r ∈ w.table.rows i, r.colI64 c = hi') := by
  obtain ⟨batch, h, hrows⟩ := (init_history hinit).run hrun
  rw [Nat.zero_add] at h hrows
  have hfilled := h.sound.filled
  have hholds := hfilled.holds i hi
  refine ⟨hfilled.writing i hi, (hfilled.generation i hi).symm, fun hempty => ?_, ?_, ?_,
    fun hnone => ?_, ?_⟩
  · rw [hfilled.rows_eq hi, hfilled.untouched i hi hempty, List.map_nil]
  · rw [hholds.used, log_length, h.rows_eq hi, List.map_map, List.map_map]
    rfl
  · rw [h.numRows_eq hi, h.rows_eq hi, List.length_map]
  · rw [Table.chunkTsRange, hnone, Option.bind_none]
  · intro hcols hsmall hschema c hc
    refine h.range_exact hi hsmall hcols (fun s hs => hschema _ ?_) hc
    have hmem := List.mem_map_of_mem (f := StoredRow.values) hs
    rw [hrows] at hmem
    exact hmem

/-- A table of two chunks with room for one timestamp each. -/
def samples : Except String MemTableWriter := init (List.replicate 816 0) [("ts", .I64)] 56 2 false

/-- The third sample overwrites the first one. -/
def threeSamples : List Op :=
  [.pushRow false [.I64 30], .pushRow false [.I64 10], .pushRow false [.I64 20]]

theorem samples_run : ∃ fresh w, samples = .ok fresh ∧
    exec (step fun _ _ => 0) fresh threeSamples = some w ∧ w.table.numChunks = 2 := by
  have hnum : (samples.toOption.map fun fresh =>
      (exec (step fun _ _ => 0) fresh threeSamples).map fun w => w.table.numChunks) =
          some (some 2) := by
    decide +kernel
  cases hsamples : samples with
  | error e =>
      rw [hsamples] at hnum
      cases hnum
  | ok fresh =>
      rw [hsamples] at hnum
      exact ⟨fresh, _, rfl, rfl, Option.some.inj (Option.some.inj hnum)⟩

theorem ring_fifo_samples : ∃ fresh w lost kept, samples = .ok fresh ∧
    exec (step fun _ _ => 0) fresh threeSamples = some w ∧
    runCommitted (fun _ _ => 0) fresh threeSamples = lost ++ kept ∧
    w.table.rowsOverwritten.toNat = lost.length % 2 ^ 32 := by
  obtain ⟨fresh, w, hinit, hrun, -⟩ := samples_run
  obtain ⟨-, -, lost, kept, hall, hlost, -⟩ := ring_fifo hinit hrun
  exact ⟨fresh, w, lost, kept, hinit, hrun, hall, hlost⟩

theorem chunk_heads_exact_samples : ∃ fresh w, samples = .ok fresh ∧
    exec (step fun _ _ => 0) fresh threeSamples = some w ∧
    ((w.table.chunk 0).state = .Writing ↔ 0 = w.table.writeChunk) := by
  obtain ⟨fresh, w, hinit, hrun, hnum⟩ := samples_run
  exact ⟨fresh, w, hinit, hrun, (chunk_heads_exact hinit hrun (by omega)).1⟩

end Results

end MemTableWriter

end Probing.Memt
