import Probing.Memt.Row

/-!
# What the chunks hold

The published bytes of a chunk are the rows that were appended since it was recycled.
Appending a row, writing past the published bytes and advancing each change the rows of
at most one chunk.
-/

namespace Probing.Memt

open Probing.Core

/-- Rows as they are published. -/
def log (rows : List Bytes) : Bytes := rows.flatMap rowFrame

section Log

variable {rows : List Bytes} {data : Bytes}

@[simp] theorem rowFrame_length (data : Bytes) : (rowFrame data).length = 4 + data.length := by
  rw [rowFrame, List.length_append, le_length_u32]

@[simp] theorem log_nil : log [] = [] := rfl

@[simp] theorem log_append (rows : List Bytes) (data : Bytes) :
    log (rows ++ [data]) = log rows ++ rowFrame data := by
  simp [log]

theorem log_length (rows : List Bytes) :
    (log rows).length = (rows.map fun r => 4 + r.length).sum := by
  simp [log, List.length_flatMap]

theorem row_recognised (h : data.length < 2 ^ 32) : Recognises rowHead rowFrame Except.ok data := by
  refine ⟨by rw [rowFrame_length]; omega, fun rest => ?_⟩
  have hget : getLe UInt32 (rowFrame data ++ rest) 0 = UInt32.ofNat data.length := by
    rw [rowFrame, List.append_assoc, getLe_le_append]
  have hnat : (UInt32.ofNat data.length).toNat = data.length := UInt32.toNat_ofNat_of_lt' h
  have hlen : (rowFrame data ++ rest).length = 4 + data.length + rest.length := by
    rw [List.length_append, rowFrame_length]
  have hslice : slice (rowFrame data ++ rest) 4 data.length = data := by
    rw [rowFrame, List.append_assoc]
    have hthere := slice_length_add (le (UInt32.ofNat data.length)) (data ++ rest) 0 data.length
    rw [le_length_u32, Nat.add_zero] at hthere
    rw [hthere, slice_zero_append rfl]
  unfold rowHead
  rw [if_neg (by omega), hget, hnat]
  dsimp only
  rw [if_neg (by omega), Nat.add_sub_cancel_left, hslice, rowFrame_length]
  rfl

/-- The iterator yields the rows that were published. -/
theorem rowIter_log (h : ∀ r ∈ rows, r.length < 2 ^ 32) : rowIter (log rows) = rows := by
  have hread (off : ℕ) : ∃ frames,
      readings rowFrame (Except.ok (ε := Empty)) off rows = .ok frames ∧
      frames.map Prod.snd = rows := by
    clear h
    induction rows generalizing off with
    | nil => exact ⟨[], rfl, rfl⟩
    | cons r rows ih =>
        obtain ⟨frames, hframes, hrows⟩ := ih (off + (rowFrame r).length)
        refine ⟨(off, r) :: frames, ?_, by rw [List.map_cons, hrows]⟩
        rw [readings, hframes]
        rfl
  obtain ⟨frames, hframes, hrows⟩ := hread 0
  have hscan := scan_flatMap (fun r hr => row_recognised (h r hr)) 0 []
  have hstop (off : ℕ) : scan rowHead off [] = .ok ([], off) := by
    rw [scan]
    rfl
  rw [hframes, List.append_nil, hstop] at hscan
  unfold rowIter
  rw [log, hscan]
  simpa [Except.map] using hrows

end Log

/-- The published bytes are these rows. -/
structure Chunk.Holds (c : Chunk) (rows : List Bytes) : Prop where
  used : c.used = (log rows).length
  published : c.payload.take c.used = log rows
  rowCount : c.rowCount.toNat = rows.length
  short : ∀ r ∈ rows, r.length < 2 ^ 32

namespace Chunk

variable {c c' : Chunk} {rows : List Bytes} {data : Bytes}

@[simp] theorem noteRowTs_payload (c : Chunk) (ts : Int64) :
    (c.noteRowTs ts).payload = c.payload := rfl
@[simp] theorem noteRowTs_state (c : Chunk) (ts : Int64) : (c.noteRowTs ts).state = c.state := rfl
@[simp] theorem noteRowTs_generation (c : Chunk) (ts : Int64) :
    (c.noteRowTs ts).generation = c.generation := rfl

@[simp] theorem publish_payload (c : Chunk) (ts : Option Int64) (used : ℕ) :
    (c.publish ts used).payload = c.payload := by
  cases ts <;> rfl

@[simp] theorem publish_state (c : Chunk) (ts : Option Int64) (used : ℕ) :
    (c.publish ts used).state = c.state := by
  cases ts <;> rfl

@[simp] theorem publish_generation (c : Chunk) (ts : Option Int64) (used : ℕ) :
    (c.publish ts used).generation = c.generation := by
  cases ts <;> rfl

theorem Holds.used_le (h : c.Holds rows) : c.used ≤ c.payload.length := by
  have hlen : (c.payload.take c.used).length = c.used := by rw [h.published, h.used]
  rw [List.length_take] at hlen
  omega

/-- A chunk with the same counters and published bytes holds the same rows. -/
theorem Holds.congr (h : c.Holds rows) (hused : c'.used = c.used)
    (hcount : c'.rowCount = c.rowCount)
    (hbytes : c'.payload.take c.used = c.payload.take c.used) : c'.Holds rows where
  used := by rw [hused, h.used]
  published := by rw [hused, hbytes, h.published]
  rowCount := by rw [hcount, h.rowCount]
  short := h.short

theorem recycle_holds (c : Chunk) : (Table.recycle c).Holds [] :=
  ⟨rfl, rfl, rfl, fun _ hr => nomatch hr⟩

/-- A payload that fits 32 bits has room for fewer than 2^32 rows. -/
theorem Holds.count_lt (h : c.Holds rows) (hsmall : c.payload.length < 2 ^ 32) :
    4 * rows.length < 2 ^ 32 := by
  have hrows : 4 * rows.length ≤ (log rows).length := by
    rw [log_length]
    clear h
    induction rows with
    | nil => rfl
    | cons r rows ih =>
        rw [List.length_cons, List.map_cons, List.sum_cons]
        omega
  have hle := h.used_le
  rw [h.used] at hle
  omega

/-- Publishing data that was written after the rows adds a row. -/
theorem Holds.publish (h : c.Holds rows) (hroom : c.used + (4 + data.length) ≤ c.payload.length)
    (hsmall : c.payload.length < 2 ^ 32) (ts : Option Int64) :
    Chunk.Holds ({ c with payload := splice c.payload c.used (rowFrame data) }.publish ts
      (c.used + (4 + data.length))) (rows ++ [data]) where
  used := by
    rw [log_append, List.length_append, rowFrame_length, ← h.used]
    rfl
  published := by
    change ((Chunk.publish _ _ _).payload).take (c.used + (4 + data.length)) = _
    rw [publish_payload, ← rowFrame_length, take_splice_end h.used_le, h.published, log_append]
  rowCount := by
    change (c.rowCount + 1).toNat = _
    have hcount := h.count_lt hsmall
    have hone : (1 : UInt32).toNat = 1 := rfl
    rw [UInt32.toNat_add, h.rowCount, hone, List.length_append, List.length_singleton,
      Nat.mod_eq_of_lt (by omega)]
  short r hr := by
    rcases List.mem_append.mp hr with hr | hr
    · exact h.short r hr
    · rw [List.mem_singleton.mp hr]
      omega

end Chunk

namespace Table

variable {t : Table} {i : ℕ}

@[simp] theorem store_chunk_self (c : Chunk) : (t.store i c).chunk i = c := Function.update_self ..

theorem store_chunk_of_ne {j : ℕ} (c : Chunk) (h : j ≠ i) : (t.store i c).chunk j = t.chunk j :=
  Function.update_of_ne h ..

@[simp] theorem store_writeChunk (c : Chunk) : (t.store i c).writeChunk = t.writeChunk := rfl

@[simp] theorem store_current (c : Chunk) : (t.store t.writeChunk c).current = c :=
  store_chunk_self c

/-- Only the last store to a chunk is kept. -/
theorem store_store (c c' : Chunk) : (t.store i c).store i c' = t.store i c' := by
  unfold store
  rw [Function.update_idem]

/-- The table after an advance that no pin blocks. -/
def advanced (t : Table) : Table := (t.advanceChunkRawDetailed false).2

section Advance

@[simp] theorem advanced_numChunks : t.advanced.numChunks = t.numChunks := by
  unfold advanced advanceChunkRawDetailed
  dsimp only [Bool.false_eq_true, if_false]
  split_ifs <;> rfl

@[simp] theorem advanced_chunkSize : t.advanced.chunkSize = t.chunkSize := by
  unfold advanced advanceChunkRawDetailed
  dsimp only [Bool.false_eq_true, if_false]
  split_ifs <;> rfl

@[simp] theorem advanced_cols : t.advanced.cols = t.cols := by
  unfold advanced advanceChunkRawDetailed
  dsimp only [Bool.false_eq_true, if_false]
  split_ifs <;> rfl

@[simp] theorem advanced_tsCol : t.advanced.tsCol = t.tsCol := by
  unfold advanced advanceChunkRawDetailed
  dsimp only [Bool.false_eq_true, if_false]
  split_ifs <;> rfl

@[simp] theorem advanced_writeChunk : t.advanced.writeChunk = t.nextChunk := rfl

@[simp] theorem advanced_chunk_next :
    t.advanced.chunk t.nextChunk = recycle (t.chunk t.nextChunk) :=
  store_chunk_self _

theorem advanced_current : t.advanced.current = recycle (t.chunk t.nextChunk) := advanced_chunk_next

/-- The chunk that was written is sealed, and the chunks after it are left alone. -/
theorem advanced_chunk (h : i ≠ t.nextChunk) : t.advanced.chunk i =
    if i = t.writeChunk then { t.chunk i with state := .Sealed } else t.chunk i := by
  unfold advanced advanceChunkRawDetailed
  dsimp only [Bool.false_eq_true, if_false]
  change Function.update _ _ _ _ = _
  rw [Function.update_of_ne h]
  by_cases hwrite : i = t.writeChunk
  · subst hwrite
    rw [if_pos h, if_pos rfl, store_chunk_self]
    rfl
  · rw [if_neg hwrite]
    split_ifs
    · exact store_chunk_of_ne _ hwrite
    · rfl

theorem advanced_rowsOverwritten : t.advanced.rowsOverwritten =
    if (t.chunk t.nextChunk).rowCount > 0 then t.rowsOverwritten + (t.chunk t.nextChunk).rowCount
    else t.rowsOverwritten := rfl

end Advance

/-- The chunks of a table hold these rows. -/
structure Filled (t : Table) (contents : ℕ → List Bytes) : Prop where
  write_lt : t.writeChunk < t.numChunks
  large : chunkHeaderSize + 8 ≤ t.chunkSize
  small : t.chunkSize < 2 ^ 32
  payload : ∀ i < t.numChunks, (t.chunk i).payload.length = t.chunkSize - chunkHeaderSize
  holds : ∀ i < t.numChunks, (t.chunk i).Holds (contents i)
  writing : ∀ i < t.numChunks, (t.chunk i).state = .Writing ↔ i = t.writeChunk
  generation : ∀ i < t.numChunks, (t.chunk i).generation = 0 ↔ (t.chunk i).state = .Empty
  untouched : ∀ i < t.numChunks, (t.chunk i).state = .Empty → contents i = []

section Filled

variable {contents : ℕ → List Bytes} {data : Bytes} {rows : List Bytes} {c : Chunk}

theorem Filled.current_state (h : t.Filled contents) : t.current.state = .Writing :=
  (h.writing _ h.write_lt).mpr rfl

theorem Filled.next_lt (h : t.Filled contents) : t.nextChunk < t.numChunks :=
  Nat.mod_lt _ (Nat.zero_lt_of_lt h.write_lt)

theorem Filled.payload_lt (h : t.Filled contents) (hi : i < t.numChunks) :
    (t.chunk i).payload.length < 2 ^ 32 := by
  have hsmall := h.small
  rw [h.payload i hi]
  omega

/-- Only the write chunk is replaced, and it stays the write chunk. -/
theorem Filled.store (h : t.Filled contents) (hholds : c.Holds rows)
    (hpayload : c.payload.length = t.current.payload.length) (hstate : c.state = t.current.state)
    (hgen : c.generation = t.current.generation) :
    (t.store t.writeChunk c).Filled (Function.update contents t.writeChunk rows) where
  write_lt := h.write_lt
  large := h.large
  small := h.small
  payload i hi := by
    by_cases hwrite : i = t.writeChunk
    · subst hwrite
      rw [store_chunk_self, hpayload]
      exact h.payload _ hi
    · rw [store_chunk_of_ne _ hwrite]
      exact h.payload i hi
  holds i hi := by
    by_cases hwrite : i = t.writeChunk
    · subst hwrite
      rw [store_chunk_self, Function.update_self]
      exact hholds
    · rw [store_chunk_of_ne _ hwrite, Function.update_of_ne hwrite]
      exact h.holds i hi
  writing i hi := by
    by_cases hwrite : i = t.writeChunk
    · subst hwrite
      rw [store_chunk_self, hstate]
      exact h.writing _ hi
    · rw [store_chunk_of_ne _ hwrite]
      exact h.writing i hi
  generation i hi := by
    by_cases hwrite : i = t.writeChunk
    · subst hwrite
      rw [store_chunk_self, hstate, hgen]
      exact h.generation _ hi
    · rw [store_chunk_of_ne _ hwrite]
      exact h.generation i hi
  untouched i hi hempty := by
    by_cases hwrite : i = t.writeChunk
    · subst hwrite
      rw [store_chunk_self, hstate, h.current_state] at hempty
      cases hempty
    · rw [store_chunk_of_ne _ hwrite] at hempty
      rw [Function.update_of_ne hwrite]
      exact h.untouched i hi hempty

theorem hasRoom_iff {n : ℕ} : t.hasRoom n = true ↔
    chunkHeaderSize + t.current.used + (4 + n) ≤ t.chunkSize :=
  decide_eq_true_iff

theorem Filled.room (h : t.Filled contents) {n : ℕ} (hroom : t.hasRoom n = true) :
    t.current.used + (4 + n) ≤ t.current.payload.length := by
  have hlen : t.current.payload.length = t.chunkSize - chunkHeaderSize := h.payload _ h.write_lt
  rw [hasRoom_iff] at hroom
  omega

/-- A row is added to the write chunk. -/
theorem Filled.appendData (h : t.Filled contents) (hroom : t.hasRoom data.length = true)
    (ts : Option Int64) :
    (t.appendData data ts).Filled
      (Function.update contents t.writeChunk (contents t.writeChunk ++ [data])) := by
  have hfits := h.room hroom
  have hholds : t.current.Holds (contents t.writeChunk) := h.holds _ h.write_lt
  refine h.store (hholds.publish hfits (h.payload_lt h.write_lt) ts) ?_ (Chunk.publish_state _ _ _)
    (Chunk.publish_generation _ _ _)
  rw [Chunk.publish_payload]
  apply splice_length
  rw [rowFrame_length]
  exact hfits

/-- Bytes are written after the length of a row that is not published. -/
def scribble (t : Table) (bytes : Bytes) : Table :=
  t.store t.writeChunk
    { t.current with payload := splice t.current.payload (t.current.used + 4) bytes }

@[simp] theorem scribble_nil (t : Table) : t.scribble [] = t := by
  unfold scribble store
  rw [splice_nil]
  change { t with chunk := Function.update t.chunk t.writeChunk t.current } = t
  rw [current, Function.update_eq_self]

theorem Filled.scribble (h : t.Filled contents)
    (hroom : data = [] ∨ t.current.used + 4 + data.length ≤ t.current.payload.length) :
    (t.scribble data).Filled contents := by
  rcases hroom with rfl | hroom
  · rw [scribble_nil]
    exact h
  · have hholds : t.current.Holds (contents t.writeChunk) := h.holds _ h.write_lt
    have hstore := h.store
      (c := { t.current with payload := splice t.current.payload (t.current.used + 4) data })
      (hholds.congr rfl rfl (take_splice_before (Nat.le_add_right _ _) hholds.used_le))
        (splice_length hroom) rfl rfl
    rwa [Function.update_eq_self] at hstore

/-- The next chunk loses its rows. -/
theorem Filled.advanced (h : t.Filled contents) :
    t.advanced.Filled (Function.update contents t.nextChunk []) where
  write_lt := by
    rw [advanced_numChunks]
    exact h.next_lt
  large := by
    rw [advanced_chunkSize]
    exact h.large
  small := by
    rw [advanced_chunkSize]
    exact h.small
  payload i hi := by
    rw [advanced_numChunks] at hi
    rw [advanced_chunkSize]
    by_cases hnext : i = t.nextChunk
    · subst hnext
      rw [advanced_chunk_next]
      exact h.payload _ hi
    · rw [advanced_chunk hnext]
      split_ifs <;> exact h.payload i hi
  holds i hi := by
    rw [advanced_numChunks] at hi
    by_cases hnext : i = t.nextChunk
    · subst hnext
      rw [Function.update_self, advanced_chunk_next]
      exact Chunk.recycle_holds _
    · rw [advanced_chunk hnext, Function.update_of_ne hnext]
      split_ifs
      · exact (h.holds i hi).congr rfl rfl rfl
      · exact h.holds i hi
  writing i hi := by
    rw [advanced_numChunks] at hi
    rw [advanced_writeChunk]
    by_cases hnext : i = t.nextChunk
    · subst hnext
      rw [advanced_chunk_next]
      exact ⟨fun _ => rfl, fun _ => rfl⟩
    · rw [advanced_chunk hnext]
      split_ifs with hwrite
      · exact ⟨fun hstate => (nomatch hstate), fun hi => absurd hi hnext⟩
      · exact ⟨fun hstate => absurd ((h.writing i hi).mp hstate) hwrite, fun hi => absurd hi hnext⟩
  generation i hi := by
    rw [advanced_numChunks] at hi
    by_cases hnext : i = t.nextChunk
    · subst hnext
      rw [advanced_chunk_next]
      exact ⟨fun hzero => absurd hzero (Nat.succ_ne_zero _), fun hempty => nomatch hempty⟩
    · rw [advanced_chunk hnext]
      split_ifs with hwrite
      · subst hwrite
        refine ⟨fun hzero => ?_, fun hempty => nomatch hempty⟩
        have hempty := (h.generation _ hi).mp hzero
        exact absurd (h.current_state.symm.trans hempty) (by decide)
      · exact h.generation i hi
  untouched i hi hempty := by
    rw [advanced_numChunks] at hi
    by_cases hnext : i = t.nextChunk
    · subst hnext
      rw [Function.update_self]
    · rw [advanced_chunk hnext] at hempty
      rw [Function.update_of_ne hnext]
      split_ifs at hempty
      exact h.untouched i hi hempty

/-- A fresh table holds nothing. -/
theorem init_filled {buf : Bytes} {cols : List (String × DType)} {chunkSize numChunks : UInt32}
    (h : initBuf buf cols chunkSize numChunks = .ok t) : t.Filled fun _ => [] := by
  unfold initBuf at h
  dsimp only at h
  split_ifs at h with hnum halign hcols hoff hlen hsize
  obtain rfl := Except.ok.inj h
  have hpos : 0 < numChunks.toNat :=
    Nat.pos_of_ne_zero fun hzero => hnum (UInt32.toNat_inj.mp hzero)
  refine ⟨hpos, by simpa using hsize, chunkSize.toNat_lt, fun i hi => ?_,
    fun i _ => ⟨rfl, ?_, rfl, ?_⟩, fun i _ => ?_, fun i _ => ?_, fun _ _ _ => rfl⟩
  · have hthere : (i + 1) * chunkSize.toNat ≤ numChunks.toNat * chunkSize.toNat :=
      Nat.mul_le_mul_right _ hi
    rw [Nat.add_one_mul] at hthere
    rw [Nat.mul_comm chunkSize.toNat] at hlen
    change (slice _ _ _).length = _
    rw [slice_length]
    apply Nat.min_eq_left
    omega
  · simp
  · simp
  · change (if i = 0 then ChunkState.Writing else .Empty) = .Writing ↔ i = 0
    split_ifs with hi <;> simp [hi]
  · change (if i = 0 then 1 else 0) = 0 ↔ (if i = 0 then ChunkState.Writing else .Empty) = .Empty
    split_ifs <;> simp

end Filled

end Table

end Probing.Memt
