import Probing.Memt.Layout
import Probing.Memt.ReadBack

/-!
# The calls on a row writer

Fields may be put in any number, and `finish` may be called at any point before the
writer is dropped. The stores of the calls are followed byte by byte.
-/

namespace Probing.Memt

open Probing.Core

/-- What a caller does with a row writer before it is dropped. -/
inductive RowCall where
  | put (v : Value)
  | finish
  deriving DecidableEq

/-- A row writer, and whether `finish` has been called. -/
structure RowStream where
  row : RowWriter
  done : Bool

namespace RowWriter

/-- The stores of `note_row_ts`. -/
def tsStores (c : Chunk) (ts : Int64) : List Store :=
  (if ts < c.minTs then [⟨24, le ts⟩] else []) ++ if ts > c.maxTs then [⟨32, le ts⟩] else []

/-- The stores of a `finish` that publishes the row, at offsets into the chunk. -/
def finishStores (w : RowWriter) : List Store :=
  ⟨w.rowStart, le (UInt32.ofNat (w.pos - w.rowStart - 4))⟩ ::
    (w.pendingTs.elim [] (tsStores w.table.current) ++
      [⟨8, le (UInt32.ofNat (w.pos - chunkHeaderSize))⟩, ⟨12, le (w.table.current.rowCount + 1)⟩])

end RowWriter

namespace RowStream

def start (w : MemTableWriter) : RowStream := ⟨makeRowWriter w.table w.dedup, false⟩

def finish (s : RowStream) : Bool × RowStream :=
  if s.done then (false, s)
  else (s.row.finish.1, ⟨{ s.row with table := s.row.finish.2.1, dedup := s.row.finish.2.2 }, true⟩)

variable (key : HashKey)

/-- Only `finish` reports something. -/
def call (s : RowStream) : RowCall → Bool × RowStream
  | .put v => (false, { s with row := s.row.put key v })
  | .finish => s.finish

/-- The bytes that a call stores, at offsets into the chunk. -/
def stores (s : RowStream) : RowCall → List Store
  | .put v =>
      let bytes := field v (s.row.hit key v)
      if s.row.canWrite bytes.length then [⟨s.row.pos, bytes⟩] else []
  | .finish => if s.done || s.row.overflow then [] else s.row.finishStores

def run (s : RowStream) : List RowCall → RowStream
  | [] => s
  | c :: calls => run (s.call key c).2 calls

def runStores (s : RowStream) : List RowCall → List Store
  | [] => []
  | c :: calls => s.stores key c ++ runStores (s.call key c).2 calls

/-- A `finish` has reported that the row is published. -/
def published (s : RowStream) : List RowCall → Bool
  | [] => false
  | c :: calls => (s.call key c).1 || published (s.call key c).2 calls

/-- `Drop`. -/
def drop (s : RowStream) : Table × Option DedupState :=
  if s.done then (s.row.table, s.row.dedup) else s.row.drop

end RowStream

/-- The header of a chunk. -/
def Chunk.header (c : Chunk) : Layout.ChunkHeader :=
  ⟨UInt64.ofNat c.generation, UInt32.ofNat c.used, c.rowCount, Layout.stateTag c.state,
    0, c.minTs, c.maxTs⟩

/-- The bytes of a chunk. -/
def Chunk.bytes (c : Chunk) : Bytes := c.header.bytes ++ c.payload

section Bytes

variable {c : Chunk}

theorem header_bytes_length (h : Layout.ChunkHeader) : h.bytes.length = chunkHeaderSize := by
  unfold Layout.ChunkHeader.bytes
  simp only [List.length_append, le_length_u32, le_length_u64, le_length_i64]
  rfl

theorem splice_length_add (a b : Bytes) (k : ℕ) (bs : Bytes) :
    splice (a ++ b) (a.length + k) bs = a ++ splice b k bs := by
  unfold splice
  rw [List.take_length_add_append, Nat.add_assoc, List.drop_length_add_append, List.append_assoc,
    List.append_assoc, List.append_assoc]

/-- A word of the header is replaced. -/
theorem splice_word {α : Type} [LeWord α] {off : ℕ} {a : Bytes} (ha : a.length = off)
    (old new : α) (b : Bytes) :
    splice (a ++ (le old ++ b)) off (le new) = a ++ (le new ++ b) := by
  have hword : (le new).length = (le old).length := by rw [le_length, le_length]
  have hself := splice_length_add a (le old ++ b) 0 (le new)
  rwa [Nat.add_zero, ha, splice_zero_append hword] at hself

/-- Bytes past the header are stored in the payload. -/
theorem store_payload {off : ℕ} (hoff : chunkHeaderSize ≤ off) (bs : Bytes) :
    splice c.bytes off bs = Chunk.bytes
    { c with payload := splice c.payload (off - chunkHeaderSize) bs } := by
  have hsplit : off = c.header.bytes.length + (off - chunkHeaderSize) := by
    rw [header_bytes_length]
    omega
  nth_rewrite 1 [hsplit]
  unfold Chunk.bytes
  rw [splice_length_add]
  rfl

/-- A field of the header is stored at the length of the fields before it. -/
theorem store_field {α : Type} [LeWord α] {c' : Chunk} {off : ℕ} {old new : α} (a b : Bytes)
    (ha : a.length = off)
    (hold : c.bytes = a ++ (le old ++ b)) (hnew : c'.bytes = a ++ (le new ++ b)) :
    splice c.bytes off (le new) = c'.bytes := by
  rw [hold, hnew]
  exact splice_word ha old new b

theorem store_used (used : ℕ) :
    splice c.bytes 8 (le (UInt32.ofNat used)) = Chunk.bytes { c with used := used } := by
  apply store_field (le c.header.generation) _ (le_length_u64 _)
  · simp only [Chunk.bytes, Layout.ChunkHeader.bytes, List.append_assoc]
    rfl
  · simp only [Chunk.bytes, Layout.ChunkHeader.bytes, List.append_assoc]
    rfl

theorem store_rowCount (n : UInt32) :
    splice c.bytes 12 (le n) = Chunk.bytes { c with rowCount := n } := by
  apply store_field (le c.header.generation ++ le c.header.used)
  · simp only [List.length_append, le_length_u64, le_length_u32]
  · simp only [Chunk.bytes, Layout.ChunkHeader.bytes, List.append_assoc]
    rfl
  · simp only [Chunk.bytes, Layout.ChunkHeader.bytes, List.append_assoc]
    rfl

theorem store_minTs (ts : Int64) :
    splice c.bytes 24 (le ts) = Chunk.bytes { c with minTs := ts } := by
  apply store_field
    (le c.header.generation ++ (le c.header.used ++ (le c.header.rowCount ++ (le c.header.state ++
    le c.header.reserved))))
  · simp only [List.length_append, le_length_u64, le_length_u32]
  · simp only [Chunk.bytes, Layout.ChunkHeader.bytes, List.append_assoc]
    rfl
  · simp only [Chunk.bytes, Layout.ChunkHeader.bytes, List.append_assoc]
    rfl

theorem store_maxTs (ts : Int64) :
    splice c.bytes 32 (le ts) = Chunk.bytes { c with maxTs := ts } := by
  apply store_field
    (le c.header.generation ++ (le c.header.used ++ (le c.header.rowCount ++ (le c.header.state ++
    (le c.header.reserved ++ le c.header.minTs)))))
  · simp only [List.length_append, le_length_u64, le_length_u32, le_length_i64]
  · simp only [Chunk.bytes, Layout.ChunkHeader.bytes, List.append_assoc]
    rfl
  · simp only [Chunk.bytes, Layout.ChunkHeader.bytes, List.append_assoc]
    rfl

/-- The stores of a timestamp. -/
theorem store_ts (c : Chunk) (ts : Int64) :
    storeAll c.bytes (RowWriter.tsStores c ts) = (c.noteRowTs ts).bytes := by
  unfold RowWriter.tsStores Chunk.noteRowTs
  by_cases hmin : ts < c.minTs
  · by_cases hmax : ts > c.maxTs
    · simp only [if_pos hmin, if_pos hmax, storeAll_append, storeAll_cons,
        storeAll_nil, store_minTs]
      exact store_maxTs ts
    · simp only [if_pos hmin, if_neg hmax, storeAll_append, storeAll_cons,
        storeAll_nil, store_minTs]
  · by_cases hmax : ts > c.maxTs
    · simp only [if_neg hmin, if_pos hmax, storeAll_append, storeAll_cons,
        storeAll_nil, store_maxTs]
    · simp only [if_neg hmin, if_neg hmax, storeAll_append, storeAll_nil]

/-- The stores that publish a row. -/
theorem store_publish (c : Chunk) (ts : Option Int64) (used : ℕ) :
    storeAll c.bytes (ts.elim [] (RowWriter.tsStores c) ++
      [⟨8, le (UInt32.ofNat used)⟩, ⟨12, le (c.rowCount + 1)⟩]) = (c.publish ts used).bytes := by
  have hnoted : storeAll c.bytes (ts.elim [] (RowWriter.tsStores c)) =
      (ts.elim c c.noteRowTs).bytes := by
    cases ts with
    | none => rfl
    | some ts => exact store_ts c ts
  rw [storeAll_append, hnoted, storeAll_cons, store_used, storeAll_cons, store_rowCount]
  cases ts <;> rfl

end Bytes

namespace RowStream

variable {key : HashKey} {s : RowStream} {size : ℕ}

/-- The writer is past the length of its row. -/
structure Anchored (size : ℕ) (s : RowStream) : Prop where
  chunkSize : s.row.table.chunkSize = size
  header : chunkHeaderSize ≤ s.row.rowStart
  past_length : s.row.rowStart + 4 ≤ s.row.pos

/-- What the row has written lies in the chunk. -/
structure Inside (size : ℕ) (s : RowStream) : Prop where
  anchored : s.Anchored size
  inside : s.row.overflow = true ∨ s.row.pos ≤ size

theorem start_anchored (w : MemTableWriter) : (start w).Anchored w.table.chunkSize :=
  ⟨rfl, Nat.le_add_right _ _, le_refl _⟩

/-- The length of the row fits. -/
theorem start_inside {w : MemTableWriter} (h : w.table.hasRoom 0 = true) :
    (start w).Inside w.table.chunkSize :=
  ⟨start_anchored w, .inr (Table.hasRoom_iff.mp h)⟩

/-- A column that is put lies in the chunk, also where the length of the row was not checked. -/
theorem Anchored.put (h : s.Anchored size) (v : Value) : (s.call key (.put v)).2.Inside size := by
  unfold call
  dsimp only
  cases hcan : s.row.canWrite (field v (s.row.hit key v)).length with
  | true =>
      have hle := RowWriter.canWrite_le hcan
      rw [h.chunkSize] at hle
      rw [RowWriter.put_fits hcan]
      exact ⟨⟨h.chunkSize, h.header, h.past_length.trans (Nat.le_add_right _ _)⟩, .inr hle⟩
  | false =>
      rw [RowWriter.put_overflows hcan]
      exact ⟨⟨h.chunkSize, h.header, h.past_length⟩, .inl rfl⟩

theorem Anchored.put_within (h : s.Anchored size) (v : Value) : ∀ st ∈ s.stores key (.put v),
    st.Within 0 size := by
  unfold stores
  dsimp only
  cases hcan : s.row.canWrite (field v (s.row.hit key v)).length with
  | true =>
      have hle := RowWriter.canWrite_le hcan
      rw [h.chunkSize] at hle
      rw [if_pos rfl]
      intro st hst
      rw [List.mem_singleton.mp hst]
      exact ⟨Nat.zero_le _, hle⟩
  | false =>
      rw [if_neg Bool.false_ne_true]
      exact fun st hst => (nomatch hst)

/-- A `finish` writes no field. -/
theorem finish_row (s : RowStream) : s.finish.2.row.rowStart = s.row.rowStart ∧
    s.finish.2.row.pos = s.row.pos ∧ s.finish.2.row.overflow = s.row.overflow ∧
    s.finish.2.row.table.chunkSize = s.row.table.chunkSize := by
  have hsize : s.row.finish.2.1.chunkSize = s.row.table.chunkSize := by
    unfold RowWriter.finish
    split_ifs <;> rfl
  unfold finish
  split_ifs
  · exact ⟨rfl, rfl, rfl, rfl⟩
  · exact ⟨rfl, rfl, rfl, hsize⟩

theorem Anchored.call (h : s.Anchored size) (c : RowCall) : (s.call key c).2.Anchored size := by
  cases c with
  | put v => exact (h.put v).anchored
  | finish =>
      obtain ⟨hstart, hpos, -, hsize⟩ := finish_row s
      exact ⟨hsize.trans h.chunkSize, hstart ▸ h.header, hstart ▸ hpos ▸ h.past_length⟩

theorem Inside.call (h : s.Inside size) (c : RowCall) : (s.call key c).2.Inside size := by
  cases c with
  | put v => exact h.anchored.put v
  | finish =>
      obtain ⟨-, hpos, hover, -⟩ := finish_row s
      exact ⟨h.anchored.call .finish, hpos ▸ hover ▸ h.inside⟩

/-- The header words that a published row moves. -/
theorem mem_finishStores {w : RowWriter} {st : Store} (h : st ∈ w.finishStores) :
    st = ⟨w.rowStart, le (UInt32.ofNat (w.pos - w.rowStart - 4))⟩ ∨ st.fin ≤ chunkHeaderSize := by
  rcases List.mem_cons.mp h with rfl | h
  · exact .inl rfl
  right
  rcases List.mem_append.mp h with hts | hword
  · cases hp : w.pendingTs with
    | none =>
        rw [hp] at hts
        cases hts
    | some ts =>
        rw [hp] at hts
        rcases List.mem_append.mp hts with hmin | hmax
        · split_ifs at hmin
          · rw [List.mem_singleton.mp hmin, Store.fin, le_length_i64]
            dsimp only
            decide
          · cases hmin
        · split_ifs at hmax
          · rw [List.mem_singleton.mp hmax, Store.fin, le_length_i64]
            dsimp only
            decide
          · cases hmax
  · rcases List.mem_cons.mp hword with rfl | hcount
    · rw [Store.fin, le_length_u32]
      dsimp only
      decide
    · rw [List.mem_singleton.mp hcount, Store.fin, le_length_u32]
      dsimp only
      decide

theorem Inside.within (h : s.Inside size) (hsize : chunkHeaderSize ≤ size) (c : RowCall) :
    ∀ st ∈ s.stores key c, st.Within 0 size := by
  cases c with
  | put v => exact h.anchored.put_within v
  | finish =>
      intro st hst
      unfold stores at hst
      dsimp only at hst
      split_ifs at hst with hdone
      · cases hst
      · rcases mem_finishStores hst with rfl | hfin
        · have hopen : s.row.overflow ≠ true := fun hover => hdone (by rw [hover, Bool.or_true])
          have hpos := h.inside.resolve_left hopen
          have hlength := h.anchored.past_length
          refine ⟨Nat.zero_le _, ?_⟩
          rw [Store.fin, le_length_u32]
          dsimp only
          omega
        · exact ⟨Nat.zero_le _, hfin.trans hsize⟩

/-- No call leaves the chunk once the row is in it. -/
theorem Inside.run_within (h : s.Inside size) (hsize : chunkHeaderSize ≤ size)
    (calls : List RowCall) :
    ∀ st ∈ s.runStores key calls, st.Within 0 size := by
  induction calls generalizing s with
  | nil => exact fun st hst => (nomatch hst)
  | cons c calls ih =>
      intro st hst
      rcases List.mem_append.mp hst with hfirst | hrest
      · exact h.within hsize c st hfirst
      · exact ih (h.call c) st hrest

/-- Only a `finish` before every column needs the room for the length of the row. -/
theorem start_within {w : MemTableWriter} (hsize : chunkHeaderSize ≤ w.table.chunkSize)
    {calls : List RowCall} (hroom : calls.head? = some .finish → w.table.hasRoom 0 = true) :
    ∀ st ∈ (start w).runStores key calls, st.Within 0 w.table.chunkSize := by
  cases calls with
  | nil => exact fun st hst => (nomatch hst)
  | cons c calls =>
      cases c with
      | finish => exact (start_inside (hroom rfl)).run_within hsize _
      | put v =>
          intro st hst
          rcases List.mem_append.mp hst with hfirst | hrest
          · exact (start_anchored w).put_within v st hfirst
          · exact ((start_anchored w).put v).run_within hsize calls st hrest

/-- A `finish` before every column stores the length of the row, which leaves a full chunk. -/
theorem start_within_iff {w : MemTableWriter} (hsize : chunkHeaderSize ≤ w.table.chunkSize)
    {calls : List RowCall} :
    (∀ st ∈ (start w).runStores key calls, st.Within 0 w.table.chunkSize) ↔
      (calls.head? = some .finish → w.table.hasRoom 0 = true) := by
  refine ⟨fun hwithin hhead => ?_, start_within hsize⟩
  obtain ⟨rest, rfl⟩ : ∃ rest, calls = .finish :: rest := by
    cases calls with
    | nil => cases hhead
    | cons c rest => exact ⟨rest, by rw [Option.some.inj hhead]⟩
  have hlength :
    ⟨(start w).row.rowStart, le (UInt32.ofNat ((start w).row.pos - (start w).row.rowStart - 4))⟩ ∈
      (start w).runStores key (.finish :: rest) :=
    List.mem_append_left _ (List.mem_cons_self ..)
  have hfin := (hwithin _ hlength).2
  rw [Store.fin, le_length_u32] at hfin
  exact Table.hasRoom_iff.mpr hfin

/-- The stores of a call make the chunk what the call makes it. -/
theorem Anchored.call_bytes (h : s.Anchored size) (c : RowCall) :
    storeAll s.row.table.current.bytes
    (s.stores key c) = (s.call key c).2.row.table.current.bytes := by
  cases c with
  | put v =>
      unfold stores RowStream.call
      dsimp only
      cases hcan : s.row.canWrite (field v (s.row.hit key v)).length with
      | true =>
          have hpos : chunkHeaderSize ≤ s.row.pos := by
            have hheader := h.header
            have hlength := h.past_length
            omega
          rw [if_pos rfl, RowWriter.put_fits hcan, storeAll_cons, storeAll_nil, store_payload hpos]
          unfold RowWriter.putBytesAt
          dsimp only
          rw [Table.store_current]
      | false =>
          rw [if_neg Bool.false_ne_true, RowWriter.put_overflows hcan]
          rfl
  | finish =>
      by_cases hdone : s.done = true
      · have hstores : s.stores key .finish = [] := if_pos (by rw [hdone, Bool.true_or])
        have hcall : (s.call key .finish).2 = s := congrArg Prod.snd (if_pos hdone)
        rw [hstores, hcall, storeAll_nil]
      have hcall : (s.call key .finish).2.row.table = s.row.finish.2.1 :=
        congrArg (fun r : Bool × RowStream => r.2.row.table) (if_neg hdone)
      by_cases hover : s.row.overflow = true
      · have hstores : s.stores key .finish = [] := if_pos (by rw [hover, Bool.or_true])
        have hfinish : s.row.finish.2.1 = s.row.table :=
          congrArg (fun r : Bool × Table × Option DedupState => r.2.1) (if_pos hover)
        rw [hstores, hcall, hfinish, storeAll_nil]
      · have hstores : s.stores key .finish = s.row.finishStores :=
          if_neg
            (by rw [Bool.eq_false_of_not_eq_true hdone, Bool.eq_false_of_not_eq_true hover]; decide)
        let framed :=
          s.row.putBytesAt s.row.rowStart (le (UInt32.ofNat (s.row.pos - s.row.rowStart - 4)))
        have hfinish : s.row.finish.2.1 = framed.store framed.writeChunk
            (framed.current.publish s.row.pendingTs (s.row.pos - chunkHeaderSize)) :=
          congrArg (fun r : Bool × Table × Option DedupState => r.2.1) (if_neg hover)
        have hframed : framed.current = { s.row.table.current with
            payload := splice s.row.table.current.payload (s.row.rowStart - chunkHeaderSize)
              (le (UInt32.ofNat (s.row.pos - s.row.rowStart - 4))) } := Table.store_current _
        rw [hstores, hcall, hfinish, Table.store_current, RowWriter.finishStores, storeAll_cons,
          store_payload h.header, hframed]
        exact store_publish _ _ _

/-- The stores of the calls make the chunk what the calls make it. -/
theorem Anchored.run_bytes (h : s.Anchored size) (calls : List RowCall) :
    storeAll s.row.table.current.bytes
    (s.runStores key calls) = (s.run key calls).row.table.current.bytes := by
  induction calls generalizing s with
  | nil => rfl
  | cons c calls ih =>
      calc
        storeAll s.row.table.current.bytes (s.runStores key (c :: calls))
            = storeAll (s.call key c).2.row.table.current.bytes
                ((s.call key c).2.runStores key calls) := by
          rw [runStores, storeAll_append, h.call_bytes]
        _ = (s.run key (c :: calls)).row.table.current.bytes := ih (h.call c)

end RowStream

end Probing.Memt
