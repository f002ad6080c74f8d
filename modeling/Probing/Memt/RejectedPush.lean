import Probing.Memt.WriterRun

/-!
# Rejected pushes

A push that does not fit the write chunk recycles the next chunk before it finds out
whether the row fits an empty one. If it does not, the rows of the recycled chunk are
given up for nothing.
-/

namespace Probing.Memt

open Probing.Core

namespace Table

/-- The rows of all chunks in logical order. -/
def readable (t : Table) : List Row := t.chunksLogical.flatMap t.rows

section Rows

variable {t t' : Table}

/-- Only chunks with rows are listed. -/
theorem mem_chunksLogical {i : ℕ} : i ∈ t.chunksLogical ↔
    i < t.numChunks ∧ (t.chunk i).generation ≠ 0 ∧ t.numRows i ≠ 0 := by
  simp only [chunksLogical, List.mem_map, List.mem_mergeSort, List.mem_filterMap, List.mem_range,
    Option.ite_none_left_eq_some, not_or, Option.some.injEq, Prod.exists, Prod.mk.injEq]
  constructor
  · rintro ⟨_, j, ⟨_, hj, ⟨hgen, hrows⟩, _, rfl⟩, rfl⟩
    exact ⟨hj, hgen, hrows⟩
  · rintro ⟨hi, hgen, hrows⟩
    exact ⟨_, i, ⟨i, hi, ⟨hgen, hrows⟩, rfl, rfl⟩, rfl⟩

/-- Tables with the same rows in the same generations are read alike. -/
theorem readable_congr (hnum : t'.numChunks = t.numChunks)
    (hcount : ∀ i < t.numChunks, t'.numRows i = t.numRows i)
    (hgen : ∀ i < t.numChunks, t.numRows i ≠ 0 → (t'.chunk i).generation = (t.chunk i).generation)
    (hrows : ∀ i < t.numChunks, t.numRows i ≠ 0 → t'.rows i = t.rows i) :
    t'.readable = t.readable := by
  have horder : t'.chunksLogical = t.chunksLogical := by
    unfold chunksLogical
    rw [hnum]
    have hlist : (List.range t.numChunks).filterMap (fun i =>
        if (t'.chunk i).generation = 0 ∨ t'.numRows i = 0 then none
        else some ((t'.chunk i).generation, i)) = (List.range t.numChunks).filterMap fun i =>
          if (t.chunk i).generation = 0 ∨ t.numRows i = 0 then none
          else some ((t.chunk i).generation, i) := by
      apply List.filterMap_congr
      intro i hi
      rw [List.mem_range] at hi
      rw [hcount i hi]
      by_cases hzero : t.numRows i = 0
      · rw [if_pos (Or.inr hzero), if_pos (Or.inr hzero)]
      · rw [hgen i hi hzero]
    rw [hlist]
  unfold readable
  rw [horder]
  apply List.flatMap_congr
  intro i hi
  obtain ⟨hlt, -, hzero⟩ := mem_chunksLogical.1 hi
  exact hrows i hlt hzero

/-- Recycling a chunk without rows changes nothing that can be read. -/
theorem readable_advanced {contents : ℕ → List Bytes} (h : t.Filled contents)
    (hempty : (t.chunk t.nextChunk).rowCount = 0) :
    t.advanced.readable = t.readable := by
  have hzero : t.numRows t.nextChunk = 0 := by
    unfold numRows
    rw [hempty]
    rfl
  have hsame (i : ℕ) : t.advanced.numRows i = t.numRows i ∧ (t.numRows i ≠ 0 →
      (t.advanced.chunk i).generation = (t.chunk i).generation ∧ t.advanced.rows i = t.rows i) := by
    by_cases hnext : i = t.nextChunk
    · subst hnext
      refine ⟨?_, fun hrows => absurd hzero hrows⟩
      rw [hzero]
      unfold numRows
      rw [advanced_chunk_next]
      rfl
    · have hchunk := advanced_chunk hnext
      unfold numRows rows dtypes
      rw [hchunk]
      simp only [advanced_numChunks, advanced_chunkSize, advanced_cols]
      by_cases hwrite : i = t.writeChunk
      · subst hwrite
        rw [if_pos rfl]
        have hstate : (t.chunk t.writeChunk).state = .Writing := h.current_state
        simp [hstate]
      · rw [if_neg hwrite]
        exact ⟨rfl, fun _ => ⟨rfl, rfl⟩⟩
  exact readable_congr advanced_numChunks (fun i _ => (hsame i).1)
    (fun i _ hrows => ((hsame i).2 hrows).1) fun i _ hrows => ((hsame i).2 hrows).2

end Rows

end Table

namespace MemTableWriter

variable {key : HashKey} {w : MemTableWriter} {values : List Value}

/-- The row fits an empty chunk. -/
def FitsEmpty (w : MemTableWriter) (values : List Value) : Prop :=
  (w.dedup.isSome → values.length ≤ maxDedupCols) ∧
    chunkHeaderSize + (4 + rowDataSize values) ≤ w.table.chunkSize

/-- The row fits after the rows of the write chunk. -/
def FitsNow (key : HashKey) (w : MemTableWriter) (values : List Value) : Prop :=
  (w.dedup.isSome → values.length ≤ maxDedupCols) ∧ w.fits key values = true

/-- The next chunk is not recycled for a row that fits no chunk. -/
def NoWaste (key : HashKey) (w : MemTableWriter) (pinned : Bool) (values : List Value) : Prop :=
  w.table.validateRowSchema values = false ∨ w.FitsNow key values ∨ pinned = true ∨
    w.FitsEmpty values ∨ (w.table.chunk w.table.nextChunk).rowCount = 0

theorem append_none : w.append key values = none ↔ ¬ w.FitsNow key values := by
  rw [append_eq]
  unfold FitsNow
  split_ifs with h
  · exact ⟨fun hnone => (nomatch hnone), fun hnot => absurd h hnot⟩
  · exact ⟨fun _ => h, fun _ => rfl⟩

/-- Nothing is remembered of an empty chunk. -/
theorem advanced_lookup (i : ℕ) (v : Value) : w.advanced.lookup key i v = none := by
  unfold lookup advanced
  cases v.varlen with
  | none => rfl
  | some data =>
      cases w.dedup with
      | none => rfl
      | some s => exact ite_self _

theorem advanced_append_none : w.advanced.append key values = none ↔ ¬ w.FitsEmpty values := by
  have hdedup : w.advanced.dedup.isSome = w.dedup.isSome := by
    unfold advanced
    cases w.dedup <;> rfl
  have hfits : w.advanced.fits key values = true ↔
      chunkHeaderSize + (4 + rowDataSize values) ≤ w.table.chunkSize := by
    unfold fits
    rw [Table.hasRoom_iff, fields_of_lookup_none advanced_lookup, ← rowDataSize_eq]
    unfold advanced
    rw [Table.advanced_current, Table.advanced_chunkSize]
    rfl
  rw [append_none]
  unfold FitsNow FitsEmpty
  rw [hdedup, hfits]

theorem count_added {a b : UInt32} : (if b > 0 then a + b else a) = a ↔ b = 0 := by
  constructor
  · intro h
    split_ifs at h with hpos
    · have hnat := congrArg UInt32.toNat h
      have ha := a.toNat_lt
      have hb := b.toNat_lt
      have hpos' : 0 < b.toNat := UInt32.lt_iff_toNat_lt.mp hpos
      rw [UInt32.toNat_add] at hnat
      omega
    · have hle := UInt32.not_lt.mp hpos
      exact UInt32.toNat_inj.mp (Nat.le_zero.mp (UInt32.le_iff_toNat_le.mp hle))
  · rintro rfl
    rfl

/-- A rejected push loses nothing exactly when it does not recycle a chunk for nothing. -/
theorem rejected_push_iff (h : Reachable key w) (pinned : Bool) (values : List Value) :
    ((w.tryPushRow key pinned values).1 ≠ .Written →
      (w.tryPushRow key pinned values).2.table.readable = w.table.readable ∧
        (w.tryPushRow key pinned values).2.table.rowsOverwritten = w.table.rowsOverwritten) ↔
      w.NoWaste key pinned values := by
  obtain ⟨contents, hsound⟩ := h.sound
  unfold NoWaste tryPushRow
  cases hschema : w.table.validateRowSchema values with
  | false => simp
  | true =>
      cases happend : w.append key values with
      | some w' =>
          have hfits : w.FitsNow key values := by
            by_contra hnot
            rw [append_none.2 hnot] at happend
            cases happend
          unfold tryPushInner
          rw [happend]
          simp [hfits]
      | none =>
          have hfits := append_none.1 happend
          rw [if_pos rfl, tryPushInner_none happend]
          cases pinned with
          | true =>
              constructor
              · intro _
                exact .inr (.inr (.inl rfl))
              · intro _ _
                exact ⟨rfl, rfl⟩
          | false =>
              rw [if_neg Bool.false_ne_true]
              cases hagain : w.advanced.append key values with
              | some w' =>
                  have hempty : w.FitsEmpty values := by
                    by_contra hnot
                    rw [advanced_append_none.2 hnot] at hagain
                    cases hagain
                  simp [hempty]
              | none =>
                  have hempty := advanced_append_none.1 hagain
                  have hcount : w.advanced.table.rowsOverwritten = w.table.rowsOverwritten ↔
                      (w.table.chunk w.table.nextChunk).rowCount = 0 := by
                    unfold advanced
                    rw [Table.advanced_rowsOverwritten, count_added]
                  constructor
                  · intro hsame
                    exact .inr
                      (.inr (.inr (.inr (hcount.mp (hsame fun hwritten => nomatch hwritten).2))))
                  · intro hwaste _
                    have hzero : (w.table.chunk w.table.nextChunk).rowCount = 0 := by
                      rcases hwaste with hbad | hbad | hbad | hbad | hzero
                      · cases hbad
                      · exact absurd hbad hfits
                      · cases hbad
                      · exact absurd hbad hempty
                      · exact hzero
                    exact ⟨Table.readable_advanced hsound.filled hzero, hcount.mpr hzero⟩

/-- One chunk that a single empty row fills. -/
def fullChunk : Except String MemTableWriter :=
  (init (List.replicate 496 0) [("payload", .Bytes)] 48 1 false).map fun w =>
    w.perform (fun _ _ => 0) (.appendRow [.Bytes []])

theorem fullChunk_reachable : ∃ w, fullChunk = .ok w ∧ Reachable (fun _ _ => 0) w := by
  cases hinit : init (List.replicate 496 0) [("payload", .Bytes)] 48 1 false with
  | error e =>
      have hok : (init (List.replicate 496 0) [("payload", .Bytes)] 48 1 false).isOk = true := by
        decide +kernel
      rw [hinit] at hok
      cases hok
  | ok fresh =>
      refine ⟨fresh.perform (fun _ _ => 0) (.appendRow [.Bytes []]), ?_, ?_⟩
      · unfold fullChunk
        rw [hinit]
        rfl
      · exact ⟨_, _, _, _, _, fresh, [.appendRow [.Bytes []]], hinit, rfl⟩

/-- The only chunk is full and pinned. -/
theorem rejected_push_fullChunk : ∃ w, fullChunk = .ok w ∧
    (w.tryPushRow (fun _ _ => 0) true [.Bytes []]).1 = .ReadersPinned ∧
      (w.tryPushRow (fun _ _ => 0) true [.Bytes []]).2.table.readable = w.table.readable ∧
        (w.tryPushRow (fun _ _ => 0) true [.Bytes []]).2.table.rowsOverwritten =
          w.table.rowsOverwritten := by
  obtain ⟨w, hw, hreach⟩ := fullChunk_reachable
  have hrun : (fullChunk.toOption.map fun w =>
      (w.tryPushRow (fun _ _ => 0) true [.Bytes []]).1) = some .ReadersPinned := by decide +kernel
  rw [hw] at hrun
  have houtcome : (w.tryPushRow (fun _ _ => 0) true [.Bytes []]).1 = .ReadersPinned :=
    Option.some.inj hrun
  exact ⟨w, hw, houtcome, (rejected_push_iff hreach true [.Bytes []]).mpr
    (.inr (.inr (.inl rfl))) (by rw [houtcome]; decide)⟩

/-- A row of five bytes does not fit any chunk, and the row that is there is lost. -/
theorem rejected_push_loses : ¬ ∀ (key : HashKey) (w : MemTableWriter), Reachable key w →
    ∀ (pinned : Bool) (values : List Value), (w.tryPushRow key pinned values).1 ≠ .Written →
      (w.tryPushRow key pinned values).2.table.readable = w.table.readable ∧
        (w.tryPushRow key pinned values).2.table.rowsOverwritten = w.table.rowsOverwritten := by
  intro hclaim
  obtain ⟨w, hw, hreach⟩ := fullChunk_reachable
  have hrun : (fullChunk.toOption.map fun w =>
      ((w.tryPushRow (fun _ _ => 0) false [.Bytes [1, 2, 3, 4, 5]]).1,
        w.table.rowsOverwritten,
        (w.tryPushRow (fun _ _ => 0) false [.Bytes [1, 2, 3, 4, 5]]).2.table.rowsOverwritten)) =
      some (.RowTooLarge, 0, 1) := by decide +kernel
  rw [hw] at hrun
  have hpush := Option.some.inj hrun
  simp only [Prod.mk.injEq] at hpush
  obtain ⟨houtcome, hbefore, hafter⟩ := hpush
  have hsame := (hclaim _ w hreach false [.Bytes [1, 2, 3, 4, 5]] (by rw [houtcome]; decide)).2
  rw [hbefore, hafter] at hsame
  exact absurd hsame (by decide)

end MemTableWriter

end Probing.Memt
