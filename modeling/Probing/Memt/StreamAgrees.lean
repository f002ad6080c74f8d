import Probing.Memt.RowStream

/-!
# Streamed rows against batch rows

A row that is put column by column and finished is the row of a batch write. A row that
is not finished, or that runs out of room, publishes nothing; it may leave bytes past
the published ones.
-/

namespace Probing.Memt

open Probing.Core

/-- What readers see of two tables is the same. -/
structure Table.SamePublished (t t' : Table) : Prop where
  header : { t' with chunk := t.chunk } = t
  others : ∀ i ≠ t.writeChunk, t'.chunk i = t.chunk i
  used : t'.current.used = t.current.used
  rowCount : t'.current.rowCount = t.current.rowCount
  minTs : t'.current.minTs = t.current.minTs
  maxTs : t'.current.maxTs = t.current.maxTs
  published : t'.current.payload.take t.current.used = t.current.payload.take t.current.used
  rows : ∀ i, (t'.rows i).map Row.data = (t.rows i).map Row.data

theorem Table.SamePublished.refl (t : Table) : t.SamePublished t :=
  ⟨rfl, fun _ _ => rfl, rfl, rfl, rfl, rfl, rfl, fun _ => rfl⟩

section Scribble

variable {t : Table} {contents : ℕ → List Bytes} {data : Bytes}

/-- The data of the rows is what the chunks hold. -/
theorem Table.Filled.rows_data (h : t.Filled contents) (i : ℕ) :
    (t.rows i).map Row.data = if i < t.numChunks then contents i else [] := by
  by_cases hi : i < t.numChunks
  · rw [h.rows_eq hi, if_pos hi, List.map_map]
    exact List.map_id _
  · rw [if_neg hi]
    have hnone : t.rows i = [] := if_pos (.inl (Nat.le_of_not_lt hi))
    rw [hnone, List.map_nil]

/-- Bytes past the published ones are not seen. -/
theorem Table.Filled.scribble_unseen (h : t.Filled contents)
    (hroom : data = [] ∨ t.current.used + 4 + data.length ≤ t.current.payload.length) :
    t.SamePublished (t.scribble data) := by
  have hscribbled := h.scribble hroom
  have hholds : t.current.Holds (contents t.writeChunk) := h.holds _ h.write_lt
  have hcurrent : (t.scribble data).current =
      { t.current with payload := splice t.current.payload (t.current.used + 4) data } :=
    store_current _
  refine ⟨rfl, fun i hi => store_chunk_of_ne _ hi, ?_, ?_, ?_, ?_, ?_, fun i => ?_⟩
  · rw [hcurrent]
  · rw [hcurrent]
  · rw [hcurrent]
  · rw [hcurrent]
  · rw [hcurrent]
    exact take_splice_before (Nat.le_add_right _ _) hholds.used_le
  · rw [hscribbled.rows_data, h.rows_data]
    rfl

end Scribble

open MemTableWriter in
/-- No `finish` has published the row. -/
inductive RowStream.Unfinished (key : HashKey) (w : MemTableWriter) (s : RowStream) : Prop
  | streamed {values : List Value} (hopen : s.done = false) (h : Streamed key w values s.row)
  | overflowed (h : Overflowed w s.row) (hdone : s.done = true → s.row.dedup = w.dedup)

namespace RowStream

variable {key : HashKey} {w : MemTableWriter} {contents : ℕ → List Bytes} {s : RowStream}

theorem start_unfinished (w : MemTableWriter) : (start w).Unfinished key w :=
  .streamed rfl (MemTableWriter.start_streamed w)

/-- A call that publishes nothing leaves the row unfinished. -/
theorem Unfinished.call (h : s.Unfinished key w) (hsound : w.Sound contents) {c : RowCall}
    (hquiet : (s.call key c).1 = false) : (s.call key c).2.Unfinished key w := by
  cases h with
  | streamed hopen hstream =>
      cases c with
      | put v =>
          cases hcan : s.row.canWrite (field v (s.row.hit key v)).length with
          | true => exact .streamed hopen (hstream.put_fits hsound hcan)
          | false => exact .overflowed (hstream.put_overflows hsound hcan) fun hdone =>
              nomatch hopen.symm.trans hdone
      | finish =>
          have hcall : (s.call key .finish).1 = s.row.finish.1 :=
            congrArg Prod.fst (if_neg (by rw [hopen]; decide))
          have hfinish : s.row.finish.1 = true :=
            congrArg Prod.fst (if_neg (by rw [hstream.overflow]; decide))
          exact nomatch hquiet.symm.trans (hcall.trans hfinish)
  | overflowed hover hdone =>
      cases c with
      | put v =>
          refine .overflowed (hover.put v) fun h => ?_
          have hcan : s.row.canWrite (field v (s.row.hit key v)).length = false := by
            unfold RowWriter.canWrite
            rw [hover.overflow, Bool.not_true, Bool.false_and]
          change (s.row.put key v).dedup = w.dedup
          rw [RowWriter.put_overflows hcan]
          exact hdone h
      | finish =>
          by_cases hd : s.done = true
          · have hcall : s.call key .finish = (false, s) := if_pos hd
            rw [hcall]
            exact .overflowed hover hdone
          · have hcall : (s.call key .finish).2 = ⟨{ s.row with
                table := s.row.finish.2.1, dedup := s.row.finish.2.2 }, true⟩ :=
              congrArg Prod.snd (if_neg hd)
            have hfinish : s.row.finish =
                (false, s.row.table, s.row.dedup.map DedupState.rollbackRow) :=
              if_pos hover.overflow
            rw [hcall, hfinish]
            have hdedup := hover.dedup.trans hsound.rollback_self
            refine .overflowed ⟨hover.overflow, hover.table, ?_⟩ fun _ => hdedup
            dsimp only
            rw [hdedup]

theorem Unfinished.run (h : s.Unfinished key w) (hsound : w.Sound contents) {calls : List RowCall}
    (hquiet : s.published key calls = false) : (s.run key calls).Unfinished key w := by
  induction calls generalizing s with
  | nil => exact h
  | cons c calls ih =>
      have hboth : (s.call key c).1 = false ∧ (s.call key c).2.published key calls = false :=
        Bool.or_eq_false_iff.mp hquiet
      exact ih (h.call hsound hboth.1) hboth.2

theorem run_append (s : RowStream) (calls more : List RowCall) :
    s.run key (calls ++ more) = (s.run key calls).run key more := by
  induction calls generalizing s with
  | nil => rfl
  | cons c calls ih => exact ih _

theorem published_append (s : RowStream) (calls more : List RowCall) :
    s.published key
    (calls ++ more) = (s.published key calls || (s.run key calls).published key more) := by
  induction calls generalizing s with
  | nil => rfl
  | cons c calls ih =>
      rw [List.cons_append, published, published, ih, Bool.or_assoc]
      rfl

theorem run_puts (s : RowStream) (values : List Value) :
    s.run key
    (values.map .put) = { s with row := values.foldl (fun rw v => rw.put key v) s.row } := by
  induction values generalizing s with
  | nil => rfl
  | cons v values ih => exact ih _

theorem published_puts (s : RowStream) (values : List Value) :
    s.published key (values.map .put) = false := by
  induction values generalizing s with
  | nil => rfl
  | cons v values ih => exact ih _

/-- A row that is dropped unfinished leaves at most bytes past the published ones. -/
theorem Unfinished.drop (h : s.Unfinished key w) (hsound : w.Sound contents) :
    w.table.SamePublished s.drop.1 ∧ s.drop.2 = w.dedup := by
  cases h with
  | streamed hopen hstream =>
      have hdrop : s.drop = s.row.drop := if_neg (by rw [hopen]; decide)
      rw [hdrop, RowWriter.drop, hstream.table]
      exact ⟨hsound.filled.scribble_unseen (hstream.within_payload hsound), hstream.rollback hsound⟩
  | overflowed hover hdone =>
      obtain ⟨data, htable, hroom⟩ := hover.table
      have hsame := hsound.filled.scribble_unseen hroom
      by_cases hd : s.done = true
      · have hdrop : s.drop = (s.row.table, s.row.dedup) := if_pos hd
        rw [hdrop, htable]
        exact ⟨hsame, hdone hd⟩
      · have hdrop : s.drop = s.row.drop := if_neg hd
        rw [hdrop, RowWriter.drop, htable]
        exact ⟨hsame, hover.dedup.trans hsound.rollback_self⟩

end RowStream

namespace MemTableWriter

variable {key : HashKey} {w : MemTableWriter} {contents : ℕ → List Bytes} {values : List Value}

/-- A row that fits is streamed to its end. -/
theorem Sound.streams_of_fits (h : w.Sound contents) (hfits : w.fits key values = true) :
    Streamed key w values
    (values.foldl (fun rw v => rw.put key v) (makeRowWriter w.table w.dedup)) := by
  rcases h.streams values with hstream | ⟨stored, hstop⟩
  · exact hstream
  · obtain ⟨v, rest, rfl, hover⟩ := hstop.leading
    exact absurd (fits_of_initial ⟨rest, by simp⟩ hfits) hover

/-- A finished row writer has published the row if it fits. -/
theorem Sound.rowWriter_fits (h : w.Sound contents) (hfits : w.fits key values = true) :
    w.rowWriter key values true = (true, w.stored key values) := by
  unfold rowWriter
  rw [if_pos rfl, (h.streams_of_fits hfits).finish_eq h hfits]

/-- A streamed row as calls. -/
theorem rowWriter_eq_run (values : List Value) : w.rowWriter key values true =
    ((RowStream.start w).published key (values.map RowCall.put ++ [RowCall.finish]),
      ⟨((RowStream.start w).run key (values.map RowCall.put ++ [RowCall.finish])).drop.1,
        ((RowStream.start w).run key (values.map RowCall.put ++ [RowCall.finish])).drop.2⟩) := by
  rw [RowStream.run_append, RowStream.published_append, RowStream.run_puts,
    RowStream.published_puts, Bool.false_or, RowStream.published,
    RowStream.published, Bool.or_false]
  rfl

/-- A finished row writer that ran out of room leaves the columns that fitted. -/
theorem Sound.rowWriter_stopped (h : w.Sound contents) {stored : List Value}
    (hstop : Stopped key w stored values
      (values.foldl (fun rw v => rw.put key v) (makeRowWriter w.table w.dedup))) :
    w.rowWriter key values true =
      (false, ⟨w.table.scribble (fieldsData (w.fields key stored)), w.dedup⟩) := by
  have hdedup := hstop.overflowed.dedup.trans h.rollback_self
  unfold rowWriter RowWriter.finish
  rw [if_pos rfl, if_pos hstop.overflowed.overflow, hstop.table, hdedup]

/-- A row that does not fit is reported, and not published. -/
theorem Sound.rowWriter_overflows (h : w.Sound contents)
    (hroom : values = [] → w.table.hasRoom 0 = true)
    (hfits : ¬ w.fits key values = true) : (w.rowWriter key values true).1 = false ∧
      w.table.SamePublished (w.rowWriter key values true).2.table ∧
        (w.rowWriter key values true).2.dedup = w.dedup := by
  have hfailed : (w.rowWriter key values true).1 = false := by
    rcases h.streams values with hstream | ⟨stored, hstop⟩
    · exact absurd (hstream.fits hroom) hfits
    · rw [h.rowWriter_stopped hstop]
  have hrun := @rowWriter_eq_run key w values
  rw [hrun] at hfailed
  have hdrop := ((RowStream.start_unfinished w).run h hfailed).drop h
  rw [hrun]
  exact ⟨hfailed, hdrop.1, hdrop.2⟩

/-- A batch write of a row with the columns of the table. -/
theorem appendRow_eq (hschema : w.table.validateRowSchema values = true) : w.appendRow key values =
    if (w.dedup.isSome → values.length ≤ maxDedupCols) ∧ w.fits key values then
      (true, w.stored key values)
    else (false, w) := by
  unfold appendRow
  rw [if_pos hschema, append_eq]
  by_cases hfits : (w.dedup.isSome → values.length ≤ maxDedupCols) ∧ w.fits key values
  · rw [if_pos hfits, if_pos hfits]
  · rw [if_neg hfits, if_neg hfits]

/-- Where a batch write is not limited in columns, a streamed row has its outcome. -/
theorem Sound.rowWriter_matches (h : w.Sound contents)
    (hschema : w.table.validateRowSchema values = true)
    (hcols : w.dedup.isSome → values.length ≤ maxDedupCols)
    (hroom : values = [] → w.table.hasRoom 0 = true) :
    (w.rowWriter key values true).1 = (w.appendRow key values).1 ∧
      (w.rowWriter key values true).2.dedup = (w.appendRow key values).2.dedup ∧
      ((w.appendRow key values).1 = true → (w.rowWriter key values true).2 =
        (w.appendRow key values).2) ∧
      (w.appendRow key values).2.table.SamePublished (w.rowWriter key values true).2.table := by
  rw [appendRow_eq hschema]
  by_cases hfits : w.fits key values = true
  · rw [if_pos ⟨hcols, hfits⟩, h.rowWriter_fits hfits]
    exact ⟨rfl, rfl, fun _ => rfl, .refl _⟩
  · obtain ⟨hfailed, hsame, hdedup⟩ := h.rowWriter_overflows hroom hfits
    rw [if_neg fun hboth => hfits hboth.2]
    exact ⟨hfailed, hdedup, fun htrue => (nomatch htrue), hsame⟩

/-- With more columns than a deduplicated batch write takes, the row is still streamed. -/
theorem Sound.rowWriter_wide (h : w.Sound contents)
    (hschema : w.table.validateRowSchema values = true)
    (hdedup : w.dedup.isSome) (hcols : maxDedupCols < values.length) :
    w.appendRow key values = (false, w) ∧
      ((w.rowWriter key values true).1 = true ↔ w.fits key values = true) := by
  have hwide : ¬ ((w.dedup.isSome → values.length ≤ maxDedupCols) ∧ w.fits key values) :=
    fun hboth => absurd (hboth.1 hdedup) (Nat.not_le_of_lt hcols)
  rw [appendRow_eq hschema, if_neg hwide]
  refine ⟨rfl, fun hdone => by_contra fun hfits => ?_, fun hfits => ?_⟩
  · have hroom : values = [] → w.table.hasRoom 0 = true := fun hnil => by
      rw [hnil] at hcols
      exact absurd hcols (Nat.not_lt_zero _)
    exact absurd hdone (by rw [(h.rowWriter_overflows hroom hfits).1]; exact Bool.false_ne_true)
  · rw [h.rowWriter_fits hfits]

/-- The leading columns that fit are in the chunk already, behind the published bytes. -/
def AlreadyThere (key : HashKey) (w : MemTableWriter) (values : List Value) : Prop :=
  ∃ stored v rest, values = stored ++ v :: rest ∧ (stored = [] ∨ w.fits key stored = true) ∧
    ¬ w.fits key (stored ++ [v]) = true ∧
    fieldsData (w.fields key stored) <+: w.table.current.payload.drop (w.table.current.used + 4)

/-- The columns before the first one without room are the only ones of a row. -/
theorem leading_unique {stored stored' rest rest' : List Value} {v v' : Value}
    (heq : stored ++ v :: rest = stored' ++ v' :: rest')
    (hfitted : stored = [] ∨ w.fits key stored = true)
    (hover : ¬ w.fits key (stored ++ [v]) = true)
    (hfitted' : stored' = [] ∨ w.fits key stored' = true)
    (hover' : ¬ w.fits key (stored' ++ [v']) = true) : stored = stored' := by
  rcases List.append_eq_append_iff.mp heq with ⟨more, rfl, hrest⟩ | ⟨more, rfl, hrest⟩
  · cases more with
    | nil => rw [List.append_nil]
    | cons u more =>
        obtain ⟨rfl, -⟩ := List.cons.inj hrest
        have hfits := hfitted'.resolve_left (by simp)
        exact absurd (fits_of_initial ⟨more, by simp⟩ hfits) hover
  · cases more with
    | nil => rw [List.append_nil]
    | cons u more =>
        obtain ⟨rfl, -⟩ := List.cons.inj hrest
        have hfits := hfitted.resolve_left (by simp)
        exact absurd (fits_of_initial ⟨more, by simp⟩ hfits) hover'

/-- Columns that are put change nothing where their bytes are already. -/
theorem scribble_eq_iff {t : Table} {data : Bytes}
    (hroom : data = [] ∨ t.current.used + 4 + data.length ≤ t.current.payload.length) :
    t.scribble data = t ↔ data <+: t.current.payload.drop (t.current.used + 4) := by
  rcases hroom with rfl | hroom
  · exact iff_of_true (Table.scribble_nil t) (List.nil_prefix ..)
  rw [← splice_eq_self_iff hroom]
  constructor
  · intro heq
    have hpayload : (t.scribble data).current.payload =
        splice t.current.payload (t.current.used + 4) data := by
      rw [Table.scribble, Table.store_current]
    rw [← hpayload, heq]
  · intro heq
    calc
      t.scribble data = t.scribble [] := by
        unfold Table.scribble
        rw [heq, splice_nil]
      _ = t := Table.scribble_nil t

theorem Sound.fitted_room (h : w.Sound contents)
    (hfitted : values = [] ∨ w.fits key values = true) :
    fieldsData (w.fields key values) = [] ∨
      w.table.current.used + 4 + (fieldsData (w.fields key values)).length ≤
        w.table.current.payload.length := by
  apply hfitted.imp
  · rintro rfl
    rfl
  · intro hfits
    have hroom := h.filled.room hfits
    omega

/-- A streamed row leaves the table and the dedup state that a batch write leaves, and
reports the same, where the batch write takes the row or the columns that fitted are there. -/
theorem Sound.rowWriter_eq_iff (h : w.Sound contents)
    (hschema : w.table.validateRowSchema values = true) :
    w.rowWriter key values true = w.appendRow key values ↔
      ((w.dedup.isSome → values.length ≤ maxDedupCols) ∧ w.fits key values = true) ∨
        w.AlreadyThere key values := by
  rw [appendRow_eq hschema]
  constructor
  · intro heq
    rcases h.streams values with hstream | ⟨stored, hstop⟩
    · have hdone : (w.rowWriter key values true).1 = true := by
        unfold rowWriter RowWriter.finish
        rw [if_pos rfl, if_neg (by rw [hstream.overflow]; exact Bool.false_ne_true)]
      rw [heq] at hdone
      by_cases hfits : (w.dedup.isSome → values.length ≤ maxDedupCols) ∧ w.fits key values = true
      · exact .inl hfits
      · rw [if_neg hfits] at hdone
        exact nomatch hdone
    · obtain ⟨v, rest, hvalues, hover⟩ := hstop.leading
      have hfits : ¬ w.fits key values = true := fun hfits =>
        hover (fits_of_initial ⟨rest, by rw [hvalues]; simp⟩ hfits)
      rw [h.rowWriter_stopped hstop, if_neg fun hboth => hfits hboth.2] at heq
      have hsame := congrArg (fun r => r.2.table) heq
      exact .inr ⟨stored, v, rest, hvalues, hstop.fitted, hover,
        (scribble_eq_iff (h.fitted_room hstop.fitted)).mp hsame⟩
  · rintro (hfits | ⟨stored, v, rest, rfl, hfitted, hover, hthere⟩)
    · rw [if_pos hfits, h.rowWriter_fits hfits.2]
    · have hfits : ¬ w.fits key (stored ++ v :: rest) = true := fun hfits =>
        hover (fits_of_initial ⟨rest, by simp⟩ hfits)
      rw [if_neg fun hboth => hfits hboth.2]
      rcases h.streams (stored ++ v :: rest) with hstream | ⟨stored', hstop⟩
      · exact absurd (hstream.fits fun hnil => by simp at hnil) hfits
      · obtain ⟨v', rest', heq, hover'⟩ := hstop.leading
        obtain rfl := leading_unique heq hfitted hover hstop.fitted hover'
        rw [h.rowWriter_stopped hstop, (scribble_eq_iff (h.fitted_room hfitted)).mpr hthere]

/-- The calls write nothing outside the chunk, and a row that no `finish` publishes leaves
what readers see. -/
structure Contained (key : HashKey) (w : MemTableWriter) (calls : List RowCall) : Prop where
  within : ∀ st ∈ (RowStream.start w).runStores key calls, st.Within 0 w.table.chunkSize
  unpublished : (RowStream.start w).published key calls = false →
    w.table.SamePublished ((RowStream.start w).run key calls).drop.1 ∧
      ((RowStream.start w).run key calls).drop.2 = w.dedup

/-- Streamed rows and batch rows. A streamed row is the batch row, in the bytes, in what is
remembered and in its outcome, where the batch write takes the row or the columns that
fitted are in the chunk already; otherwise, unless it is an empty row in a full chunk or a
row too wide for a batch write, it has the outcome of the batch write and differs from it
behind the published bytes only. The calls on a row writer are contained unless the first of
them is a `finish` in a chunk that has no room for the length of a row. -/
theorem row_writer_agrees_iff (h : Reachable key w) :
    (∀ values, w.table.validateRowSchema values = true →
      (w.rowWriter key values true = w.appendRow key values ↔
        ((w.dedup.isSome → values.length ≤ maxDedupCols) ∧ w.fits key values = true) ∨
          w.AlreadyThere key values) ∧
      ((w.dedup.isSome → values.length ≤ maxDedupCols) →
        (values = [] → w.table.hasRoom 0 = true) →
        (w.rowWriter key values true).1 = (w.appendRow key values).1 ∧
        (w.rowWriter key values true).2.dedup = (w.appendRow key values).2.dedup ∧
        (w.appendRow key values).2.table.SamePublished (w.rowWriter key values true).2.table)) ∧
    ∀ calls : List RowCall,
      Contained key w calls ↔ (calls.head? = some .finish → w.table.hasRoom 0 = true) := by
  obtain ⟨contents, hsound⟩ := h.sound
  have hsize : chunkHeaderSize ≤ w.table.chunkSize := by
    have hlarge := hsound.filled.large
    omega
  refine ⟨fun values hschema => ⟨hsound.rowWriter_eq_iff hschema, fun hcols hroom => ?_⟩,
    fun calls =>
    ⟨fun hcontained => ?_, fun hroom => ⟨RowStream.start_within hsize hroom, fun hquiet => ?_⟩⟩⟩
  · obtain ⟨houtcome, hdedup, -, hsame⟩ := hsound.rowWriter_matches hschema hcols hroom
    exact ⟨houtcome, hdedup, hsame⟩
  · exact (RowStream.start_within_iff hsize).mp hcontained.within
  · exact ((RowStream.start_unfinished w).run hsound hquiet).drop hsound

theorem stream_label : ∃ w, labels = .ok w ∧
    w.rowWriter (fun _ _ => 0) [.Str "rank0"] true = w.appendRow (fun _ _ => 0) [.Str "rank0"] ∧
      Contained (fun _ _ => 0) w [.put (.U64 7), .finish] := by
  obtain ⟨w, hw⟩ := labels_ok
  have hreach : Reachable (fun _ _ => 0) w := ⟨_, _, _, _, _, w, [], hw, rfl⟩
  have hrun : (labels.toOption.map fun w => (w.table.validateRowSchema [.Str "rank0"],
      w.dedup.isSome, w.fits (fun _ _ => 0) [.Str "rank0"])) = some (true, false, true) := by
    decide +kernel
  rw [hw] at hrun
  obtain ⟨hschema, hrest⟩ := Prod.mk.inj (Option.some.inj hrun)
  obtain ⟨hplain, hfits⟩ := Prod.mk.inj hrest
  have hcols : w.dedup.isSome → [Value.Str "rank0"].length ≤ maxDedupCols := fun _ => by decide
  obtain ⟨hrows, hcalls⟩ := row_writer_agrees_iff hreach
  exact ⟨w, hw, (hrows _ hschema).1.mpr (.inl ⟨hcols, hfits⟩),
    (hcalls _).mpr fun hhead => nomatch hhead⟩

/-- A table of two chunks for one number each. -/
def single : Except String MemTableWriter := init (List.replicate 800 0) [("a", .U32)] 48 2 false

/-- In a full chunk a `finish` without columns reports the row as published, and stores its
length outside the chunk. -/
theorem finish_leaves_chunk : ((single.toOption.bind fun w =>
    exec (step fun _ _ => 0) w [.appendRow [.U32 7]]).map fun full =>
      decide ((RowStream.start full).published (fun _ _ => 0) [.finish] = true ∧
        ∃ st ∈ (RowStream.start full).runStores (fun _ _ => 0) [.finish],
          full.table.chunkSize < st.fin)) = some true := by
  decide +kernel

end MemTableWriter

end Probing.Memt
