import Probing.Proto.SeriesReturn

/-!
# Time series

A time series is a series of timestamps beside one series for each column. A row is appended
to them one after the other, and an iterator for each of them is advanced in step.

As long as no row is rejected half way and all series discard alike, the columns of a time
series hold the same window of the accepted rows.
-/

namespace Probing.Proto

inductive TimeSeriesError where
  | ColumnCountMismatch (expected got : ℕ)
  | ColumnTypeMismatch (expected got : EleType)
  | InvalidTimestampType
  | UnknownError (message : String)
  deriving DecidableEq

def ProtoError.toString : ProtoError → String
  | WrongSequenceType => "wrong sequence type"
  | TypeMismatch _ _ => "type mismatch"
  | InvalidValueDateType => "invalid data type for value"
  | RawPageTypeExpected => "raw page type expected"
  | CapacityExceeded => "Series capacity exceeded"

/-- `From<ProtoError>`. -/
def TimeSeriesError.fromProto : ProtoError → TimeSeriesError
  | .TypeMismatch expected got => .ColumnTypeMismatch expected got
  | err => .UnknownError err.toString

structure TimeSeries where
  names : List String
  timestamp : Series
  cols : List Series
  deriving DecidableEq

structure TimeSeriesConfig where
  seriesConfig : SeriesConfig
  names : List String

def TimeSeriesConfig.build (config : TimeSeriesConfig) : TimeSeries where
  names := config.names
  timestamp := Series.build config.seriesConfig
  cols := config.names.map fun _ => Series.build config.seriesConfig

namespace TimeSeries

variable (B : Build)

def len (ts : TimeSeries) : ℕ := ts.timestamp.len

/-- The values are appended to the columns in order, until one of them is rejected. -/
def appendCols : List Series → List Ele → Outcome TimeSeriesError (List Series)
  | col :: cols, item :: values =>
      match col.appendValue B item with
      | .returns (.ok ()) col =>
          match appendCols cols values with
          | .returns result cols => .returns result (col :: cols)
          | .panics => .panics
          | .diverges => .diverges
      | .returns (.error err) col => .returns (.error (.fromProto err)) (col :: cols)
      | .panics => .panics
      | .diverges => .diverges
  | cols, _ => .returns (.ok ()) cols

def append (ts : TimeSeries) (timestamp : Ele) (values : List Ele) :
    Outcome TimeSeriesError TimeSeries :=
  if ts.cols.length ≠ values.length then
    .returns (.error (.ColumnCountMismatch ts.cols.length values.length)) ts
  else match ts.timestamp.appendValue B timestamp with
    | .returns (.ok ()) timestamp =>
        match appendCols B ts.cols values with
        | .returns result cols => .returns result { ts with timestamp, cols }
        | .panics => .panics
        | .diverges => .diverges
    | .returns (.error err) timestamp =>
        .returns (.error (.fromProto err)) { ts with timestamp }
    | .panics => .panics
    | .diverges => .diverges

end TimeSeries

structure TimeSeriesIter where
  timestamp : SeriesIterator
  cols : List SeriesIterator

def TimeSeries.iter (ts : TimeSeries) : TimeSeriesIter :=
  ⟨SeriesIterator.new ts.timestamp, ts.cols.map SeriesIterator.new⟩

namespace TimeSeriesIter

variable (B : Build)

/-- The next values of the columns, up to the first column that has none. -/
def nextCols : List SeriesIterator → Option (List Ele) × List SeriesIterator
  | [] => (some [], [])
  | col :: cols =>
      match SeriesIterator.next B col with
      | (none, col) => (none, col :: cols)
      | (some value, col) =>
          match nextCols cols with
          | (some values, cols) => (some (value :: values), col :: cols)
          | (none, cols) => (none, col :: cols)

def next (it : TimeSeriesIter) : Option (Ele × List Ele) × TimeSeriesIter :=
  match SeriesIterator.next B it.timestamp with
  | (none, timestamp) => (none, { it with timestamp })
  | (some value, timestamp) =>
      match nextCols B it.cols with
      | (some values, cols) => (some (value, values), ⟨timestamp, cols⟩)
      | (none, cols) => (none, ⟨timestamp, cols⟩)

/-- The calls of `next` from the iterator on return these rows and then `None`. -/
inductive Yields : TimeSeriesIter → List (Ele × List Ele) → Prop
  | done {it} (h : (next B it).1 = none) : Yields it []
  | more {it it' row rows} (h : next B it = (some row, it')) (hrest : Yields it' rows) :
      Yields it (row :: rows)

end TimeSeriesIter

variable (B : Build)

/-- The values of the rows by column. -/
def columns (width : ℕ) : List (Ele × List Ele) → List (List Ele)
  | [] => List.replicate width []
  | (_, values) :: rows => List.zipWith (· :: ·) values (columns width rows)

section Columns

variable {width : ℕ} {rows : List (Ele × List Ele)}

theorem columns_length (h : ∀ row ∈ rows, row.2.length = width) :
    (columns width rows).length = width := by
  induction rows with
  | nil => exact List.length_replicate
  | cons row rest ih =>
      rw [columns, List.length_zipWith, ih fun row hrow => h row (List.mem_cons_of_mem _ hrow),
        h row (by simp), Nat.min_self]

theorem zipWith_cons_nil (values : List Ele) :
    List.zipWith (· :: ·) values (List.replicate values.length []) =
      List.zipWith (fun log value => log ++ [value]) (List.replicate values.length []) values := by
  induction values with
  | nil => rfl
  | cons value rest ih =>
      rw [List.length_cons, List.replicate_succ, List.zipWith_cons_cons, List.zipWith_cons_cons,
        ih, List.nil_append]

theorem zipWith_cons_snoc (first values : List Ele) (logs : List (List Ele)) :
    List.zipWith (· :: ·) first (List.zipWith (fun log value => log ++ [value]) logs values) =
      List.zipWith (fun log value => log ++ [value]) (List.zipWith (· :: ·) first logs)
        values := by
  induction first generalizing logs values with
  | nil => rfl
  | cons x first ih =>
      cases logs with
      | nil => rfl
      | cons log logs =>
          cases values with
          | nil => rfl
          | cons value values =>
              simp only [List.zipWith_cons_cons, ih, List.cons_append]

/-- A row that is added puts its values behind the columns. -/
theorem columns_append {timestamp : Ele} {values : List Ele} (hwidth : values.length = width) :
    columns width (rows ++ [(timestamp, values)]) =
      List.zipWith (fun log value => log ++ [value]) (columns width rows) values := by
  induction rows with
  | nil =>
      subst hwidth
      exact zipWith_cons_nil values
  | cons row rest ih =>
      rw [List.cons_append, columns, ih, columns]
      exact zipWith_cons_snoc _ _ _

theorem zipWith_cons_drop (values : List Ele) (logs : List (List Ele)) (start : ℕ)
    (h : values.length = logs.length) :
    (List.zipWith (· :: ·) values logs).map (·.drop (start + 1)) = logs.map (·.drop start) := by
  induction values generalizing logs with
  | nil =>
      obtain rfl := List.length_eq_zero_iff.mp h.symm
      rfl
  | cons value values ih =>
      cases logs with
      | nil => exact (nomatch h)
      | cons log logs =>
          rw [List.zipWith_cons_cons, List.map_cons, List.map_cons, List.drop_succ_cons,
            ih logs (by simpa using h)]

theorem columns_drop (h : ∀ row ∈ rows, row.2.length = width) (start : ℕ) :
    columns width (rows.drop start) = (columns width rows).map (·.drop start) := by
  induction rows generalizing start with
  | nil => simp [columns]
  | cons row rest ih =>
      have hrest (row) (hrow : row ∈ rest) := h row (List.mem_cons_of_mem _ hrow)
      cases start with
      | zero => simp
      | succ start =>
          rw [List.drop_succ_cons, ih hrest, columns, zipWith_cons_drop]
          rw [columns_length hrest, h row (by simp)]

end Columns

namespace TimeSeriesIter

variable {B} {cols : List SeriesIterator}

theorem Yields.mem_of_next {it : TimeSeriesIter} {row : Ele × List Ele}
    {rows : List (Ele × List Ele)} (h : Yields B it rows) (hnext : (next B it).1 = some row) :
    row ∈ rows := by
  cases h with
  | done h =>
      rw [h] at hnext
      exact (nomatch hnext)
  | more h hrest =>
      rw [h] at hnext
      obtain rfl := Option.some.inj hnext
      exact List.mem_cons_self

/-- Columns that all have a next value serve a row of them. -/
theorem nextCols_more {values : List Ele} {logs : List (List Ele)}
    (hlen : values.length = logs.length)
    (h : List.Forall₂ (SeriesIterator.Yields B) cols (List.zipWith (· :: ·) values logs)) :
    ∃ cols', nextCols B cols = (some values, cols') ∧
      List.Forall₂ (SeriesIterator.Yields B) cols' logs := by
  induction values generalizing cols logs with
  | nil =>
      obtain rfl := List.length_eq_zero_iff.mp hlen.symm
      cases h
      exact ⟨[], rfl, .nil⟩
  | cons value values ih =>
      cases logs with
      | nil => exact (nomatch hlen)
      | cons log logs =>
          rw [List.zipWith_cons_cons] at h
          cases h with
          | @cons col _ cols _ hcol hcols =>
              obtain ⟨cols', hnext, hrest⟩ := ih (by simpa using hlen) hcols
              cases hcol with
              | @more _ col' _ _ hvalue hlog =>
                  exact ⟨col' :: cols', by simp only [nextCols, hvalue, hnext],
                    .cons hlog hrest⟩

/-- Iterators that yield the columns of the rows yield the rows together. -/
theorem yields_rows {it : TimeSeriesIter} {rows : List (Ele × List Ele)}
    (hwidth : ∀ row ∈ rows, row.2.length = it.cols.length)
    (htimestamp : SeriesIterator.Yields B it.timestamp (rows.map (·.1)))
    (hcols : List.Forall₂ (SeriesIterator.Yields B) it.cols (columns it.cols.length rows)) :
    Yields B it rows := by
  induction rows generalizing it with
  | nil =>
      cases htimestamp with
      | done h =>
          refine .done ?_
          rw [next]
          split
          · rfl
          next hsome => rw [hsome] at h; exact (nomatch h)
  | cons row rest ih =>
      obtain ⟨value, values⟩ := row
      have hrest (row) (hrow : row ∈ rest) := hwidth row (List.mem_cons_of_mem _ hrow)
      have hvalues : values.length = it.cols.length := hwidth (value, values) (by simp)
      rw [List.map_cons] at htimestamp
      cases htimestamp with
      | @more _ timestamp _ _ hvalue hafter =>
          obtain ⟨cols, hnext, hlogs⟩ :=
            nextCols_more (by rw [columns_length hrest, hvalues]) hcols
          have hlength : cols.length = it.cols.length := by
            rw [hlogs.length_eq, columns_length hrest]
          refine .more (by simp only [next, hvalue, hnext]; rfl) (ih ?_ hafter ?_)
          · simpa only [hlength] using hrest
          · simpa only [hlength] using hlogs

end TimeSeriesIter

namespace TimeSeries

/-- The time series is a window of the rows: the iterator yields the last of them. -/
structure Aligned (ts : TimeSeries) (rows : List (Ele × List Ele)) : Prop where
  len_eq : ts.len = rows.length
  iter : ∃ start ≤ rows.length, TimeSeriesIter.Yields B ts.iter (rows.drop start)

/-- A row that the timestamps accept is accepted by the columns too, and each of them
discards as many slices for it as the timestamps do. -/
def Whole (ts : TimeSeries) (row : Ele × List Ele) : Prop :=
  ts.cols.length = row.2.length → ts.timestamp.rejects row.1 = false →
    ∀ p ∈ ts.cols.zip row.2, p.1.rejects p.2 = false ∧
      p.1.discards B p.2 = ts.timestamp.discards B row.1

instance (ts : TimeSeries) (row : Ele × List Ele) : Decidable (ts.Whole B row) := by
  unfold Whole
  infer_instance

/-- Each series holds its column of the rows from `start` on. -/
structure Windowed (ts : TimeSeries) (start : ℕ) (rows : List (Ele × List Ele)) : Prop where
  widths : ∀ row ∈ rows, row.2.length = ts.cols.length
  timestamp : ts.timestamp.Starts B start (rows.map (·.1))
  cols : List.Forall₂ (fun col log => col.Starts B start log) ts.cols
    (columns ts.cols.length rows)
  strategy : ∀ col ∈ ts.cols,
    col.config.discardStrategy = ts.timestamp.config.discardStrategy

variable {B} {ts : TimeSeries} {start : ℕ} {rows : List (Ele × List Ele)}

theorem Windowed.aligned (h : ts.Windowed B start rows) : ts.Aligned B rows := by
  obtain ⟨past, hpast, hwindow⟩ := h.timestamp
  constructor
  · obtain ⟨_, _, _, _, hoffset, _⟩ := hwindow
    rw [len, Series.len, hoffset, List.length_map]
  · have hle : start ≤ rows.length := by
      obtain ⟨_, _, _, hlog, _⟩ := hwindow
      have hlength := congrArg List.length hlog
      rw [List.append_assoc, List.length_append, List.length_map] at hlength
      omega
    refine ⟨start, hle, TimeSeriesIter.yields_rows ?_ ?_ ?_⟩
    · intro row hrow
      rw [iter, List.length_map]
      exact h.widths row (List.mem_of_mem_drop hrow)
    · rw [List.map_drop, ← hpast]
      exact hwindow.iter
    · simp only [iter, List.length_map]
      rw [columns_drop h.widths, List.forall₂_map_left_iff, List.forall₂_map_right_iff]
      refine h.cols.imp fun col log hcol => ?_
      obtain ⟨past, hpast, hwindow⟩ := hcol
      rw [← hpast]
      exact hwindow.iter

theorem windowed_build (config : TimeSeriesConfig) : config.build.Windowed B 0 [] := by
  constructor
  · simp
  · exact ⟨[], rfl, Series.windowed_build config.seriesConfig⟩
  · simp only [TimeSeriesConfig.build, List.length_map, columns]
    induction config.names with
    | nil => exact .nil
    | cons name names ih =>
        exact .cons ⟨[], rfl, Series.windowed_build config.seriesConfig⟩ ih
  · intro col hcol
    obtain ⟨name, -, rfl⟩ := List.mem_map.mp hcol
    rfl

/-- Columns that accept their values and discard alike hold one value more each. -/
theorem appendCols_returned {cols cols' : List Series} {values : List Ele}
    {logs : List (List Ele)} {strategy : DiscardStrategy} {count : ℕ}
    {r : Except TimeSeriesError Unit}
    (hlen : cols.length = values.length)
    (hcols : List.Forall₂ (fun col log => col.Starts B start log) cols logs)
    (hstrategy : ∀ col ∈ cols, col.config.discardStrategy = strategy)
    (hwhole : ∀ p ∈ cols.zip values, p.1.rejects p.2 = false ∧ p.1.discards B p.2 = count)
    (hvalue : appendCols B cols values = .returns r cols') :
    r = .ok () ∧ cols'.length = cols.length ∧
      (∀ col ∈ cols', col.config.discardStrategy = strategy) ∧
      List.Forall₂
        (fun col log => col.Starts B (start + count * strategy.getChunkSize.getD 0) log) cols'
        (List.zipWith (fun log value => log ++ [value]) logs values) := by
  induction hcols generalizing values cols' with
  | nil =>
      rw [appendCols] at hvalue
      · injection hvalue with hr ht
        subst ht
        exact ⟨hr.symm, rfl, hstrategy, .nil⟩
      · simp
  | @cons col log cols logs hcol hcols ih =>
      cases values with
      | nil => exact (nomatch hlen)
      | cons value values =>
          obtain ⟨past, rfl, hwindow⟩ := hcol
          obtain ⟨hfits, hcount⟩ := hwhole (col, value) (by simp)
          rw [appendCols] at hvalue
          split at hvalue
          next col' happend =>
            obtain ⟨-, hreject⟩ | ⟨-, -, hconfig, hstart⟩ := hwindow.append_returned happend
            · simp only [hfits] at hreject
              exact (nomatch hreject)
            split at hvalue
            next r' rest hrest =>
              injection hvalue with hr' ht
              subst ht hr'
              obtain ⟨hr, hlength, hkept, hstarts⟩ := ih (by simpa using hlen)
                (fun c hc => hstrategy c (List.mem_cons_of_mem _ hc))
                (fun p hp => hwhole p (by simp [hp])) hrest
              rw [hstrategy col (by simp)] at hconfig hstart
              rw [hcount] at hstart
              refine ⟨hr, by simp [hlength], ?_, .cons hstart hstarts⟩
              intro c hc
              obtain rfl | hc := List.mem_cons.mp hc
              · exact hconfig
              · exact hkept c hc
            · exact (nomatch hvalue)
            · exact (nomatch hvalue)
          next e col' happend =>
            obtain ⟨-, hreject⟩ | ⟨hok, -⟩ := hwindow.append_returned happend
            · simp only [hfits] at hreject
              exact (nomatch hreject)
            · exact (nomatch hok)
          · exact (nomatch hvalue)
          · exact (nomatch hvalue)

/-- A whole row is rejected and nothing changes, or it is the next row of the window. -/
theorem Windowed.append {t : TimeSeries} {timestamp : Ele} {values : List Ele}
    {r : Except TimeSeriesError Unit} (h : ts.Windowed B start rows)
    (hwhole : ts.Whole B (timestamp, values))
    (hvalue : TimeSeries.append B ts timestamp values = .returns r t) :
    (∃ e, r = .error e) ∧ t = ts ∨
    r = .ok () ∧ ∃ start', t.Windowed B start' (rows ++ [(timestamp, values)]) := by
  rw [TimeSeries.append] at hvalue
  split at hvalue
  · injection hvalue with hr ht
    exact .inl ⟨⟨_, hr.symm⟩, ht.symm⟩
  next hcount =>
  have hlen : ts.cols.length = values.length := not_ne_iff.mp hcount
  obtain ⟨past, hpast, hwindow⟩ := h.timestamp
  split at hvalue
  next timestamp' happend =>
    obtain ⟨⟨e, he⟩, -⟩ | ⟨-, hfits, hconfig, hstart⟩ := hwindow.append_returned happend
    · exact (nomatch he)
    split at hvalue
    next r' cols happend_cols =>
      injection hvalue with hr ht
      subst ht
      obtain ⟨hr', hlength, hkept, hstarts⟩ :=
        appendCols_returned hlen h.cols h.strategy (hwhole hlen hfits) happend_cols
      rw [hpast] at hstart
      refine .inr ⟨hr.symm.trans hr', start + ts.timestamp.discards B timestamp *
        ts.timestamp.config.discardStrategy.getChunkSize.getD 0, ?_, ?_, ?_, ?_⟩
      · intro row hrow
        simp only [hlength]
        obtain hrow | hrow := List.mem_append.mp hrow
        · exact h.widths row hrow
        · obtain rfl := List.mem_singleton.mp hrow
          exact hlen.symm
      · rw [List.map_append]
        exact hstart
      · simp only [hlength]
        rw [columns_append hlen.symm]
        exact hstarts
      · simp only [hconfig]
        exact hkept
    · exact (nomatch hvalue)
    · exact (nomatch hvalue)
  next e timestamp' happend =>
    injection hvalue with hr ht
    refine .inl ⟨⟨_, hr.symm⟩, ?_⟩
    rw [← ht, Series.appendValue_error happend]
  · exact (nomatch hvalue)
  · exact (nomatch hvalue)

end TimeSeries

/-- A time series with the rows it accepted. -/
structure Recorded where
  series : TimeSeries
  rows : List (Ele × List Ele)
  deriving DecidableEq

namespace Recorded

/-- One append that returns. -/
def record (l : Recorded) (row : Ele × List Ele) : Option Recorded :=
  match l.series.append B row.1 row.2 with
  | .returns (.ok ()) t => some ⟨t, l.rows ++ [row]⟩
  | .returns (.error _) t => some ⟨t, l.rows⟩
  | _ => none

def Whole (l : Recorded) (row : Ele × List Ele) : Prop := l.series.Whole B row

instance (l : Recorded) (row : Ele × List Ele) : Decidable (l.Whole B row) :=
  inferInstanceAs (Decidable (l.series.Whole B row))

def build (config : TimeSeriesConfig) : Recorded := ⟨config.build, []⟩

/-- In a run of whole rows the iterator yields the last accepted rows, and a row that is
rejected changes nothing. -/
theorem aligned_run (config : TimeSeriesConfig) {appends : List (Ele × List Ele)} {l : Recorded}
    (hwhole : Core.Meets (record B) (Whole B) (build config) appends)
    (hrun : Core.exec (record B) (build config) appends = some l) :
    l.series.Aligned B l.rows ∧ ∀ timestamp values e t, l.series.Whole B (timestamp, values) →
      l.series.append B timestamp values = .returns (.error e) t → t = l.series := by
  have hstep (l : Recorded) (row : Ele × List Ele) (m : Recorded)
      (hwindow : ∃ start, l.series.Windowed B start l.rows) (hwhole : l.Whole B row)
      (hrecord : l.record B row = some m) : ∃ start, m.series.Windowed B start m.rows := by
    obtain ⟨start, hwindow⟩ := hwindow
    rw [record] at hrecord
    split at hrecord
    next t happend =>
      obtain rfl := Option.some.inj hrecord
      obtain ⟨⟨e, he⟩, -⟩ | ⟨-, hnext⟩ := hwindow.append hwhole happend
      · exact (nomatch he)
      · exact hnext
    next e t happend =>
      obtain rfl := Option.some.inj hrecord
      obtain ⟨-, hsame⟩ | ⟨hok, -⟩ := hwindow.append hwhole happend
      · exact ⟨start, by rw [hsame]; exact hwindow⟩
      · exact (nomatch hok)
    · exact (nomatch hrecord)
  obtain ⟨start, hwindow⟩ :=
    Core.exec_invariant hstep ⟨0, TimeSeries.windowed_build config⟩ hwhole hrun
  refine ⟨hwindow.aligned, fun timestamp values e t hwhole happend => ?_⟩
  obtain ⟨-, hsame⟩ | ⟨hok, -⟩ := hwindow.append hwhole happend
  · exact hsame
  · exact (nomatch hok)

/-- Two columns over the counted series. -/
def counted : TimeSeriesConfig := ⟨Logged.counting, ["a", "b"]⟩

def batches : List (Ele × List Ele) :=
  [(.I64 1, [.Text "x", .F64 0]), (.I64 2, [.Text "yy", .F64 0]), (.I64 3, [.Text "", .F64 1]),
    (.Text "4", [.Text "z", .F64 1]), (.I64 4, [.F64 1])]

/-- All series discard the first two rows, and the last two rows are rejected. -/
theorem aligned_batches : ∃ l, Core.exec (record Logged.plain) (build counted) batches = some l ∧
    l.rows.length = 3 ∧ l.series.Aligned Logged.plain l.rows := by
  obtain ⟨l, hrun, hlength⟩ : ∃ l, Core.exec (record Logged.plain) (build counted) batches =
      some l ∧ l.rows.length = 3 := by
    have hsome : ((Core.exec (record Logged.plain) (build counted) batches).map
        fun l => l.rows.length) = some 3 := by decide
    obtain ⟨l, hl, hlength⟩ := Option.map_eq_some_iff.mp hsome
    exact ⟨l, hl, hlength⟩
  exact ⟨l, hrun, hlength, (aligned_run Logged.plain counted
    (by decide : Core.Meets (record Logged.plain) (Whole Logged.plain) (build counted)
      batches) hrun).1⟩

/-- Chunks of two elements, and at most twenty bytes. -/
def small : TimeSeriesConfig := ⟨⟨.Nil, 2_000_000, .BaseMemorySize 20 2⟩, ["a"]⟩

/-- Two long texts are discarded while their timestamps stay. -/
def texts : List (Ele × List Ele) :=
  [(.I64 1, [.Text "0123456789ab"]), (.I64 2, [.Text "0123456789ab"]), (.I64 3, [.Text "c"])]

/-- The second row is rejected by its last column. -/
def torn : List (Ele × List Ele) :=
  [(.I64 1, [.I64 1, .I64 2]), (.I64 2, [.I64 3, .Text "x"])]

/-- The text of the third row is paired with the first timestamp; and a row that is rejected
half way counts as one. -/
theorem misaligned :
    (∃ l, Core.exec (record Logged.plain) (build small) texts = some l ∧
      ¬ l.series.Aligned Logged.plain l.rows) ∧
    ∃ l, Core.exec (record Logged.plain) (build counted) torn = some l ∧
      ¬ l.series.Aligned Logged.plain l.rows := by
  constructor
  · have hrun : ((Core.exec (record Logged.plain) (build small) texts).map fun l =>
        ((TimeSeriesIter.next Logged.plain l.series.iter).1, l.rows)) =
          some (some (.I64 1, [.Text "c"]), texts) := by decide
    obtain ⟨l, hl, hnext⟩ := Option.map_eq_some_iff.mp hrun
    obtain ⟨hvalue, hrows⟩ := Prod.mk.inj hnext
    refine ⟨l, hl, fun haligned => ?_⟩
    obtain ⟨start, -, hiter⟩ := haligned.iter
    have hmem := List.mem_of_mem_drop (hiter.mem_of_next hvalue)
    rw [hrows] at hmem
    exact absurd hmem (by decide)
  · have hrun : ((Core.exec (record Logged.plain) (build counted) torn).map fun l =>
        (l.series.len, l.rows.length)) = some (2, 1) := by decide
    obtain ⟨l, hl, hlen⟩ := Option.map_eq_some_iff.mp hrun
    obtain ⟨hseries, hrows⟩ := Prod.mk.inj hlen
    refine ⟨l, hl, fun haligned => ?_⟩
    have heq := haligned.len_eq
    omega

end Recorded

end Probing.Proto
