import Mathlib.Data.List.GetD
import Probing.Sql.Pruning

/-!
# When a pruned scan is exact

Every window comes from filters that the rows it admits pass, so a pruned scan is exact if the pages
that a window misses balance the chunks they stand for. Where a page has all rows of its chunk, this
means that the recorded ranges cover the values: a value in a range keeps its page in every window
that admits it, and a value outside one has a window that misses the range.
-/

namespace Probing.Sql

open Probing.Core
open Probing.Memt (DType Value headerTsCol viewTsCol)
open Probing.Memc (ColumnData tsCol tsMinInit tsMaxInit)

section Windows

variable {range : Int64 × Int64} {x : Value} {names : List String} {name : String} {row : Row}

theorem Datum.ofValue_integer_ge {z : ℤ} (h : Datum.ofValue x = .integer z) : -2 ^ 63 ≤ z := by
  cases x with
  | U8 v | U32 v | U64 v =>
      obtain rfl := Datum.integer.inj h
      omega
  | I32 v =>
      obtain rfl := Datum.integer.inj h
      have hge := v.le_toInt
      omega
  | I64 v =>
      obtain rfl := Datum.integer.inj h
      exact v.le_toInt
  | F32 | F64 | Str | Bytes => cases h

theorem TsBounds.not_misses_everything (b : TsBounds) :
    b.misses (Int64.minValue, Int64.maxValue) = false := by
  unfold TsBounds.misses
  rw [Bool.or_eq_false_iff]
  constructor
  · cases b.lower with
    | none => rfl
    | some lo => simp
  · cases b.upper with
    | none => rfl
    | some hi => simp

/-- A window that a passing row implies does not miss a range over the row's value. -/
theorem not_misses_of_covers {F : Type} {E : Engine F} {filters : List (Expr F)}
    (hcell : Engine.cell names name row = some x) (hcovers : Content.Covers range x)
    (hpass : E.passes names filters row = true) :
    (tsBoundsFromFilters name filters).misses range = false := by
  unfold Content.Covers at hcovers
  cases hx : Datum.ofValue x with
  | integer z =>
      simp only [hx] at hcovers
      obtain ⟨hlow, hhigh⟩ := ts_bounds_sound hcell hx hpass
      unfold TsBounds.misses
      rw [Bool.or_eq_false_iff]
      constructor
      · cases hcur : (tsBoundsFromFilters name filters).lower with
        | none => rfl
        | some lo =>
            have hlo := hlow lo hcur
            rcases hcovers.2 with hz | hmax
            · simpa using Int64.le_iff_toInt_le.mpr (hlo.trans hz)
            · simp [hmax]
      · cases hcur : (tsBoundsFromFilters name filters).upper with
        | none => rfl
        | some hi => simpa using Int64.le_iff_toInt_le.mpr (hcovers.1.trans (hhigh hi hcur))
  | null | boolean | plain =>
      simp only [hx] at hcovers
      rw [hcovers]
      exact TsBounds.not_misses_everything _

theorem not_covers (h : ¬ Content.Covers range x) :
    (range.1 ≠ Int64.minValue ∧ ∀ z, Datum.ofValue x = .integer z → z < range.1.toInt) ∨
      (range.2 ≠ Int64.maxValue ∧ ∀ z, Datum.ofValue x = .integer z → range.2.toInt < z) := by
  unfold Content.Covers at h
  cases hx : Datum.ofValue x with
  | integer z =>
      simp only [hx, not_and_or, not_or, not_le] at h
      rcases h with hlow | ⟨hhigh, hmax⟩
      · left
        constructor
        · intro hmin
          have hge := Datum.ofValue_integer_ge hx
          rw [hmin, Int64.toInt_minValue] at hlow
          omega
        · intro z' hz'
          obtain rfl := Datum.integer.inj hz'
          exact hlow
      · right
        refine ⟨hmax, ?_⟩
        intro z' hz'
        obtain rfl := Datum.integer.inj hz'
        exact hhigh
  | null | boolean | plain =>
      simp only [hx, Prod.ext_iff, not_and_or] at h
      rcases h with hmin | hmax
      · exact Or.inl ⟨hmin, by simp⟩
      · exact Or.inr ⟨hmax, by simp⟩

/-- An engine that finds data of other types equal. -/
def lenient : Engine Unit := ⟨fun _ _ => .null, fun _ _ _ => .null, fun _ _ => some .eq⟩

def tsCompare (name : String) (op : Operator Unit) (lit : Int64) : Expr Unit :=
  .BinaryExpr (.Column name) op (.Literal (.Int64 (some lit)))

/-- A comparison holds of a value that is no integer. -/
theorem lenient_compare (hcell : Engine.cell names name row = some x) (lit : Int64) :
    lenient.compare (Engine.eval lenient names (.Column name) row) (.integer lit.toInt) = some
      (match Datum.ofValue x with
        | .integer z => Ord.compare z lit.toInt
        | _ => .eq) := by
  simp only [Engine.eval, hcell, Option.map_some, Option.getD_some]
  cases x <;> rfl

theorem passes_at_least (hcell : Engine.cell names name row = some x) {lo : Int64}
    (h : ∀ z, Datum.ofValue x = .integer z → lo.toInt ≤ z) :
    Engine.eval lenient names (tsCompare name .GtEq lo) row = .boolean true := by
  change lenient.test (· ≠ .lt) (Engine.eval lenient names (.Column name) row)
    (.integer lo.toInt) = _
  rw [Engine.test, lenient_compare hcell]
  cases hx : Datum.ofValue x with
  | integer z => simpa using compare_ge_iff_ge.mpr (h z hx)
  | null | boolean | plain => rfl

theorem passes_at_most (hcell : Engine.cell names name row = some x) {hi : Int64}
    (h : ∀ z, Datum.ofValue x = .integer z → z ≤ hi.toInt) :
    Engine.eval lenient names (tsCompare name .LtEq hi) row = .boolean true := by
  change lenient.test (· ≠ .gt) (Engine.eval lenient names (.Column name) row)
    (.integer hi.toInt) = _
  rw [Engine.test, lenient_compare hcell]
  cases hx : Datum.ofValue x with
  | integer z => simpa using compare_le_iff_le.mpr (h z hx)
  | null | boolean | plain => rfl

theorem fold_tsCompare (name : String) (op : Operator Unit) (hop : op ≠ .And) (lit : Int64)
    (bounds : TsBounds) :
    foldTsPredicate name (tsCompare name op lit) bounds = foldComparison op lit bounds := by
  rw [tsCompare, fold_binary hop]
  simp [isTsColumn, literalAsI64]

/-- Filters that imply just this window. -/
def windowFilters (name : String) (bounds : TsBounds) : List (Expr Unit) :=
  (bounds.lower.map (tsCompare name .GtEq)).toList ++
    (bounds.upper.map (tsCompare name .LtEq)).toList

theorem windowFilters_bounds (name : String) (bounds : TsBounds) :
    tsBoundsFromFilters name (windowFilters name bounds) = bounds := by
  obtain ⟨lower, upper⟩ := bounds
  cases lower <;> cases upper <;>
    simp [tsBoundsFromFilters, windowFilters, fold_tsCompare, foldComparison,
      TsBounds.tightenLower, TsBounds.tightenUpper, TsBounds.unbounded]

/-- A row that the window admits passes the filters that imply it. -/
theorem passes_window {bounds : TsBounds} (hcell : Engine.cell names name row = some x)
    (h : bounds.Admits x) : lenient.passes names (windowFilters name bounds) row = true := by
  rw [Engine.passes, List.all_eq_true]
  intro f hf
  rw [decide_eq_true_eq]
  rcases List.mem_append.mp hf with hf | hf
  · obtain ⟨lo, hlo, rfl⟩ := Option.map_eq_some_iff.mp (Option.mem_toList.mp hf)
    exact passes_at_least hcell fun z hz => (h z hz).1 lo hlo
  · obtain ⟨hi, hhi, rfl⟩ := Option.map_eq_some_iff.mp (Option.mem_toList.mp hf)
    exact passes_at_most hcell fun z hz => (h z hz).2 hi hhi

/-- A value outside a range has a window that admits it and misses the range. -/
theorem exists_window (h : ¬ Content.Covers range x) :
    ∃ bounds : TsBounds, bounds.Admits x ∧ bounds.misses range = true := by
  rcases not_covers h with ⟨hne, hbelow⟩ | ⟨hne, habove⟩
  · have hgt : -2 ^ 63 < range.1.toInt := by
      have hne' : range.1.toInt ≠ -2 ^ 63 := by
        rw [← Int64.toInt_minValue]
        exact fun heq => hne (Int64.toInt_inj.mp heq)
      have hge := range.1.le_toInt
      omega
    have hlt := range.1.toInt_lt
    obtain ⟨hi, hhi⟩ : ∃ hi : Int64, hi.toInt = range.1.toInt - 1 :=
      ⟨.ofInt _, Int64.toInt_ofInt_of_le (by omega) (by omega)⟩
    refine ⟨⟨none, some hi⟩, fun z hz => ⟨by simp, fun hi' hhi' => ?_⟩, ?_⟩
    · obtain rfl := Option.some.inj hhi'
      have hz' := hbelow z hz
      omega
    · have hmiss : hi < range.1 := by
        rw [Int64.lt_iff_toInt_lt]
        omega
      simp [TsBounds.misses, hmiss]
  · have hlt : range.2.toInt < 2 ^ 63 - 1 := by
      have hne' : range.2.toInt ≠ 2 ^ 63 - 1 := by
        rw [← Int64.toInt_maxValue]
        exact fun heq => hne (Int64.toInt_inj.mp heq)
      have hle := range.2.toInt_lt
      omega
    have hge := range.2.le_toInt
    obtain ⟨lo, hlo⟩ : ∃ lo : Int64, lo.toInt = range.2.toInt + 1 :=
      ⟨.ofInt _, Int64.toInt_ofInt_of_le (by omega) (by omega)⟩
    refine ⟨⟨some lo, none⟩, fun z hz => ⟨fun lo' hlo' => ?_, by simp⟩, ?_⟩
    · obtain rfl := Option.some.inj hlo'
      have hz' := habove z hz
      omega
    · have hmiss : range.2 < lo := by
        rw [Int64.lt_iff_toInt_lt]
        omega
      simp [TsBounds.misses, hmiss]

end Windows

namespace Content

variable {C : Content} {F : Type} {E : Engine F} {filters : List (Expr F)} {bounds : TsBounds}

theorem scanned_eq_filter (s : ColdSegment) (bounds : TsBounds) :
    s.scanned bounds = (s.scanned .unbounded).filter fun p => kept bounds (s, p) := by
  have hnone (o : Option (Int64 × Int64)) : o.any TsBounds.unbounded.misses = false := by
    cases o <;> rfl
  simp only [ColdSegment.scanned, hnone, Bool.false_eq_true, if_false, kept]
  cases s.tableIdByName with
  | none => simp
  | some tid =>
      simp only [ColdSegment.pagesInRange, hnone, Bool.not_false, Bool.and_true, List.filter_filter]
      split_ifs with hseg
      · simp [hseg]
      · simp [hseg, Bool.and_comm]

/-- The pages that a scan decodes. -/
theorem pages_eq (bounds : TsBounds) :
    (C.segments.flatMap fun s => s.scanned bounds) =
      (C.tablePages.filter (kept bounds)).map Prod.snd := by
  unfold tablePages
  induction C.segments with
  | nil => rfl
  | cons s segments ih =>
      rw [List.flatMap_cons, List.flatMap_cons, List.filter_append, List.map_append, ← ih,
        scanned_eq_filter, List.filter_map, List.map_map]
      congr 1
      exact (List.map_id _).symm

theorem kept_unbounded (e : ColdSegment × ColdPage) : kept .unbounded e = true := by
  unfold kept
  cases e.1.tsRange <;> cases e.2.recorded <;> rfl

/-- The chunks of the ring and the pages of the table, with the rows that pass. -/
def tagging (C : Content) (E : Engine F) (filters : List (Expr F)) :
    Tagging HotChunk (ColdSegment × ColdPage) Tag Row where
  chunkTag := C.tag
  chunkItems chunk := chunk.rows.filter (E.passes C.columnNames filters)
  pageTag e := e.2.tag
  pageItems e := ((e.2.batch C.cols).getD []).filter (E.passes C.columnNames filters)

theorem tags_nodup (C : Content) : (C.chunks.map C.tag).Nodup := by
  have hmap : (C.chunks.map C.tag).map (fun t => t.2.1) = C.chunks.map HotChunk.index := by
    rw [List.map_map]
    rfl
  exact List.Nodup.of_map (fun t : Tag => t.2.1) (hmap ▸ C.indices)

theorem mem_tablePages {e : ColdSegment × ColdPage} (he : e ∈ C.tablePages) :
    e.1 ∈ C.segments ∧ e.2 ∈ e.1.pages := by
  obtain ⟨s, hs, hin⟩ := List.mem_flatMap.mp he
  obtain ⟨p, hp, rfl⟩ := List.mem_map.mp hin
  refine ⟨hs, ?_⟩
  rw [ColdSegment.scanned] at hp
  split_ifs at hp
  · cases hp
  · cases htid : s.tableIdByName with
    | none => simp [htid] at hp
    | some tid =>
        rw [htid] at hp
        exact List.mem_of_mem_filter hp

theorem copies (hdrained : C.Drained) (E : Engine F) (filters : List (Expr F)) :
    (C.tagging E filters).Copies C.chunks C.tablePages := by
  intro e he chunk hchunk htag
  obtain ⟨hs, hp⟩ := mem_tablePages he
  change ((e.2.batch C.cols).getD []).filter _ = chunk.rows.filter _
  rw [hdrained e.1 hs e.2 hp chunk hchunk htag, Option.getD_some]

/-- A chunk that the window rules out has no passing rows. -/
def ChunksKept (C : Content) (E : Engine F) (filters : List (Expr F)) (bounds : TsBounds) : Prop :=
  ∀ chunk ∈ C.chunks, C.chunkMayMatch bounds chunk = false →
    chunk.rows.filter (E.passes C.columnNames filters) = []

/-- Chunks that contribute nothing may be filtered out. -/
theorem flatMap_filter_of_empty {α β : Type*} {l : List α} {keep : α → Bool} {g : α → List β}
    (h : ∀ a ∈ l, keep a = false → g a = []) : (l.filter keep).flatMap g = l.flatMap g := by
  induction l with
  | nil => rfl
  | cons a l ih =>
      have hl := ih fun b hb => h b (List.mem_cons_of_mem a hb)
      cases hkeep : keep a with
      | true => rw [List.filter_cons_of_pos hkeep, List.flatMap_cons, List.flatMap_cons, hl]
      | false =>
          rw [List.filter_cons_of_neg (by simp [hkeep]), List.flatMap_cons, hl,
            h a List.mem_cons_self hkeep, List.nil_append]

theorem scan_eq (bounds : TsBounds) :
    C.scan bounds =
      if (C.tablePages.filter (kept bounds)).all fun e => (e.2.batch C.cols).isSome then
        some (C.hotRows bounds ((C.tablePages.filter (kept bounds)).filterMap fun e => e.2.tag) ++
          (C.tablePages.filter (kept bounds)).flatMap fun e => (e.2.batch C.cols).getD [])
      else none := by
  unfold scan coldScan
  simp only [pages_eq, List.all_map, List.flatMap_map, List.filterMap_map, Function.comp_def]
  split_ifs <;> rfl

/-- The passing rows of a scan are the union over the pages it keeps. -/
theorem scan_filter (hchunks : C.ChunksKept E filters bounds) {rows : List Row}
    (h : C.scan bounds = some rows) :
    rows.filter (E.passes C.columnNames filters) =
      (C.tagging E filters).union C.chunks (C.tablePages.filter (kept bounds)) := by
  rw [scan_eq] at h
  split_ifs at h
  obtain rfl := Option.some.inj h
  rw [List.filter_append, List.filter_flatMap, hotRows, List.filter_flatMap, ← List.filter_filter]
  unfold Tagging.union Tagging.uncovered
  congr 1
  rw [flatMap_filter_of_empty]
  · exact congrArg (List.flatMap _) (List.filter_congr fun chunk _ => decide_eq_decide.mpr Iff.rfl)
  · intro chunk hchunk hmay
    exact hchunks chunk (List.mem_of_mem_filter hchunk) hmay

theorem chunksKept_unbounded : C.ChunksKept E filters .unbounded := by
  intro chunk _ hmay
  simp [chunkMayMatch, TsBounds.isUnbounded, TsBounds.unbounded] at hmay

theorem scan_isSome_of_readable (h : ∀ e ∈ C.tablePages, e.2.batch C.cols ≠ none)
    (bounds : TsBounds) : (C.scan bounds).isSome := by
  rw [scan_eq, if_pos]
  · rfl
  · rw [List.all_eq_true]
    intro e he
    exact Option.isSome_iff_ne_none.mpr (h e (List.mem_of_mem_filter he))

/-- The column that the view designates has its place in the schema. -/
theorem viewTs_lt {k : ℕ} (h : C.viewTs = some k) : k < C.cols.length := by
  obtain ⟨i, hi⟩ := Option.isSome_iff_exists.mp C.designated
  obtain ⟨hlt, -⟩ := List.findIdx?_eq_some_iff_getElem.mp hi
  rw [viewTs, hi, headerTsCol, Option.map_some, Option.getD_some, viewTsCol] at h
  split_ifs at h
  obtain rfl := Option.some.inj h
  have hmod : (UInt16.ofNat (i + 1)).toNat = (i + 1) % 2 ^ 16 := UInt16.toNat_ofNat'
  have hle := Nat.mod_le (i + 1) (2 ^ 16)
  omega

/-- A cell is found by its column's name. -/
theorem cell_column {k : ℕ} (hk : k < C.cols.length) (row : Row) :
    Engine.cell C.columnNames (C.columnNames.getD k "") row = row[k]? := by
  have hlen : k < C.columnNames.length := by
    rw [columnNames, List.length_map]
    exact hk
  have hidx : C.columnNames.idxOf? (C.columnNames.getD k "") = some k := by
    rw [List.getD_eq_getElem _ _ hlen, List.idxOf?_eq_some_iff]
    refine ⟨hlen, by simp, ?_⟩
    intro j hj heq
    have hsame : j = k := (List.Nodup.getElem_inj_iff C.names).mp heq
    omega
  rw [Engine.cell, hidx, Option.bind_some]

theorem batch_row_length {columns : List ColumnData} {cols : List (String × DType)}
    {rows : List Row} (h : recordBatch cols columns = some rows) {row : Row} (hrow : row ∈ rows) :
    row.length = cols.length := by
  obtain ⟨⟨htypes, -⟩, hrows⟩ := Option.ite_none_right_eq_some.mp h
  rw [← Option.some.inj hrows] at hrow
  obtain ⟨i, -, rfl⟩ := List.mem_map.mp hrow
  rw [List.length_map]
  simpa using congrArg List.length htypes

theorem covers_I64 {r : Int64 × Int64} {v : Int64} (hlo : r.1 ≤ v) (hhi : v ≤ r.2) :
    Covers r (.I64 v) :=
  ⟨Int64.le_iff_toInt_le.mp hlo, Or.inl (Int64.le_iff_toInt_le.mp hhi)⟩

/-- A noted timestamp lies in the range of its chunk. -/
theorem chunkTsRange_covers {k : ℕ} {rows : List Row} {row : Row} {v : Int64}
    {r : Int64 × Int64} (hr : chunkTsRange (some k) rows = some r) (hrow : row ∈ rows)
    (hv : rowTs k row = some v) : Covers r (.I64 v) := by
  have hmem : v ∈ rows.filterMap (rowTs k) := List.mem_filterMap.mpr ⟨row, hrow, hv⟩
  rw [chunkTsRange, Option.bind_some] at hr
  dsimp only at hr
  split_ifs at hr
  obtain rfl := Option.some.inj hr
  rw [foldl_widen]
  exact covers_I64 (foldl_min_le _ hmem) (le_foldl_max _ hmem)

/-- A range is recorded only over a column of timestamps. -/
theorem rowTs_of_recorded {k : ℕ} {chunk : HotChunk} (hchunk : chunk ∈ C.chunks)
    {r : Int64 × Int64} (hr : chunkTsRange (some k) chunk.rows = some r) {row : Row}
    (hrow : row ∈ chunk.rows) {x : Value} (hx : row[k]? = some x) : ∃ v, x = .I64 v := by
  have htype {row' : Row} (hrow' : row' ∈ chunk.rows) :
      (row'[k]?).map Value.dtype = (C.cols.map Prod.snd)[k]? := by
    rw [← C.typed chunk hchunk row' hrow', List.getElem?_map]
  have hsome : ∃ row' ∈ chunk.rows, ∃ v, rowTs k row' = some v := by
    by_contra hnone
    have hnil : chunk.rows.filterMap (rowTs k) = [] := by
      rw [List.filterMap_eq_nil_iff]
      intro row' hrow'
      by_contra hne
      obtain ⟨v, hv⟩ := Option.ne_none_iff_exists'.mp hne
      exact hnone ⟨row', hrow', v, hv⟩
    rw [chunkTsRange, Option.bind_some, hnil] at hr
    have hinit : tsMinInit > tsMaxInit := by decide
    rw [List.foldl_nil] at hr
    dsimp only at hr
    rw [if_pos hinit] at hr
    cases hr
  obtain ⟨row', hrow', v, hv⟩ := hsome
  have hI64 : (row'[k]?).map Value.dtype = some .I64 := by
    unfold rowTs at hv
    split at hv
    · next hcell => rw [hcell, Option.map_some, Value.dtype]
    · cases hv
  have hdtype : x.dtype = .I64 := by
    rw [htype hrow', ← htype hrow, hx] at hI64
    exact Option.some.inj hI64
  cases x with
  | I64 v => exact ⟨v, rfl⟩
  | U8 | U32 | I32 | F32 | F64 | U64 | Str | Bytes => cases hdtype

theorem boundsFor_view {k : ℕ} (hk : C.viewTs = some k) (filters : List (Expr F)) :
    C.boundsFor filters = tsBoundsFromFilters (C.columnNames.getD k "") filters := by
  rw [boundsFor, hk]

theorem boundsFor_none (hnone : C.viewTs = none) (filters : List (Expr F)) :
    C.boundsFor filters = .unbounded := by
  rw [boundsFor, hnone]

/-- The window of the filters rules out no chunk with passing rows. -/
theorem chunksKept_boundsFor (C : Content) (E : Engine F) (filters : List (Expr F)) :
    C.ChunksKept E filters (C.boundsFor filters) := by
  cases hview : C.viewTs with
  | none =>
      rw [boundsFor_none hview]
      exact chunksKept_unbounded
  | some k =>
      intro chunk hchunk hmay
      rw [List.filter_eq_nil_iff]
      intro row hrow hpass
      have hk := viewTs_lt hview
      have hlen : row.length = C.cols.length := by
        simpa using congrArg List.length (C.typed chunk hchunk row hrow)
      obtain ⟨x, hx⟩ : ∃ x, row[k]? = some x := ⟨_, List.getElem?_eq_getElem (hlen ▸ hk)⟩
      rw [chunkMayMatch, hview, Bool.or_eq_false_iff, Bool.not_eq_false'] at hmay
      obtain ⟨r, hr, hmisses⟩ := (Option.any_eq_true _ _).mp hmay.2
      obtain ⟨v, rfl⟩ := rowTs_of_recorded hchunk hr hrow hx
      have hv : rowTs k row = some v := by simp [rowTs, hx]
      have hcell := (cell_column hk row).trans hx
      have hnot := not_misses_of_covers hcell (chunkTsRange_covers hr hrow hv) hpass
      rw [boundsFor_view hview, hnot] at hmisses
      cases hmisses

/-- The window of the filters keeps a covered page with passing rows. -/
theorem items_of_pruned {k : ℕ} (hview : C.viewTs = some k) {e : ColdSegment × ColdPage}
    (hcovered : C.PageCovered k e.1 e.2) (hpruned : kept (C.boundsFor filters) e = false) :
    (C.tagging E filters).pageItems e = [] := by
  change ((e.2.batch C.cols).getD []).filter _ = []
  cases hbatch : e.2.batch C.cols with
  | none => rfl
  | some rows =>
      rw [Option.getD_some, List.filter_eq_nil_iff]
      intro row hrow hpass
      have hk := viewTs_lt hview
      have hlen := batch_row_length hbatch hrow
      obtain ⟨x, hx⟩ : ∃ x, row[k]? = some x := ⟨_, List.getElem?_eq_getElem (hlen ▸ hk)⟩
      obtain ⟨hpage, hsegment⟩ := hcovered rows hbatch row hrow x hx
      have hnot {r : Int64 × Int64} (hr : Covers r x) : (C.boundsFor filters).misses r = false := by
        rw [boundsFor_view hview]
        exact not_misses_of_covers ((cell_column hk row).trans hx) hr hpass
      rw [kept, Bool.and_eq_false_iff, Bool.not_eq_false', Bool.not_eq_false'] at hpruned
      rcases hpruned with hmiss | hmiss
      · obtain ⟨r, hr, hmisses⟩ := (Option.any_eq_true _ _).mp hmiss
        rw [hnot (hsegment r hr)] at hmisses
        cases hmisses
      · obtain ⟨r, hr, hmisses⟩ := (Option.any_eq_true _ _).mp hmiss
        rw [hnot (hpage r hr)] at hmisses
        cases hmisses

theorem lone_iff (E : Engine F) (filters : List (Expr F)) (e : ColdSegment × ColdPage) :
    (C.tagging E filters).Lone C.chunks C.tablePages e ↔ C.LoneCopy e.2 := Iff.rfl

/-- The pages that a window drops, before the ones it keeps. -/
theorem missed_kept_perm (C : Content) (bounds : TsBounds) :
    (C.missed bounds ++ C.tablePages.filter (kept bounds)).Perm C.tablePages :=
  List.perm_append_comm.trans (List.filter_append_perm _ _)

theorem union_unbounded (E : Engine F) (filters : List (Expr F)) :
    (C.tagging E filters).union C.chunks (C.tablePages.filter (kept .unbounded)) =
      (C.tagging E filters).union C.chunks C.tablePages := by
  rw [List.filter_eq_self.mpr fun e _ => kept_unbounded e]

theorem released_filter (C : Content) (E : Engine F) (filters : List (Expr F))
    (bounds : TsBounds) : (C.tagging E filters).released C.chunks C.tablePages
      (C.tablePages.filter (kept bounds)) =
        ((C.released bounds).flatMap HotChunk.rows).filter (E.passes C.columnNames filters) := by
  rw [List.filter_flatMap]
  apply Tagging.released_eq
  intro chunk _
  rw [Bool.and_eq_true, List.any_eq_true, List.all_eq_true]
  refine and_congr (exists_congr fun e => and_congr_right fun _ => decide_eq_true_iff) ?_
  constructor
  · intro hall e he htag
    obtain ⟨he, hkept⟩ := List.mem_filter.mp he
    have hone := hall e he
    rw [Bool.or_eq_true, decide_eq_true_eq, hkept] at hone
    rcases hone with hne | hfalse
    · exact hne htag
    · cases hfalse
  · intro hnone e he
    rw [Bool.or_eq_true, decide_eq_true_eq, Bool.not_eq_true']
    by_cases htag : e.2.tag = some (C.tag chunk)
    · right
      by_contra hkept
      exact hnone e (List.mem_filter.mpr ⟨he, (Bool.not_eq_false _).mp hkept⟩) htag
    · exact Or.inl htag

/-- Of a passing row the full scan lacks what the ring's chunks hold under missed pages only, and
the pruned scan what the missed pages hold. -/
theorem scan_counts {full pruned : List Row} (hfull : C.scan .unbounded = some full)
    (hchunks : C.ChunksKept E filters bounds) (hpruned : C.scan bounds = some pruned) {row : Row}
    (hpass : E.passes C.columnNames filters row = true) :
    (full.filter (E.passes C.columnNames filters)).count row +
        ((C.released bounds).flatMap HotChunk.rows).count row =
      (pruned.filter (E.passes C.columnNames filters)).count row +
        ((C.missed bounds).flatMap fun e => (e.2.batch C.cols).getD []).count row := by
  have hsplit := @Tagging.union_released _ _ _ _ (C.tagging E filters) _ C.chunks _ _ _
    (C.missed_kept_perm bounds).symm
  have hitems : (C.missed bounds).flatMap (C.tagging E filters).pageItems =
      ((C.missed bounds).flatMap fun e => (e.2.batch C.cols).getD []).filter
        (E.passes C.columnNames filters) := List.filter_flatMap.symm
  have hcount := hsplit.count_eq row
  rw [List.count_append, List.count_append, released_filter, hitems, List.count_filter hpass,
    List.count_filter hpass] at hcount
  rw [scan_filter chunksKept_unbounded hfull, union_unbounded, scan_filter hchunks hpruned]
  exact hcount

theorem row_length_of_scan {rows : List Row} (h : C.scan bounds = some rows) {row : Row}
    (hrow : row ∈ rows) : row.length = C.cols.length := by
  rw [scan_eq] at h
  obtain ⟨-, h⟩ := Option.ite_none_right_eq_some.mp h
  rw [← Option.some.inj h] at hrow
  rcases List.mem_append.mp hrow with hhot | hcold
  · obtain ⟨chunk, hchunk, hin⟩ := List.mem_flatMap.mp hhot
    simpa using congrArg List.length (C.typed chunk (List.mem_of_mem_filter hchunk) row hin)
  · obtain ⟨e, -, hin⟩ := List.mem_flatMap.mp hcold
    cases hbatch : e.2.batch C.cols with
    | none => simp [hbatch] at hin
    | some rows => exact batch_row_length hbatch (by simpa [hbatch] using hin)

/-- Covered pages may be pruned. -/
theorem pruned_perm (hdrained : C.Drained) {full : List Row}
    (hcover : ∀ k ∈ C.viewTs, ∀ e ∈ C.tablePages, C.LoneCopy e.2 ∨ C.PageCovered k e.1 e.2)
    (hfull : C.scan .unbounded = some full) {pruned : List Row}
    (hpruned : C.scan (C.boundsFor filters) = some pruned) :
    (full.filter (E.passes C.columnNames filters)).Perm
      (pruned.filter (E.passes C.columnNames filters)) := by
  cases hview : C.viewTs with
  | none =>
      rw [boundsFor_none hview, hfull] at hpruned
      rw [Option.some.inj hpruned]
  | some k =>
      have hperm := C.missed_kept_perm (C.boundsFor filters)
      rw [scan_filter chunksKept_unbounded hfull,
        scan_filter (C.chunksKept_boundsFor E filters) hpruned, union_unbounded]
      refine (Tagging.union_perm hperm.symm).trans (Tagging.union_drop C.tags_nodup ?_ ?_)
      · exact (copies hdrained E filters).subset hperm.subset
      · intro e he
        rw [missed, List.mem_filter, Bool.not_eq_true'] at he
        rcases hcover k hview e he.1 with hlone | hcovered
        · exact Or.inr (((lone_iff E filters e).mpr hlone).perm hperm.symm)
        · exact Or.inl (items_of_pruned hview hcovered he.2)

/-- A page that is neither a lone copy nor covered is lost to some filter. -/
theorem covered_of_sound (hdrained : C.Drained) (hsound : C.PruningSound)
    (hreadable : ∀ e ∈ C.tablePages, e.2.batch C.cols ≠ none) {k : ℕ} (hview : C.viewTs = some k)
    {e : ColdSegment × ColdPage} (he : e ∈ C.tablePages) (hlone : ¬ C.LoneCopy e.2) :
    C.PageCovered k e.1 e.2 := by
  intro rows hrows row hrow x hx
  by_contra hcovers
  have hmissed : ∃ r, ¬ Covers r x ∧ (r ∈ e.2.recorded ∨ r ∈ e.1.tsRange) := by
    by_contra hall
    apply hcovers
    constructor
    · intro r hr
      by_contra hno
      exact hall ⟨r, hno, Or.inl hr⟩
    · intro r hr
      by_contra hno
      exact hall ⟨r, hno, Or.inr hr⟩
  obtain ⟨r, hr, hwhere⟩ := hmissed
  obtain ⟨bounds, hadmits, hmisses⟩ := exists_window hr
  have hcell := (cell_column (viewTs_lt hview) row).trans hx
  obtain ⟨filters, hfilters⟩ : ∃ filters, filters =
      windowFilters (C.columnNames.getD k "") bounds := ⟨_, rfl⟩
  have hpass := hfilters ▸ passes_window hcell hadmits
  have hbounds : C.boundsFor filters = bounds := by
    rw [boundsFor_view hview, hfilters, windowFilters_bounds]
  rw [← hbounds] at hmisses
  obtain ⟨full, hfull⟩ := Option.isSome_iff_exists.mp (scan_isSome_of_readable hreadable .unbounded)
  obtain ⟨pruned, hpruned, hperm⟩ := hsound Unit lenient filters full hfull
  rw [scan_filter chunksKept_unbounded hfull,
    scan_filter (C.chunksKept_boundsFor lenient filters) hpruned, union_unbounded] at hperm
  have hsplit := C.missed_kept_perm (C.boundsFor filters)
  have hdropped : e ∈ C.missed (C.boundsFor filters) := by
    have hkept : kept (C.boundsFor filters) e = false := by
      rw [kept, Bool.and_eq_false_iff, Bool.not_eq_false', Bool.not_eq_false']
      rcases hwhere with hpage | hsegment
      · exact Or.inr ((Option.any_eq_true _ _).mpr ⟨r, hpage, hmisses⟩)
      · exact Or.inl ((Option.any_eq_true _ _).mpr ⟨r, hsegment, hmisses⟩)
    exact List.mem_filter.mpr ⟨he, by rw [hkept, Bool.not_false]⟩
  have hitems : (C.tagging lenient filters).pageItems e ≠ [] := by
    apply List.ne_nil_of_mem
    change row ∈ ((e.2.batch C.cols).getD []).filter _
    rw [hrows]
    exact List.mem_filter.mpr ⟨hrow, hpass⟩
  have hlt := Tagging.union_length_lt C.tags_nodup
    ((copies hdrained lenient filters).subset hsplit.subset) hdropped hitems
    fun h => hlone ((lone_iff lenient filters e).mp (h.perm hsplit))
  rw [(Tagging.union_perm hsplit).length_eq, hperm.length_eq] at hlt
  exact lt_irrefl _ hlt

/-- The full scan fails on a page that is no batch of the schema. -/
theorem scan_unbounded_unreadable {e : ColdSegment × ColdPage} (he : e ∈ C.tablePages)
    (hnone : e.2.batch C.cols = none) : C.scan .unbounded = none := by
  rw [scan_eq, if_neg]
  intro hall
  have hkept : e ∈ C.tablePages.filter (kept .unbounded) :=
    List.mem_filter.mpr ⟨he, kept_unbounded e⟩
  have hsome := List.all_eq_true.mp hall e hkept
  rw [hnone] at hsome
  cases hsome

theorem readable_of_scan {full : List Row} (hfull : C.scan .unbounded = some full) :
    ∀ e ∈ C.tablePages, e.2.batch C.cols ≠ none := by
  intro e he hnone
  rw [scan_unbounded_unreadable he hnone] at hfull
  cases hfull

theorem sound_of_ranges_cover (hdrained : C.Drained) (h : C.RangesCover) : C.PruningSound := by
  intro F E filters full hfull
  have hreadable := readable_of_scan hfull
  obtain ⟨pruned, hpruned⟩ :=
    Option.isSome_iff_exists.mp (scan_isSome_of_readable hreadable (C.boundsFor filters))
  rcases h with ⟨e, he, hnone⟩ | hcover
  · exact absurd hnone (hreadable e he)
  · exact ⟨pruned, hpruned, pruned_perm hdrained hcover hfull hpruned⟩

theorem ranges_cover_of_sound (hdrained : C.Drained) (hsound : C.PruningSound) :
    C.RangesCover := by
  by_cases hunreadable : ∃ e ∈ C.tablePages, e.2.batch C.cols = none
  · exact Or.inl hunreadable
  · right
    intro k hview e he
    have hreadable : ∀ e ∈ C.tablePages, e.2.batch C.cols ≠ none :=
      fun e he hnone => hunreadable ⟨e, he, hnone⟩
    by_cases hlone : C.LoneCopy e.2
    · exact Or.inl hlone
    · exact Or.inr (covered_of_sound hdrained hsound hreadable hview he hlone)

theorem sound_of_balanced (h : C.Balanced) : C.PruningSound := by
  intro F E filters full hfull
  have hreadable := readable_of_scan hfull
  obtain ⟨pruned, hpruned⟩ :=
    Option.isSome_iff_exists.mp (scan_isSome_of_readable hreadable (C.boundsFor filters))
  refine ⟨pruned, hpruned, ?_⟩
  rcases h with ⟨e, he, hnone⟩ | hbalanced
  · exact absurd hnone (hreadable e he)
  cases hview : C.viewTs with
  | none =>
      rw [boundsFor_none hview, hfull] at hpruned
      rw [Option.some.inj hpruned]
  | some k =>
      rw [List.perm_iff_count]
      intro row
      by_cases hin : row ∈ full.filter (E.passes C.columnNames filters) ∨
          row ∈ pruned.filter (E.passes C.columnNames filters)
      · -- a row of either scan has the designated cell, which the window admits
        have hlen : row.length = C.cols.length := by
          rcases hin with hrow | hrow
          · exact row_length_of_scan hfull (List.mem_of_mem_filter hrow)
          · exact row_length_of_scan hpruned (List.mem_of_mem_filter hrow)
        have hpass : E.passes C.columnNames filters row = true := by
          rcases hin with hrow | hrow
          · exact (List.mem_filter.mp hrow).2
          · exact (List.mem_filter.mp hrow).2
        have hk := viewTs_lt hview
        obtain ⟨x, hx⟩ : ∃ x, row[k]? = some x := ⟨_, List.getElem?_eq_getElem (hlen ▸ hk)⟩
        have hadmits : (C.boundsFor filters).Admits x := by
          intro z hz
          rw [boundsFor_view hview]
          exact ts_bounds_sound ((cell_column hk row).trans hx) hz hpass
        have hcounts := scan_counts hfull (C.chunksKept_boundsFor E filters) hpruned hpass
        have heq := hbalanced k hview (C.boundsFor filters) row x hx hadmits
        omega
      · obtain ⟨hfullrow, hprunedrow⟩ := not_or.mp hin
        rw [List.count_eq_zero.mpr hfullrow, List.count_eq_zero.mpr hprunedrow]

theorem balanced_of_sound (hsound : C.PruningSound) : C.Balanced := by
  by_cases hunreadable : ∃ e ∈ C.tablePages, e.2.batch C.cols = none
  · exact Or.inl hunreadable
  right
  intro k hview bounds row x hx hadmits
  have hreadable : ∀ e ∈ C.tablePages, e.2.batch C.cols ≠ none :=
    fun e he hnone => hunreadable ⟨e, he, hnone⟩
  -- filters with this window, which the row passes
  obtain ⟨filters, hfilters⟩ : ∃ filters, filters =
      windowFilters (C.columnNames.getD k "") bounds := ⟨_, rfl⟩
  have hcell := (cell_column (viewTs_lt hview) row).trans hx
  have hpass := hfilters ▸ passes_window hcell hadmits
  have hbounds : C.boundsFor filters = bounds := by
    rw [boundsFor_view hview, hfilters, windowFilters_bounds]
  obtain ⟨full, hfull⟩ := Option.isSome_iff_exists.mp (scan_isSome_of_readable hreadable .unbounded)
  obtain ⟨pruned, hpruned, hperm⟩ := hsound Unit lenient filters full hfull
  have hcounts := scan_counts hfull (C.chunksKept_boundsFor lenient filters) hpruned hpass
  have heq := hperm.count_eq row
  rw [hbounds] at hcounts
  omega

theorem headerTs_foldl (r : Int64 × Int64) (ts : List (Int64 × Int64)) :
    ts.foldl (fun r t => (min r.1 t.1, max r.2 t.2)) r =
      ((ts.map Prod.fst).foldl min r.1, (ts.map Prod.snd).foldl max r.2) := by
  induction ts generalizing r with
  | nil => rfl
  | cons t ts ih => exact ih _

/-- The header range contains the range of every page that has one. -/
theorem headerTs_contains {s : ColdSegment} {p : ColdPage} (hp : p ∈ s.pages)
    {r : Int64 × Int64} (hr : p.recorded = some r) : s.headerTs.1 ≤ r.1 ∧ r.2 ≤ s.headerTs.2 := by
  have hmem : r ∈ s.pages.filterMap ColdPage.recorded := List.mem_filterMap.mpr ⟨p, hp, hr⟩
  rw [ColdSegment.headerTs, headerTs_foldl]
  exact ⟨foldl_min_le _ (List.mem_map_of_mem hmem), le_foldl_max _ (List.mem_map_of_mem hmem)⟩

/-- Under the ring's own columns a page has its rows' timestamps in its range. -/
theorem page_ts_contains {p : ColdPage} (hcols : p.cols = C.cols) {i : ℕ}
    (hts : tsCol C.cols = some i) {rows : List Row} (hbatch : p.batch C.cols = some rows)
    {row : Row} (hrow : row ∈ rows) {x : Value} (hx : row[i]? = some x) :
    ∃ v, x = .I64 v ∧ p.ts.1 ≤ v ∧ v ≤ p.ts.2 := by
  obtain ⟨hlt, hdesignated, -⟩ := List.findIdx?_eq_some_iff_getElem.mp hts
  obtain ⟨⟨htypes, hlens⟩, hrows⟩ := Option.ite_none_right_eq_some.mp hbatch
  rw [← Option.some.inj hrows] at hrow
  obtain ⟨j, hj, rfl⟩ := List.mem_map.mp hrow
  have hlength : p.append.columns.length = C.cols.length := by
    simpa using congrArg List.length htypes
  obtain ⟨c, hc⟩ : ∃ c, p.append.columns[i]? = some c :=
    ⟨_, List.getElem?_eq_getElem (hlength ▸ hlt)⟩
  have hdtype : c.dtype = .I64 := by
    have hat : (p.append.columns.map ColumnData.dtype)[i]? = (C.cols.map Prod.snd)[i]? := by
      rw [htypes]
    rw [List.getElem?_map, List.getElem?_map, hc, List.getElem?_eq_getElem hlt] at hat
    exact (Option.some.inj hat).trans (of_decide_eq_true hdesignated).1
  have hlen := hlens c (List.mem_of_getElem? hc)
  cases c with
  | I64 v =>
      have hjv : j < v.length := by
        rw [List.mem_range, ← hlen] at hj
        exact hj
      rw [List.getElem?_map, hc, Option.map_some, columnValues,
        List.getD_eq_getElem _ _ (by rwa [List.length_map]), List.getElem_map,
        Option.some.injEq] at hx
      refine ⟨v[j], hx.symm, ?_⟩
      have hrange : p.ts = (v.foldl min tsMinInit, v.foldl max tsMaxInit) := by
        rw [ColdPage.ts, hcols, hts, Memc.tsRange, Option.bind_some, hc]
        exact foldl_widen _ v
      rw [hrange]
      exact ⟨foldl_min_le _ (List.getElem_mem hjv), le_foldl_max _ (List.getElem_mem hjv)⟩
  | U8 | U32 | I32 | F32 | F64 | U64 | Str | Bytes => cases hdtype

/-- A table whose pages were all appended under the ring's own columns is pruned soundly. -/
theorem pruning_sound_of_same_columns (hdrained : C.Drained)
    (hcols : ∀ e ∈ C.tablePages, e.2.cols = C.cols)
    {i : ℕ} (hts : tsCol C.cols = some i) (hi : i + 1 < 2 ^ 16) : C.PruningSound := by
  apply sound_of_ranges_cover hdrained
  right
  intro k hk e he
  have hview : C.viewTs = some i := by rw [viewTs, hts, Memt.viewTsCol_header hi]
  obtain rfl : i = k := Option.some.inj (hview.symm.trans hk)
  right
  intro rows hrows row hrow x hx
  obtain ⟨v, rfl, hlo, hhi⟩ := page_ts_contains (hcols e he) hts hrows hrow hx
  have hrecorded : e.2.recorded = some e.2.ts := if_pos (hlo.trans hhi)
  constructor
  · intro r hr
    obtain rfl := Option.some.inj (hrecorded.symm.trans hr)
    exact covers_I64 hlo hhi
  · intro r hr
    obtain ⟨-, hsegment⟩ := Option.ite_none_right_eq_some.mp hr
    obtain rfl := Option.some.inj hsegment
    have hcontains := headerTs_contains (mem_tablePages he).2 hrecorded
    exact covers_I64 (hcontains.1.trans hlo) (hhi.trans hcontains.2)

/-- A ring with two chunks, the older one compacted, and a page of a chunk that was recycled. -/
def compacted : Content where
  cols := [("ts", .I64), ("b", .I64)]
  instance_id := 2
  chunks := [⟨0, 3, [[.I64 20, .I64 1], [.I64 30, .I64 2]]⟩, ⟨1, 1, [[.I64 40, .I64 3]]⟩]
  segments := [{
    isSealed := true
    pages := [⟨[("ts", .I64), ("b", .I64)], 1, [.I64 [10], .I64 [0]], 2, 0, 1⟩,
      ⟨[("ts", .I64), ("b", .I64)], 1, [.I64 [20, 30], .I64 [1, 2]], 2, 0, 3⟩]
    tableIdByName := some 1 }]
  designated := by decide
  names := by decide
  typed := by decide
  indices := by decide

/-- Columns of an older definition of the table that still fit the types of the new one. -/
def renamed : Content where
  cols := [("ts", .I64), ("b", .I64)]
  instance_id := 2
  chunks := []
  segments := [{
    isSealed := true
    pages := [⟨[("a", .I64), ("ts", .I64)], 1, [.I64 [150], .I64 [10]], 1, 0, 1⟩]
    tableIdByName := some 1 }]
  designated := by decide
  names := by decide
  typed := by simp
  indices := by decide

theorem renamed_full : renamed.scan .unbounded = some [[.I64 150, .I64 10]] := by decide

theorem renamed_pruned :
    renamed.scan (renamed.boundsFor [tsCompare "ts" .GtEq 100]) = some [] := by decide

end Content

end Probing.Sql
