import Probing.Proto.Merge

/-!
# When merging is exact

Each column of the first part grows by the elements that the later parts have under its
name. It has as many rows as the merged frame only if it takes all of them.
-/

namespace Probing.Proto

section Columns

/-- A frame with further columns that start with empty texts. -/
structure Extends (base b : DataFrame) : Prop where
  width : b.cols.length = b.names.length
  old : ∀ i : ℕ, i < base.names.length → b.names[i]? = base.names[i]? ∧ b.cols[i]? = base.cols[i]?
  longer : base.names.length ≤ b.names.length
  new : ∀ (i : ℕ) (n : String) (d : Seq), base.names.length ≤ i → b.names[i]? = some n →
    b.cols[i]? = some d → n ∉ base.names ∧ ∃ k, 0 < k ∧ d = .SeqText (List.replicate k "")

variable {base b : DataFrame}

theorem Extends.rowCount_le (h : Extends base b) (hwidth : base.cols.length = base.names.length) :
    base.rowCount ≤ b.rowCount := by
  apply DataFrame.rowCount_le
  intro c hc
  obtain ⟨i, hi⟩ := List.mem_iff_getElem?.mp hc
  have hlt : i < base.names.length := hwidth ▸ (List.getElem?_eq_some_iff.mp hi).1
  apply DataFrame.len_le_rowCount
  exact List.mem_of_getElem? ((h.old i hlt).2.trans hi)

/-- Adding a column with a new name. -/
theorem Extends.add (h : Extends base b) (hwidth : base.cols.length = base.names.length)
    (hrows : 0 < base.rowCount) {name : String} (hname : name ∉ b.names) :
    Extends base { b with
      names := b.names ++ [name]
      cols := b.cols ++ [.SeqText (List.replicate b.rowCount "")] } := by
  have hlonger := h.longer
  have hcols := h.width
  refine ⟨by simp [h.width], fun i hi => ?_, by simp; omega, fun i n d hi hn hd => ?_⟩
  · rw [List.getElem?_append_left (by omega), List.getElem?_append_left (by omega)]
    exact h.old i hi
  · rcases Nat.lt_trichotomy i b.names.length with hlt | heq | hgt
    · rw [List.getElem?_append_left hlt] at hn
      rw [List.getElem?_append_left (by omega)] at hd
      exact h.new i n d hi hn hd
    · subst heq
      rw [List.getElem?_concat_length] at hn
      rw [← h.width, List.getElem?_concat_length] at hd
      obtain rfl := Option.some.inj hn
      obtain rfl := Option.some.inj hd
      refine ⟨fun hbase => hname ?_, b.rowCount, (h.rowCount_le hwidth).trans_lt' hrows, rfl⟩
      obtain ⟨j, hj⟩ := List.mem_iff_getElem?.mp hbase
      have hjlt := (List.getElem?_eq_some_iff.mp hj).1
      exact List.mem_of_getElem? ((h.old j hjlt).1.trans hj)
    · rw [List.getElem?_eq_none (by simp; omega)] at hn
      cases hn

theorem addColumns_extends (hwidth : base.cols.length = base.names.length)
    (hrows : 0 < base.rowCount) (other : DataFrame) : Extends base (addColumns base other) ∧
      ∀ n, n ∈ (addColumns base other).names ↔ n ∈ base.names ∨ n ∈ other.names := by
  unfold addColumns
  induction other.names using List.reverseRecOn with
  | nil => exact ⟨⟨hwidth, fun _ _ => ⟨rfl, rfl⟩, le_refl _, fun i n d hi hn _ => absurd hn (by
      rw [List.foldl_nil, List.getElem?_eq_none hi]
      exact nofun)⟩, by simp⟩
  | append_singleton names name ih =>
      obtain ⟨hext, hmem⟩ := ih
      rw [List.foldl_append, List.foldl_cons, List.foldl_nil]
      split_ifs with hname
      · refine ⟨hext, fun n => ?_⟩
        rw [hmem, List.mem_append, List.mem_singleton]
        constructor
        · tauto
        · rintro (hn | hn | rfl)
          · exact .inl hn
          · exact .inr hn
          · exact (hmem n).mp hname
      · refine ⟨hext.add hwidth hrows hname, fun n => ?_⟩
        simp only [List.mem_append, List.mem_singleton, hmem]
        tauto

end Columns

section Grown

variable {first out p : DataFrame} {rest : List DataFrame}

theorem grow_head {col : Seq} {e : Ele} (eles : List Ele) (htyped : col.dtype ≠ .Nil)
    (h : col.get 0 = e) (hlen : 0 < col.len) : (grow col eles).get 0 = e ∧
    0 < (grow col eles).len := by
  induction eles using List.reverseRecOn with
  | nil => exact ⟨h, hlen⟩
  | append_singleton eles x ih =>
      have htyped' : (grow col eles).dtype ≠ .Nil := by rwa [grow_dtype htyped]
      rw [grow_append]
      change (appendIgnored (grow col eles) x).get 0 = e ∧ 0 < (appendIgnored (grow col eles) x).len
      by_cases htake : Takes (grow col eles) x
      · have heles := (appendIgnored_takes htyped' htake).1
        have hpos : 0 < (grow col eles).eles.length := by rw [Seq.eles_length]; exact ih.2
        rw [Seq.get_eq, heles, List.getElem?_append_left hpos, ← Seq.get_eq,
          ← Seq.eles_length, heles, List.length_append]
        exact ⟨ih.1, by omega⟩
      · rw [appendIgnored_drops htyped' htake]
        exact ih

/-- What the merged frame is after the parts with rows. -/
structure Grown (first : DataFrame) (rest : List DataFrame) (out : DataFrame) : Prop where
  width : out.cols.length = out.names.length
  old : ∀ (i : ℕ) (n : String) (c : Seq), first.names[i]? = some n → first.cols[i]? = some c →
    out.names[i]? = some n ∧ out.cols[i]? = some (grow c (rest.flatMap (cells · n)))
  longer : first.names.length ≤ out.names.length
  new : ∀ (i : ℕ) (n : String) (d : Seq), first.names.length ≤ i → out.names[i]? = some n →
    out.cols[i]? = some d → n ∉ first.names ∧ d.dtype ≠ .Nil ∧ d.get 0 = .Text "" ∧ 0 < d.len
  names : ∀ n, n ∈ out.names ↔ n ∈ first.names ∨ ∃ p ∈ rest, n ∈ p.names

theorem typed_of_len {c : Seq} (h : 0 < c.len) : c.dtype ≠ .Nil := by
  cases c <;> simp_all [Seq.len, Seq.dtype]

/-- Columns only become longer. -/
theorem Grown.not_empty (h : Grown first rest out) (hfirst : first.Rectangular)
    (hrows : 0 < first.rowCount) :
    0 < out.rowCount := by
  have hcol : ∃ c ∈ first.cols, 0 < c.len := by
    by_contra hnone
    have hzero : first.rowCount ≤ 0 := DataFrame.rowCount_le fun c hc =>
      Nat.le_of_not_lt fun hpos => hnone ⟨c, hc, hpos⟩
    omega
  obtain ⟨c, hc, hlen⟩ := hcol
  obtain ⟨i, hi⟩ := List.mem_iff_getElem?.mp hc
  have hlt : i < first.names.length := hfirst.width ▸ (List.getElem?_eq_some_iff.mp hi).1
  have hout := (h.old i _ c (List.getElem?_eq_getElem hlt) hi).2
  exact (grow_head _ (typed_of_len hlen) rfl hlen).2.trans_le
    (DataFrame.len_le_rowCount (List.mem_of_getElem? hout))

theorem Grown.start (hfirst : first.Rectangular) : Grown first [] first where
  width := hfirst.width
  old i n c hn hc := ⟨hn, hc⟩
  longer := le_refl _
  new i n d hi hn _ := by
    rw [List.getElem?_eq_none hi] at hn
    cases hn
  names n := by simp

theorem Grown.step (h : Grown first rest out) (hfirst : first.Rectangular)
    (hrows : 0 < first.rowCount)
    (hp : p.isEmpty = false) : Grown first (rest ++ [p]) (appendDataframe out p) := by
  have hpos := h.not_empty hfirst hrows
  have hout : out.isEmpty = false := DataFrame.not_empty_iff.mpr hpos
  obtain ⟨hext, hmem⟩ := addColumns_extends h.width hpos p
  have hlonger := hext.longer
  have hcols (i : ℕ) (n : String) (c : Seq) (hn : (addColumns out p).names[i]? = some n)
      (hc : (addColumns out p).cols[i]? = some c) :
      (appendDataframe out p).cols[i]? = some (grow c (cells p n)) := by
    unfold appendDataframe
    rw [if_neg (by simp [hp]), if_neg (by simp [hout])]
    dsimp only
    rw [List.getElem?_mapIdx, hc, Option.map_some, hn]
    unfold grow cells
    rw [List.foldl_map]
  have hnames : (appendDataframe out p).names = (addColumns out p).names := by
    unfold appendDataframe
    rw [hp, hout]
    rfl
  have hcol_of {i : ℕ} {n : String} (hn : (addColumns out p).names[i]? = some n) :
      ∃ c, (addColumns out p).cols[i]? = some c := by
    have hlt := (List.getElem?_eq_some_iff.mp hn).1
    exact ⟨_, List.getElem?_eq_getElem (hext.width ▸ hlt)⟩
  refine ⟨?_, fun i n c hn hc => ?_, ?_, fun i n d hi hn hd => ?_, fun n => ?_⟩
  · rw [hnames, ← hext.width]
    unfold appendDataframe
    rw [hp, hout]
    simp
  · obtain ⟨hn', hc'⟩ := h.old i n c hn hc
    have hlt := (List.getElem?_eq_some_iff.mp hn').1
    obtain ⟨hsame, hsame'⟩ := hext.old i hlt
    rw [hnames, hsame]
    refine ⟨hn', ?_⟩
    rw [hcols i n _ (hsame.trans hn') (hsame'.trans hc'), List.flatMap_append, grow_append]
    simp
  · rw [hnames]
    exact h.longer.trans hlonger
  · rw [hnames] at hn
    obtain ⟨c, hc⟩ := hcol_of hn
    rw [hcols i n c hn hc] at hd
    obtain rfl := Option.some.inj hd
    by_cases hold : i < out.names.length
    · obtain ⟨hsame, hsame'⟩ := hext.old i hold
      obtain ⟨hnot, htyped, hhead, hlen⟩ :=
        h.new i n c hi (hsame.symm.trans hn) (hsame'.symm.trans hc)
      obtain ⟨hhead', hlen'⟩ := grow_head (cells p n) htyped hhead hlen
      exact ⟨hnot, by rwa [grow_dtype htyped], hhead', hlen'⟩
    · obtain ⟨hnot, k, hk, rfl⟩ := hext.new i n c (Nat.le_of_not_lt hold) hn hc
      have htyped : (Seq.SeqText (List.replicate k "")).dtype ≠ .Nil := nofun
      have hhead : (Seq.SeqText (List.replicate k "")).get 0 = .Text "" := by
        simp [Seq.get, hk]
      have hlen : 0 < (Seq.SeqText (List.replicate k "")).len := by simpa [Seq.len] using hk
      obtain ⟨hhead', hlen'⟩ := grow_head (cells p n) htyped hhead hlen
      refine ⟨fun hfirst' => hnot ((h.names n).mpr (.inl hfirst')), ?_, hhead', hlen'⟩
      rwa [grow_dtype htyped]
  · rw [hnames, hmem, h.names]
    simp only [List.mem_append, List.mem_singleton, or_assoc]
    constructor
    · rintro (hn | ⟨q, hq, hn⟩ | hn)
      · exact .inl hn
      · exact .inr ⟨q, .inl hq, hn⟩
      · exact .inr ⟨p, .inr rfl, hn⟩
    · rintro (hn | ⟨q, hq | rfl, hn⟩)
      · exact .inl hn
      · exact .inr (.inl ⟨q, hq, hn⟩)
      · exact .inr (.inr hn)

/-- The loop of `merge_dataframes`. -/
def mergeStep (out df : DataFrame) : DataFrame :=
  if df.isEmpty then out else if out.isEmpty then df else appendDataframe out df

/-- The merged frame is grown from the first part with rows. -/
theorem fold_grown {parts : List DataFrame} (hparts : ∀ p ∈ parts, p.Rectangular) :
    (parts.filter (fun p => !p.isEmpty) = [] → parts.foldl mergeStep ⟨[], [], 0⟩ = ⟨[], [], 0⟩) ∧
      ∀ first rest, parts.filter (fun p => !p.isEmpty) = first :: rest →
        Grown first rest (parts.foldl mergeStep ⟨[], [], 0⟩) := by
  induction parts using List.reverseRecOn with
  | nil => exact ⟨fun _ => rfl, fun _ _ h => nomatch h⟩
  | append_singleton parts p ih =>
      obtain ⟨hnone, hsome⟩ := ih fun q hq => hparts q (List.mem_append_left _ hq)
      rw [List.filter_append, List.foldl_append, List.foldl_cons, List.foldl_nil]
      unfold mergeStep
      cases hp : p.isEmpty with
      | true =>
          rw [if_pos rfl, List.filter_cons_of_neg (by simp [hp]), List.filter_nil, List.append_nil]
          exact ⟨hnone, hsome⟩
      | false =>
          rw [if_neg Bool.false_ne_true, List.filter_cons_of_pos (by simp [hp]), List.filter_nil]
          refine ⟨fun h => absurd h (by simp), fun first rest hfilter => ?_⟩
          cases hprev : parts.filter (fun p => !p.isEmpty) with
          | nil =>
              rw [hprev] at hfilter
              obtain ⟨rfl, rfl⟩ := List.cons.inj hfilter
              change Grown p [] (if (parts.foldl mergeStep ⟨[], [], 0⟩).isEmpty then p else _)
              rw [hnone hprev, if_pos (by decide)]
              exact .start (hparts p (by simp))
          | cons q qs =>
              rw [hprev] at hfilter
              obtain ⟨rfl, rfl⟩ := List.cons.inj hfilter
              have hq : q ∈ parts.filter fun p => !p.isEmpty := by
                rw [hprev]; exact List.mem_cons_self
              have hqparts := List.mem_filter.mp hq
              have hrect := hparts q (List.mem_append_left _ hqparts.1)
              have hrows : 0 < q.rowCount := DataFrame.not_empty_iff.mp (by simpa using hqparts.2)
              have hgrown := hsome q qs hprev
              have hout : (parts.foldl mergeStep ⟨[], [], 0⟩).isEmpty = false :=
                DataFrame.not_empty_iff.mpr (hgrown.not_empty hrect hrows)
              change Grown q (qs ++ [p])
                (if (parts.foldl mergeStep ⟨[], [], 0⟩).isEmpty then p else _)
              rw [if_neg (by simp [hout])]
              exact hgrown.step hrect hrows hp

end Grown

section Cells

variable {p : DataFrame} {name : String} {c d : Seq}

theorem eles_eq_map_get (c : Seq) : c.eles = (List.range c.len).map c.get := by
  apply List.ext_getElem
  · simp
  · intro i hi _
    simp [Seq.get_eq, List.getElem?_eq_getElem hi]

theorem eles_ext (hlen : c.len = d.len) (h : ∀ i < c.len, c.get i = d.get i) : c.eles = d.eles := by
  rw [eles_eq_map_get c, eles_eq_map_get d, ← hlen]
  exact List.map_congr_left fun i hi => h i (List.mem_range.mp hi)

theorem column_len (hp : p.Rectangular) (h : p.Column name c) : c.len = p.rowCount := by
  obtain ⟨i, -, hc⟩ := h
  exact hp.height c (List.mem_of_getElem? hc)

theorem Column.mem (h : p.Column name c) : name ∈ p.names := by
  obtain ⟨i, hn, -⟩ := h
  exact List.mem_of_getElem? hn

/-- The first column with a name decides its elements. -/
theorem cells_of_name (hp : p.Rectangular) (h : name ∈ p.names) :
    ∃ first, p.Column name first ∧ cells p name = first.eles := by
  obtain ⟨i, hi⟩ : ∃ i, p.colIndex name = some i := by
    rw [← Option.isSome_iff_exists]
    unfold DataFrame.colIndex
    rw [List.findIdx?_isSome]
    exact List.any_eq_true.mpr ⟨name, h, by simp⟩
  obtain ⟨hlt, hname, -⟩ := List.findIdx?_eq_some_iff_getElem.mp hi
  have hwidth : i < p.cols.length := hp.width ▸ hlt
  have hcol : p.cols[i]? = some p.cols[i] := List.getElem?_eq_getElem hwidth
  have hat : p.names[i]? = some name := by
    rw [List.getElem?_eq_getElem hlt]
    simpa using hname
  refine ⟨_, ⟨i, hat, hcol⟩, ?_⟩
  rw [eles_eq_map_get, column_len hp ⟨i, hat, hcol⟩]
  unfold cells
  apply List.map_congr_left
  intro row _
  unfold DataFrame.ele
  rw [hi, Option.bind_some, hcol]
  rfl

theorem cells_of_missing (h : name ∉ p.names) : cells p name = List.replicate p.rowCount .Nil := by
  have hnone : p.colIndex name = none := by
    unfold DataFrame.colIndex
    rw [List.findIdx?_eq_none_iff]
    intro x hx
    simpa using fun heq : x = name => h (heq ▸ hx)
  unfold cells DataFrame.ele
  rw [hnone]
  simp [List.map_const']

theorem Consistent.cells (hcons : Consistent p) (hp : p.Rectangular) (h : p.Column name c) :
    Probing.Proto.cells p name = c.eles := by
  obtain ⟨first, hfirst, hcells⟩ := cells_of_name hp (Column.mem h)
  rw [hcells, hcons name first c hfirst h]

theorem flatMap_cells_length (parts : List DataFrame) (name : String) :
    (parts.flatMap (cells · name)).length = (parts.map DataFrame.rowCount).sum := by
  simp [List.length_flatMap]

/-- The elements of one part in the merged column. -/
theorem flatMap_cells_at (pre post : List DataFrame) (p : DataFrame) (name : String) {row : ℕ}
    (hrow : row < p.rowCount) :
    ((pre ++ p :: post).flatMap (cells · name))[(pre.map DataFrame.rowCount).sum + row]? =
      (cells p name)[row]? := by
  rw [List.flatMap_append, List.flatMap_cons, ← flatMap_cells_length pre name,
    List.getElem?_append_right (Nat.le_add_right _ _), Nat.add_sub_cancel_left,
    List.getElem?_append_left (by rwa [cells_length])]

variable (parts : List DataFrame)

/-- Parts without rows add nothing. -/
theorem flatMap_cells_filter (name : String) :
    (parts.filter fun p => !p.isEmpty).flatMap (cells · name) = parts.flatMap (cells · name) := by
  induction parts with
  | nil => rfl
  | cons p parts ih =>
      cases hp : p.isEmpty with
      | true =>
          have hzero : p.rowCount = 0 := by simpa [DataFrame.isEmpty] using hp
          rw [List.filter_cons_of_neg (by simp [hp]), List.flatMap_cons, ih]
          simp [cells, hzero]
      | false =>
          rw [List.filter_cons_of_pos (by simp [hp]), List.flatMap_cons, List.flatMap_cons, ih]

theorem rows_filter : ((parts.filter fun p => !p.isEmpty).map DataFrame.rowCount).sum =
    (parts.map DataFrame.rowCount).sum := by
  rw [← flatMap_cells_length _ "", ← flatMap_cells_length _ "", flatMap_cells_filter]

end Cells

section Exact

variable {parts rest : List DataFrame} {first out : DataFrame}

theorem column_index {df : DataFrame} (hwidth : df.cols.length = df.names.length) {n : String}
    (h : n ∈ df.names) :
    ∃ d, df.Column n d := by
  obtain ⟨i, hi⟩ := List.mem_iff_getElem?.mp h
  have hlt := (List.getElem?_eq_some_iff.mp hi).1
  exact ⟨_, i, hi, List.getElem?_eq_getElem (hwidth ▸ hlt)⟩

/-- A merged column is an old one, or it starts with an empty text. -/
theorem Grown.column (h : Grown first rest out) (hfirst : first.Rectangular) {n : String} {d : Seq}
    (hd : out.Column n d) : (∃ c, first.Column n c ∧ d = grow c (rest.flatMap (cells · n))) ∨
      n ∉ first.names ∧ d.get 0 = .Text "" := by
  obtain ⟨i, hn, hd⟩ := hd
  by_cases hi : i < first.names.length
  · obtain ⟨hn', hd'⟩ := h.old i _ _ (List.getElem?_eq_getElem hi)
      (List.getElem?_eq_getElem (hfirst.width.symm ▸ hi))
    obtain rfl := Option.some.inj (hn'.symm.trans hn)
    have hi' : i < first.cols.length := hfirst.width.symm ▸ hi
    exact .inl ⟨_, ⟨i, List.getElem?_eq_getElem hi, List.getElem?_eq_getElem hi'⟩,
      Option.some.inj (hd.symm.trans hd')⟩
  · obtain ⟨hnot, -, hhead, -⟩ := h.new i n d (Nat.le_of_not_lt hi) hn hd
    exact .inr ⟨hnot, hhead⟩

theorem Grown.old_column (h : Grown first rest out) {n : String} {c : Seq} (hc : first.Column n c) :
    out.Column n (grow c (rest.flatMap (cells · n))) := by
  obtain ⟨i, hn, hc⟩ := hc
  obtain ⟨hn', hc'⟩ := h.old i n c hn hc
  exact ⟨i, hn', hc'⟩

variable (hparts : ∀ p ∈ parts, p.Rectangular)
  (hfilter : parts.filter (fun p => !p.isEmpty) = first :: rest)
include hparts hfilter

theorem mem_of_filter {p : DataFrame} (hp : p ∈ first :: rest) :
    p ∈ parts ∧ p.Rectangular ∧ p.isEmpty = false ∧ 0 < p.rowCount := by
  rw [← hfilter, List.mem_filter] at hp
  have hempty : p.isEmpty = false := by simpa using hp.2
  exact ⟨hp.1, hparts p hp.1, hempty, DataFrame.not_empty_iff.mp hempty⟩

/-- An exact merge has not dropped any element. -/
theorem compatible_of_merges (hgrown : Grown first rest out) (h : Merges parts out) :
    Consistent first ∧ ∀ p ∈ rest, Consistent p ∧ (∀ name, name ∈ p.names ↔ name ∈ first.names) ∧
      ∀ name c d, first.Column name c → p.Column name d → d.dtype = c.dtype ∧ c.dtype ≠ .BOOL := by
  obtain ⟨-, hfirst, -, hfirst_rows⟩ := mem_of_filter hparts hfilter List.mem_cons_self
  have hcons (p : DataFrame) (hp : p ∈ first :: rest) : Consistent p := by
    obtain ⟨hmem, hrect, hempty, -⟩ := mem_of_filter hparts hfilter hp
    obtain ⟨pre, post, hsplit⟩ := List.append_of_mem hmem
    intro name c d hc hd
    obtain ⟨D, hD⟩ :=
      column_index h.rectangular.width (h.present pre p post hsplit hempty name (Column.mem hc))
    apply eles_ext ((column_len hrect hc).trans (column_len hrect hd).symm)
    intro row hrow
    rw [column_len hrect hc] at hrow
    rw [← h.cell pre p post hsplit row hrow name c D hc hD,
      h.cell pre p post hsplit row hrow name d D hd hD]
  have htakes (name : String) (c : Seq) (hc : first.Column name c) (p : DataFrame) (hp : p ∈ rest) :
      ∀ e ∈ cells p name, Takes c e := by
    have hlen : c.len = first.rowCount := column_len hfirst hc
    have htyped : c.dtype ≠ .Nil := typed_of_len (hlen ▸ hfirst_rows)
    have hwhole : (grow c (rest.flatMap (cells · name))).len =
        c.len + (rest.flatMap (cells · name)).length := by
      rw [column_len h.rectangular (hgrown.old_column hc), h.rows, ← rows_filter,
        hfilter, List.map_cons, List.sum_cons, hlen, flatMap_cells_length]
    intro e he
    exact takes_of_grow_len htyped hwhole e (List.mem_flatMap.mpr ⟨p, hp, he⟩)
  refine ⟨hcons first List.mem_cons_self, fun p hp => ?_⟩
  obtain ⟨hmem, hrect, hempty, hrows⟩ :=
    mem_of_filter hparts hfilter (List.mem_cons_of_mem first hp)
  have hnames (name : String) : name ∈ p.names ↔ name ∈ first.names := by
    constructor
    · intro hname
      by_contra hnot
      obtain ⟨pre, post, hsplit⟩ := List.append_of_mem hmem
      obtain ⟨D, hD⟩ :=
        column_index h.rectangular.width (h.present pre p post hsplit hempty name hname)
      obtain ⟨before, after, hpre, hbefore, -, -⟩ := List.filter_eq_cons_iff.mp hfilter
      have hzero : (before.map DataFrame.rowCount).sum = 0 := by
        rw [← rows_filter, List.filter_eq_nil_iff.mpr hbefore]
        rfl
      have hmissing := h.missing before first after hpre 0 hfirst_rows name D hnot hD
      rw [hzero] at hmissing
      rcases hgrown.column hfirst hD with ⟨c, hc, -⟩ | ⟨-, hhead⟩
      · exact hnot (Column.mem hc)
      · rw [hhead] at hmissing
        cases hmissing
    · intro hname
      by_contra hnot
      obtain ⟨c, hc⟩ := column_index hfirst.width hname
      have htyped : c.dtype ≠ .Nil := typed_of_len ((column_len hfirst hc).symm ▸ hfirst_rows)
      have hnil : Ele.Nil ∈ cells p name := by
        rw [cells_of_missing hnot]
        exact List.mem_replicate.mpr ⟨hrows.ne', rfl⟩
      exact htyped (htakes name c hc p hp _ hnil).1.symm
  refine ⟨hcons p (List.mem_cons_of_mem first hp), hnames, fun name c d hc hd => ?_⟩
  have hcells := (hcons p (List.mem_cons_of_mem first hp)).cells hrect hd
  have hpos : 0 < d.eles.length := by rw [Seq.eles_length, column_len hrect hd]; exact hrows
  have hhead := List.getElem_mem hpos
  have htake := htakes name c hc p hp _ (by rw [hcells]; exact hhead)
  exact ⟨(Seq.dtype_of_mem hhead).symm.trans htake.1, htake.2⟩

/-- Columns of the same type are merged element by element. -/
theorem merges_of_compatible (hgrown : Grown first rest out) (hfirst_cons : Consistent first)
    (hrest : ∀ p ∈ rest, Consistent p ∧ (∀ name, name ∈ p.names ↔ name ∈ first.names) ∧
      ∀ name c d, first.Column name c → p.Column name d → d.dtype = c.dtype ∧ c.dtype ≠ .BOOL) :
    Merges parts out := by
  obtain ⟨-, hfirst, -, hfirst_rows⟩ := mem_of_filter hparts hfilter List.mem_cons_self
  have hpart (p : DataFrame) (hp : p ∈ first :: rest) : Consistent p ∧ ∀ name, name ∈ p.names ↔
      name ∈ first.names := by
    rcases List.mem_cons.mp hp with rfl | hp
    · exact ⟨hfirst_cons, fun _ => Iff.rfl⟩
    · exact ⟨(hrest p hp).1, (hrest p hp).2.1⟩
  have hsource {p : DataFrame} (hp : p ∈ parts) {row : ℕ} (hrow : row < p.rowCount) :
      p ∈ first :: rest := by
    rw [← hfilter]
    exact List.mem_filter.mpr
      ⟨hp, by simpa using DataFrame.not_empty_iff.mpr (Nat.zero_lt_of_lt hrow)⟩
  have hnames (name : String) : name ∈ out.names ↔ name ∈ first.names := by
    rw [hgrown.names]
    constructor
    · rintro (hname | ⟨p, hp, hname⟩)
      · exact hname
      · exact ((hrest p hp).2.1 name).mp hname
    · exact .inl
  have heles (name : String) (d : Seq) (hd : out.Column name d) : d.eles =
      parts.flatMap (cells · name) := by
    rcases hgrown.column hfirst hd with ⟨c, hc, rfl⟩ | ⟨hnot, -⟩
    · have htyped : c.dtype ≠ .Nil := typed_of_len ((column_len hfirst hc).symm ▸ hfirst_rows)
      have htakes : ∀ e ∈ rest.flatMap (cells · name), Takes c e := by
        intro e he
        obtain ⟨p, hp, he⟩ := List.mem_flatMap.mp he
        obtain ⟨-, hrect, -, -⟩ := mem_of_filter hparts hfilter (List.mem_cons_of_mem first hp)
        obtain ⟨-, hsame, htypes⟩ := hrest p hp
        obtain ⟨d, hd, hcells⟩ := cells_of_name hrect ((hsame name).mpr (Column.mem hc))
        obtain ⟨hdtype, hbool⟩ := htypes name c d hc hd
        exact ⟨(Seq.dtype_of_mem (hcells ▸ he)).trans hdtype, hbool⟩
      rw [grow_eles htyped htakes, ← hfirst_cons.cells hfirst hc, ← flatMap_cells_filter parts,
        hfilter, List.flatMap_cons]
    · exact absurd ((hnames name).mp (Column.mem hd)) hnot
  have hlen (name : String) (d : Seq) (hd : out.Column name d) : d.len =
      (parts.map DataFrame.rowCount).sum := by
    rw [← Seq.eles_length, heles name d hd, flatMap_cells_length]
  have hevery (d : Seq) (hd : d ∈ out.cols) : d.len = (parts.map DataFrame.rowCount).sum := by
    obtain ⟨i, hi⟩ := List.mem_iff_getElem?.mp hd
    have hlt := (List.getElem?_eq_some_iff.mp hi).1
    exact hlen _ d ⟨i, List.getElem?_eq_getElem (hgrown.width ▸ hlt), hi⟩
  have hrows : out.rowCount = (parts.map DataFrame.rowCount).sum := by
    apply Nat.le_antisymm (DataFrame.rowCount_le fun d hd => (hevery d hd).le)
    have hpos := hgrown.not_empty hfirst hfirst_rows
    obtain ⟨d, hd⟩ : ∃ d, d ∈ out.cols := by
      by_contra hnone
      have hzero : out.rowCount ≤ 0 := DataFrame.rowCount_le fun d hd => absurd ⟨d, hd⟩ hnone
      omega
    exact (hevery d hd).symm.le.trans (DataFrame.len_le_rowCount hd)
  refine ⟨⟨hgrown.width, fun d hd => (hevery d hd).trans hrows.symm⟩, hrows, ?_, ?_, ?_⟩
  · intro pre p post hsplit hempty name hname
    have hp : p ∈ parts := hsplit ▸ List.mem_append_right pre List.mem_cons_self
    have hp' := hsource hp (DataFrame.not_empty_iff.mp hempty)
    exact (hnames name).mpr (((hpart p hp').2 name).mp hname)
  · intro pre p post hsplit row hrow name c d hc hd
    have hp : p ∈ parts := hsplit ▸ List.mem_append_right pre List.mem_cons_self
    have hcells := (hpart p (hsource hp hrow)).1.cells (hparts p hp) hc
    rw [Seq.get_eq, heles name d hd, hsplit, flatMap_cells_at pre post p name hrow,
      hcells, Seq.get_eq]
  · intro pre p post hsplit row hrow name d hnot hd
    have hp : p ∈ parts := hsplit ▸ List.mem_append_right pre List.mem_cons_self
    exact absurd (((hpart p (hsource hp hrow)).2 name).mpr ((hnames name).mp (Column.mem hd))) hnot

end Exact

/-- The recorded size plays no part. -/
theorem merges_size {parts : List DataFrame} {out : DataFrame} (size : ℕ) :
    Merges parts { out with size := size } ↔ Merges parts out := by
  constructor
  · intro h
    exact ⟨⟨h.rectangular.width, h.rectangular.height⟩, h.rows, h.present, h.cell, h.missing⟩
  · intro h
    exact ⟨⟨h.rectangular.width, h.rectangular.height⟩, h.rows, h.present, h.cell, h.missing⟩

/-- Parts without rows merge into a frame without columns. -/
theorem merges_nothing {parts : List DataFrame} (h : parts.filter (fun p => !p.isEmpty) = []) :
    Merges parts ⟨[], [], 0⟩ := by
  have hzero (p : DataFrame) (hp : p ∈ parts) : p.rowCount = 0 := by
    have hempty := List.filter_eq_nil_iff.mp h p hp
    simpa [DataFrame.isEmpty] using hempty
  have hmem {pre p post} (hsplit : parts = pre ++ p :: post) : p ∈ parts :=
    hsplit ▸ List.mem_append_right pre List.mem_cons_self
  refine ⟨⟨rfl, fun c hc => nomatch hc⟩, ?_, ?_, ?_, ?_⟩
  · rw [← rows_filter, h]
    rfl
  · intro pre p post hsplit hempty
    have hpos := DataFrame.not_empty_iff.mp hempty
    rw [hzero p (hmem hsplit)] at hpos
    cases hpos
  · intro pre p post hsplit row hrow
    rw [hzero p (hmem hsplit)] at hrow
    cases hrow
  · intro pre p post hsplit row hrow
    rw [hzero p (hmem hsplit)] at hrow
    cases hrow

/-- Merging is exact for parts with the same columns and types, and for no others. -/
theorem merge_exact_iff {parts : List DataFrame} (hparts : ∀ p ∈ parts, p.Rectangular) :
    Merges parts (mergeDataframes parts) ↔ Compatible parts := by
  obtain ⟨hnone, hsome⟩ := fold_grown hparts
  change Merges parts { parts.foldl mergeStep ⟨[], [], 0⟩ with size := _ } ↔ _
  rw [merges_size]
  unfold Compatible
  cases hfilter : parts.filter fun p => !p.isEmpty with
  | nil =>
      rw [hnone hfilter]
      exact ⟨fun _ => trivial, fun _ => merges_nothing hfilter⟩
  | cons first rest =>
      have hgrown := hsome first rest hfilter
      exact ⟨compatible_of_merges hparts hfilter hgrown,
        fun h => merges_of_compatible hparts hfilter hgrown h.1 h.2⟩

/-- Three nodes, the second without the column `extra`. -/
def gapParts : List DataFrame :=
  [⟨["rank", "extra"], [.SeqI32 [0], .SeqText ["x"]], 1⟩, ⟨["rank"], [.SeqI32 [1]], 1⟩,
    ⟨["rank", "extra"], [.SeqI32 [2], .SeqText ["z"]], 1⟩]

theorem gapParts_rectangular : ∀ p ∈ gapParts, p.Rectangular := by
  intro p hp
  simp only [gapParts, List.mem_cons, List.not_mem_nil, or_false] at hp
  rcases hp with rfl | rfl | rfl <;> exact ⟨by decide, by decide⟩

theorem gapParts_exact_iff : Merges gapParts (mergeDataframes gapParts) ↔ Compatible gapParts :=
  merge_exact_iff gapParts_rectangular

/-- The text of the third node moves up to the row of the second. -/
theorem gapParts_shifted : ¬ ∀ parts : List DataFrame, (∀ p ∈ parts, p.Rectangular) →
    Merges parts (mergeDataframes parts) := by
  intro hclaim
  have hmerge := hclaim gapParts gapParts_rectangular
  have hextra : (mergeDataframes gapParts).Column "extra" (.SeqText ["x", "z"]) :=
    ⟨1, by decide, by decide⟩
  have hmissing :=
    hmerge.missing [gapParts[0]] gapParts[1] [gapParts[2]] rfl 0 (by decide) "extra" _
    (by decide) hextra
  exact absurd hmissing (by decide)

end Probing.Proto
