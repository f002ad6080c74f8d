import Probing.Proto.SeriesCommit

/-!
# A series is a windowed log

In a run that discards at most one slice, the first one, a series holds the values appended
to it without the discarded prefix, and every reading of it says so.
-/

namespace Probing.Proto

open SeriesIterator (Yields)

variable (B : Build)

/-- The slice with one more element, if the element fits its page. -/
def Slice.push (slice : Slice) (data : Ele) : Option Slice :=
  match slice.data with
  | .Raw current =>
      match appendToArray current data with
      | .ok current => some { slice with data := .Raw current, length := slice.length + 1 }
      | .error _ => none
  | _ => none

namespace Series

/-- The slices in order, the current one last. -/
def allSlices (s : Series) : List Slice := s.slices.map (·.2) ++ s.currentSlice.toList

/-- The series is the log without a prefix that it discarded. -/
structure Faithful (s : Series) (log : List Ele) : Prop where
  len_eq : s.len = log.length
  dropped_le : s.dropped ≤ log.length
  held : ∃ parts, List.Forall₂ (fun slice es => slice.Holds B es) s.allSlices parts ∧
    parts.flatten = log.drop s.dropped
  get_eq : ∀ idx, get B s idx = if s.dropped ≤ idx then log[idx]? else none
  iter : Yields B (SeriesIterator.new s) (log.drop s.dropped)
  nbytes_eq : s.nbytes = (s.allSlices.map Slice.nbytes).sum
  rejected : ∀ data e t, appendValue B s data = .returns (.error e) t → t = s

/-- What an append that gets as far as storing its element needs: a strategy with a chunk
size, memory for a new chunk, and at most one discard when it fills a chunk. -/
def Fits (s : Series) (data : Ele) : Prop :=
  s.offset = usizeMax ∨ createArray data = none ∨
    ∃ chunkSize ∈ s.config.discardStrategy.getChunkSize,
      match s.currentSlice with
      | none => chunkSize * data.size ≤ isizeMax
      | some slice => ∀ full ∈ slice.push data, full.length = chunkSize →
          DiscardsOnce B (insertCurrent B
            { s with currentSlice := some full, commitCounts := s.counted } full)

instance (s : Series) (data : Ele) : Decidable (s.Fits B data) := by
  unfold Fits
  split <;> infer_instance

/-- The log in parts: no longer held, committed, and in the current slice. -/
def Windowed (s : Series) (past log : List Ele) : Prop :=
  ∃ parts cur, s.Holding B past parts cur ∧ past ++ parts.flatten ++ cur = log ∧
    s.offset = log.length ∧ log.length ≤ usizeMax

/-- The values no longer held are the dropped ones. -/
def Kept (s : Series) (log : List Ele) : Prop :=
  ∃ past, s.Windowed B past log ∧ s.dropped = past.length

end Series

section Reading

variable {B} {s : Series} {past cur log : List Ele} {parts : List (List Ele)}

theorem Laid.holds {start : ℕ} {slices : List (ℕ × Slice)} (h : Laid B start slices parts) :
    List.Forall₂ (fun slice es => slice.Holds B es) (slices.map (·.2)) parts := by
  induction h with
  | nil start => exact .nil
  | cons _ _ hholds _ ih => exact .cons hholds ih

theorem Pending.holds {start : ℕ} {seq : Seq} :
    Slice.Holds B ⟨start, seq.len, .Raw seq⟩ seq.eles :=
  ⟨seq.eles_length.symm, seq, rfl, rfl⟩

namespace Series

theorem Holding.held (h : s.Holding B past parts cur) :
    ∃ parts', List.Forall₂ (fun slice es => slice.Holds B es) s.allSlices parts' ∧
      parts'.flatten = parts.flatten ++ cur := by
  have hlaid := h.laid.holds
  rw [allSlices]
  cases hc : s.currentSlice with
  | none =>
      have hpending := h.pending
      rw [hc] at hpending
      cases hpending
      exact ⟨parts, by simpa using hlaid, by simp⟩
  | some slice =>
      have hpending := h.pending
      rw [hc] at hpending
      cases hpending with
      | some seq hne =>
          refine ⟨parts ++ [seq.eles], ?_, by simp⟩
          exact List.rel_append hlaid (.cons Pending.holds .nil)

theorem Holding.iter (h : s.Holding B past parts cur) :
    Yields B (SeriesIterator.new s) (parts.flatten ++ cur) := by
  refine SeriesIterator.yields_slices h.laid.holds rfl rfl rfl fun cache => ?_
  have hpending := h.pending
  simp only [SeriesIterator.new]
  cases hc : s.currentSlice with
  | none =>
      rw [hc] at hpending
      cases hpending
      exact .done rfl
  | some slice =>
      rw [hc] at hpending
      cases hpending with
      | some seq hne =>
          exact SeriesIterator.yields_current rfl rfl Pending.holds
            (SeriesIterator.cached_start rfl) (Nat.zero_le _)

theorem Holding.nbytes_eq (h : s.Holding B past parts cur) :
    s.nbytes = (s.allSlices.map Slice.nbytes).sum := by
  rw [nbytes, h.commit_nbytes_eq, allSlices, List.map_append, List.sum_append, List.map_map]
  cases s.currentSlice <;> simp [Function.comp_def]

/-- An index in a committed slice is past over by the current slice and found by the lookup. -/
theorem Holding.get_committed (h : s.Holding B past parts cur) {idx : ℕ}
    (hdropped : s.dropped = past.length) (hlow : past.length ≤ idx)
    (hidx : idx < past.length + parts.flatten.length) (hoffset : idx < s.offset) :
    get B s idx = (past ++ parts.flatten ++ cur)[idx]? := by
  have hin : idx - past.length < parts.flatten.length := by omega
  have hvalue : (past ++ parts.flatten ++ cur)[idx]? =
      some parts.flatten[idx - past.length] := by
    rw [List.append_assoc, List.getElem?_append_right hlow,
      List.getElem?_append_left (by omega), List.getElem?_eq_getElem]
  have hcurrent : (s.currentSlice.filter fun slice =>
      slice.offset ≤ idx ∧ idx < slice.offset + slice.length) = none := by
    have hpending := h.pending
    cases hc : s.currentSlice with
    | none => rfl
    | some slice =>
        rw [hc] at hpending
        cases hpending with
        | some seq hne =>
            rw [Option.filter_some, if_neg]
            simp only [decide_eq_true_eq]
            omega
  have hchunk (p) (hp : p ∈ s.slices) :
      p.2.length ≤ (s.config.discardStrategy.getChunkSize).getD 0 := by
    exact Nat.le_of_eq (by rw [h.chunks p hp, Option.getD_some])
  obtain ⟨p, hfind, hget⟩ := h.laid.find hchunk hlow (by omega)
  rw [get, if_neg (by omega), hcurrent]
  simp only [hfind]
  rw [hvalue, hget]

theorem Holding.get_eq (h : s.Holding B past parts cur) (hdropped : s.dropped = past.length)
    (hoffset : s.offset = (past ++ parts.flatten ++ cur).length) (idx : ℕ) :
    get B s idx = if s.dropped ≤ idx then (past ++ parts.flatten ++ cur)[idx]? else none := by
  by_cases hlow : s.dropped ≤ idx
  · rw [if_pos hlow]
    by_cases hend : s.offset ≤ idx
    · rw [get, if_pos (.inl hend), List.getElem?_eq_none (by omega)]
    · by_cases hin : idx < past.length + parts.flatten.length
      · exact h.get_committed hdropped (by omega) hin (by omega)
      · -- only the current slice is left
        have hpending := h.pending
        simp only [List.length_append] at hoffset
        cases hc : s.currentSlice with
        | none =>
            rw [hc] at hpending
            cases hpending
            simp only [List.length_nil] at hoffset
            omega
        | some slice =>
            rw [hc] at hpending
            cases hpending with
            | some seq hne =>
                have hlen := seq.eles_length
                rw [get, if_neg (by omega), hc, Option.filter_some, if_pos]
                · simp only
                  have hsub : idx - (past.length + parts.flatten.length) < seq.eles.length := by
                    omega
                  rw [List.getElem?_append_right (by rw [List.length_append]; omega),
                    List.length_append, List.getElem?_eq_getElem hsub]
                  have hholds : Slice.Holds B ⟨0, seq.len, .Raw seq⟩ seq.eles := Pending.holds
                  exact hholds.getValue hsub
                · simp only [decide_eq_true_eq]
                  omega
  · rw [if_neg hlow, get, if_pos (.inr (by omega))]

end Series

end Reading

section Appending

variable {B} {s : Series} {past cur log : List Ele} {parts : List (List Ele)} {data : Ele}

namespace Series

/-- A raw slice takes an element that fits its array, and no other one. -/
theorem append_of_current {array : Seq} {start : ℕ} (hcap : s.offset ≠ usizeMax)
    (hcurrent : s.currentSlice = some ⟨start, array.len, .Raw array⟩)
    {array' : Seq} (hpush : appendToArray array data = .ok array') {chunkSize : ℕ}
    (hchunk : s.config.discardStrategy.getChunkSize = some chunkSize) (new : Seq) :
    let full : Slice := ⟨start, array'.len, .Raw array'⟩
    let t := { s with currentSlice := some full, commitCounts := s.counted }
    append B s data new =
      if array'.len = chunkSize then (discard B (insertCurrent B t full)).appended
      else (Outcome.returns (.ok ()) t).appended := by
  have hlen := appendToArray_len hpush
  rw [append, if_neg hcap]
  simp only [hcurrent, hpush, hchunk, hlen]

/-- The elements of a full slice are committed, and the first slice may go. -/
theorem Holding.discard {full : Slice} {es : List Ele} (h : s.Holding B past parts cur)
    (hdropped : s.dropped = past.length)
    (hlog : past ++ parts.flatten ++ es = log) (hsize : log.length ≤ usizeMax)
    (hfull : full.offset = past.length + parts.flatten.length) (hne : es ≠ [])
    (hholds : full.Holds B es)
    (hchunk : s.config.discardStrategy.getChunkSize = some full.length)
    (honce : DiscardsOnce B (insertCurrent B s full)) :
    ∃ t past' parts', Series.discard B (insertCurrent B s full) = .returns (.ok ()) t ∧
      t.Holding B past' parts' [] ∧ t.dropped = past'.length ∧ past' ++ parts'.flatten = log ∧
      t.offset = s.offset := by
  have hlen : past.length + parts.flatten.length + es.length = log.length := by
    rw [← hlog, List.length_append, List.length_append]
  have hcommit := h.commit hfull hne hholds (by unfold usizeMax at hsize; omega) hchunk
  have hall : past ++ (parts ++ [es]).flatten = log := by
    rw [← hlog, List.flatten_append, List.flatten_singleton, List.append_assoc]
  -- the committed slice is there, so there is a first one
  cases hslices : (insertCurrent B s full).slices with
  | nil => simp [insertCurrent, insertSlice] at hslices
  | cons p rest =>
      cases hparts : parts ++ [es] with
      | nil => simp at hparts
      | cons es₀ parts' =>
          rw [hparts] at hcommit hall
          obtain ⟨hoffset, hlength⟩ := hcommit.first hslices
          have hle : p.2.length ≤ log.length := by
            rw [← hall, List.length_append, List.flatten_cons, List.length_append]
            omega
          have hstart (h : (insertCurrent B s full).dropped = 0) : p.2.offset = 0 := by
            rw [hoffset, ← hdropped]
            exact h
          obtain hsame | ⟨hzero, counts, hfirst⟩ :=
            discard_spec hslices rfl hstart (by omega) honce
          · exact ⟨_, past, _, hsame, hcommit, hdropped, hall, rfl⟩
          · have hpast : past = [] :=
              List.length_eq_zero_iff.mp (by rw [← hdropped]; exact hzero)
            subst hpast
            refine ⟨_, es₀, parts', hfirst, hcommit.discard_first hslices _ _, hlength, ?_, rfl⟩
            simpa using hall

/-- The first element of a chunk opens a slice. -/
theorem Holding.open_slice {array : Seq} (h : s.Holding B past parts [])
    (hoffset : s.offset = past.length + parts.flatten.length) (harray : array.eles = [data])
    (dtype : EleType) (counts next : ℕ) :
    { s with
      config := { s.config with dtype }
      currentSlice := some ⟨s.offset, 1, .Raw array⟩
      commitCounts := counts
      offset := next }.Holding B past parts [data] := by
  have hlen : array.len = 1 := by rw [← array.eles_length, harray, List.length_singleton]
  constructor
  · exact h.laid
  · rw [hoffset, ← harray, ← hlen]
    exact .some array (by rw [harray]; exact List.cons_ne_nil _ _)
  · exact h.chunks
  · exact h.commit_nbytes_eq

/-- A further element stands in the page of the current slice. -/
theorem Holding.push {array : Seq} (h : s.Holding B past parts cur) (hne : array.eles ≠ [])
    (counts : ℕ) :
    { s with
      currentSlice :=
        some ⟨past.length + parts.flatten.length, array.len, .Raw array⟩
      commitCounts := counts }.Holding B past parts array.eles :=
  ⟨h.laid, .some array hne, h.chunks, h.commit_nbytes_eq⟩

/-- What is held does not depend on the length of the log. -/
theorem Holding.at_offset (h : s.Holding B past parts cur) (next : ℕ) :
    { s with offset := next }.Holding B past parts cur :=
  ⟨h.laid, h.pending, h.chunks, h.commit_nbytes_eq⟩

/-- An append that fits is rejected and changes nothing, or its element is the next one. -/
theorem Kept.append (h : s.Kept B log) (hfits : s.Fits B data) :
    (∃ e, appendValue B s data = .returns (.error e) s) ∨
    ∃ t, appendValue B s data = .returns (.ok ()) t ∧ t.Kept B (log ++ [data]) := by
  obtain ⟨past, ⟨parts, cur, hholding, hlog, hoffset, hsize⟩, hdropped⟩ := h
  cases harray : createArray data with
  | none => exact .inl ⟨_, by rw [appendValue, harray]⟩
  | some array =>
  by_cases hcap : s.offset = usizeMax
  · exact .inl ⟨_, by rw [appendValue, harray]; exact if_pos hcap⟩
  obtain ⟨chunkSize, hchunk, hfits⟩ := (hfits.resolve_left hcap).resolve_left (by simp [harray])
  have hchunk := Option.mem_def.mp hchunk
  have hlen : past.length + parts.flatten.length + cur.length = log.length := by
    rw [← hlog, List.length_append, List.length_append]
  have hnext : min (s.offset + 1) usizeMax = s.offset + 1 := by omega
  have hpending := hholding.pending
  cases hcurrent : s.currentSlice with
  | none =>
      rw [hcurrent] at hpending hfits
      cases hpending
      refine .inr ⟨_, ?_, past, ⟨parts, [data], hholding.open_slice ?_
        (createArray_eles harray) data.dtype s.counted (s.offset + 1), ?_, ?_, ?_⟩, hdropped⟩
      · simp only [appendValue, harray, Series.append, if_neg hcap, hcurrent, hchunk]
        rw [if_neg (by omega), Outcome.appended, hnext]
      · rw [List.length_nil] at hlen
        omega
      · rw [← hlog, List.append_nil]
      · rw [List.length_append, List.length_singleton, hoffset]
      · rw [List.length_append, List.length_singleton]
        omega
  | some slice =>
      rw [hcurrent] at hpending hfits
      cases hpending with
      | some seq hne =>
          cases hpush : appendToArray seq data with
          | error e =>
              exact .inl ⟨e, by
                simp only [appendValue, harray, Series.append, if_neg hcap, hcurrent, hpush]⟩
          | ok array' =>
              have heles := appendToArray_eles hpush
              have hvalue := append_of_current (B := B) hcap hcurrent hpush hchunk array
              have hne' : array'.eles ≠ [] := by simp [heles]
              have hall : past ++ parts.flatten ++ array'.eles = log ++ [data] := by
                rw [heles, ← hlog, List.append_assoc _ seq.eles]
              have hheld := hholding.push hne' s.counted
              have hsize' : (log ++ [data]).length ≤ usizeMax := by
                rw [List.length_append, List.length_singleton]
                omega
              have hpushed :
                (⟨past.length + parts.flatten.length, array'.len, .Raw array'⟩ : Slice) ∈
                  Slice.push ⟨past.length + parts.flatten.length, seq.len, .Raw seq⟩ data := by
                rw [Option.mem_def, Slice.push]
                simp only [hpush, appendToArray_len hpush]
              have hnext' : s.offset + 1 = (log ++ [data]).length := by
                rw [List.length_append, List.length_singleton, hoffset]
              right
              rw [appendValue, harray]
              simp only [hvalue]
              by_cases hfull : array'.len = chunkSize
              · obtain ⟨t, past', parts', hdiscard, hheld', hdropped', hlog', hoffset'⟩ :=
                  hheld.discard hdropped hall hsize' rfl hne' Pending.holds (by rw [hchunk, hfull])
                    (hfits _ hpushed hfull)
                rw [if_pos hfull, hdiscard]
                refine ⟨_, rfl, past', ⟨parts', [], hheld'.at_offset _, ?_, ?_, hsize'⟩, hdropped'⟩
                · rw [List.append_nil, hlog']
                · simp only [hoffset']
                  exact hnext.trans hnext'
              · rw [if_neg hfull]
                exact ⟨_, rfl, past, ⟨parts, array'.eles, hheld.at_offset _, hall,
                  hnext.trans hnext', hsize'⟩, hdropped⟩

end Series

end Appending

theorem Outcome.appended_ne_error {o : Outcome ProtoError Series} {e : ProtoError} {t : Series} :
    o.appended ≠ .returns (.error e) t := by
  cases o <;> simp [Outcome.appended]

namespace Series

variable {B} {s : Series} {log : List Ele}

/-- An append that is rejected leaves the series as it was. -/
theorem appendValue_error {data : Ele} {e : ProtoError} {t : Series}
    (h : appendValue B s data = .returns (.error e) t) : t = s := by
  have hsame {e'} (h : Outcome.returns (.error e') s = .returns (.error e) t) : t = s := by
    injection h with _ hs
    exact hs.symm
  rw [appendValue] at h
  split at h
  · rw [append] at h
    split at h
    · exact hsame h
    · split at h
      · split at h
        · split at h
          · exact hsame h
          · simp only at h
            split at h
            · exact (nomatch h)
            · split at h
              · exact (Outcome.appended_ne_error h).elim
              · exact (Outcome.appended_ne_error h).elim
        · exact hsame h
      · split at h
        · exact (nomatch h)
        · split at h
          · exact (nomatch h)
          · exact (Outcome.appended_ne_error h).elim
  · exact hsame h

/-- What is left of the log is what the iterator yields. -/
theorem Windowed.iter {past : List Ele} (h : s.Windowed B past log) :
    Yields B (SeriesIterator.new s) (log.drop past.length) := by
  obtain ⟨parts, cur, hholding, rfl, -⟩ := h
  rw [List.append_assoc, List.drop_left]
  exact hholding.iter

/-- What a series holds in parts is what it reads back. -/
theorem Kept.faithful (h : s.Kept B log) : s.Faithful B log := by
  obtain ⟨past, hwindowed, hdropped⟩ := h
  have hiter := hwindowed.iter
  obtain ⟨parts, cur, hholding, rfl, hoffset, -⟩ := hwindowed
  constructor
  · exact hoffset
  · rw [hdropped, List.length_append, List.length_append]
    omega
  · rw [hdropped, List.append_assoc, List.drop_left]
    exact hholding.held
  · exact hholding.get_eq hdropped hoffset
  · rw [hdropped]
    exact hiter
  · exact hholding.nbytes_eq
  · exact fun _ _ _ h => appendValue_error h

theorem windowed_build (config : SeriesConfig) : (build config).Windowed B [] [] := by
  refine ⟨[], [], ?_, rfl, rfl, Nat.zero_le _⟩
  exact ⟨.nil 0, .none, by simp [build], rfl⟩

end Series

/-- A series with the elements it accepted. -/
structure Logged where
  series : Series
  log : List Ele
  deriving DecidableEq

namespace Logged

/-- One append; there is none when the call panics or does not end. -/
def record (l : Logged) (data : Ele) : Option Logged :=
  match l.series.appendValue B data with
  | .returns (.ok ()) t => some ⟨t, l.log ++ [data]⟩
  | .returns (.error _) t => some ⟨t, l.log⟩
  | _ => none

def Fits (l : Logged) (data : Ele) : Prop := l.series.Fits B data

instance (l : Logged) (data : Ele) : Decidable (l.Fits B data) :=
  inferInstanceAs (Decidable (l.series.Fits B data))

def build (config : SeriesConfig) : Logged := ⟨Series.build config, []⟩

/-- Every append of such a run returns, and the series stays a window of its log. -/
theorem faithful_run (config : SeriesConfig) (appends : List Ele)
    (hfits : Core.Meets (record B) (Fits B) (build config) appends) :
    ∃ l, Core.exec (record B) (build config) appends = some l ∧
      l.series.Faithful B l.log := by
  have hstep (l : Logged) (data : Ele) (hkept : l.series.Kept B l.log)
      (hfits : l.Fits B data) :
      ∃ m, l.record B data = some m ∧ m.series.Kept B m.log := by
    obtain ⟨e, hvalue⟩ | ⟨t, hvalue, ht⟩ := hkept.append hfits
    · exact ⟨l, by rw [record, hvalue], hkept⟩
    · exact ⟨⟨t, l.log ++ [data]⟩, by rw [record, hvalue], ht⟩
  obtain ⟨l, hl, hkept⟩ :=
    Core.exec_progress hstep ⟨[], Series.windowed_build config, rfl⟩ hfits
  exact ⟨l, hl, hkept.faithful⟩

/-- A codec that compresses nothing. -/
def plain : Build where
  simplerCompress _ := none
  simpleDecompress _ _ := none
  decompress_compress h := (nomatch h)
  overflowChecks := true

/-- Chunks of two elements, and at most two elements counted. -/
def counting : SeriesConfig := ⟨.Nil, 2_000_000, .BaseElementCount 3 2⟩

def mixed : List Ele := [.I64 1, .I64 2, .Text "x", .I64 3]

/-- The first chunk is discarded, and an integer is rejected where the text stands. -/
theorem faithful_mixed : ∃ l, Core.exec (record plain) (build counting) mixed = some l ∧
    l.log = [.I64 1, .I64 2, .Text "x"] ∧ l.series.dropped = 2 ∧ l.series.Faithful plain l.log := by
  obtain ⟨l, hl, hfaithful⟩ := faithful_run plain counting mixed
    (by decide : Core.Meets (record plain) (Fits plain) (build counting) mixed)
  have hrun : (Core.exec (record plain) (build counting) mixed).map
      (fun l => (l.log, l.series.dropped)) = some ([.I64 1, .I64 2, .Text "x"], 2) := by
    decide
  rw [hl, Option.map_some, Option.some.injEq, Prod.mk.injEq] at hrun
  exact ⟨l, hl, hrun.1, hrun.2, hfaithful⟩

/-- The second chunk is discarded too, and the series counts six dropped elements of four. -/
theorem overshoots : ∃ l, Core.exec (record plain) (build counting)
    [.I64 1, .I64 2, .I64 3, .I64 4] = some l ∧ ¬ l.series.Faithful plain l.log := by
  obtain ⟨l, hl, hdropped, hlog⟩ : ∃ l, Core.exec (record plain) (build counting)
      [.I64 1, .I64 2, .I64 3, .I64 4] = some l ∧ l.series.dropped = 6 ∧ l.log.length = 4 :=
    ⟨⟨⟨⟨.I64, 2_000_000, .BaseElementCount 3 2⟩, 4, 6, [], none, 0, 0⟩,
      [.I64 1, .I64 2, .I64 3, .I64 4]⟩, by decide, rfl, rfl⟩
  refine ⟨l, hl, fun hfaithful => ?_⟩
  have hle := hfaithful.dropped_le
  omega

end Logged

end Probing.Proto
