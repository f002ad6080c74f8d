import Probing.Proto.SeriesIter

/-!
# Appending to a series

What a series holds after an append: a full slice is committed behind the others, and at
most one slice, the first that was ever committed, is discarded.
-/

namespace Probing.Proto

/-- The current slice, if there is one, starts at `start` and holds the values in a raw page. -/
inductive Pending (start : ℕ) : Option Slice → List Ele → Prop
  | none : Pending start none []
  | some (seq : Seq) (hne : seq.eles ≠ []) :
      Pending start (some ⟨start, seq.len, .Raw seq⟩) seq.eles

variable (B : Build)

namespace Series

/-- The series no longer holds `past`, committed `parts` and has `cur` in its current slice. -/
structure Holding (s : Series) (past : List Ele) (parts : List (List Ele)) (cur : List Ele) :
    Prop where
  laid : Laid B past.length s.slices parts
  pending : Pending (past.length + parts.flatten.length) s.currentSlice cur
  chunks : ∀ p ∈ s.slices, s.config.discardStrategy.getChunkSize = some p.2.length
  commit_nbytes_eq : s.commitNbytes = (s.slices.map fun p => p.2.nbytes).sum

/-- The series after the slice was committed needs no discard, or the discard of the first
slice that was ever committed is enough. -/
def DiscardsOnce (s : Series) : Prop :=
  match s.config.discardStrategy with
  | .BaseMemorySize discard_threshold _ =>
      s.nbytes ≤ discard_threshold ∨
        s.dropped = 0 ∧ ∀ p ∈ s.slices.head?, s.nbytes - p.2.nbytes ≤ discard_threshold
  | .BaseElementCount discard_threshold _ =>
      ∃ limit ∈ subUsize B discard_threshold 1,
        s.ncounts < limit ∨ s.dropped = 0 ∧ 0 < limit
  | .None => True

instance (s : Series) : Decidable (s.DiscardsOnce B) := by
  unfold DiscardsOnce
  split <;> infer_instance

end Series

section Elements

variable {data : Ele} {array array' : Seq}

theorem createArray_eles (h : createArray data = some array) : array.eles = [data] := by
  cases data <;> simp only [createArray, Option.some.injEq, reduceCtorEq] at h <;>
    subst h <;> rfl

theorem appendToArray_eles (h : appendToArray array data = .ok array') :
    array'.eles = array.eles ++ [data] := by
  cases array <;> cases data <;>
    simp only [appendToArray, Except.ok.injEq, reduceCtorEq] at h <;>
    subst h <;> simp [Seq.eles]

theorem appendToArray_len (h : appendToArray array data = .ok array') :
    array.len + 1 = array'.len := by
  rw [← array.eles_length, ← array'.eles_length, appendToArray_eles h, List.length_append,
    List.length_singleton]

end Elements

namespace Series

variable {B} {s : Series} {past cur : List Ele} {parts : List (List Ele)}

/-- What a discard leaves: the series as it was, or without its first slice. -/
theorem discard_spec {p : ℕ × Slice} {rest : List (ℕ × Slice)} (hslices : s.slices = p :: rest)
    (hcurrent : s.currentSlice = none) (hstart : s.dropped = 0 → p.2.offset = 0)
    (hlength : p.2.length ≤ usizeMax) (honce : s.DiscardsOnce B) :
    discard B s = .returns (.ok ()) s ∨
    s.dropped = 0 ∧ ∃ counts, discard B s = .returns (.ok ())
      { s with
        dropped := p.2.length
        slices := rest
        commitNbytes := s.commitNbytes - p.2.nbytes
        commitCounts := counts } := by
  obtain ⟨key, slice⟩ := p
  have hnbytes : s.nbytes = s.commitNbytes := by simp [nbytes, hcurrent]
  have hsame : { s with slices := (key, slice) :: rest } = s := by rw [← hslices]
  have hadd (hdropped : s.dropped = 0) :
      addUsize B s.dropped (slice.offset + slice.length) = some slice.length := by
    have hzero : slice.offset = 0 := hstart hdropped
    rw [addUsize, hdropped, hzero, Nat.zero_add, Nat.zero_add]
    exact if_pos hlength
  cases hstrategy : s.config.discardStrategy with
  | None => exact .inl (by rw [discard, hstrategy])
  | BaseMemorySize discard_threshold chunkSize =>
      simp only [DiscardsOnce, hstrategy, hslices, List.head?_cons, Option.mem_def,
        Option.some.injEq, forall_eq'] at honce
      simp only [discard, hstrategy, hslices]
      by_cases hover : discard_threshold < s.nbytes
      · obtain ⟨hdropped, hfits⟩ := honce.resolve_left (by omega)
        refine .inr ⟨hdropped, s.commitCounts, ?_⟩
        have hstop : ¬ discard_threshold < s.commitNbytes - slice.nbytes := by omega
        rw [discardBytes, if_pos hover, hadd hdropped]
        cases rest with
        | nil => simp [discardBytes, nbytes, hcurrent, hstop]
        | cons q rest => simp [discardBytes, nbytes, hcurrent, hstop]
      · rw [discardBytes, if_neg hover, hsame]
        exact .inl rfl
  | BaseElementCount discard_threshold chunkSize =>
      simp only [DiscardsOnce, hstrategy] at honce
      obtain ⟨limit, hlimit, honce⟩ := honce
      simp only [discard, hstrategy, Option.mem_def.mp hlimit, hslices]
      by_cases hover : limit ≤ s.ncounts
      · obtain ⟨hdropped, hpos⟩ := honce.resolve_left (by omega)
        refine .inr ⟨hdropped, 0, ?_⟩
        have hstop : limit ≠ 0 := by omega
        rw [discardCounts, if_pos hover, hadd hdropped]
        cases rest with
        | nil => simp [discardCounts, ncounts, hstop]
        | cons q rest => simp [discardCounts, ncounts, hstop]
      · rw [discardCounts, if_neg hover, hsame]
        exact .inl rfl

/-- A full slice that is committed lies behind the other slices. -/
theorem Holding.commit (h : s.Holding B past parts cur) {slice : Slice} {es : List Ele}
    (hoffset : slice.offset = past.length + parts.flatten.length) (hne : es ≠ [])
    (hholds : slice.Holds B es) (hsize : es.length ≤ 2 ^ 64)
    (hchunk : s.config.discardStrategy.getChunkSize = some slice.length) :
    (insertCurrent B s slice).Holding B past (parts ++ [es]) [] := by
  have hcommitted : (committed B s slice).offset = slice.offset ∧
      (committed B s slice).Holds B es := by
    rw [committed]
    split
    · exact ⟨slice.compress_offset, hholds.compress hsize⟩
    · exact ⟨rfl, hholds⟩
  obtain ⟨hoffset', hholds'⟩ := hcommitted
  have hslices : (insertCurrent B s slice).slices =
      s.slices ++ [((committed B s slice).offset, committed B s slice)] := by
    simp only [insertCurrent]
    rw [← hoffset', h.laid.insert (by rw [hoffset', hoffset])]
  constructor
  · rw [hslices]
    exact h.laid.snoc (by rw [hoffset', hoffset]) hne hholds'
  · exact .none
  · intro p hp
    rw [hslices] at hp
    obtain hp | hp := List.mem_append.mp hp
    · exact h.chunks p hp
    · obtain rfl := List.mem_singleton.mp hp
      rw [show (insertCurrent B s slice).config = s.config from rfl, hchunk, hholds'.1,
        hholds.1]
  · rw [hslices, List.map_append, List.sum_append, ← h.commit_nbytes_eq]
    rfl

/-- Without its first slice the series has discarded that slice too. -/
theorem Holding.discard_first {p : ℕ × Slice} {rest : List (ℕ × Slice)} {es : List Ele}
    (h : s.Holding B past (es :: parts) cur) (hslices : s.slices = p :: rest)
    (dropped counts : ℕ) :
    { s with
      dropped
      slices := rest
      commitNbytes := s.commitNbytes - p.2.nbytes
      commitCounts := counts }.Holding B (past ++ es) parts cur := by
  obtain ⟨hlaid, hpending, hchunks, hnbytes⟩ := h
  rw [hslices] at hlaid hchunks hnbytes
  cases hlaid with
  | @cons _ slice _ _ _ hoffset hne hholds hrest =>
      constructor
      · simpa using hrest
      · simpa [Nat.add_assoc] using hpending
      · exact fun q hq => hchunks q (List.mem_cons_of_mem _ hq)
      · simp [hnbytes]

/-- The first slice holds the first part. -/
theorem Holding.first {p : ℕ × Slice} {rest : List (ℕ × Slice)} {es : List Ele}
    (h : s.Holding B past (es :: parts) cur) (hslices : s.slices = p :: rest) :
    p.2.offset = past.length ∧ p.2.length = es.length := by
  have hlaid := h.laid
  rw [hslices] at hlaid
  cases hlaid with
  | cons hoffset hne hholds hrest => exact ⟨hoffset, hholds.1⟩

end Series

end Probing.Proto
