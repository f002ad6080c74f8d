import Probing.Core.Run
import Probing.Proto.Series

/-!
# A series holds a suffix of what was appended

The committed slices and the current one partition the values that were not discarded.

The iterator serves the committed slices in order and the current slice after them. A
compressed slice is read from the cache that its first element filled.
-/

namespace Probing.Proto

variable (B : Build)

/-- The page of the slice holds the values `es`. -/
def Slice.Holds (slice : Slice) (es : List Ele) : Prop :=
  slice.length = es.length ∧ ∃ seq, slice.data.decompressed B = some seq ∧ seq.eles = es

/-- Slices that lie one after the other from `start` on and hold the parts. -/
inductive Laid : ℕ → List (ℕ × Slice) → List (List Ele) → Prop where
  | nil (start) : Laid start [] []
  | cons {start slice es rest parts} (hoffset : slice.offset = start) (hne : es ≠ [])
      (hholds : slice.Holds B es) (hrest : Laid (start + es.length) rest parts) :
      Laid start ((start, slice) :: rest) (es :: parts)

section Slices

variable {B} {slice : Slice} {es : List Ele} {start : ℕ} {slices : List (ℕ × Slice)}
  {parts : List (List Ele)}

/-- A value of a slice is read back from its page. -/
theorem Slice.Holds.getValue (h : slice.Holds B es) {j : ℕ} (hj : j < es.length) :
    slice.data.getValue B j = some es[j] := by
  obtain ⟨-, seq, hseq, rfl⟩ := h
  have hget : seq.get j = seq.eles[j] := by
    rw [Seq.get_eq, List.getElem?_eq_getElem hj, Option.getD_some]
  cases hdata : slice.data with
  | Raw array =>
      rw [hdata, Page.decompressed, Option.some.injEq] at hseq
      rw [Page.getValue, hseq, hget]
  | Compressed dtype buffer cb =>
      rw [hdata, Page.decompressed] at hseq
      rw [Page.getValue, hseq, Option.map_some, hget]
  | Ref =>
      rw [hdata] at hseq
      exact (nomatch hseq)

/-- Compression changes the page and not what it holds. -/
theorem Slice.Holds.compress (h : slice.Holds B es) (hlen : es.length ≤ 2 ^ 64) :
    (slice.compress B).Holds B es := by
  obtain ⟨hlength, seq, hseq, rfl⟩ := h
  cases hdata : slice.data with
  | Raw array =>
      have harray : array = seq := by simpa [hdata, Page.decompressed] using hseq
      subst harray
      cases hc : array.compress B.toPco with
      | none =>
          have hsame : slice.compress B = slice := by simp [Slice.compress, hdata, hc]
          rw [hsame]
          exact ⟨hlength, array, by rw [hdata]; rfl, rfl⟩
      | some out =>
          obtain ⟨dtype, buffer, cb⟩ := out
          have hnew : slice.compress B = { slice with data := .Compressed dtype buffer cb } := by
            simp [Slice.compress, hdata, hc]
          rw [hnew]
          exact ⟨hlength, array,
            Seq.decompress_compress (by rw [← Seq.eles_length]; exact hlen) hc, rfl⟩
  | Compressed dtype buffer cb =>
      have hsame : slice.compress B = slice := by simp [Slice.compress, hdata]
      rw [hsame]
      exact ⟨hlength, seq, hseq, rfl⟩
  | Ref =>
      rw [hdata] at hseq
      exact (nomatch hseq)

theorem Slice.compress_offset (slice : Slice) : (slice.compress B).offset = slice.offset := by
  unfold Slice.compress
  split
  · split <;> rfl
  · rfl

/-- A slice is added behind the others. -/
theorem Laid.snoc (h : Laid B start slices parts)
    (hoffset : slice.offset = start + parts.flatten.length) (hne : es ≠ [])
    (hholds : slice.Holds B es) :
    Laid B start (slices ++ [(slice.offset, slice)]) (parts ++ [es]) := by
  induction h with
  | nil start =>
      obtain rfl : slice.offset = start := by simpa using hoffset
      exact .cons rfl hne hholds (.nil _)
  | cons h1 h2 h3 _ ih =>
      refine .cons h1 h2 h3 (ih ?_)
      simp only [List.flatten_cons, List.length_append] at hoffset
      omega

/-- The keys lie below the end. -/
theorem Laid.key_lt (h : Laid B start slices parts) : ∀ p ∈ slices,
    p.1 < start + parts.flatten.length := by
  induction h with
  | nil start => simp
  | @cons start slice es rest parts _ hne _ _ ih =>
      intro p hp
      have hpos : 0 < es.length := List.length_pos_iff.mpr hne
      simp only [List.flatten_cons, List.length_append]
      obtain rfl | hp := List.mem_cons.mp hp
      · simp only
        omega
      · have := ih p hp
        omega

theorem Laid.insert (h : Laid B start slices parts)
    (hoffset : slice.offset = start + parts.flatten.length) :
    insertSlice slices slice.offset slice = slices ++ [(slice.offset, slice)] := by
  have hlow : slices.filter (·.1 < slice.offset) = slices :=
    List.filter_eq_self.mpr fun p hp => by
      have := h.key_lt p hp
      simpa [hoffset] using this
  have hhigh : slices.filter (slice.offset < ·.1) = [] :=
    List.filter_eq_nil_iff.mpr fun p hp => by
      have := h.key_lt p hp
      simp only [decide_eq_true_eq]
      omega
  rw [insertSlice, hlow, hhigh]

/-- The lookup one chunk size back finds the slice of an index. -/
theorem Laid.find (h : Laid B start slices parts) {idx chunk : ℕ}
    (hchunk : ∀ p ∈ slices, p.2.length ≤ chunk) (hlow : start ≤ idx)
    (hidx : idx - start < parts.flatten.length) :
    ∃ p, ((slices.filter fun p => idx - chunk ≤ p.1 ∧ p.1 ≤ idx).find? fun p =>
        p.1 ≤ idx ∧ idx < p.1 + p.2.length) = some p ∧
      p.2.data.getValue B (idx - p.1) = some parts.flatten[idx - start] := by
  rw [List.find?_filter]
  induction h with
  | nil start => simp at hidx
  | @cons start slice es rest parts hoffset hne hholds hrest ih =>
      have hlength := hholds.1
      by_cases hin : idx < start + es.length
      · have hbound := hchunk (start, slice) (by simp)
        refine ⟨(start, slice), ?_, ?_⟩
        · apply List.find?_cons_of_pos
          simp only [decide_eq_true_eq, Bool.decide_and, Bool.and_eq_true] at hbound ⊢
          omega
        · rw [hholds.getValue (by omega)]
          simp only [List.flatten_cons, Option.some.injEq]
          rw [List.getElem_append_left (by omega)]
      · simp only [List.flatten_cons, List.length_append] at hidx
        obtain ⟨p, hfind, hvalue⟩ := ih (fun p hp => hchunk p (by simp [hp])) (by omega)
          (by omega)
        refine ⟨p, ?_, ?_⟩
        · rw [List.find?_cons_of_neg]
          · exact hfind
          · simp only [decide_eq_true_eq, Bool.decide_and, Bool.and_eq_true]
            omega
        · rw [hvalue]
          simp only [List.flatten_cons, Option.some.injEq]
          rw [List.getElem_append_right (by omega)]
          congr 1
          omega

end Slices

variable (B : Build)

namespace SeriesIterator

/-- The calls of `next` from the iterator on return these values and then `None`. -/
inductive Yields : SeriesIterator → List Ele → Prop
  | done {it} (h : (next B it).1 = none) : Yields it []
  | more {it it' e es} (h : next B it = (some e, it')) (hrest : Yields it' es) :
      Yields it (e :: es)

variable {B} {it it' : SeriesIterator} {slice : Slice} {es : List Ele}

theorem Yields.congr (h : Yields B it' es) (hnext : next B it = next B it') :
    Yields B it es := by
  cases h with
  | done h => exact .done (by rw [hnext, h])
  | more h hrest => exact .more (by rw [hnext, h]) hrest

/-- The cache holds the slice, if one of its elements was read and it is compressed. -/
def Cached (it : SeriesIterator) (slice : Slice) (es : List Ele) : Prop :=
  ∀ dtype buffer codebook, slice.data = .Compressed dtype buffer codebook →
    0 < it.elemIdx → it.cache.eles = es

theorem cached_start (h : it.elemIdx = 0) : it.Cached slice es := by
  intro dtype buffer codebook _ hpos
  omega

theorem getValueFromSlice_done (hholds : slice.Holds B es)
    (hidx : it.elemIdx = es.length) : getValueFromSlice B it slice = (none, it) := by
  have hlength : slice.length = es.length := hholds.1
  rw [getValueFromSlice, if_pos (by omega)]

/-- An element of a slice is read, and nothing else of the iterator changes but the cache. -/
theorem getValueFromSlice_more (hholds : slice.Holds B es) (hcached : it.Cached slice es)
    (hidx : it.elemIdx < es.length) :
    ∃ cache, getValueFromSlice B it slice =
        (some es[it.elemIdx], { it with elemIdx := it.elemIdx + 1, cache }) ∧
      Cached { it with elemIdx := it.elemIdx + 1, cache } slice es := by
  obtain ⟨hlength, seq, hseq, rfl⟩ := hholds
  obtain ⟨iter, btree, current, idx, cache⟩ := it
  simp only at hidx
  have hget : seq.get idx = seq.eles[idx] := by
    rw [Seq.get_eq, List.getElem?_eq_getElem hidx, Option.getD_some]
  rw [getValueFromSlice, if_neg (by simp only; omega)]
  cases hdata : slice.data with
  | Raw array =>
      obtain rfl : array = seq := by simpa [hdata, Page.decompressed] using hseq
      refine ⟨cache, ?_, ?_⟩
      · cases idx <;> simp only [hget]
      · intro dtype buffer codebook hcompressed
        rw [hdata] at hcompressed
        exact (nomatch hcompressed)
  | Compressed dtype buffer codebook =>
      rw [hdata, Page.decompressed] at hseq
      cases idx with
      | zero =>
          -- the first element fills the cache
          refine ⟨seq, by simp only [hseq, hget], ?_⟩
          intro _ _ _ _ _
          rfl
      | succ k =>
          have hcache : cache.eles = seq.eles :=
            hcached dtype buffer codebook hdata (by simp only; omega)
          have hget' : cache.get (k + 1) = seq.eles[k + 1] := by
            rw [← hget, Seq.get_eq, Seq.get_eq, hcache]
          refine ⟨cache, by simp only [hget'], ?_⟩
          intro _ _ _ _ _
          exact hcache
  | Ref =>
      rw [hdata] at hseq
      exact (nomatch hseq)

/-- The iterator past the committed slice it is at. -/
def advanced (it : SeriesIterator) : SeriesIterator :=
  { it with
    currentBtreeIter := it.currentBtreeIter.tail
    currentBtreeSlice := it.currentBtreeIter.head?
    elemIdx := 0 }

theorem next_of_some {e : Ele} (hat : it.currentBtreeSlice = some slice)
    (h : getValueFromSlice B it slice = (some e, it')) : next B it = (some e, it') := by
  simp only [next, hat]
  cases it.currentBtreeIter <;> simp only [nextLoop, h]

/-- A slice that is exhausted is left for the next one, in the same call. -/
theorem next_of_none (hat : it.currentBtreeSlice = some slice)
    (h : getValueFromSlice B it slice = (none, it)) : next B it = next B it.advanced := by
  cases hiter : it.currentBtreeIter with
  | nil => simp only [next, hat, hiter, nextLoop, h, advanced, List.tail_nil, List.head?_nil]
  | cons following rest =>
      simp only [next, hat, hiter, nextLoop, h, advanced, List.tail_cons, List.head?_cons]

/-- From some element of a committed slice on: the rest of the slice, and what follows it. -/
theorem yields_slice {tail : List Ele}
    (hat : it.currentBtreeSlice = some slice) (hholds : slice.Holds B es)
    (hcached : it.Cached slice es) (hidx : it.elemIdx ≤ es.length)
    (htail : ∀ cache, Yields B { it.advanced with cache } tail) :
    Yields B it (es.drop it.elemIdx ++ tail) := by
  -- the number of elements left in the slice
  obtain ⟨n, hn⟩ : ∃ n, n = es.length - it.elemIdx := ⟨_, rfl⟩
  induction n generalizing it with
  | zero =>
      have hend : it.elemIdx = es.length := by omega
      rw [hend, List.drop_length, List.nil_append]
      exact (htail it.cache).congr (next_of_none hat (getValueFromSlice_done hholds hend))
  | succ n ih =>
      have hlt : it.elemIdx < es.length := by omega
      obtain ⟨cache, hvalue, hcached'⟩ := getValueFromSlice_more hholds hcached hlt
      rw [List.drop_eq_getElem_cons hlt, List.cons_append]
      refine .more (next_of_some hat hvalue) ?_
      exact ih hat hcached' (by simp only; omega) htail (by simp only; omega)

/-- The committed slices in order, and what follows them. -/
theorem yields_slices {slices : List Slice} {parts : List (List Ele)} {tail : List Ele}
    (hholds : List.Forall₂ (fun slice es => slice.Holds B es) slices parts)
    (hat : it.currentBtreeSlice = slices.head?) (hiter : it.currentBtreeIter = slices.tail)
    (hidx : it.elemIdx = 0)
    (htail : ∀ cache, Yields B ⟨[], none, it.currentSlice, 0, cache⟩ tail) :
    Yields B it (parts.flatten ++ tail) := by
  induction hholds generalizing it with
  | nil =>
      have hit : it = ⟨[], none, it.currentSlice, 0, it.cache⟩ := by
        cases it
        simp_all
      rw [hit]
      exact htail it.cache
  | @cons slice es rest parts hslice _ ih =>
      have hrest (cache) : Yields B { it.advanced with cache } (parts.flatten ++ tail) := by
        apply ih
        · simp only [advanced, hiter, List.tail_cons]
        · simp only [advanced, hiter, List.tail_cons]
        · rfl
        · exact htail
      have h := yields_slice (by simpa using hat) hslice (cached_start hidx) (by omega) hrest
      rw [hidx, List.drop_zero] at h
      rw [List.flatten_cons, List.append_assoc]
      exact h

theorem next_of_current {e : Ele} (hat : it.currentBtreeSlice = none)
    (hcurrent : it.currentSlice = some slice)
    (h : getValueFromSlice B it slice = (some e, it')) : next B it = (some e, it') := by
  simp only [next, hat, nextCurrent, hcurrent, h]

/-- The current slice, which is served last. -/
theorem yields_current (hat : it.currentBtreeSlice = none)
    (hcurrent : it.currentSlice = some slice) (hholds : slice.Holds B es)
    (hcached : it.Cached slice es) (hidx : it.elemIdx ≤ es.length) :
    Yields B it (es.drop it.elemIdx) := by
  obtain ⟨n, hn⟩ : ∃ n, n = es.length - it.elemIdx := ⟨_, rfl⟩
  induction n generalizing it with
  | zero =>
      have hend : it.elemIdx = es.length := by omega
      rw [hend, List.drop_length]
      have hnone := getValueFromSlice_done hholds hend
      exact .done (by simp only [next, hat, nextCurrent, hcurrent, hnone])
  | succ n ih =>
      have hlt : it.elemIdx < es.length := by omega
      obtain ⟨cache, hvalue, hcached'⟩ := getValueFromSlice_more hholds hcached hlt
      rw [List.drop_eq_getElem_cons hlt]
      have hnext := next_of_current hat hcurrent hvalue
      refine .more hnext ?_
      exact ih (by simpa using hat) (by simpa using hcurrent) hcached' (by simp only; omega)
        (by simp only; omega)

end SeriesIterator

end Probing.Proto
