import Probing.Proto.SeriesLog

/-!
# What an append leaves when it returns

Where a series starts after an append is told by how many slices the append discards, and
this number by the series before it.
-/

namespace Probing.Proto

variable (B : Build)

/-- How many first slices are discarded until no more bytes are held than the threshold. -/
def excess (discard_threshold : ℕ) : ℕ → List ℕ → ℕ
  | _, [] => 0
  | held, bytes :: rest =>
      if discard_threshold < held then excess discard_threshold (held - bytes) rest + 1 else 0

namespace Series

/-- The slices that a commit discards, by what the series holds. -/
def toDiscard (s : Series) : ℕ :=
  match s.config.discardStrategy with
  | .BaseMemorySize discard_threshold _ =>
      excess discard_threshold s.nbytes (s.slices.map fun p => p.2.nbytes)
  | .BaseElementCount discard_threshold _ =>
      match subUsize B discard_threshold 1 with
      | some limit => if limit ≤ s.ncounts then 1 else 0
      | none => 0
  | .None => 0

/-- The slices that an append discards: some only when the element fills its chunk. -/
def discards (s : Series) (data : Ele) : ℕ :=
  match s.currentSlice.bind fun slice => slice.push data with
  | some full =>
      if s.config.discardStrategy.getChunkSize = some full.length then
        toDiscard B (insertCurrent B
          { s with currentSlice := some full, commitCounts := s.counted } full)
      else 0
  | none => 0

/-- The series has no place for the element. -/
def rejects (s : Series) (data : Ele) : Bool :=
  (createArray data).isNone || s.offset == usizeMax ||
    s.currentSlice.any fun slice => (slice.push data).isNone

/-- The series holds the log from the index `start` on. -/
def Starts (s : Series) (start : ℕ) (log : List Ele) : Prop :=
  ∃ past, past.length = start ∧ s.Windowed B past log

end Series

variable {B} {s t : Series} {past cur log : List Ele} {parts : List (List Ele)} {data : Ele}

theorem excess_le (discard_threshold held : ℕ) (bytes : List ℕ) :
    excess discard_threshold held bytes ≤ bytes.length := by
  induction bytes generalizing held with
  | nil => exact Nat.le_refl _
  | cons b rest ih =>
      rw [excess]
      split
      · exact Nat.succ_le_succ (ih _)
      · exact Nat.zero_le _

theorem Outcome.appended_eq_returns {o : Outcome ProtoError Series} {r : Except ProtoError Unit}
    (h : o.appended = .returns r t) : ∃ r' t', o = .returns r' t' ∧ r = .ok () ∧
      { t' with offset := min (t'.offset + 1) usizeMax } = t := by
  cases o with
  | returns r' t' =>
      injection h with hr ht
      exact ⟨r', t', rfl, hr.symm, ht⟩
  | panics => exact (nomatch h)
  | diverges => exact (nomatch h)

namespace Series

/-- The series without some of its first slices. -/
structure Without (s : Series) (count : ℕ) (t : Series) : Prop where
  config : t.config = s.config
  offset : t.offset = s.offset
  currentSlice : t.currentSlice = s.currentSlice
  slices : t.slices = s.slices.drop count
  commitNbytes : t.commitNbytes =
    s.commitNbytes - ((s.slices.take count).map fun p : ℕ × Slice => p.2.nbytes).sum

theorem discardBytes_returned {discard_threshold : ℕ} {r : Except ProtoError Unit}
    {slices : List (ℕ × Slice)} (hcurrent : s.currentSlice = none)
    (h : discardBytes B discard_threshold s slices = .returns r t) :
    r = .ok () ∧ { s with slices }.Without
      (excess discard_threshold s.nbytes (slices.map fun p : ℕ × Slice => p.2.nbytes)) t := by
  induction slices generalizing s with
  | nil =>
      rw [discardBytes] at h
      split at h
      · cases h
      · injection h with hr ht
        subst ht
        exact ⟨hr.symm, rfl, rfl, rfl, rfl, rfl⟩
  | cons p rest ih =>
      obtain ⟨key, slice⟩ := p
      rw [discardBytes] at h
      rw [List.map_cons, excess]
      split at h
      next hover =>
        rw [if_pos hover]
        split at h
        · cases h
        next dropped hadd =>
          let s' : Series := { s with dropped, commitNbytes := s.commitNbytes - slice.nbytes }
          have hheld : s'.nbytes = s.nbytes - slice.nbytes := by simp [s', nbytes, hcurrent]
          obtain ⟨hr, hconfig, hoffset, hnone, hslices, hnbytes⟩ := @ih s' hcurrent h
          rw [hheld] at hslices hnbytes
          refine ⟨hr, hconfig, hoffset, hnone, ?_, ?_⟩
          · rw [hslices, List.drop_succ_cons]
          · rw [hnbytes, List.take_succ_cons, List.map_cons, List.sum_cons]
            exact Nat.sub_sub _ _ _
      next hover =>
        injection h with hr ht
        subst ht
        rw [if_neg hover]
        exact ⟨hr.symm, rfl, rfl, rfl, rfl, by simp⟩

/-- No slice ends the loop that waits for less than no element. -/
theorem discardCounts_zero {r : Except ProtoError Unit} (slices : List (ℕ × Slice)) :
    discardCounts B 0 s slices ≠ .returns r t := by
  induction slices generalizing s with
  | nil => simp [discardCounts]
  | cons p rest ih =>
      rw [discardCounts, if_pos (Nat.zero_le _)]
      split
      · simp
      · exact ih

theorem discardCounts_returned {limit : ℕ} {r : Except ProtoError Unit}
    {slices : List (ℕ × Slice)} (hne : slices ≠ [])
    (h : discardCounts B limit s slices = .returns r t) :
    r = .ok () ∧ { s with slices }.Without (if limit ≤ s.ncounts then 1 else 0) t := by
  obtain ⟨⟨key, slice⟩, rest, rfl⟩ := List.exists_cons_of_ne_nil hne
  have hlimit : limit ≠ 0 := by
    rintro rfl
    exact discardCounts_zero _ h
  rw [discardCounts] at h
  split at h
  next hover =>
    rw [if_pos hover]
    split at h
    · cases h
    · -- the counter is zero now, and the loop ends
      cases rest with
      | nil =>
          rw [discardCounts, if_neg (by simp only [ncounts]; omega)] at h
          injection h with hr ht
          subst ht
          exact ⟨hr.symm, rfl, rfl, rfl, rfl, by simp⟩
      | cons q rest =>
          rw [discardCounts, if_neg (by simp only [ncounts]; omega)] at h
          injection h with hr ht
          subst ht
          exact ⟨hr.symm, rfl, rfl, rfl, rfl, by simp⟩
  next hover =>
    injection h with hr ht
    subst ht
    rw [if_neg hover]
    exact ⟨hr.symm, rfl, rfl, rfl, rfl, by simp⟩

/-- A discard that returns leaves the series without the slices it was to discard. -/
theorem discard_returned {r : Except ProtoError Unit} (hcurrent : s.currentSlice = none)
    (hne : s.slices ≠ []) (h : discard B s = .returns r t) :
    r = .ok () ∧ s.Without (s.toDiscard B) t ∧ s.toDiscard B ≤ s.slices.length := by
  have hlen : 1 ≤ s.slices.length := List.length_pos_iff.mpr hne
  cases hstrategy : s.config.discardStrategy with
  | None =>
      simp only [discard, hstrategy] at h
      injection h with hr ht
      subst ht
      simp only [toDiscard, hstrategy]
      exact ⟨hr.symm, ⟨rfl, rfl, rfl, rfl, by simp⟩, Nat.zero_le _⟩
  | BaseMemorySize discard_threshold chunkSize =>
      simp only [discard, hstrategy] at h
      obtain ⟨hr, hwithout⟩ := discardBytes_returned hcurrent h
      simp only [toDiscard, hstrategy]
      refine ⟨hr, hwithout, ?_⟩
      exact Nat.le_trans (excess_le _ _ _) (Nat.le_of_eq (List.length_map _))
  | BaseElementCount discard_threshold chunkSize =>
      simp only [discard, hstrategy] at h
      simp only [toDiscard, hstrategy]
      cases hlimit : subUsize B discard_threshold 1 with
      | none => simp [hlimit] at h
      | some limit =>
          simp only [hlimit] at h
          obtain ⟨hr, hwithout⟩ := discardCounts_returned hne h
          refine ⟨hr, hwithout, ?_⟩
          simp only
          split <;> omega

/-- Every committed slice has a full chunk, so the window moves by whole chunks. -/
theorem Holding.without (h : s.Holding B past parts cur) {count : ℕ}
    (hcount : count ≤ s.slices.length) (hwithout : s.Without count t) :
    ∃ past' parts', t.Holding B past' parts' cur ∧
      past' ++ parts'.flatten = past ++ parts.flatten ∧
      past'.length = past.length + count * s.config.discardStrategy.getChunkSize.getD 0 := by
  obtain ⟨hconfig, -, hcurrent, hslices, hnbytes⟩ := hwithout
  induction count generalizing s past parts with
  | zero =>
      refine ⟨past, parts, ?_, rfl, by simp⟩
      obtain ⟨hlaid, hpending, hchunks, hsum⟩ := h
      rw [List.drop_zero] at hslices
      constructor
      · rwa [hslices]
      · rwa [hcurrent]
      · rwa [hslices, hconfig]
      · rw [hnbytes, hslices, hsum]
        simp
  | succ count ih =>
      obtain ⟨p, rest, hfirst⟩ := List.exists_cons_of_length_pos (by omega : 0 < s.slices.length)
      cases hparts : parts with
      | nil =>
          have hlaid := h.laid
          rw [hparts, hfirst] at hlaid
          exact (nomatch hlaid)
      | cons es parts' =>
          rw [hparts] at h
          obtain ⟨-, hlength⟩ := h.first hfirst
          have hchunk := h.chunks p (by simp [hfirst])
          have hdrop := h.discard_first hfirst s.dropped s.commitCounts
          rw [hfirst] at hslices hnbytes hcount
          obtain ⟨past', parts'', hheld, hall, hpast⟩ := ih hdrop
            (by simpa using hcount) hconfig hcurrent (by simpa using hslices)
            (by rw [hnbytes, List.take_succ_cons, List.map_cons, List.sum_cons]
                exact (Nat.sub_sub _ _ _).symm)
          refine ⟨past', parts'', hheld, ?_, ?_⟩
          · rw [hall, List.flatten_cons, List.append_assoc]
          · rw [hpast, List.length_append, ← hlength, hchunk, Option.getD_some]
            rw [Nat.succ_mul]
            omega

/-- A full slice is committed, and the slices that go move the start. -/
theorem Holding.discard_returned {full : Slice} {es : List Ele} {r : Except ProtoError Unit}
    (h : s.Holding B past parts cur) (hlog : past ++ parts.flatten ++ es = log)
    (hsize : log.length ≤ usizeMax) (hfull : full.offset = past.length + parts.flatten.length)
    (hne : es ≠ []) (hholds : full.Holds B es)
    (hchunk : s.config.discardStrategy.getChunkSize = some full.length)
    (hreturned : Series.discard B (insertCurrent B s full) = .returns r t) :
    r = .ok () ∧ t.config = s.config ∧ t.offset = s.offset ∧
      ∃ past' parts', t.Holding B past' parts' [] ∧ past' ++ parts'.flatten = log ∧
        past'.length = past.length + (insertCurrent B s full).toDiscard B * full.length := by
  have hlen : past.length + parts.flatten.length + es.length = log.length := by
    rw [← hlog, List.length_append, List.length_append]
  have hcommit := h.commit hfull hne hholds (by unfold usizeMax at hsize; omega) hchunk
  have hslices : (insertCurrent B s full).slices ≠ [] := by simp [insertCurrent, insertSlice]
  obtain ⟨hr, hwithout, hcount⟩ := Series.discard_returned rfl hslices hreturned
  obtain ⟨past', parts', hheld, hall, hpast⟩ := hcommit.without hcount hwithout
  refine ⟨hr, hwithout.config, hwithout.offset, past', parts', hheld, ?_, ?_⟩
  · rw [hall, ← hlog, List.flatten_append, List.flatten_singleton, List.append_assoc]
  · rw [hpast]
    simp only [insertCurrent, hchunk, Option.getD_some]

/-- An append that returns was rejected, or put its element behind the log. -/
theorem Windowed.append_returned {r : Except ProtoError Unit} (h : s.Windowed B past log)
    (hvalue : appendValue B s data = .returns r t) :
    (∃ e, r = .error e) ∧ s.rejects data = true ∨
    r = .ok () ∧ s.rejects data = false ∧
      t.config.discardStrategy = s.config.discardStrategy ∧
      t.Starts B (past.length +
        s.discards B data * s.config.discardStrategy.getChunkSize.getD 0)
        (log ++ [data]) := by
  obtain ⟨parts, cur, hholding, hlog, hoffset, hsize⟩ := h
  cases harray : createArray data with
  | none =>
      rw [appendValue, harray] at hvalue
      injection hvalue with hr
      exact .inl ⟨⟨_, hr.symm⟩, by simp [rejects, harray]⟩
  | some array =>
  rw [appendValue, harray] at hvalue
  simp only at hvalue
  by_cases hcap : s.offset = usizeMax
  · rw [Series.append, if_pos hcap] at hvalue
    injection hvalue with hr
    exact .inl ⟨⟨_, hr.symm⟩, by simp [rejects, hcap]⟩
  have hlen : past.length + parts.flatten.length + cur.length = log.length := by
    rw [← hlog, List.length_append, List.length_append]
  have hnext : min (s.offset + 1) usizeMax = (log ++ [data]).length := by
    rw [List.length_append, List.length_singleton]
    omega
  have hsize' : (log ++ [data]).length ≤ usizeMax := by omega
  have hpending := hholding.pending
  cases hcurrent : s.currentSlice with
  | none =>
      rw [hcurrent] at hpending
      cases hpending
      rw [Series.append, if_neg hcap, hcurrent] at hvalue
      simp only at hvalue
      split at hvalue
      · cases hvalue
      split at hvalue
      · cases hvalue
      injection hvalue with hr ht
      subst ht
      refine .inr ⟨hr.symm, by simp [rejects, harray, hcap, hcurrent], rfl, past, ?_, parts, [data],
        hholding.open_slice ?_ (createArray_eles harray) data.dtype s.counted _, ?_, hnext,
        hsize'⟩
      · simp [discards, hcurrent]
      · rw [List.length_nil] at hlen
        omega
      · rw [← hlog, List.append_nil]
  | some slice =>
      rw [hcurrent] at hpending
      cases hpending with
      | some seq hne =>
          cases hpush : appendToArray seq data with
          | error e =>
              simp only [Series.append, if_neg hcap, hcurrent, hpush] at hvalue
              injection hvalue with hr
              exact .inl ⟨⟨_, hr.symm⟩, by simp [rejects, hcurrent, Slice.push, hpush]⟩
          | ok array' =>
              have heles := appendToArray_eles hpush
              have hne' : array'.eles ≠ [] := by simp [heles]
              have hall : past ++ parts.flatten ++ array'.eles = log ++ [data] := by
                rw [heles, ← hlog, List.append_assoc _ seq.eles]
              have hpushed : (⟨past.length + parts.flatten.length, seq.len, .Raw seq⟩ : Slice).push
                  data = some ⟨past.length + parts.flatten.length, array'.len, .Raw array'⟩ := by
                rw [← appendToArray_len hpush]
                simp only [Slice.push, hpush]
              have hfits : s.rejects data = false := by
                rw [rejects, harray, hcurrent, Option.any_some, hpushed]
                simp [hcap]
              have hheld := hholding.push hne' s.counted
              cases hchunk : s.config.discardStrategy.getChunkSize with
              | none =>
                  simp only [Series.append, if_neg hcap, hcurrent, hpush, hchunk] at hvalue
                  cases hvalue
              | some chunkSize =>
                  rw [append_of_current hcap hcurrent hpush hchunk] at hvalue
                  split at hvalue
                  next hfull =>
                    obtain ⟨r', t', hdiscard, hr, ht⟩ := Outcome.appended_eq_returns hvalue
                    obtain ⟨-, hconfig, hoffset', past', parts', hheld', hlog', hpast⟩ :=
                      hheld.discard_returned hall hsize' rfl hne' Pending.holds
                        (by rw [hchunk, hfull]) hdiscard
                    subst ht
                    refine .inr ⟨hr, hfits, by rw [hconfig], past', ?_, parts', [],
                      hheld'.at_offset _, ?_, ?_, hsize'⟩
                    · rw [hpast, discards, hcurrent, Option.bind_some, hpushed, Option.getD_some]
                      simp only [hchunk, hfull, if_true]
                    · rw [List.append_nil, hlog']
                    · simp only [hoffset']
                      exact hnext
                  next hfull =>
                    injection hvalue with hr ht
                    subst ht
                    refine .inr ⟨hr.symm, hfits, rfl, past, ?_, parts, array'.eles,
                      hheld.at_offset _, hall, hnext, hsize'⟩
                    rw [discards, hcurrent, Option.bind_some, hpushed]
                    simp only [hchunk, Option.some.injEq]
                    rw [if_neg (Ne.symm hfull), Nat.zero_mul, Nat.add_zero]

end Series

end Probing.Proto
