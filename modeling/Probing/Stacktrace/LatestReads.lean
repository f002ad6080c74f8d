import Probing.Stacktrace.LatestInvariant

/-!
# Reading the latest snapshot

A reader pins the buffer that was published and looks at the word again: if it has not changed,
the buffer holds the last write, and the pin keeps it so.
-/

namespace Probing.Stacktrace

namespace State

variable {A W : Type} [DecidableEq A] {s t : State A W} {a b : A}
variable {tries write : ℕ} {token : UInt64} {copied : List W}

omit [DecidableEq A] in
theorem Inv.validated (h : s.Inv) (hpos : 0 < s.writes.length) (a : A) :
    s.Reads a s.published (s.writes.length - 1) (s.buffers (tokenIndex s.published)) where
  written := h.last hpos
  generation := by
    rw [h.published.generation hpos, Nat.sub_add_cancel hpos]
  later r hr _ := by
    have hwrite := (List.getElem?_eq_some_iff.mp (h.returned r hr).1).1
    omega

omit [DecidableEq A] in
theorem retries_writes : ¬ (retries tries : Pc W).writes := by
  rw [retries]
  split <;> exact not_false

omit [DecidableEq A] in
theorem retries_pins {i : ℕ} : ¬ (retries tries : Pc W).pins i := by
  rw [retries]
  split <;> exact not_false

omit [DecidableEq A] in
theorem retries_fills {i : ℕ} : ¬ (retries tries : Pc W).fills i := fun h =>
  retries_writes (Pc.writes_of_fills h)

omit [DecidableEq A] in
theorem retries_copies {i : ℕ} : ¬ (retries tries : Pc W).copies i := fun h =>
  retries_pins (Pc.pins_of_copies h)

omit [DecidableEq A] in
theorem sees_retries : s.Sees a (retries tries) := by
  rw [retries]
  split <;> trivial

/-- A reader changes the reader counts alone. -/
theorem Inv.counts (h : s.Inv) {p : Pc W} {readers : ℕ → ℕ}
    (hpinned : State.Pinned { s.goto a p with readers := readers })
    (hold : ¬ (s.pc a).writes) (hwrites : ¬ p.writes) (hcopies : ∀ i, ¬ p.copies i)
    (hself : s.Sees a p) : State.Inv { s.goto a p with readers := readers } := by
  refine h.move rfl h.published hpinned (fun hp => (hwrites hp).elim) (fun b hb => ?_)
    (fun i hi => (hwrites (Pc.writes_of_fills hi)).elim) (fun i hi => (hcopies i hi).elim)
    (hself.store (fun _ _ => rfl) rfl rfl rfl)
    (fun b hb => (h.sees b).store (fun _ _ => rfl) rfl rfl rfl) h.last h.returned h.ordered
  by_cases hba : b = a
  · subst hba
    have hp : p.writes := by
      rw [← Function.update_self b p s.pc]
      exact hb
    exact (hwrites hp).elim
  · have hwb : (s.pc b).writes := by
      rw [← Function.update_of_ne hba p s.pc]
      exact hb
    exact h.flag b hwb

theorem Inv.load (h : s.Inv) (hpc : s.pc a = .load tries) : (s.advance a).Inv := by
  rw [advance, hpc]
  simp only
  split
  · exact h.stays (fun i => by rw [hpc]; exact Iff.rfl) False.elim (fun i hi => hi.elim)
      (fun i hi => hi.elim) trivial
  next htoken =>
    refine h.stays (fun i => by rw [hpc]; exact Iff.rfl) False.elim (fun i hi => hi.elim)
      (fun i hi => hi.elim) ?_
    exact Nat.pos_of_ne_zero fun hzero => htoken (h.published.eq_no_latest_iff.mpr hzero)

theorem Inv.pin (h : s.Inv) (hpc : s.pc a = .pin tries token) : (s.advance a).Inv := by
  have hsees := h.sees a
  have hpinned := h.pinned.pin (t := { s.goto a (.recheck tries token) with
    readers := Function.update s.readers (tokenIndex token)
      (s.readers (tokenIndex token) + 1) }) rfl rfl
    (fun i => by rw [hpc]; exact not_false) (fun i => Iff.rfl)
  rw [hpc] at hsees
  rw [advance, hpc]
  exact h.counts hpinned (by rw [hpc]; exact not_false) not_false (fun i => not_false) hsees

/-- The pin was in time if the buffer is still current. -/
theorem Inv.recheck (h : s.Inv) (hpc : s.pc a = .recheck tries token) : (s.advance a).Inv := by
  have hsees := h.sees a
  rw [hpc] at hsees
  have hpos : 0 < s.writes.length := hsees
  rw [advance, hpc]
  simp only
  split
  next htoken =>
    subst htoken
    refine h.stays (fun i => by rw [hpc]; exact Iff.rfl) False.elim (fun i hi => hi.elim)
      (fun i hi b hb hfills => ?_) ⟨_, h.validated hpos a, rfl, rfl⟩
    -- the writer is at the other buffer
    obtain rfl : tokenIndex s.published = i := hi
    have hother : tokenIndex s.published = s.writes.length % 2 := by
      have hseesb := h.sees b
      cases hpcb : s.pc b with
      | filling stores ok current index content =>
          rw [hpcb] at hseesb hfills
          rw [← hseesb.2.1]
          exact hfills.symm
      | publish current index content =>
          rw [hpcb] at hseesb hfills
          rw [← hseesb.2.1]
          exact hfills.symm
      | _ => rw [hpcb] at hfills; exact hfills.elim
    rw [h.published.index hpos] at hother
    omega
  · exact h.stays (fun i => by rw [hpc]; exact Iff.rfl) False.elim (fun i hi => hi.elim)
      (fun i hi => hi.elim) hpos

theorem Inv.retreat (h : s.Inv) (hpc : s.pc a = .retreat tries token) : (s.advance a).Inv := by
  have hpinned := h.pinned.unpin (t := { s.goto a (retries tries) with
    readers := Function.update s.readers (tokenIndex token)
      (s.readers (tokenIndex token) - 1) }) rfl rfl
    (fun i => by rw [hpc]; exact Iff.rfl) (fun i => retries_pins)
  rw [advance, hpc]
  exact h.counts hpinned (by rw [hpc]; exact not_false) retries_writes (fun i => retries_copies)
    sees_retries

/-- A word is copied, or the copy is complete. -/
theorem Inv.copy (h : s.Inv) (hpc : s.pc a = .copy tries token write copied) :
    (s.advance a).Inv := by
  have hsees := h.sees a
  rw [hpc] at hsees
  obtain ⟨content, hreads, hbuffer, hcopied⟩ := hsees
  have hcopies : (s.pc a).copies (tokenIndex token) := by rw [hpc]; exact rfl
  cases hword : (s.buffers (tokenIndex token))[copied.length]? with
  | some word =>
      rw [advance, hpc]
      simp only [hword]
      refine h.stays (fun i => by rw [hpc]; exact Iff.rfl) False.elim (fun i hi => hi.elim)
        (fun i hi b hb hfills => ?_) ⟨content, hreads, hbuffer, ?_⟩
      · obtain rfl : tokenIndex token = i := hi
        exact h.guarded b a _ hfills hcopies
      · rw [hbuffer] at hword
        rw [List.length_append, List.length_singleton, List.take_add_one, hword, ← hcopied]
        rfl
  | none =>
      have hall : copied = content := by
        rw [hbuffer, List.getElem?_eq_none_iff] at hword
        rw [hcopied, List.take_of_length_le hword]
      have hpinned := h.pinned.unpin (t := { s.goto a (.confirm tries token write copied) with
        readers := Function.update s.readers (tokenIndex token)
          (s.readers (tokenIndex token) - 1) }) rfl rfl
        (fun i => by rw [hpc]; exact Iff.rfl) (fun i => not_false)
      rw [advance, hpc]
      simp only [hword]
      refine h.counts hpinned (by rw [hpc]; exact not_false) not_false (fun i => not_false) ?_
      rw [hall]
      exact hreads

/-- A snapshot is returned. -/
theorem Inv.confirm (h : s.Inv) (hpc : s.pc a = .confirm tries token write copied) :
    (s.advance a).Inv := by
  have hreads := h.sees a
  rw [hpc] at hreads
  have hreads : s.Reads a token write copied := hreads
  rw [advance, hpc]
  simp only
  split
  next htoken =>
    refine h.move rfl h.published (h.pinned.of_same rfl rfl fun i => by rw [hpc]; exact Iff.rfl)
      False.elim (fun b hb => ?_) (fun i hi => hi.elim) (fun i hi => hi.elim) trivial
      (fun b hb => ?_) h.last (fun r hr => ?_) ?_
    · by_cases hba : b = a
      · subst hba
        have hidle : (Pc.idle : Pc W).writes := by
          rw [← Function.update_self b .idle s.pc]
          exact hb
        exact hidle.elim
      · have hwb : (s.pc b).writes := by
          rw [← Function.update_of_ne hba .idle s.pc]
          exact hb
        exact h.flag b hwb
    · refine (h.sees b).mono (fun _ => ⟨rfl, rfl⟩) id (fun hr => ?_) fun _ _ => rfl
      refine ⟨hr.written, hr.generation, fun r hmem hreader => ?_⟩
      obtain hold | hnew := List.mem_append.mp hmem
      · exact hr.later r hold hreader
      · obtain rfl := List.mem_singleton.mp hnew
        exact (hb hreader.symm).elim
    · obtain hold | hnew := List.mem_append.mp hr
      · exact h.returned r hold
      · obtain rfl := List.mem_singleton.mp hnew
        exact ⟨hreads.written, hreads.generation⟩
    · refine List.pairwise_append.mpr ⟨h.ordered, List.pairwise_singleton _ _, ?_⟩
      intro r hr r' hr' hreader
      obtain rfl := List.mem_singleton.mp hr'
      exact hreads.later r hr hreader
  · exact h.stays (fun i => by rw [hpc]; exact ⟨fun hi => retries_pins hi, False.elim⟩)
      (fun hp => (retries_writes hp).elim) (fun i hi => (retries_fills hi).elim)
      (fun i hi => (retries_copies hi).elim) sees_retries

end State

end Probing.Stacktrace
