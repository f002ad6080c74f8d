import Mathlib.Data.Finset.Card
import Probing.Core.Run
import Probing.Stacktrace.LatestSnapshots

/-!
# Writers and readers of the latest snapshot

The writer fills the buffer that is not current and that no reader has pinned. A reader that
pinned a buffer and then found it current copies what the last write left there, and no writer
comes to that buffer before the pin is gone.
-/

namespace Probing.Stacktrace

variable {A W : Type}

namespace Pc

/-- The call counts as a reader of the buffer. -/
def pins : Pc W → ℕ → Prop
  | recheck _ token, i | retreat _ token, i | copy _ token _ _, i => tokenIndex token = i
  | _, _ => False

/-- The call holds the writer flag. -/
def writes : Pc W → Prop
  | current _ | readers _ _ _ | filling _ _ _ _ _ | publish _ _ _ | release => True
  | _ => False

/-- The call may change the buffer, or publish it. -/
def fills : Pc W → ℕ → Prop
  | filling _ _ _ index _, i | publish _ index _, i => index = i
  | _, _ => False

def copies : Pc W → ℕ → Prop
  | copy _ token _ _, i => tokenIndex token = i
  | _, _ => False

theorem writes_of_fills {p : Pc W} {i : ℕ} (h : p.fills i) : p.writes := by
  cases p with
  | filling stores ok current index content => trivial
  | publish current index content => trivial
  | _ => exact h.elim

theorem pins_of_copies {p : Pc W} {i : ℕ} (h : p.copies i) : p.pins i := by
  cases p with
  | copy tries token write copied => exact h
  | _ => exact h.elim

end Pc

namespace State

/-- What a reader knows of the write that it validated. -/
structure Reads (s : State A W) (a : A) (token : UInt64) (write : ℕ) (content : List W) :
    Prop where
  written : s.writes[write]? = some content
  generation : (token >>> 1).toNat = (write + 1) % 2 ^ 63
  later : ∀ r ∈ s.returned, r.reader = a → r.write ≤ write

/-- What a call knows. -/
def Sees (s : State A W) (a : A) : Pc W → Prop
  | .readers _ current index => current = s.published ∧ index = s.writes.length % 2
  | .filling _ _ current index content | .publish current index content =>
      current = s.published ∧ index = s.writes.length % 2 ∧ s.buffers index = content
  | .pin _ _ | .recheck _ _ | .retreat _ _ => 0 < s.writes.length
  | .copy _ token write copied => ∃ content, s.Reads a token write content ∧
      s.buffers (tokenIndex token) = content ∧ copied = content.take copied.length
  | .confirm _ token write copied => s.Reads a token write copied
  | _ => True

/-- The count of a buffer is the number of the calls that have it pinned. -/
def Pinned (s : State A W) : Prop :=
  ∀ i, ∃ calls : Finset A, calls.card = s.readers i ∧ ∀ a, a ∈ calls ↔ (s.pc a).pins i

structure Inv (s : State A W) : Prop where
  published : Published s.writes.length s.published
  pinned : s.Pinned
  exclusive : ∀ a b, (s.pc a).writes → (s.pc b).writes → a = b
  flag : ∀ a, (s.pc a).writes → s.writer = true
  guarded : ∀ a b i, (s.pc a).fills i → (s.pc b).copies i → False
  sees : ∀ a, s.Sees a (s.pc a)
  last : 0 < s.writes.length →
    s.writes[s.writes.length - 1]? = some (s.buffers (tokenIndex s.published))
  returned : ∀ r ∈ s.returned, s.writes[r.write]? = some r.snapshot ∧
    r.generation.toNat = (r.write + 1) % 2 ^ 63
  ordered : s.returned.Pairwise fun r r' => r.reader = r'.reader → r.write ≤ r'.write

variable [DecidableEq A] {s t : State A W} {a b : A} {p : Pc W} {i : ℕ}

theorem gotoPc (s : State A W) (a : A) (p : Pc W) :
    (s.goto a p).pc = Function.update s.pc a p := rfl

omit [DecidableEq A] in
theorem inv_new (zeroed : List W) : (new zeroed : State A W).Inv where
  published := published_zero
  pinned i := ⟨∅, rfl, fun a => by simp [new, Pc.pins]⟩
  exclusive a b ha := ha.elim
  flag a ha := ha.elim
  guarded a b i ha := ha.elim
  sees a := trivial
  last h := (Nat.lt_irrefl 0 h).elim
  returned r hr := (nomatch hr)
  ordered := List.Pairwise.nil

omit [DecidableEq A] in
/-- A call knows what it knew, if the words that it goes by have not changed. -/
theorem Sees.mono (h : s.Sees a p)
    (hwriter : p.writes → t.published = s.published ∧ t.writes = s.writes)
    (hlength : 0 < s.writes.length → 0 < t.writes.length)
    (hreads : ∀ {token write content}, s.Reads a token write content →
      t.Reads a token write content)
    (hbuffers : ∀ i, p.copies i ∨ p.fills i → t.buffers i = s.buffers i) : t.Sees a p := by
  cases p with
  | copy tries token write copied =>
      obtain ⟨content, hr, hbuffer, hcopied⟩ := h
      exact ⟨content, hreads hr, (hbuffers _ (.inl rfl)).trans hbuffer, hcopied⟩
  | confirm tries token write copied => exact hreads h
  | readers fill current index =>
      obtain ⟨hpublished, hwrites⟩ := hwriter trivial
      rw [Sees, hpublished, hwrites]
      exact h
  | filling stores ok current index content =>
      obtain ⟨hpublished, hwrites⟩ := hwriter trivial
      rw [Sees, hpublished, hwrites, hbuffers index (.inr rfl)]
      exact h
  | publish current index content =>
      obtain ⟨hpublished, hwrites⟩ := hwriter trivial
      rw [Sees, hpublished, hwrites, hbuffers index (.inr rfl)]
      exact h
  | pin tries token => exact hlength h
  | recheck tries token => exact hlength h
  | retreat tries token => exact hlength h
  | _ => trivial

omit [DecidableEq A] in
/-- A change of the buffers that the call neither copies nor fills. -/
theorem Sees.store (h : s.Sees a p)
    (hbuffers : ∀ i, p.copies i ∨ p.fills i → t.buffers i = s.buffers i)
    (hpublished : t.published = s.published) (hwrites : t.writes = s.writes)
    (hreturned : t.returned = s.returned) : t.Sees a p := by
  refine h.mono (fun _ => ⟨hpublished, hwrites⟩) (fun hpos => ?_) (fun hr => ?_) hbuffers
  · rw [hwrites]
    exact hpos
  · exact ⟨hwrites ▸ hr.written, hr.generation, hreturned ▸ hr.later⟩

omit [DecidableEq A] in
/-- A buffer without readers is pinned by no call. -/
theorem Pinned.not_pins (h : s.Pinned) (hzero : s.readers i = 0) (a : A) : ¬ (s.pc a).pins i := by
  obtain ⟨calls, hcard, hmem⟩ := h i
  rw [hzero, Finset.card_eq_zero] at hcard
  rw [← hmem, hcard]
  exact Finset.notMem_empty a

theorem Pinned.of_same (h : s.Pinned) (hreaders : t.readers = s.readers)
    (hpc : t.pc = Function.update s.pc a p) (hpins : ∀ i, p.pins i ↔ (s.pc a).pins i) :
    t.Pinned := by
  intro i
  obtain ⟨calls, hcard, hmem⟩ := h i
  refine ⟨calls, by rw [hcard, hreaders], fun b => ?_⟩
  rw [hmem, hpc]
  by_cases hb : b = a
  · subst hb
    rw [Function.update_self, hpins]
  · rw [Function.update_of_ne hb]

/-- A call pins a buffer. -/
theorem Pinned.pin (h : s.Pinned) {j : ℕ}
    (hreaders : t.readers = Function.update s.readers j (s.readers j + 1))
    (hpc : t.pc = Function.update s.pc a p) (hold : ∀ i, ¬ (s.pc a).pins i)
    (hpins : ∀ i, p.pins i ↔ j = i) : t.Pinned := by
  intro i
  obtain ⟨calls, hcard, hmem⟩ := h i
  have hnot : a ∉ calls := fun ha => hold i ((hmem a).mp ha)
  have hother {b : A} (hb : b ≠ a) : t.pc b = s.pc b := by rw [hpc, Function.update_of_ne hb]
  have hself : t.pc a = p := by rw [hpc, Function.update_self]
  by_cases hi : j = i
  · subst hi
    refine ⟨insert a calls, ?_, fun b => ?_⟩
    · rw [Finset.card_insert_of_notMem hnot, hcard, hreaders, Function.update_self]
    · by_cases hb : b = a
      · subst hb
        simp [hself, hpins]
      · rw [Finset.mem_insert, hmem, hother hb]
        simp [hb]
  · refine ⟨calls, ?_, fun b => ?_⟩
    · rw [hcard, hreaders, Function.update_of_ne (Ne.symm hi)]
    · by_cases hb : b = a
      · subst hb
        simp [hself, hpins, hnot, hi]
      · rw [hmem, hother hb]

/-- A pin is taken back. -/
theorem Pinned.unpin (h : s.Pinned) {j : ℕ}
    (hreaders : t.readers = Function.update s.readers j (s.readers j - 1))
    (hpc : t.pc = Function.update s.pc a p) (hold : ∀ i, (s.pc a).pins i ↔ j = i)
    (hpins : ∀ i, ¬ p.pins i) : t.Pinned := by
  intro i
  obtain ⟨calls, hcard, hmem⟩ := h i
  have hother {b : A} (hb : b ≠ a) : t.pc b = s.pc b := by rw [hpc, Function.update_of_ne hb]
  have hself : t.pc a = p := by rw [hpc, Function.update_self]
  by_cases hi : j = i
  · subst hi
    have ha : a ∈ calls := (hmem a).mpr ((hold j).mpr rfl)
    refine ⟨calls.erase a, ?_, fun b => ?_⟩
    · rw [Finset.card_erase_of_mem ha, hcard, hreaders, Function.update_self]
    · by_cases hb : b = a
      · subst hb
        simp [hself, hpins]
      · rw [Finset.mem_erase, hmem, hother hb]
        simp [hb]
  · have ha : a ∉ calls := fun ha => hi ((hold i).mp ((hmem a).mp ha))
    refine ⟨calls, ?_, fun b => ?_⟩
    · rw [hcard, hreaders, Function.update_of_ne (Ne.symm hi)]
    · by_cases hb : b = a
      · subst hb
        simp [hself, hpins, ha]
      · rw [hmem, hother hb]

/-- One call moves on, and the others know what they knew. -/
theorem Inv.move (h : s.Inv) (hpc : t.pc = Function.update s.pc a p)
    (hpublished : Published t.writes.length t.published) (hpinned : t.Pinned)
    (hwrites : p.writes → ∀ b ≠ a, ¬ (s.pc b).writes)
    (hflag : ∀ b, (t.pc b).writes → t.writer = true)
    (hfills : ∀ i, p.fills i → ∀ b, ¬ (s.pc b).copies i)
    (hcopies : ∀ i, p.copies i → ∀ b ≠ a, ¬ (s.pc b).fills i)
    (hself : t.Sees a p) (hothers : ∀ b ≠ a, t.Sees b (s.pc b))
    (hlast : 0 < t.writes.length →
      t.writes[t.writes.length - 1]? = some (t.buffers (tokenIndex t.published)))
    (hreturned : ∀ r ∈ t.returned, t.writes[r.write]? = some r.snapshot ∧
      r.generation.toNat = (r.write + 1) % 2 ^ 63)
    (hordered : t.returned.Pairwise fun r r' => r.reader = r'.reader → r.write ≤ r'.write) :
    t.Inv where
  published := hpublished
  pinned := hpinned
  exclusive := by
    rw [hpc]
    exact Core.unique_update h.exclusive hwrites
  flag := hflag
  guarded b c i hb hc := by
    by_cases hba : b = a
    · subst hba
      rw [hpc, Function.update_self] at hb
      by_cases hcb : c = b
      · subst hcb
        rw [hpc, Function.update_self] at hc
        cases p with
        | copy tries token write copied => exact hb
        | _ => exact hc
      · rw [hpc, Function.update_of_ne hcb] at hc
        exact hfills i hb c hc
    · rw [hpc, Function.update_of_ne hba] at hb
      by_cases hca : c = a
      · subst hca
        rw [hpc, Function.update_self] at hc
        exact hcopies i hc b hba hb
      · rw [hpc, Function.update_of_ne hca] at hc
        exact h.guarded b c i hb hc
  sees := by
    rw [hpc]
    exact (Function.forall_update_iff s.pc t.Sees).mpr ⟨hself, hothers⟩
  last := hlast
  returned := hreturned
  ordered := hordered

/-- A call moves on and changes no shared word. -/
theorem Inv.stays (h : s.Inv) (hpins : ∀ i, p.pins i ↔ (s.pc a).pins i)
    (hwrites : p.writes → (s.pc a).writes)
    (hfills : ∀ i, p.fills i → ∀ b, ¬ (s.pc b).copies i)
    (hcopies : ∀ i, p.copies i → ∀ b ≠ a, ¬ (s.pc b).fills i)
    (hself : s.Sees a p) : (s.goto a p).Inv := by
  refine h.move rfl h.published (h.pinned.of_same rfl rfl hpins) ?_ ?_ hfills hcopies
    (hself.store (fun _ _ => rfl) rfl rfl rfl)
    (fun b hb => (h.sees b).store (fun _ _ => rfl) rfl rfl rfl) h.last h.returned
    h.ordered
  · exact fun hp b hb hwb => hb (h.exclusive b a hwb (hwrites hp))
  · intro b hb
    by_cases hba : b = a
    · subst hba
      rw [gotoPc, Function.update_self] at hb
      exact h.flag b (hwrites hb)
    · rw [gotoPc, Function.update_of_ne hba] at hb
      exact h.flag b hb

/-- The writer picks the buffer that is not current and that no reader has pinned. -/
theorem Inv.triesBuffer (h : s.Inv) {fill : Fill W} {start : ℕ}
    (hpins : ∀ i, ¬ (s.pc a).pins i) (hwrites : (s.pc a).writes)
    (hindex : ∀ index, candidate s.published start = some index → index = s.writes.length % 2) :
    (s.goto a (State.triesBuffer fill s.published (candidate s.published start))).Inv := by
  have hpins' (i : ℕ) : (s.pc a).pins i ↔ False := ⟨hpins i, False.elim⟩
  cases hcandidate : candidate s.published start with
  | none =>
      exact h.stays (fun i => (hpins' i).symm) (fun _ => hwrites) (fun i hi => hi.elim)
        (fun i hi => hi.elim) trivial
  | some index =>
      exact h.stays (fun i => (hpins' i).symm) (fun _ => hwrites) (fun i hi => hi.elim)
        (fun i hi => hi.elim) ⟨rfl, hindex index hcandidate⟩

/-- A write is published. -/
theorem Inv.publish (h : s.Inv) {current : UInt64} {index : ℕ} {content : List W}
    (hpc : s.pc a = .publish current index content) : (s.advance a).Inv := by
  have hsees := h.sees a
  rw [hpc] at hsees
  obtain ⟨rfl, rfl, rfl⟩ := hsees
  have hwrites : (s.pc a).writes := by rw [hpc]; trivial
  have hfills : (s.pc a).fills (s.writes.length % 2) := by rw [hpc]; exact rfl
  rw [advance, hpc]
  simp only
  have hmono {write : ℕ} {content : List W} (hwritten : s.writes[write]? = some content) :
      (s.writes ++ [s.buffers (s.writes.length % 2)])[write]? = some content := by
    rw [List.getElem?_append_left (List.getElem?_eq_some_iff.mp hwritten).1]
    exact hwritten
  have hlength : (s.writes ++ [s.buffers (s.writes.length % 2)]).length = s.writes.length + 1 := by
    rw [List.length_append, List.length_singleton]
  have hnext := h.published.next
  have hindex : tokenIndex (tokenOf (nextGeneration s.published) (s.writes.length % 2)) =
      s.writes.length % 2 := by
    rw [hnext.index (Nat.succ_pos _)]
    omega
  refine h.move rfl ?_ (h.pinned.of_same rfl rfl fun i => by rw [hpc]; exact Iff.rfl)
    (fun _ b hb hwb => hb (h.exclusive b a hwb hwrites)) (fun b _ => h.flag a hwrites)
    (fun i hi => hi.elim) (fun i hi => hi.elim) trivial (fun b hb => ?_) (fun _ => ?_) ?_ h.ordered
  · rw [hlength]
    exact hnext
  · -- another call is no writer, and what a reader knows of its write stays true
    refine (h.sees b).mono (fun hwb => (hb (h.exclusive b a hwb hwrites)).elim) (fun _ => ?_)
      (fun hr => ⟨hmono hr.written, hr.generation, hr.later⟩) fun _ _ => rfl
    rw [hlength]
    exact Nat.succ_pos _
  · rw [hlength, Nat.add_sub_cancel, hindex]
    exact List.getElem?_concat_length
  · intro r hr
    obtain ⟨hwritten, hgeneration⟩ := h.returned r hr
    exact ⟨hmono hwritten, hgeneration⟩

/-- A word is stored into the buffer that is being filled. -/
theorem Inv.store (h : s.Inv) {offset : ℕ} {word : W} {stores : List (ℕ × W)} {ok : Bool}
    {current : UInt64} {index : ℕ} {content : List W}
    (hpc : s.pc a = .filling ((offset, word) :: stores) ok current index content) :
    (s.advance a).Inv := by
  have hsees := h.sees a
  rw [hpc] at hsees
  obtain ⟨rfl, rfl, rfl⟩ := hsees
  have hwrites : (s.pc a).writes := by rw [hpc]; trivial
  have hfills : (s.pc a).fills (s.writes.length % 2) := by rw [hpc]; exact rfl
  have hnot (b : A) : ¬ (s.pc b).copies (s.writes.length % 2) := h.guarded a b _ hfills
  rw [advance, hpc]
  simp only
  refine h.move rfl h.published (h.pinned.of_same rfl rfl fun i => by rw [hpc]; exact Iff.rfl)
    (fun _ b hb hwb => hb (h.exclusive b a hwb hwrites)) (fun b _ => h.flag a hwrites)
    (fun i hi b => ?_) (fun i hi => hi.elim) ⟨rfl, rfl, Function.update_self _ _ _⟩
    (fun b hb => ?_) (fun hpos => ?_) h.returned h.ordered
  · obtain rfl : s.writes.length % 2 = i := hi
    exact hnot b
  · refine (h.sees b).store (fun j hj => ?_) rfl rfl rfl
    have hne : j ≠ s.writes.length % 2 := by
      rintro rfl
      obtain hcopies | hfillsb := hj
      · exact hnot b hcopies
      · exact hb (h.exclusive b a (Pc.writes_of_fills hfillsb) hwrites)
    exact Function.update_of_ne hne _ _
  · have hne : tokenIndex s.published ≠ s.writes.length % 2 := by
      rw [h.published.index hpos]
      omega
    have hlast := h.last hpos
    rw [← Function.update_of_ne hne ((s.buffers (s.writes.length % 2)).set offset word)
      s.buffers] at hlast
    exact hlast

/-- The writer flag is taken. -/
theorem Inv.acquire (h : s.Inv) {fill : Fill W} (hpc : s.pc a = .acquire fill) :
    (s.advance a).Inv := by
  rw [advance, hpc]
  simp only
  split
  · exact h.stays (fun i => by rw [hpc]; exact Iff.rfl) (fun hp => hp.elim) (fun i hi => hi.elim)
      (fun i hi => hi.elim) trivial
  next hfree =>
    have hnone (b : A) : ¬ (s.pc b).writes := fun hwb => hfree (h.flag b hwb)
    exact h.move rfl h.published (h.pinned.of_same rfl rfl fun i => by rw [hpc]; exact Iff.rfl)
      (fun _ b _ => hnone b) (fun _ _ => rfl) (fun i hi => hi.elim) (fun i hi => hi.elim) trivial
      (fun b hb => (h.sees b).store (fun _ _ => rfl) rfl rfl rfl) h.last h.returned h.ordered

theorem Inv.release (h : s.Inv) (hpc : s.pc a = .release) : (s.advance a).Inv := by
  have hwrites : (s.pc a).writes := by rw [hpc]; trivial
  rw [advance, hpc]
  simp only
  refine h.move rfl h.published (h.pinned.of_same rfl rfl fun i => by rw [hpc]; exact Iff.rfl)
    (fun hp => hp.elim) (fun b hb => ?_) (fun i hi => hi.elim) (fun i hi => hi.elim) trivial
    (fun b hb => (h.sees b).store (fun _ _ => rfl) rfl rfl rfl) h.last h.returned h.ordered
  by_cases hba : b = a
  · subst hba
    rw [gotoPc, Function.update_self] at hb
    exact hb.elim
  · rw [gotoPc, Function.update_of_ne hba] at hb
    exact (hba (h.exclusive b a hb hwrites)).elim

end State

end Probing.Stacktrace
