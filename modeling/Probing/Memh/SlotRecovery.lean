import Probing.Memh.SlotTransaction
import Mathlib.Order.Fin.Basic

/-!
# Journal recovery keeps committed images

Whatever step the owner died at, the slots with an even control word hold
committed images, and the journal holds a committed image of the only slot that
can be odd. Rolling back publishes the control word before the last word of the
slot, so a rollback keeps this only where that last word is already restored.
-/

namespace Probing.Memh

variable {G : Geometry} {st : Store} {idx j : ℕ} {w w' : Fin 4} {v : UInt64}

namespace Store

@[simp] theorem load_store_self (off : ℕ) : (st.store off w v).load off w = v := by
  simp [store, load]

theorem load_store_word (off : ℕ) (h : w' ≠ w) :
    (st.store off w v).load off w' = st.load off w' := by
  have hne : off + 8 * (w' : ℕ) ≠ off + 8 * (w : ℕ) := by
    have : (w' : ℕ) ≠ w := Fin.val_ne_of_ne h
    omega
  simp only [store, load, Function.update_of_ne hne]

theorem load_store_slot (h : j ≠ idx) :
    (st.store (slotOffset idx) w v).load (slotOffset j) w' = st.load (slotOffset j) w' := by
  have hne : slotOffset j + 8 * (w' : ℕ) ≠ slotOffset idx + 8 * (w : ℕ) := by
    simp only [slotOffset, slotOff, sizeOfSlot]
    omega
  simp only [store, load, Function.update_of_ne hne]

@[simp] theorem journalState_store (off : ℕ) :
    (st.store off w v).journalState = st.journalState := rfl
@[simp] theorem journalSlotOff_store (off : ℕ) :
    (st.store off w v).journalSlotOff = st.journalSlotOff := rfl
@[simp] theorem journalWords_store (off : ℕ) :
    (st.store off w v).journalWords = st.journalWords := rfl
@[simp] theorem journal_store (off : ℕ) : (st.store off w v).journal = st.journal := rfl
@[simp] theorem committed_store (off : ℕ) : (st.store off w v).committed = st.committed := rfl

/-- Storing what is there changes nothing. -/
theorem store_load_self (off : ℕ) (h : v = st.load off w) : st.store off w v = st := by
  subst h
  simp [store, load]

/-- The control word of slot `idx` is odd. -/
def Busy (st : Store) (idx : ℕ) : Prop := isOdd (st.load (slotOffset idx) 2) = true

/-- No slot is being written. -/
def Quiet (G : Geometry) (st : Store) : Prop := ∀ idx < G.numBuckets, ¬ st.Busy idx

/-- The journal names slot `idx`. -/
def Journals (st : Store) (idx : ℕ) : Prop :=
  st.journalState ≠ 0 ∧ st.journalSlotOff.toNat = slotOffset idx

/-- What holds of slots and journal between any two steps, whoever is alive. -/
structure Consistent (G : Geometry) (st : Store) : Prop where
  even : ∀ idx < G.numBuckets, ¬ st.Busy idx → st.image (slotOffset idx) ∈ st.committed idx
  odd : ∀ idx < G.numBuckets, st.Busy idx → st.Journals idx ∧
    st.journal ∈ st.committed idx ∧ isOdd st.journal.control = false
  journal : st.journalState ≠ 0 →
    ∃ idx < G.numBuckets, st.journalSlotOff.toNat = slotOffset idx

end Store

theorem slotOffset_inj : slotOffset idx = slotOffset j ↔ idx = j := by
  simp only [slotOffset, slotOff, sizeOfSlot]
  omega

/-- The offset of a slot of the table is stored without truncation. -/
theorem slotOffset_toNat (h : idx < G.numBuckets) :
    (UInt32.ofNat (slotOffset idx)).toNat = slotOffset idx := by
  have hfits := G.fits
  simp only [arenaStartAbs, slotOffset, slotOff, sizeOfSlot] at hfits ⊢
  rw [UInt32.toNat_ofNat']
  omega

/-- What the owner knows at each program counter. -/
def TxPc.Knows (G : Geometry) (st : Store) : TxPc → Prop
  | journalState => True
  | journalOff => st.journalState ≠ 0
  | journalGen off => ∃ idx < G.numBuckets, off = slotOffset idx ∧ st.Journals idx
  | journalLoad off w => ∃ idx < G.numBuckets, off = slotOffset idx ∧ st.Journals idx ∧
      (w ≤ 2 → st.Busy idx) ∧ (∀ v < w, st.load off v = st.journalWords v) ∧
      (w = 3 → st.image off = st.journal ∧ ¬ st.Busy idx)
  | journalStore off w v => ∃ idx < G.numBuckets, off = slotOffset idx ∧ st.Journals idx ∧
      (w ≤ 2 → st.Busy idx) ∧ (∀ v < w, st.load off v = st.journalWords v) ∧
      (w = 3 → st.image off = st.journal ∧ ¬ st.Busy idx) ∧ v = st.journalWords w
  | journalClear => st.Quiet G
  | refused => False
  | held => st.Quiet G ∧ st.journalState = 0
  | beginLoad idx _ w => idx < G.numBuckets ∧ st.Quiet G ∧ st.journalState = 0 ∧
      ∀ v < w, st.journalWords v = st.load (slotOffset idx) v
  | beginSave idx _ w v => idx < G.numBuckets ∧ st.Quiet G ∧ st.journalState = 0 ∧
      (∀ v < w, st.journalWords v = st.load (slotOffset idx) v) ∧
      v = st.load (slotOffset idx) w
  | beginOff idx _ => idx < G.numBuckets ∧ st.Quiet G ∧ st.journalState = 0 ∧
      st.journal = st.image (slotOffset idx)
  | beginValid idx _ => idx < G.numBuckets ∧ st.Quiet G ∧ st.journalState = 0 ∧
      st.journal = st.image (slotOffset idx) ∧ st.journalSlotOff.toNat = slotOffset idx
  | beginControl idx _ => idx < G.numBuckets ∧ st.Quiet G ∧
      st.journal = st.image (slotOffset idx) ∧ st.Journals idx
  | beginOdd idx _ _ _ => idx < G.numBuckets ∧ st.Quiet G ∧
      st.journal = st.image (slotOffset idx) ∧ st.Journals idx
  | body idx _ _ _ => idx < G.numBuckets ∧ st.Busy idx
  | finishClear _ => st.Quiet G

/-- The control word a step publishes as even, and where. -/
def TxPc.publishes : TxPc → Option (ℕ × UInt64)
  | journalStore off w v => if w = 2 then some (off, v) else none
  | body idx headOff odd [] => some (slotOffset idx, finishControl headOff odd)
  | _ => none

/-- A rollback that is about to publish the control word finds the last word
already restored. -/
def TxPc.InOrder (st : Store) : TxPc → Prop
  | journalStore off w _ => w = 2 → st.load off 3 = st.journalWords 3
  | _ => True

namespace Store

theorem busy_store_slot (h : j ≠ idx) :
    (st.store (slotOffset idx) w v).Busy j ↔ st.Busy j := by
  simp only [Busy, load_store_slot h]

theorem busy_store_payload (h : w ≠ 2) :
    (st.store (slotOffset idx) w v).Busy j ↔ st.Busy j := by
  by_cases hj : j = idx
  · subst hj
    simp only [Busy, load_store_word _ h.symm]
  · exact busy_store_slot hj

theorem busy_store_control : (st.store (slotOffset idx) 2 v).Busy idx ↔ isOdd v = true := by
  simp only [Busy, load_store_self]

theorem image_store_slot (h : j ≠ idx) :
    (st.store (slotOffset idx) w v).image (slotOffset j) = st.image (slotOffset j) :=
  Image.ofWords_congr fun _ => load_store_slot h

theorem image_control (off : ℕ) : (st.image off).control = st.load off 2 := rfl

theorem Journals.unique (h : st.Journals idx) (h' : st.Journals j) : idx = j :=
  slotOffset_inj.1 (h.2.symm.trans h'.2)

namespace Consistent

variable (h : Consistent G st)

include h

/-- A payload store into the slot being written. -/
theorem store_payload (hbusy : st.Busy idx) (hw : w ≠ 2) :
    Consistent G (st.store (slotOffset idx) w v) := by
  have hiff : ∀ j, (st.store (slotOffset idx) w v).Busy j ↔ st.Busy j :=
    fun j => busy_store_payload hw
  refine ⟨fun j hj hb => ?_, fun j hj hb => h.odd j hj ((hiff j).mp hb), h.journal⟩
  have hne : j ≠ idx := fun e => hb ((hiff j).mpr (e ▸ hbusy))
  rw [image_store_slot hne]
  exact h.even j hj fun hb' => hb ((hiff j).mpr hb')

/-- Publishing an even control word ends the only write. -/
theorem quiet_publish (hidx : idx < G.numBuckets) (hbusy : st.Busy idx)
    (hv : isOdd v = false) : (st.store (slotOffset idx) 2 v).Quiet G := by
  intro j hj hb
  by_cases hne : j = idx
  · subst hne
    simp [busy_store_control, hv] at hb
  · have hj' := (h.odd j hj ((busy_store_slot hne).mp hb)).1
    exact hne (hj'.unique (h.odd idx hidx hbusy).1)

/-- Rolling back the control word, the last word being restored already. -/
theorem store_rollback (hidx : idx < G.numBuckets) (hbusy : st.Busy idx)
    (himage : (st.store (slotOffset idx) 2 v).image (slotOffset idx) = st.journal)
    (hv : isOdd v = false) : Consistent G (st.store (slotOffset idx) 2 v) := by
  have hquiet := h.quiet_publish hidx hbusy hv
  refine ⟨fun j hj _ => ?_, fun j hj hb => absurd hb (hquiet j hj), h.journal⟩
  by_cases hne : j = idx
  · subst hne
    rw [himage]
    exact (h.odd j hj hbusy).2.1
  · rw [image_store_slot hne]
    exact h.even j hj fun hb => hquiet j hj ((busy_store_slot hne).mpr hb)

/-- Opening a write on a quiet table whose journal holds the slot's image. -/
theorem store_begin (hidx : idx < G.numBuckets) (hquiet : st.Quiet G)
    (hjournals : st.Journals idx) (himage : st.journal = st.image (slotOffset idx))
    (hv : isOdd v = true) : Consistent G (st.store (slotOffset idx) 2 v) := by
  refine ⟨fun j hj hb => ?_, fun j hj hb => ?_, h.journal⟩
  · have hne : j ≠ idx := fun e => hb (e ▸ busy_store_control.2 hv)
    rw [image_store_slot hne]
    exact h.even j hj (hquiet j hj)
  · obtain rfl : j = idx := by
      by_contra hne
      exact hquiet j hj ((busy_store_slot hne).mp hb)
    refine ⟨hjournals, ?_, ?_⟩
    · rw [journal_store, himage]
      exact h.even j hj (hquiet j hj)
    · rw [journal_store, himage]
      simpa [Busy, image_control] using hquiet j hj

/-- The first store of `finish_slot_write` commits the slot's new image. -/
theorem finish (hidx : idx < G.numBuckets) (hbusy : st.Busy idx) (hv : isOdd v = false)
    {done : Store} (hdone : done = st.store (slotOffset idx) 2 v) :
    Consistent G { done with
      committed := Function.update st.committed idx
        (done.image (slotOffset idx) :: st.committed idx) } := by
  subst hdone
  have hquiet := h.quiet_publish hidx hbusy hv
  refine ⟨fun j hj _ => ?_, fun j hj hb => absurd hb (hquiet j hj), h.journal⟩
  by_cases hne : j = idx
  · subst hne
    simp only [Function.update_self]
    exact List.mem_cons_self
  · simp only [Function.update_of_ne hne]
    change (st.store (slotOffset idx) 2 v).image (slotOffset j) ∈ _
    rw [image_store_slot hne]
    exact h.even j hj fun hb => hquiet j hj ((busy_store_slot hne).mpr hb)

/-- The journal may change freely while no slot is being written. -/
theorem of_quiet (st' : Store) (hquiet : st.Quiet G) (hmem : st'.mem = st.mem)
    (hcommitted : st'.committed = st.committed)
    (hjournal : st'.journalState ≠ 0 →
      ∃ idx < G.numBuckets, st'.journalSlotOff.toNat = slotOffset idx) :
    Consistent G st' ∧ st'.Quiet G := by
  have hload : ∀ off w, st'.load off w = st.load off w := fun _ _ => by simp only [load, hmem]
  have hquiet' : st'.Quiet G := fun j hj hb => hquiet j hj (by simpa only [Busy, hload] using hb)
  refine ⟨⟨fun j hj _ => ?_, fun j hj hb => absurd hb (hquiet' j hj), hjournal⟩, hquiet'⟩
  have himage : st'.image (slotOffset j) = st.image (slotOffset j) :=
    Image.ofWords_congr fun w => hload _ w
  rw [himage, hcommitted]
  exact h.even j hj (hquiet j hj)

end Consistent

end Store

open Store

theorem nextWord_none (h : nextWord w = none) (x : Fin 4) : x ≤ w := by
  revert h; revert x w; decide

theorem nextWord_some (h : nextWord w = some w') (x : Fin 4) : x < w' ↔ x ≤ w := by
  revert h; revert x w w'; decide

theorem nextWord_of_ne (h : w ≠ 3) : ∃ w', nextWord w = some w' := by
  revert h; revert w; decide

/-- The restoring store of a rollback. -/
theorem rollback_sound {off : ℕ} (h : st.Consistent G)
    (hp : (TxPc.journalStore off w v).Knows G st)
    (horder : (TxPc.journalStore off w v).InOrder st) :
    (transact G st (.journalStore off w v)).1.Consistent G ∧
      (transact G st (.journalStore off w v)).2.Knows G
        (transact G st (.journalStore off w v)).1 := by
  obtain ⟨idx, hidx, rfl, hjournals, hbusy, hrestored, hlast, rfl⟩ := hp
  have hrestored' : ∀ x ≤ w,
      (st.store (slotOffset idx) w (st.journalWords w)).load (slotOffset idx) x =
        st.journalWords x := by
    intro x hx
    rcases eq_or_lt_of_le hx with rfl | hlt
    · rw [load_store_self]
    · rw [load_store_word _ hlt.ne, hrestored x hlt]
  by_cases hw3 : w = 3
  · -- The last word is already there, so the store changes nothing.
    subst hw3
    obtain ⟨himage, hidle⟩ := hlast rfl
    have hword : st.journalWords 3 = st.load (slotOffset idx) 3 :=
      congrArg Image.value himage.symm
    have hsame := st.store_load_self (slotOffset idx) hword
    have hnone : nextWord 3 = none := by decide
    simp only [transact, hsame, hnone]
    exact ⟨h, fun j hj hb => hidle ((h.odd j hj hb).1.unique hjournals ▸ hb)⟩
  have hle : w ≤ 2 := by omega
  have hb := hbusy hle
  by_cases hw2 : w = 2
  · subst hw2
    have hnext : nextWord 2 = some 3 := by decide
    have heven := (h.odd idx hidx hb).2.2
    have himage : (st.store (slotOffset idx) 2 (st.journalWords 2)).image (slotOffset idx) =
        st.journal := by
      refine Image.ofWords_congr fun x => ?_
      by_cases hx : x = 3
      · rw [hx, load_store_word _ (by decide), horder rfl]
      · exact hrestored' x (by omega)
    simp only [transact, hnext]
    refine ⟨h.store_rollback hidx hb himage heven, idx, hidx, rfl, hjournals, fun hc => ?_,
      fun x hx => hrestored' x ((nextWord_some hnext x).mp hx), fun _ => ⟨himage, ?_⟩⟩
    · exact absurd hc (by decide)
    · exact h.quiet_publish hidx hb heven idx hidx
  · obtain ⟨w', hnext⟩ := nextWord_of_ne hw3
    have hb' : (st.store (slotOffset idx) w (st.journalWords w)).Busy idx :=
      (busy_store_payload hw2).mpr hb
    simp only [transact, hnext]
    refine ⟨h.store_payload hb hw2, idx, hidx, rfl, hjournals, fun _ => hb',
      fun x hx => hrestored' x ((nextWord_some hnext x).mp hx), fun h3 => ?_⟩
    exact absurd (le_antisymm hle ((nextWord_some hnext 2).mp (by omega))) hw2

/-- One step of the owner keeps slots and journal consistent, and the owner
knows at its next program counter what that counter requires. -/
theorem transact_sound {p : TxPc} (h : st.Consistent G) (hp : p.Knows G st)
    (horder : p.InOrder st) :
    (transact G st p).1.Consistent G ∧ (transact G st p).2.Knows G (transact G st p).1 := by
  cases p with
  | journalState =>
      refine ⟨h, ?_⟩
      simp only [transact]
      split_ifs with hstate
      · exact ⟨fun j hj hb => (h.odd j hj hb).1.1 hstate, hstate⟩
      · exact hstate
  | journalOff =>
      refine ⟨h, ?_⟩
      obtain ⟨idx, hidx, hoff⟩ := h.journal hp
      have hbound : ¬ (st.journalSlotOff.toNat < computeDataOffset ∨
          G.slotsEnd < st.journalSlotOff.toNat + sizeOfSlot ∨
          st.journalSlotOff.toNat % 8 ≠ 0) := by
        simp only [hoff, slotOffset, slotOff, Geometry.slotsEnd, arenaStartAbs, sizeOfSlot,
          computeDataOffset, align64, metaOffset]
        omega
      simp only [transact, if_neg hbound]
      exact ⟨idx, hidx, hoff, hp, hoff⟩
  | journalGen off =>
      refine ⟨h, ?_⟩
      obtain ⟨idx, hidx, rfl, hjournals⟩ := hp
      simp only [transact]
      split_ifs with hodd
      · exact ⟨idx, hidx, rfl, hjournals, fun _ => hodd, fun v hv => absurd hv (by simp),
          fun h => absurd h (by decide)⟩
      · intro j hj hb
        exact hodd ((h.odd j hj hb).1.unique hjournals ▸ hb)
  | journalLoad off w =>
      obtain ⟨idx, hidx, hoff, hjournals, hbusy, hrestored, hlast⟩ := hp
      exact ⟨h, idx, hidx, hoff, hjournals, hbusy, hrestored, hlast, rfl⟩
  | journalStore off w v => exact rollback_sound h hp horder
  | journalClear =>
      obtain ⟨hc, hq⟩ := h.of_quiet { st with journalState := 0 } hp rfl rfl
        fun hstate => absurd rfl hstate
      exact ⟨hc, hq, rfl⟩
  | refused => exact hp.elim
  | held => exact ⟨h, hp⟩
  | beginLoad idx u w =>
      obtain ⟨hidx, hquiet, hstate, hsaved⟩ := hp
      exact ⟨h, hidx, hquiet, hstate, hsaved, rfl⟩
  | beginSave idx u w v =>
      obtain ⟨hidx, hquiet, hstate, hsaved, hv⟩ := hp
      obtain ⟨hc, hq⟩ := h.of_quiet
        { st with journalWords := Function.update st.journalWords w v } hquiet rfl rfl
        fun hne => absurd hstate hne
      have hsaved' : ∀ x ≤ w, Function.update st.journalWords w v x =
          st.load (slotOffset idx) x := by
        intro x hx
        rcases eq_or_lt_of_le hx with rfl | hlt
        · rw [Function.update_self, hv]
        · rw [Function.update_of_ne hlt.ne, hsaved x hlt]
      refine ⟨hc, ?_⟩
      cases hn : nextWord w with
      | none =>
          simp only [transact, hn]
          exact ⟨hidx, hq, hstate, Image.ofWords_congr fun x => hsaved' x (nextWord_none hn x)⟩
      | some w' =>
          simp only [transact, hn]
          exact ⟨hidx, hq, hstate, fun x hx => hsaved' x ((nextWord_some hn x).mp hx)⟩
  | beginOff idx u =>
      obtain ⟨hidx, hquiet, hstate, himage⟩ := hp
      obtain ⟨hc, hq⟩ := h.of_quiet
        { st with journalSlotOff := .ofNat (slotOffset idx) } hquiet rfl rfl
        fun hne => absurd hstate hne
      exact ⟨hc, hidx, hq, hstate, himage, slotOffset_toNat hidx⟩
  | beginValid idx u =>
      obtain ⟨hidx, hquiet, hstate, himage, hoff⟩ := hp
      obtain ⟨hc, hq⟩ := h.of_quiet { st with journalState := 1 } hquiet rfl rfl
        fun _ => ⟨idx, hidx, hoff⟩
      have hone : (1 : UInt32) ≠ 0 := by decide
      exact ⟨hc, hidx, hq, himage, hone, hoff⟩
  | beginControl idx u => exact ⟨h, hp⟩
  | beginOdd idx u headOff generation =>
      obtain ⟨hidx, hquiet, himage, hjournals⟩ := hp
      have hodd := isOdd_oddGeneration headOff generation
      exact ⟨h.store_begin hidx hquiet hjournals himage hodd, hidx, busy_store_control.2 hodd⟩
  | body idx headOff odd ops =>
      obtain ⟨hidx, hbusy⟩ := hp
      cases ops with
      | nil =>
          have heven : isOdd (finishControl headOff odd) = false := isOdd_evenGeneration _ _
          exact ⟨h.finish hidx hbusy heven rfl, h.quiet_publish hidx hbusy heven⟩
      | cons op rest =>
          cases op with
          | word0 v | hash v | value v =>
              exact ⟨h.store_payload hbusy (by decide), hidx,
                (busy_store_payload (by decide)).mpr hbusy⟩
          | patchWord0 tag valDtype => exact ⟨h, hidx, hbusy⟩
  | finishClear idx =>
      obtain ⟨hc, hq⟩ := h.of_quiet { st with journalState := 0 } hp rfl rfl
        fun hstate => absurd rfl hstate
      exact ⟨hc, hq, rfl⟩

/-- `n` steps of the owner with nobody else at the table. -/
def transacts (G : Geometry) (n : ℕ) (s : Store × TxPc) : Store × TxPc :=
  (fun s => transact G s.1 s.2)^[n] s

theorem transacts_add (m n : ℕ) (s : Store × TxPc) :
    transacts G (m + n) s = transacts G m (transacts G n s) := Function.iterate_add_apply ..

theorem Store.image_store (st : Store) (off : ℕ) (w : Fin 4) (v : UInt64) :
    (st.store off w v).image off = .ofWords (Function.update (st.load off) w v) := by
  refine Image.ofWords_congr fun x => ?_
  by_cases hx : x = w
  · rw [hx, load_store_self, Function.update_self]
  · rw [load_store_word _ hx, Function.update_of_ne hx]

theorem body_applies (idx : ℕ) (headOff odd : UInt32) (ops : List BodyOp) (st : Store) : ∃ n st',
    transacts G n (st, .body idx headOff odd ops) = (st', .body idx headOff odd []) ∧
      st'.image (slotOffset idx) = ops.foldl BodyOp.apply (st.image (slotOffset idx)) ∧
      st'.committed = st.committed := by
  induction ops generalizing st with
  | nil => exact ⟨0, st, rfl, rfl, rfl⟩
  | cons op rest ih =>
      obtain ⟨k, mid, haccess, himage, hcommitted⟩ : ∃ k mid,
          transacts G k (st, .body idx headOff odd (op :: rest)) =
            (mid, .body idx headOff odd rest) ∧
          mid.image (slotOffset idx) = op.apply (st.image (slotOffset idx)) ∧
          mid.committed = st.committed := by
        cases op with
        | word0 v => exact ⟨1, _, rfl, st.image_store _ 0 v, rfl⟩
        | hash v => exact ⟨1, _, rfl, st.image_store _ 1 v, rfl⟩
        | value v => exact ⟨1, _, rfl, st.image_store _ 3 v, rfl⟩
        | patchWord0 tag valDtype => exact ⟨2, _, rfl, st.image_store _ 0 _, rfl⟩
      obtain ⟨n, last, hrest, hlast, hsame⟩ := ih mid
      refine ⟨n + k, last, ?_, hlast.trans (by rw [himage, List.foldl_cons]),
        hsame.trans hcommitted⟩
      rw [transacts_add, haccess, hrest]

/-- No payload access reads or writes the control word. -/
theorem foldl_control (ops : List BodyOp) (i : Image) (c : UInt64) :
    ops.foldl BodyOp.apply { i with control := c } =
      { ops.foldl BodyOp.apply i with control := c } := by
  induction ops generalizing i with
  | nil => rfl
  | cons op rest ih =>
      rw [List.foldl_cons, List.foldl_cons, ← ih]
      cases op <;> rfl

/-- An undisturbed transaction commits the update of the image that it finds. -/
theorem transact_applies (u : SlotUpdate) (st : Store) (idx : ℕ) : ∃ n st',
    transacts G n (st, .beginLoad idx u 0) = (st', .finishClear idx) ∧
      st'.committed = Function.update st.committed idx
        (u.apply (st.image (slotOffset idx)) :: st.committed idx) := by
  let parts := controlParts (st.image (slotOffset idx)).control
  let odd := oddGeneration parts.2
  obtain ⟨opened, hbegin, himage, hopened⟩ : ∃ opened,
      transacts G 12 (st, .beginLoad idx u 0) =
        (opened, .body idx (u.head parts.1) odd u.body) ∧
      opened.image (slotOffset idx) =
        { st.image (slotOffset idx) with control := packControl parts.1 odd } ∧
      opened.committed = st.committed := ⟨_, rfl, Store.image_store .., rfl⟩
  obtain ⟨n, done, hbody, hdone, hsame⟩ :=
    body_applies (G := G) idx (u.head parts.1) odd u.body opened
  have hfinal : (done.store (slotOffset idx) 2 (finishControl (u.head parts.1) odd)).image
      (slotOffset idx) = u.apply (st.image (slotOffset idx)) :=
    calc
      _ = { done.image (slotOffset idx) with
            control := finishControl (u.head parts.1) odd } := Store.image_store ..
      _ = u.apply (st.image (slotOffset idx)) := by
          rw [hdone, himage, foldl_control]
          rfl
  refine ⟨1 + (n + 12), (transacts G 1 (done, .body idx (u.head parts.1) odd [])).1, ?_, ?_⟩
  · rw [transacts_add, transacts_add, hbegin, hbody]
    rfl
  · rw [← hfinal, ← hopened, ← hsame]
    rfl

end Probing.Memh
