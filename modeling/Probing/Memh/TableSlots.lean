import Probing.Memh.Table

/-!
# What a store into a slot changes

A slot update stores into the journal and into its slot only. The words that it gives are
read back, and the head is published with an even generation.
-/

namespace Probing.Memh.Table

open Probing.Core Probing.Memt

section Words

variable {α : Type} [LeWord α] {buf bs : Bytes} {off n k : ℕ}

/-- A word of a slice. -/
theorem getLe_slice (h : k + LeWord.width α ≤ n) :
    getLe α (slice buf off n) k = getLe α buf (off + k) := by
  rw [slice, getLe_take h, getLe_drop]

theorem getLe_of_slice_eq (h : slice buf off n = bs) (hk : k + LeWord.width α ≤ n) :
    getLe α buf (off + k) = getLe α bs k := by
  rw [← h, getLe_slice hk]

@[simp] theorem getLe_le (v : α) : getLe α (le v) 0 = v := by
  have h := getLe_le_append v []
  rwa [List.append_nil] at h

theorem slice_of_slice_eq {m : ℕ} (h : slice buf off n = bs) (hk : k + m ≤ n) :
    slice buf (off + k) m = slice bs k m := by
  rw [← h]
  calc
    slice buf (off + k) m = slice (buf.drop off) k m := (slice_drop buf off k m).symm
    _ = slice ((buf.drop off).take n) k m := (slice_take hk).symm

end Words

/-- Where the words of a slot lie, other than its control word. -/
def InSlot (s : Core.Store) (o : ℕ) : Prop := s.Within o (o + 16) ∨ s.Within (o + 24) (o + 32)

/-- A slot that lies in the buffer, behind the header. -/
structure Placed (buf : Bytes) (o : ℕ) : Prop where
  behind : 112 ≤ o
  room : o + 32 ≤ buf.length

/-- Words that are written between `begin_slot_write` and `finish_slot_write`. -/
structure Written (o : ℕ) (words : List Core.Store) : Prop where
  ordered : Ordered words
  within : ∀ s ∈ words, InSlot s o

section SlotWrite

variable {buf : Bytes} {o off n : ℕ} {headOff odd : UInt32} {words : List Core.Store}

theorem control_within (headOff generation : UInt32) :
    (⟨o + 16, le headOff ++ le generation⟩ : Core.Store).Within (o + 16) (o + 24) :=
  ⟨le_refl _, by rw [Store.fin, List.length_append, le_length_u32, le_length_u32]⟩

theorem begin_within : ∀ s ∈ beginStores buf o, s.Within 44 112 ∨ s.Within (o + 16) (o + 24) := by
  have hword {at_ k : ℕ} (hlow : 44 ≤ at_) (hhigh : at_ + 8 ≤ 112) :
      (⟨at_, slice buf k 8⟩ : Core.Store).Within 44 112 := by
    refine ⟨hlow, ?_⟩
    rw [Store.fin, slice_length]
    exact (Nat.add_le_add_left (Nat.min_le_left _ _) _).trans hhigh
  intro s hs
  simp only [beginStores, List.mem_cons, List.not_mem_nil, or_false] at hs
  rcases hs with rfl | rfl | rfl | rfl | rfl | rfl | rfl
  · exact .inl (hword (by omega) (by omega))
  · exact .inl (hword (by omega) (by omega))
  · exact .inl (hword (by omega) (by omega))
  · exact .inl (hword (by omega) (by omega))
  · exact .inl ⟨by dsimp only; omega, by rw [Store.fin, le_length_u32]; dsimp only; omega⟩
  · exact .inl ⟨by dsimp only; omega, by rw [Store.fin, le_length_u32]; dsimp only; omega⟩
  · exact .inr (control_within _ _)

theorem finish_within : ∀ s ∈ finishStores o headOff odd, s.Within 44 112 ∨
    s.Within (o + 16) (o + 24) := by
  intro s hs
  simp only [finishStores, List.mem_cons, List.not_mem_nil, or_false] at hs
  rcases hs with rfl | rfl
  · exact .inr (control_within _ _)
  · exact .inl ⟨by dsimp only; omega, by rw [Store.fin, le_length_u32]; dsimp only; omega⟩

/-- Every store of a slot update is one of its words, or goes to the journal or to the control
word. -/
theorem slot_stores_cases {s : Core.Store}
    (hs : s ∈ beginStores buf o ++ (words ++ finishStores o headOff odd)) :
    s ∈ words ∨ s.Within 44 112 ∨ s.Within (o + 16) (o + 24) := by
  rcases List.mem_append.mp hs with hbegin | hs
  · exact .inr (begin_within s hbegin)
  · exact (List.mem_append.mp hs).imp_right (finish_within s)

theorem slot_stores_within (headOff odd : UInt32) (hp : Placed buf o) (hw : Written o words) :
    ∀ s ∈ beginStores buf o ++ (words ++ finishStores o headOff odd), s.Within 0 buf.length := by
  have hroom := hp.room
  have hbehind := hp.behind
  intro s hs
  refine ⟨Nat.zero_le _, ?_⟩
  rcases slot_stores_cases hs with hword | hjournal | hcontrol
  · rcases hw.within s hword with hlow | hhigh
    · exact hlow.2.trans (by omega)
    · exact hhigh.2.trans hroom
  · exact hjournal.2.trans (by omega)
  · exact hcontrol.2.trans (by omega)

theorem slotWrite_length (hp : Placed buf o) (hw : Written o words) :
    (slotWrite buf o headOff words).length = buf.length :=
  storeAll_length (slot_stores_within _ _ hp hw)

/-- Bytes outside the journal and the slot stay. -/
theorem slotWrite_apart (hp : Placed buf o) (hw : Written o words)
    (hjournal : off + n ≤ 44 ∨ 112 ≤ off) (hslot : off + n ≤ o ∨ o + 32 ≤ off) :
    slice (slotWrite buf o headOff words) off n = slice buf off n := by
  apply slice_storeAll (slot_stores_within _ _ hp hw)
  intro s hs
  rcases slot_stores_cases hs with hword | hs | hcontrol
  · rcases hw.within s hword with hlow | hhigh
    · exact hlow.apart (by omega)
    · exact hhigh.apart (by omega)
  · exact hs.apart hjournal
  · exact hcontrol.apart (by omega)

/-- A word of the slot that is not written stays. -/
theorem slotWrite_kept (hp : Placed buf o) (hw : Written o words)
    (hwords : ∀ s ∈ words, s.Apart off n)
    (hoff : o ≤ off) (hcontrol : off + n ≤ o + 16 ∨ o + 24 ≤ off) :
    slice (slotWrite buf o headOff words) off n = slice buf off n := by
  have hbehind := hp.behind
  apply slice_storeAll (slot_stores_within _ _ hp hw)
  intro s hs
  rcases slot_stores_cases hs with hword | hjournal | hs
  · exact hwords s hword
  · exact hjournal.apart (by omega)
  · exact hs.apart hcontrol

/-- A word that is written is read back. -/
theorem slotWrite_word (headOff : UInt32) (hp : Placed buf o) (hw : Written o words)
    {s : Core.Store} (hs : s ∈ words) :
    slice (slotWrite buf o headOff words) s.off s.bytes.length = s.bytes := by
  have hbehind := hp.behind
  have hslot := hw.within s hs
  obtain ⟨before, after, rfl⟩ := List.append_of_mem hs
  obtain ⟨-, hrest, -⟩ := List.pairwise_append.mp hw.ordered
  have hin := slot_stores_within headOff (oddGeneration (slotGeneration buf o)) hp hw
  unfold slotWrite
  rw [List.append_assoc, List.cons_append, ← List.append_assoc] at hin ⊢
  apply slice_stored fun s' hs' => hin s' (List.mem_append_left _ hs')
  · exact fun s' hs' => hin s' (List.mem_append_right _ hs')
  intro s' hs'
  rcases List.mem_append.mp hs' with hafter | hfinish
  · exact .inl ((List.pairwise_cons.mp hrest).1 s' hafter)
  · have hstart : o ≤ s.off := hslot.elim (fun h => h.1) fun h => (Nat.le_add_right _ _).trans h.1
    have hclear : s.off + s.bytes.length ≤ o + 16 ∨ o + 24 ≤ s.off :=
      hslot.imp (fun h => h.2) fun h => h.1
    rcases finish_within s' hfinish with hjournal | hcontrol
    · exact hjournal.apart (by omega)
    · exact hcontrol.apart hclear

/-- The head is published with an even generation, then the journal is cleared. -/
theorem slotWrite_finish (headOff : UInt32) (hp : Placed buf o) (hw : Written o words) :
    slice (slotWrite buf o headOff words) (o + 16) 8 =
      le headOff ++ le (evenGeneration (oddGeneration (slotGeneration buf o))) ∧
    slice (slotWrite buf o headOff words) 44 4 = le (0 : UInt32) := by
  have hbehind := hp.behind
  have hin := slot_stores_within headOff (oddGeneration (slotGeneration buf o)) hp hw
  unfold slotWrite
  constructor
  · rw [← List.append_assoc] at hin ⊢
    apply slice_stored (s := ⟨o + 16, le headOff ++ le _⟩) fun s' hs' =>
      hin s' (List.mem_append_left _ hs')
    · exact fun s' hs' => hin s' (List.mem_append_right _ hs')
    intro s' hs'
    obtain rfl := List.mem_singleton.mp hs'
    refine .inr ?_
    rw [Store.fin, le_length_u32]
    dsimp only
    omega
  · rw [finishStores, ← List.append_assoc, List.append_cons] at hin ⊢
    apply slice_stored (s := ⟨44, le (0 : UInt32)⟩) fun s' hs' =>
      hin s' (List.mem_append_left _ hs')
    · exact fun s' hs' => hin s' (List.mem_append_right _ hs')
    · exact fun s' hs' => (List.not_mem_nil hs').elim

/-- What a slot update leaves alone, and that it is over. -/
structure SlotUpdated (buf buf' : Bytes) (o : ℕ) : Prop where
  length : buf'.length = buf.length
  apart : ∀ {off n}, off + n ≤ 44 ∨ 112 ≤ off → off + n ≤ o ∨ o + 32 ≤ off →
    slice buf' off n = slice buf off n
  idle : (header buf').journalState = 0
  even : slotGeneration buf' o &&& 1 = 0

theorem slot_updated (hp : Placed buf o) (hw : Written o words) :
    SlotUpdated buf (slotWrite buf o headOff words) o where
  length := slotWrite_length hp hw
  apart := slotWrite_apart hp hw
  idle := getLe_of_slice (slotWrite_finish _ hp hw).2
  even := by
    have hgen : slotGeneration (slotWrite buf o headOff words) o =
        evenGeneration (oddGeneration (slotGeneration buf o)) := by
      have h :=
        getLe_of_slice_eq (α := UInt32) (k := 4) (slotWrite_finish headOff hp hw).1 (by decide)
      rw [getLe_append_right (le_length_u32 _).le, le_length_u32] at h
      exact h.trans (getLe_le _)
    rw [hgen, evenGeneration_and_one]

theorem slotWrite_head (hp : Placed buf o) (hw : Written o words) :
    getLe UInt32 (slotWrite buf o headOff words) (o + 16) = headOff := by
  have h := getLe_of_slice_eq (α := UInt32) (k := 0) (slotWrite_finish headOff hp hw).1 (by decide)
  exact h.trans (getLe_le_append _ _)

end SlotWrite

section Updates

variable {buf : Bytes} {dataOff idx : ℕ} {tag valDtype : UInt8} {keyLen headOff : UInt32}
    {hash : UInt64}
  {valBytes : Bytes}

theorem written_single {o : ℕ} {bytes : Bytes} (h : bytes.length = 8) : Written o [⟨o, bytes⟩] where
  ordered := List.pairwise_singleton _ _
  within := by
    intro s hs
    obtain rfl := List.mem_singleton.mp hs
    refine .inl ⟨le_refl _, ?_⟩
    rw [Store.fin, h]
    dsimp only
    omega

theorem written_inline {o : ℕ} {bytes : Bytes} (h : bytes.length = 8) (hval : valBytes.length = 8) :
    Written o [⟨o, bytes⟩, ⟨o + 24, valBytes⟩] where
  ordered := by
    refine List.pairwise_pair.mpr ?_
    rw [Store.fin, h]
    dsimp only
    omega
  within := by
    intro s hs
    rcases List.mem_pair.mp hs with rfl | rfl
    · exact (written_single h).within _ List.mem_cons_self
    · exact .inr ⟨le_refl _, by rw [Store.fin, hval]⟩

theorem written_all {o : ℕ} {bytes : Bytes} (h : bytes.length = 8) (hval : valBytes.length = 8) :
    Written o [⟨o, bytes⟩, ⟨o + 8, le hash⟩, ⟨o + 24, valBytes⟩] where
  ordered := by
    have hfirst : (⟨o, bytes⟩ : Core.Store).fin = o + 8 := congrArg (o + ·) h
    refine List.pairwise_cons.mpr ⟨fun s hs => ?_, List.pairwise_pair.mpr ?_⟩
    · rw [hfirst]
      rcases List.mem_pair.mp hs with rfl | rfl
      · exact le_refl _
      · dsimp only
        omega
    · rw [Store.fin, le_length_u64]
      dsimp only
      omega
  within := by
    intro s hs
    rcases List.mem_cons.mp hs with rfl | hs
    · exact (written_single h).within _ List.mem_cons_self
    · rcases List.mem_pair.mp hs with rfl | rfl
      · exact .inl ⟨Nat.le_add_right _ _, by rw [Store.fin, le_length_u64]⟩
      · exact .inr ⟨le_refl _, by rw [Store.fin, hval]⟩

/-- The first word of a slot: tag, value type, padding and key length. -/
theorem read_word0 {o : ℕ} {rest : Bytes} (h : slice buf o 8 = le tag ++ rest) :
    getLe UInt8 buf o = tag ∧ ∀ {α : Type} [LeWord α] {k : ℕ}, k + 1 + LeWord.width α ≤ 8 →
      getLe α buf (o + (k + 1)) = getLe α rest k := by
  constructor
  · have hget := getLe_of_slice_eq (α := UInt8) (k := 0) h (by decide)
    exact hget.trans (getLe_le_append _ _)
  · intro α _ k hk
    rw [getLe_of_slice_eq h hk, getLe_append_right (by rw [le_length_u8]; omega), le_length_u8,
      Nat.add_sub_cancel]

theorem commitSlot_updated (tag valDtype : UInt8) (keyLen : UInt32) (hash : UInt64)
    (headOff : UInt32) (hp : Placed buf (slotOff dataOff idx)) (hval : valBytes.length = 8) :
    SlotUpdated buf (commitSlot buf dataOff idx tag valDtype keyLen hash headOff valBytes)
      (slotOff dataOff idx) := slot_updated hp (written_all rfl hval)

theorem head_word_length (tag : UInt8) (hp : Placed buf (slotOff dataOff idx)) :
    (le tag ++ slice buf (slotOff dataOff idx + 1) 7).length = 8 := by
  have hroom := hp.room
  rw [List.length_append, le_length_u8, slice_length]
  omega

theorem commitSlotHead_updated (tag : UInt8) (headOff : UInt32)
    (hp : Placed buf (slotOff dataOff idx)) :
    SlotUpdated buf (commitSlotHead buf dataOff idx tag headOff) (slotOff dataOff idx) :=
  slot_updated hp (written_single (head_word_length tag hp))

theorem inline_word_length (valDtype : UInt8) (hp : Placed buf (slotOff dataOff idx)) :
    (le slotInline ++ (le valDtype ++ slice buf (slotOff dataOff idx + 2) 6)).length = 8 := by
  have hroom := hp.room
  rw [List.length_append, List.length_append, le_length_u8, le_length_u8, slice_length]
  omega

theorem update_inline_updated (valDtype : UInt8) (hp : Placed buf (slotOff dataOff idx))
    (hval : valBytes.length = 8) :
    SlotUpdated buf (updateSlotInlineValue buf dataOff idx valDtype valBytes)
    (slotOff dataOff idx) :=
  slot_updated hp (written_inline (inline_word_length valDtype hp) hval)

theorem readSlot_commitSlot (tag valDtype : UInt8) (keyLen : UInt32) (hash : UInt64)
    (headOff : UInt32) (hp : Placed buf (slotOff dataOff idx)) (hval : valBytes.length = 8) :
    readSlot (commitSlot buf dataOff idx tag valDtype keyLen hash headOff valBytes) dataOff idx =
      ⟨tag, valDtype, keyLen, hash, headOff, valBytes⟩ := by
  unfold commitSlot
  dsimp only
  generalize hbytes : le tag ++ (le valDtype ++ (le (0 : UInt16) ++ le keyLen)) = bytes
  have hlen : bytes.length = 8 := by
    rw [← hbytes]
    rfl
  have hw : Written (slotOff dataOff idx)
      [⟨slotOff dataOff idx, bytes⟩, ⟨slotOff dataOff idx + 8, le hash⟩,
          ⟨slotOff dataOff idx + 24, valBytes⟩] :=
    written_all hlen hval
  have hword := slotWrite_word headOff hp hw (s := ⟨_, bytes⟩) List.mem_cons_self
  have hhash := slotWrite_word headOff hp hw (s := ⟨_, le hash⟩)
    (List.mem_cons_of_mem _ List.mem_cons_self)
  have hvalue := slotWrite_word headOff hp hw (s := ⟨_, valBytes⟩)
    (List.mem_cons_of_mem _ (List.mem_cons_of_mem _ List.mem_cons_self))
  dsimp only at hword hhash hvalue
  rw [hlen] at hword
  obtain ⟨htag, hrest⟩ := read_word0 (hword.trans hbytes.symm)
  ext1
  · exact htag
  · exact (hrest (α := UInt8) (k := 0) (by decide)).trans (getLe_le_append _ _)
  · have h := hrest (α := UInt32) (k := 3) (by decide)
    refine h.trans ?_
    simp [getLe_append_right, LeWord.width]
  · exact getLe_of_slice hhash
  · exact slotWrite_head hp hw
  · rw [hval] at hvalue
    dsimp only [readSlot]
    exact hvalue

theorem readSlot_commitSlotHead (hp : Placed buf (slotOff dataOff idx)) :
    readSlot (commitSlotHead buf dataOff idx tag headOff) dataOff idx =
      { readSlot buf dataOff idx with tag := tag, headOff := headOff } := by
  unfold commitSlotHead
  dsimp only
  have hlen := head_word_length tag hp
  have hw := written_single (o := slotOff dataOff idx) hlen
  have hword := slotWrite_word headOff hp hw (s := ⟨_, _⟩) List.mem_cons_self
  dsimp only at hword
  rw [hlen] at hword
  obtain ⟨htag, hrest⟩ := read_word0 hword
  have hkept {off n : ℕ} (hoff : slotOff dataOff idx + 8 ≤ off)
      (hcontrol : off + n ≤ slotOff dataOff idx + 16 ∨ slotOff dataOff idx + 24 ≤ off) :
      slice (slotWrite buf (slotOff dataOff idx) headOff
        [⟨slotOff dataOff idx, le tag ++ slice buf (slotOff dataOff idx + 1) 7⟩]) off n =
          slice buf off n := by
    apply slotWrite_kept hp hw _ ((Nat.le_add_right _ _).trans hoff) hcontrol
    intro s hs
    obtain rfl := List.mem_singleton.mp hs
    refine .inr ?_
    rw [Store.fin, hlen]
    exact hoff
  ext1
  · exact htag
  · exact (hrest (α := UInt8) (k := 0) (by decide)).trans (getLe_slice (by decide))
  · exact (hrest (α := UInt32) (k := 3) (by decide)).trans (getLe_slice (by decide))
  · exact getLe_congr (hkept (le_refl _) (.inl (le_refl _)))
  · exact slotWrite_head hp hw
  · exact hkept (Nat.add_le_add_left (by decide) _) (.inr (le_refl _))

theorem readSlot_update_inline (hp : Placed buf (slotOff dataOff idx))
    (hval : valBytes.length = 8) :
    readSlot (updateSlotInlineValue buf dataOff idx valDtype valBytes) dataOff idx =
      { readSlot buf dataOff idx with
        tag := slotInline, valDtype := valDtype, valBytes := valBytes } := by
  have hlen := inline_word_length valDtype hp
  unfold updateSlotInlineValue
  dsimp only
  generalize hbytes : le slotInline ++ (le valDtype ++ slice buf (slotOff dataOff idx + 2) 6) =
    bytes at hlen ⊢
  have hw := written_inline (o := slotOff dataOff idx) hlen hval
  have hword := slotWrite_word (getLe UInt32 buf (slotOff dataOff idx + 16)) hp hw
    (s := ⟨_, bytes⟩) List.mem_cons_self
  have hvalue := slotWrite_word (getLe UInt32 buf (slotOff dataOff idx + 16)) hp hw
    (s := ⟨_, valBytes⟩) (List.mem_cons_of_mem _ List.mem_cons_self)
  dsimp only at hword hvalue
  rw [hlen] at hword
  obtain ⟨htag, hrest⟩ := read_word0 (hword.trans hbytes.symm)
  ext1
  · exact htag
  · exact (hrest (α := UInt8) (k := 0) (by decide)).trans (getLe_le_append _ _)
  · have h := hrest (α := UInt32) (k := 3) (by decide)
    rw [getLe_append_right (by simp [LeWord.width]), le_length_u8] at h
    exact h.trans (getLe_slice (by decide))
  · apply getLe_congr
    apply slotWrite_kept hp hw _ (Nat.le_add_right _ _) (.inl (le_refl _))
    intro s hs
    rcases List.mem_pair.mp hs with rfl | rfl
    · refine .inr ?_
      rw [Store.fin, hlen]
    · refine .inl ?_
      change slotOff dataOff idx + 8 + 8 ≤ slotOff dataOff idx + 24
      omega
  · exact slotWrite_head hp hw
  · rw [hval] at hvalue
    dsimp only [readSlot]
    exact hvalue

end Updates

end Probing.Memh.Table
