import Probing.Memt.Schema

/-!
# The ring writer and the rows of each generation

The single writer appends rows and recycles chunks one atomic store at a time. A
row becomes readable with the store of `used`; `row_count` follows. Readers take
part only by their pins: a chunk is recycled when no pin is left on it. The
record of the rows each generation held when it was sealed is not stored by the
code. A generation is a counter here; the code's has 64 bits.
-/

namespace Probing.Memt

variable {Row : Type*}

/-- A chunk as its readers see it: `rows` are the rows below `used`. -/
structure RingChunk (Row : Type*) where
  generation : ℕ
  rows : List Row
  rowCount : ℕ
  state : ChunkState

/-- Program counter of the writer, in `write_row_bytes` or
`advance_chunk_raw_detailed`. -/
inductive RingPc where
  | idle
  | rowCount
  | previousState
  | storeEmpty (previous_state : ChunkState)
  | drain (previous_state : ChunkState)
  | restore (previous_state : ChunkState)
  | sealCurrent
  | generation
  | used
  | clearCount
  | writing
  | writeChunk

structure HotRing (Row : Type*) where
  numChunks : ℕ
  chunk : ℕ → RingChunk Row
  writeChunk : ℕ
  writer : RingPc
  /-- The rows of each chunk and generation at the moment of sealing. -/
  sealedRows : ℕ → ℕ → Option (List Row)

namespace HotRing

def initial (numChunks : ℕ) : HotRing Row where
  numChunks
  chunk c := ⟨if c = 0 then 1 else 0, [], 0, if c = 0 then .Writing else .Empty⟩
  writeChunk := 0
  writer := .idle
  sealedRows _ _ := none

variable (r : HotRing Row)

/-- Replace a chunk and go to `p`. -/
def store (c : ℕ) (ch : RingChunk Row) (p : RingPc) : HotRing Row :=
  { r with chunk := fun c' => if c' = c then ch else r.chunk c', writer := p }

def gotoPc (p : RingPc) : HotRing Row := { r with writer := p }

def generation (c : ℕ) : ℕ := (r.chunk c).generation

/-- The chunk the next advance recycles. -/
def nextChunk : ℕ := (r.writeChunk + 1) % r.numChunks

/-- `write_row_bytes` up to the store of `used`. -/
def append (row : Row) : HotRing Row :=
  let ch := r.chunk r.writeChunk
  r.store r.writeChunk { ch with rows := ch.rows ++ [row] } .rowCount

/-- The record of the rows in the write chunk, as its state becomes `Sealed`. -/
def record : HotRing Row :=
  let wc := r.writeChunk
  { r with sealedRows := fun c g =>
      if c = wc ∧ g = r.generation wc then some (r.chunk wc).rows else r.sealedRows c g }

/-- One step of the writer. At the end of its spins `pinned` tells whether a
live pin is left on the chunk. -/
def writerStep (pinned : Bool) : HotRing Row :=
  let c := r.nextChunk
  let ch := r.chunk c
  let cur := r.chunk r.writeChunk
  match r.writer with
  | .idle => r
  | .rowCount => r.store r.writeChunk { cur with rowCount := cur.rowCount + 1 } .idle
  | .previousState => r.gotoPc (.storeEmpty ch.state)
  | .storeEmpty previous_state => r.store c { ch with state := .Empty } (.drain previous_state)
  | .drain previous_state => r.gotoPc (if pinned then .restore previous_state else .sealCurrent)
  | .restore previous_state => r.store c { ch with state := previous_state } .idle
  | .sealCurrent =>
      if r.writeChunk = c then r.gotoPc .generation
      else r.record.store r.writeChunk { cur with state := .Sealed } .generation
  | .generation => r.store c { ch with generation := ch.generation + 1 } .used
  | .used => r.store c { ch with rows := [] } .clearCount
  | .clearCount => r.store c { ch with rowCount := 0 } .writing
  | .writing => r.store c { ch with state := .Writing } .writeChunk
  | .writeChunk => { r with writeChunk := c, writer := .idle }

/-- The chunk whose generation is being filled, or is about to be. -/
def filling : Option ℕ :=
  match r.writer with
  | .generation => none
  | .used | .clearCount | .writing | .writeChunk => some r.nextChunk
  | _ => some r.writeChunk

@[simp] theorem nextChunk_store (c : ℕ) (ch : RingChunk Row) (p : RingPc) :
    (r.store c ch p).nextChunk = r.nextChunk := rfl

@[simp] theorem writeChunk_store (c : ℕ) (ch : RingChunk Row) (p : RingPc) :
    (r.store c ch p).writeChunk = r.writeChunk := rfl

@[simp] theorem writer_store (c : ℕ) (ch : RingChunk Row) (p : RingPc) :
    (r.store c ch p).writer = p := rfl

@[simp] theorem writeChunk_gotoPc (p : RingPc) : (r.gotoPc p).writeChunk = r.writeChunk := rfl

@[simp] theorem writer_gotoPc (p : RingPc) : (r.gotoPc p).writer = p := rfl

/-- A sealed generation is not a future one, its rows stay while it lasts, and
the generation being filled is not sealed. -/
structure Inv : Prop where
  past : ∀ c g rows, r.sealedRows c g = some rows → g ≤ r.generation c
  current : ∀ c rows, r.sealedRows c (r.generation c) = some rows → (r.chunk c).rows = rows
  unsealed : ∀ c ∈ r.filling, r.sealedRows c (r.generation c) = none

/-- What a reader may rely on across steps of the writer. -/
structure Later (r t : HotRing Row) : Prop where
  generation_le : ∀ c, r.generation c ≤ t.generation c
  sealed_kept : ∀ c g rows, r.sealedRows c g = some rows → t.sealedRows c g = some rows

variable {r} {t u : HotRing Row} {c g : ℕ} {rows : List Row}

theorem Later.refl (r : HotRing Row) : Later r r := ⟨fun _ => le_rfl, fun _ _ _ h => h⟩

theorem Later.trans (h : Later r t) (h' : Later t u) : Later r u where
  generation_le c := (h.generation_le c).trans (h'.generation_le c)
  sealed_kept c g rows hs := h'.sealed_kept c g rows (h.sealed_kept c g rows hs)

theorem generation_store {c : ℕ} {ch : RingChunk Row} (h : ch.generation = r.generation c)
    (p : RingPc) (c' : ℕ) : (r.store c ch p).generation c' = r.generation c' := by
  unfold generation store
  by_cases hc : c' = c
  · subst hc
    simp only [if_true]
    exact h
  · simp [hc]

/-- A store that leaves the generation. -/
theorem store_later {c : ℕ} {ch : RingChunk Row} (h : r.generation c ≤ ch.generation)
    (p : RingPc) : Later r (r.store c ch p) where
  generation_le c' := by
    unfold generation store
    by_cases hc : c' = c
    · subst hc
      simp only [if_true]
      exact h
    · simp [hc]
  sealed_kept _ _ _ hs := hs

/-- A store that leaves the generation, and the rows too unless the chunk is the
one being filled, keeps the invariant. -/
theorem Inv.store (h : r.Inv) {c : ℕ} {ch : RingChunk Row} {p : RingPc}
    (hg : ch.generation = r.generation c) (hrows : ch.rows = (r.chunk c).rows ∨ c ∈ r.filling)
    (hfill : ∀ c' ∈ (r.store c ch p).filling, c' ∈ r.filling) : (r.store c ch p).Inv where
  past c' g rows hs := by
    rw [generation_store hg]
    exact h.past c' g rows hs
  current c' rows hs := by
    rw [generation_store hg] at hs
    replace hs : r.sealedRows c' (r.generation c') = some rows := hs
    by_cases hc : c' = c
    · subst hc
      simp only [HotRing.store, if_true]
      rcases hrows with hsame | hc
      · rw [hsame]
        exact h.current c' rows hs
      · rw [h.unsealed c' hc] at hs
        cases hs
    · simp only [HotRing.store, hc, if_false]
      exact h.current c' rows hs
  unsealed c' hc := by
    rw [generation_store hg]
    exact h.unsealed c' (hfill c' hc)

theorem Inv.gotoPc (h : r.Inv) {p : RingPc}
    (hfill : ∀ c ∈ (r.gotoPc p).filling, c ∈ r.filling) : (r.gotoPc p).Inv :=
  ⟨h.past, h.current, fun c hc => h.unsealed c (hfill c hc)⟩

theorem sealedRows_record (c g : ℕ) : r.record.sealedRows c g =
    if c = r.writeChunk ∧ g = r.generation c then some (r.chunk c).rows
    else r.sealedRows c g := by
  unfold record
  by_cases hc : c = r.writeChunk
  · subst hc
    rfl
  · simp [hc]

/-- The record changes where it had no entry. -/
theorem record_later (h : r.sealedRows r.writeChunk (r.generation r.writeChunk) = none) :
    Later r r.record where
  generation_le _ := le_rfl
  sealed_kept c g rows hs := by
    rw [sealedRows_record]
    split_ifs with hcg
    · obtain ⟨rfl, rfl⟩ := hcg
      rw [h] at hs
      cases hs
    · exact hs

/-- The record of the write chunk, taken where no generation is being filled any
more. -/
theorem Inv.record (h : r.Inv) (hfill : r.filling = none) : r.record.Inv where
  past c g rows hs := by
    rw [sealedRows_record] at hs
    split_ifs at hs with hcg
    · exact hcg.2.le
    · exact h.past c g rows hs
  current c rows hs := by
    replace hs : r.record.sealedRows c (r.generation c) = some rows := hs
    rw [sealedRows_record] at hs
    split_ifs at hs with hcg
    · exact Option.some.inj hs
    · exact h.current c rows hs
  unsealed c hc := by
    replace hc : c ∈ r.filling := hc
    rw [hfill] at hc
    cases hc

theorem append_inv (h : r.Inv) (hidle : r.writer = .idle) (row : Row) : (r.append row).Inv := by
  have hfill : r.filling = some r.writeChunk := by simp [filling, hidle]
  refine h.store ?_ (.inr hfill) ?_
  · rfl
  · intro c hc
    rw [hfill]
    exact hc

theorem append_later (r : HotRing Row) (row : Row) : Later r (r.append row) := by
  apply store_later
  exact le_rfl

/-- The bump of a generation leaves the new one unsealed. -/
theorem Inv.bump (h : r.Inv) (c : ℕ) {p : RingPc}
    (hfill : ∀ c' ∈ (r.store c { r.chunk c with generation := r.generation c + 1 } p).filling,
      c' = c) :
    (r.store c { r.chunk c with generation := r.generation c + 1 } p).Inv := by
  have hg (c' : ℕ) : (r.store c { r.chunk c with generation := r.generation c + 1 } p).generation c'
      = if c' = c then r.generation c + 1 else r.generation c' := by
    unfold generation HotRing.store
    split_ifs with hc <;> simp only [hc, if_true, if_false]
  have hnone : r.sealedRows c (r.generation c + 1) = none := by
    cases hs : r.sealedRows c (r.generation c + 1) with
    | none => rfl
    | some rows => exact absurd (h.past _ _ _ hs) (by omega)
  constructor
  · intro c' g rows hs
    have hle := h.past c' g rows hs
    rw [hg]
    split_ifs with hc
    · subst hc
      omega
    · exact hle
  · intro c' rows hs
    rw [hg] at hs
    replace hs : r.sealedRows c' _ = some rows := hs
    split_ifs at hs with hc
    · subst hc
      rw [hnone] at hs
      cases hs
    · simp only [HotRing.store, hc, if_false]
      exact h.current c' rows hs
  · intro c' hc
    obtain rfl : c' = c := hfill c' hc
    rw [hg, if_pos rfl]
    exact hnone

theorem writerStep_inv (h : r.Inv) (pinned : Bool) : (r.writerStep pinned).Inv := by
  unfold writerStep
  cases hpc : r.writer with
  | idle => exact h
  | rowCount | storeEmpty _ | restore _ | clearCount | writing =>
      refine h.store ?_ (.inl ?_) fun c hc => ?_
      · rfl
      · rfl
      · simpa [filling, hpc] using hc
  | previousState =>
      apply h.gotoPc
      intro c hc
      simpa [filling, hpc] using hc
  | drain previous_state =>
      apply h.gotoPc
      intro c hc
      cases pinned <;> simpa [filling, hpc] using hc
  | sealCurrent =>
      dsimp only
      split_ifs with hc
      · apply h.gotoPc
        intro c hc
        simp [filling] at hc
      · have hgoto : (r.gotoPc .generation).record.Inv :=
          (h.gotoPc fun c hc => by simp [filling] at hc).record rfl
        refine hgoto.store ?_ (.inl ?_) fun c hc => ?_
        · rfl
        · rfl
        · simp [filling] at hc
  | generation =>
      apply h.bump
      intro c hc
      simpa [filling, eq_comm] using hc
  | used =>
      refine h.store ?_ (.inr ?_) fun c hc => ?_
      · rfl
      · simp [filling, hpc]
      · simpa [filling, hpc] using hc
  | writeChunk =>
      refine ⟨h.past, h.current, fun c hc => h.unsealed c ?_⟩
      simpa [filling, hpc] using hc

theorem writerStep_later (h : r.Inv) (pinned : Bool) : Later r (r.writerStep pinned) := by
  unfold writerStep
  cases hpc : r.writer with
  | idle => exact .refl r
  | rowCount | storeEmpty _ | restore _ | used | clearCount | writing =>
      apply store_later
      exact le_rfl
  | previousState | drain _ | writeChunk => exact ⟨fun _ => le_rfl, fun _ _ _ hs => hs⟩
  | sealCurrent =>
      dsimp only
      split_ifs with hc
      · exact ⟨fun _ => le_rfl, fun _ _ _ hs => hs⟩
      · apply (record_later (h.unsealed _ (by simp [filling, hpc]))).trans
        apply store_later
        exact le_rfl
  | generation =>
      apply store_later
      exact Nat.le_succ _

theorem initial_inv (numChunks : ℕ) : (initial numChunks : HotRing Row).Inv where
  past c g rows hsome := by simp [initial] at hsome
  current c rows hsome := by simp [initial] at hsome
  unsealed c hc := rfl

end HotRing

end Probing.Memt
