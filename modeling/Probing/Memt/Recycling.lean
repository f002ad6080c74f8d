import Probing.Memt.WriterRun

/-!
# What a writer leaves alone

An operation extends the published bytes of a chunk or recycles it. Only the next chunk
is recycled, and only where no pin is reported.
-/

namespace Probing.Memt

open Probing.Core

/-- `c'` has the published bytes of `c`, in its generation. -/
structure Chunk.Extends (c c' : Chunk) : Prop where
  generation : c'.generation = c.generation
  used : c.used ≤ c'.used
  length : c'.payload.length = c.payload.length
  published : c'.payload.take c.used = c.payload.take c.used

namespace Chunk.Extends

variable {a b c : Chunk}

theorem refl (c : Chunk) : c.Extends c := ⟨rfl, Nat.le_refl _, rfl, rfl⟩

theorem trans (hab : a.Extends b) (hbc : b.Extends c) : a.Extends c where
  generation := hbc.generation.trans hab.generation
  used := Nat.le_trans hab.used hbc.used
  length := hbc.length.trans hab.length
  published := by
    have htake := congrArg (List.take a.used) hbc.published
    rw [List.take_take, List.take_take, Nat.min_eq_left hab.used] at htake
    exact htake.trans hab.published

end Chunk.Extends

namespace Table

variable {t : Table} {contents : ℕ → List Bytes} {data : Bytes} {i : ℕ}

/-- A chunk that is replaced by an extension of it. -/
theorem store_extends {c : Chunk} (h : t.current.Extends c) (i : ℕ) :
    (t.chunk i).Extends ((t.store t.writeChunk c).chunk i) := by
  by_cases hwrite : i = t.writeChunk
  · subst hwrite
    rw [store_chunk_self]
    exact h
  · rw [store_chunk_of_ne _ hwrite]
    exact .refl _

theorem Filled.append_extends (h : t.Filled contents) (hroom : t.hasRoom data.length = true)
    (ts : Option Int64) (i : ℕ) : (t.chunk i).Extends ((t.appendData data ts).chunk i) := by
  have hfits := h.room hroom
  have hholds : t.current.Holds (contents t.writeChunk) := h.holds _ h.write_lt
  apply store_extends
  refine ⟨Chunk.publish_generation _ _ _, Nat.le_add_right _ _, ?_, ?_⟩
  · rw [Chunk.publish_payload]
    apply splice_length
    rw [rowFrame_length]
    exact hfits
  · rw [Chunk.publish_payload]
    exact take_splice_before (Nat.le_refl _) hholds.used_le

theorem Filled.scribble_extends (h : t.Filled contents)
    (hroom : data = [] ∨ t.current.used + 4 + data.length ≤ t.current.payload.length) (i : ℕ) :
    (t.chunk i).Extends ((t.scribble data).chunk i) := by
  rcases hroom with rfl | hroom
  · rw [scribble_nil]
    exact .refl _
  · have hholds : t.current.Holds (contents t.writeChunk) := h.holds _ h.write_lt
    apply store_extends
    exact ⟨rfl, Nat.le_refl _, splice_length hroom,
      take_splice_before (Nat.le_add_right _ _) hholds.used_le⟩

/-- Sealing changes no bytes. -/
theorem advanced_extends (h : i ≠ t.nextChunk) : (t.chunk i).Extends (t.advanced.chunk i) := by
  rw [advanced_chunk h]
  split_ifs
  · exact ⟨rfl, Nat.le_refl _, rfl, rfl⟩
  · exact .refl _

theorem advanced_recycles (t : Table) :
    (t.advanced.chunk t.nextChunk).generation = (t.chunk t.nextChunk).generation + 1 := by
  rw [advanced_chunk_next]
  rfl

/-- The parts of a table that no operation changes. -/
structure SameShape (t t' : Table) : Prop where
  cols : t'.cols = t.cols
  numChunks : t'.numChunks = t.numChunks
  chunkSize : t'.chunkSize = t.chunkSize

theorem SameShape.trans {t t' t'' : Table} (h : t.SameShape t') (h' : t'.SameShape t'') :
    t.SameShape t'' :=
  ⟨h'.cols.trans h.cols, h'.numChunks.trans h.numChunks, h'.chunkSize.trans h.chunkSize⟩

theorem advanced_shape (t : Table) : t.SameShape t.advanced :=
  ⟨advanced_cols, advanced_numChunks, advanced_chunkSize⟩

end Table

namespace MemTableWriter

variable {key : HashKey} {w w' : MemTableWriter} {contents : ℕ → List Bytes}
    {values : List Value} {op : Op}

theorem Quiet.extends (hquiet : Quiet w w') (h : w.Sound contents) (i : ℕ) :
    (w.table.chunk i).Extends (w'.table.chunk i) := by
  cases hquiet with
  | scribbled hroom hdedup => exact h.filled.scribble_extends hroom i
  | blocked => exact .refl _
  | minDedupLen len => exact .refl _
  | reopened dedup => cases dedup <;> exact .refl _

theorem Quiet.shape (hquiet : Quiet w w') : w.table.SameShape w'.table := by
  cases hquiet with
  | reopened dedup => cases dedup <;> exact ⟨rfl, rfl, rfl⟩
  | scribbled | blocked | minDedupLen => exact ⟨rfl, rfl, rfl⟩

theorem Effect.shape {row : Option (List Value)} (heffect : Effect key w row w') :
    w.table.SameShape w'.table := by
  cases heffect with
  | quiet hquiet => exact hquiet.shape
  | stored => exact ⟨rfl, rfl, rfl⟩
  | advanced => exact Table.advanced_shape _
  | moved => exact (Table.advanced_shape _).trans ⟨rfl, rfl, rfl⟩

/-- A chunk is extended, unless it is the next one and is recycled. -/
theorem Effect.extends {row : Option (List Value)} (heffect : Effect key w row w')
    (h : w.Sound contents) (i : ℕ) :
    (w.table.chunk i).Extends (w'.table.chunk i) ∨
      i = w.table.nextChunk ∧ (w.table.chunk i).generation < (w'.table.chunk i).generation := by
  cases heffect with
  | quiet hquiet => exact .inl (hquiet.extends h i)
  | stored hfits => exact .inl (h.filled.append_extends hfits _ i)
  | advanced =>
      by_cases hnext : i = w.table.nextChunk
      · subst hnext
        exact .inr ⟨rfl, Nat.lt_of_lt_of_eq (Nat.lt_succ_self _) (Table.advanced_recycles _).symm⟩
      · exact .inl (Table.advanced_extends hnext)
  | moved hfits =>
      have hstored :=
        h.advanced.filled.append_extends hfits (rowTs w.advanced.table.tsCol ‹List Value›) i
      by_cases hnext : i = w.table.nextChunk
      · subst hnext
        refine .inr ⟨rfl, Nat.lt_of_lt_of_eq (Nat.lt_succ_self _) ?_⟩
        exact ((hstored.generation).trans (Table.advanced_recycles _)).symm
      · exact .inl ((Table.advanced_extends hnext).trans hstored)

/-- No chunk is recycled under a pin. -/
theorem Sound.pinned_extends (h : w.Sound contents) (hop : w.FinishFits op)
    (hpinned : op.pinned = true) (i : ℕ) :
    (w.table.chunk i).Extends ((w.perform key op).table.chunk i) := by
  have hstill : Still key w (w.committed key op) (w.perform key op) := h.still hop hpinned
  generalize w.committed key op = row at hstill
  generalize w.perform key op = w' at hstill ⊢
  cases hstill with
  | quiet hquiet => exact hquiet.extends h i
  | stored hfits => exact h.filled.append_extends hfits _ i

end MemTableWriter

end Probing.Memt
