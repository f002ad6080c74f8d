import Probing.Core.Run
import Probing.Memt.Streaming

/-!
# Runs of a writer

A writer publishes rows in batches or as streams, advances, and may be opened again on
the same table. Whatever it does, either nothing is published, or one row is published,
perhaps after an advance that empties the next chunk.
-/

namespace Probing.Memt

open Probing.Core

namespace MemTableWriter

section Stored

variable {key : HashKey} {w : MemTableWriter} {contents : ℕ → List Bytes} {values : List Value}
    {rw : RowWriter}

/-- A finished row writer has published the row of a batch write. -/
theorem Streamed.finish_eq (h : Streamed key w values rw) (hsound : w.Sound contents)
    (hfits : w.fits key values = true) :
    rw.finish = (true, (w.stored key values).table, (w.stored key values).dedup) := by
  have hpos := h.pos
  unfold fieldsOff at hpos
  have hroom := hsound.filled.room hfits
  have hdata : rw.pos - rw.rowStart - 4 = (fieldsData (w.fields key values)).length := by
    rw [hpos, h.rowStart]
    omega
  have hused : rw.pos - chunkHeaderSize =
      w.table.current.used + (4 + (fieldsData (w.fields key values)).length) := by
    rw [hpos]
    omega
  have hstart : rw.rowStart - chunkHeaderSize = w.table.current.used := by
    rw [h.rowStart]
    omega
  have hframe : splice (splice w.table.current.payload (w.table.current.used + 4)
      (fieldsData (w.fields key values))) w.table.current.used
        (le (UInt32.ofNat (fieldsData (w.fields key values)).length)) =
      splice w.table.current.payload w.table.current.used
        (rowFrame (fieldsData (w.fields key values))) := by
    have hroom : w.table.current.used +
        (le (UInt32.ofNat (fieldsData (w.fields key values)).length)).length ≤
          w.table.current.payload.length := by
      rw [le_length_u32]
      omega
    have hbefore := splice_before hroom (fieldsData (w.fields key values))
    rwa [le_length_u32] at hbefore
  have htable :
    (rw.putBytesAt rw.rowStart (le (UInt32.ofNat (fieldsData (w.fields key values)).length))) =
      w.table.store w.table.writeChunk { w.table.current with
        payload := splice w.table.current.payload w.table.current.used
          (rowFrame (fieldsData (w.fields key values))) } := by
    unfold RowWriter.putBytesAt
    rw [hstart, h.table]
    unfold Table.scribble
    rw [Table.store_writeChunk, Table.store_current, Table.store_store]
    dsimp only
    rw [hframe]
  have hdedup : rw.dedup.map DedupState.commitRow =
      w.dedup.map fun state => insertFields key state 0 w.fieldsOff (w.fields key values) := by
    rw [h.dedup, Option.map_map]
    cases hs : w.dedup with
    | none => rfl
    | some s =>
        have hpending := (hsound.remembers s hs).pending
        have hbegin : s.beginRow.commitRow = s := by
          cases s
          obtain rfl := hpending
          rfl
        rw [Option.map_some, Option.map_some, Function.comp_apply, commit_stageFields, hbegin]
  unfold RowWriter.finish
  rw [h.overflow, hdata]
  dsimp only [Bool.false_eq_true, if_false]
  rw [htable, hused, hdedup, h.pendingTs, Table.store_writeChunk, Table.store_current,
    Table.store_store]
  rfl

/-- Fields that have been written fit; a row without fields needs room for its length. -/
theorem Streamed.fits (h : Streamed key w values rw)
    (hroom : values = [] → w.table.hasRoom 0 = true) :
    w.fits key values = true := by
  rcases h.fitted with rfl | hfits
  · exact hroom rfl
  · exact hfits

theorem Sound.rollback_self (h : w.Sound contents) :
    w.dedup.map DedupState.rollbackRow = w.dedup := by
  cases hs : w.dedup with
  | none => rfl
  | some s =>
      have hpending := (h.remembers s hs).pending
      cases s
      obtain rfl := hpending
      rfl

theorem Streamed.rollback (h : Streamed key w values rw) (hsound : w.Sound contents) :
    rw.dedup.map DedupState.rollbackRow = w.dedup := by
  rw [h.dedup, Option.map_map, ← hsound.rollback_self, Option.map_map]
  congr 1
  funext s
  exact rollback_stageFields _ _ _ _

/-- A published row is added to the write chunk, and what is remembered stays true. -/
theorem Sound.stored (h : w.Sound contents) (hfits : w.fits key values = true) :
    (w.stored key values).Sound (Function.update contents w.table.writeChunk
      (contents w.table.writeChunk ++ [fieldsData (w.fields key values)])) where
  filled := h.filled.appendData hfits _
  remembers s hs := by
    obtain ⟨state, hstate, rfl⟩ := Option.map_eq_some_iff.mp hs
    have hholds : w.table.current.Holds (contents w.table.writeChunk) :=
      h.filled.holds _ h.filled.write_lt
    have hroom := h.filled.room hfits
    have hsmall := h.filled.payload_lt h.filled.write_lt
    have hused : w.table.current.used = (log (contents w.table.writeChunk)).length := hholds.used
    have hpayload : (w.table.chunk w.table.writeChunk).payload.length =
        w.table.current.payload.length := rfl
    change DedupState.Remembers
      _ (log (Function.update contents w.table.writeChunk _ w.table.writeChunk))
    rw [Function.update_self, log_append, rowFrame, ← List.append_assoc]
    apply insertFields_remembers ((h.remembers state hstate).mono _)
    · unfold fieldsOff
      rw [List.length_append, le_length_u32, hused, Nat.add_assoc]
    · rw [List.length_append, le_length_u32]
      omega

/-- The writer after an advance that no pin blocks. -/
def advanced (w : MemTableWriter) : MemTableWriter :=
  ⟨w.table.advanced, w.dedup.map DedupState.clear⟩

theorem Sound.advanced (h : w.Sound contents) :
    w.advanced.Sound (Function.update contents w.table.nextChunk []) where
  filled := h.filled.advanced
  remembers s hs := by
    obtain ⟨state, -, rfl⟩ := Option.map_eq_some_iff.mp hs
    exact DedupState.clear_remembers _ _

/-- The writer after an advance that a pin blocks. -/
def blocked (w : MemTableWriter) : MemTableWriter :=
  { w with table := { w.table with writesBlocked := w.table.writesBlocked + 1 } }

theorem advance_eq (pinned : Bool) : w.advance pinned =
    if pinned then (.ReadersPinned, w.blocked) else (.Advanced, w.advanced) := by
  cases pinned <;> rfl

theorem append_some {w' : MemTableWriter} (h : w.append key values = some w') :
    w.fits key values = true ∧ w' = w.stored key values := by
  rw [append_eq] at h
  split_ifs at h with hfits
  exact ⟨hfits.2, (Option.some.inj h).symm⟩

/-- A push that does not fit the write chunk advances first. -/
theorem tryPushInner_none (h : w.append key values = none) (pinned : Bool) :
    w.tryPushInner key pinned values =
      if pinned then (.ReadersPinned, w.blocked)
      else match w.advanced.append key values with
        | some w' => (.Written, w')
        | none => (.RowTooLarge, w.advanced) := by
  unfold tryPushInner
  rw [h, advance_eq]
  cases pinned <;> rfl

end Stored

/-- What a writer is asked to do. -/
inductive Op where
  | appendRow (values : List Value)
  /-- The next chunk may be pinned when it is needed. -/
  | pushRow (pinned : Bool) (values : List Value)
  | advanceChunk (pinned : Bool)
  /-- The values are put one by one, and the writer is finished or dropped. -/
  | rowWriter (values : List Value) (finish : Bool)
  | setMinDedupLen (len : ℕ)
  /-- `MemTableWriter::new` on the table, then `dedup` if asked for. -/
  | reopen (dedup : Bool)
  deriving DecidableEq

/-- The operation does not recycle the next chunk. -/
def Op.pinned : Op → Bool
  | .pushRow pinned _ | .advanceChunk pinned => pinned
  | .appendRow _ | .rowWriter _ _ | .setMinDedupLen _ | .reopen _ => true

section Perform

variable (key : HashKey) (w : MemTableWriter)

def reopened (dedup : Bool) : MemTableWriter :=
  if dedup then ⟨{ w.table with dedupFlag := true }, some .new⟩ else { w with dedup := none }

def perform : Op → MemTableWriter
  | .appendRow values => (w.appendRow key values).2
  | .pushRow pinned values => (w.tryPushRow key pinned values).2
  | .advanceChunk pinned => (w.advanceChunk pinned).2
  | .rowWriter values finish => (w.rowWriter key values finish).2
  | .setMinDedupLen len => w.setMinDedupLen len
  | .reopen dedup => w.reopened dedup

/-- The row that the operation reports as published. -/
def committed : Op → Option (List Value)
  | .appendRow values => if (w.appendRow key values).1 then some values else none
  | .pushRow pinned values => if (w.tryPushRow key pinned values).1 = .Written then
    some values else none
  | .rowWriter values finish => if (w.rowWriter key values finish).1 then some values else none
  | .advanceChunk _ | .setMinDedupLen _ | .reopen _ => none

/-- A row writer without columns does not check the room for the length that `finish` writes:
with fewer than four free bytes the length runs into the header of the next chunk. -/
def FinishFits : Op → Prop
  | .rowWriter values finish => finish = true → values = [] → w.table.hasRoom 0 = true
  | _ => True

instance (op : Op) : Decidable (w.FinishFits op) := by
  unfold FinishFits
  split <;> infer_instance

/-- Writes outside the write chunk are not followed. -/
def step (op : Op) : Option MemTableWriter :=
  if w.FinishFits op then some (w.perform key op) else none

end Perform

/-- Nothing is published. -/
inductive Quiet (w : MemTableWriter) : MemTableWriter → Prop
  | scribbled {data : Bytes} {dedup : Option DedupState}
      (hroom : data = [] ∨ w.table.current.used + 4 + data.length ≤ w.table.current.payload.length)
      (hdedup : dedup = w.dedup) : Quiet w ⟨w.table.scribble data, dedup⟩
  | blocked : Quiet w w.blocked
  | minDedupLen (len : ℕ) : Quiet w (w.setMinDedupLen len)
  | reopened (dedup : Bool) : Quiet w (w.reopened dedup)

theorem Quiet.refl (w : MemTableWriter) : Quiet w w := by
  have h : Quiet w ⟨w.table.scribble [], w.dedup⟩ := .scribbled (.inl rfl) rfl
  rwa [Table.scribble_nil] at h

/-- What an operation does, and the row it publishes. -/
inductive Effect (key : HashKey) (w : MemTableWriter) : Option (List Value) → MemTableWriter → Prop
  | quiet {w' : MemTableWriter} (h : Quiet w w') : Effect key w none w'
  | stored {values : List Value} (h : w.fits key values = true) :
      Effect key w (some values) (w.stored key values)
  | advanced : Effect key w none w.advanced
  | moved {values : List Value} (h : w.advanced.fits key values = true) :
      Effect key w (some values) (w.advanced.stored key values)

/-- What an operation does that does not advance. -/
inductive Still (key : HashKey) (w : MemTableWriter) : Option (List Value) → MemTableWriter → Prop
  | quiet {w' : MemTableWriter} (h : Quiet w w') : Still key w none w'
  | stored {values : List Value} (h : w.fits key values = true) :
      Still key w (some values) (w.stored key values)

theorem Still.effect {key : HashKey} {w w' : MemTableWriter} {row : Option (List Value)}
    (h : Still key w row w') :
    Effect key w row w' := by
  cases h with
  | quiet hquiet => exact .quiet hquiet
  | stored hfits => exact .stored hfits

section Run

variable {key : HashKey} {w w' : MemTableWriter} {contents : ℕ → List Bytes}

/-- Without an advance, at most the write chunk changes. -/
theorem Sound.still (h : w.Sound contents) {op : Op} (hop : w.FinishFits op)
    (hpinned : op.pinned = true) :
    Still key w (w.committed key op) (w.perform key op) := by
  cases op with
  | appendRow values =>
      change Still key w (if (w.appendRow key values).1 then some values else none)
        (w.appendRow key values).2
      unfold appendRow
      by_cases hschema : w.table.validateRowSchema values = true
      · rw [if_pos hschema]
        cases happend : w.append key values with
        | none => exact .quiet (.refl w)
        | some w' =>
            obtain ⟨hfits, rfl⟩ := append_some happend
            exact .stored hfits
      · rw [if_neg hschema]
        exact .quiet (.refl w)
  | pushRow pinned values =>
      obtain rfl : pinned = true := hpinned
      change Still key w (if (w.tryPushRow key true values).1 = .Written then some values else none)
        (w.tryPushRow key true values).2
      unfold tryPushRow
      by_cases hschema : w.table.validateRowSchema values = true
      · rw [if_pos hschema]
        cases happend : w.append key values with
        | some w' =>
            obtain ⟨hfits, rfl⟩ := append_some happend
            unfold tryPushInner
            rw [happend]
            exact .stored hfits
        | none =>
            rw [tryPushInner_none happend]
            exact .quiet .blocked
      · rw [if_neg hschema]
        exact .quiet (.refl w)
  | advanceChunk pinned =>
      obtain rfl : pinned = true := hpinned
      exact .quiet .blocked
  | rowWriter values finish =>
      change Still key w (if (w.rowWriter key values finish).1 then some values else none)
        (w.rowWriter key values finish).2
      unfold rowWriter
      dsimp only
      rcases @Sound.streams key w contents h values with hstream | ⟨stored, hstop⟩
      · cases finish with
        | true =>
            have hfits := hstream.fits (hop rfl)
            rw [if_pos rfl, hstream.finish_eq h hfits]
            exact .stored hfits
        | false =>
            unfold RowWriter.drop
            rw [if_neg Bool.false_ne_true, hstream.rollback h, hstream.table]
            exact .quiet (.scribbled (hstream.within_payload h) rfl)
      · have hover := hstop.overflowed
        obtain ⟨data, htable, hroom⟩ := hover.table
        have hdedup := hover.dedup.trans h.rollback_self
        cases finish with
        | true =>
            unfold RowWriter.finish
            rw [if_pos rfl, if_pos hover.overflow, hdedup, htable]
            exact .quiet (.scribbled hroom rfl)
        | false =>
            unfold RowWriter.drop
            rw [if_neg Bool.false_ne_true, hdedup, htable]
            exact .quiet (.scribbled hroom rfl)
  | setMinDedupLen len => exact .quiet (.minDedupLen len)
  | reopen dedup => exact .quiet (.reopened dedup)

/-- An operation has one of these effects. -/
theorem Sound.effect (h : w.Sound contents) {op : Op} (hop : w.FinishFits op) :
    Effect key w (w.committed key op) (w.perform key op) := by
  cases op with
  | appendRow values => exact (h.still hop rfl).effect
  | pushRow pinned values =>
      cases pinned with
      | true => exact (h.still hop rfl).effect
      | false =>
          change Effect key w
            (if (w.tryPushRow key false values).1 = .Written then some values else none)
            (w.tryPushRow key false values).2
          unfold tryPushRow
          by_cases hschema : w.table.validateRowSchema values = true
          · rw [if_pos hschema]
            cases happend : w.append key values with
            | some w' =>
                obtain ⟨hfits, rfl⟩ := append_some happend
                unfold tryPushInner
                rw [happend]
                exact .stored hfits
            | none =>
                rw [tryPushInner_none happend, if_neg Bool.false_ne_true]
                cases hagain : w.advanced.append key values with
                | some w' =>
                    obtain ⟨hfits, rfl⟩ := append_some hagain
                    exact .moved hfits
                | none => exact .advanced
          · rw [if_neg hschema]
            exact .quiet (.refl w)
  | advanceChunk pinned =>
      cases pinned with
      | true => exact (h.still hop rfl).effect
      | false => exact .advanced
  | rowWriter values finish => exact (h.still hop rfl).effect
  | setMinDedupLen len => exact .quiet (.minDedupLen len)
  | reopen dedup => exact .quiet (.reopened dedup)

theorem Quiet.sound (hquiet : Quiet w w') (h : w.Sound contents) : w'.Sound contents := by
  cases hquiet with
  | scribbled hroom hdedup =>
      exact ⟨h.filled.scribble hroom, fun s hs => h.remembers s (hdedup ▸ hs)⟩
  | blocked => exact ⟨{ h.filled with }, h.remembers⟩
  | minDedupLen len =>
      refine ⟨h.filled, fun s hs => ?_⟩
      obtain ⟨state, hstate, rfl⟩ := Option.map_eq_some_iff.mp hs
      exact (h.remembers state hstate).setMinDedupLen len
  | reopened dedup =>
      cases dedup with
      | true =>
          refine ⟨{ h.filled with }, fun s hs => ?_⟩
          obtain rfl := Option.some.inj hs
          exact DedupState.new_remembers _
      | false => exact ⟨h.filled, fun s hs => nomatch hs⟩

theorem Effect.sound {row : Option (List Value)} (heffect : Effect key w row w')
    (h : w.Sound contents) :
    ∃ contents', w'.Sound contents' := by
  cases heffect with
  | quiet hquiet => exact ⟨_, hquiet.sound h⟩
  | stored hfits => exact ⟨_, h.stored hfits⟩
  | advanced => exact ⟨_, h.advanced⟩
  | moved hfits => exact ⟨_, h.advanced.stored hfits⟩

theorem init_sound {buf : Bytes} {cols : List (String × DType)} {chunkSize numChunks : UInt32}
    {dedup : Bool} (h : init buf cols chunkSize numChunks dedup = .ok w) : w.Sound fun _ => [] := by
  unfold init at h
  cases hinit : initBuf buf cols chunkSize numChunks with
  | error e =>
      rw [hinit] at h
      cases h
  | ok t =>
      rw [hinit] at h
      have hfilled := Table.init_filled hinit
      cases dedup with
      | true =>
          obtain rfl := Except.ok.inj h
          refine ⟨{ hfilled with }, fun s hs => ?_⟩
          obtain rfl := Option.some.inj hs
          exact DedupState.new_remembers _
      | false =>
          obtain rfl := Except.ok.inj h
          exact ⟨hfilled, fun s hs => nomatch hs⟩

/-- A writer that some operations have brought from a fresh table to this state. -/
def Reachable (key : HashKey) (w : MemTableWriter) : Prop :=
  ∃ buf cols chunkSize numChunks dedup fresh ops,
    init buf cols chunkSize numChunks dedup = .ok fresh ∧ exec (step key) fresh ops = some w

theorem step_effect (h : w.Sound contents) {op : Op} (hstep : w.step key op = some w') :
    Effect key w (w.committed key op) w' := by
  unfold step at hstep
  split_ifs at hstep with hop
  obtain rfl := Option.some.inj hstep
  exact h.effect hop

theorem Reachable.sound (h : Reachable key w) : ∃ contents, w.Sound contents := by
  obtain ⟨buf, cols, chunkSize, numChunks, dedup, fresh, ops, hinit, hrun⟩ := h
  have hkeep (w : MemTableWriter) (op : Op) (w' : MemTableWriter)
      (h : ∃ contents, w.Sound contents) (hstep : w.step key op = some w') :
      ∃ contents, w'.Sound contents := by
    obtain ⟨contents, hsound⟩ := h
    exact (step_effect hsound hstep).sound hsound
  exact exec_preserves hkeep ⟨_, init_sound hinit⟩ hrun

end Run

end MemTableWriter

end Probing.Memt
