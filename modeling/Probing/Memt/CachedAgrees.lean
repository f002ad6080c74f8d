import Probing.Memt.HeldRows
import Probing.Memt.Recycling

/-!
# A cached reader agrees with a plain one

A row does not change while the chunk keeps its generation, and neither do the lengths
among the published bytes. So the entries of the cache for that generation are what a
lookup finds now, and a cached cursor is where a fresh cursor arrives. A process that has
inherited a pin may read a recycled chunk.
-/

namespace Probing.Memt

open Probing.Core

section Spans

variable {b data : Bytes} {off stop len : ℕ} {frames : List (ℕ × Bytes)}

theorem rowHead_frame (h : rowHead b = .frame data len) :
    4 + data.length = len ∧ len ≤ b.length ∧ slice b 4 data.length = data := by
  unfold rowHead at h
  dsimp only at h
  split_ifs at h with hshort hcut
  obtain ⟨rfl, rfl⟩ := Head.frame.inj h
  have hlen : (slice b 4 (4 + (getLe UInt32 b 0).toNat - 4)).length = (getLe UInt32 b 0).toNat := by
    rw [slice_length]
    omega
  refine ⟨by rw [hlen], by omega, ?_⟩
  rw [hlen, Nat.add_sub_cancel_left]

/-- A frame of the scan lies in the log. -/
theorem frame_within (h : scan rowHead off b = .ok (frames, stop)) :
    ∀ f ∈ frames, off ≤ f.1 ∧ f.1 - off + 4 + f.2.length ≤ b.length ∧
      slice b (f.1 - off + 4) f.2.length = f.2 := by
  induction hlen : b.length using Nat.strong_induction_on generalizing b off frames stop with
  | _ n ih =>
    subst hlen
    rw [scan] at h
    cases hhead : rowHead b with
    | stop =>
        rw [hhead] at h
        obtain rfl := congrArg Prod.fst (Except.ok.inj h)
        exact fun f hf => (by cases hf)
    | corrupt e => cases e
    | frame data len =>
        obtain ⟨hdlen, hfits, hdata⟩ := rowHead_frame hhead
        rw [hhead] at h
        dsimp only at h
        rw [if_pos ⟨by omega, hfits⟩] at h
        cases hrest : scan rowHead (off + len) (b.drop len) with
        | error e => cases e
        | ok r =>
            rw [hrest] at h
            obtain rfl := congrArg Prod.fst (Except.ok.inj h)
            intro f hf
            rcases List.mem_cons.mp hf with rfl | hf
            · rw [Nat.sub_self, Nat.zero_add]
              exact ⟨Nat.le_refl _, hdlen ▸ hfits, hdata⟩
            · have hdrop : (b.drop len).length = b.length - len := List.length_drop
              have hshorter : b.length - len < b.length := by omega
              obtain ⟨hoff, hin, hthere⟩ := ih _ hshorter hrest hdrop f hf
              rw [slice_drop] at hthere
              have hplace : f.1 - off + 4 = len + (f.1 - (off + len) + 4) := by omega
              rw [hplace]
              exact ⟨by omega, by omega, hthere⟩

/-- The rows lie in the published bytes. -/
theorem rowSpans_within {span : ℕ × ℕ} (h : span ∈ rowSpans b) : span.1 + span.2 ≤ b.length := by
  unfold rowSpans at h
  cases hscan : scan rowHead 0 b with
  | error e => exact nomatch e
  | ok r =>
      rw [hscan] at h
      obtain ⟨f, hf, rfl⟩ := List.mem_map.mp h
      obtain ⟨-, hin, -⟩ := frame_within hscan f hf
      exact hin

/-- They are the rows of the iterator. -/
theorem rowSpans_data (b : Bytes) :
    (rowSpans b).map (fun span => slice b span.1 span.2) = rowIter b := by
  unfold rowSpans rowIter
  cases hscan : scan rowHead 0 b with
  | error e => exact nomatch e
  | ok r =>
      dsimp only
      rw [List.map_map]
      apply List.map_congr_left
      intro f hf
      obtain ⟨-, -, hthere⟩ := frame_within hscan f hf
      exact hthere

end Spans

namespace RowCursor

variable {c : RowCursor}

theorem ext {c c' : RowCursor} (hdata : c.data = c'.data) (hpos : c.pos = c'.pos)
    (hpayload : c.payload = c'.payload) (hstale : c.stale = c'.stale) : c = c' := by
  cases c
  cases c'
  obtain rfl := hdata
  obtain rfl := hpos
  obtain rfl := hpayload
  obtain rfl := hstale
  rfl

/-- A cursor looks at the row and the payload, and changes neither. -/
theorem next_source (c : RowCursor) (dt : DType) :
    (c.next dt).2.data = c.data ∧ (c.next dt).2.payload = c.payload := by
  have hfixed (α : Type) [LeWord α] :
      (c.readFixed α).2.data = c.data ∧ (c.readFixed α).2.payload = c.payload := by
    unfold readFixed
    split_ifs
    · exact ⟨rfl, rfl⟩
    · cases tryRead α c.data c.pos <;> exact ⟨rfl, rfl⟩
  have hlp : c.readLp.2.data = c.data ∧ c.readLp.2.payload = c.payload := by
    have hraw := hfixed Int32
    unfold readLp
    dsimp only
    split_ifs
    · exact ⟨rfl, rfl⟩
    · exact hraw
    · cases (refDelta (c.readFixed Int32).1).bind (referenced c.payload) <;> exact hraw
    · exact hraw
    · exact hraw
  cases dt with
  | U8 | U32 | I32 | I64 | F32 | F64 | U64 => exact hfixed _
  | Str | Bytes => exact hlp

/-- The same cursor over a payload with other contents. -/
def overPayload (c : RowCursor) (payload : Bytes) : RowCursor := { c with payload := payload }

theorem readFixed_over (payload : Bytes) (α : Type) [LeWord α] :
    (c.overPayload payload).readFixed α =
      ((c.readFixed α).1, (c.readFixed α).2.overPayload payload) := by
  unfold readFixed overPayload
  dsimp only
  split_ifs
  · rfl
  · cases tryRead α c.data c.pos <;> rfl

theorem referenced_over {payload payload' : Bytes} {n delta : ℕ}
    (hlen : payload'.length = payload.length) (htake : payload'.take n = payload.take n)
    (hin : chunkHeaderSize ≤ delta → delta + 4 ≤ payload.length + chunkHeaderSize →
      delta + 4 ≤ n + chunkHeaderSize) :
    (referenced payload' delta).isSome = (referenced payload delta).isSome := by
  unfold referenced
  rw [hlen]
  by_cases hout : delta < chunkHeaderSize ∨ payload.length + chunkHeaderSize < delta + 4
  · rw [if_pos hout, if_pos hout]
  · rw [if_neg hout, if_neg hout]
    have hword : getLe UInt32 payload' (delta - chunkHeaderSize) =
        getLe UInt32 payload (delta - chunkHeaderSize) := by
      have hbound : delta - chunkHeaderSize + LeWord.width UInt32 ≤ n := by
        change delta - chunkHeaderSize + 4 ≤ n
        omega
      rw [← getLe_take hbound, htake, getLe_take hbound]
    rw [hword]
    dsimp only
    split_ifs <;> rfl

/-- Where a cursor goes depends on the lengths that its references lead to. -/
theorem next_over {payload : Bytes} {n : ℕ} {dt : DType} (hlen : payload.length = c.payload.length)
    (htake : payload.take n = c.payload.take n)
    (hin : dt.fixedSize = none → ∀ delta ∈ c.followed,
      delta + 4 ≤ c.payload.length + chunkHeaderSize → delta + 4 ≤ n + chunkHeaderSize) :
    ((c.overPayload payload).next dt).2 = (c.next dt).2.overPayload payload := by
  have hfixed (α : Type) [LeWord α] (f : α → Value) :
      (f ((c.overPayload payload).readFixed α).1, ((c.overPayload payload).readFixed α).2).2 =
        (f (c.readFixed α).1, (c.readFixed α).2).2.overPayload payload := by
    rw [readFixed_over]
  have hlp (hnone : dt.fixedSize = none) : (c.overPayload payload).readLp.2 =
      c.readLp.2.overPayload payload := by
    have hfollowed := hin hnone
    unfold followed at hfollowed
    unfold readLp readFixed overPayload
    by_cases hstale : c.stale = true
    · rw [if_pos hstale, if_pos hstale]
    · rw [if_neg hstale] at hfollowed
      rw [if_neg hstale, if_neg hstale, if_neg hstale, if_neg hstale]
      dsimp only
      cases hraw : tryRead Int32 c.data c.pos with
      | none => rfl
      | some raw =>
          rw [hraw, Option.bind_some] at hfollowed
          dsimp only
          rw [if_neg hstale, if_neg hstale]
          by_cases hneg : raw < 0
          · rw [if_pos hneg] at hfollowed ⊢
            rw [if_pos hneg]
            cases hdelta : refDelta raw with
            | none => rfl
            | some delta =>
                have hsame := referenced_over hlen htake fun _ => hfollowed delta hdelta
                rw [Option.bind_some, Option.bind_some]
                cases hthen : referenced payload delta with
                | none =>
                    rw [hthen] at hsame
                    have hgone :=
                      Option.isNone_iff_eq_none.mp (Option.isSome_eq_false_iff.mp hsame.symm)
                    rw [hgone]
                    rfl
                | some b =>
                    rw [hthen] at hsame
                    obtain ⟨b', hb'⟩ := Option.isSome_iff_exists.mp hsame.symm
                    rw [hb']
          · rw [if_neg hneg, if_neg hneg]
            split_ifs <;> rfl
  cases dt with
  | U8 => exact hfixed UInt8 .U8
  | U32 => exact hfixed UInt32 .U32
  | I32 => exact hfixed Int32 .I32
  | I64 => exact hfixed Int64 .I64
  | F32 => exact hfixed UInt32 .F32
  | F64 => exact hfixed UInt64 .F64
  | U64 => exact hfixed UInt64 .U64
  | Str | Bytes => exact hlp rfl

theorem after_source (c : RowCursor) (dts : List DType) :
    (c.after dts).data = c.data ∧ (c.after dts).payload = c.payload := by
  induction dts generalizing c with
  | nil => exact ⟨rfl, rfl⟩
  | cons dt dts ih =>
      obtain ⟨hdata, hpayload⟩ := c.next_source dt
      obtain ⟨hdata', hpayload'⟩ := ih (c.next dt).2
      exact ⟨hdata'.trans hdata, hpayload'.trans hpayload⟩

theorem after_concat (c : RowCursor) (dts : List DType) (dt : DType) :
    c.after (dts ++ [dt]) = ((c.after dts).next dt).2 := by
  induction dts generalizing c with
  | nil => rfl
  | cons dt' dts ih => exact ih (c.next dt').2

/-- The way of a cursor does not change while the first `n` bytes stay the same. -/
def Steady (c : RowCursor) (n : ℕ) (dts : List DType) : Prop :=
  ∀ payload, payload.length = c.payload.length → payload.take n = c.payload.take n →
    (c.overPayload payload).after dts = (c.after dts).overPayload payload

theorem Steady.concat {n : ℕ} {dts : List DType} {dt : DType} (h : c.Steady n dts)
    (hin : dt.fixedSize = none → ∀ delta ∈ (c.after dts).followed,
      delta + 4 ≤ c.payload.length + chunkHeaderSize → delta + 4 ≤ n + chunkHeaderSize) :
    c.Steady n (dts ++ [dt]) := by
  intro payload hlen htake
  obtain ⟨-, hsource⟩ := c.after_source dts
  rw [after_concat, after_concat, h payload hlen htake]
  apply next_over
  · rw [hsource]
    exact hlen
  · rw [hsource]
    exact htake
  · rw [hsource]
    exact hin

/-- The first bytes stay the same, and more of them count. -/
theorem Steady.extend {n n' : ℕ} {dts : List DType} {payload : Bytes}
    (h : c.Steady n dts) (hn : n ≤ n')
    (hlen : payload.length = c.payload.length) (htake : payload.take n = c.payload.take n) :
    (c.overPayload payload).Steady n' dts := by
  intro payload' hlen' htake'
  have hsame : payload'.take n = c.payload.take n := by
    have hless := congrArg (List.take n) htake'
    rw [List.take_take, List.take_take, Nat.min_eq_left hn] at hless
    exact hless.trans htake
  have hthere : (c.overPayload payload').after dts = (c.after dts).overPayload payload' :=
    h payload' (hlen'.trans hlen) hsame
  rw [h payload hlen htake]
  exact hthere

end RowCursor

namespace ReadState

variable {key : HashKey} {s t : ReadState}

/-- A fresh cursor of a row that is valid. -/
def whole (s : ReadState) (r : HeldRow) (p : ChunkReadPin) : RowCursor :=
  ⟨slice (s.chunk p.chunk).payload r.start r.len, 0, (s.chunk p.chunk).payload, false⟩

/-- The chunk of the pin has not been recycled. -/
def Current (s : ReadState) (p : ChunkReadPin) : Prop := (s.chunk p.chunk).generation = p.generation

/-- While its chunk keeps the generation, an entry is what a lookup finds there. -/
def Entry (s : ReadState) (key : CacheKey) (range : CachedRange) : Prop :=
  ∀ i < s.writer.table.numChunks, ∀ delta, delta < s.writer.table.chunkSize →
    key.1 = s.chunkStart i + delta → key.2 ≤ (s.chunk i).generation ∧
    ((s.chunk i).generation = key.2 →
      chunkHeaderSize ≤ delta ∧ delta + 4 ≤ (s.chunk i).used + chunkHeaderSize ∧
        range = CachedReader.rangeAt (s.chunk i).payload (s.chunkStart i) key.1)

structure PinHeld (s : ReadState) (p : ChunkReadPin) : Prop where
  owner : ∀ o, p.ownerPid = some o → o ≤ s.process
  chunk : p.chunk < s.writer.table.numChunks
  generation : p.generation ≤ (s.chunk p.chunk).generation
  owned : s.Owned p → s.Current p
  used : s.Current p → p.used ≤ (s.chunk p.chunk).used

/-- A cursor is where a fresh cursor arrives, now and while the published bytes stay. -/
structure OnTrack (s : ReadState) (c : OpenCursor) (r : HeldRow) (p : ChunkReadPin) : Prop where
  place : (s.whole r p).after c.read = (s.cachedCursor r p c).plain
  steady : (s.whole r p).Steady (s.chunk p.chunk).used c.read

structure Inv (s : ReadState) : Prop where
  sound : ∃ contents, s.writer.Sound contents
  pins : ∀ i p, s.pin i = some p → s.PinHeld p
  rows : ∀ r ∈ s.rows, r.pin < s.pins.length ∧ ∀ p, s.pin r.pin = some p → r.start + r.len ≤ p.used
  entries : s.reader.Entries s.Entry
  opened : ∀ c, s.cursor = some c → c.row < s.rows.length
  cursor : ∀ c r p, s.reading = some (c, r, p) → s.Current p → s.OnTrack c r p
  answers : ∀ a ∈ s.answers, a.1 = a.2

theorem reading_iff {c : OpenCursor} {r : HeldRow} {p : ChunkReadPin} :
    s.reading = some (c, r, p) ↔ s.cursor = some c ∧ s.rows[c.row]? = some r ∧
    s.pin r.pin = some p := by
  unfold reading
  constructor
  · intro h
    obtain ⟨c', hc, h⟩ := Option.bind_eq_some_iff.mp h
    obtain ⟨r', hr, h⟩ := Option.bind_eq_some_iff.mp h
    obtain ⟨p', hp, h⟩ := Option.map_eq_some_iff.mp h
    cases h
    exact ⟨hc, hr, hp⟩
  · rintro ⟨hc, hr, hp⟩
    rw [hc, Option.bind_some, hr, Option.bind_some, hp]
    rfl

theorem pin_lt {i : ℕ} {p : ChunkReadPin} (h : s.pin i = some p) : i < s.pins.length := by
  by_contra hge
  unfold pin at h
  rw [List.getD_eq_getElem?_getD, List.getElem?_eq_none (Nat.le_of_not_lt hge)] at h
  cases h

theorem pin_mem {i : ℕ} {p : ChunkReadPin} (h : s.pin i = some p) : some p ∈ s.pins := by
  unfold pin at h
  rw [List.getD_eq_getElem?_getD] at h
  cases hi : s.pins[i]? with
  | none =>
      rw [hi] at h
      cases h
  | some q =>
      rw [hi] at h
      obtain rfl : q = some p := h
      exact List.mem_of_getElem? hi

/-- The writer finds the lease of an owned pin. -/
theorem owned_live {i : ℕ} {p : ChunkReadPin} (h : s.pin i = some p) (howned : s.Owned p) :
    s.chunkHasLiveLeases p.chunk = true := by
  have hpos : 0 < s.ownLeases p.chunk := by
    unfold ownLeases
    rw [List.countP_pos_iff]
    refine ⟨some p, pin_mem h, ?_⟩
    rw [Option.any_some, decide_eq_true howned, decide_eq_true rfl]
    rfl
  exact decide_eq_true (Nat.lt_of_lt_of_le hpos (Nat.le_add_left _ _))

section Write

/-- The writer has gone on. -/
structure Later (s t : ReadState) : Prop where
  shape : s.writer.table.SameShape t.writer.table
  chunk : ∀ i, (s.chunk i).Extends (t.chunk i) ∨ (s.chunk i).generation < (t.chunk i).generation

theorem Later.generation (h : s.Later t) (i : ℕ) :
    (s.chunk i).generation ≤ (t.chunk i).generation := by
  rcases h.chunk i with hextends | hrecycled
  · exact Nat.le_of_eq hextends.generation.symm
  · exact Nat.le_of_lt hrecycled

theorem Later.chunkStart (h : s.Later t) (i : ℕ) : t.chunkStart i = s.chunkStart i := by
  unfold ReadState.chunkStart
  rw [h.shape.cols, h.shape.numChunks, h.shape.chunkSize]

theorem Entry.later {key : CacheKey} {range : CachedRange} (hentry : s.Entry key range)
    (h : s.Later t) :
    t.Entry key range := by
  intro i hi delta hdelta hkey
  rw [h.shape.numChunks] at hi
  rw [h.shape.chunkSize] at hdelta
  rw [h.chunkStart] at hkey ⊢
  obtain ⟨hgen, hnow⟩ := hentry i hi delta hdelta hkey
  refine ⟨Nat.le_trans hgen (h.generation i), fun hsame => ?_⟩
  rcases h.chunk i with hextends | hrecycled
  · obtain ⟨hlow, hused, hrange⟩ := hnow (hextends.generation.symm.trans hsame)
    have hbound : delta - chunkHeaderSize + LeWord.width UInt32 ≤ (s.chunk i).used := by
      change delta - chunkHeaderSize + 4 ≤ _
      omega
    have hoff : key.1 - (s.chunkStart i + chunkHeaderSize) = delta - chunkHeaderSize := by omega
    refine ⟨hlow, Nat.le_trans hused (Nat.add_le_add_right hextends.used _), ?_⟩
    rw [hrange]
    unfold CachedReader.rangeAt
    rw [hoff, ← getLe_take hbound, ← hextends.published, getLe_take hbound]
  · exact absurd hsame (Nat.ne_of_gt (Nat.lt_of_le_of_lt hgen hrecycled))

/-- The row and its published surroundings are the same in an extended chunk. -/
theorem OnTrack.extend {c : OpenCursor} {r : HeldRow} {p : ChunkReadPin} (htrack : s.OnTrack c r p)
    (hextends : (s.chunk p.chunk).Extends (t.chunk p.chunk))
    (hrow : r.start + r.len ≤ (s.chunk p.chunk).used) :
    t.OnTrack c r p := by
  have hdata : slice (t.chunk p.chunk).payload r.start r.len =
      slice (s.chunk p.chunk).payload r.start r.len := by
    rw [← slice_take hrow, hextends.published, slice_take hrow]
  have hwhole : t.whole r p = (s.whole r p).overPayload (t.chunk p.chunk).payload := by
    unfold whole
    rw [hdata]
    rfl
  have hplain : (t.cachedCursor r p c).plain =
      (s.cachedCursor r p c).plain.overPayload (t.chunk p.chunk).payload := by
    unfold cachedCursor CachedCursor.plain
    dsimp only
    rw [hdata]
    rfl
  constructor
  · rw [hwhole, hplain, htrack.steady _ hextends.length hextends.published, htrack.place]
  · rw [hwhole]
    exact htrack.steady.extend hextends.used hextends.length hextends.published

/-- A chunk that still has the generation of a pin was not recycled. -/
theorem Later.current {p : ChunkReadPin} (h : s.Later t) (hpin : s.PinHeld p)
    (hcurrent : t.Current p) :
    s.Current p ∧ (s.chunk p.chunk).Extends (t.chunk p.chunk) := by
  have hsame : s.Current p := by
    have hgen := h.generation p.chunk
    rw [hcurrent] at hgen
    exact Nat.le_antisymm hgen hpin.generation
  rcases h.chunk p.chunk with hextends | hrecycled
  · exact ⟨hsame, hextends⟩
  · exact absurd (hsame.trans hcurrent.symm) (Nat.ne_of_lt hrecycled)

/-- The writer cannot recycle a chunk under a pin that this process owns. -/
theorem Inv.write {op : MemTableWriter.Op} {w : MemTableWriter} (h : s.Inv)
    (hpinned : s.chunkHasLiveLeases s.writer.table.nextChunk = true → op.pinned = true)
    (hstep : s.writer.step key op = some w) : ReadState.Inv { s with writer := w } := by
  obtain ⟨contents, hsound⟩ := h.sound
  have heffect := MemTableWriter.step_effect hsound hstep
  have hlater : s.Later { s with writer := w } := by
    refine ⟨heffect.shape, fun i => ?_⟩
    rcases heffect.extends hsound i with hextends | ⟨-, hrecycled⟩
    · exact .inl hextends
    · exact .inr hrecycled
  have howned (i : ℕ) (p : ChunkReadPin) (hp : s.pin i = some p) (hmine : s.Owned p) :
      (s.chunk p.chunk).Extends (w.table.chunk p.chunk) := by
    rcases heffect.extends hsound p.chunk with hextends | ⟨hnext, -⟩
    · exact hextends
    · have hlive := hpinned (hnext ▸ owned_live hp hmine)
      unfold MemTableWriter.step at hstep
      split_ifs at hstep with hop
      obtain rfl := Option.some.inj hstep
      exact hsound.pinned_extends hop hlive p.chunk
  refine ⟨heffect.sound hsound, fun i p hp => ?_, h.rows, ?_, h.opened,
    fun c r p hreading hcurrent => ?_, h.answers⟩
  · have hpin := h.pins i p hp
    refine ⟨hpin.owner, ?_, Nat.le_trans hpin.generation (hlater.generation p.chunk),
      fun hmine => ?_, fun hcurrent => ?_⟩
    · exact Nat.lt_of_lt_of_eq hpin.chunk heffect.shape.numChunks.symm
    · exact (howned i p hp hmine).generation.trans (hpin.owned hmine)
    · obtain ⟨hbefore, hextends⟩ := hlater.current hpin hcurrent
      exact Nat.le_trans (hpin.used hbefore) hextends.used
  · exact h.entries.imp fun _ _ hentry => hentry.later hlater
  · obtain ⟨hc, hr, hp⟩ := reading_iff.1 hreading
    have hpin := h.pins _ p hp
    obtain ⟨hbefore, hextends⟩ := hlater.current hpin hcurrent
    have hrow := (h.rows r (List.mem_of_getElem? hr)).2 p hp
    exact (h.cursor c r p (reading_iff.2 ⟨hc, hr, hp⟩) hbefore).extend hextends
      (Nat.le_trans hrow (hpin.used hbefore))

end Write

section Pins

variable {p q : ChunkReadPin} {i j : ℕ}

theorem PinHeld.congr (h : s.PinHeld p) (hwriter : t.writer = s.writer)
    (hprocess : t.process = s.process) :
    t.PinHeld p := by
  have hchunk (i : ℕ) : t.chunk i = s.chunk i := by
    unfold ReadState.chunk
    rw [hwriter]
  constructor
  · rw [hprocess]
    exact h.owner
  · rw [hwriter]
    exact h.chunk
  · rw [hchunk]
    exact h.generation
  · unfold Owned Current
    rw [hprocess, hchunk]
    exact h.owned
  · unfold Current
    rw [hchunk]
    exact h.used

theorem pin_set {x : Option ChunkReadPin} (h : (s.pins.set i x).getD j none = some q) :
    i = j ∧ x = some q ∨ s.pin j = some q := by
  rw [List.getD_eq_getElem?_getD, List.getElem?_set] at h
  split_ifs at h with hij hlt
  · exact .inl ⟨hij, h⟩
  · cases h
  · right
    unfold pin
    rw [List.getD_eq_getElem?_getD]
    exact h

theorem pin_concat {x : ChunkReadPin} (h : (s.pins ++ [some x]).getD j none = some q) :
    j = s.pins.length ∧ x = q ∨ s.pin j = some q := by
  rw [List.getD_eq_getElem?_getD] at h
  rcases Nat.lt_trichotomy j s.pins.length with hlt | rfl | hgt
  · rw [List.getElem?_append_left hlt] at h
    right
    unfold pin
    rw [List.getD_eq_getElem?_getD]
    exact h
  · rw [List.getElem?_concat_length] at h
    exact .inl ⟨rfl, Option.some.inj h⟩
  · rw [List.getElem?_eq_none (by rw [List.length_append]; exact hgt)] at h
    cases h

theorem ensure_place (claimable : Bool) (p : ChunkReadPin) :
    (s.ensureCurrentProcess claimable p).2.chunk = p.chunk ∧
      (s.ensureCurrentProcess claimable p).2.generation = p.generation ∧
        (s.ensureCurrentProcess claimable p).2.used = p.used := by
  unfold ensureCurrentProcess
  cases p.ownerPid with
  | none => exact ⟨rfl, rfl, rfl⟩
  | some o =>
      dsimp only
      split_ifs <;> exact ⟨rfl, rfl, rfl⟩

/-- An adopted pin belongs to a chunk that was not recycled. -/
theorem PinHeld.ensure (h : s.PinHeld p) (claimable : Bool) :
    s.PinHeld (s.ensureCurrentProcess claimable p).2 := by
  unfold ensureCurrentProcess
  cases howner : p.ownerPid with
  | none => exact h
  | some o =>
      dsimp only
      split_ifs with hmine hadopt
      · exact h
      · refine ⟨fun o ho => ?_, h.chunk, h.generation, fun _ => hadopt.2.2, h.used⟩
        obtain rfl := Option.some.inj ho
        exact Nat.le_refl _
      · exact ⟨fun o ho => (nomatch ho), h.chunk, h.generation,
          fun hmine => (nomatch hmine), h.used⟩

theorem ensure_owned (h : s.Owned p) (claimable : Bool) :
    (s.ensureCurrentProcess claimable p).1 = true := by
  unfold ensureCurrentProcess
  rw [h]
  dsimp only
  rw [if_pos rfl]

end Pins

section Steps

variable {c : OpenCursor} {r : HeldRow} {p : ChunkReadPin}

/-- A cursor that has not read a column. -/
def OpenCursor.Fresh (c : OpenCursor) : Prop := c.read = [] ∧ c.pos = 0 ∧ c.stale = false

theorem onTrack_fresh (hfresh : OpenCursor.Fresh c) : s.OnTrack c r p := by
  obtain ⟨row, pos, stale, read⟩ := c
  obtain ⟨rfl, rfl, rfl⟩ := hfresh
  exact ⟨rfl, fun _ _ _ => rfl⟩

theorem OnTrack.congr {q : ChunkReadPin} (h : s.OnTrack c r p) (hwriter : t.writer = s.writer)
    (hchunk : q.chunk = p.chunk) : t.OnTrack c r q := by
  have hsame : t.chunk q.chunk = s.chunk p.chunk := by
    unfold chunk
    rw [hwriter, hchunk]
  have hwhole : t.whole r q = s.whole r p := by
    unfold whole
    rw [hsame]
  have hplain : (t.cachedCursor r q c).plain = (s.cachedCursor r p c).plain := by
    unfold cachedCursor CachedCursor.plain
    dsimp only
    rw [hsame]
  constructor
  · rw [hwhole, hplain]
    exact h.place
  · rw [hwhole, hsame]
    exact h.steady

/-- A step of neither the writer nor a cursor. -/
theorem Inv.kept (h : s.Inv) (hwriter : t.writer = s.writer) (hreader : t.reader = s.reader)
    (hanswers : t.answers = s.answers) (hpins : ∀ i q, t.pin i = some q → t.PinHeld q)
    (hrows : ∀ r ∈ t.rows, r.pin < t.pins.length ∧ ∀ q, t.pin r.pin = some q →
      r.start + r.len ≤ q.used)
    (hopened : ∀ c, t.cursor = some c → c.row < t.rows.length)
    (hcursor : ∀ c r q, t.reading = some (c, r, q) → OpenCursor.Fresh c ∨
      ∃ p, s.reading = some (c, r, p) ∧ q.chunk = p.chunk ∧
      q.generation = p.generation) : t.Inv := by
  refine ⟨?_, hpins, hrows, ?_, hopened, fun c r q hreading hcurrent => ?_, ?_⟩
  · rw [hwriter]
    exact h.sound
  · rw [hreader]
    apply h.entries.imp
    intro key range hentry
    unfold Entry chunk chunkStart
    rw [hwriter]
    exact hentry
  · rcases hcursor c r q hreading with hfresh | ⟨p, hbefore, hchunk, hgen⟩
    · exact onTrack_fresh hfresh
    · refine (h.cursor c r p hbefore ?_).congr hwriter hchunk
      unfold Current chunk at hcurrent ⊢
      rw [← hwriter, ← hchunk, ← hgen]
      exact hcurrent
  · rw [hanswers]
    exact h.answers

/-- The cursor and the rows stay, and the pins may change hands. -/
theorem Inv.repinned (h : s.Inv) {pins : List (Option ChunkReadPin)} {process : ℕ} {others : ℕ → ℕ}
    {cursor : Option OpenCursor} (hlen : s.pins.length ≤ pins.length)
    (hheld : ∀ i q, pins.getD i none = some q → ReadState.PinHeld
      { s with pins := pins, process := process, others := others, cursor := cursor } q)
    (hsame : ∀ i < s.pins.length, ∀ q, pins.getD i none = some q →
      ∃ p, s.pin i = some p ∧ q.chunk = p.chunk ∧ q.generation = p.generation ∧ q.used = p.used)
    (hcursor : ∀ c, cursor = some c → s.cursor = some c) :
    ReadState.Inv
      { s with pins := pins, process := process, others := others, cursor := cursor } := by
  refine h.kept rfl rfl rfl hheld (fun r hr => ?_) (fun c hc => h.opened c (hcursor c hc))
    fun c r q hreading => ?_
  · obtain ⟨hpin, hrow⟩ := h.rows r hr
    refine ⟨Nat.lt_of_lt_of_le hpin hlen, fun q hq => ?_⟩
    obtain ⟨p, hp, -, -, hused⟩ := hsame _ hpin q hq
    rw [hused]
    exact hrow p hp
  · obtain ⟨hc, hr, hq⟩ := reading_iff.1 hreading
    obtain ⟨p, hp, hchunk, hgen, -⟩ := hsame _ (h.rows r (List.mem_of_getElem? hr)).1 q hq
    exact .inr ⟨p, reading_iff.2 ⟨hcursor c hc, hr, hp⟩, hchunk, hgen⟩

theorem chunkStart_unique {i j d e : ℕ} (hd : d < s.writer.table.chunkSize)
    (he : e < s.writer.table.chunkSize)
    (h : s.chunkStart i + d = s.chunkStart j + e) : i = j ∧ d = e := by
  have hpos : 0 < s.writer.table.chunkSize := Nat.zero_lt_of_lt hd
  have hsum : d + i * s.writer.table.chunkSize = e + j * s.writer.table.chunkSize := by
    unfold chunkStart at h
    omega
  have hquot : (d + i * s.writer.table.chunkSize) / s.writer.table.chunkSize =
      (e + j * s.writer.table.chunkSize) / s.writer.table.chunkSize := congrArg (· / _) hsum
  rw [Nat.add_mul_div_right _ _ hpos, Nat.add_mul_div_right _ _ hpos, Nat.div_eq_of_lt hd,
    Nat.div_eq_of_lt he, Nat.zero_add, Nat.zero_add] at hquot
  refine ⟨hquot, ?_⟩
  rw [hquot] at hsum
  exact Nat.add_right_cancel hsum

/-- An entry for a reference into a chunk that is not recycled is the range there is now. -/
theorem Inv.serves (h : s.Inv) (hpin : s.PinHeld p) (hcurrent : s.Current p)
    (hpublished : ∀ delta ∈ (s.cachedCursor r p c).plain.followed,
      delta + 4 ≤ (s.chunk p.chunk).payload.length + chunkHeaderSize →
      delta + 4 ≤ (s.chunk p.chunk).used + chunkHeaderSize) :
      (s.cachedCursor r p c).Serves s.Entry := by
  obtain ⟨contents, hsound⟩ := h.sound
  have hsize : (s.chunk p.chunk).payload.length = s.writer.table.chunkSize - chunkHeaderSize :=
    hsound.filled.payload _ hpin.chunk
  have hlarge := hsound.filled.large
  intro delta hdelta hlow hin
  have hused := hpublished delta hdelta hin
  have hlt : delta < s.writer.table.chunkSize := by
    change delta + 4 ≤ (s.chunk p.chunk).payload.length + chunkHeaderSize at hin
    omega
  constructor
  · intro i hi e he hkey
    obtain ⟨rfl, rfl⟩ := chunkStart_unique hlt he hkey
    exact ⟨Nat.le_of_eq hcurrent.symm, fun _ => ⟨hlow, hused, rfl⟩⟩
  · intro range hentry
    obtain ⟨-, hnow⟩ := hentry p.chunk hpin.chunk delta hlt rfl
    exact (hnow hcurrent).2.2

/-- A column is read like a fresh cursor reads it. -/
theorem Inv.next (h : s.Inv) {dt : DType} {claimable : Bool}
    (hguard : s.Guarded (.next dt claimable))
    (hreading : s.reading = some (c, r, p)) : (s.next dt claimable c r p).Inv := by
  obtain ⟨hmine, hpublished⟩ := hguard (c, r, p) hreading
  obtain ⟨hc, hr, hp⟩ := reading_iff.1 hreading
  have hpin := h.pins _ p hp
  have hcurrent := hpin.owned hmine
  have htrack := h.cursor c r p hreading hcurrent
  have hagrees : (s.cachedCursor r p c).Agrees s.Entry ((s.cachedCursor r p c).next dt)
      ((s.cachedCursor r p c).plain.next dt) :=
    CachedCursor.next_agrees h.entries fun hnone => h.serves hpin hcurrent (hpublished hnone)
  obtain ⟨hvalue, cache, hcache, hcursor⟩ := hagrees
  have hplace : (s.whole r p).after (c.read ++ [dt]) =
      ((s.cachedCursor r p c).plain.next dt).2 := by
    rw [RowCursor.after_concat, htrack.place]
  have hwhole : s.rowCursor r p claimable = s.whole r p := by
    unfold rowCursor
    rw [ensure_owned hmine]
    rfl
  refine ⟨h.sound, fun i q hq => (h.pins i q hq).congr rfl rfl, h.rows, ?_, ?_, ?_, ?_⟩
  · change ((s.cachedCursor r p c).next dt).2.cache.Entries s.Entry
    rw [hcursor]
    exact hcache
  · intro c' hc'
    obtain rfl := Option.some.inj hc'
    exact h.opened c hc
  · intro c' r' p' hreading' _
    obtain ⟨hc', hr', hp'⟩ := reading_iff.1 hreading'
    obtain rfl := Option.some.inj hc'
    obtain rfl := Option.some.inj (hr.symm.trans hr')
    obtain rfl := Option.some.inj (hp.symm.trans hp')
    constructor
    · refine hplace.trans ?_
      obtain ⟨hdata, hpayload⟩ := (s.cachedCursor r p c).plain.next_source dt
      have hpos : ((s.cachedCursor r p c).next dt).2.pos =
          ((s.cachedCursor r p c).plain.next dt).2.pos :=
        congrArg CachedCursor.pos hcursor
      have hstale : ((s.cachedCursor r p c).next dt).2.stale =
          ((s.cachedCursor r p c).plain.next dt).2.stale :=
        congrArg CachedCursor.stale hcursor
      exact RowCursor.ext hdata hpos.symm hpayload hstale.symm
    · apply htrack.steady.concat
      rw [htrack.place]
      exact hpublished
  · intro a ha
    rcases List.mem_append.mp ha with ha | ha
    · exact h.answers a ha
    · rw [List.mem_singleton.mp ha]
      dsimp only
      rw [hvalue, hwhole, htrack.place]

theorem Inv.step {a : Action} (h : s.Inv) (hguard : s.Guarded a) (hstep : s.step key a = some t) :
    t.Inv := by
  have hself (i : ℕ) (_ : i < s.pins.length) (q : ChunkReadPin) (hq : s.pin i = some q) :
      ∃ p, s.pin i = some p ∧ q.chunk = p.chunk ∧ q.generation = p.generation ∧ q.used = p.used :=
    ⟨q, hq, rfl, rfl, rfl⟩
  cases a with
  | write op =>
      unfold ReadState.step at hstep
      dsimp only at hstep
      split_ifs at hstep with hpinned
      obtain ⟨w, hw, rfl⟩ := Option.map_eq_some_iff.mp hstep
      exact h.write hpinned hw
  | lease i =>
      obtain rfl := Option.some.inj hstep
      exact h.repinned (Nat.le_refl _) (fun i q hq => (h.pins i q hq).congr rfl rfl)
        hself fun c hc => hc
  | release i =>
      unfold ReadState.step at hstep
      dsimp only at hstep
      split_ifs at hstep
      obtain rfl := Option.some.inj hstep
      exact h.repinned (Nat.le_refl _) (fun i q hq => (h.pins i q hq).congr rfl rfl)
        hself fun c hc => hc
  | pinChunk i =>
      unfold ReadState.step at hstep
      dsimp only at hstep
      split_ifs at hstep with hok
      obtain rfl := Option.some.inj hstep
      refine h.repinned (List.prefix_append _ _).length_le (fun j q hq => ?_)
        (fun j hj q hq => ?_) fun c hc => hc
      · rcases pin_concat hq with ⟨-, rfl⟩ | hq
        · refine ⟨fun o ho => ?_, hok.1, Nat.le_refl _, fun _ => rfl, fun _ => Nat.le_refl _⟩
          obtain rfl := Option.some.inj ho
          exact Nat.le_refl _
        · exact (h.pins j q hq).congr rfl rfl
      · rcases pin_concat hq with ⟨rfl, -⟩ | hq
        · exact absurd hj (Nat.lt_irrefl _)
        · exact hself j hj q hq
  | row i k =>
      obtain ⟨p, hp, hstep⟩ := Option.bind_eq_some_iff.mp hstep
      split_ifs at hstep with hmine
      obtain ⟨span, hspan, rfl⟩ := Option.map_eq_some_iff.mp hstep
      have hlt : i < s.pins.length := pin_lt hp
      refine h.kept rfl rfl rfl (fun j q hq => (h.pins j q hq).congr rfl rfl) (fun r hr => ?_)
        (fun c hc => ?_) fun c r q hreading => ?_
      · rcases List.mem_append.mp hr with hr | hr
        · exact h.rows r hr
        · obtain rfl := List.mem_singleton.mp hr
          refine ⟨hlt, fun q hq => ?_⟩
          obtain rfl := Option.some.inj (hp.symm.trans hq)
          have hwithin := rowSpans_within (List.mem_of_getElem? hspan)
          rw [List.length_take] at hwithin
          exact Nat.le_trans hwithin (Nat.min_le_left _ _)
      · exact Nat.lt_of_lt_of_le (h.opened c hc) (List.prefix_append _ _).length_le
      · obtain ⟨hc, hr, hq⟩ := reading_iff.1 hreading
        rw [List.getElem?_append_left (h.opened c hc)] at hr
        exact .inr ⟨q, reading_iff.2 ⟨hc, hr, hq⟩, rfl, rfl⟩
  | drop i =>
      obtain rfl := Option.some.inj hstep
      have hkeep (j : ℕ) (q : ChunkReadPin) (hq : (s.pins.set i none).getD j none = some q) :
          s.pin j = some q := by
        rcases pin_set hq with ⟨-, hnone⟩ | hq
        · cases hnone
        · exact hq
      refine h.repinned (Nat.le_of_eq List.length_set.symm)
        (fun j q hq => (h.pins j q (hkeep j q hq)).congr rfl rfl)
        (fun j hj q hq => hself j hj q (hkeep j q hq)) fun c hc => ?_
      exact (Option.filter_eq_some_iff.mp hc).1
  | fork =>
      obtain rfl := Option.some.inj hstep
      refine h.repinned (Nat.le_refl _) (fun i q hq => ?_) hself fun c hc => hc
      have hpin := h.pins i q hq
      -- No pin belongs to the child yet.
      refine ⟨fun o ho => Nat.le_succ_of_le (hpin.owner o ho), hpin.chunk, hpin.generation,
        fun hmine => ?_, hpin.used⟩
      exact absurd (hpin.owner _ hmine) (Nat.not_succ_le_self _)
  | isValid i claimable =>
      obtain ⟨p, hp, rfl⟩ := Option.map_eq_some_iff.mp hstep
      obtain ⟨hchunk, hgen, hused⟩ := @ensure_place s claimable p
      refine h.repinned (Nat.le_of_eq List.length_set.symm) (fun j q hq => ?_)
        (fun j hj q hq => ?_) fun c hc => hc
      · rcases pin_set hq with ⟨-, hset⟩ | hq
        · obtain rfl := Option.some.inj hset
          exact ((h.pins i p hp).ensure claimable).congr rfl rfl
        · exact (h.pins j q hq).congr rfl rfl
      · rcases pin_set hq with ⟨rfl, hset⟩ | hq
        · obtain rfl := Option.some.inj hset
          exact ⟨p, hp, hchunk, hgen, hused⟩
        · exact hself j hj q hq
  | cursor r =>
      unfold ReadState.step at hstep
      dsimp only at hstep
      split_ifs at hstep with hr
      obtain rfl := Option.some.inj hstep
      refine h.kept rfl rfl rfl (fun j q hq => (h.pins j q hq).congr rfl rfl)
        h.rows (fun c hc => ?_) fun c r q hreading => ?_
      · obtain rfl := Option.some.inj hc
        exact hr
      · obtain ⟨hc, -, -⟩ := reading_iff.1 hreading
        obtain rfl := Option.some.inj hc
        exact .inl ⟨rfl, rfl, rfl⟩
  | next dt claimable =>
      obtain ⟨⟨c, r, p⟩, hreading, rfl⟩ := Option.map_eq_some_iff.mp hstep
      exact h.next hguard hreading

end Steps

theorem start_inv {w : MemTableWriter} {contents : ℕ → List Bytes} (h : w.Sound contents)
    (others : ℕ → ℕ) (maxEntries : ℕ) : (start w others maxEntries).Inv where
  sound := ⟨contents, h⟩
  pins i p hp := by
    have hmem := pin_mem hp
    cases hmem
  rows r hr := nomatch hr
  entries := CachedReader.new_entries maxEntries
  opened c hc := nomatch hc
  cursor c r p hreading := by
    obtain ⟨hc, -, -⟩ := reading_iff.1 hreading
    cases hc
  answers a ha := nomatch ha

/-- A table of two chunks that keeps each text once. -/
def ranks : Except String MemTableWriter :=
  MemTableWriter.init (List.replicate 1024 0) [("rank", .Str)] 128 2 true

/-- Two rows with the same text, the second of which is read twice. -/
def repeatedRank : List Action :=
  [.write (.pushRow false [.Str "rank0"]), .write (.pushRow false [.Str "rank0"]),
    .pinChunk 0, .row 0 1, .cursor 0, .next .Str false, .cursor 0, .next .Str false]

/-- The parent of a fork drops its row, and the chunk is recycled and written again. -/
def recycledRank : List Action :=
  repeatedRank ++
    [Action.fork, .release 0, .write (.advanceChunk false), .write (.advanceChunk false),
    .write (.pushRow false [.Str "rank1"]), .cursor 0, .next .Str true]

theorem ranks_run {acts : List Action} {p : MemTableWriter → ReadState → Prop}
    [∀ w t, Decidable (p w t)]
    (h : (ranks.toOption.any fun w => (exec (step fun _ _ => 0) (start w (fun _ => 0) 16) acts).any
      fun t => p w t) = true) :
    ∃ w t, ranks = .ok w ∧ exec (step fun _ _ => 0) (start w (fun _ => 0) 16) acts =
      some t ∧ p w t := by
  cases hranks : ranks with
  | error e =>
      rw [hranks] at h
      cases h
  | ok w =>
      rw [hranks] at h
      change (exec _ _ _).any _ = true at h
      cases hrun : exec (step fun _ _ => 0) (start w (fun _ => 0) 16) acts with
      | none =>
          rw [hrun] at h
          cases h
      | some t =>
          rw [hrun] at h
          exact ⟨w, t, rfl, hrun, of_decide_eq_true h⟩

/-- In a run in which only owned pins are read under, and no reference leads to a length
that is not published, every value of a cached cursor is the one that a fresh cursor of
the row would have read at that time. -/
theorem cached_agrees {w : MemTableWriter} (hw : MemTableWriter.Reachable key w) (others : ℕ → ℕ)
    (maxEntries : ℕ)
    {acts : List Action} (hguarded : Meets (step key) Guarded (start w others maxEntries) acts)
    (hrun : exec (step key) (start w others maxEntries) acts = some t) :
    ∀ a ∈ t.answers, a.1 = a.2 := by
  obtain ⟨contents, hsound⟩ := hw.sound
  have hinv := exec_invariant (fun s a t hs hok hstep => Inv.step hs hok hstep)
    (start_inv hsound others maxEntries) hguarded hrun
  exact hinv.answers

theorem cached_agrees_repeated : ∃ w t, ranks = .ok w ∧
    exec (step fun _ _ => 0) (start w (fun _ => 0) 16) repeatedRank = some t ∧
      t.answers.length = 2 ∧ ∀ a ∈ t.answers, a.1 = a.2 := by
  have hthere : ∃ w t, ranks = .ok w ∧
      exec (step fun _ _ => 0) (start w (fun _ => 0) 16) repeatedRank = some t ∧
        Meets (step fun _ _ => 0) Guarded (start w (fun _ => 0) 16) repeatedRank ∧
        t.answers.length = 2 :=
    ranks_run (by decide +kernel)
  obtain ⟨w, t, hw, hrun, hmeets, hlen⟩ := hthere
  have hreach : MemTableWriter.Reachable (fun _ _ => 0) w := ⟨_, _, _, _, _, w, [], hw, rfl⟩
  exact ⟨w, t, hw, hrun, hlen, cached_agrees hreach _ _ hmeets hrun⟩

/-- The child reads the text of another generation, where a fresh cursor reads nothing. -/
theorem cached_differs_after_fork : ∃ w t, ranks = .ok w ∧
    exec (step fun _ _ => 0) (start w (fun _ => 0) 16) recycledRank = some t ∧
      t.answers.getLast? = some (.Str "rank1", .Str "") := ranks_run (by decide +kernel)

end ReadState

end Probing.Memt
