import Probing.Memt.RowFields
import Probing.Memt.WriterRun

/-!
# Reading a written row back

A length prefix is signed, and a negative one is a reference. So a text of 2 GiB or more
is not read back, nor is a reference to an offset from 2 GiB on; every other row is, by a
cursor and by the accessors of its columns.
-/

namespace Probing.Memt

open Probing.Core

namespace RowCursor

/-- The cursor after some columns. -/
def after (c : RowCursor) : List DType → RowCursor
  | [] => c
  | dt :: dts => (c.next dt).2.after dts

variable {c : RowCursor}

theorem readFixed_stale (h : c.stale = true) (α : Type) [LeWord α] :
    (c.readFixed α).2.stale = true := by
  unfold readFixed
  rw [if_pos h]
  rfl

theorem next_stale (h : c.stale = true) (dt : DType) : (c.next dt).2.stale = true := by
  have hlp : c.readLp.2.stale = true := by
    unfold readLp
    rw [if_pos h]
    exact h
  cases dt with
  | U8 | U32 | I32 | I64 | F32 | F64 | U64 => exact readFixed_stale h _
  | Str | Bytes => exact hlp

theorem after_stale (h : c.stale = true) (dts : List DType) : (c.after dts).stale = true := by
  induction dts generalizing c with
  | nil => exact h
  | cons dt dts ih => exact ih (next_stale h dt)

end RowCursor

/-- A cursor reads the values and is not stale afterwards, and so does every accessor. -/
structure ReadsBack (r : Row) (values : List Value) : Prop where
  cursor : r.cursor.readRow (values.map Value.dtype) = values
  valid : (r.cursor.after (values.map Value.dtype)).stale = false
  col : ∀ i v, values[i]? = some v → r.col v.dtype i = v

/-- The prefix of the field can hold its length or its reference. -/
def Legible (f : Value × Option ℕ) : Prop :=
  ∀ data, f.1.varlen = some data → match f.2 with
    | none => data.length < 2 ^ 31
    | some off => off < 2 ^ 31

/-- A text is short enough for its prefix, or is where its reference says. -/
def Placed (published : Bytes) (f : Value × Option ℕ) : Prop :=
  ∀ data, f.1.varlen = some data → match f.2 with
    | none => data.length < 2 ^ 32
    | some off => TextAt published off data

section Field

variable {published rest pre post data : Bytes} {v : Value} {dup : Option ℕ} {off n : ℕ}

theorem Legible.reads (h : Legible (v, dup)) (hplaced : Placed published (v, dup))
    (hnone : v.varlen = none → dup = none) : FieldReads published (field v dup) v := by
  cases dup with
  | none => exact .inline h
  | some off =>
      cases hv : v.varlen with
      | none => exact absurd (hnone hv) (by simp)
      | some data =>
          have htext : TextAt published off data := hplaced data hv
          exact .reference hv htext.short htext.low (h data hv) htext.high htext.stored

/-- A length from 2 GiB on is negative. -/
theorem toInt_long {n : ℕ} (hlow : 2 ^ 31 ≤ n) (hhigh : n < 2 ^ 32) :
    (Int32.ofNat n).toInt = (n : ℤ) - 2 ^ 32 := by
  rw [Int32.toInt_ofNat', Int.bmod_def]
  have hsize : (Int32.size : ℤ) = 2 ^ 32 := rfl
  have hmod : (n : ℤ) % (Int32.size : ℤ) = n := Int.emod_eq_of_lt (by omega) (by omega)
  rw [hmod, hsize, if_neg (by omega)]

/-- A reference to an offset past 2 GiB is positive. -/
theorem toInt_far (hlow : 2 ^ 31 < off) (hhigh : off < 2 ^ 32) :
    (-(Int32.ofNat off)).toInt = 2 ^ 32 - (off : ℤ) := by
  rw [Int32.neg_ofNat, Int32.toInt_ofInt, Int.bmod_def]
  have hsize : (Int32.size : ℤ) = 2 ^ 32 := rfl
  have hmod : (-(off : ℤ)) % (Int32.size : ℤ) = 2 ^ 32 - off := by
    rw [hsize, ← Int.add_emod_right, Int.emod_eq_of_lt (by omega) (by omega)]
    omega
  rw [hmod, hsize, if_pos (by omega)]

theorem toInt_half : (-(Int32.ofNat (2 ^ 31))) = Int32.minValue := by decide

/-- What is read instead of an illegible text is stale or has another length. -/
def Misses (r : Bytes × RowCursor) (data : Bytes) : Prop :=
  r.2.stale = true ∨ r.1.length ≠ data.length

theorem misses_stale {r : Bytes × RowCursor} (h : r.2.stale = true) : Misses r data := .inl h

/-- The text that a cursor finds at the offset of a positive delta. -/
theorem referenced_length {payload b : Bytes} {delta : ℕ} (h : referenced payload delta = some b) :
    chunkHeaderSize ≤ delta ∧ delta + 4 + b.length ≤ payload.length + chunkHeaderSize := by
  unfold referenced at h
  dsimp only at h
  split_ifs at h with hout hend
  have hb := congrArg List.length (Option.some.inj h)
  rw [slice_length] at hb
  omega

/-- A length from 2 GiB on is taken for a reference, and no text there has that length. -/
theorem readLp_long {payload : Bytes} (hsmall : payload.length + chunkHeaderSize < 2 ^ 32)
    (hlow : 2 ^ 31 ≤ data.length) (hhigh : data.length < 2 ^ 32) :
    Misses (RowCursor.readLp ⟨pre ++ (Value.encodeVarlen data ++ post), pre.length, payload, false⟩)
      data := by
  have hint := toInt_long hlow hhigh
  have hneg : Int32.ofNat data.length < 0 := by
    rw [Int32.lt_iff_toInt_lt, hint]
    change (data.length : ℤ) - 2 ^ 32 < 0
    omega
  unfold RowCursor.readLp Value.encodeVarlen
  rw [le_length_field, List.append_assoc]
  simp only [Bool.false_eq_true, if_false, readFixed_append, if_pos hneg]
  cases hfound : (refDelta (Int32.ofNat data.length)).bind (referenced payload) with
  | none => exact misses_stale rfl
  | some b =>
      obtain ⟨delta, hdelta, href⟩ := Option.bind_eq_some_iff.mp hfound
      unfold refDelta at hdelta
      split_ifs at hdelta with hmin
      have heq := Option.some.inj hdelta
      rw [hint] at heq
      obtain ⟨-, hend⟩ := referenced_length href
      right
      change b.length ≠ data.length
      omega

/-- A reference to an offset from 2 GiB on is taken for a longer text, or for none. -/
theorem readLp_far {payload : Bytes} (hsmall : payload.length + chunkHeaderSize < 2 ^ 32)
    (hlow : 2 ^ 31 ≤ off) (hend : off + 4 + data.length ≤ payload.length + chunkHeaderSize) :
    Misses (RowCursor.readLp ⟨pre ++ (le (-(Int32.ofNat off)) ++ post), pre.length, payload, false⟩)
      data := by
  unfold RowCursor.readLp
  simp only [Bool.false_eq_true, if_false, readFixed_append]
  rcases Nat.eq_or_lt_of_le hlow with hhalf | hpast
  · have hmin : refDelta (-(Int32.ofNat off)) = none := by
      rw [← hhalf, toInt_half]
      rfl
    have hneg : -(Int32.ofNat off) < 0 := by
      rw [← hhalf, toInt_half]
      decide
    rw [if_pos hneg, hmin, Option.bind_none]
    exact misses_stale rfl
  · have hint := toInt_far hpast (by omega)
    have hpos : ¬ -(Int32.ofNat off) < 0 := by
      rw [Int32.lt_iff_toInt_lt, hint]
      change ¬ (2 ^ 32 - (off : ℤ)) < 0
      omega
    have hlen : (-(Int32.ofNat off)).toInt.toNat = 2 ^ 32 - off := by
      rw [hint]
      omega
    rw [if_neg hpos, hlen]
    split_ifs with hfit
    · right
      change (slice _ _ (2 ^ 32 - off)).length ≠ data.length
      rw [slice_length]
      omega
    · exact misses_stale rfl

/-- Bytes of another length are another text, unless the text is empty. -/
theorem text_ne {b : Bytes} {s : String} (hlen : b.length ≠ (utf8 s).length) (hs : s ≠ "") :
    Row.text b ≠ s := by
  intro htext
  unfold Row.text at htext
  split_ifs at htext with hempty
  · exact hs htext.symm
  · cases hread : fromUtf8 b with
    | none =>
        rw [hread] at htext
        exact hs htext.symm
    | some t =>
        rw [hread] at htext
        obtain rfl : t = s := htext
        exact hlen (congrArg List.length (utf8_of_fromUtf8 hread).symm)

/-- The prefix of the field misleads a cursor. -/
theorem next_illegible {payload : Bytes} (hsmall : payload.length + chunkHeaderSize < 2 ^ 32)
    (hplaced : Placed (payload.take n) (v, dup)) (hbad : ¬ Legible (v, dup))
    (hnotempty : v ≠ .Str "") :
    (RowCursor.next ⟨pre ++ (field v dup ++ post), pre.length, payload, false⟩ v.dtype).2.stale
      = true ∨
    (RowCursor.next ⟨pre ++ (field v dup ++ post), pre.length, payload, false⟩ v.dtype).1 ≠ v := by
  unfold Legible at hbad
  push Not at hbad
  obtain ⟨data, hdata, hlong⟩ := hbad
  have hmisses : Misses
      (RowCursor.readLp ⟨pre ++ (field v dup ++ post), pre.length, payload, false⟩) data := by
    have hat := hplaced data hdata
    cases dup with
    | none =>
        have hfield : field v none = Value.encodeVarlen data := encode_of_varlen hdata
        rw [hfield]
        exact readLp_long hsmall (Nat.le_of_not_lt hlong) hat
    | some off =>
        have hhigh := hat.high
        have hlow := hat.low
        rw [List.length_take] at hhigh
        exact readLp_far hsmall (Nat.le_of_not_lt hlong) (by omega)
  rcases hmisses with hstale | hlen
  · left
    cases v with
    | Str | Bytes => exact hstale
    | U8 | U32 | I32 | I64 | F32 | F64 | U64 => cases hdata
  · right
    cases v with
    | Str s =>
        obtain rfl := Option.some.inj hdata
        intro hsame
        exact text_ne hlen (fun hs => hnotempty (congrArg Value.Str hs)) (Value.Str.inj hsame)
    | Bytes bs =>
        obtain rfl := Option.some.inj hdata
        intro hsame
        exact hlen (congrArg List.length (Value.Bytes.inj hsame))
    | U8 | U32 | I32 | I64 | F32 | F64 | U64 => cases hdata

end Field

section Fields

variable {published rest payload pre : Bytes} {n : ℕ} {fields : List (Value × Option ℕ)}

/-- Only texts are stored as references. -/
def OnlyTexts (f : Value × Option ℕ) : Prop := f.1.varlen = none → f.2 = none

theorem after_of_reads {bytes : List Bytes} {values : List Value}
    (h : List.Forall₂ (FieldReads published) bytes values) (pre : Bytes) :
    (RowCursor.after ⟨pre ++ bytes.flatten, pre.length, published ++ rest, false⟩
      (values.map Value.dtype)).stale = false := by
  induction h generalizing pre with
  | nil => rfl
  | @cons field v bytes values hfield hrest ih =>
      have hthen := ih (pre ++ field)
      rw [List.length_append, List.append_assoc] at hthen
      rw [List.map_cons, List.flatten_cons, RowCursor.after, next_of_reads hfield]
      exact hthen

/-- Legible fields are read back. -/
theorem forall₂_of_legible (hplaced : ∀ f ∈ fields, Placed published f)
    (htexts : ∀ f ∈ fields, OnlyTexts f) (hlegible : ∀ f ∈ fields, Legible f) :
    List.Forall₂ (FieldReads published) (fields.map fun f => field f.1 f.2)
    (fields.map Prod.fst) := by
  induction fields with
  | nil => exact .nil
  | cons f fields ih =>
      refine .cons ?_ (ih (fun g hg => hplaced g (List.mem_cons_of_mem _ hg))
        (fun g hg => htexts g (List.mem_cons_of_mem _ hg)) fun g hg =>
        hlegible g (List.mem_cons_of_mem _ hg))
      exact (hlegible f List.mem_cons_self).reads (hplaced f List.mem_cons_self)
        (htexts f List.mem_cons_self)

/-- What a cursor reads without going stale is legible. -/
theorem legible_of_reads (hsmall : payload.length + chunkHeaderSize < 2 ^ 32)
    (hplaced : ∀ f ∈ fields, Placed (payload.take n) f) (htexts : ∀ f ∈ fields, OnlyTexts f)
    (hempty : ∀ f ∈ fields, f.1 = .Str "" → Legible f) (pre : Bytes)
    (hread : RowCursor.readRow ⟨pre ++ fieldsData fields, pre.length, payload, false⟩
      ((fields.map Prod.fst).map Value.dtype) = fields.map Prod.fst)
    (hvalid : (RowCursor.after ⟨pre ++ fieldsData fields, pre.length, payload, false⟩
      ((fields.map Prod.fst).map Value.dtype)).stale = false) :
    ∀ f ∈ fields, Legible f := by
  induction fields generalizing pre with
  | nil => exact fun f hf => (nomatch hf)
  | cons f fields ih =>
      obtain ⟨v, dup⟩ := f
      have hplaced_head := hplaced (v, dup) List.mem_cons_self
      have hempty_head := hempty (v, dup) List.mem_cons_self
      rw [List.map_cons, List.map_cons, fieldsData_cons, RowCursor.readRow] at hread
      rw [List.map_cons, List.map_cons, fieldsData_cons, RowCursor.after] at hvalid
      obtain ⟨hhead, htail⟩ := List.cons.inj hread
      by_cases hlegible : Legible (v, dup)
      · have hreads : FieldReads (payload.take n) (field v dup) v :=
          hlegible.reads hplaced_head (htexts (v, dup) List.mem_cons_self)
        have hnext :
          RowCursor.next ⟨pre ++ (field v dup ++ fieldsData fields), pre.length, payload, false⟩
            v.dtype =
              (v, ⟨pre ++ (field v dup ++ fieldsData fields), pre.length + (field v dup).length,
              payload, false⟩) := by
          have hthere : RowCursor.next ⟨pre ++ (field v dup ++ fieldsData fields), pre.length,
              payload.take n ++ payload.drop n, false⟩ v.dtype = (v,
              ⟨pre ++ (field v dup ++ fieldsData fields),
                pre.length + (field v dup).length, payload.take n ++ payload.drop n, false⟩) :=
            next_of_reads hreads
          rwa [List.take_append_drop] at hthere
        rw [hnext, ← List.append_assoc, ← List.length_append] at htail hvalid
        have hrest := ih (fun g hg => hplaced g (List.mem_cons_of_mem _ hg))
          (fun g hg => htexts g (List.mem_cons_of_mem _ hg))
          (fun g hg => hempty g (List.mem_cons_of_mem _ hg)) (pre ++ field v dup) htail hvalid
        intro g hg
        rcases List.mem_cons.mp hg with rfl | hg
        · exact hlegible
        · exact hrest g hg
      · exfalso
        have hnotempty : v ≠ .Str "" := fun hv => hlegible (hempty_head hv)
        rcases @next_illegible pre (fieldsData fields) v dup n payload hsmall hplaced_head
          hlegible hnotempty with hstale | hne
        · rw [RowCursor.after_stale hstale] at hvalid
          cases hvalid
        · exact hne hhead

/-- A stored row is read back exactly when its fields are legible, empty texts past 2 GiB
apart. -/
theorem reads_back_iff (hsmall : payload.length + chunkHeaderSize < 2 ^ 32)
    (hplaced : ∀ f ∈ fields, Placed (payload.take n) f) (htexts : ∀ f ∈ fields, OnlyTexts f) :
    ((∀ f ∈ fields, Legible f) →
      ReadsBack ⟨(fields.map Prod.fst).map Value.dtype, fieldsData fields, payload⟩
        (fields.map Prod.fst)) ∧
    ((∀ f ∈ fields, f.1 = .Str "" → Legible f) →
      ReadsBack ⟨(fields.map Prod.fst).map Value.dtype, fieldsData fields, payload⟩
        (fields.map Prod.fst) →
      ∀ f ∈ fields, Legible f) := by
  constructor
  · intro hlegible
    have hfields := forall₂_of_legible hplaced htexts hlegible
    have hdata : fieldsData fields = (fields.map fun f => field f.1 f.2).flatten := List.flatMap_def
    have hreads : RowReads (payload.take n) (fieldsData fields) (fields.map Prod.fst) :=
      ⟨_, hdata, hfields⟩
    refine ⟨?_, ?_, fun i v hv => ?_⟩
    · have hcursor : (Row.cursor ⟨(fields.map Prod.fst).map Value.dtype, fieldsData fields,
          payload.take n ++ payload.drop n⟩).readRow _ = _ := hreads.cursor_eq _
      rwa [List.take_append_drop] at hcursor
    · have hafter :
          (RowCursor.after ⟨[] ++ _, 0, payload.take n ++ payload.drop n, false⟩ _).stale = false :=
        after_of_reads hfields []
      rw [List.take_append_drop, ← hdata] at hafter
      exact hafter
    · have hcol : Row.col ⟨_, _, payload.take n ++ payload.drop n⟩ v.dtype i = v := hreads.col_eq hv
      rwa [List.take_append_drop] at hcol
  · intro hempty hreads
    exact legible_of_reads hsmall hplaced htexts hempty [] hreads.cursor hreads.valid

end Fields

namespace Table

variable {t : Table} {contents : ℕ → List Bytes} {i : ℕ}

/-- The rows of a chunk are read as they were published. -/
theorem Filled.rows_eq (h : t.Filled contents) (hi : i < t.numChunks) :
    t.rows i = (contents i).map (⟨t.dtypes, ·, (t.chunk i).payload⟩) := by
  have hholds := h.holds i hi
  have hused := hholds.used_le
  rw [h.payload i hi] at hused
  unfold rows
  dsimp only
  by_cases hempty : (t.chunk i).state = .Empty
  · rw [if_pos (.inr (.inl hempty)), h.untouched i hi hempty]
    rfl
  · rw [if_neg, hholds.published, rowIter_log hholds.short]
    rintro (hlt | hstate | hlong)
    · exact absurd hi (Nat.not_lt_of_le hlt)
    · exact hempty hstate
    · omega

end Table

namespace MemTableWriter

variable {key : HashKey} {w w' : MemTableWriter} {contents : ℕ → List Bytes} {values : List Value}

theorem fields_values (values : List Value) : (w.fields key values).map Prod.fst = values := by
  unfold fields
  apply List.ext_getElem
  · simp
  · intro i hi hi'
    simp

theorem mem_fields {f : Value × Option ℕ} (hf : f ∈ w.fields key values) :
    ∃ i, w.lookup key i f.1 = f.2 := by
  obtain ⟨i, hi, rfl⟩ := List.mem_mapIdx.mp hf
  exact ⟨i, rfl⟩

theorem fields_only_texts : ∀ f ∈ w.fields key values, OnlyTexts f := by
  intro f hf hv
  obtain ⟨i, hi⟩ := mem_fields hf
  rw [← hi, lookup, hv, Option.bind_none]

/-- One field of a row is not longer than the row. -/
theorem field_length_le {fields : List (Value × Option ℕ)} {f : Value × Option ℕ}
    (hf : f ∈ fields) :
    (field f.1 f.2).length ≤ (fieldsData fields).length := by
  obtain ⟨before, after, rfl⟩ := List.append_of_mem hf
  rw [fieldsData_append, fieldsData_cons, List.length_append, List.length_append]
  omega

/-- Every text of a row that fits has its place. -/
theorem Sound.placed (h : w.Sound contents) (hfits : w.fits key values = true) :
    ∀ f ∈ w.fields key values, Placed (log (contents w.table.writeChunk)) f := by
  intro f hf data hdata
  have hlen := field_length_le hf
  have hroom := h.filled.room hfits
  have hsmall := h.filled.payload_lt h.filled.write_lt
  have hholds : w.table.current.Holds (contents w.table.writeChunk) :=
    h.filled.holds _ h.filled.write_lt
  obtain ⟨i, hi⟩ := mem_fields hf
  cases hdup : f.2 with
  | none =>
      rw [hdup, show field f.1 none = f.1.encode from rfl, encode_of_varlen hdata,
        Value.encodeVarlen, List.length_append, le_length_u32] at hlen
      change w.table.current.payload.length < 2 ^ 32 at hsmall
      dsimp only
      omega
  | some off =>
      rw [hdup, lookup, hdata, Option.bind_some] at hi
      obtain ⟨state, hstate, hlookup⟩ := Option.bind_eq_some_iff.mp hi
      have hremembers := h.remembers state hstate
      rw [← List.take_append_drop w.table.current.used w.table.current.payload, hholds.published,
        hremembers.lookup_congr] at hlookup
      exact hremembers.lookup_some hlookup

/-- What a reader may find in a chunk at a later time, as long as it is not recycled. -/
def StillThere (c : Chunk) (payload : Bytes) : Prop :=
  payload.length = c.payload.length ∧ payload.take c.used = c.payload.take c.used

/-- The row is the last one of the chunk, and its fields decide whether it is read back. -/
theorem Sound.read_back (h : w.Sound contents) (hfits : w.fits key values = true)
    (hschema : w.table.validateRowSchema values = true) :
    ∃ r, ((w.stored key values).table.rows w.table.writeChunk).getLast? = some r ∧
      ∀ payload, StillThere (w.stored key values).table.current payload →
        ((∀ f ∈ w.fields key values, Legible f) → ReadsBack { r with payload := payload } values) ∧
        ((∀ f ∈ w.fields key values, f.1 = .Str "" → Legible f) →
          ReadsBack { r with payload := payload } values → ∀ f ∈ w.fields key values,
          Legible f) := by
  have hstored := (h.stored hfits).filled
  have hwrite : (w.stored key values).table.writeChunk = w.table.writeChunk := rfl
  have hlt := hstored.write_lt
  rw [hwrite] at hlt
  have hholds := hstored.holds _ hlt
  have hrows := hstored.rows_eq hlt
  rw [Function.update_self, List.map_append] at hrows
  have hdtypes : (w.stored key values).table.dtypes = values.map Value.dtype := by
    have htypes := of_decide_eq_true hschema
    exact htypes.symm
  refine ⟨_, by rw [hrows]; exact List.getLast?_concat, fun payload hthere => ?_⟩
  obtain ⟨hlen, htake⟩ := hthere
  have hcurrent : (w.stored key values).table.current =
      (w.stored key values).table.chunk w.table.writeChunk := rfl
  rw [hcurrent] at hlen htake
  rw [Function.update_self] at hholds
  rw [hholds.published] at htake
  have hsmall : payload.length + chunkHeaderSize < 2 ^ 32 := by
    have hpayload := hstored.payload _ hlt
    have hlarge := hstored.large
    have hfour := hstored.small
    omega
  have hplaced : ∀ f ∈ w.fields key values,
      Placed (payload.take ((w.stored key values).table.chunk w.table.writeChunk).used) f := by
    intro f hf data hdata
    have hat := h.placed hfits f hf data hdata
    rw [htake, log_append]
    cases hdup : f.2 with
    | none =>
        rw [hdup] at hat
        exact hat
    | some off =>
        rw [hdup] at hat
        exact hat.mono _
  have hiff := reads_back_iff hsmall hplaced fields_only_texts
  rw [fields_values] at hiff
  rw [hdtypes]
  exact hiff

/-- The writer whose write chunk takes the row. -/
def holder (key : HashKey) (w : MemTableWriter) (values : List Value) : MemTableWriter :=
  if (w.append key values).isSome then w else w.advanced

theorem written_eq {pinned : Bool} (hpush : w.tryPushRow key pinned values = (.Written, w')) :
    w.table.validateRowSchema values = true ∧ (w.holder key values).fits key values = true ∧
      w' = (w.holder key values).stored key values := by
  unfold tryPushRow at hpush
  by_cases hschema : w.table.validateRowSchema values = true
  · rw [if_pos hschema] at hpush
    refine ⟨hschema, ?_⟩
    unfold holder
    cases happend : w.append key values with
    | some w'' =>
        obtain ⟨hfits, rfl⟩ := append_some happend
        unfold tryPushInner at hpush
        rw [happend] at hpush
        exact ⟨hfits, (congrArg Prod.snd hpush).symm⟩
    | none =>
        rw [tryPushInner_none happend] at hpush
        cases pinned with
        | true => cases congrArg Prod.fst hpush
        | false =>
            cases hagain : w.advanced.append key values with
            | none =>
                rw [hagain] at hpush
                cases congrArg Prod.fst hpush
            | some w'' =>
                obtain ⟨hfits, rfl⟩ := append_some hagain
                rw [hagain] at hpush
                exact ⟨hfits, (congrArg Prod.snd hpush).symm⟩
  · rw [if_neg hschema] at hpush
    cases congrArg Prod.fst hpush

theorem Sound.holder (h : w.Sound contents) (values : List Value) :
    ∃ contents', (w.holder key values).Sound contents' := by
  unfold MemTableWriter.holder
  split_ifs
  · exact ⟨_, h⟩
  · exact ⟨_, h.advanced⟩

/-- A row that is reported as written is the last one of the write chunk. A cursor and the
accessors read it back when every text is stored as itself with less than 2 GiB or as a
reference to an offset below 2 GiB; and only then, apart from empty strings. -/
theorem read_back_iff (h : Reachable key w) {pinned : Bool}
    (hpush : w.tryPushRow key pinned values = (.Written, w')) :
    ∃ r, (w'.table.rows w'.table.writeChunk).getLast? = some r ∧
      ∀ payload, StillThere w'.table.current payload →
        ((∀ f ∈ (w.holder key values).fields key values, Legible f) →
          ReadsBack { r with payload := payload } values) ∧
        ((∀ f ∈ (w.holder key values).fields key values, f.1 = .Str "" → Legible f) →
          ReadsBack { r with payload := payload } values →
          ∀ f ∈ (w.holder key values).fields key values, Legible f) := by
  obtain ⟨contents, hsound⟩ := h.sound
  obtain ⟨hschema, hfits, rfl⟩ := written_eq hpush
  obtain ⟨contents', hholder⟩ := @Sound.holder key w contents hsound values
  apply hholder.read_back hfits
  unfold MemTableWriter.holder
  split_ifs
  · exact hschema
  · have hdtypes : w.advanced.table.dtypes = w.table.dtypes :=
      congrArg (List.map Prod.snd) Table.advanced_cols
    unfold Table.validateRowSchema at hschema ⊢
    rw [hdtypes]
    exact hschema

/-- A table of one chunk for one text column. -/
def labels : Except String MemTableWriter :=
  init (List.replicate 512 0) [("label", .Str)] 64 1 false

theorem labels_ok : ∃ w, labels = .ok w := by
  cases h : labels with
  | ok w => exact ⟨w, rfl⟩
  | error e =>
      have hok : labels.isOk = true := by decide +kernel
      rw [h] at hok
      cases hok

theorem read_back_label : ∃ w w', labels = .ok w ∧
    w.tryPushRow (fun _ _ => 0) false [.Str "rank0"] = (.Written, w') ∧
      ∃ r, (w'.table.rows w'.table.writeChunk).getLast? = some r ∧
        ReadsBack { r with payload := w'.table.current.payload } [.Str "rank0"] := by
  obtain ⟨w, hw⟩ := labels_ok
  have hreach : Reachable (fun _ _ => 0) w := ⟨_, _, _, _, _, w, [], hw, rfl⟩
  have hrun : (labels.toOption.map fun w =>
      ((w.tryPushRow (fun _ _ => 0) false [.Str "rank0"]).1, w.dedup.isNone)) =
          some (.Written, true) := by
    decide +kernel
  rw [hw] at hrun
  obtain ⟨houtcome, hplain⟩ := Prod.mk.inj (Option.some.inj hrun)
  have hpush : w.tryPushRow (fun _ _ => 0) false [.Str "rank0"] =
      (.Written, (w.tryPushRow (fun _ _ => 0) false [.Str "rank0"]).2) := Prod.ext houtcome rfl
  obtain ⟨r, hr, hread⟩ := read_back_iff hreach hpush
  refine ⟨w, _, hw, hpush, r, hr, (hread _ ⟨rfl, rfl⟩).1 ?_⟩
  have hholder : (w.holder (fun _ _ => 0) [.Str "rank0"]).dedup = none := by
    unfold holder
    split_ifs
    · exact Option.isNone_iff_eq_none.mp hplain
    · exact congrArg (Option.map _) (Option.isNone_iff_eq_none.mp hplain)
  intro f hf data hdata
  obtain ⟨i, hi⟩ := mem_fields hf
  rw [lookup_plain hholder] at hi
  obtain ⟨j, hj, rfl⟩ := List.mem_mapIdx.mp hf
  obtain rfl : j = 0 := Nat.lt_one_iff.mp hj
  rw [← hi]
  obtain rfl := Option.some.inj hdata
  decide

/-- A table with a chunk of more than 2 GiB. -/
def blobs (buf : Bytes) : Except String MemTableWriter :=
  init buf [("blob", .Bytes)] (UInt32.ofNat (64 + 2 ^ 31)) 1 false

theorem blobs_ok {buf : Bytes} (hbuf : buf.length = 512 + 2 ^ 31) :
    ∃ w, blobs buf = .ok w ∧ w.dedup = none ∧ w.table.dtypes = [.Bytes] ∧
    w.table.chunkSize = 64 + 2 ^ 31 ∧ w.table.current.used = 0 := by
  unfold blobs init initBuf
  dsimp only
  rw [hbuf, if_neg (by decide), if_neg (by decide), if_neg (by decide), if_neg (by decide),
    if_neg (by decide), if_neg (by decide)]
  exact ⟨_, rfl, rfl, rfl, rfl, rfl⟩

/-- A byte string of 2 GiB is written, and is not read back. -/
theorem blob_lost {buf data : Bytes} (hbuf : buf.length = 512 + 2 ^ 31)
    (hdata : data.length = 2 ^ 31) :
    ∃ w w', blobs buf = .ok w ∧ w.tryPushRow (fun _ _ => 0) false [.Bytes data] = (.Written, w') ∧
      ∃ r, (w'.table.rows w'.table.writeChunk).getLast? = some r ∧
        ¬ ReadsBack { r with payload := w'.table.current.payload } [.Bytes data] := by
  obtain ⟨w, hw, hplain, hdtypes, hsize, hused⟩ := blobs_ok hbuf
  have hsound := init_sound hw
  have hfields : w.fields (fun _ _ => 0) [.Bytes data] = [(.Bytes data, none)] :=
    congrArg (fun dup => [(Value.Bytes data, dup)]) (lookup_plain hplain 0 (.Bytes data))
  have hschema : w.table.validateRowSchema [.Bytes data] = true := by
    unfold Table.validateRowSchema
    rw [hdtypes]
    exact decide_eq_true rfl
  have hfits : w.fits (fun _ _ => 0) [.Bytes data] = true := by
    unfold MemTableWriter.fits
    have hlen : (fieldsData [(Value.Bytes data, none)]).length = 4 + 2 ^ 31 := by
      rw [fieldsData_cons, fieldsData_nil, List.append_nil, ← hdata]
      change (Value.encode (.Bytes data)).length = 4 + data.length
      exact Value.encode_length _
    rw [hfields, hlen, Table.hasRoom_iff, hused, hsize]
    unfold chunkHeaderSize
    omega
  have hpush : w.tryPushRow (fun _ _ => 0) false [.Bytes data] =
      (.Written, w.stored (fun _ _ => 0) [.Bytes data]) := by
    have happend : w.append (fun _ _ => 0) [.Bytes data] =
        some (w.stored (fun _ _ => 0) [.Bytes data]) := by
      rw [append_eq, if_pos ⟨fun _ => Nat.le_of_ble_eq_true rfl, hfits⟩]
    unfold tryPushRow tryPushInner
    rw [if_pos hschema, happend]
  obtain ⟨r, hr, hread⟩ := hsound.read_back hfits hschema
  refine ⟨w, _, hw, hpush, r, hr, fun hreads => ?_⟩
  have hlegible := (hread _ ⟨rfl, rfl⟩).2
  rw [hfields] at hlegible
  have hnotempty : ∀ f ∈ [(Value.Bytes data, (none : Option ℕ))], f.1 = .Str "" → Legible f := by
    intro f hf hempty
    rw [List.mem_singleton.mp hf] at hempty
    cases hempty
  have hshort : data.length < 2 ^ 31 := hlegible hnotempty hreads _ List.mem_cons_self data rfl
  omega

theorem read_back_fails : ∃ w w', blobs (List.replicate (512 + 2 ^ 31) 0) = .ok w ∧
    w.tryPushRow (fun _ _ => 0) false [.Bytes (List.replicate (2 ^ 31) 0)] = (.Written, w') ∧
      ∃ r, (w'.table.rows w'.table.writeChunk).getLast? = some r ∧
        ¬ ReadsBack { r with payload := w'.table.current.payload }
          [.Bytes (List.replicate (2 ^ 31) 0)] :=
  blob_lost List.length_replicate List.length_replicate

end MemTableWriter

end Probing.Memt
