import Mathlib.Data.List.Forall2
import Probing.Memt.Row

/-!
# Stored rows

A row is stored as one field for each value: the value itself, or a reference to a
text or byte string among the published bytes of the chunk. Both readers return the
stored values, whatever is published later.
-/

namespace Probing.Memt

open Probing.Core

/-- The stored form of a value, among published bytes. -/
inductive FieldReads (published : Bytes) : Bytes → Value → Prop
  | inline {v : Value} (hlen : ∀ data, v.varlen = some data → data.length < 2 ^ 31) :
      FieldReads published v.encode v
  | reference {v : Value} {data : Bytes} {off : ℕ} (hv : v.varlen = some data)
      (hlen : data.length < 2 ^ 32) (hlow : chunkHeaderSize ≤ off) (hhigh : off < 2 ^ 31)
      (hend : off - chunkHeaderSize + (4 + data.length) ≤ published.length)
      (hdata : slice published (off - chunkHeaderSize) (4 + data.length) =
        Value.encodeVarlen data) :
      FieldReads published (le (-(Int32.ofNat off))) v

def RowReads (published data : Bytes) (values : List Value) : Prop :=
  ∃ fields, data = fields.flatten ∧ List.Forall₂ (FieldReads published) fields values

section Fields

variable {published payload b pre post : Bytes} {v : Value} {values : List Value}

theorem FieldReads.mono (h : FieldReads published b v) (more : Bytes) :
    FieldReads (published ++ more) b v := by
  cases h with
  | inline hlen => exact .inline hlen
  | reference hv hlen hlow hhigh hend hdata =>
      refine .reference hv hlen hlow hhigh ?_ ?_
      · rw [List.length_append]
        omega
      · rw [slice_append_left hend, hdata]

theorem RowReads.mono {data : Bytes} (h : RowReads published data values) (more : Bytes) :
    RowReads (published ++ more) data values := by
  obtain ⟨fields, hdata, hfields⟩ := h
  exact ⟨fields, hdata, hfields.imp fun _ _ hfield => hfield.mono more⟩

theorem encode_of_varlen {data : Bytes} (hv : v.varlen = some data) :
    v.encode = Value.encodeVarlen data := by
  cases v with
  | Str s => rw [← Option.some.inj hv]; rfl
  | Bytes bs => rw [← Option.some.inj hv]; rfl
  | U8 | U32 | I32 | I64 | F32 | F64 | U64 => cases hv

theorem fixedSize_of_varlen {data : Bytes} (hv : v.varlen = some data) :
    v.dtype.fixedSize = none := by
  cases v with
  | Str | Bytes => rfl
  | U8 | U32 | I32 | I64 | F32 | F64 | U64 => cases hv

theorem fixedSize_of_varlen_none (hv : v.varlen = none) :
    v.dtype.fixedSize = some v.encode.length := by
  cases v with
  | Str | Bytes => cases hv
  | U8 | U32 | I32 | I64 | F32 | F64 | U64 => simp [Value.dtype, DType.fixedSize, Value.encodedSize]

/-- A length below 2 GiB is read back from its prefix. -/
theorem le_length_field (n : ℕ) : le (UInt32.ofNat n) = le (Int32.ofNat n) := rfl

theorem toInt_reference {off : ℕ} (hhigh : off < 2 ^ 31) : (-(Int32.ofNat off)).toInt = -off := by
  rw [Int32.neg_ofNat, Int32.toInt_ofInt_of_le (by omega) (by omega)]

theorem reference_neg {off : ℕ} (hlow : 0 < off) (hhigh : off < 2 ^ 31) :
    -(Int32.ofNat off) < 0 := by
  rw [Int32.lt_iff_toInt_lt, toInt_reference hhigh]
  change -(off : ℤ) < 0
  omega

theorem refDelta_reference {off : ℕ} (hhigh : off < 2 ^ 31) :
    refDelta (-(Int32.ofNat off)) = some off := by
  have hmin : Int32.minValue.toInt = -2 ^ 31 := by decide
  have hoff := toInt_reference hhigh
  unfold refDelta
  rw [if_neg, hoff, neg_neg, Int.toNat_natCast]
  intro heq
  rw [heq, hmin] at hoff
  omega

theorem length_not_neg {n : ℕ} (h : n < 2 ^ 31) : ¬ Int32.ofNat n < 0 := by
  rw [Int32.lt_iff_toInt_lt, Int32.toInt_ofNat_of_lt h]
  change ¬ (n : ℤ) < 0
  omega

theorem tryRead_append {α : Type} [LeWord α] (pre : Bytes) (x : α) (post : Bytes) :
    tryRead α (pre ++ (le x ++ post)) pre.length = some x := by
  unfold tryRead
  have hlen : pre.length + LeWord.width α ≤ (pre ++ (le x ++ post)).length := by
    rw [List.length_append, List.length_append, le_length]
    omega
  rw [if_pos hlen]
  have hget := getLe_length_add (α := α) pre (le x ++ post) 0
  rw [Nat.add_zero] at hget
  rw [hget, getLe_le_append]

/-- A text stored in the payload is found by its offset. -/
theorem referenced_of_slice {data : Bytes} {off : ℕ} (hlow : chunkHeaderSize ≤ off)
    (hlen : data.length < 2 ^ 32)
    (hend : off - chunkHeaderSize + (4 + data.length) ≤ payload.length)
    (hdata : slice payload (off - chunkHeaderSize) (4 + data.length) = Value.encodeVarlen data) :
    referenced payload off = some data := by
  rw [slice_add] at hdata
  unfold Value.encodeVarlen at hdata
  have hfirst : (slice payload (off - chunkHeaderSize) 4).length =
      (le (UInt32.ofNat data.length)).length := by
    rw [slice_length, le_length_u32]
    omega
  obtain ⟨hsize, hbody⟩ := List.append_inj hdata hfirst
  have hget : getLe UInt32 payload (off - chunkHeaderSize) = UInt32.ofNat data.length :=
    getLe_of_slice hsize
  have hnat : (UInt32.ofNat data.length).toNat = data.length := UInt32.toNat_ofNat_of_lt' (by
    change data.length < 2 ^ 32
    omega)
  unfold referenced
  dsimp only
  rw [hget, hnat, if_neg (by omega), if_neg (by omega), hbody]

section Stored

variable {rest : Bytes}

theorem var_field_size_of_reads (h : FieldReads published b v) {data : Bytes}
    (hv : v.varlen = some data) :
    tryVarFieldSize (pre ++ (b ++ post)) pre.length = some b.length := by
  unfold tryVarFieldSize
  cases h with
  | inline hlen =>
      rw [encode_of_varlen hv]
      have hshort := hlen data hv
      unfold Value.encodeVarlen
      rw [le_length_field, List.append_assoc, tryRead_append, Option.map_some,
        if_neg (length_not_neg hshort), Int32.toInt_ofNat_of_lt hshort, Int.toNat_natCast,
        List.length_append, le_length_i32]
  | @reference _ data' off hv' hlen hlow hhigh hend hdata =>
      have hpos : 0 < off := Nat.lt_of_lt_of_le (by decide) hlow
      rw [tryRead_append, Option.map_some, if_pos (reference_neg hpos hhigh), le_length_i32]

theorem resolve_of_reads (h : FieldReads published b v) {data : Bytes} (hv : v.varlen = some data) :
    tryResolveVar (pre ++ (b ++ post)) pre.length (published ++ rest) = some data := by
  unfold tryResolveVar
  cases h with
  | inline hlen =>
      rw [encode_of_varlen hv]
      have hshort := hlen data hv
      unfold Value.encodeVarlen
      rw [le_length_field, List.append_assoc, tryRead_append, Option.bind_some,
        if_neg (length_not_neg hshort), Int32.toInt_ofNat_of_lt hshort, Int.toNat_natCast]
      have hwhole : (pre ++ (le (Int32.ofNat data.length) ++ (data ++ post))).length =
          pre.length + 4 + data.length + post.length := by
        simp only [List.length_append, le_length_i32]
        omega
      dsimp only
      rw [if_pos (by rw [hwhole]; omega), slice_length_add,
        ← le_length_i32 (Int32.ofNat data.length),
        ← Nat.add_zero (le (Int32.ofNat data.length)).length, slice_length_add,
        slice_zero_append rfl]
  | @reference _ data' off hv' hlen hlow hhigh hend hdata =>
      obtain rfl := Option.some.inj (hv.symm.trans hv')
      have hpos : 0 < off := Nat.lt_of_lt_of_le (by decide) hlow
      rw [tryRead_append, Option.bind_some, if_pos (reference_neg hpos hhigh),
        refDelta_reference hhigh, Option.bind_some]
      apply referenced_of_slice hlow hlen
      · rw [List.length_append]
        omega
      · rw [slice_append_left hend, hdata]

/-- A value that is not a text is stored as itself. -/
theorem encode_of_reads (h : FieldReads published b v) (hv : v.varlen = none) : b = v.encode := by
  cases h with
  | inline => rfl
  | reference hv' => rw [hv] at hv'; cases hv'

theorem skipCol_of_reads (h : FieldReads published b v) (dtypes : List DType) :
    Row.skipCol ⟨dtypes, pre ++ (b ++ post), payload⟩ pre.length v.dtype =
      some (pre.length + b.length) := by
  unfold Row.skipCol
  cases hv : v.varlen with
  | none => rw [fixedSize_of_varlen_none hv, encode_of_reads h hv]
  | some data =>
      rw [fixedSize_of_varlen hv]
      dsimp only
      rw [var_field_size_of_reads h hv, Option.map_some]

/-- The columns of a row are walked over field by field. -/
theorem skip_cols_of_reads {fields : List Bytes}
    (h : List.Forall₂ (FieldReads published) fields values) (dtypes : List DType) (pre : Bytes) :
    (values.map Value.dtype).foldlM (Row.skipCol ⟨dtypes, pre ++ (fields.flatten ++ post), payload⟩)
      pre.length = some (pre.length + fields.flatten.length) := by
  induction h generalizing pre with
  | nil => simp
  | @cons field v fields values hfield hrest ih =>
      have hthere : pre ++ ((field :: fields).flatten ++ post) =
          pre ++ (field ++ (fields.flatten ++ post)) := by
        rw [List.flatten_cons, List.append_assoc]
      have hthen : pre ++ (field ++ (fields.flatten ++ post)) =
          (pre ++ field) ++ (fields.flatten ++ post) := by
        rw [List.append_assoc]
      have hskip : Row.skipCol ⟨dtypes, pre ++ (field ++ (fields.flatten ++ post)), payload⟩
          pre.length v.dtype = some (pre.length + field.length) := skipCol_of_reads hfield dtypes
      rw [List.map_cons, List.foldlM_cons, hthere, hskip, Option.bind_eq_bind,
        Option.bind_some, hthen]
      have hnext := ih (pre ++ field)
      rw [List.length_append] at hnext
      rw [hnext, List.flatten_cons, List.length_append, Nat.add_assoc]

end Stored

end Fields

section Rows

/-- `unwrap_or("")` gives back every text, the empty one included. -/
theorem text_utf8 (s : String) : Row.text (utf8 s) = s := by
  unfold Row.text
  split_ifs with hempty
  · have hs := fromUtf8_utf8 s
    rw [hempty] at hs
    have hnil := fromUtf8_utf8 ""
    exact Option.some.inj (hnil.symm.trans hs)
  · rw [fromUtf8_utf8, Option.getD_some]

variable {published rest data : Bytes} {values : List Value}

/-- The fields around one column. -/
theorem split_fields {fields : List Bytes} (h : List.Forall₂ (FieldReads published) fields values)
    {i : ℕ} {v : Value} (hv : values[i]? = some v) :
    ∃ b post, fields.flatten = (fields.take i).flatten ++ (b ++ post) ∧
    FieldReads published b v := by
  induction h generalizing i with
  | nil => cases hv
  | @cons field w fields values hfield hrest ih =>
      cases i with
      | zero =>
          obtain rfl := Option.some.inj hv
          exact ⟨field, fields.flatten, rfl, hfield⟩
      | succ i =>
          obtain ⟨b, post, hflat, hb⟩ := ih hv
          refine ⟨b, post, ?_, hb⟩
          rw [List.take_succ_cons, List.flatten_cons, List.flatten_cons, hflat, List.append_assoc]

theorem col_offset_of_reads {fields : List Bytes}
    (h : List.Forall₂ (FieldReads published) fields values)
    (payload : Bytes) {i : ℕ} (hi : i < values.length) :
    Row.tryColOffset ⟨values.map Value.dtype, fields.flatten, payload⟩ i =
      some (fields.take i).flatten.length := by
  unfold Row.tryColOffset
  rw [if_neg (by simpa using hi), ← List.map_take]
  have hsplit : fields.flatten = [] ++ ((fields.take i).flatten ++ (fields.drop i).flatten) := by
    rw [List.nil_append, ← List.flatten_append, List.take_append_drop]
  have hwalk : ((values.take i).map Value.dtype).foldlM (Row.skipCol ⟨values.map Value.dtype,
      [] ++ ((fields.take i).flatten ++ (fields.drop i).flatten), payload⟩) 0 =
        some (0 + (fields.take i).flatten.length) :=
    skip_cols_of_reads (List.forall₂_take i h) (values.map Value.dtype) []
  rw [← hsplit] at hwalk
  simpa using hwalk

/-- Every column of a stored row reads as the stored value. -/
theorem RowReads.col_eq (h : RowReads published data values) {i : ℕ} {v : Value}
    (hv : values[i]? = some v) :
    Row.col ⟨values.map Value.dtype, data, published ++ rest⟩ v.dtype i = v := by
  obtain ⟨fields, rfl, hfields⟩ := h
  obtain ⟨b, post, hflat, hb⟩ := split_fields hfields hv
  have hi : i < values.length := (List.getElem?_eq_some_iff.mp hv).1
  have hoffset := col_offset_of_reads hfields (published ++ rest) hi
  have hfixed {α : Type} [LeWord α] (x : α) (hx : b = le x) :
      Row.colFixed ⟨values.map Value.dtype, fields.flatten, published ++ rest⟩ α i = x := by
    unfold Row.colFixed
    rw [hoffset, Option.bind_some, hflat, hx, tryRead_append, Option.getD_some]
  have hvar {text : Bytes} (htext : v.varlen = some text) :
      Row.tryResolveVarCol ⟨values.map Value.dtype, fields.flatten, published ++ rest⟩ i =
        some text := by
    unfold Row.tryResolveVarCol
    rw [hoffset, Option.bind_some, hflat, resolve_of_reads hb htext]
  cases v with
  | U8 x => exact congrArg Value.U8 (hfixed x (encode_of_reads hb rfl))
  | U32 x => exact congrArg Value.U32 (hfixed x (encode_of_reads hb rfl))
  | I32 x => exact congrArg Value.I32 (hfixed x (encode_of_reads hb rfl))
  | I64 x => exact congrArg Value.I64 (hfixed x (encode_of_reads hb rfl))
  | F32 x => exact congrArg Value.F32 (hfixed x (encode_of_reads hb rfl))
  | F64 x => exact congrArg Value.F64 (hfixed x (encode_of_reads hb rfl))
  | U64 x => exact congrArg Value.U64 (hfixed x (encode_of_reads hb rfl))
  | Str s =>
      change Value.Str (Row.colStr _ _) = Value.Str s
      unfold Row.colStr
      rw [hvar rfl, Option.map_some, Option.getD_some, text_utf8]
  | Bytes bs =>
      change Value.Bytes (Row.colBytes _ _) = Value.Bytes bs
      unfold Row.colBytes
      rw [hvar rfl, Option.getD_some]

section Cursor

variable {pre b post payload : Bytes} {v : Value}

theorem readFixed_append {α : Type} [LeWord α] (x : α) :
    RowCursor.readFixed ⟨pre ++ (le x ++ post), pre.length, payload, false⟩ α =
      (x, ⟨pre ++ (le x ++ post), pre.length + LeWord.width α, payload, false⟩) := by
  unfold RowCursor.readFixed
  simp only [Bool.false_eq_true, if_false]
  rw [tryRead_append]

theorem readLp_of_reads (h : FieldReads published b v) {text : Bytes} (hv : v.varlen = some text) :
    RowCursor.readLp ⟨pre ++ (b ++ post), pre.length, published ++ rest, false⟩ =
      (text, ⟨pre ++ (b ++ post), pre.length + b.length, published ++ rest, false⟩) := by
  unfold RowCursor.readLp
  cases h with
  | inline hlen =>
      rw [encode_of_varlen hv]
      have hshort := hlen text hv
      unfold Value.encodeVarlen
      rw [le_length_field, List.append_assoc]
      simp only [Bool.false_eq_true, if_false, readFixed_append, if_neg (length_not_neg hshort),
        Int32.toInt_ofNat_of_lt hshort, Int.toNat_natCast]
      have hwidth : LeWord.width Int32 = 4 := rfl
      have hwhole : (pre ++ (le (Int32.ofNat text.length) ++ (text ++ post))).length =
          pre.length + 4 + text.length + post.length := by
        simp only [List.length_append, le_length_i32]
        omega
      have hslice :
        slice (pre ++ (le (Int32.ofNat text.length) ++ (text ++ post))) (pre.length + 4) text.length
          = text := by
        rw [slice_length_add, ← le_length_i32 (Int32.ofNat text.length),
          ← Nat.add_zero (le (Int32.ofNat text.length)).length, slice_length_add,
          slice_zero_append rfl]
      rw [hwidth, if_pos (by rw [hwhole]; omega), hslice, List.length_append,
        le_length_i32, Nat.add_assoc]
  | @reference _ data' off hv' hlen hlow hhigh hend hdata =>
      obtain rfl := Option.some.inj (hv.symm.trans hv')
      have hpos : 0 < off := Nat.lt_of_lt_of_le (by decide) hlow
      have hfound : referenced (published ++ rest) off = some text := by
        apply referenced_of_slice hlow hlen
        · rw [List.length_append]
          omega
        · rw [slice_append_left hend, hdata]
      simp only [Bool.false_eq_true, if_false, readFixed_append, if_pos (reference_neg hpos hhigh),
        refDelta_reference hhigh, Option.bind_some, hfound, le_length_i32]
      rfl

theorem next_of_reads (h : FieldReads published b v) :
    RowCursor.next ⟨pre ++ (b ++ post), pre.length, published ++ rest, false⟩ v.dtype =
      (v, ⟨pre ++ (b ++ post), pre.length + b.length, published ++ rest, false⟩) := by
  have hfixed {α : Type} [LeWord α] (x : α) (hx : b = le x) :
      RowCursor.readFixed ⟨pre ++ (b ++ post), pre.length, published ++ rest, false⟩ α =
        (x, ⟨pre ++ (b ++ post), pre.length + b.length, published ++ rest, false⟩) := by
    rw [hx, readFixed_append, le_length]
  cases v with
  | U8 x | U32 x | I32 x | I64 x | F32 x | F64 x | U64 x =>
      simp only [Value.dtype, RowCursor.next, hfixed x (encode_of_reads h rfl)]
  | Str s => simp only [Value.dtype, RowCursor.next, readLp_of_reads h rfl, text_utf8]
  | Bytes bs => simp only [Value.dtype, RowCursor.next, readLp_of_reads h rfl]

theorem readRow_of_reads {fields : List Bytes}
    (h : List.Forall₂ (FieldReads published) fields values)
    (pre : Bytes) : RowCursor.readRow ⟨pre ++ fields.flatten, pre.length, published ++ rest, false⟩
      (values.map Value.dtype) = values := by
  induction h generalizing pre with
  | nil => rfl
  | @cons field v fields values hfield hrest ih =>
      have hthen := ih (pre ++ field)
      rw [List.length_append, List.append_assoc] at hthen
      rw [List.map_cons, List.flatten_cons, RowCursor.readRow, next_of_reads hfield, hthen]

/-- A cursor yields the stored values in order. -/
theorem RowReads.cursor_eq (h : RowReads published data values) (dtypes : List DType) :
    (Row.cursor ⟨dtypes, data, published ++ rest⟩).readRow (values.map Value.dtype) = values := by
  obtain ⟨fields, rfl, hfields⟩ := h
  exact readRow_of_reads hfields []

end Cursor

end Rows

end Probing.Memt
