import Mathlib.Data.List.Nodup
import Probing.Core.SideBySide
import Probing.Proto.Merge

/-!
# Columns on the wire

The rows of a remote node travel as protocol sequences, which have neither nulls nor most
column types, and are aligned to the schema of the query when they arrive.
-/

namespace Probing.Federation

open Probing.Core
open Probing.Proto (Seq DataFrame)

inductive TimeUnit where
  | Second
  | Millisecond
  | Microsecond
  | Nanosecond
  deriving DecidableEq

/-- Column types; the conversions know nothing of an `Other` one. -/
inductive DataType where
  | Int8
  | Int16
  | Int32
  | Int64
  | UInt8
  | UInt16
  | UInt32
  | UInt64
  | Float32
  | Float64
  | Utf8
  | LargeUtf8
  | Binary
  | Boolean
  | Timestamp (unit : TimeUnit) (timezone : Option String)
  | Other (name : String)
  deriving DecidableEq

/-- Elements of a column; a float is its bit pattern. -/
abbrev Elem : DataType → Type
  | .Int8 => Int8
  | .Int16 => Int16
  | .Int32 => Int32
  | .Int64 => Int64
  | .UInt8 => UInt8
  | .UInt16 => UInt16
  | .UInt32 => UInt32
  | .UInt64 => UInt64
  | .Float32 => UInt32
  | .Float64 => UInt64
  | .Utf8 => String
  | .LargeUtf8 => String
  | .Binary => List UInt8
  | .Boolean => Bool
  | .Timestamp _ _ => Int64
  | .Other _ => List UInt8

/-- A place in the buffer of a column; a null has a value too, which nobody should read. -/
structure Slot (α : Type) where
  value : α
  valid : Bool

structure ArrayRef where
  dtype : DataType
  slots : List (Slot (Elem dtype))

namespace ArrayRef

variable (a : ArrayRef)

def len : ℕ := a.slots.length

/-- The elements of the rows, and which of them are null. -/
def rows : List (Option (Elem a.dtype)) :=
  a.slots.map fun s => if s.valid then some s.value else none

/-- What a query sees of a column. -/
def logical : (dtype : DataType) × List (Option (Elem dtype)) := ⟨a.dtype, a.rows⟩

end ArrayRef

structure Field where
  name : String
  dataType : DataType
  nullable : Bool
  deriving DecidableEq

/-- A batch of a scan is well-formed, and no two of its columns have the same name. -/
structure RecordBatch where
  fields : List Field
  columns : List ArrayRef

namespace RecordBatch

variable (b : RecordBatch)

def numRows : ℕ := (b.columns.head?.map ArrayRef.len).getD 0

/-- Columns fit their fields, and there is one at least. -/
structure WellFormed (b : RecordBatch) : Prop where
  types : b.columns.map ArrayRef.dtype = b.fields.map Field.dataType
  heights : ∀ c ∈ b.columns, c.len = b.numRows
  nulls : ∀ (i : ℕ) (f : Field) (c : ArrayRef), b.fields[i]? = some f → b.columns[i]? = some c →
    f.nullable = false → ∀ s ∈ c.slots, s.valid = true

end RecordBatch

/-- `RecordBatch::try_new`, which takes one column or more that make a well-formed batch. -/
structure Arrow where
  tryNew : List Field → List ArrayRef → Option RecordBatch
  try_new_ok : ∀ fields columns, columns ≠ [] → RecordBatch.WellFormed ⟨fields, columns⟩ →
    tryNew fields columns = some ⟨fields, columns⟩
  try_new_error : ∀ fields columns, columns = [] ∨ ¬ RecordBatch.WellFormed ⟨fields, columns⟩ →
    tryNew fields columns = none

def arrowArrayToSeq : ArrayRef → Seq
  | ⟨.Int32, slots⟩ => .SeqI32 (slots.map Slot.value)
  | ⟨.Int64, slots⟩ => .SeqI64 (slots.map Slot.value)
  | ⟨.Float32, slots⟩ => .SeqF32 (slots.map Slot.value)
  | ⟨.Float64, slots⟩ => .SeqF64 (slots.map Slot.value)
  | ⟨.Utf8, slots⟩ => .SeqText (slots.map Slot.value)
  | ⟨.Boolean, slots⟩ => .SeqBOOL (slots.map Slot.value)
  | ⟨.Timestamp _ _, slots⟩ => .SeqI64 (slots.map Slot.value)
  | _ => .Nil

/-- An array without nulls. -/
def filled (dtype : DataType) (values : List (Elem dtype)) : ArrayRef :=
  ⟨dtype, values.map (⟨·, true⟩)⟩

def seqToArray : Seq → ArrayRef
  | .SeqI32 values => filled .Int32 values
  | .SeqI64 values => filled .Int64 values
  | .SeqF32 values => filled .Float32 values
  | .SeqF64 values => filled .Float64 values
  | .SeqText values => filled .Utf8 values
  | .SeqBOOL values => filled .Boolean values
  | .SeqDateTime values => filled .Int64 (values.map UInt64.toInt64)
  | .Nil => filled .Utf8 []

def arrayDataType : Seq → DataType
  | .SeqI32 _ => .Int32
  | .SeqI64 _ | .SeqDateTime _ => .Int64
  | .SeqF32 _ => .Float32
  | .SeqF64 _ => .Float64
  | .SeqText _ | .Nil => .Utf8
  | .SeqBOOL _ => .Boolean

/-- A column of nulls. -/
def nulls (dtype : DataType) (default : Elem dtype) (rows : ℕ) : ArrayRef :=
  ⟨dtype, List.replicate rows ⟨default, false⟩⟩

/-- `none` for an unsupported type. -/
def emptyArrayForField (field : Field) (rows : ℕ) : Option ArrayRef :=
  match field.dataType with
  | .Int8 => some (nulls .Int8 (0 : Int8) rows)
  | .Int16 => some (nulls .Int16 (0 : Int16) rows)
  | .Int32 => some (nulls .Int32 (0 : Int32) rows)
  | .Int64 => some (nulls .Int64 (0 : Int64) rows)
  | .UInt8 => some (nulls .UInt8 (0 : UInt8) rows)
  | .UInt16 => some (nulls .UInt16 (0 : UInt16) rows)
  | .UInt32 => some (nulls .UInt32 (0 : UInt32) rows)
  | .UInt64 => some (nulls .UInt64 (0 : UInt64) rows)
  | .Float32 => some (nulls .Float32 (0 : UInt32) rows)
  | .Float64 => some (nulls .Float64 (0 : UInt64) rows)
  | .Utf8 | .LargeUtf8 => some (nulls .Utf8 "" rows)
  | .Boolean => some (nulls .Boolean false rows)
  | .Timestamp unit _ => some (nulls (.Timestamp unit none) (0 : Int64) rows)
  | .Binary | .Other _ => none

section Arrive

variable (arrow : Arrow)

def protoDataframeToRecordBatch (df : DataFrame) : Option RecordBatch :=
  if df.isEmpty then some ⟨[], []⟩
  else
    let pairs := df.names.zip df.cols
    arrow.tryNew (pairs.map fun p => ⟨p.1, arrayDataType p.2, true⟩)
      (pairs.map fun p => seqToArray p.2)

/-- The column of a field, or nulls where the batch has none of its type. -/
def alignedColumn (batch : RecordBatch) (field : Field) : Option ArrayRef :=
  match (batch.fields.findIdx? (·.name = field.name)).bind fun (idx : ℕ) => batch.columns[idx]? with
  | some existing =>
      if existing.dtype = field.dataType then some existing
      else emptyArrayForField field batch.numRows
  | none => emptyArrayForField field batch.numRows

def alignBatchToSchema (batch : RecordBatch) (schema : List Field) : Option RecordBatch :=
  if batch.fields = schema then some batch
  else (schema.mapM (alignedColumn batch)).bind (arrow.tryNew schema)

/-- The dataframe that a node sends for a batch. -/
def sent (batch : RecordBatch) : DataFrame :=
  ⟨batch.fields.map Field.name, batch.columns.map arrowArrayToSeq, 0⟩

/-- The batch as it arrives at a coordinator with the same table schema. -/
def transport (batch : RecordBatch) : Option RecordBatch :=
  (protoDataframeToRecordBatch arrow (sent batch)).bind (alignBatchToSchema arrow · batch.fields)

end Arrive

/-- A type that is sent as itself. -/
def Sent : DataType → Prop
  | .Int32 | .Int64 | .Float32 | .Float64 | .Utf8 | .Boolean => True
  | _ => False

/-- A type of which empty columns are made. -/
def Fillable : DataType → Prop
  | .LargeUtf8 | .Binary | .Other _ | .Timestamp _ (some _) => False
  | _ => True

/-- The column arrives as it was sent: it has no nulls, or it is a timestamp with nothing
but nulls. -/
def Preserved (c : ArrayRef) : Prop :=
  (Sent c.dtype ∧ ∀ s ∈ c.slots, s.valid = true) ∨
    ∃ unit, c.dtype = .Timestamp unit none ∧ ∀ s ∈ c.slots, s.valid = false

/-- An empty batch is not sent at all and is made up of empty columns. -/
def Transportable (batch : RecordBatch) : Prop :=
  if batch.numRows = 0 then ∀ f ∈ batch.fields, Fillable f.dataType
  else ∀ c ∈ batch.columns, Preserved c

section Column

/-- The type has a sequence. -/
def Travels : DataType → Prop
  | .Timestamp _ _ => True
  | d => Sent d

instance : DecidablePred Sent := fun d => by
  unfold Sent
  split <;> infer_instance

instance : DecidablePred Travels := fun d => by
  unfold Travels
  split <;> infer_instance

variable {c : ArrayRef}

theorem seq_len (c : ArrayRef) : (arrowArrayToSeq c).len = if Travels c.dtype then
  c.len else 0 := by
  obtain ⟨dtype, slots⟩ := c
  cases dtype <;> simp [arrowArrayToSeq, Seq.len, Travels, Sent, ArrayRef.len]

theorem seqToArray_len (s : Seq) : (seqToArray s).len = s.len := by
  cases s <;> simp [seqToArray, filled, ArrayRef.len, Seq.len]

theorem seqToArray_dtype (s : Seq) : (seqToArray s).dtype = arrayDataType s := by
  cases s <;> rfl

theorem filled_valid (dtype : DataType) (values : List (Elem dtype)) :
    ∀ slot ∈ (filled dtype values).slots, slot.valid = true := by
  intro slot hslot
  obtain ⟨x, -, rfl⟩ := List.mem_map.mp hslot
  rfl

theorem seqToArray_valid (s : Seq) : ∀ slot ∈ (seqToArray s).slots, slot.valid = true := by
  cases s <;> exact filled_valid _ _

/-- A column of its own type arrives without its nulls. -/
theorem sent_logical (h : Sent c.dtype) :
    (seqToArray (arrowArrayToSeq c)).logical = ⟨c.dtype, c.slots.map fun s => some s.value⟩ := by
  obtain ⟨dtype, slots⟩ := c
  cases dtype <;> first
    | exact absurd h id
    | simp [arrowArrayToSeq, seqToArray, filled, ArrayRef.logical, ArrayRef.rows]

theorem arrayDataType_sent (h : Sent c.dtype) : arrayDataType (arrowArrayToSeq c) = c.dtype := by
  obtain ⟨dtype, slots⟩ := c
  cases dtype <;> first
    | exact absurd h id
    | rfl

/-- Only columns of a type that is sent as itself keep their type. -/
theorem sent_of_arrayDataType (htravel : Travels c.dtype)
    (h : arrayDataType (arrowArrayToSeq c) = c.dtype) : Sent c.dtype := by
  obtain ⟨dtype, slots⟩ := c
  cases dtype <;> first
    | exact trivial
    | exact htravel
    | exact absurd h nofun

/-- What arrives of a column. -/
def arrivedColumn (rows : ℕ) (f : Field) (c : ArrayRef) : Option ArrayRef :=
  if arrayDataType (arrowArrayToSeq c) = f.dataType then some (seqToArray (arrowArrayToSeq c))
  else emptyArrayForField f rows

theorem all_valid_iff {α : Type} (slots : List (Slot α)) :
    (slots.map fun s => some s.value) = slots.map
    (fun s => if s.valid then some s.value else none) ↔
      ∀ s ∈ slots, s.valid = true := by
  rw [List.map_inj_left]
  constructor
  · intro h s hs
    by_contra hnot
    have hsome := h s hs
    rw [if_neg hnot] at hsome
    cases hsome
  · intro h s hs
    rw [if_pos (h s hs)]

theorem all_null_iff {α : Type} (slots : List (Slot α)) :
    List.replicate slots.length none = slots.map (fun s => if s.valid then some s.value else none) ↔
      ∀ s ∈ slots, s.valid = false := by
  have hconst : List.replicate slots.length (none : Option α) = slots.map fun _ => none := by simp
  rw [hconst, List.map_inj_left]
  constructor
  · intro h s hs
    by_contra hnot
    have hnone := h s hs
    rw [if_pos (by simpa using hnot)] at hnone
    cases hnone
  · intro h s hs
    rw [if_neg (by simp [h s hs])]

/-- A column arrives as it was sent exactly when it is preserved. -/
theorem arrived_logical_iff {f : Field} (htype : c.dtype = f.dataType) (htravel : Travels c.dtype) :
    (∃ r, arrivedColumn c.len f c = some r ∧ r.logical = c.logical) ↔ Preserved c := by
  unfold arrivedColumn
  rw [← htype]
  by_cases hsent : Sent c.dtype
  · rw [if_pos (arrayDataType_sent hsent)]
    have hlogical := sent_logical hsent
    have hvalid : (seqToArray (arrowArrayToSeq c)).logical = c.logical ↔
        ∀ s ∈ c.slots, s.valid = true := by
      rw [hlogical]
      unfold ArrayRef.logical ArrayRef.rows
      rw [Sigma.mk.injEq, heq_eq_eq, and_iff_right rfl]
      exact all_valid_iff c.slots
    constructor
    · rintro ⟨r, hr, hsame⟩
      obtain rfl := Option.some.inj hr
      exact .inl ⟨hsent, hvalid.mp hsame⟩
    · rintro (⟨-, hall⟩ | ⟨unit, hunit, -⟩)
      · exact ⟨_, rfl, hvalid.mpr hall⟩
      · rw [hunit] at hsent
        exact absurd hsent id
  · rw [if_neg fun h => hsent (sent_of_arrayDataType htravel h)]
    obtain ⟨dtype, slots⟩ := c
    cases dtype with
    | Timestamp unit tz =>
        have hempty : emptyArrayForField f (ArrayRef.len ⟨.Timestamp unit tz, slots⟩) =
            some (nulls (.Timestamp unit none) (0 : Int64) slots.length) := by
          unfold emptyArrayForField
          rw [← htype]
          rfl
        have hnulls : (nulls (.Timestamp unit none) (0 : Int64) slots.length).logical =
            ⟨.Timestamp unit none, List.replicate slots.length none⟩ := by
          simp [nulls, ArrayRef.logical, ArrayRef.rows]
        constructor
        · rintro ⟨r, hr, hsame⟩
          obtain rfl := Option.some.inj (hempty.symm.trans hr)
          rw [hnulls] at hsame
          have htz : tz = none := by
            have hd := congrArg Sigma.fst hsame
            cases tz with
            | none => rfl
            | some z => cases hd
          subst htz
          refine .inr ⟨unit, rfl, (all_null_iff slots).mp ?_⟩
          exact eq_of_heq (Sigma.mk.inj hsame).2
        · rintro (⟨hsent', -⟩ | ⟨unit', hunit, hall⟩)
          · exact absurd hsent' id
          · cases hunit
            refine ⟨_, hempty, hnulls.trans ?_⟩
            exact congrArg (Sigma.mk _) ((all_null_iff slots).mpr hall)
    | Int8 | Int16 | UInt8 | UInt16 | UInt32 | UInt64 | LargeUtf8 | Binary | Other =>
        exact absurd htravel id
    | Int32 | Int64 | Float32 | Float64 | Utf8 | Boolean => exact absurd trivial hsent

end Column

section Batch

variable {arrow : Arrow} {batch : RecordBatch}

theorem logical_len {c d : ArrayRef} (h : c.logical = d.logical) : c.len = d.len := by
  obtain ⟨ct, cs⟩ := c
  obtain ⟨dt, ds⟩ := d
  obtain ⟨rfl, hrows⟩ := Sigma.mk.inj h
  have hlen := congrArg List.length (eq_of_heq hrows)
  simpa [ArrayRef.rows, ArrayRef.len] using hlen

theorem logical_valid {c d : ArrayRef} (h : c.logical = d.logical)
    (hc : ∀ s ∈ c.slots, s.valid = true) :
    ∀ s ∈ d.slots, s.valid = true := by
  obtain ⟨ct, cs⟩ := c
  obtain ⟨dt, ds⟩ := d
  obtain ⟨rfl, hrows⟩ := Sigma.mk.inj h
  have hrows := eq_of_heq hrows
  unfold ArrayRef.rows at hrows
  rw [← (all_valid_iff cs).mpr hc] at hrows
  intro s hs
  have hmem : (if s.valid then some s.value else none) ∈ cs.map fun s => some s.value := by
    rw [hrows]
    exact List.mem_map_of_mem hs
  by_contra hnot
  rw [if_neg hnot] at hmem
  obtain ⟨x, -, hx⟩ := List.mem_map.mp hmem
  cases hx

/-- Being well-formed is a matter of what a query sees. -/
theorem WellFormed.congr {fields : List Field} {cols cols' : List ArrayRef}
    (h : RecordBatch.WellFormed ⟨fields, cols⟩)
    (hsame : cols'.map ArrayRef.logical = cols.map ArrayRef.logical) :
    RecordBatch.WellFormed ⟨fields, cols'⟩ := by
  have htypes : cols'.map ArrayRef.dtype = cols.map ArrayRef.dtype := by
    have hfst := congrArg (List.map Sigma.fst) hsame
    rwa [List.map_map, List.map_map] at hfst
  have hlens : cols'.map ArrayRef.len = cols.map ArrayRef.len := by
    have hlength (cs : List ArrayRef) : cs.map ArrayRef.len =
        (cs.map ArrayRef.logical).map fun l => l.2.length := by
      rw [List.map_map]
      apply List.map_congr_left
      intro c _
      simp [ArrayRef.logical, ArrayRef.rows, ArrayRef.len]
    rw [hlength, hlength, hsame]
  have hrows : RecordBatch.numRows ⟨fields, cols'⟩ = RecordBatch.numRows ⟨fields, cols⟩ := by
    unfold RecordBatch.numRows
    have hhead := congrArg List.head? hlens
    rw [List.head?_map, List.head?_map] at hhead
    dsimp only
    rw [hhead]
  refine ⟨htypes.trans h.types, fun c hc => ?_, fun i f c hf hc hnull => ?_⟩
  · have hmem : c.len ∈ cols.map ArrayRef.len := by
      rw [← hlens]
      exact List.mem_map_of_mem hc
    obtain ⟨d, hd, hlen⟩ := List.mem_map.mp hmem
    rw [hrows, ← hlen]
    exact h.heights d hd
  · have hat := congrArg (·[i]?) hsame
    dsimp only at hat hc
    rw [List.getElem?_map, List.getElem?_map, hc, Option.map_some] at hat
    obtain ⟨d, hd, hlogical⟩ := Option.map_eq_some_iff.mp hat.symm
    exact logical_valid hlogical (h.nulls i f d hf hd hnull)

/-- The fields and columns of a batch, side by side. -/
def pairs (batch : RecordBatch) : List (Field × ArrayRef) := batch.fields.zip batch.columns

theorem WellFormed.width (h : batch.WellFormed) : batch.columns.length = batch.fields.length := by
  have hlen := congrArg List.length h.types
  simpa using hlen

/-- The batch that arrives before it is aligned. -/
def received (batch : RecordBatch) : RecordBatch where
  fields := (pairs batch).map fun p => ⟨p.1.name, arrayDataType (arrowArrayToSeq p.2), true⟩
  columns := (pairs batch).map fun p => seqToArray (arrowArrayToSeq p.2)

theorem sent_pairs (batch : RecordBatch) : (sent batch).names.zip (sent batch).cols =
    (pairs batch).map fun p => (p.1.name, arrowArrayToSeq p.2) := by
  unfold sent pairs
  rw [List.zip_map]
  rfl

theorem columns_eq (h : batch.WellFormed) : (pairs batch).map Prod.snd = batch.columns :=
  List.map_snd_zip (le_of_eq (WellFormed.width h))

theorem fields_eq (h : batch.WellFormed) : (pairs batch).map Prod.fst = batch.fields :=
  List.map_fst_zip (le_of_eq (WellFormed.width h).symm)

theorem transport_eq (arrow : Arrow) (batch : RecordBatch) : transport arrow batch =
    if (sent batch).isEmpty then alignBatchToSchema arrow ⟨[], []⟩ batch.fields
    else (arrow.tryNew (received batch).fields (received batch).columns).bind
      (alignBatchToSchema arrow · batch.fields) := by
  unfold transport protoDataframeToRecordBatch
  rw [sent_pairs]
  split_ifs
  · rfl
  · dsimp only
    rw [List.map_map, List.map_map]
    rfl

theorem map_logical_iff (h : batch.WellFormed) {r : List ArrayRef} :
    r.map ArrayRef.logical = batch.columns.map ArrayRef.logical ↔
      List.Forall₂ (fun p c => c.logical = p.2.logical) (pairs batch) r := by
  rw [← columns_eq h, List.map_map, eq_comm, ← List.forall₂_eq_eq_eq, List.forall₂_map_left_iff,
    List.forall₂_map_right_iff]
  constructor <;> exact fun h => h.imp fun _ _ heq => heq.symm

theorem pair_types (h : batch.WellFormed) {p : Field × ArrayRef} (hp : p ∈ pairs batch) :
    p.2.dtype = p.1.dataType ∧ p.2.len = batch.numRows := by
  have hcol : p.2 ∈ batch.columns := by
    rw [← columns_eq h]
    exact List.mem_map_of_mem hp
  refine ⟨?_, h.heights _ hcol⟩
  have htypes := h.types
  rw [← columns_eq h, ← fields_eq h, List.map_map, List.map_map, List.map_inj_left] at htypes
  exact htypes p hp

theorem rows_pos (h : batch.WellFormed) (hrows : batch.numRows ≠ 0) : pairs batch ≠ [] := by
  intro hnil
  apply hrows
  have hcols : batch.columns = [] := by rw [← columns_eq h, hnil, List.map_nil]
  unfold RecordBatch.numRows
  rw [hcols]
  rfl

theorem sent_isEmpty : (sent batch).isEmpty = true ↔
    ∀ c ∈ batch.columns, (arrowArrayToSeq c).len = 0 := by
  have hempty : (sent batch).isEmpty = true ↔ (sent batch).rowCount = 0 := decide_eq_true_iff
  rw [hempty]
  constructor
  · intro hzero c hc
    have hcol : arrowArrayToSeq c ∈ (sent batch).cols := List.mem_map_of_mem hc
    have hle := DataFrame.len_le_rowCount hcol
    omega
  · intro hall
    apply Nat.le_zero.mp
    apply DataFrame.rowCount_le
    intro s hs
    obtain ⟨c, hc, rfl⟩ := List.mem_map.mp hs
    exact (hall c hc).le

section Empty

theorem fillable_iff {f : Field} {n : ℕ} :
    (∃ r, emptyArrayForField f n = some r ∧ r.dtype = f.dataType) ↔ Fillable f.dataType := by
  obtain ⟨name, dtype, nullable⟩ := f
  cases dtype with
  | Timestamp unit tz => cases tz <;> simp [emptyArrayForField, Fillable, nulls]
  | LargeUtf8 | Binary | Other => simp [emptyArrayForField, Fillable, nulls]
  | Int8 | Int16 | Int32 | Int64 | UInt8 | UInt16 | UInt32 | UInt64 | Float32 | Float64
  | Utf8 | Boolean =>
      simp [emptyArrayForField, Fillable, nulls]

theorem empty_array_len {f : Field} {n : ℕ} {r : ArrayRef} (h : emptyArrayForField f n = some r) :
    r.len = n := by
  unfold emptyArrayForField at h
  split at h <;> first
    | cases h; done
    | obtain rfl := Option.some.inj h; simp [nulls, ArrayRef.len]

theorem Arrow.tryNew_some {fields : List Field} {columns : List ArrayRef} {b : RecordBatch}
    (h : arrow.tryNew fields columns = some b) :
    b = ⟨fields, columns⟩ ∧ RecordBatch.WellFormed ⟨fields, columns⟩ := by
  by_cases hwf : RecordBatch.WellFormed ⟨fields, columns⟩
  · by_cases hnil : columns = []
    · rw [arrow.try_new_error fields columns (.inl hnil)] at h
      cases h
    · rw [arrow.try_new_ok fields columns hnil hwf] at h
      exact ⟨(Option.some.inj h).symm, hwf⟩
  · rw [arrow.try_new_error fields columns (.inr hwf)] at h
    cases h

theorem types_iff {fields : List Field} {columns : List ArrayRef} :
    columns.map ArrayRef.dtype = fields.map Field.dataType ↔
      List.Forall₂ (fun f c => c.dtype = f.dataType) fields columns := by
  rw [eq_comm, ← List.forall₂_eq_eq_eq, List.forall₂_map_left_iff, List.forall₂_map_right_iff]
  constructor <;> exact fun h => h.imp fun _ _ heq => heq.symm

/-- A batch without columns is aligned to a schema with empty ones. -/
theorem align_nothing_iff {fields : List Field} {b : RecordBatch} :
    alignBatchToSchema arrow ⟨[], []⟩ fields = some b ↔ b.fields = fields ∧
      List.Forall₂ (fun f c => emptyArrayForField f 0 = some c ∧ c.dtype = f.dataType)
        fields b.columns := by
  unfold alignBatchToSchema
  dsimp only
  by_cases hnil : [] = fields
  · subst hnil
    rw [if_pos rfl, Option.some.injEq, List.forall₂_nil_left_iff]
    cases b
    simp [eq_comm]
  · have hcolumn : alignedColumn ⟨[], []⟩ = fun f => emptyArrayForField f 0 := rfl
    rw [if_neg hnil, hcolumn, forall₂_both]
    constructor
    · intro h
      obtain ⟨r, hr, hnew⟩ := Option.bind_eq_some_iff.mp h
      obtain ⟨rfl, hwf⟩ := Arrow.tryNew_some hnew
      exact ⟨rfl, mapM_eq_some_iff.mp hr, types_iff.1 hwf.types⟩
    · rintro ⟨rfl, hempty, htypes⟩
      have hlen (c : ArrayRef) (hc : c ∈ b.columns) : c.len = 0 := by
        obtain ⟨f, -, hf⟩ := forall₂_mem_right hempty hc
        exact empty_array_len hf
      have hwf : b.WellFormed := by
        refine ⟨types_iff.2 htypes, fun c hc => ?_, fun i f c _ hc _ s hs => ?_⟩
        · rw [hlen c hc]
          unfold RecordBatch.numRows
          cases hhead : b.columns.head? with
          | none => rfl
          | some d => exact (hlen d (List.mem_of_mem_head? hhead)).symm
        · have hzero := hlen c (List.mem_of_getElem? hc)
          rw [List.length_eq_zero_iff.mp hzero] at hs
          cases hs
      have hcolumns : b.columns ≠ [] := by
        intro hcols
        rw [hcols, List.forall₂_nil_right_iff] at htypes
        exact hnil htypes.symm
      rw [mapM_eq_some_iff.mpr hempty, Option.bind_some]
      exact arrow.try_new_ok _ _ hcolumns hwf

end Empty

section Rows

/-- In a batch with distinct names a column is found by its name. -/
theorem findIdx_name {fields : List Field} (hnames : (fields.map Field.name).Nodup)
    {i : ℕ} {f : Field}
    (hf : fields[i]? = some f) : fields.findIdx? (·.name = f.name) = some i := by
  obtain ⟨hlt, rfl⟩ := List.getElem?_eq_some_iff.mp hf
  rw [List.findIdx?_eq_some_iff_getElem]
  refine ⟨hlt, by simp, fun j hj => ?_⟩
  have hjlt : j < fields.length := hj.trans hlt
  intro heq
  have hjname : j < (fields.map Field.name).length := by simpa using hjlt
  have hiname : i < (fields.map Field.name).length := by simpa using hlt
  have hsame : (fields.map Field.name)[j] = (fields.map Field.name)[i] := by
    simpa using heq
  exact absurd ((List.Nodup.getElem_inj_iff hnames).mp hsame) hj.ne

variable (hwf : batch.WellFormed) (htravel : ∀ c ∈ batch.columns, Travels c.dtype)
include hwf htravel

theorem received_len {p : Field × ArrayRef} (hp : p ∈ pairs batch) :
    (seqToArray (arrowArrayToSeq p.2)).len = batch.numRows := by
  have hcol : p.2 ∈ batch.columns := by
    rw [← columns_eq hwf]
    exact List.mem_map_of_mem hp
  rw [seqToArray_len, seq_len, if_pos (htravel _ hcol)]
  exact (pair_types hwf hp).2

theorem received_rows : (received batch).numRows = batch.numRows := by
  unfold RecordBatch.numRows received
  rw [← columns_eq hwf]
  cases hpairs : pairs batch with
  | nil => rfl
  | cons p rest =>
      have hp : p ∈ pairs batch := by rw [hpairs]; exact List.mem_cons_self
      have hlen := received_len hwf htravel hp
      rw [← (pair_types hwf hp).2] at hlen
      simpa using hlen

theorem received_wellFormed : (received batch).WellFormed := by
  refine ⟨?_, fun c hc => ?_, fun i f c hf hc _ s hs => ?_⟩
  · unfold received
    simp [seqToArray_dtype]
  · obtain ⟨p, hp, rfl⟩ := List.mem_map.mp hc
    rw [received_rows hwf htravel, received_len hwf htravel hp]
  · obtain ⟨p, -, rfl⟩ := List.mem_map.mp (List.mem_of_getElem? hc)
    exact seqToArray_valid _ s hs

theorem aligned_eq (hnames : (batch.fields.map Field.name).Nodup) {p : Field × ArrayRef}
    (hp : p ∈ pairs batch) :
    alignedColumn (received batch) p.1 = arrivedColumn p.2.len p.1 p.2 := by
  obtain ⟨i, hi⟩ := List.mem_iff_getElem?.mp hp
  have hfield : (received batch).fields[i]? =
      some ⟨p.1.name, arrayDataType (arrowArrayToSeq p.2), true⟩ := by
    unfold received
    rw [List.getElem?_map, hi, Option.map_some]
  have hcolumn : (received batch).columns[i]? = some (seqToArray (arrowArrayToSeq p.2)) := by
    unfold received
    rw [List.getElem?_map, hi, Option.map_some]
  have hnames' : ((received batch).fields.map Field.name).Nodup := by
    have hsame : (received batch).fields.map Field.name = batch.fields.map Field.name := by
      unfold received
      have hfields := congrArg (List.map Field.name) (fields_eq hwf)
      rw [List.map_map] at hfields ⊢
      exact hfields
    rwa [hsame]
  unfold alignedColumn arrivedColumn
  rw [findIdx_name hnames' hfield, Option.bind_some, hcolumn]
  dsimp only
  rw [seqToArray_dtype, received_rows hwf htravel, (pair_types hwf hp).2]

/-- Columns of known types arrive one by one. -/
theorem of_align_received (hnames : (batch.fields.map Field.name).Nodup) {b : RecordBatch} :
    alignBatchToSchema arrow (received batch) batch.fields = some b →
      b.fields = batch.fields ∧
      List.Forall₂ (fun p c => arrivedColumn p.2.len p.1 p.2 = some c) (pairs batch) b.columns := by
  intro h
  unfold alignBatchToSchema at h
  split_ifs at h with hsame
  · obtain rfl := Option.some.inj h
    refine ⟨hsame, ?_⟩
    unfold received
    rw [List.forall₂_map_right_iff, List.forall₂_same]
    intro p hp
    obtain ⟨i, hi⟩ := List.mem_iff_getElem?.mp hp
    have hfield := congrArg (·[i]?) (hsame.trans (fields_eq hwf).symm)
    unfold received at hfield
    dsimp only at hfield
    rw [List.getElem?_map, List.getElem?_map, hi, Option.map_some, Option.map_some] at hfield
    have htype := congrArg Field.dataType (Option.some.inj hfield)
    exact if_pos htype
  · obtain ⟨r, hr, hnew⟩ := Option.bind_eq_some_iff.mp h
    obtain ⟨rfl, -⟩ := Arrow.tryNew_some hnew
    refine ⟨rfl, ?_⟩
    have hall := mapM_eq_some_iff.mp hr
    rw [← fields_eq hwf, List.forall₂_map_left_iff] at hall
    exact (forall₂_congr_left fun p hp c => by rw [aligned_eq hwf htravel hnames hp]).mp hall

theorem align_received (hnames : (batch.fields.map Field.name).Nodup) {r : List ArrayRef}
    (hall : List.Forall₂ (fun p c => arrivedColumn p.2.len p.1 p.2 = some c) (pairs batch) r)
    (hnil : r ≠ []) (hr : RecordBatch.WellFormed ⟨batch.fields, r⟩) :
    ∃ b, alignBatchToSchema arrow (received batch) batch.fields = some b ∧ b.fields = batch.fields ∧
      b.columns = r := by
  by_cases hsame : (received batch).fields = batch.fields
  · have halign : alignBatchToSchema arrow (received batch) batch.fields = some (received batch) :=
      if_pos hsame
    have hcolumns := (of_align_received hwf htravel hnames halign).2
    have heq := (mapM_eq_some_iff.mpr hcolumns).symm.trans (mapM_eq_some_iff.mpr hall)
    exact ⟨_, halign, hsame, Option.some.inj heq⟩
  · refine ⟨⟨batch.fields, r⟩, ?_, rfl, rfl⟩
    have hmap : batch.fields.mapM (alignedColumn (received batch)) = some r := by
      rw [mapM_eq_some_iff, ← fields_eq hwf, List.forall₂_map_left_iff]
      exact (forall₂_congr_left fun p hp c => by rw [aligned_eq hwf htravel hnames hp]).mpr hall
    unfold alignBatchToSchema
    rw [if_neg hsame, hmap, Option.bind_some]
    exact arrow.try_new_ok _ _ hnil hr

end Rows

/-- The whole batch arrives as it was sent. -/
def Restored (arrow : Arrow) (batch : RecordBatch) : Prop :=
  ∃ b, transport arrow batch = some b ∧ b.fields = batch.fields ∧
    b.columns.map ArrayRef.logical = batch.columns.map ArrayRef.logical

/-- Without rows only the types of the columns matter. -/
theorem restored_empty_iff (hwf : batch.WellFormed) (hrows : batch.numRows = 0) :
    Restored arrow batch ↔ ∀ f ∈ batch.fields, Fillable f.dataType := by
  have hempty : (sent batch).isEmpty = true := by
    rw [sent_isEmpty]
    intro c hc
    have hlen := hwf.heights c hc
    rw [seq_len]
    split_ifs
    · omega
    · rfl
  have hnone {c : ArrayRef} (h : c.len = 0) : c.logical = ⟨c.dtype, []⟩ := by
    obtain ⟨dtype, slots⟩ := c
    cases slots with
    | nil => rfl
    | cons => cases h
  have htransport : transport arrow batch = alignBatchToSchema arrow ⟨[], []⟩ batch.fields := by
    rw [transport_eq, if_pos hempty]
  unfold Restored
  rw [htransport]
  constructor
  · rintro ⟨b, hb, -, -⟩ f hf
    obtain ⟨i, hi⟩ := List.mem_iff_getElem?.mp hf
    have hall := (align_nothing_iff.1 hb).2
    have himages := exists_forall₂.mp ⟨b.columns, forall₂_both.mp hall⟩
    exact fillable_iff.1 (himages f hf)
  · intro hfill
    obtain ⟨r, hempties, htypes⟩ :=
      exists_forall₂.mpr fun f hf => fillable_iff (n := 0).mpr (hfill f hf)
    refine ⟨⟨batch.fields, r⟩, align_nothing_iff.2 ⟨rfl, forall₂_both.mpr ⟨hempties, htypes⟩⟩,
      rfl, ?_⟩
    have hr : r.map ArrayRef.logical = r.map fun c => ⟨c.dtype, []⟩ := by
      apply List.map_congr_left
      intro c hc
      obtain ⟨f, -, hf⟩ := forall₂_mem_right hempties hc
      exact hnone (empty_array_len hf)
    have hbatch : batch.columns.map ArrayRef.logical = batch.columns.map fun c =>
        ⟨c.dtype, []⟩ := by
      apply List.map_congr_left
      intro c hc
      exact hnone ((hwf.heights c hc).trans hrows)
    have hdtypes : r.map ArrayRef.dtype = batch.columns.map ArrayRef.dtype := by
      rw [hwf.types]
      exact types_iff.2 htypes
    have hshape (cs : List ArrayRef) :
      (cs.map fun c => (⟨c.dtype, []⟩ : (d : DataType) × List (Option (Elem d)))) =
        (cs.map ArrayRef.dtype).map fun d => ⟨d, []⟩ := by
      rw [List.map_map]
      rfl
    rw [hr, hbatch, hshape, hshape, hdtypes]

/-- A column that does not travel takes the batch with it. -/
theorem not_restored (hwf : batch.WellFormed) (hrows : batch.numRows ≠ 0) {c : ArrayRef}
    (hc : c ∈ batch.columns) (hstuck : ¬ Travels c.dtype) : ¬ Restored arrow batch := by
  rintro ⟨b, hb, hfields, hsame⟩
  rw [transport_eq] at hb
  split_ifs at hb with hempty
  · have hlogical : c.logical ∈ b.columns.map ArrayRef.logical := by
      rw [hsame]
      exact List.mem_map_of_mem hc
    obtain ⟨d, hd, hdc⟩ := List.mem_map.mp hlogical
    obtain ⟨f, -, hf⟩ := forall₂_mem_right (align_nothing_iff.1 hb).2 hd
    have hzero := (logical_len hdc).symm.trans (empty_array_len hf.1)
    exact hrows ((hwf.heights c hc).symm.trans hzero)
  · obtain ⟨b', hnew, -⟩ := Option.bind_eq_some_iff.mp hb
    obtain ⟨-, hreceived⟩ := Arrow.tryNew_some hnew
    have hlens (d : ArrayRef) (hd : d ∈ batch.columns) :
        (arrowArrayToSeq d).len =
          RecordBatch.numRows ⟨(received batch).fields, (received batch).columns⟩ := by
      rw [← seqToArray_len]
      apply hreceived.heights
      rw [← columns_eq hwf] at hd
      obtain ⟨p, hp, rfl⟩ := List.mem_map.mp hd
      exact List.mem_map_of_mem hp
    have hzero : (arrowArrayToSeq c).len = 0 := by rw [seq_len, if_neg hstuck]
    apply hempty
    rw [sent_isEmpty]
    intro d hd
    rw [hlens d hd, ← hlens c hc, hzero]

/-- With rows every column must be one that is preserved. -/
theorem restored_rows_iff (hwf : batch.WellFormed) (hnames : (batch.fields.map Field.name).Nodup)
    (hrows : batch.numRows ≠ 0) : Restored arrow batch ↔ ∀ c ∈ batch.columns, Preserved c := by
  by_cases htravel : ∀ c ∈ batch.columns, Travels c.dtype
  · have hpairs : (∀ c ∈ batch.columns, Preserved c) ↔ ∀ p ∈ pairs batch,
        ∃ r, arrivedColumn p.2.len p.1 p.2 = some r ∧ r.logical = p.2.logical := by
      have hiff (p : Field × ArrayRef) (hp : p ∈ pairs batch) :
          (∃ r, arrivedColumn p.2.len p.1 p.2 = some r ∧ r.logical = p.2.logical) ↔
          Preserved p.2 := by
        have hcol : p.2 ∈ batch.columns := by
          rw [← columns_eq hwf]
          exact List.mem_map_of_mem hp
        exact arrived_logical_iff (pair_types hwf hp).1 (htravel _ hcol)
      rw [← columns_eq hwf, List.forall_mem_map]
      exact forall₂_congr fun p hp => (hiff p hp).symm
    have hnew : arrow.tryNew (received batch).fields (received batch).columns =
        some (received batch) := by
      apply arrow.try_new_ok
      · unfold received
        simpa using rows_pos hwf hrows
      · exact received_wellFormed hwf htravel
    have hempty : ¬ (sent batch).isEmpty = true := by
      rw [sent_isEmpty]
      intro hall
      obtain ⟨p, rest, hp⟩ := List.exists_cons_of_ne_nil (rows_pos hwf hrows)
      have hmem : p ∈ pairs batch := by rw [hp]; exact List.mem_cons_self
      have hlen := received_len hwf htravel hmem
      have hcol : p.2 ∈ batch.columns := by
        rw [← columns_eq hwf]
        exact List.mem_map_of_mem hmem
      rw [seqToArray_len, hall _ hcol] at hlen
      exact hrows hlen.symm
    have htransport : transport arrow batch =
        alignBatchToSchema arrow (received batch) batch.fields := by
      rw [transport_eq, if_neg hempty, hnew, Option.bind_some]
    unfold Restored
    rw [hpairs, htransport, ← exists_forall₂]
    constructor
    · rintro ⟨b, hb, -, hsame⟩
      exact ⟨b.columns, (of_align_received hwf htravel hnames hb).2, (map_logical_iff hwf).mp hsame⟩
    · rintro ⟨r, hall, hlogical⟩
      have hsame := (map_logical_iff hwf).mpr hlogical
      have hnil : r ≠ [] := by
        rintro rfl
        exact rows_pos hwf hrows (List.forall₂_nil_right_iff.mp hall)
      obtain ⟨b, hb, hfields, rfl⟩ :=
        align_received hwf htravel hnames hall hnil (WellFormed.congr hwf hsame)
      exact ⟨b, hb, hfields, hsame⟩
  · obtain ⟨c, hc, hstuck⟩ : ∃ c ∈ batch.columns, ¬ Travels c.dtype := by
      by_contra hnone
      exact htravel fun c hc => by_contra fun hstuck => hnone ⟨c, hc, hstuck⟩
    constructor
    · exact fun h => absurd h (not_restored hwf hrows hc hstuck)
    · intro hall
      exfalso
      apply hstuck
      rcases hall c hc with ⟨hsent, -⟩ | ⟨unit, hunit, -⟩
      · unfold Travels
        split
        · trivial
        · exact hsent
      · rw [hunit]
        trivial

/-- A batch arrives as it was sent exactly when its columns can be transported. -/
theorem transport_exact_iff (hwf : batch.WellFormed)
    (hnames : (batch.fields.map Field.name).Nodup) :
    Restored arrow batch ↔ Transportable batch := by
  unfold Transportable
  split_ifs with hrows
  · exact restored_empty_iff hwf hrows
  · exact restored_rows_iff hwf hnames hrows

open Classical in
/-- `try_new` as its documentation has it. -/
noncomputable def Arrow.documented : Arrow where
  tryNew fields columns :=
    if columns = [] ∨ ¬ RecordBatch.WellFormed ⟨fields, columns⟩ then none
    else some ⟨fields, columns⟩
  try_new_ok fields columns hnil hwf := if_neg (by simp [hnil, hwf])
  try_new_error fields columns h := if_pos h

/-- One row of a table with an unsigned counter. -/
def counterBatch : RecordBatch where
  fields := [⟨"rank", .Int32, true⟩, ⟨"wait_ns", .UInt64, true⟩]
  columns := [⟨.Int32, [⟨(7 : Int32), true⟩]⟩, ⟨.UInt64, [⟨(1500 : UInt64), true⟩]⟩]

theorem counterBatch_wellFormed : counterBatch.WellFormed where
  types := rfl
  heights c hc := by
    simp only [counterBatch, List.mem_cons, List.not_mem_nil, or_false] at hc
    rcases hc with rfl | rfl <;> rfl
  nulls i f c _ hc _ s hs := by
    have hmem := List.mem_of_getElem? hc
    simp only [counterBatch, List.mem_cons, List.not_mem_nil, or_false] at hmem
    rcases hmem with rfl | rfl <;> rw [List.mem_singleton.mp hs]

theorem counterBatch_exact_iff : Restored Arrow.documented counterBatch ↔
    Transportable counterBatch :=
  transport_exact_iff counterBatch_wellFormed (by decide)

/-- The unsigned counter has no sequence, and the row is dropped with it. -/
theorem counterBatch_dropped : ¬ ∀ (arrow : Arrow) (batch : RecordBatch), batch.WellFormed →
    (batch.fields.map Field.name).Nodup → Restored arrow batch := by
  intro hclaim
  have hcounter : (⟨.UInt64, [⟨(1500 : UInt64), true⟩]⟩ : ArrayRef) ∈ counterBatch.columns := by
    simp [counterBatch]
  exact not_restored counterBatch_wellFormed (by decide) hcounter id
    (hclaim Arrow.documented counterBatch counterBatch_wellFormed (by decide))

end Batch

end Probing.Federation
