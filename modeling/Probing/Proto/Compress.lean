import Mathlib.Data.List.Nodup
import Probing.Proto.Seq

/-!
# Compressed sequences

Numbers are compressed by an external codec. Texts are replaced by their numbers in a codebook,
which travels beside the compressed numbers.
-/

namespace Probing.Proto

/-- A vector of one of the number types the codec takes; a float is its bit pattern. -/
inductive Numbers where
  | I32 (vec : List Int32)
  | I64 (vec : List Int64)
  | F32 (vec : List UInt32)
  | F64 (vec : List UInt64)
  | U64 (vec : List UInt64)
  deriving DecidableEq

inductive NumberType where
  | I32
  | I64
  | F32
  | F64
  | U64
  deriving DecidableEq

def Numbers.type : Numbers → NumberType
  | I32 _ => .I32
  | I64 _ => .I64
  | F32 _ => .F32
  | F64 _ => .F64
  | U64 _ => .U64

/-- The number codec: compression may fail, and decompression gives back what was compressed. -/
structure Pco where
  simplerCompress : Numbers → Option (List UInt8)
  simpleDecompress : NumberType → List UInt8 → Option Numbers
  decompress_compress : ∀ {x b}, simplerCompress x = some b →
    simpleDecompress x.type b = some x

/-- The texts by their numbers. -/
abbrev CodeBook := Option (List (Int64 × String))

/-- One text is looked up, or gets the next number. The texts stand in the order of their
numbers. -/
def textStep (acc : List String × List Int64) (ele : String) : List String × List Int64 :=
  match acc.1.idxOf? ele with
  | some idx => (acc.1, acc.2 ++ [.ofNat idx])
  | none => (acc.1 ++ [ele], acc.2 ++ [.ofNat acc.1.length])

def textEncode (data : List String) : List String × List Int64 := data.foldl textStep ([], [])

/-- The map from numbers to texts. -/
def codebook (names : List String) : List (Int64 × String) :=
  names.zipIdx.map fun p => (.ofNat p.2, p.1)

/-- `cb.get(idx).cloned().unwrap_or_default()`. -/
def textDecode (cb : List (Int64 × String)) (idx : Int64) : String := (cb.lookup idx).getD ""

namespace Seq

variable (C : Pco)

def compress (s : Seq) : Option (EleType × List UInt8 × CodeBook) :=
  match s with
  | Nil => some (.Nil, [], none)
  | SeqBOOL vec =>
      (C.simplerCompress (.I32 (vec.map fun x => if x then 1 else 0))).map fun b =>
        (.BOOL, b, none)
  | SeqI32 vec => (C.simplerCompress (.I32 vec)).map fun b => (.I32, b, none)
  | SeqI64 vec => (C.simplerCompress (.I64 vec)).map fun b => (.I64, b, none)
  | SeqF32 vec => (C.simplerCompress (.F32 vec)).map fun b => (.F32, b, none)
  | SeqF64 vec => (C.simplerCompress (.F64 vec)).map fun b => (.F64, b, none)
  | SeqText vec =>
      let (names, data) := textEncode vec
      (C.simplerCompress (.I64 data)).map fun b => (.Text, b, some (codebook names))
  | SeqDateTime vec => (C.simplerCompress (.U64 vec)).map fun b => (.DataTime, b, none)

def decompress (dtype : EleType) (data : List UInt8) (cb : CodeBook) : Option Seq :=
  match dtype with
  | .Nil => some Nil
  | .BOOL => match C.simpleDecompress .I32 data with
      | some (.I32 vec) => some (SeqBOOL (vec.map (· != 0)))
      | _ => none
  | .I32 => match C.simpleDecompress .I32 data with
      | some (.I32 vec) => some (SeqI32 vec)
      | _ => none
  | .I64 => match C.simpleDecompress .I64 data with
      | some (.I64 vec) => some (SeqI64 vec)
      | _ => none
  | .F32 => match C.simpleDecompress .F32 data with
      | some (.F32 vec) => some (SeqF32 vec)
      | _ => none
  | .F64 => match C.simpleDecompress .F64 data with
      | some (.F64 vec) => some (SeqF64 vec)
      | _ => none
  | .Text | .Url => match C.simpleDecompress .I64 data, cb with
      | some (.I64 vec), some cb => some (SeqText (vec.map (textDecode cb)))
      | _, _ => none
  | .DataTime => match C.simpleDecompress .U64 data with
      | some (.U64 vec) => some (SeqDateTime vec)
      | _ => none

end Seq

section Codebook

theorem ofNat_inj {i j : ℕ} (hi : i < 2 ^ 64) (hj : j < 2 ^ 64) :
    Int64.ofNat i = Int64.ofNat j ↔ i = j := by
  constructor
  · intro h
    have hbits := congrArg (fun x : Int64 => x.toBitVec.toNat) h
    simp only [Int64.toBitVec_ofNat', BitVec.toNat_ofNat] at hbits
    omega
  · rintro rfl
    rfl

theorem lookup_zipIdx {names : List String} {start i : ℕ} (hbound : start + names.length ≤ 2 ^ 64)
    (hi : i < names.length) :
    ((names.zipIdx start).map fun p => (Int64.ofNat p.2, p.1)).lookup (.ofNat (start + i)) =
      some names[i] := by
  induction names generalizing start i with
  | nil => simp at hi
  | cons name rest ih =>
      simp only [List.length_cons] at hbound hi
      simp only [List.zipIdx_cons, List.map_cons, List.lookup_cons]
      cases i with
      | zero => simp
      | succ i =>
          have hne : (Int64.ofNat (start + (i + 1)) == Int64.ofNat start) = false := by
            rw [beq_eq_false_iff_ne, Ne, ofNat_inj (by omega) (by omega)]
            omega
          rw [hne, show start + (i + 1) = start + 1 + i by omega]
          have hrest : start + 1 + rest.length ≤ 2 ^ 64 := by omega
          simpa using ih hrest (by omega)

/-- A number of the codebook stands for its text. -/
theorem textDecode_codebook {names : List String} {i : ℕ} (hbound : names.length ≤ 2 ^ 64)
    (hi : i < names.length) : textDecode (codebook names) (.ofNat i) = names[i] := by
  have hbound' : 0 + names.length ≤ 2 ^ 64 := by omega
  have hlookup := lookup_zipIdx hbound' hi
  rw [Nat.zero_add] at hlookup
  rw [textDecode, codebook, hlookup, Option.getD_some]

/-- A number stands for a text of the codebook. -/
def StandsFor (names : List String) (x : Int64) (ele : String) : Prop :=
  ∃ idx : ℕ, x = .ofNat idx ∧ names[idx]? = some ele

theorem StandsFor.append {names : List String} {x : Int64} {ele : String} (more : List String)
    (h : StandsFor names x ele) : StandsFor (names ++ more) x ele := by
  obtain ⟨idx, rfl, hidx⟩ := h
  obtain ⟨hlt, -⟩ := List.getElem?_eq_some_iff.mp hidx
  exact ⟨idx, rfl, by rw [List.getElem?_append_left hlt, hidx]⟩

/-- One step adds the number of its text, and at most that text. -/
theorem textStep_spec (acc : List String × List Int64) (ele : String) :
    ∃ more x, (textStep acc ele).1 = acc.1 ++ more ∧ (textStep acc ele).2 = acc.2 ++ [x] ∧
      StandsFor (acc.1 ++ more) x ele ∧ more.length ≤ 1 := by
  cases h : acc.1.idxOf? ele with
  | some idx =>
      obtain ⟨hlt, hget, -⟩ := List.idxOf?_eq_some_iff.mp h
      exact ⟨[], .ofNat idx, by simp [textStep, h], by simp [textStep, h],
        ⟨idx, rfl, by rw [List.append_nil]; exact List.getElem?_eq_some_iff.mpr ⟨hlt, hget⟩⟩,
        by simp⟩
  | none =>
      exact ⟨[ele], .ofNat acc.1.length, by simp [textStep, h], by simp [textStep, h],
        ⟨acc.1.length, rfl, by simp⟩, by simp⟩

/-- The loop over the texts: every number stands for its text in the final codebook. -/
theorem text_fold (data : List String) (acc : List String × List Int64) :
    ∃ more nums, (data.foldl textStep acc).1 = acc.1 ++ more ∧
      (data.foldl textStep acc).2 = acc.2 ++ nums ∧
      List.Forall₂ (StandsFor (acc.1 ++ more)) nums data ∧ more.length ≤ data.length := by
  induction data generalizing acc with
  | nil => exact ⟨[], [], by simp, by simp, .nil, by simp⟩
  | cons ele rest ih =>
      obtain ⟨more, x, hnames, hnums, hx, hmore⟩ := textStep_spec acc ele
      obtain ⟨more', nums, hnames', hnums', hall, hmore'⟩ := ih (textStep acc ele)
      rw [hnames, List.append_assoc] at hnames' hall
      rw [hnums, List.append_assoc] at hnums'
      refine ⟨more ++ more', x :: nums, hnames', hnums', .cons ?_ hall, ?_⟩
      · rw [← List.append_assoc]
        exact hx.append more'
      · simp only [List.length_append, List.length_cons]
        omega

/-- Decoding with the codebook gives the texts back. -/
theorem textDecode_encode {data : List String} (hbound : data.length ≤ 2 ^ 64) :
    (textEncode data).2.map (textDecode (codebook (textEncode data).1)) = data := by
  obtain ⟨more, nums, hnames, hnums, hall, hmore⟩ := text_fold data ([], [])
  rw [textEncode, hnames, hnums, List.nil_append, List.nil_append]
  rw [List.nil_append] at hall
  have hmap : ∀ {nums data}, List.Forall₂ (StandsFor more) nums data →
      nums.map (textDecode (codebook more)) = data := by
    intro nums data hall
    induction hall with
    | nil => rfl
    | cons hx _ ih =>
        obtain ⟨idx, rfl, hidx⟩ := hx
        obtain ⟨hlt, hget⟩ := List.getElem?_eq_some_iff.mp hidx
        rw [List.map_cons, ih, textDecode_codebook (by omega) hlt, hget]
  exact hmap hall

end Codebook

/-- Decompression gives back the compressed sequence. -/
theorem Seq.decompress_compress {C : Pco} {s : Seq} {dtype : EleType} {b : List UInt8}
    {cb : CodeBook} (hlen : s.len ≤ 2 ^ 64) (h : s.compress C = some (dtype, b, cb)) :
    Seq.decompress C dtype b cb = some s := by
  cases s with
  | Nil =>
      obtain ⟨rfl, rfl, rfl⟩ : EleType.Nil = dtype ∧ [] = b ∧ none = cb := by
        simpa [Seq.compress] using h
      rfl
  | SeqBOOL vec =>
      obtain ⟨b', hb, hout⟩ := Option.map_eq_some_iff.mp h
      obtain ⟨rfl, rfl, rfl⟩ : EleType.BOOL = dtype ∧ b' = b ∧ none = cb := by simpa using hout
      have hback := C.decompress_compress hb
      rw [Numbers.type] at hback
      have hmap : ∀ x : Bool, ((if x then 1 else 0 : Int32) != 0) = x := by decide
      simp [Seq.decompress, hback, Function.comp_def, hmap]
  | SeqText vec =>
      obtain ⟨b', hb, hout⟩ := Option.map_eq_some_iff.mp h
      obtain ⟨rfl, rfl, rfl⟩ : EleType.Text = dtype ∧ b' = b ∧
          some (codebook (textEncode vec).1) = cb := by simpa [textEncode] using hout
      have hback := C.decompress_compress hb
      rw [Numbers.type] at hback
      simp only [Seq.decompress, hback, Option.some.injEq, SeqText.injEq]
      exact textDecode_encode hlen
  | SeqI32 vec | SeqI64 vec | SeqF32 vec | SeqF64 vec | SeqDateTime vec =>
      obtain ⟨b', hb, hout⟩ := Option.map_eq_some_iff.mp h
      obtain ⟨rfl, rfl, rfl⟩ : _ = dtype ∧ b' = b ∧ none = cb := by simpa using hout
      have hback := C.decompress_compress hb
      rw [Numbers.type] at hback
      simp [Seq.decompress, hback]

end Probing.Proto
