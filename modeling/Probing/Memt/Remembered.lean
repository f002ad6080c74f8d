import Probing.Memt.Contents
import Probing.Memt.Writer

/-!
# What a writer remembers

Every remembered offset points at a text among the published bytes of the write chunk,
so that a lookup compares with a text that readers will find there.
-/

namespace Probing.Memt

open Probing.Core

/-- A text is stored at this offset into the chunk. -/
structure TextAt (published : Bytes) (off : ℕ) (text : Bytes) : Prop where
  low : chunkHeaderSize ≤ off
  high : off - chunkHeaderSize + (4 + text.length) ≤ published.length
  short : text.length < 2 ^ 32
  stored : slice published (off - chunkHeaderSize) (4 + text.length) = Value.encodeVarlen text

section TextAt

variable {published rest text data : Bytes} {off : ℕ}

theorem TextAt.mono (h : TextAt published off text) (rest : Bytes) :
    TextAt (published ++ rest) off text where
  low := h.low
  high := by
    have hhigh := h.high
    rw [List.length_append]
    omega
  short := h.short
  stored := by rw [slice_append_left h.high, h.stored]

theorem TextAt.parts (h : TextAt published off text) :
    slice published (off - chunkHeaderSize) 4 = le (UInt32.ofNat text.length) ∧
      slice published (off - chunkHeaderSize + 4) text.length = text := by
  have hstored := h.stored
  have hhigh := h.high
  rw [slice_add] at hstored
  refine List.append_inj hstored ?_
  rw [slice_length, le_length_u32]
  omega

theorem TextAt.length (h : TextAt published off text) :
    (getLe UInt32 published (off - chunkHeaderSize)).toNat = text.length := by
  rw [getLe_of_slice h.parts.1]
  exact UInt32.toNat_ofNat_of_lt' h.short

/-- A text that has been written after other bytes. -/
theorem TextAt.end (hshort : text.length < 2 ^ 32)
    (hoff : off = chunkHeaderSize + published.length) :
    TextAt (published ++ (Value.encodeVarlen text ++ rest)) off text := by
  have hlen : (Value.encodeVarlen text).length = 4 + text.length := by
    rw [Value.encodeVarlen, List.length_append, le_length_u32]
  have hstart : off - chunkHeaderSize = published.length + 0 := by omega
  refine ⟨by omega, ?_, hshort, ?_⟩
  · rw [List.length_append, List.length_append, hlen]
    omega
  · rw [hstart, slice_length_add, ← hlen, slice_zero_append rfl]

end TextAt

/-- Every offset is the offset of a published text, and no row is being streamed. -/
structure DedupState.Remembers (s : DedupState) (published : Bytes) : Prop where
  pending : s.pending = []
  stored : ∀ k off, s.seen k = some off → ∃ text, TextAt published off text

namespace DedupState

variable {key : HashKey} {s : DedupState} {published rest text data : Bytes} {col off : ℕ}

/-- A lookup decides whether the text at the remembered offset is the right one. -/
theorem lookup_at (h : s.seen (key col data) = some off) (htext : TextAt published off text) :
    s.lookup key col data (published ++ rest) =
      if data.length < s.minDedupLen then none else if text = data then some off else none := by
  have hwhole := htext.mono rest
  have hhigh := hwhole.high
  unfold lookup
  rw [h, Option.bind_some]
  have hsize : ¬ (published ++ rest).length < off - chunkHeaderSize + 4 := by omega
  have hbody : ¬ (published ++ rest).length < off - chunkHeaderSize + 4 + text.length := by omega
  dsimp only
  rw [if_neg hsize, hwhole.length, if_neg hbody, hwhole.parts.2]

/-- Bytes past the published ones do not matter. -/
theorem Remembers.lookup_congr (h : s.Remembers published) (rest : Bytes) :
    s.lookup key col data (published ++ rest) = s.lookup key col data published := by
  cases hseen : s.seen (key col data) with
  | none =>
      unfold lookup
      rw [hseen, Option.bind_none, Option.bind_none]
  | some off =>
      obtain ⟨text, htext⟩ := h.stored _ _ hseen
      have hsame : s.lookup key col data (published ++ []) = _ := lookup_at hseen htext
      rw [List.append_nil] at hsame
      rw [lookup_at hseen htext, hsame]

/-- A hit is the offset of the text that was looked up. -/
theorem Remembers.lookup_some (h : s.Remembers published)
    (hhit : s.lookup key col data published = some off) :
    TextAt published off data := by
  cases hseen : s.seen (key col data) with
  | none =>
      unfold lookup at hhit
      rw [hseen, Option.bind_none, ite_self] at hhit
      cases hhit
  | some off' =>
      obtain ⟨text, htext⟩ := h.stored _ _ hseen
      have hsame : s.lookup key col data (published ++ []) = _ := lookup_at hseen htext
      rw [List.append_nil, hhit] at hsame
      split_ifs at hsame with hlen heq
      obtain rfl := Option.some.inj hsame
      exact heq ▸ htext

theorem Remembers.mono (h : s.Remembers published) (rest : Bytes) :
    s.Remembers (published ++ rest) where
  pending := h.pending
  stored k off hseen := by
    obtain ⟨text, htext⟩ := h.stored k off hseen
    exact ⟨text, htext.mono rest⟩

theorem new_remembers (published : Bytes) : DedupState.new.Remembers published :=
  ⟨rfl, fun _ _ h => nomatch h⟩

theorem clear_remembers (s : DedupState) (published : Bytes) : s.clear.Remembers published :=
  ⟨rfl, fun _ _ h => nomatch h⟩

theorem Remembers.setMinDedupLen (h : s.Remembers published) (len : ℕ) :
    (s.setMinDedupLen len).Remembers published := ⟨h.pending, h.stored⟩

/-- A streamed row that is given up is forgotten. -/
theorem Remembers.rollback (h : s.Remembers published) (pending : List (UInt64 × ℕ)) :
    ({ s with pending := pending } : DedupState).rollbackRow = s := by
  unfold rollbackRow
  rw [← h.pending]

theorem Remembers.insert (h : s.Remembers published) (htext : TextAt published off data) :
    (s.insert key col data off).Remembers published := by
  unfold DedupState.insert
  split_ifs
  · refine ⟨h.pending, fun k off' hseen => ?_⟩
    by_cases hkey : k = key col data
    · subst hkey
      obtain rfl : off = off' := by simpa using hseen
      exact ⟨data, htext⟩
    · exact h.stored k off' (by simpa [hkey] using hseen)
  · exact h

end DedupState

section Fields

variable {key : HashKey} {s : DedupState} {published : Bytes}

@[simp] theorem fieldsData_nil : fieldsData [] = [] := rfl

@[simp] theorem fieldsData_cons (f : Value × Option ℕ) (fields : List (Value × Option ℕ)) :
    fieldsData (f :: fields) = field f.1 f.2 ++ fieldsData fields := rfl

@[simp] theorem fieldsData_append (fields more : List (Value × Option ℕ)) :
    fieldsData (fields ++ more) = fieldsData fields ++ fieldsData more := List.flatMap_append

theorem encode_eq {v : Value} {data : Bytes} (hv : v.varlen = some data) :
    v.encode = Value.encodeVarlen data := by
  cases v with
  | Str s => rw [← Option.some.inj hv]; rfl
  | Bytes bs => rw [← Option.some.inj hv]; rfl
  | U8 | U32 | I32 | I64 | F32 | F64 | U64 => cases hv

/-- The texts of a row are remembered where the row stores them. -/
theorem insertFields_remembers {fields : List (Value × Option ℕ)} {i off : ℕ}
    (h : s.Remembers published) (hoff : off = chunkHeaderSize + published.length)
    (hsmall : published.length + (fieldsData fields).length < 2 ^ 32) :
    (insertFields key s i off fields).Remembers (published ++ fieldsData fields) := by
  induction fields generalizing s published i off with
  | nil => exact h.mono []
  | cons f fields ih =>
      obtain ⟨v, dup⟩ := f
      have hnext : off + (field v dup).length =
          chunkHeaderSize + (published ++ field v dup).length := by
        rw [hoff, List.length_append, Nat.add_assoc]
      rw [fieldsData_cons, List.length_append] at hsmall
      rw [fieldsData_cons, ← List.append_assoc]
      have hrest : (published ++ field v dup).length + (fieldsData fields).length < 2 ^ 32 := by
        rw [List.length_append, Nat.add_assoc]
        exact hsmall
      unfold insertFields
      cases hv : v.varlen with
      | none => exact ih (h.mono _) hnext hrest
      | some data =>
          cases dup with
          | some off' => exact ih (h.mono _) hnext hrest
          | none =>
              refine ih ((h.mono _).insert ?_) hnext hrest
              have hfield : field v none = Value.encodeVarlen data ++ [] := by
                rw [List.append_nil]
                exact encode_eq hv
              have hlen : (field v none).length = 4 + data.length := by
                rw [hfield, List.append_nil, Value.encodeVarlen, List.length_append, le_length_u32]
              rw [hfield]
              exact TextAt.end (by omega) hoff

end Fields

end Probing.Memt
