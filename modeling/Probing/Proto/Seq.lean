import Mathlib.Algebra.Order.Ring.Int
import Mathlib.Data.List.Basic

/-!
# Sequences

A column of a result is a vector of one element type. A sequence without a type takes
the type of the first element that is appended; a float is its bit pattern.
-/

namespace Probing.Proto

inductive EleType where
  | Nil
  | BOOL
  | I32
  | I64
  | F32
  | F64
  | Text
  | Url
  | DataTime
  deriving DecidableEq, Repr

inductive Ele where
  | Nil
  | BOOL (x : Bool)
  | I32 (x : Int32)
  | I64 (x : Int64)
  | F32 (bits : UInt32)
  | F64 (bits : UInt64)
  | Text (x : String)
  | Url (x : String)
  | DataTime (x : UInt64)
  deriving DecidableEq

inductive ProtoError where
  | WrongSequenceType
  | TypeMismatch (expected got : EleType)
  | InvalidValueDateType
  | RawPageTypeExpected
  | CapacityExceeded
  deriving DecidableEq

inductive Seq where
  | Nil
  | SeqBOOL (vec : List Bool)
  | SeqI32 (vec : List Int32)
  | SeqI64 (vec : List Int64)
  | SeqF32 (vec : List UInt32)
  | SeqF64 (vec : List UInt64)
  | SeqText (vec : List String)
  | SeqDateTime (vec : List UInt64)
  deriving DecidableEq

namespace Seq

def len : Seq → ℕ
  | Nil => 0
  | SeqBOOL vec => vec.length
  | SeqI32 vec => vec.length
  | SeqI64 vec => vec.length
  | SeqF32 vec => vec.length
  | SeqF64 vec => vec.length
  | SeqText vec => vec.length
  | SeqDateTime vec => vec.length

/-- Sizes of the elements; a text counts its UTF-8 bytes. -/
def nbytes : Seq → ℕ
  | Nil => 0
  | SeqBOOL vec => vec.length
  | SeqI32 vec => vec.length * 4
  | SeqI64 vec => vec.length * 8
  | SeqF32 vec => vec.length * 4
  | SeqF64 vec => vec.length * 8
  | SeqText vec => (vec.map String.utf8ByteSize).sum
  | SeqDateTime vec => vec.length * 8

/-- The element at an index, `Nil` where there is none. -/
def get (s : Seq) (idx : ℕ) : Ele :=
  (match s with
    | Nil => none
    | SeqBOOL vec => vec[idx]?.map .BOOL
    | SeqI32 vec => vec[idx]?.map .I32
    | SeqI64 vec => vec[idx]?.map .I64
    | SeqF32 vec => vec[idx]?.map .F32
    | SeqF64 vec => vec[idx]?.map .F64
    | SeqText vec => vec[idx]?.map .Text
    | SeqDateTime vec => vec[idx]?.map .DataTime : Option Ele).getD .Nil

/-- Booleans and URLs have no case of their own. -/
def append (s : Seq) (value : Ele) : Except ProtoError Seq :=
  match s, value with
  | Nil, .I32 x => .ok (SeqI32 [x])
  | Nil, .I64 x => .ok (SeqI64 [x])
  | Nil, .F32 x => .ok (SeqF32 [x])
  | Nil, .F64 x => .ok (SeqF64 [x])
  | Nil, .Text x => .ok (SeqText [x])
  | Nil, .DataTime x => .ok (SeqDateTime [x])
  | Nil, .Nil => .ok Nil
  | SeqI32 vec, .I32 x => .ok (SeqI32 (vec ++ [x]))
  | SeqI64 vec, .I64 x => .ok (SeqI64 (vec ++ [x]))
  | SeqF32 vec, .F32 x => .ok (SeqF32 (vec ++ [x]))
  | SeqF64 vec, .F64 x => .ok (SeqF64 (vec ++ [x]))
  | SeqText vec, .Text x => .ok (SeqText (vec ++ [x]))
  | SeqDateTime vec, .DataTime x => .ok (SeqDateTime (vec ++ [x]))
  | _, _ => .error .WrongSequenceType

/-- The elements in order. -/
def eles : Seq → List Ele
  | Nil => []
  | SeqBOOL vec => vec.map .BOOL
  | SeqI32 vec => vec.map .I32
  | SeqI64 vec => vec.map .I64
  | SeqF32 vec => vec.map .F32
  | SeqF64 vec => vec.map .F64
  | SeqText vec => vec.map .Text
  | SeqDateTime vec => vec.map .DataTime

@[simp] theorem eles_length (s : Seq) : s.eles.length = s.len := by
  cases s <;> simp [eles, len]

theorem get_eq (s : Seq) (idx : ℕ) : s.get idx = s.eles[idx]?.getD .Nil := by
  cases s <;> simp [get, eles]

/-- The type of the elements. -/
def dtype : Seq → EleType
  | Nil => .Nil
  | SeqBOOL _ => .BOOL
  | SeqI32 _ => .I32
  | SeqI64 _ => .I64
  | SeqF32 _ => .F32
  | SeqF64 _ => .F64
  | SeqText _ => .Text
  | SeqDateTime _ => .DataTime

end Seq

def Ele.dtype : Ele → EleType
  | .Nil => .Nil
  | .BOOL _ => .BOOL
  | .I32 _ => .I32
  | .I64 _ => .I64
  | .F32 _ => .F32
  | .F64 _ => .F64
  | .Text _ => .Text
  | .Url _ => .Url
  | .DataTime _ => .DataTime

namespace Seq

theorem dtype_of_mem {s : Seq} {e : Ele} (h : e ∈ s.eles) : e.dtype = s.dtype := by
  cases s with
  | Nil => cases h
  | SeqBOOL vec | SeqI32 vec | SeqI64 vec | SeqF32 vec | SeqF64 vec | SeqText vec
  | SeqDateTime vec =>
      obtain ⟨x, -, rfl⟩ := List.mem_map.mp h
      rfl

/-- A sequence that has elements takes another one of its type, unless they are booleans. -/
theorem append_ok {s : Seq} {e : Ele} (htyped : s.dtype ≠ .Nil) (hkind : e.dtype = s.dtype)
    (hbool : s.dtype ≠ .BOOL) : ∃ s', s.append e = .ok s' ∧ s'.eles = s.eles ++ [e] ∧
    s'.dtype = s.dtype := by
  cases s with
  | Nil => exact absurd rfl htyped
  | SeqBOOL => exact absurd rfl hbool
  | SeqI32 | SeqI64 | SeqF32 | SeqF64 | SeqText | SeqDateTime =>
      cases e with
      | Nil | BOOL | I32 | I64 | F32 | F64 | Text | Url | DataTime =>
          first
            | cases hkind; done
            | exact ⟨_, rfl, by simp [eles], rfl⟩

theorem append_error {s : Seq} {e : Ele} (htyped : s.dtype ≠ .Nil)
    (hkind : e.dtype ≠ s.dtype ∨ s.dtype = .BOOL) :
    s.append e = .error .WrongSequenceType := by
  cases s with
  | Nil => exact absurd rfl htyped
  | SeqBOOL => cases e <;> rfl
  | SeqI32 | SeqI64 | SeqF32 | SeqF64 | SeqText | SeqDateTime =>
      rcases hkind with hkind | hbool
      · cases e <;> first | rfl | exact absurd rfl hkind
      · cases hbool

end Seq

end Probing.Proto
