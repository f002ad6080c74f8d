import Probing.Core.Bytes

/-!
# Column types, row values and chunk states

A float is its bit pattern.
-/

namespace Probing.Memt

open Probing.Core

/-- Column data type. -/
inductive DType where
  | U8
  | I32
  | I64
  | F32
  | F64
  | U64
  | U32
  | Str
  | Bytes
  deriving DecidableEq, Repr

namespace DType

/-- The discriminant. -/
def tag : DType → UInt32
  | U8 => 1
  | I32 => 2
  | I64 => 3
  | F32 => 4
  | F64 => 5
  | U64 => 6
  | U32 => 7
  | Str => 8
  | Bytes => 9

def fixedSize : DType → Option ℕ
  | U8 => some 1
  | I32 | F32 | U32 => some 4
  | I64 | F64 | U64 => some 8
  | Str | Bytes => none

def fromU32 : UInt32 → Option DType
  | 1 => some U8
  | 2 => some I32
  | 3 => some I64
  | 4 => some F32
  | 5 => some F64
  | 6 => some U64
  | 7 => some U32
  | 8 => some Str
  | 9 => some Bytes
  | _ => none

@[simp] theorem fromU32_tag (d : DType) : fromU32 d.tag = some d := by
  cases d <;> rfl

end DType

/-- Typed row cell for batch writes. -/
inductive Value where
  | U8 (v : UInt8)
  | U32 (v : UInt32)
  | I32 (v : Int32)
  | I64 (v : Int64)
  | F32 (bits : UInt32)
  | F64 (bits : UInt64)
  | U64 (v : UInt64)
  | Str (s : String)
  | Bytes (b : Probing.Core.Bytes)
  deriving DecidableEq

namespace Value

def dtype : Value → DType
  | U8 _ => .U8
  | U32 _ => .U32
  | I32 _ => .I32
  | I64 _ => .I64
  | F32 _ => .F32
  | F64 _ => .F64
  | U64 _ => .U64
  | Str _ => .Str
  | Bytes _ => .Bytes

def encodedSize : Value → ℕ
  | U8 _ => 1
  | U32 _ | I32 _ | F32 _ => 4
  | I64 _ | F64 _ | U64 _ => 8
  | Str s => 4 + (utf8 s).length
  | Bytes b => 4 + b.length

/-- `[u32 len][bytes]`; the length is cast. -/
def encodeVarlen (b : Probing.Core.Bytes) : Probing.Core.Bytes := le (UInt32.ofNat b.length) ++ b

/-- The bytes of a value in a row. -/
def encode : Value → Probing.Core.Bytes
  | U8 v => le v
  | U32 v | F32 v => le v
  | I32 v => le v
  | I64 v => le v
  | F64 v | U64 v => le v
  | Str s => encodeVarlen (utf8 s)
  | Bytes b => encodeVarlen b

/-- The bytes of a text or byte string. -/
def varlen : Value → Option Probing.Core.Bytes
  | Str s => some (utf8 s)
  | Bytes b => some b
  | _ => none

@[simp] theorem encode_length (v : Value) : v.encode.length = v.encodedSize := by
  cases v <;> simp [encode, encodedSize, encodeVarlen, LeWord.width]

end Value

/-- Column names recognised as the designated timestamp column. -/
def tsColNames : List String := ["timestamp", "ts"]

/-- Position of the first `I64` column with a recognised name. -/
def tsPosition (cols : List (String × DType)) : Option ℕ :=
  cols.findIdx? fun c => c.2 = .I64 ∧ c.1 ∈ tsColNames

/-- `Header::ts_col`: position of the designated timestamp column plus 1, 0 for none. -/
def headerTsCol (position : Option ℕ) : UInt16 :=
  (position.map fun i => UInt16.ofNat (i + 1)).getD 0

/-- The designated timestamp column as a view reads it. -/
def viewTsCol (tsCol : UInt16) : Option ℕ :=
  if tsCol = 0 then none else some (tsCol.toNat - 1)

/-- A position that fits its field reads back. -/
theorem viewTsCol_header {i : ℕ} (h : i + 1 < 2 ^ 16) :
    viewTsCol (headerTsCol (some i)) = some i := by
  have hnat : (UInt16.ofNat (i + 1)).toNat = i + 1 := UInt16.toNat_ofNat_of_lt' h
  have hne : UInt16.ofNat (i + 1) ≠ 0 := by
    intro hzero
    rw [hzero] at hnat
    exact Nat.succ_ne_zero i hnat.symm
  unfold viewTsCol headerTsCol
  rw [Option.map_some, Option.getD_some, if_neg hne, hnat, Nat.add_sub_cancel]

/-- Lifecycle state of a chunk. A reader may pin any chunk that is not empty. -/
inductive ChunkState where
  | Empty
  | Writing
  | Sealed
  deriving DecidableEq, Repr

/-- Bytes of chunk header before the payload. -/
def chunkHeaderSize : ℕ := 40

end Probing.Memt
