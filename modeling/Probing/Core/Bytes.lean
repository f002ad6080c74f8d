import Mathlib.Data.List.Basic
import Mathlib.Tactic.Ring

/-!
# Byte buffers

A buffer is a list of bytes. Fixed-width words are stored little-endian, and a
word is read back from any buffer that has its bytes at the offset.
-/

namespace Probing.Core

abbrev Bytes := List UInt8

/-- `u64::saturating_add`. -/
def saturatingAdd (a b : ℕ) : ℕ := min (a + b) (2 ^ 64 - 1)

/-- The `n` bytes at `off`, fewer where the buffer ends. -/
def slice (buf : Bytes) (off n : ℕ) : Bytes := (buf.drop off).take n

/-- Overwrite the bytes at `off`. -/
def splice (buf : Bytes) (off : ℕ) (bs : Bytes) : Bytes :=
  buf.take off ++ bs ++ buf.drop (off + bs.length)

def leBytes : ℕ → ℕ → Bytes
  | 0, _ => []
  | w + 1, v => .ofNat v :: leBytes w (v / 256)

def leNat : Bytes → ℕ
  | [] => 0
  | b :: bs => b.toNat + 256 * leNat bs

@[simp] theorem leBytes_length (w v : ℕ) : (leBytes w v).length = w := by
  induction w generalizing v with
  | zero => rfl
  | succ w ih => simp [leBytes, ih]

theorem leNat_leBytes (w v : ℕ) : leNat (leBytes w v) = v % 256 ^ w := by
  induction w generalizing v with
  | zero => simp [leBytes, leNat, Nat.mod_one]
  | succ w ih =>
      have hbyte : (UInt8.ofNat v).toNat = v % 256 := by simp
      rw [leBytes, leNat, ih, hbyte, pow_succ', Nat.mod_mul]

/-- Words of a fixed number of bytes. -/
class LeWord (α : Type) where
  width : ℕ
  toNat : α → ℕ
  ofNat : ℕ → α
  ofNat_toNat : ∀ v, ofNat (toNat v % 256 ^ width) = v

instance : LeWord UInt8 := ⟨1, UInt8.toNat, UInt8.ofNat, fun v => by simp⟩

instance : LeWord UInt16 where
  width := 2
  toNat := UInt16.toNat
  ofNat := UInt16.ofNat
  ofNat_toNat v := by
    have := v.toNat_lt
    rw [Nat.mod_eq_of_lt (by omega)]
    exact UInt16.ofNat_toNat

instance : LeWord UInt32 where
  width := 4
  toNat := UInt32.toNat
  ofNat := UInt32.ofNat
  ofNat_toNat v := by
    have := v.toNat_lt
    rw [Nat.mod_eq_of_lt (by omega)]
    exact UInt32.ofNat_toNat

instance : LeWord UInt64 where
  width := 8
  toNat := UInt64.toNat
  ofNat := UInt64.ofNat
  ofNat_toNat v := by
    have := v.toNat_lt
    rw [Nat.mod_eq_of_lt (by omega)]
    exact UInt64.ofNat_toNat

/-- Signed words are stored by their two's complement. -/
instance : LeWord Int32 where
  width := 4
  toNat v := v.toUInt32.toNat
  ofNat n := (UInt32.ofNat n).toInt32
  ofNat_toNat v := by
    have := v.toUInt32.toNat_lt
    rw [Nat.mod_eq_of_lt (by omega), UInt32.ofNat_toNat]
    rfl

instance : LeWord Int64 where
  width := 8
  toNat v := v.toUInt64.toNat
  ofNat n := (UInt64.ofNat n).toInt64
  ofNat_toNat v := by
    have := v.toUInt64.toNat_lt
    rw [Nat.mod_eq_of_lt (by omega), UInt64.ofNat_toNat]
    rfl

section Word

variable {α : Type} [LeWord α]

/-- `to_le_bytes`. -/
def le (v : α) : Bytes := leBytes (LeWord.width α) (LeWord.toNat v)

/-- The word at `off`. -/
def getLe (α : Type) [LeWord α] (buf : Bytes) (off : ℕ) : α :=
  LeWord.ofNat (leNat (slice buf off (LeWord.width α)))

end Word

@[simp] theorem le_length_u8 (v : UInt8) : (le v).length = 1 := leBytes_length _ _
@[simp] theorem le_length_u16 (v : UInt16) : (le v).length = 2 := leBytes_length _ _
@[simp] theorem le_length_u32 (v : UInt32) : (le v).length = 4 := leBytes_length _ _
@[simp] theorem le_length_u64 (v : UInt64) : (le v).length = 8 := leBytes_length _ _
@[simp] theorem le_length_i32 (v : Int32) : (le v).length = 4 := leBytes_length _ _
@[simp] theorem le_length_i64 (v : Int64) : (le v).length = 8 := leBytes_length _ _

variable {a b buf bs : Bytes} {off n m : ℕ}

@[simp] theorem slice_length (buf : Bytes) (off n : ℕ) :
    (slice buf off n).length = min n (buf.length - off) := by
  simp [slice]

/-- A slice past the first part of a buffer. -/
theorem slice_append_right (h : a.length ≤ off) :
    slice (a ++ b) off n = slice b (off - a.length) n := by
  rw [slice, slice, List.drop_append, List.drop_eq_nil_of_le h, List.nil_append]

theorem slice_length_add (a b : Bytes) (k n : ℕ) :
    slice (a ++ b) (a.length + k) n = slice b k n := by
  rw [slice_append_right (Nat.le_add_right _ _), Nat.add_sub_cancel_left]

/-- A slice within the first part of a buffer. -/
theorem slice_append_left (h : off + n ≤ a.length) : slice (a ++ b) off n = slice a off n := by
  have hn : n ≤ (a.drop off).length := by
    rw [List.length_drop]
    omega
  rw [slice, slice, List.drop_append_of_le_length (by omega), List.take_append_of_le_length hn]

theorem slice_zero_append (h : a.length = n) : slice (a ++ b) 0 n = a := by
  subst h
  simp [slice]

theorem slice_drop (buf : Bytes) (off k n : ℕ) :
    slice (buf.drop off) k n = slice buf (off + k) n := by
  simp [slice, List.drop_drop]

/-- A buffer from the bs of a slice on. -/
theorem drop_of_slice (h : slice buf off bs.length = bs) :
    ∃ rest, buf.drop off = bs ++ rest :=
  ⟨(buf.drop off).drop bs.length, by
    nth_rewrite 1 [← h]
    exact (List.take_append_drop _ _).symm⟩

theorem slice_add (buf : Bytes) (off n m : ℕ) :
    slice buf off (n + m) = slice buf off n ++ slice buf (off + n) m := by
  rw [slice, slice, slice, List.take_add, List.drop_drop]

/-- Only the part of the buffer below the end of the slice matters. -/
theorem slice_take (h : off + n ≤ m) : slice (buf.take m) off n = slice buf off n := by
  rw [slice, slice, List.drop_take, List.take_take, Nat.min_eq_left (by omega)]

@[simp] theorem splice_length (h : off + bs.length ≤ buf.length) :
    (splice buf off bs).length = buf.length := by
  simp only [splice, List.length_append, List.length_take, List.length_drop]
  omega

/-- Writing at the end of a buffer extends it. -/
theorem splice_end (buf bs : Bytes) : splice buf buf.length bs = buf ++ bs := by
  simp [splice]

/-- Overwriting the head of a buffer. -/
theorem splice_zero_append (h : bs.length = a.length) : splice (a ++ b) 0 bs = bs ++ b := by
  simp [splice, h]

/-- What a write has stored is read back. -/
theorem slice_splice_self (h : off ≤ buf.length) :
    slice (splice buf off bs) off bs.length = bs := by
  have hlen : (buf.take off).length = off := by simpa using h
  rw [splice, List.append_assoc, slice_append_right hlen.le, hlen, Nat.sub_self]
  exact slice_zero_append rfl

/-- A write leaves the bytes before it. -/
theorem slice_splice_before (hoff : off ≤ buf.length) (h : m + n ≤ off) :
    slice (splice buf off bs) m n = slice buf m n := by
  have hlen : (buf.take off).length = off := by simpa using hoff
  rw [splice, List.append_assoc, slice_append_left (by omega), slice_take h]

/-- A write leaves the bytes after it. -/
theorem slice_splice_after (hoff : off ≤ buf.length) (h : off + bs.length ≤ m) :
    slice (splice buf off bs) m n = slice buf m n := by
  have hlen : (buf.take off ++ bs).length = off + bs.length := by
    simpa using Nat.min_eq_left hoff
  rw [splice, slice_append_right (by omega), hlen, slice_drop]
  congr 1
  omega

/-- A write leaves what is before it. -/
theorem take_splice_before (h : n ≤ off) (hlen : n ≤ buf.length) :
    (splice buf off bs).take n = buf.take n := by
  have hpre : n ≤ (buf.take off).length := by
    rw [List.length_take]
    omega
  rw [splice, List.append_assoc, List.take_append_of_le_length hpre, List.take_take,
    Nat.min_eq_left h]

/-- A buffer up to the end of a write. -/
theorem take_splice_end (h : off ≤ buf.length) (bs : Bytes) :
    (splice buf off bs).take (off + bs.length) = buf.take off ++ bs := by
  have hlen : (buf.take off ++ bs).length = off + bs.length := by
    rw [List.length_append, List.length_take, Nat.min_eq_left h]
  rw [splice, ← hlen, List.take_left]

theorem drop_splice_end (h : off ≤ buf.length) (bs : Bytes) :
    (splice buf off bs).drop (off + bs.length) = buf.drop (off + bs.length) := by
  have hlen : (buf.take off ++ bs).length = off + bs.length := by
    rw [List.length_append, List.length_take, Nat.min_eq_left h]
  rw [splice, ← hlen, List.drop_left]

@[simp] theorem splice_nil (buf : Bytes) (off : ℕ) : splice buf off [] = buf := by
  rw [splice, List.append_nil, List.length_nil, Nat.add_zero, List.take_append_drop]

/-- A write changes nothing where its bytes are already. -/
theorem splice_eq_self_iff (h : off + bs.length ≤ buf.length) :
    splice buf off bs = buf ↔ bs <+: buf.drop off := by
  constructor
  · intro heq
    have hread : slice (splice buf off bs) off bs.length = bs :=
      slice_splice_self (Nat.le_of_add_right_le h)
    rw [heq] at hread
    exact List.prefix_iff_eq_take.mpr hread.symm
  · rintro ⟨rest, hrest⟩
    have hafter : buf.drop (off + bs.length) = rest := by
      rw [← List.drop_drop, ← hrest, List.drop_left]
    calc
      splice buf off bs = buf.take off ++ (bs ++ rest) := by
        rw [splice, hafter, List.append_assoc]
      _ = buf := by rw [hrest, List.take_append_drop]

/-- Two writes one after the other are one. -/
theorem splice_append (h : off ≤ buf.length) (bs more : Bytes) :
    splice (splice buf off bs) (off + bs.length) more = splice buf off (bs ++ more) := by
  calc
    splice (splice buf off bs) (off + bs.length) more
        = buf.take off ++ bs ++ more ++ (buf.drop (off + bs.length)).drop more.length := by
      rw [splice, take_splice_end h, ← List.drop_drop, drop_splice_end h]
    _ = splice buf off (bs ++ more) := by
      rw [splice, List.drop_drop, List.length_append, ← Nat.add_assoc,
        List.append_assoc (buf.take off)]

/-- A write before another one, next to it, extends it. -/
theorem splice_before (h : off + bs.length ≤ buf.length) (more : Bytes) :
    splice (splice buf (off + bs.length) more) off bs = splice buf off (bs ++ more) := by
  have hlen : (buf.take (off + bs.length)).length = off + bs.length := by
    rw [List.length_take, Nat.min_eq_left h]
  calc
    splice (splice buf (off + bs.length) more) off bs
        = buf.take off ++ bs ++ (more ++ buf.drop (off + bs.length + more.length)) := by
      rw [splice, take_splice_before (by omega) (by omega)]
      congr 1
      rw [splice, List.append_assoc]
      nth_rewrite 1 [← hlen]
      rw [List.drop_left]
    _ = splice buf off (bs ++ more) := by
      rw [splice, List.length_append, ← Nat.add_assoc, List.append_assoc, List.append_assoc,
        List.append_assoc]

section Word

variable {α : Type} [LeWord α] {v : α}

@[simp] theorem le_length (v : α) : (le v).length = LeWord.width α := leBytes_length _ _

/-- A word stored at the head of a buffer is read back. -/
@[simp] theorem getLe_le_append (v : α) (b : Bytes) : getLe α (le v ++ b) 0 = v := by
  rw [getLe, slice_zero_append (le_length v), le, leNat_leBytes, LeWord.ofNat_toNat]

theorem getLe_append_right (h : a.length ≤ off) :
    getLe α (a ++ b) off = getLe α b (off - a.length) := by
  rw [getLe, getLe, slice_append_right h]

/-- A part of the buffer before the offset only shifts it. -/
theorem getLe_length_add (a b : Bytes) (k : ℕ) :
    getLe α (a ++ b) (a.length + k) = getLe α b k := by
  rw [getLe_append_right (Nat.le_add_right _ _), Nat.add_sub_cancel_left]

theorem getLe_append_left (h : off + LeWord.width α ≤ a.length) :
    getLe α (a ++ b) off = getLe α a off := by
  rw [getLe, getLe, slice_append_left h]

theorem getLe_drop (buf : Bytes) (off k : ℕ) :
    getLe α (buf.drop off) k = getLe α buf (off + k) := by
  rw [getLe, getLe, slice_drop]

/-- Only the part of the buffer below the end of the word matters. -/
theorem getLe_take (h : off + LeWord.width α ≤ m) : getLe α (buf.take m) off = getLe α buf off := by
  rw [getLe, getLe, slice_take h]

theorem getLe_of_slice (h : slice buf off (LeWord.width α) = le v) : getLe α buf off = v := by
  rw [getLe, h, le, leNat_leBytes, LeWord.ofNat_toNat]

end Word

section Text

/-- The UTF-8 bytes of a string. -/
def utf8 (s : String) : Bytes := s.toByteArray.data.toList

def fromUtf8 (bs : Bytes) : Option String := String.fromUTF8? ⟨bs.toArray⟩

@[simp] theorem fromUtf8_utf8 (s : String) : fromUtf8 (utf8 s) = some s := by
  have hbytes : (⟨(utf8 s).toArray⟩ : ByteArray) = s.toByteArray := by simp [utf8]
  rw [fromUtf8, hbytes, String.fromUTF8?, dif_pos s.isValidUTF8]
  rfl

/-- Decoded text has the decoded bytes. -/
theorem utf8_of_fromUtf8 {bs : Bytes} {s : String} (h : fromUtf8 bs = some s) :
    utf8 s = bs := by
  unfold fromUtf8 String.fromUTF8? at h
  split_ifs at h
  obtain rfl := Option.some.inj h
  simp [utf8, String.fromUTF8]

end Text

end Probing.Core
