import Mathlib.Algebra.Order.Ring.Int
import Mathlib.Data.List.Infix

/-!
# Texts as UTF-8

A text is a list of characters. Its length and the offsets it is cut at are in bytes, so an offset
may lie inside a character. A text cut at an offset is given by the bytes before the offset.
-/

namespace Probing.Core

/-- White space as `str::trim` takes it. -/
def isWhitespace (c : Char) : Bool :=
  let n := c.toNat
  decide (9 ≤ n ∧ n ≤ 13) || n == 32 || n == 133 || n == 160 || n == 5760 ||
    decide (8192 ≤ n ∧ n ≤ 8202) || n == 8232 || n == 8233 || n == 8239 || n == 8287 || n == 12288

def trim (line : List Char) : List Char :=
  ((line.dropWhile isWhitespace).reverse.dropWhile isWhitespace).reverse

/-- `str::contains`. -/
def contains (s needle : String) : Bool := decide (needle.toList <:+: s.toList)

def bytes (s : List Char) : List UInt8 := s.flatMap String.utf8EncodeChar

/-- `str::len`. -/
def byteLen (s : List Char) : ℕ := (bytes s).length

section SplitOnce

variable {α : Type*} [DecidableEq α]

/-- `str::split_once`: the parts before and after the first separator. -/
def splitOnce (sep : α) : List α → Option (List α × List α)
  | [] => none
  | x :: xs => if x = sep then some ([], xs) else (splitOnce sep xs).map fun p => (x :: p.1, p.2)

variable {sep : α} {l a b : List α}

theorem splitOnce_eq_none : splitOnce sep l = none ↔ sep ∉ l := by
  induction l with
  | nil => simp [splitOnce]
  | cons x xs ih =>
      by_cases hx : x = sep
      · simp [splitOnce, hx]
      · simp [splitOnce, hx, ih, Ne.symm hx]

theorem splitOnce_eq_some : splitOnce sep l = some (a, b) ↔ sep ∉ a ∧ l = a ++ sep :: b := by
  induction l generalizing a with
  | nil => simp [splitOnce]
  | cons x xs ih =>
      by_cases hx : x = sep
      · subst hx
        cases a with
        | nil => simp [splitOnce, eq_comm]
        | cons y ys =>
            simp only [splitOnce, if_true, Option.some.injEq, Prod.mk.injEq, List.nil_eq,
              reduceCtorEq, false_and, List.cons_append, List.cons.injEq, List.mem_cons, not_or,
              false_iff, not_and]
            exact fun hne hhead => absurd hhead hne.1
      · cases a with
        | nil => simp [splitOnce, hx]
        | cons y ys =>
            simp only [splitOnce, if_neg hx, Option.map_eq_some_iff, Prod.exists, Prod.mk.injEq,
              List.cons.injEq, List.cons_append, List.mem_cons, not_or]
            constructor
            · rintro ⟨ys', b', hsplit, ⟨rfl, rfl⟩, rfl⟩
              obtain ⟨hnot, hl⟩ := ih.mp hsplit
              exact ⟨⟨Ne.symm hx, hnot⟩, rfl, hl⟩
            · rintro ⟨⟨-, hnot⟩, rfl, hl⟩
              exact ⟨ys, b, ih.mpr ⟨hnot, hl⟩, ⟨rfl, rfl⟩, rfl⟩

end SplitOnce

def parseDigits (s : List Char) : Option ℕ :=
  if s ≠ [] ∧ s.all Char.isDigit then
    some (s.foldl (fun n c => n * 10 + (c.toNat - '0'.toNat)) 0)
  else none

/-- `str::parse` to an integer type with these bounds. -/
def parseInt (low high : ℤ) (s : List Char) : Option ℤ :=
  (match s with
    | '-' :: digits => (parseDigits digits).map fun n => -(n : ℤ)
    | '+' :: digits => (parseDigits digits).map fun n => (n : ℤ)
    | digits => (parseDigits digits).map fun n => (n : ℤ)).filter fun v => low ≤ v ∧ v ≤ high

/-- `str::parse` to an unsigned type of so many bits. -/
def parseUnsigned (bits : ℕ) (s : List Char) : Option ℕ :=
  (parseDigits (if s.head? = some '+' then s.tail else s)).filter (· < 2 ^ bits)

/-- The characters before a byte offset, none if the offset is not at the boundary of one. -/
def sliceTo : List Char → ℕ → Option (List Char)
  | [], n => if n = 0 then some [] else none
  | c :: s, n =>
      if n = 0 then some []
      else if c.utf8Size ≤ n then (sliceTo s (n - c.utf8Size)).map (c :: ·) else none

variable {s t p : List Char} {n : ℕ}

@[simp] theorem bytes_nil : bytes [] = [] := rfl

theorem bytes_cons (c : Char) (s : List Char) :
    bytes (c :: s) = String.utf8EncodeChar c ++ bytes s := rfl

@[simp] theorem bytes_append (s t : List Char) : bytes (s ++ t) = bytes s ++ bytes t :=
  List.flatMap_append

@[simp] theorem byteLen_nil : byteLen [] = 0 := rfl

@[simp] theorem byteLen_cons (c : Char) (s : List Char) :
    byteLen (c :: s) = c.utf8Size + byteLen s := by
  simp [byteLen, bytes_cons]

@[simp] theorem byteLen_append (s t : List Char) :
    byteLen (s ++ t) = byteLen s + byteLen t := by
  simp [byteLen]

/-- The first bytes of a text are those of its first characters. -/
theorem prefix_of_bytes (h : bytes p <+: bytes s) : p <+: s := by
  obtain ⟨rest, hrest⟩ := h
  apply List.isPrefix_of_utf8Encode_append_eq_utf8Encode rest.toByteArray
  rw [List.utf8Encode, List.utf8Encode, ← List.toByteArray_append]
  exact congrArg List.toByteArray hrest

theorem bytes_injective (h : bytes s = bytes t) : s = t := by
  have hst : s <+: t := prefix_of_bytes (h ▸ List.prefix_rfl)
  have hts : t <+: s := prefix_of_bytes (h ▸ List.prefix_rfl)
  exact hst.eq_of_length_le hts.length_le

theorem take_bytes (h : p <+: s) (hlen : byteLen p = n) : (bytes s).take n = bytes p := by
  obtain ⟨rest, rfl⟩ := h
  rw [bytes_append]
  exact List.take_left' hlen

/-- The first bytes of a text are those of any beginning that has as many. -/
theorem take_bytesOf_prefix (h : p <+: s) (hlen : n ≤ byteLen p) :
    (bytes p).take n = (bytes s).take n := by
  obtain ⟨rest, rfl⟩ := h
  rw [bytes_append]
  exact (List.take_append_of_le_length hlen).symm

theorem trim_starts (line : List Char) : trim line <+: line.dropWhile isWhitespace := by
  rw [trim, ← List.reverse_suffix, List.reverse_reverse]
  exact List.dropWhile_suffix isWhitespace

theorem sliceTo_eq_some : sliceTo s n = some p ↔ p <+: s ∧ byteLen p = n := by
  induction s generalizing n p with
  | nil =>
      rw [sliceTo, List.prefix_nil]
      constructor
      · intro h
        split at h
        · rename_i hzero
          cases h
          exact ⟨rfl, hzero.symm⟩
        · cases h
      · rintro ⟨rfl, hlen⟩
        rw [if_pos (hlen.symm.trans byteLen_nil)]
  | cons c rest ih =>
      have hpos := c.utf8Size_pos
      rw [sliceTo]
      constructor
      · intro h
        split at h
        · rename_i hzero
          cases h
          exact ⟨List.nil_prefix, hzero.symm⟩
        · split at h
          · obtain ⟨q, hq, rfl⟩ := Option.map_eq_some_iff.mp h
            obtain ⟨hqrest, hlen⟩ := ih.mp hq
            refine ⟨List.cons_prefix_cons.mpr ⟨rfl, hqrest⟩, ?_⟩
            rw [byteLen_cons]
            omega
          · cases h
      · rintro ⟨hp, hlen⟩
        cases p with
        | nil => exact if_pos (hlen.symm.trans byteLen_nil)
        | cons d q =>
            obtain ⟨rfl, hq⟩ := List.cons_prefix_cons.mp hp
            rw [byteLen_cons] at hlen
            have hrest := ih.mpr ⟨hq, show byteLen q = n - d.utf8Size by omega⟩
            rw [if_neg (by omega), if_pos (by omega), hrest]
            rfl

end Probing.Core
