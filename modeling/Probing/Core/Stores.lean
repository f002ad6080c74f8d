import Probing.Core.Bytes

/-!
# Stores into a buffer

A program that fills a buffer is the list of its stores. What a store wrote is read back
when no later store touches it.
-/

namespace Probing.Core

/-- A store of bytes at an offset. -/
structure Store where
  off : ℕ
  bytes : Bytes

namespace Store

/-- The end of the bytes that are written. -/
def fin (s : Store) : ℕ := s.off + s.bytes.length

/-- The store leaves the `n` bytes at `off` alone. -/
def Apart (s : Store) (off n : ℕ) : Prop := off + n ≤ s.off ∨ s.fin ≤ off

/-- The store lies between two offsets. -/
def Within (s : Store) (lo hi : ℕ) : Prop := lo ≤ s.off ∧ s.fin ≤ hi

/-- A store between two offsets leaves alone what is before or after them. -/
theorem Within.apart {s : Store} {lo hi off n : ℕ} (h : s.Within lo hi)
    (hoff : off + n ≤ lo ∨ hi ≤ off) :
    s.Apart off n := hoff.imp (fun hbefore => hbefore.trans h.1) fun hafter => h.2.trans hafter

end Store

/-- The buffer after the stores, one after the other. -/
def storeAll (buf : Bytes) (stores : List Store) : Bytes :=
  stores.foldl (fun buf s => splice buf s.off s.bytes) buf

variable {buf : Bytes} {stores more : List Store} {off n : ℕ}

@[simp] theorem storeAll_nil (buf : Bytes) : storeAll buf [] = buf := rfl

@[simp] theorem storeAll_cons (buf : Bytes) (s : Store) (stores : List Store) :
    storeAll buf (s :: stores) = storeAll (splice buf s.off s.bytes) stores := rfl

theorem storeAll_append (buf : Bytes) (stores more : List Store) :
    storeAll buf (stores ++ more) = storeAll (storeAll buf stores) more := List.foldl_append

/-- Stores within the buffer keep its length. -/
theorem storeAll_length (h : ∀ s ∈ stores, s.Within 0 buf.length) :
    (storeAll buf stores).length = buf.length := by
  induction stores generalizing buf with
  | nil => rfl
  | cons s stores ih =>
      have hlen : (splice buf s.off s.bytes).length = buf.length :=
        splice_length (h s List.mem_cons_self).2
      rw [storeAll_cons, ih, hlen]
      intro s' hs'
      rw [hlen]
      exact h s' (List.mem_cons_of_mem _ hs')

/-- Bytes that no store touches stay. -/
theorem slice_storeAll (h : ∀ s ∈ stores, s.Within 0 buf.length)
    (hapart : ∀ s ∈ stores, s.Apart off n) :
    slice (storeAll buf stores) off n = slice buf off n := by
  induction stores generalizing buf with
  | nil => rfl
  | cons s stores ih =>
      have hin := (h s List.mem_cons_self).2
      have hlen : (splice buf s.off s.bytes).length = buf.length := splice_length hin
      have hoff : s.off ≤ buf.length := (Nat.le_add_right _ _).trans hin
      rw [storeAll_cons, ih (fun s' hs' => hlen ▸ h s' (List.mem_cons_of_mem _ hs'))
        fun s' hs' => hapart s' (List.mem_cons_of_mem _ hs')]
      rcases hapart s List.mem_cons_self with hbefore | hafter
      · exact slice_splice_before hoff hbefore
      · exact slice_splice_after hoff hafter

/-- What a store wrote is there, unless it is written again. -/
theorem slice_stored {s : Store} (hbefore : ∀ s' ∈ stores, s'.Within 0 buf.length)
    (hafter : ∀ s' ∈ s :: more, s'.Within 0 buf.length)
    (hapart : ∀ s' ∈ more, s'.Apart s.off s.bytes.length) :
    slice (storeAll buf (stores ++ s :: more)) s.off s.bytes.length = s.bytes := by
  have hlen := storeAll_length hbefore
  have hin := (hafter s List.mem_cons_self).2
  have hfit : (splice (storeAll buf stores) s.off s.bytes).length = buf.length := by
    rw [splice_length (hlen.symm ▸ hin), hlen]
  rw [storeAll_append, storeAll_cons,
    slice_storeAll (fun s' hs' => hfit.symm ▸ hafter s' (List.mem_cons_of_mem _ hs')) hapart]
  apply slice_splice_self
  rw [hlen]
  exact (Nat.le_add_right _ _).trans hin

/-- Each store begins where the ones before it have ended. -/
def Ordered (stores : List Store) : Prop := stores.Pairwise fun s s' => s.fin ≤ s'.off

/-- Every one of ordered stores is read back. -/
theorem Ordered.slice {s : Store} (h : Ordered stores) (hin : ∀ s' ∈ stores, s'.Within 0 buf.length)
    (hs : s ∈ stores) : slice (storeAll buf stores) s.off s.bytes.length = s.bytes := by
  obtain ⟨before, after, rfl⟩ := List.append_of_mem hs
  obtain ⟨-, hrest, -⟩ := List.pairwise_append.mp h
  apply slice_stored fun s' hs' => hin s' (List.mem_append_left _ hs')
  · exact fun s' hs' => hin s' (List.mem_append_right _ hs')
  · exact fun s' hs' => .inl ((List.pairwise_cons.mp hrest).1 s' hs')

/-- Ordered stores of two parts of the buffer. -/
theorem Ordered.append {mid : ℕ} (h : Ordered stores) (h' : Ordered more)
    (hlow : ∀ s ∈ stores, s.fin ≤ mid)
    (hhigh : ∀ s ∈ more, mid ≤ s.off) : Ordered (stores ++ more) :=
  List.pairwise_append.mpr ⟨h, h', fun s hs s' hs' => (hlow s hs).trans (hhigh s' hs')⟩

section Word

variable {α : Type} [LeWord α]

theorem getLe_congr {buf' : Bytes}
    (h : slice buf' off (LeWord.width α) = slice buf off (LeWord.width α)) :
    getLe α buf' off = getLe α buf off := by
  rw [getLe, getLe, h]

end Word

end Probing.Core
