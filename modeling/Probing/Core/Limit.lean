import Mathlib.Data.List.Perm.Subperm

/-!
# Limits without an order

`LIMIT n` on rows in no order keeps some `n` of them, or all where there are no more. The rows
collected from several sources, each of which may be cut, are all rows exactly if no source is cut.
-/

namespace Probing.Core

/-- The choice of the rows that a limit keeps. -/
structure Limit (α : Type*) (n : ℕ) where
  cut : List α → List α
  subperm : ∀ rows, (cut rows).Subperm rows
  length_cut : ∀ rows, (cut rows).length = min n rows.length

variable {α β γ : Type*} {n : ℕ}

/-- The limit that keeps the first rows. -/
def Limit.first (α : Type*) (n : ℕ) : Limit α n where
  cut rows := rows.take n
  subperm rows := (List.take_sublist n rows).subperm
  length_cut _ := List.length_take

theorem Limit.cut_perm_iff (L : Limit α n) (rows : List α) :
    (L.cut rows).Perm rows ↔ rows.length ≤ n := by
  constructor
  · intro h
    have hlength := h.length_eq
    rw [L.length_cut] at hlength
    omega
  · intro h
    apply (L.subperm rows).perm_of_length_le
    exact Nat.le_of_eq ((L.length_cut rows).trans (Nat.min_eq_right h)).symm

theorem Subperm.filterMap {l l' : List α} (f : α → Option β) (h : l.Subperm l') :
    (l.filterMap f).Subperm (l'.filterMap f) := by
  obtain ⟨m, hperm, hsub⟩ := h
  exact ⟨m.filterMap f, hperm.filterMap f, hsub.filterMap f⟩

theorem Subperm.flatMap {l : List α} {f g : α → List β} (h : ∀ a ∈ l, (f a).Subperm (g a)) :
    (l.flatMap f).Subperm (l.flatMap g) := by
  induction l with
  | nil => exact List.Subperm.refl _
  | cons a l ih =>
      rw [List.flatMap_cons, List.flatMap_cons]
      exact (h a List.mem_cons_self).append (ih fun b hb => h b (List.mem_cons_of_mem a hb))

theorem append_perm_iff {l l' m m' : List α} (hl : l.Subperm l') (hm : m.Subperm m') :
    (l ++ m).Perm (l' ++ m') ↔ l.Perm l' ∧ m.Perm m' := by
  constructor
  · intro h
    have hlength := h.length_eq
    rw [List.length_append, List.length_append] at hlength
    have hle := hl.length_le
    have hle' := hm.length_le
    exact ⟨hl.perm_of_length_le (by omega), hm.perm_of_length_le (by omega)⟩
  · exact fun ⟨h, h'⟩ => h.append h'

/-- Sources that may lose rows give all rows exactly if each of them does. -/
theorem flatMap_perm_iff {l : List α} {f g : α → List β} (h : ∀ a ∈ l, (f a).Subperm (g a)) :
    (l.flatMap f).Perm (l.flatMap g) ↔ ∀ a ∈ l, (f a).Perm (g a) := by
  induction l with
  | nil => simp
  | cons a l ih =>
      have hrest : ∀ b ∈ l, (f b).Subperm (g b) := fun b hb => h b (List.mem_cons_of_mem a hb)
      rw [List.flatMap_cons, List.flatMap_cons,
        append_perm_iff (h a List.mem_cons_self) (Subperm.flatMap hrest), ih hrest,
        List.forall_mem_cons]

/-- Rows of which some were lost before the limit are all rows exactly if none was lost and the
limit keeps all. -/
theorem Limit.cut_perm_of_subperm (L : Limit α n) {rows all : List α} (h : rows.Subperm all) :
    (L.cut rows).Perm all ↔ rows.Perm all ∧ all.length ≤ n := by
  constructor
  · intro hcut
    have hlength := hcut.length_eq
    have hrows := h.length_le
    rw [L.length_cut] at hlength
    exact ⟨h.perm_of_length_le (by omega), by omega⟩
  · rintro ⟨hrows, hn⟩
    rw [← hrows.length_eq] at hn
    exact ((L.cut_perm_iff rows).mpr hn).trans hrows

end Probing.Core
