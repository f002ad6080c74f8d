import Mathlib.Order.MinMax

/-!
# Ranges of timestamps

A range is widened by one value at a time, starting from sentinels that no value
has widened yet. A recorded range is one whose ends are in order.
-/

namespace Probing.Core

instance int64LinearOrder : LinearOrder Int64 where
  le_refl := Int64.le_refl
  le_trans _ _ _ := Int64.le_trans
  lt_iff_le_not_ge a b := by
    rw [Int64.not_le]
    exact ⟨fun h => ⟨Int64.le_of_lt h, h⟩, fun h => h.2⟩
  le_antisymm _ _ := Int64.le_antisymm
  le_total := Int64.le_total
  toDecidableLE := inferInstance
  toDecidableEq := inferInstance
  toDecidableLT := inferInstance
  toMin := inferInstance
  toMax := inferInstance
  min_def _ _ := rfl
  max_def _ _ := rfl

section Widen

variable {α : Type*} [LinearOrder α]

def widen (r : α × α) (t : α) : α × α := (min r.1 t, max r.2 t)

/-- Folding a list of values into a range. -/
theorem foldl_widen (r : α × α) (ts : List α) :
    ts.foldl widen r = (ts.foldl min r.1, ts.foldl max r.2) := by
  induction ts generalizing r with
  | nil => rfl
  | cons t ts ih => exact ih (widen r t)

theorem foldl_min_le_init (a : α) (ts : List α) : ts.foldl min a ≤ a := by
  induction ts generalizing a with
  | nil => exact le_refl a
  | cons t ts ih => exact (ih (min a t)).trans (min_le_left a t)

theorem foldl_min_le (a : α) {ts : List α} {t : α} (ht : t ∈ ts) : ts.foldl min a ≤ t := by
  induction ts generalizing a with
  | nil => cases ht
  | cons u ts ih =>
      rcases List.mem_cons.mp ht with rfl | ht
      · exact (foldl_min_le_init _ ts).trans (min_le_right a t)
      · exact ih (min a u) ht

theorem init_le_foldl_max (a : α) (ts : List α) : a ≤ ts.foldl max a := by
  induction ts generalizing a with
  | nil => exact le_refl a
  | cons t ts ih => exact (le_max_left a t).trans (ih (max a t))

theorem le_foldl_max (a : α) {ts : List α} {t : α} (ht : t ∈ ts) : t ≤ ts.foldl max a := by
  induction ts generalizing a with
  | nil => cases ht
  | cons u ts ih =>
      rcases List.mem_cons.mp ht with rfl | ht
      · exact (le_max_right a t).trans (init_le_foldl_max _ ts)
      · exact ih (max a u) ht

theorem foldl_min_mem (a : α) (ts : List α) : ts.foldl min a ∈ a :: ts := by
  induction ts generalizing a with
  | nil => exact List.mem_cons_self
  | cons t ts ih =>
      rcases List.mem_cons.mp (ih (min a t)) with heq | hmem
      · rw [List.foldl_cons, heq]
        rcases min_choice a t with h | h
        · rw [h]
          exact List.mem_cons_self
        · rw [h]
          exact List.mem_cons_of_mem _ List.mem_cons_self
      · exact List.mem_cons_of_mem _ (List.mem_cons_of_mem _ hmem)

theorem foldl_max_mem (a : α) (ts : List α) : ts.foldl max a ∈ a :: ts := by
  induction ts generalizing a with
  | nil => exact List.mem_cons_self
  | cons t ts ih =>
      rcases List.mem_cons.mp (ih (max a t)) with heq | hmem
      · rw [List.foldl_cons, heq]
        rcases max_choice a t with h | h
        · rw [h]
          exact List.mem_cons_self
        · rw [h]
          exact List.mem_cons_of_mem _ List.mem_cons_self
      · exact List.mem_cons_of_mem _ (List.mem_cons_of_mem _ hmem)

/-- A least element of values that are all below the start is one of them. -/
theorem foldl_min_attained {a : α} {ts : List α} (hne : ts ≠ []) (hle : ∀ t ∈ ts, t ≤ a) :
    ts.foldl min a ∈ ts := by
  rcases List.mem_cons.mp (foldl_min_mem a ts) with heq | hmem
  · obtain ⟨t, ht⟩ := List.exists_mem_of_ne_nil ts hne
    have hsame : t = ts.foldl min a := le_antisymm ((hle t ht).trans heq.ge) (foldl_min_le a ht)
    exact hsame ▸ ht
  · exact hmem

theorem foldl_max_attained {a : α} {ts : List α} (hne : ts ≠ []) (hle : ∀ t ∈ ts, a ≤ t) :
    ts.foldl max a ∈ ts := by
  rcases List.mem_cons.mp (foldl_max_mem a ts) with heq | hmem
  · obtain ⟨t, ht⟩ := List.exists_mem_of_ne_nil ts hne
    have hsame : t = ts.foldl max a := le_antisymm (le_foldl_max a ht) (heq.le.trans (hle t ht))
    exact hsame ▸ ht
  · exact hmem

/-- A range of values that has been widened from sentinels `lo > hi` outside all of them is in order
exactly if there are values, and then its ends are the least and the greatest of them. -/
theorem widen_exact {lo hi : α} {ts : List α} (hcross : hi < lo) (hlow : ∀ t ∈ ts, t ≤ lo)
    (hhigh : ∀ t ∈ ts, hi ≤ t) :
    ((ts.foldl widen (lo, hi)).2 < (ts.foldl widen (lo, hi)).1 ↔ ts = []) ∧
      (ts ≠ [] → (∀ t ∈ ts, (ts.foldl widen (lo, hi)).1 ≤ t ∧ t ≤ (ts.foldl widen (lo, hi)).2) ∧
        (ts.foldl widen (lo, hi)).1 ∈ ts ∧ (ts.foldl widen (lo, hi)).2 ∈ ts) := by
  rw [foldl_widen]
  dsimp only
  refine ⟨⟨fun hlt => ?_, ?_⟩, fun hne => ?_⟩
  · by_contra hne
    exact absurd (foldl_min_le lo (foldl_max_attained hne hhigh)) (not_le_of_gt hlt)
  · rintro rfl
    exact hcross
  · exact ⟨fun t ht => ⟨foldl_min_le lo ht, le_foldl_max hi ht⟩, foldl_min_attained hne hlow,
      foldl_max_attained hne hhigh⟩

end Widen

end Probing.Core
