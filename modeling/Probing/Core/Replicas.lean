import Mathlib.Data.List.Basic

/-!
# Copies of a value at several places

A value is written to some places and read from the first place of a reading order that holds a
copy.
-/

namespace Probing.Core.Replicas

variable {L B : Type*} [DecidableEq L]

/-- The first copy in the reading order. -/
def read (copies : L → Option B) (order : List L) : Option B := order.findSome? copies

def write (copies : L → Option B) (written : List L) (b : B) : L → Option B :=
  fun l => if l ∈ written then some b else copies l

def erase (copies : L → Option B) (removed : List L) : L → Option B :=
  fun l => if l ∈ removed then none else copies l

/-- The first place of the order that is written or holds a copy is written. -/
def Reaches (copies : L → Option B) (written order : List L) : Prop :=
  ∃ l ∈ order.find? fun l => decide (l ∈ written) || (copies l).isSome, l ∈ written

variable {copies : L → Option B} {written removed order : List L} {b : B}

omit [DecidableEq L] in
@[simp] theorem read_nil : read copies [] = none := rfl

omit [DecidableEq L] in
theorem read_cons (l : L) (rest : List L) :
    read copies (l :: rest) = (copies l).or (read copies rest) := by
  cases h : copies l <;> simp [read, h]

theorem reaches_cons (l : L) (rest : List L) : Reaches copies written (l :: rest) ↔
    l ∈ written ∨ (copies l = none ∧ Reaches copies written rest) := by
  by_cases hl : l ∈ written
  · simp [Reaches, hl]
  · cases hc : copies l <;> simp [Reaches, hl, hc]

/-- A write is read back where it reaches. -/
theorem read_write (h : Reaches copies written order) :
    read (write copies written b) order = some b := by
  induction order with
  | nil => simp [Reaches] at h
  | cons l rest ih =>
      rw [read_cons]
      obtain hl | ⟨hc, hrest⟩ := (reaches_cons l rest).mp h
      · simp [write, hl]
      · by_cases hl : l ∈ written
        · simp [write, hl]
        · simp [write, hl, hc, ih hrest]

omit [DecidableEq L] in
theorem read_eq_none : read copies order = none ↔ ∀ l ∈ order, copies l = none := by
  simp [read, List.findSome?_eq_none_iff]

/-- Nothing is read after an erasure that takes every copy of the reading order. -/
theorem read_erase : read (erase copies removed) order = none ↔
    ∀ l ∈ order, l ∈ removed ∨ copies l = none := by
  rw [read_eq_none]
  refine forall₂_congr fun l _ => ?_
  by_cases hl : l ∈ removed <;> simp [erase, hl]

end Probing.Core.Replicas
