import Mathlib.Data.List.Sort
import Mathlib.Data.Nat.ModEq

/-!
# Turns of a ring

The cells of a ring take turns: turn `j` belongs to cell `j % n`, and the first turn is
turn 0. After turn `k` the last `n` turns are still in the ring, and the number of turns of
a cell, then its index, put them in the order in which they were taken.
-/

namespace Probing.Core

namespace RingTurns

/-- The turns that cell `i` has taken once turn `k` is taken. -/
def turns (n k i : ℕ) : ℕ := (k + n - i) / n

/-- The last turn of a cell that has taken one. -/
def lastTurn (n k i : ℕ) : ℕ := n * (turns n k i - 1) + i

/-- The first turn that is still in the ring. -/
def oldest (n k : ℕ) : ℕ := k + 1 - n

/-- The turns that are still in the ring, in the order in which they were taken. -/
def window (n k : ℕ) : List ℕ := List.range' (oldest n k) (k + 1 - oldest n k)

variable {n k i j : ℕ}

theorem mem_window : j ∈ window n k ↔ oldest n k ≤ j ∧ j ≤ k := by
  unfold window oldest
  rw [List.mem_range'_1]
  omega

/-- Every turn of a cell is its index and a number of rounds. -/
theorem turns_eq_succ (hi : i < n) (q : ℕ) : turns n k i = q + 1 ↔
    n * q + i ≤ k ∧ k < n * (q + 1) + i := by
  have hn : 0 < n := Nat.zero_lt_of_lt hi
  unfold turns
  rw [Nat.div_eq_iff hn]
  have hq : n * (q + 1) = n * q + n := Nat.mul_succ n q
  have hq' : (q + 1) * n = n * q + n := by rw [Nat.mul_comm, hq]
  rw [hq, hq']
  omega

theorem turns_eq_zero (hi : i < n) : turns n k i = 0 ↔ k < i := by
  unfold turns
  rw [Nat.div_eq_zero_iff]
  omega

/-- In the window a cell has taken as many turns as its last one has rounds. -/
theorem turns_of_window (hn : 0 < n) (hj : j ∈ window n k) : turns n k (j % n) = j / n + 1 := by
  obtain ⟨hlow, hhigh⟩ := mem_window.mp hj
  have hdiv := Nat.div_add_mod j n
  have hround : n * (j / n + 1) = n * (j / n) + n := Nat.mul_succ _ _
  unfold oldest at hlow
  refine (turns_eq_succ (Nat.mod_lt j hn) (j / n)).mpr ⟨?_, ?_⟩ <;> omega

theorem lastTurn_of_window (hn : 0 < n) (hj : j ∈ window n k) : lastTurn n k (j % n) = j := by
  rw [lastTurn, turns_of_window hn hj, Nat.add_sub_cancel]
  exact Nat.div_add_mod j n

/-- The last turn of a cell is still in the ring. -/
theorem lastTurn_spec (hi : i < n) (hturn : turns n k i ≠ 0) :
    lastTurn n k i ∈ window n k ∧ lastTurn n k i % n = i := by
  obtain ⟨q, hq⟩ := Nat.exists_eq_succ_of_ne_zero hturn
  obtain ⟨hlow, hhigh⟩ := (turns_eq_succ hi q).mp hq
  have hround : n * (q + 1) = n * q + n := Nat.mul_succ _ _
  unfold lastTurn
  rw [hq, Nat.succ_eq_add_one, Nat.add_sub_cancel]
  refine ⟨?_, ?_⟩
  · rw [mem_window]
    unfold oldest
    omega
  · rw [Nat.mul_add_mod, Nat.mod_eq_of_lt hi]

/-- The current turn. -/
theorem self_mem_window (hn : 0 < n) : k ∈ window n k := by
  rw [mem_window]
  unfold oldest
  omega

/-- At first only cell 0 has taken a turn. -/
theorem turns_start (hi : i < n) : turns n 0 i = if i = 0 then 1 else 0 := by
  by_cases hzero : i = 0
  · rw [if_pos hzero]
    apply (turns_eq_succ hi 0).mpr
    omega
  · rw [if_neg hzero]
    apply (turns_eq_zero hi).mpr
    omega

/-- A turn counts for the cell that takes it. -/
theorem turns_succ (hi : i < n) : turns n (k + 1) i = if i = (k + 1) % n then
  turns n k i + 1 else turns n k i := by
  have hn : 0 < n := Nat.zero_lt_of_lt hi
  have hdiv := Nat.div_add_mod (k + 1) n
  have hmod := Nat.mod_lt (k + 1) hn
  by_cases hturn : i = (k + 1) % n
  · rw [if_pos hturn]
    cases hq : (k + 1) / n with
    | zero =>
        rw [hq, Nat.mul_zero, Nat.zero_add] at hdiv
        have hbefore : turns n k i = 0 := (turns_eq_zero hi).mpr (by omega)
        rw [hbefore]
        apply (turns_eq_succ hi 0).mpr
        omega
    | succ q =>
        have hround : n * (q + 1) = n * q + n := Nat.mul_succ _ _
        have hround' : n * (q + 1 + 1) = n * (q + 1) + n := Nat.mul_succ _ _
        rw [hq, hround] at hdiv
        have hbefore : turns n k i = q + 1 := (turns_eq_succ hi q).mpr (by omega)
        rw [hbefore]
        apply (turns_eq_succ hi (q + 1)).mpr
        omega
  · rw [if_neg hturn]
    cases hq : turns n k i with
    | zero =>
        have hlt := (turns_eq_zero hi).mp hq
        apply (turns_eq_zero hi).mpr
        by_contra hle
        have heq : i = k + 1 := by omega
        rw [← heq, Nat.mod_eq_of_lt hi] at hturn
        exact hturn rfl
    | succ q =>
        obtain ⟨hlow, hhigh⟩ := (turns_eq_succ hi q).mp hq
        apply (turns_eq_succ hi q).mpr
        refine ⟨by omega, ?_⟩
        by_contra hle
        have heq : k + 1 = n * (q + 1) + i := by omega
        rw [heq, Nat.mul_add_mod, Nat.mod_eq_of_lt hi] at hturn
        exact hturn rfl

/-- The cell that takes the next turn gives up the oldest turn in the ring. -/
theorem lastTurn_succ_mod (hn : 0 < n) (hturn : turns n k ((k + 1) % n) ≠ 0) :
    lastTurn n k ((k + 1) % n) = oldest n k ∧ oldest n (k + 1) = oldest n k + 1 := by
  have hi := Nat.mod_lt (k + 1) hn
  obtain ⟨hmem, hmod⟩ := lastTurn_spec hi hturn
  obtain ⟨hlow, hhigh⟩ := mem_window.mp hmem
  have hfull : n ≤ k + 1 := by
    by_contra hlt
    rw [Nat.mod_eq_of_lt (by omega)] at hturn
    exact hturn ((turns_eq_zero (by omega)).mpr (by omega))
  have hsame : lastTurn n k ((k + 1) % n) ≡ k + 1 [MOD n] := hmod
  have hdvd : n ∣ k + 1 - lastTurn n k ((k + 1) % n) := (Nat.modEq_iff_dvd' (by omega)).mp hsame
  unfold oldest at hlow ⊢
  have hle := Nat.le_of_dvd (by omega) hdvd
  omega

/-- A cell that has taken no turn takes one before the ring is full. -/
theorem oldest_succ_of_fresh (hn : 0 < n) (hturn : turns n k ((k + 1) % n) = 0) :
    oldest n (k + 1) = 0 ∧ oldest n k = 0 := by
  have hi := Nat.mod_lt (k + 1) hn
  have hlt := (turns_eq_zero hi).mp hturn
  have hmod := Nat.mod_le (k + 1) n
  unfold oldest
  omega

/-- The cells that satisfy `p`, by the number of their turns and then by their index, are the
turns in the window in the order in which they were taken. -/
theorem sorted_cells (hn : 0 < n) (p : ℕ → Bool) :
    (((List.range n).filterMap fun i =>
      if turns n k i = 0 ∨ p i = false then none else some (turns n k i, i)).mergeSort
        fun a b => a.1 < b.1 || (a.1 = b.1 && a.2 ≤ b.2)).map Prod.snd =
      ((window n k).filter fun j => p (j % n)).map (· % n) := by
  have hsorted : ((List.range n).filterMap fun i =>
      if turns n k i = 0 ∨ p i = false then none else some (turns n k i, i)).mergeSort
        (fun a b => a.1 < b.1 || (a.1 = b.1 && a.2 ≤ b.2)) =
      ((window n k).filter fun j => p (j % n)).map fun j => (j / n + 1, j % n) := by
    apply @List.Perm.eq_of_pairwise _ fun a b => (a.1 < b.1 || (a.1 = b.1 && a.2 ≤ b.2)) = true
    · rintro ⟨a, a'⟩ ⟨b, b'⟩ - - hab hba
      simp only [Bool.or_eq_true, decide_eq_true_eq, Bool.and_eq_true] at hab hba
      rw [Prod.mk.injEq]
      omega
    · apply List.pairwise_mergeSort
      · rintro ⟨a, a'⟩ ⟨b, b'⟩ ⟨c, c'⟩ hab hbc
        simp only [Bool.or_eq_true, decide_eq_true_eq, Bool.and_eq_true] at hab hbc ⊢
        omega
      · rintro ⟨a, a'⟩ ⟨b, b'⟩
        simp only [Bool.or_eq_true, decide_eq_true_eq, Bool.and_eq_true]
        omega
    · rw [List.pairwise_map]
      refine List.Pairwise.imp ?_ ((List.pairwise_lt_range').filter _)
      intro a b hab
      have hdiv : a / n ≤ b / n := Nat.div_le_div_right hab.le
      have ha := Nat.div_add_mod a n
      have hb := Nat.div_add_mod b n
      simp only [Bool.or_eq_true, decide_eq_true_eq, Bool.and_eq_true]
      rcases hdiv.lt_or_eq with hlt | heq
      · exact .inl (Nat.succ_lt_succ hlt)
      · refine .inr ⟨congrArg (· + 1) heq, ?_⟩
        rw [heq] at ha
        omega
    · refine (List.mergeSort_perm _ _).trans ?_
      rw [List.perm_ext_iff_of_nodup]
      · rintro ⟨a, i⟩
        simp only [List.mem_filterMap, List.mem_range, Option.ite_none_left_eq_some, not_or,
          Option.some.injEq, Prod.mk.injEq, List.mem_map, List.mem_filter, Bool.not_eq_false]
        constructor
        · rintro ⟨i', hi, ⟨hturn, hp⟩, rfl, rfl⟩
          obtain ⟨hmem, hmod⟩ := lastTurn_spec hi hturn
          have hturns := turns_of_window hn hmem
          rw [hmod] at hturns
          exact ⟨_, ⟨hmem, by rwa [hmod]⟩, hturns.symm, hmod⟩
        · rintro ⟨j, ⟨hmem, hp⟩, rfl, rfl⟩
          have hturns := turns_of_window hn hmem
          exact ⟨j % n, Nat.mod_lt _ hn, ⟨hturns ▸ Nat.succ_ne_zero _, hp⟩, hturns, rfl⟩
      · refine List.Nodup.filterMap ?_ List.nodup_range
        intro i i' b hi hi'
        simp only [Option.mem_def, Option.ite_none_left_eq_some, Option.some.injEq] at hi hi'
        rw [← hi.2] at hi'
        exact (congrArg Prod.snd hi'.2).symm
      · refine List.Nodup.map_on ?_ (List.Nodup.filter _ List.nodup_range')
        intro a _ b _ hab
        rw [Prod.mk.injEq] at hab
        have ha := Nat.div_add_mod a n
        have hb := Nat.div_add_mod b n
        have hdiv : a / n = b / n := by omega
        rw [hdiv, hab.2] at ha
        omega
  rw [hsorted, List.map_map]
  rfl

end RingTurns

end Probing.Core
