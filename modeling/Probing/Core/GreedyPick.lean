import Mathlib.Data.List.Nodup
import Mathlib.Data.List.Perm.Subperm
import Mathlib.Order.Lattice
import Mathlib.Order.Nat

/-!
# The best of each kind

A list is gone through in order, and an item is picked when its kind is new. Over a sorted list
this picks the best item of each of the best kinds: the second part says at which place of the
picks a kind stands.
-/

namespace Probing.Core

section Picks

variable {α κ : Type*} (kind : α → κ)

/-- At most `n` items, of kinds that are not `used`. -/
def picks [DecidableEq κ] : ℕ → List κ → List α → List α
  | 0, _, _ => []
  | _, _, [] => []
  | n + 1, used, c :: rest =>
      if kind c ∈ used then picks (n + 1) used rest
      else c :: picks n (kind c :: used) rest

/-- Each pick comes first among the items of its kind, and an item of a kind that is not picked
comes after all picks. -/
structure Picked (R : α → α → Prop) (n : ℕ) (used : List κ) (l ps : List α) : Prop where
  sublist : ps.Sublist l
  length_le : ps.length ≤ n
  kinds : (ps.map kind).Nodup
  fresh : ∀ p ∈ ps, kind p ∉ used
  first : ∀ p ∈ ps, ∀ c ∈ l, kind c = kind p → R p c
  others : ∀ c ∈ l, kind c ∉ used → kind c ∉ ps.map kind → ps.length = n ∧ ∀ p ∈ ps, R p c

variable {kind} {R : α → α → Prop} {n : ℕ} {used : List κ} {l : List α} {c : α}

theorem Picked.none : Picked kind R 0 used l [] where
  sublist := List.nil_sublist l
  length_le := le_refl 0
  kinds := List.nodup_nil
  fresh := fun _ hp => absurd hp List.not_mem_nil
  first := fun _ hp => absurd hp List.not_mem_nil
  others := fun _ _ _ _ => ⟨rfl, fun _ hp => absurd hp List.not_mem_nil⟩

theorem Picked.nil : Picked kind R n used [] [] where
  sublist := List.nil_sublist []
  length_le := Nat.zero_le n
  kinds := List.nodup_nil
  fresh := fun _ hp => absurd hp List.not_mem_nil
  first := fun _ hp => absurd hp List.not_mem_nil
  others := fun _ hc => absurd hc List.not_mem_nil

theorem Picked.skip {ps : List α} (h : Picked kind R n used l ps) (hc : kind c ∈ used) :
    Picked kind R n used (c :: l) ps where
  sublist := h.sublist.cons c
  length_le := h.length_le
  kinds := h.kinds
  fresh := h.fresh
  first p hp := by
    intro x hx hkind
    rcases List.mem_cons.mp hx with rfl | hx
    · exact absurd (hkind ▸ hc) (h.fresh p hp)
    · exact h.first p hp x hx hkind
  others x hx hfresh := by
    rcases List.mem_cons.mp hx with rfl | hx
    · exact absurd hc hfresh
    · exact h.others x hx hfresh

theorem Picked.take {ps : List α} (h : Picked kind R n (kind c :: used) l ps)
    (hrefl : R c c) (hc : kind c ∉ used) (hle : ∀ x ∈ l, R c x) :
    Picked kind R (n + 1) used (c :: l) (c :: ps) where
  sublist := h.sublist.cons_cons c
  length_le := Nat.succ_le_succ h.length_le
  kinds := by
    refine List.nodup_cons.mpr ⟨fun hmem => ?_, h.kinds⟩
    obtain ⟨p, hp, hkind⟩ := List.mem_map.mp hmem
    exact h.fresh p hp (hkind ▸ List.mem_cons_self)
  fresh p hp := by
    rcases List.mem_cons.mp hp with rfl | hp
    · exact hc
    · exact fun hmem => h.fresh p hp (List.mem_cons_of_mem _ hmem)
  first p hp := by
    intro x hx hkind
    rcases List.mem_cons.mp hp with rfl | hpick
    · rcases List.mem_cons.mp hx with rfl | hlater
      · exact hrefl
      · exact hle x hlater
    · rcases List.mem_cons.mp hx with rfl | hlater
      · exact absurd (hkind ▸ List.mem_cons_self) (h.fresh p hpick)
      · exact h.first p hpick x hlater hkind
  others x hx := by
    intro hfresh hnot
    obtain ⟨hne, hnot⟩ := not_or.mp (mt List.mem_cons.mpr hnot)
    rcases List.mem_cons.mp hx with rfl | hlater
    · exact absurd rfl hne
    · have hnew : kind x ∉ kind c :: used := fun hmem =>
        (List.mem_cons.mp hmem).elim hne hfresh
      obtain ⟨hlength, hbefore⟩ := h.others x hlater hnew hnot
      refine ⟨congrArg Nat.succ hlength, fun p hp => ?_⟩
      rcases List.mem_cons.mp hp with rfl | hpick
      · exact hle x hlater
      · exact hbefore p hpick

theorem Picked.mono {S : α → α → Prop} {ps : List α} (h : Picked kind R n used l ps)
    (hle : ∀ x y, R x y → S x y) : Picked kind S n used l ps where
  sublist := h.sublist
  length_le := h.length_le
  kinds := h.kinds
  fresh := h.fresh
  first p hp x hx hkind := hle p x (h.first p hp x hx hkind)
  others x hx hfresh hnot := (h.others x hx hfresh hnot).imp id fun hall p hp => hle p x (hall p hp)

variable (kind n used) in
/-- What the pass over a sorted list picks. -/
theorem picked_picks [DecidableEq κ] (hrefl : ∀ c, R c c) (hsorted : l.Pairwise R) :
    Picked kind R n used l (picks kind n used l) := by
  induction l generalizing n used with
  | nil => cases n <;> exact Picked.nil
  | cons c rest ih =>
      obtain ⟨hle, hrest⟩ := List.pairwise_cons.mp hsorted
      cases n with
      | zero => exact Picked.none
      | succ n =>
          by_cases hc : kind c ∈ used
          · rw [picks, if_pos hc]
            exact (ih _ _ hrest).skip hc
          · rw [picks, if_neg hc]
            exact (ih _ _ hrest).take (hrefl c) hc hle

end Picks

section TopPicks

variable {κ V : Type*} [LinearOrder V] (value : κ → V)

/-- The kinds with more value. -/
def ahead (kinds : List κ) (x : κ) : ℕ := kinds.countP fun y => value x < value y

/-- Up to `n` of the kinds, from more value to less, and none that is left out has more than
one of them. -/
structure TopPicks (n : ℕ) (kinds ps : List κ) : Prop where
  subset : ps ⊆ kinds
  nodup : ps.Nodup
  length_le : ps.length ≤ n
  sorted : ps.Pairwise fun x y => value y ≤ value x
  others : ∀ x ∈ kinds, x ∉ ps → ps.length = n ∧ ∀ p ∈ ps, value x ≤ value p

variable {value} {n : ℕ} {kinds ps : List κ} {x y : κ}

theorem ahead_lt_ahead (hmem : y ∈ kinds) (h : value x < value y) :
    ahead value kinds y < ahead value kinds x := by
  obtain ⟨before, after, rfl⟩ := List.append_of_mem hmem
  have hmono : ∀ l : List κ, l.countP (fun z => value y < value z) ≤
      l.countP fun z => value x < value z := fun l =>
    List.countP_mono_left fun z _ hz => by
      simp only [decide_eq_true_eq] at hz ⊢
      exact h.trans hz
  have hbefore := hmono before
  have hafter := hmono after
  simp only [ahead, List.countP_append, List.countP_cons, lt_irrefl, h, decide_true, decide_false,
    if_true, Bool.false_eq_true, if_false]
  omega

theorem value_eq_of_ahead_eq (hx : x ∈ kinds) (hy : y ∈ kinds)
    (h : ahead value kinds x = ahead value kinds y) : value x = value y := by
  rcases lt_trichotomy (value x) (value y) with hlt | heq | hgt
  · exact absurd h (ahead_lt_ahead hy hlt).ne'
  · exact heq
  · exact absurd h (ahead_lt_ahead hx hgt).ne

theorem ahead_lt_length (hx : x ∈ kinds) : ahead value kinds x < kinds.length := by
  unfold ahead
  refine lt_of_le_of_ne List.countP_le_length fun h => ?_
  have hlt := List.countP_eq_length.mp h x hx
  exact absurd (of_decide_eq_true hlt) (lt_irrefl _)

namespace TopPicks

/-- The first of the picks are the picks of a smaller number. -/
theorem take (h : TopPicks value n kinds ps) {m : ℕ} (hm : m ≤ n) :
    TopPicks value m kinds (ps.take m) where
  subset := fun _ hx => h.subset (List.mem_of_mem_take hx)
  nodup := h.nodup.sublist (List.take_sublist m ps)
  length_le := List.length_take_le m ps
  sorted := h.sorted.sublist (List.take_sublist m ps)
  others x hx hnot := by
    by_cases hps : x ∈ ps
    · -- a later pick has no more value than those before it
      rw [← List.take_append_drop m ps, List.mem_append] at hps
      have hdrop : x ∈ ps.drop m := hps.resolve_left hnot
      have hlong : 0 < (ps.drop m).length := List.length_pos_of_mem hdrop
      have hsorted := h.sorted
      rw [← List.take_append_drop m ps, List.pairwise_append] at hsorted
      refine ⟨?_, fun p hp => hsorted.2.2 p hp x hdrop⟩
      rw [List.length_drop] at hlong
      rw [List.length_take]
      omega
    · obtain ⟨hlength, hall⟩ := h.others x hx hps
      refine ⟨?_, fun p hp => hall p (List.mem_of_mem_take hp)⟩
      rw [List.length_take, hlength]
      exact min_eq_left hm

/-- A choice of no more kinds than may be picked leaves none out. -/
theorem mem_of_length_le (h : TopPicks value n kinds ps) (hlength : kinds.length ≤ n)
    (hx : x ∈ kinds) : x ∈ ps := by
  by_contra hnot
  have hall : (x :: ps).Nodup := List.nodup_cons.mpr ⟨hnot, h.nodup⟩
  have hle := (hall.subperm (List.cons_subset.mpr ⟨hx, h.subset⟩)).length_le
  have hfull := (h.others x hx hnot).1
  rw [List.length_cons] at hle
  omega

theorem length_eq (h : TopPicks value n kinds ps) (hkinds : kinds.Nodup) :
    ps.length = min n kinds.length := by
  have hle : ps.length ≤ kinds.length := (h.nodup.subperm h.subset).length_le
  by_cases hall : ∀ x ∈ kinds, x ∈ ps
  · have hge : kinds.length ≤ ps.length := (hkinds.subperm hall).length_le
    have := h.length_le
    omega
  · push Not at hall
    obtain ⟨x, hx, hnot⟩ := hall
    have := (h.others x hx hnot).1
    omega

/-- What has more value than a pick is picked before it. -/
theorem mem_take (h : TopPicks value n kinds ps) {i : ℕ} (hi : ps[i]? = some x) (hy : y ∈ kinds)
    (hlt : value x < value y) : y ∈ ps.take i := by
  obtain ⟨hbound, rfl⟩ := List.getElem?_eq_some_iff.mp hi
  have hmem : y ∈ ps := by
    by_contra hnot
    exact absurd ((h.others y hy hnot).2 _ (List.getElem_mem hbound)) hlt.not_ge
  obtain ⟨j, hj, rfl⟩ := List.getElem_of_mem hmem
  refine List.mem_take_iff_getElem.mpr ⟨j, ?_, rfl⟩
  rcases lt_trichotomy j i with hji | rfl | hij
  · exact lt_min hji hj
  · exact absurd hlt (lt_irrefl _)
  · exact absurd (List.pairwise_iff_getElem.mp h.sorted i j hbound hj hij) hlt.not_ge

theorem ahead_le (h : TopPicks value n kinds ps) (hkinds : kinds.Nodup) {i : ℕ}
    (hi : ps[i]? = some x) : ahead value kinds x ≤ i := by
  have hsub : kinds.filter (fun y => value x < value y) ⊆ ps.take i := by
    intro y hy
    obtain ⟨hy, hlt⟩ := List.mem_filter.mp hy
    exact h.mem_take hi hy (of_decide_eq_true hlt)
  calc
    ahead value kinds x = (kinds.filter fun y => value x < value y).length :=
      List.countP_eq_length_filter
    _ ≤ (ps.take i).length := ((hkinds.filter _).subperm hsub).length_le
    _ ≤ i := List.length_take_le i ps

/-- A kind with fewer than `n` better ones gives its value to the pick at their number. -/
theorem exists_at_ahead (h : TopPicks value n kinds ps) (hkinds : kinds.Nodup) (hx : x ∈ kinds)
    (hn : ahead value kinds x < n) :
    ∃ p, ps[ahead value kinds x]? = some p ∧ value p = value x := by
  have hlength : ahead value kinds x < ps.length := by
    rw [h.length_eq hkinds]
    exact lt_min hn (ahead_lt_length hx)
  refine ⟨_, List.getElem?_eq_getElem hlength, ?_⟩
  have hget := List.getElem?_eq_getElem hlength
  generalize hp : ps[ahead value kinds x] = p at hget
  have hpmem : p ∈ kinds := h.subset (List.mem_of_getElem? hget)
  rcases lt_trichotomy (value p) (value x) with hlt | heq | hgt
  · exact absurd (h.ahead_le hkinds hget) (ahead_lt_ahead hx hlt).not_ge
  · exact heq
  · -- the picks up to this one all have more value than `x`
    have hsub : ps.take (ahead value kinds x + 1) ⊆ kinds.filter fun y => value x < value y := by
      intro y hy
      obtain ⟨j, hj, rfl⟩ := List.mem_take_iff_getElem.mp hy
      refine List.mem_filter.mpr ⟨h.subset (List.getElem_mem _), decide_eq_true ?_⟩
      rcases Nat.lt_or_ge j (ahead value kinds x) with hlt | hge
      · have hle := List.pairwise_iff_getElem.mp h.sorted j _ (by omega) hlength hlt
        rw [hp] at hle
        exact lt_of_lt_of_le hgt hle
      · obtain rfl : j = ahead value kinds x := by omega
        rwa [hp]
    have hcount := ((h.nodup.sublist (List.take_sublist _ _)).subperm hsub).length_le
    rw [List.length_take, ← List.countP_eq_length_filter] at hcount
    have : ahead value kinds x = kinds.countP fun y => value x < value y := rfl
    omega

end TopPicks

end TopPicks

end Probing.Core
