import Mathlib.Data.List.Nodup

/-!
# Lists with a key

A dictionary that remembers the order of its insertions, as a list of values that carry their
key: a key that is set again keeps its place.
-/

namespace Probing.Core.Keyed

variable {K V : Type*} [DecidableEq K] (key : V → K)

def find (l : List V) (k : K) : Option V := l.find? fun u => key u = k

def set (l : List V) (v : V) : List V :=
  if (find key l (key v)).isSome then l.map fun u => if key u = key v then v else u else l ++ [v]

def erase (l : List V) (k : K) : List V := l.eraseP fun u => key u = k

variable {key} {l : List V} {k : K} {u v : V}

@[simp] theorem find_nil : find key [] k = none := rfl

theorem find_cons : find key (u :: l) k = if key u = k then some u else find key l k := by
  rw [find, find, List.find?_cons]
  split
  next heq =>
    have heq : key u = k := by simpa using heq
    rw [if_pos heq]
  next hne =>
    have hne : ¬ key u = k := by simpa using hne
    rw [if_neg hne]

theorem erase_cons : erase key (u :: l) k = if key u = k then l else u :: erase key l k := by
  rw [erase, erase, List.eraseP_cons]
  by_cases hu : key u = k <;> simp [hu]

theorem find_eq_none : find key l k = none ↔ ∀ u ∈ l, key u ≠ k := by
  rw [find, List.find?_eq_none]
  simp

theorem mem_of_find (h : find key l k = some v) : v ∈ l ∧ key v = k :=
  ⟨List.mem_of_find?_eq_some h, by simpa using List.find?_some h⟩

/-- The value that is found is the one that is erased. -/
theorem perm_erase (h : find key l k = some v) : l.Perm (v :: erase key l k) := by
  induction l with
  | nil => exact (nomatch h)
  | cons u l ih =>
      rw [find_cons] at h
      rw [erase_cons]
      split at h
      next hu =>
        obtain rfl := Option.some.inj h
        rw [if_pos hu]
      next hu =>
        rw [if_neg hu]
        exact ((ih h).cons u).trans (List.Perm.swap v u _)

theorem erase_of_find_none (h : find key l k = none) : erase key l k = l :=
  List.eraseP_of_forall_not fun u hu => by simpa using find_eq_none.1 h u hu

theorem erase_sublist : (erase key l k).Sublist l := List.eraseP_sublist

theorem nodup_erase (h : (l.map key).Nodup) : ((erase key l k).map key).Nodup :=
  h.sublist (erase_sublist.map key)

/-- Where keys are different, a value is found under its own. -/
theorem find_of_mem (h : (l.map key).Nodup) (hv : v ∈ l) : find key l (key v) = some v := by
  induction l with
  | nil => exact (nomatch hv)
  | cons u l ih =>
      obtain ⟨hu, hl⟩ := List.nodup_cons.mp h
      rw [find_cons]
      obtain rfl | hv := List.mem_cons.mp hv
      · exact if_pos rfl
      · have hne : key u ≠ key v := fun heq => hu (heq ▸ List.mem_map_of_mem hv)
        rw [if_neg hne]
        exact ih hl hv

theorem filter_of_mem (h : (l.map key).Nodup) (hv : v ∈ l) :
    (l.filter fun u => key u = key v) = [v] := by
  induction l with
  | nil => exact absurd hv List.not_mem_nil
  | cons u rest ih =>
      obtain ⟨hu, hrest⟩ := List.nodup_cons.mp h
      rcases List.mem_cons.mp hv with rfl | hmem
      · have hnil : (rest.filter fun w => key w = key v) = [] :=
          List.filter_eq_nil_iff.mpr fun w hw heq =>
            hu (List.mem_map.mpr ⟨w, hw, of_decide_eq_true heq⟩)
        rw [List.filter_cons_of_pos (by simp), hnil]
      · have hne : key u ≠ key v := fun heq => hu (heq ▸ List.mem_map_of_mem hmem)
        rw [List.filter_cons_of_neg (by simpa using hne), ih hrest hmem]

/-- Where keys are different, the order does not matter. -/
theorem find_perm {l' : List V} (h : (l.map key).Nodup) (hperm : l.Perm l') :
    find key l k = find key l' k := by
  cases hfind : find key l' k with
  | none => exact find_eq_none.mpr fun u hu => find_eq_none.mp hfind u (hperm.mem_iff.mp hu)
  | some v =>
      obtain ⟨hv, rfl⟩ := mem_of_find hfind
      exact find_of_mem h (hperm.mem_iff.mpr hv)

theorem find_erase_self (h : (l.map key).Nodup) : find key (erase key l k) k = none := by
  rw [find_eq_none]
  intro u hu heq
  subst heq
  have hfind := find_of_mem h (erase_sublist.mem hu)
  have hnodup := ((perm_erase hfind).map key).nodup_iff.mp h
  exact (List.nodup_cons.mp hnodup).1 (List.mem_map_of_mem hu)

theorem find_erase_of_ne {j : K} (hj : j ≠ k) : find key (erase key l k) j = find key l j := by
  induction l with
  | nil => rfl
  | cons u l ih =>
      rw [erase_cons]
      split
      next hu =>
        have hne : ¬ key u = j := fun heq => hj (heq.symm.trans hu)
        rw [find_cons, if_neg hne]
      · rw [find_cons, find_cons, ih]

theorem map_set_of_not_mem (h : ∀ u ∈ l, key u ≠ key v) :
    (l.map fun u => if key u = key v then v else u) = l := by
  refine (List.map_congr_left fun u hu => ?_).trans (List.map_id l)
  exact if_neg (h u hu)

/-- A value that is set is there in the place of the one with its key. -/
theorem perm_set (h : (l.map key).Nodup) : (set key l v).Perm (v :: erase key l (key v)) := by
  rw [set]
  split
  next hsome =>
    induction l with
    | nil => exact (nomatch hsome)
    | cons u l ih =>
        obtain ⟨hu, hl⟩ := List.nodup_cons.mp h
        rw [List.map_cons, erase_cons]
        by_cases heq : key u = key v
        · have hkeys : ∀ w ∈ l, key w ≠ key v :=
            fun w hw hkey => hu (heq ▸ hkey ▸ List.mem_map_of_mem hw)
          rw [if_pos heq, if_pos heq, map_set_of_not_mem hkeys]
        · rw [find_cons, if_neg heq] at hsome
          rw [if_neg heq, if_neg heq]
          exact ((ih hl hsome).cons u).trans (List.Perm.swap v u _)
  next hnone =>
    have hnone : find key l (key v) = none := by simpa using hnone
    rw [erase_of_find_none hnone]
    exact List.perm_append_singleton v l

theorem nodup_set (h : (l.map key).Nodup) : ((set key l v).map key).Nodup := by
  rw [((perm_set h).map key).nodup_iff, List.map_cons, List.nodup_cons]
  refine ⟨fun hmem => ?_, nodup_erase h⟩
  obtain ⟨u, hu, hkey⟩ := List.mem_map.mp hmem
  exact find_eq_none.1 (find_erase_self h) u hu hkey

theorem find_set_self (h : (l.map key).Nodup) : find key (set key l v) (key v) = some v :=
  find_of_mem (nodup_set h) ((perm_set h).mem_iff.mpr List.mem_cons_self)

theorem find_set_of_ne (h : (l.map key).Nodup) {j : K} (hj : j ≠ key v) :
    find key (set key l v) j = find key l j := by
  have hother {w : V} (hkey : key w = j) : w ∈ set key l v ↔ w ∈ l := by
    have hne : w ≠ v := fun heq => hj (hkey ▸ heq ▸ rfl)
    rw [(perm_set h).mem_iff, List.mem_cons]
    refine ⟨fun hw => ?_, fun hw => .inr ?_⟩
    · obtain heq | hw := hw
      · exact (hne heq).elim
      · exact erase_sublist.mem hw
    · have hfind := find_of_mem h hw
      rw [hkey, ← find_erase_of_ne hj] at hfind
      exact (mem_of_find hfind).1
  cases hfind : find key l j with
  | none =>
      rw [find_eq_none] at hfind ⊢
      exact fun w hw hkey => hfind w ((hother hkey).mp hw) hkey
  | some w =>
      obtain ⟨hw, hkey⟩ := mem_of_find hfind
      have hset := find_of_mem (nodup_set h) ((hother hkey).mpr hw)
      rwa [hkey] at hset

section FilterMap

variable {W : Type*} {rest : List V}

theorem filterMap_perm_cons (f : V → Option W) (h : l.Perm (v :: rest)) :
    (l.filterMap f).Perm ((f v).toList ++ rest.filterMap f) := by
  refine (h.filterMap f).trans ?_
  rw [List.filterMap_cons]
  cases f v <;> exact List.Perm.refl _

variable (key) in
/-- What is left of a list, and what was found in it. -/
theorem filterMap_perm_erase (f : V → Option W) (l : List V) (k : K) :
    (l.filterMap f).Perm (((find key l k).bind f).toList ++ (erase key l k).filterMap f) := by
  cases hfind : find key l k with
  | none => rw [erase_of_find_none hfind, Option.bind_none, Option.toList_none, List.nil_append]
  | some v => exact filterMap_perm_cons f (perm_erase hfind)

theorem filterMap_perm_set (f : V → Option W) (h : (l.map key).Nodup) (v : V) :
    ((set key l v).filterMap f).Perm ((f v).toList ++ (erase key l (key v)).filterMap f) :=
  filterMap_perm_cons f (perm_set h)

end FilterMap

end Probing.Core.Keyed
