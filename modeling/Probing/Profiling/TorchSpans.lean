import Probing.Profiling.TorchProbe

/-!
# The spans of a probe

A span that the probe entered is held by one entry, or by the handle of the step, until it is
exited; other parties enter and exit spans of their own.
-/

namespace Probing.Profiling.TorchProbe

open Probing.Tracing (Phase)

/-- The span that the exit of a handle ends. -/
def Handle.own (handle : Handle) : Option ℕ := if handle.reentrant then none else some handle.span

namespace Thread

variable {t : Thread} {phase : Phase} {handle : Handle} {id : ℕ}

/-- A handle of an optimizer span inside another one owns none, any other a new one. -/
theorem enter_cases (t : Thread) (phase : Phase) :
    (t.enter phase).1.own = none ∧ (t.enter phase).2 = t ∨
      (t.enter phase).1 = ⟨t.next, phase, false⟩ ∧
        (t.enter phase).2 = { t with next := t.next + 1, stack := (t.next, phase) :: t.stack } := by
  rw [enter]
  split
  · exact .inl ⟨rfl, rfl⟩
  · exact .inr ⟨rfl, rfl⟩

theorem exit_of_reentrant (h : handle.own = none) : t.exit handle = t := by
  rw [Handle.own] at h
  split at h
  next hre => rw [exit, if_pos hre]
  · exact (nomatch h)

theorem spanOf_own (h : handle.own = some id) : handle.reentrant = false ∧ handle.span = id := by
  rw [Handle.own] at h
  split at h
  · exact (nomatch h)
  next hre => exact ⟨by simpa using hre, Option.some.inj h⟩

theorem exit_own (h : handle.own = some id) :
    (t.exit handle).next = t.next ∧
      (t.exit handle).exits = Function.update t.exits id (t.exits id + 1) := by
  obtain ⟨hre, rfl⟩ := spanOf_own h
  rw [exit, if_neg (by simp [hre])]
  exact ⟨rfl, rfl⟩

end Thread

/-- The probe has exited what it entered and does not hold any more, once; what it holds was
entered in this step; and no other party has a span of it. -/
structure Tracks (thread : Thread) (entered : List (ℕ × ℕ)) (steps : ℕ) (held : List ℕ)
    (others : List Handle) : Prop where
  nodup : held.Nodup
  known : ∀ id ∈ held, ∃ e ∈ entered, e.1 = id
  fresh : ∀ id, thread.next ≤ id → thread.exits id = 0
  old : ∀ e ∈ entered, e.1 < thread.next ∧ e.2 ≤ steps
  count : ∀ e ∈ entered, e.1 ∈ held ∧ thread.exits e.1 = 0 ∧ e.2 = steps ∨
    e.1 ∉ held ∧ thread.exits e.1 = 1
  others : ∀ h ∈ others, ∀ id ∈ h.own, id < thread.next ∧ ∀ e ∈ entered, e.1 ≠ id

namespace Tracks

variable {thread : Thread} {entered : List (ℕ × ℕ)} {steps : ℕ} {held held' : List ℕ}
  {others others' : List Handle} {handle : Handle} {id : ℕ}

theorem perm (h : Tracks thread entered steps held others) (hperm : held.Perm held') :
    Tracks thread entered steps held' others where
  nodup := hperm.nodup_iff.mp h.nodup
  known id hid := h.known id (hperm.mem_iff.mpr hid)
  fresh := h.fresh
  old := h.old
  count e he := by
    obtain ⟨hheld, hrest⟩ | ⟨hheld, hrest⟩ := h.count e he
    · exact .inl ⟨hperm.mem_iff.mp hheld, hrest⟩
    · exact .inr ⟨fun hmem => hheld (hperm.mem_iff.mpr hmem), hrest⟩
  others := h.others

/-- The probe enters a span. -/
theorem enter (h : Tracks thread entered steps held others) (phase : Phase) :
    Tracks (thread.enter phase).2
      (if (thread.enter phase).1.reentrant then entered
        else entered ++ [((thread.enter phase).1.span, steps)])
      steps ((thread.enter phase).1.own.toList ++ held) others := by
  obtain ⟨hown, hsame⟩ | ⟨hhandle, hnew⟩ := thread.enter_cases phase
  · have hre : (thread.enter phase).1.reentrant = true := by
      rw [Handle.own] at hown
      split at hown
      next hre => exact hre
      · exact (nomatch hown)
    rw [hown, hsame, if_pos hre]
    exact h
  · have hlt : ∀ e ∈ entered, e.1 ≠ thread.next :=
      fun e he heq => Nat.lt_irrefl _ (heq ▸ (h.old e he).1)
    have hheld : thread.next ∉ held := fun hmem => by
      obtain ⟨e, he, heq⟩ := h.known _ hmem
      exact hlt e he heq
    rw [hhandle, hnew]
    refine ⟨List.nodup_cons.mpr ⟨hheld, h.nodup⟩, fun id hid => ?_,
      fun id hid => ?_, fun e he => ?_, fun e he => ?_, fun g hg id hid => ?_⟩
    · obtain rfl | hid := List.mem_cons.mp hid
      · exact ⟨_, List.mem_append_right _ (List.mem_singleton_self _), rfl⟩
      · obtain ⟨e, he, heq⟩ := h.known id hid
        exact ⟨e, List.mem_append_left _ he, heq⟩
    · exact h.fresh id (Nat.le_of_succ_le hid)
    · obtain he | he := List.mem_append.mp he
      · exact ⟨Nat.lt_succ_of_lt (h.old e he).1, (h.old e he).2⟩
      · obtain rfl := List.mem_singleton.mp he
        exact ⟨Nat.lt_succ_self _, Nat.le_refl _⟩
    · obtain he | he := List.mem_append.mp he
      · obtain ⟨hmem, hrest⟩ | ⟨hmem, hrest⟩ := h.count e he
        · exact .inl ⟨List.mem_cons_of_mem _ hmem, hrest⟩
        · refine .inr ⟨fun hcons => ?_, hrest⟩
          obtain heq | hmem' := List.mem_cons.mp hcons
          · exact hlt e he heq
          · exact hmem hmem'
      · obtain rfl := List.mem_singleton.mp he
        exact .inl ⟨List.mem_cons_self, h.fresh _ (Nat.le_refl _), rfl⟩
    · obtain ⟨hbound, hnot⟩ := h.others g hg id hid
      refine ⟨Nat.lt_succ_of_lt hbound, fun e he => ?_⟩
      obtain he | he := List.mem_append.mp he
      · exact hnot e he
      · obtain rfl := List.mem_singleton.mp he
        exact fun heq => Nat.lt_irrefl _ (heq ▸ hbound)

/-- The probe exits a span that it holds. -/
theorem exit (h : Tracks thread entered steps (handle.own.toList ++ held) others) :
    Tracks (thread.exit handle) entered steps held others := by
  cases hown : handle.own with
  | none =>
      rw [hown] at h
      rw [Thread.exit_of_reentrant hown]
      exact h
  | some id =>
      rw [hown] at h
      obtain ⟨hnext, hexits⟩ := Thread.exit_own (t := thread) hown
      obtain ⟨hid, hnodup⟩ := List.nodup_cons.mp h.nodup
      have hother {j : ℕ} (hj : j ≠ id) : (thread.exit handle).exits j = thread.exits j := by
        rw [hexits, Function.update_of_ne hj]
      refine ⟨hnodup, fun j hj => h.known j (List.mem_cons_of_mem _ hj), fun j hj => ?_,
        fun e he => ?_, fun e he => ?_, fun g hg j hj => ?_⟩
      · have hne : j ≠ id := by
          obtain ⟨e, he, rfl⟩ := h.known id List.mem_cons_self
          have hlt := (h.old e he).1
          omega
        rw [hother hne]
        exact h.fresh j (hnext ▸ hj)
      · rw [hnext]
        exact h.old e he
      · by_cases heq : e.1 = id
        · refine .inr ⟨heq ▸ hid, ?_⟩
          obtain ⟨-, hzero, -⟩ | ⟨hnot, -⟩ := h.count e he
          · rw [heq] at hzero
            rw [heq, hexits, Function.update_self, hzero]
          · exact (hnot (heq ▸ List.mem_cons_self)).elim
        · rw [hother heq]
          obtain ⟨hmem, hrest⟩ | ⟨hmem, hrest⟩ := h.count e he
          · obtain hself | hmem := List.mem_cons.mp hmem
            · exact (heq hself).elim
            · exact .inl ⟨hmem, hrest⟩
          · exact .inr ⟨fun hcons => hmem (List.mem_cons_of_mem _ hcons), hrest⟩
      · rw [hnext]
        exact h.others g hg j hj

/-- A step of the optimizer is over, and the probe holds nothing. -/
theorem next (h : Tracks thread entered steps [] others) :
    Tracks thread entered (steps + 1) [] others where
  nodup := List.nodup_nil
  known _ hid := (nomatch hid)
  fresh := h.fresh
  old e he := ⟨(h.old e he).1, Nat.le_succ_of_le (h.old e he).2⟩
  count e he := by
    obtain ⟨hmem, -⟩ | hrest := h.count e he
    · exact (nomatch hmem)
    · exact .inr hrest
  others := h.others

/-- Another party enters a span. -/
theorem other_enter (h : Tracks thread entered steps held others) (phase : Phase) :
    Tracks (thread.enter phase).2 entered steps held (others ++ [(thread.enter phase).1]) := by
  obtain ⟨hown, hsame⟩ | ⟨hhandle, hnew⟩ := thread.enter_cases phase
  · rw [hsame]
    refine ⟨h.nodup, h.known, h.fresh, h.old, h.count, fun g hg id hid => ?_⟩
    obtain hg | hg := List.mem_append.mp hg
    · exact h.others g hg id hid
    · obtain rfl := List.mem_singleton.mp hg
      rw [hown] at hid
      cases hid
  · rw [hnew, hhandle]
    refine ⟨h.nodup, h.known, fun id hid => h.fresh id (Nat.le_of_succ_le hid),
      fun e he => ⟨Nat.lt_succ_of_lt (h.old e he).1, (h.old e he).2⟩, h.count,
      fun g hg id hid => ?_⟩
    obtain hg | hg := List.mem_append.mp hg
    · obtain ⟨hbound, hnot⟩ := h.others g hg id hid
      exact ⟨Nat.lt_succ_of_lt hbound, hnot⟩
    · obtain rfl := List.mem_singleton.mp hg
      obtain rfl := Option.some.inj hid
      exact ⟨Nat.lt_succ_self _, fun e he heq => Nat.lt_irrefl _ (heq ▸ (h.old e he).1)⟩

/-- Another party exits a span of its own. -/
theorem other_exit (h : Tracks thread entered steps held others) (hhandle : handle ∈ others)
    (hothers : others' ⊆ others) : Tracks (thread.exit handle) entered steps held others' := by
  cases hown : handle.own with
  | none =>
      rw [Thread.exit_of_reentrant hown]
      exact ⟨h.nodup, h.known, h.fresh, h.old, h.count, fun g hg => h.others g (hothers hg)⟩
  | some id =>
      obtain ⟨hnext, hexits⟩ := Thread.exit_own (t := thread) hown
      obtain ⟨hbound, hnot⟩ := h.others handle hhandle id hown
      have hother {j : ℕ} (hj : j ≠ id) : (thread.exit handle).exits j = thread.exits j := by
        rw [hexits, Function.update_of_ne hj]
      refine ⟨h.nodup, h.known, fun j hj => ?_, fun e he => ?_, fun e he => ?_, fun g hg j hj => ?_⟩
      · rw [hnext] at hj
        rw [hother (by omega)]
        exact h.fresh j hj
      · rw [hnext]
        exact h.old e he
      · rw [hother (hnot e he)]
        exact h.count e he
      · rw [hnext]
        exact h.others g (hothers hg) j hj

end Tracks

end Probing.Profiling.TorchProbe
