import Mathlib.Data.List.Perm.Basic
import Probing.Profiling.TorchProbe

/-!
# The span that advances the step

Only the exit of an optimizer span that a handle owns advances the step. A thread has at most one
open, so that what was advanced and what is held is worth the same before and after an exit.
-/

namespace Probing.Profiling.TorchProbe

open Probing.Tracing (Phase)

/-- The optimizer span that the exit of a handle ends. -/
def Handle.opt (handle : Handle) : Option ℕ :=
  if handle.reentrant = false ∧ handle.phase = .optimizer then some handle.span else none

theorem Handle.opt_of_phase {handle : Handle} (h : handle.phase ≠ .optimizer) : handle.opt = none :=
  if_neg fun hboth => h hboth.2

namespace Thread

/-- The optimizer spans that are open. -/
def opt (t : Thread) : List ℕ := (t.stack.filter (·.2 = .optimizer)).map (·.1)

variable {t : Thread} {phase : Phase} {handle : Handle}

theorem activeSpanByPhase_eq_none :
    t.activeSpanByPhase .optimizer = none ↔ t.opt = [] := by
  rw [activeSpanByPhase, Option.map_eq_none_iff, List.find?_eq_none, opt, List.map_eq_nil_iff,
    List.filter_eq_nil_iff]

theorem enter_of_phase (h : phase ≠ .optimizer) : t.enter phase = (⟨t.next, phase, false⟩,
    { t with next := t.next + 1, stack := (t.next, phase) :: t.stack }) := by
  rw [enter, if_neg h]

theorem enter_of_nil (h : t.opt = []) : t.enter .optimizer = (⟨t.next, .optimizer, false⟩,
    { t with next := t.next + 1, stack := (t.next, .optimizer) :: t.stack }) := by
  rw [enter, if_pos rfl, activeSpanByPhase_eq_none.2 h]

/-- Inside an optimizer span a handle owns none. -/
theorem enter_of_ne_nil (h : t.opt ≠ []) :
    ∃ existing, t.enter .optimizer = (⟨existing, .optimizer, true⟩, t) := by
  rw [enter, if_pos rfl]
  cases hactive : t.activeSpanByPhase .optimizer with
  | none => exact (h (activeSpanByPhase_eq_none.1 hactive)).elim
  | some existing => exact ⟨existing, rfl⟩

theorem opt_push (id : ℕ) (h : phase ≠ .optimizer) (next : ℕ) :
    opt { t with next := next, stack := (id, phase) :: t.stack } = t.opt := by
  rw [opt, List.filter_cons_of_neg (by simpa using h)]
  rfl

theorem enter_busy (h : t.opt ≠ []) : (t.enter phase).2.opt ≠ [] := by
  by_cases hphase : phase = .optimizer
  · obtain ⟨existing, heq⟩ := enter_of_ne_nil h
    rw [hphase, heq]
    exact h
  · rw [enter_of_phase hphase, opt_push _ hphase]
    exact h

theorem enter_opens : (t.enter .optimizer).2.opt ≠ [] := by
  by_cases h : t.opt = []
  · rw [enter_of_nil h]
    exact List.cons_ne_nil _ _
  · exact enter_busy h

theorem phase_enter : (t.enter phase).1.phase = phase := by
  rw [enter]
  split <;> rfl

theorem microStep_enter : (t.enter phase).2.microStep = t.microStep := by
  rw [enter]
  split <;> rfl

theorem microStep_exit (h : handle.phase ≠ .optimizer) :
    (t.exit handle).microStep = t.microStep := by
  by_cases hre : handle.reentrant = true
  · rw [exit, if_pos hre]
  · rw [exit, if_neg hre]
    exact if_neg h

end Thread

section Erase

variable {α : Type*} {p q : α → Bool} {l : List α}

theorem filter_eraseP_of_imp (h : ∀ a ∈ l, p a = true → q a = true) :
    (l.eraseP p).filter q = (l.filter q).eraseP p := by
  induction l with
  | nil => rfl
  | cons a l ih =>
      have hrest := ih fun b hb => h b (List.mem_cons_of_mem _ hb)
      by_cases hp : p a = true
      · have hq : q a = true := h a List.mem_cons_self hp
        rw [List.eraseP_cons_of_pos hp, List.filter_cons_of_pos hq, List.eraseP_cons_of_pos hp]
      · rw [List.eraseP_cons_of_neg hp]
        by_cases hq : q a = true
        · rw [List.filter_cons_of_pos hq, List.filter_cons_of_pos hq, List.eraseP_cons_of_neg hp,
            hrest]
        · rw [List.filter_cons_of_neg hq, List.filter_cons_of_neg hq, hrest]

theorem filter_eraseP_of_not (h : ∀ a ∈ l, p a = true → q a ≠ true) :
    (l.eraseP p).filter q = l.filter q := by
  induction l with
  | nil => rfl
  | cons a l ih =>
      by_cases hp : p a = true
      · rw [List.eraseP_cons_of_pos hp, List.filter_cons_of_neg (h a List.mem_cons_self hp)]
      · rw [List.eraseP_cons_of_neg hp, List.filter_cons, List.filter_cons,
          ih fun b hb => h b (List.mem_cons_of_mem _ hb)]

end Erase

/-- The optimizer spans that a list of handles owns. -/
def opts (handles : List Handle) : List ℕ := handles.filterMap Handle.opt

/-- A thread has at most one optimizer span open, at most one handle owns it, and a handle that
owns a span knows its phase. -/
structure Holds (t : Thread) (handles : List Handle) : Prop where
  one : t.opt.length ≤ 1
  fresh : ∀ e ∈ t.stack, e.1 < t.next
  fits : ∀ h ∈ handles, h.reentrant = false →
    h.span < t.next ∧ ∀ phase, (h.span, phase) ∈ t.stack → phase = h.phase
  owner : (opts handles).length ≤ 1
  owned : ∀ id ∈ opts handles, id ∈ t.opt

/-- What was advanced, and what is going to be. -/
def credit (t : Thread) (handles : List Handle) : ℕ := t.microStep + (opts handles).length

/-- The optimizer span that is open has an owner. -/
def Kept (t : Thread) (handles : List Handle) : Prop := t.opt ≠ [] → opts handles ≠ []

variable {t : Thread} {handles handles' : List Handle} {handle : Handle} {phase : Phase}

theorem opts_cons (handle : Handle) (handles : List Handle) :
    opts (handle :: handles) = handle.opt.toList ++ opts handles := by
  rw [opts, List.filterMap_cons]
  cases handle.opt <;> rfl

theorem opts_append (handles handles' : List Handle) :
    opts (handles ++ handles') = opts handles ++ opts handles' := List.filterMap_append

/-- Handles of other phases own no optimizer span. -/
theorem opts_append_left (h : ∀ g ∈ handles, g.phase ≠ .optimizer) (handles' : List Handle) :
    opts (handles ++ handles') = opts handles' := by
  have hnil : opts handles = [] :=
    List.filterMap_eq_nil_iff.mpr fun g hg => Handle.opt_of_phase (h g hg)
  rw [opts_append, hnil, List.nil_append]

theorem opts_perm (h : handles.Perm handles') : (opts handles).Perm (opts handles') :=
  h.filterMap _

theorem credit_perm (h : handles.Perm handles') : credit t handles = credit t handles' := by
  rw [credit, credit, (opts_perm h).length_eq]

theorem Kept.perm (h : Kept t handles) (hperm : handles.Perm handles') : Kept t handles' :=
  fun hopt hnil => h hopt ((hnil ▸ opts_perm hperm).eq_nil)

namespace Holds

theorem perm (h : Holds t handles) (hperm : handles.Perm handles') : Holds t handles' where
  one := h.one
  fresh := h.fresh
  fits g hg := h.fits g (hperm.mem_iff.mpr hg)
  owner := (opts_perm hperm).length_eq ▸ h.owner
  owned id hid := h.owned id ((opts_perm hperm).mem_iff.mpr hid)

/-- A handle is lost. -/
theorem drop (h : Holds t (handle :: handles)) : Holds t handles := by
  have howner := h.owner
  have howned := h.owned
  rw [opts_cons] at howner howned
  rw [List.length_append] at howner
  exact ⟨h.one, h.fresh, fun g hg => h.fits g (List.mem_cons_of_mem _ hg), by omega,
    fun id hid => howned id (List.mem_append_right _ hid)⟩

/-- Where one handle owns the optimizer span no other does. -/
theorem others_nil (h : Holds t (handles ++ handles')) (hopts : opts handles' ≠ []) :
    opts handles = [] := by
  have howner := h.owner
  rw [opts_append, List.length_append] at howner
  have hpos := List.length_pos_iff.mpr hopts
  exact List.eq_nil_of_length_eq_zero (by omega)

theorem opts_nil (h : Holds t handles) (hopt : t.opt = []) : opts handles = [] := by
  refine List.eq_nil_iff_forall_not_mem.mpr fun id hid => ?_
  have hmem := h.owned id hid
  rw [hopt] at hmem
  exact (nomatch hmem)

/-- A span that is pushed is new. -/
theorem push (h : Holds t handles) (phase : Phase)
    (hone : (if phase = .optimizer then t.opt.length + 1 else t.opt.length) ≤ 1) :
    Holds { t with next := t.next + 1, stack := (t.next, phase) :: t.stack }
      (⟨t.next, phase, false⟩ :: handles) := by
  have hopt : Thread.opt { t with next := t.next + 1, stack := (t.next, phase) :: t.stack } =
      if phase = .optimizer then t.next :: t.opt else t.opt := by
    split
    next hphase =>
      rw [Thread.opt, List.filter_cons_of_pos (by simpa using hphase)]
      rfl
    next hphase => exact Thread.opt_push _ hphase _
  have hopts : opts (⟨t.next, phase, false⟩ :: handles) =
      if phase = .optimizer then t.next :: opts handles else opts handles := by
    rw [opts_cons, Handle.opt]
    by_cases hphase : phase = .optimizer
    · rw [if_pos ⟨rfl, hphase⟩, if_pos hphase]
      rfl
    · rw [if_neg fun hboth => hphase hboth.2, if_neg hphase]
      rfl
  refine ⟨?_, fun e he => ?_, fun g hg hre => ?_, ?_, fun id hid => ?_⟩
  · rw [hopt]
    split at hone
    next hphase =>
      rw [if_pos hphase]
      exact hone
    next hphase =>
      rw [if_neg hphase]
      exact hone
  · obtain rfl | he := List.mem_cons.mp he
    · exact Nat.lt_succ_self _
    · exact Nat.lt_succ_of_lt (h.fresh e he)
  · obtain rfl | hg := List.mem_cons.mp hg
    · refine ⟨Nat.lt_succ_self _, fun other hother => ?_⟩
      obtain heq | hother := List.mem_cons.mp hother
      · exact (Prod.mk.inj heq).2
      · exact (Nat.lt_irrefl _ (h.fresh _ hother)).elim
    · obtain ⟨hlt, hfits⟩ := h.fits g hg hre
      refine ⟨Nat.lt_succ_of_lt hlt, fun other hother => ?_⟩
      obtain heq | hother := List.mem_cons.mp hother
      · exact (Nat.ne_of_lt hlt (Prod.mk.inj heq).1).elim
      · exact hfits other hother
  · rw [hopts]
    split at hone
    next hphase =>
      have hnil : t.opt = [] := List.eq_nil_of_length_eq_zero (by omega)
      rw [if_pos hphase, h.opts_nil hnil]
      exact Nat.le_refl _
    next hphase =>
      rw [if_neg hphase]
      exact h.owner
  · rw [hopts] at hid
    rw [hopt]
    split at hid
    next hphase =>
      rw [if_pos hphase]
      obtain rfl | hid := List.mem_cons.mp hid
      · exact List.mem_cons_self
      · exact List.mem_cons_of_mem _ (h.owned id hid)
    next hphase =>
      rw [if_neg hphase]
      exact h.owned id hid

theorem enter (h : Holds t handles) (phase : Phase) :
    Holds (t.enter phase).2 ((t.enter phase).1 :: handles) := by
  by_cases hphase : phase = .optimizer
  · subst hphase
    by_cases hopt : t.opt = []
    · rw [Thread.enter_of_nil hopt]
      exact h.push .optimizer (by simp [hopt])
    · obtain ⟨existing, heq⟩ := Thread.enter_of_ne_nil hopt
      rw [heq]
      refine ⟨h.one, h.fresh, fun g hg hre => ?_, h.owner, h.owned⟩
      obtain rfl | hg := List.mem_cons.mp hg
      · exact (nomatch hre)
      · exact h.fits g hg hre
  · rw [Thread.enter_of_phase hphase]
    exact h.push phase (by rw [if_neg hphase]; exact h.one)

end Holds

/-- An optimizer span that is entered is owned. -/
theorem Kept.enter (h : Kept t handles) (phase : Phase) :
    Kept (t.enter phase).2 ((t.enter phase).1 :: handles) := by
  intro hopt
  rw [opts_cons]
  by_cases hphase : phase = .optimizer
  · subst hphase
    by_cases hnil : t.opt = []
    · rw [Thread.enter_of_nil hnil]
      exact List.cons_ne_nil _ _
    · exact fun happ => h hnil (List.append_eq_nil_iff.mp happ).2
  · rw [Thread.enter_of_phase hphase] at hopt ⊢
    rw [Thread.opt_push _ hphase] at hopt
    exact fun happ => h hopt (List.append_eq_nil_iff.mp happ).2

/-- The exit of a span of another phase. -/
theorem Holds.opt_exit (h : Holds t (handle :: handles)) (hphase : handle.phase ≠ .optimizer) :
    (t.exit handle).opt = t.opt := by
  rw [Thread.exit]
  split
  · rfl
  next hre =>
    have hfits := (h.fits handle List.mem_cons_self (by simpa using hre)).2
    rw [Thread.opt, Thread.opt, filter_eraseP_of_not]
    rintro ⟨id, phase⟩ hmem hid
    have hid : id = handle.span := by simpa using hid
    subst hid
    have heq := hfits phase hmem
    rw [heq]
    simpa using hphase

theorem Holds.exit (h : Holds t (handle :: handles)) :
    Holds (t.exit handle) handles ∧ credit (t.exit handle) handles = credit t
    (handle :: handles) := by
  by_cases hre : handle.reentrant = true
  · have hnone : handle.opt = none := 
      if_neg fun hboth => Bool.false_ne_true (hboth.1.symm.trans hre)
    rw [Thread.exit, if_pos hre]
    refine ⟨h.drop, ?_⟩
    rw [credit, credit, opts_cons, hnone]
    rfl
  · have hre : handle.reentrant = false := by simpa using hre
    have hdrop := h.drop
    have hsub : (t.exit handle).stack ⊆ t.stack := by
      rw [Thread.exit, if_neg (by simp [hre])]
      exact List.eraseP_subset
    have hnext : (t.exit handle).next = t.next := by rw [Thread.exit, if_neg (by simp [hre])]
    have hfits : ∀ g ∈ handles, g.reentrant = false → g.span < (t.exit handle).next ∧
        ∀ phase, (g.span, phase) ∈ (t.exit handle).stack → phase = g.phase := fun g hg hgre => by
      obtain ⟨hlt, hall⟩ := hdrop.fits g hg hgre
      exact ⟨hnext ▸ hlt, fun phase hmem => hall phase (hsub hmem)⟩
    have hfresh : ∀ e ∈ (t.exit handle).stack, e.1 < (t.exit handle).next :=
      fun e he => hnext ▸ h.fresh e (hsub he)
    by_cases hphase : handle.phase = .optimizer
    · have hopt : handle.opt = some handle.span := if_pos ⟨hre, hphase⟩
      have howner := h.owner
      have howned := h.owned
      rw [opts_cons, hopt] at howner howned
      rw [List.length_append, Option.toList_some, List.length_singleton] at howner
      have hnil : opts handles = [] := List.eq_nil_of_length_eq_zero (by omega)
      have hsingle : t.opt = [handle.span] := by
        have hmem := howned handle.span List.mem_cons_self
        obtain ⟨id, hid⟩ := List.length_eq_one_iff.mp
          (Nat.le_antisymm h.one (List.length_pos_of_mem hmem))
        rw [hid] at hmem ⊢
        rw [List.mem_singleton.mp hmem]
      have hfit := (h.fits handle List.mem_cons_self hre).2
      have hexit : (t.exit handle).opt = [] := by
        rw [Thread.exit, if_neg (by simp [hre]), Thread.opt, filter_eraseP_of_imp]
        · rw [Thread.opt, List.map_eq_singleton_iff] at hsingle
          obtain ⟨e, he, hspan⟩ := hsingle
          rw [he, List.eraseP_cons_of_pos (by simp [hspan])]
          rfl
        · rintro ⟨id, phase⟩ hmem hid
          have hid : id = handle.span := by simpa using hid
          subst hid
          simpa [hphase] using hfit phase hmem
      refine ⟨⟨hexit ▸ Nat.zero_le 1, hfresh, hfits, hdrop.owner, fun id hid => ?_⟩, ?_⟩
      · rw [hnil] at hid
        exact (nomatch hid)
      · have hmicro : (t.exit handle).microStep = t.microStep + 1 := by
          rw [Thread.exit, if_neg (by simp [hre])]
          exact if_pos hphase
        rw [credit, credit, opts_cons, hopt, hnil, hmicro]
        rfl
    · have hopt := h.opt_exit hphase
      refine ⟨⟨hopt ▸ h.one, hfresh, hfits, hdrop.owner, hopt ▸ hdrop.owned⟩, ?_⟩
      rw [credit, credit, opts_cons, Handle.opt_of_phase hphase, Thread.microStep_exit hphase]
      rfl

end Probing.Profiling.TorchProbe
