import Mathlib.Data.List.Basic

/-!
# Runs of a partial step function

A machine is a step function that may refuse an action. A run is the outcome of
a list of actions, and every statement about reachable states goes through the
single induction `exec_invariant`.
-/

namespace Probing.Core

variable {σ α : Type*}

/-- The state after performing `acts` in order, if every action is enabled. -/
def exec (step : σ → α → Option σ) : σ → List α → Option σ
  | s, [] => some s
  | s, a :: rest => (step s a).bind fun t => exec step t rest

/-- Every action of the run, at the state it is taken from, satisfies `ok`. -/
def Meets (step : σ → α → Option σ) (ok : σ → α → Prop) : σ → List α → Prop
  | _, [] => True
  | s, a :: rest => ok s a ∧ ∀ t ∈ step s a, Meets step ok t rest

instance Meets.decidable (step : σ → α → Option σ) (ok : σ → α → Prop)
    [∀ s a, Decidable (ok s a)] : ∀ s acts, Decidable (Meets step ok s acts)
  | _, [] => inferInstanceAs (Decidable True)
  | s, a :: rest =>
      have : Decidable (∀ t ∈ step s a, Meets step ok t rest) :=
        match h : step s a with
        | none => .isTrue (by simp)
        | some t =>
            match Meets.decidable step ok t rest with
            | .isTrue ht => .isTrue (by simpa using ht)
            | .isFalse ht => .isFalse (by simpa using ht)
      inferInstanceAs (Decidable (_ ∧ _))

variable {step : σ → α → Option σ} {ok : σ → α → Prop} {inv : σ → Prop}

@[simp] theorem exec_nil (s : σ) : exec step s [] = some s := rfl

@[simp] theorem exec_cons (s : σ) (a : α) (rest : List α) :
    exec step s (a :: rest) = (step s a).bind fun t => exec step t rest := rfl

theorem exec_append (s : σ) (xs ys : List α) :
    exec step s (xs ++ ys) = (exec step s xs).bind fun t => exec step t ys := by
  induction xs generalizing s with
  | nil => rfl
  | cons a rest ih =>
      simp only [List.cons_append, exec_cons, Option.bind_assoc]
      congr 1
      funext t
      exact ih t

/-- A run goes on where another one ended. -/
theorem exec_trans {s t u : σ} {xs ys : List α} (hxs : exec step s xs = some t)
    (hys : exec step t ys = some u) : exec step s (xs ++ ys) = some u := by
  rw [exec_append, hxs, Option.bind_some, hys]

/-- A property kept by every step that satisfies `ok` holds at the end of every
run whose steps all satisfy `ok`. -/
theorem exec_invariant
    (hstep : ∀ s a t, inv s → ok s a → step s a = some t → inv t)
    {s t : σ} {acts : List α} (hinv : inv s) (hok : Meets step ok s acts)
    (hrun : exec step s acts = some t) : inv t := by
  induction acts generalizing s with
  | nil =>
      obtain rfl : s = t := by simpa using hrun
      exact hinv
  | cons a rest ih =>
      obtain ⟨u, hu, hrest⟩ := Option.bind_eq_some_iff.mp hrun
      exact ih (hstep s a u hinv hok.1 hu) (hok.2 u hu) hrest

/-- A run whose actions are all enabled goes to its end. -/
theorem exec_progress
    (hstep : ∀ s a, inv s → ok s a → ∃ t, step s a = some t ∧ inv t)
    {s : σ} {acts : List α} (hinv : inv s) (hok : Meets step ok s acts) :
    ∃ t, exec step s acts = some t ∧ inv t := by
  induction acts generalizing s with
  | nil => exact ⟨s, rfl, hinv⟩
  | cons a rest ih =>
      obtain ⟨u, hu, hinv'⟩ := hstep s a hinv hok.1
      obtain ⟨t, ht, hinvt⟩ := ih hinv' (hok.2 u hu)
      exact ⟨t, by rw [exec_cons, hu, Option.bind_some, ht], hinvt⟩

theorem meets_true (s : σ) (acts : List α) : Meets step (fun _ _ => True) s acts := by
  induction acts generalizing s with
  | nil => trivial
  | cons a rest ih => exact ⟨trivial, fun t _ => ih t⟩

theorem Meets.mono {ok' : σ → α → Prop} (hle : ∀ s a, ok s a → ok' s a) {s : σ} {acts : List α}
    (h : Meets step ok s acts) : Meets step ok' s acts := by
  induction acts generalizing s with
  | nil => trivial
  | cons a rest ih => exact ⟨hle s a h.1, fun t ht => ih (h.2 t ht)⟩

/-- A property kept by every step holds at the end of every run. -/
theorem exec_preserves (hstep : ∀ s a t, inv s → step s a = some t → inv t)
    {s t : σ} {acts : List α} (hinv : inv s) (hrun : exec step s acts = some t) : inv t :=
  exec_invariant (fun s a t hs _ ht => hstep s a t hs ht) hinv (meets_true s acts) hrun

/-- A statement about a record that only grows holds at the end of a run exactly if it held at the
start and every step satisfied `ok`. -/
theorem exec_meets_iff {holds : σ → Prop} (hkeep : ∀ s a t, inv s → step s a = some t → inv t)
    (hstep : ∀ s a t, inv s → step s a = some t → (holds t ↔ holds s ∧ ok s a))
    {s t : σ} {acts : List α} (hinv : inv s) (hrun : exec step s acts = some t) :
    holds t ↔ holds s ∧ Meets step ok s acts := by
  induction acts generalizing s with
  | nil =>
      obtain rfl := Option.some.inj hrun
      exact (and_iff_left trivial).symm
  | cons a rest ih =>
      obtain ⟨u, hu, hrest⟩ := Option.bind_eq_some_iff.mp hrun
      have hmeets : Meets step ok s (a :: rest) ↔ ok s a ∧ Meets step ok u rest := by
        constructor
        · exact fun ⟨hok, hall⟩ => ⟨hok, hall u hu⟩
        · rintro ⟨hok, hall⟩
          refine ⟨hok, fun u' hu' => ?_⟩
          obtain rfl := Option.some.inj (hu.symm.trans hu')
          exact hall
      rw [ih (hkeep s a u hinv hu) hrest, hstep s a u hinv hu, hmeets, and_assoc]

/-- Two conditions on steps that agree where an invariant holds, which steps that meet the first one
keep, are met by the same runs. -/
theorem meets_congr {ok' : σ → α → Prop} (hiff : ∀ s a, inv s → (ok s a ↔ ok' s a))
    (hkeep : ∀ s a t, inv s → ok s a → step s a = some t → inv t) {s : σ} {acts : List α}
    (hinv : inv s) : Meets step ok s acts ↔ Meets step ok' s acts := by
  induction acts generalizing s with
  | nil => exact Iff.rfl
  | cons a rest ih =>
      constructor
      · rintro ⟨hok, hall⟩
        exact ⟨(hiff s a hinv).mp hok, fun t ht => (ih (hkeep s a t hinv hok ht)).mp (hall t ht)⟩
      · rintro ⟨hok', hall⟩
        have hok := (hiff s a hinv).mpr hok'
        exact ⟨hok, fun t ht => (ih (hkeep s a t hinv hok ht)).mpr (hall t ht)⟩

/-- One party moves on, and there is still at most one in the critical section. -/
theorem unique_update {A P : Type*} [DecidableEq A] {inside : P → Prop} {pc : A → P} {a : A}
    {p : P} (h : ∀ b c, inside (pc b) → inside (pc c) → b = c)
    (hself : inside p → ∀ b ≠ a, ¬ inside (pc b)) (b c : A)
    (hb : inside (Function.update pc a p b)) (hc : inside (Function.update pc a p c)) : b = c := by
  by_cases hba : b = a
  · by_cases hca : c = a
    · exact hba.trans hca.symm
    · rw [hba, Function.update_self] at hb
      rw [Function.update_of_ne hca] at hc
      exact (hself hb c hca hc).elim
  · rw [Function.update_of_ne hba] at hb
    by_cases hca : c = a
    · rw [hca, Function.update_self] at hc
      exact (hself hc b hba hb).elim
    · rw [Function.update_of_ne hca] at hc
      exact h b c hb hc

end Probing.Core
