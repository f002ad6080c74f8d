import Mathlib.Data.List.Basic

/-!
# Walking with a cursor

A loop that moves a cursor on while there is one, and collects something at each place. It ends when
the places it visits are finitely many; a place that the cursor does not leave is never left.
-/

namespace Probing.Core

variable {α β : Type*} (next : α → Option α) (out : α → List β)

/-- The places a cursor visits up to its end. -/
inductive Visits : Option α → List α → Prop
  | done : Visits none []
  | move {a as} (tail : Visits (next a) as) : Visits (some a) (a :: as)

/-- `while let Some(a) = cursor`, with what each place gives appended. Without a result the loop is
still running when the fuel is used up. -/
def collect : ℕ → Option α → List β → Option (List β)
  | _, none, acc => some acc
  | 0, some _, _ => none
  | fuel + 1, some a, acc => collect fuel (next a) (acc ++ out a)

variable {next out} {cursor : Option α} {a : α} {as bs : List α} {acc res : List β}

namespace Visits

theorem tail (h : Visits next (some a) as) :
    ∃ rest, as = a :: rest ∧ Visits next (next a) rest := by
  cases h with
  | move h => exact ⟨_, rfl, h⟩

theorem unique (h : Visits next cursor as) (h' : Visits next cursor bs) : as = bs := by
  induction h generalizing bs with
  | done =>
      cases h'
      rfl
  | @move a as _ ih =>
      obtain ⟨rest, rfl, hrest⟩ := h'.tail
      exact congrArg (List.cons a) (ih hrest)

/-- A place that leads to itself is never left. -/
theorem next_ne (h : Visits next cursor as) (ha : a ∈ as) : next a ≠ some a := by
  induction h with
  | done => exact absurd ha List.not_mem_nil
  | @move b rest tail ih =>
      rcases List.mem_cons.mp ha with rfl | hmem
      · intro hself
        have hsame : a :: rest = rest := (Visits.move tail).unique (hself ▸ tail)
        exact absurd (congrArg List.length hsame) (Nat.succ_ne_self _)
      · exact ih hmem

end Visits

/-- The loop ends exactly when the places are finitely many, with what they give in this order. -/
theorem collect_eq_some_iff : (∃ fuel, collect next out fuel cursor acc = some res) ↔
    ∃ as, Visits next cursor as ∧ res = acc ++ as.flatMap out := by
  constructor
  · rintro ⟨fuel, h⟩
    induction fuel generalizing cursor acc with
    | zero =>
        cases cursor with
        | none => exact ⟨[], .done, (Option.some.inj h).symm.trans (List.append_nil _).symm⟩
        | some a => exact (nomatch h)
    | succ fuel ih =>
        cases cursor with
        | none => exact ⟨[], .done, (Option.some.inj h).symm.trans (List.append_nil _).symm⟩
        | some a =>
            obtain ⟨as, has, hres⟩ := ih h
            exact ⟨a :: as, .move has, by rw [hres, List.flatMap_cons, List.append_assoc]⟩
  · rintro ⟨as, has, rfl⟩
    refine ⟨as.length, ?_⟩
    induction has generalizing acc with
    | done => rw [List.flatMap_nil, List.append_nil]; rfl
    | @move a as _ ih =>
        change collect next out as.length (next a) (acc ++ out a) = _
        rw [ih, List.flatMap_cons, List.append_assoc]

end Probing.Core
