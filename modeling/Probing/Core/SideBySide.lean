import Mathlib.Data.List.Forall2

/-!
# Lists side by side

Facts about two lists whose elements are related one by one.
-/

namespace Probing.Core

/-- Mapping with a partial function succeeds when every element has an image. -/
theorem mapM_eq_some_iff {α β : Type} {f : α → Option β} {xs : List α} {ys : List β} :
    xs.mapM f = some ys ↔ List.Forall₂ (fun x y => f x = some y) xs ys := by
  induction xs generalizing ys with
  | nil => simp [eq_comm]
  | cons x xs ih =>
      rw [List.mapM_cons]
      constructor
      · intro h
        obtain ⟨y, hy, h⟩ := Option.bind_eq_some_iff.mp h
        obtain ⟨rest, hrest, h⟩ := Option.bind_eq_some_iff.mp h
        obtain rfl := Option.some.inj h
        exact .cons hy (ih.mp hrest)
      · intro h
        cases h with
        | cons hy hrest =>
            rw [hy, ih.mpr hrest]
            rfl

theorem forall₂_mem_right {α β : Type} {p : α → β → Prop} {xs : List α} {ys : List β}
    (h : List.Forall₂ p xs ys) {y : β} (hy : y ∈ ys) : ∃ x ∈ xs, p x y := by
  induction h with
  | nil => cases hy
  | @cons x y' xs ys hxy _ ih =>
      rcases List.mem_cons.mp hy with rfl | hy
      · exact ⟨x, List.mem_cons_self, hxy⟩
      · obtain ⟨z, hz, hzy⟩ := ih hy
        exact ⟨z, List.mem_cons_of_mem x hz, hzy⟩

theorem forall₂_both {α β : Type} {p q : α → β → Prop} {xs : List α} {ys : List β} :
    List.Forall₂ (fun x y => p x y ∧ q x y) xs ys ↔
    List.Forall₂ p xs ys ∧ List.Forall₂ q xs ys := by
  constructor
  · intro h
    exact ⟨h.imp fun _ _ hboth => hboth.1, h.imp fun _ _ hboth => hboth.2⟩
  · rintro ⟨hp, hq⟩
    induction hp with
    | nil => exact .nil
    | cons hhead _ ih =>
        cases hq with
        | cons hhead' htail' => exact .cons ⟨hhead, hhead'⟩ (ih htail')

theorem forall₂_congr_left {α β : Type} {p q : α → β → Prop} {xs : List α} {ys : List β}
    (h : ∀ x ∈ xs, ∀ y, p x y ↔ q x y) : List.Forall₂ p xs ys ↔ List.Forall₂ q xs ys := by
  induction xs generalizing ys with
  | nil => rw [List.forall₂_nil_left_iff, List.forall₂_nil_left_iff]
  | cons x xs ih =>
      cases ys with
      | nil => exact ⟨fun h => (nomatch h), fun h => (nomatch h)⟩
      | cons y ys =>
          rw [List.forall₂_cons, List.forall₂_cons, h x List.mem_cons_self,
            ih fun x' hx' => h x' (List.mem_cons_of_mem x hx')]

/-- A list of images with two properties can be chosen element by element. -/
theorem exists_forall₂ {α β : Type} {p q : α → β → Prop} {xs : List α} :
    (∃ ys, List.Forall₂ p xs ys ∧ List.Forall₂ q xs ys) ↔ ∀ x ∈ xs, ∃ y, p x y ∧ q x y := by
  induction xs with
  | nil => exact ⟨fun _ x hx => (nomatch hx), fun _ => ⟨[], .nil, .nil⟩⟩
  | cons x xs ih =>
      rw [List.forall_mem_cons, ← ih]
      constructor
      · rintro ⟨ys, hp, hq⟩
        cases hp with
        | cons hp hps =>
            cases hq with
            | cons hq hqs => exact ⟨⟨_, hp, hq⟩, _, hps, hqs⟩
      · rintro ⟨⟨y, hp, hq⟩, ys, hps, hqs⟩
        exact ⟨y :: ys, .cons hp hps, .cons hq hqs⟩

end Probing.Core
