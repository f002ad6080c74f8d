import Mathlib.Algebra.Order.BigOperators.Group.List
import Mathlib.Tactic.Linarith
import Probing.Core.Forest
import Probing.Profiling.TorchFolded

/-!
# The self times of modules

The value of a frame comes from its own rows and from those of its direct children, and the latter
count only behind its first own row. Where no module has its parent module among the rows that
are counted, nothing is taken away and the order is of no matter.
-/

namespace Probing.Profiling.TorchFolded

open Probing.Core.Keyed (get update modify)
open Probing.Core.SelfValue
open Probing.Stacktrace (startsWith)

variable {rows rows' : List Row} {row : Row} {frames : List (Frame × ℚ)} {f g : Frame}
  {clamp : Bool} {value total : ℚ} {es : List (Frame × ℚ)} {names : List String}

section Parents

theorem intercalate_concat {α : Type*} (sep : α) {init : List (List α)} (h : init ≠ [])
    (last : List α) :
    [sep].intercalate (init ++ [last]) = [sep].intercalate init ++ sep :: last := by
  induction init with
  | nil => exact absurd rfl h
  | cons a rest ih =>
      cases rest with
      | nil => simp
      | cons b rest =>
          rw [List.cons_append, List.cons_append, List.intercalate_cons_cons, ← List.cons_append,
            ih (List.cons_ne_nil b rest), List.intercalate_cons_cons, List.append_assoc,
            List.append_assoc, List.append_assoc]

/-- The name of a module starts with that of the module it is in and a dot. -/
theorem parent_name (h : f.parent = some g) :
    g.stage = f.stage ∧ ∃ last, f.module.toList = g.module.toList ++ '.' :: last := by
  unfold Frame.parent parts at h
  split at h
  next hlength =>
    obtain rfl := Option.some.inj h
    rw [List.length_map] at hlength
    have hsplit : ['.'].intercalate (f.module.toList.splitOn '.') = f.module.toList :=
      List.intercalate_splitOn '.'
    generalize f.module.toList.splitOn '.' = words at hlength hsplit
    rcases List.eq_nil_or_concat words with rfl | ⟨init, last, rfl⟩
    · exact absurd hlength (by simp)
    · have hinit : init ≠ [] := by
        rintro rfl
        exact absurd hlength (by simp)
      refine ⟨rfl, last, ?_⟩
      rw [← hsplit, List.concat_eq_append, intercalate_concat '.' hinit]
      simp [join, List.map_map, Function.comp_def]
  · exact nomatch h

theorem parent_shorter (f g : Frame) (h : f.parent = some g) :
    g.module.toList.length < f.module.toList.length := by
  obtain ⟨-, last, heq⟩ := parent_name h
  rw [heq, List.length_append, List.length_cons]
  omega

theorem parent_ne_self : f.parent ≠ some f := fun h => lt_irrefl _ (parent_shorter f f h)

/-- A module that is in another one of the list is no leaf's child. -/
theorem not_leaf_of_parent (h : f.parent = some g) (hmem : f.module ∈ names) :
    isLeafModule g.module names = false := by
  obtain ⟨-, last, heq⟩ := parent_name h
  have hne : f.module ≠ g.module := by
    intro hsame
    have hlt := parent_shorter f g h
    rw [hsame] at hlt
    exact lt_irrefl _ hlt
  unfold isLeafModule startsWith
  rw [Bool.not_eq_false', List.any_eq_true]
  refine ⟨f.module, hmem, ?_⟩
  rw [Bool.and_eq_true, heq]
  refine ⟨by simpa using hne, List.isPrefixOf_iff_prefix.mpr ⟨last, ?_⟩⟩
  simp

end Parents

section Totals

/-- What an entry does to the value of a frame. -/
def effect (g : Frame) (total : Option ℚ) (e : Frame × ℚ) : Option ℚ :=
  if e.1 = g then some (total.getD 0 + e.2)
  else if e.1.parent = some g then total.map (· - e.2) else total

variable {e : Frame × ℚ}

theorem effect_own (total : Option ℚ) (h : e.1 = g) :
    effect g total e = some (total.getD 0 + e.2) := if_pos h

theorem effect_child (total : Option ℚ) (h : e.1.parent = some g) :
    effect g total e = total.map (· - e.2) := by
  have hne : e.1 ≠ g := fun heq => parent_ne_self (heq ▸ h)
  exact (if_neg hne).trans (if_pos h)

theorem effect_other (total : Option ℚ) (hown : e.1 ≠ g) (hparent : e.1.parent ≠ some g) :
    effect g total e = total := (if_neg hown).trans (if_neg hparent)

theorem nodup_addValue (h : (frames.map Prod.fst).Nodup) :
    ((addValue frames f value).map Prod.fst).Nodup := by
  unfold addValue
  dsimp only
  split
  · exact Core.Keyed.nodup_modify (Core.Keyed.nodup_update h)
  · exact Core.Keyed.nodup_update h

theorem get_addValue (h : (frames.map Prod.fst).Nodup) :
    get (addValue frames f value) g = effect g (get frames g) (f, value) := by
  have hown : get (update (plus value) frames f) f = some ((get frames f).getD 0 + value) := by
    rw [Core.Keyed.get_update_self h]
    cases get frames f with
    | none => simp [plus]
    | some total => rfl
  unfold addValue effect
  dsimp only
  by_cases hf : f = g
  · subst hf
    rw [if_pos rfl]
    split
    next parent hparent =>
      have hne : f ≠ parent := fun heq => parent_ne_self (heq ▸ hparent)
      rw [Core.Keyed.get_modify_of_ne (Core.Keyed.nodup_update h) hne, hown]
    · exact hown
  · have hother : get (update (plus value) frames f) g = get frames g :=
      Core.Keyed.get_update_of_ne h (Ne.symm hf)
    rw [if_neg hf]
    split
    next parent hparent =>
      rw [hparent]
      by_cases hp : parent = g
      · subst hp
        rw [if_pos rfl, Core.Keyed.get_modify_self (Core.Keyed.nodup_update h), hother]
      · rw [if_neg fun heq => hp (Option.some.inj heq),
          Core.Keyed.get_modify_of_ne (Core.Keyed.nodup_update h) (Ne.symm hp), hother]
    next hnone => rw [hnone, if_neg (Option.some_ne_none _).symm, hother]

/-- The values of the entries of a frame. -/
def values (f : Frame) (es : List (Frame × ℚ)) : ℚ :=
  ((es.filter fun e => e.1 = f).map Prod.snd).sum

/-- The values of the entries of the direct children of a frame. -/
def taken (f : Frame) (es : List (Frame × ℚ)) : ℚ :=
  ((es.filter fun e => e.1.parent = some f).map Prod.snd).sum

/-- A frame without an entry of its own gets no value. -/
theorem foldl_effect_none (h : ∀ e ∈ es, e.1 ≠ g) : es.foldl (effect g) none = none := by
  induction es with
  | nil => rfl
  | cons e rest ih =>
      have hstep : effect g none e = none := by
        by_cases hparent : e.1.parent = some g
        · exact effect_child none hparent
        · exact effect_other none (h e List.mem_cons_self) hparent
      rw [List.foldl_cons, hstep]
      exact ih fun e he => h e (List.mem_cons_of_mem _ he)

/-- Without its children, a frame has the values of its own entries. -/
theorem foldl_effect_own (h : ∀ e ∈ es, e.1.parent ≠ some g) (total : Option ℚ) :
    es.foldl (effect g) total =
      if g ∈ es.map Prod.fst then some (total.getD 0 + values g es) else total := by
  induction es generalizing total with
  | nil => rfl
  | cons e rest ih =>
      have hrun := ih fun e he => h e (List.mem_cons_of_mem _ he)
      rw [List.foldl_cons, hrun]
      by_cases hg : e.1 = g
      · rw [effect_own total hg]
        by_cases hrest : g ∈ rest.map Prod.fst
        · simp [hg, hrest, values, add_assoc]
        · have hnil : (rest.filter fun e => e.1 = g) = [] :=
            List.filter_eq_nil_iff.mpr fun e he heq =>
              hrest (List.mem_map.mpr ⟨e, he, of_decide_eq_true heq⟩)
          simp [hg, hrest, values, hnil]
      · rw [effect_other total hg (h e List.mem_cons_self)]
        have hmem : g ∈ (e :: rest).map Prod.fst ↔ g ∈ rest.map Prod.fst := by
          rw [List.map_cons, List.mem_cons, or_iff_right (Ne.symm hg)]
        have hvalues : values g (e :: rest) = values g rest := by
          rw [values, List.filter_cons_of_neg (by simpa using hg)]
          rfl
        simp only [hmem, hvalues]

/-- Behind its own entries, the children of a frame take their values away. -/
theorem foldl_effect_taken (h : ∀ e ∈ es, e.1 ≠ g) (total : ℚ) :
    es.foldl (effect g) (some total) = some (total - taken g es) := by
  induction es generalizing total with
  | nil => simp [taken]
  | cons e rest ih =>
      have hg := h e List.mem_cons_self
      have ih := ih fun e he => h e (List.mem_cons_of_mem _ he)
      rw [List.foldl_cons]
      by_cases hparent : e.1.parent = some g
      · rw [effect_child _ hparent, Option.map_some, ih]
        simp [hparent, taken, sub_sub]
      · rw [effect_other _ hg hparent, ih]
        simp [hparent, taken]

end Totals

section Counts

def measurements (rows : List Row) : List (Frame × ℚ) := rows.filterMap measurement

/-- The entries of the rows that the filter leaves. -/
def counts (rows : List Row) : List (Frame × ℚ) := measurements (filterBackwardLeafRows rows)

/-- Whether the filter leaves the rows of a frame. -/
def kept (names : List String) (f : Frame) : Bool :=
  decide (f.stage ≠ "backward") || isLeafModule f.module names

theorem measurement_frame {e : Frame × ℚ} (h : measurement row = some e) :
    normalizePostStage row.stage = some e.1.stage ∧ e.1.module = row.module ∧ 0 < e.2 := by
  obtain ⟨phase, hphase, he⟩ := Option.bind_eq_some_iff.mp h
  split at he
  next hle => exact nomatch he
  next hle =>
    obtain rfl := Option.some.inj he
    exact ⟨hphase, rfl, not_le.mp hle⟩

theorem filterBackwardLeafRows_eq : filterBackwardLeafRows rows =
    rows.filter fun row => decide (normalizePostStage row.stage ≠ some "backward") ||
      isLeafModule row.module (backwardModuleNames rows) := by
  unfold filterBackwardLeafRows
  dsimp only
  split
  next hnil =>
    refine (List.filter_eq_self.mpr fun row hrow => ?_).symm
    have hnone := List.filterMap_eq_nil_iff.mp (List.isEmpty_iff.mp hnil) row hrow
    have hphase : normalizePostStage row.stage ≠ some "backward" := fun heq =>
      absurd hnone (by rw [if_pos heq]; exact Option.some_ne_none _)
    rw [Bool.or_eq_true]
    exact .inl (decide_eq_true hphase)
  · rfl

theorem counts_eq : counts rows = rows.filterMap fun row =>
    (measurement row).filter fun e => kept (backwardModuleNames rows) e.1 := by
  rw [counts, measurements, filterBackwardLeafRows_eq, List.filterMap_filter]
  refine List.filterMap_congr fun row _ => ?_
  cases he : measurement row with
  | none => exact ite_self none
  | some e =>
      obtain ⟨hphase, hmodule, -⟩ := measurement_frame he
      rw [hphase, ← hmodule, Option.filter_some]
      simp [kept]

theorem counts_eq_filter : counts rows =
    (measurements rows).filter fun e => kept (backwardModuleNames rows) e.1 := by
  rw [counts_eq, measurements, List.filter_filterMap]

theorem kept_congr (h : ∀ name, name ∈ names ↔ name ∈ backwardModuleNames rows) (f : Frame) :
    kept names f = kept (backwardModuleNames rows) f := by
  have hany : (names.any fun other => other != f.module && startsWith other (f.module ++ ".")) =
      (backwardModuleNames rows).any
        fun other => other != f.module && startsWith other (f.module ++ ".") := by
    rw [Bool.eq_iff_iff, List.any_eq_true, List.any_eq_true]
    simp only [h]
  rw [kept, kept, isLeafModule, isLeafModule, hany]

theorem kept_perm (h : rows'.Perm rows) (f : Frame) :
    kept (backwardModuleNames rows') f = kept (backwardModuleNames rows) f :=
  kept_congr (fun _ => (h.filterMap _).mem_iff) f

theorem counts_perm (h : rows'.Perm rows) : (counts rows').Perm (counts rows) := by
  rw [counts_eq_filter, counts_eq_filter]
  simp only [kept_perm h]
  exact (h.filterMap _).filter _

/-- The rows of a frame can all come first, and they can all come last. -/
theorem exists_orders (rows : List Row) (g : Frame) : ∃ own rest : List (Frame × ℚ),
    (∀ e ∈ own, e.1 = g) ∧ (∀ e ∈ rest, e.1 ≠ g) ∧ (own ++ rest).Perm (counts rows) ∧
      (∃ first, first.Perm rows ∧ counts first = own ++ rest) ∧
      ∃ last, last.Perm rows ∧ counts last = rest ++ own := by
  let q (row : Row) : Bool := decide ((measurement row).map Prod.fst = some g)
  let F (row : Row) := (measurement row).filter fun e => kept (backwardModuleNames rows) e.1
  have hfirst : (rows.filter q ++ rows.filter (!q ·)).Perm rows := List.filter_append_perm q rows
  have hlast : (rows.filter (!q ·) ++ rows.filter q).Perm rows := List.perm_append_comm.trans hfirst
  have hcounts {order : List Row} (h : order.Perm rows) : counts order = order.filterMap F := by
    rw [counts_eq]
    simp only [kept_perm h]
    rfl
  have hentry {row : Row} {e : Frame × ℚ} (h : F row = some e) : measurement row = some e :=
    (Option.filter_eq_some_iff.mp h).1
  refine ⟨(rows.filter q).filterMap F, (rows.filter (!q ·)).filterMap F, ?_, ?_, ?_, ?_, ?_⟩
  · intro e he
    obtain ⟨row, hrow, he⟩ := List.mem_filterMap.mp he
    have hq := of_decide_eq_true (List.mem_filter.mp hrow).2
    rw [hentry he] at hq
    exact Option.some.inj hq
  · rintro e he rfl
    obtain ⟨row, hrow, he⟩ := List.mem_filterMap.mp he
    have hq := (List.mem_filter.mp hrow).2
    simp [q, hentry he] at hq
  · rw [← List.filterMap_append, hcounts (List.Perm.refl rows)]
    exact hfirst.filterMap F
  · exact ⟨_, hfirst, by rw [hcounts hfirst, List.filterMap_append]⟩
  · exact ⟨_, hlast, by rw [hcounts hlast, List.filterMap_append]⟩

end Counts

section Lines

theorem foldl_addRow : rows.foldl (addRow clamp) frames =
    (measurements rows).foldl (fun frames e => addValue frames e.1 e.2) frames := by
  rw [measurements, List.foldl_filterMap]
  refine List.foldl_ext _ _ _ fun frames row _ => ?_
  rw [addRow_eq]
  cases measurement row <;> rfl

theorem foldl_addValue (h : (frames.map Prod.fst).Nodup) :
    ((es.foldl (fun frames e => addValue frames e.1 e.2) frames).map Prod.fst).Nodup ∧
      ∀ g, get (es.foldl (fun frames e => addValue frames e.1 e.2) frames) g =
        es.foldl (effect g) (get frames g) := by
  induction es generalizing frames with
  | nil => exact ⟨h, fun _ => rfl⟩
  | cons e rest ih =>
      have hstep : ((addValue frames e.1 e.2).map Prod.fst).Nodup := nodup_addValue h
      obtain ⟨hnodup, hget⟩ := ih hstep
      refine ⟨hnodup, fun g => ?_⟩
      rw [List.foldl_cons, hget g, get_addValue h]
      rfl

/-- The values of the frames behind all entries. -/
theorem totals (es : List (Frame × ℚ)) :
    ((es.foldl (fun frames e => addValue frames e.1 e.2) []).map Prod.fst).Nodup ∧
      ∀ g, get (es.foldl (fun frames e => addValue frames e.1 e.2) []) g =
        es.foldl (effect g) none := foldl_addValue List.nodup_nil

instance : Std.Total fun a b : Frame × ℚ => a.1.key ≤ b.1.key :=
  ⟨fun a b => le_total a.1.key b.1.key⟩

instance : IsTrans (Frame × ℚ) fun a b => a.1.key ≤ b.1.key := ⟨fun _ _ _ => le_trans⟩

theorem key_injective : Function.Injective Frame.key := by
  rintro ⟨stage, module⟩ ⟨stage', module'⟩ h
  obtain ⟨rfl, rfl⟩ := Prod.mk.inj (toLex_inj.mp h)
  rfl

/-- The value of a line: a value that is not positive has none. -/
def shown (value : ℚ) : Option ℚ := if 0 < value then some value else none

theorem foldedFrames_eq : foldedFrames rows clamp =
    (((counts rows).foldl (fun frames e => addValue frames e.1 e.2) []).insertionSort
      fun a b => a.1.key ≤ b.1.key).filterMap fun e =>
        (shown e.2).map (e.1, ·) := by
  unfold foldedFrames
  dsimp only
  rw [foldl_addRow, ← counts]
  refine List.filterMap_congr fun ⟨frame, value⟩ _ => ?_
  by_cases hpos : 0 < value
  · have hmax : max value 0 = value := max_eq_left hpos.le
    cases clamp <;> simp [shown, hpos, hmax]
  · cases clamp <;> simp [shown, hpos, not_lt.mp hpos]

/-- The value of a line is what is left of the value of its frame, when that is positive. -/
theorem get_folded : get (foldedFrames rows clamp) g =
    ((counts rows).foldl (effect g) none).bind shown := by
  obtain ⟨hnodup, hget⟩ := totals (counts rows)
  have hperm := List.perm_insertionSort (fun a b : Frame × ℚ => a.1.key ≤ b.1.key)
    ((counts rows).foldl (fun frames e => addValue frames e.1 e.2) [])
  rw [foldedFrames_eq, Core.Keyed.get_filterMap ((hperm.map _).nodup_iff.mpr hnodup),
    Core.Keyed.get_perm hnodup hperm, hget g]

theorem folded_sorted : (foldedFrames rows clamp).Pairwise fun a b => a.1.key < b.1.key := by
  rw [foldedFrames_eq]
  obtain ⟨hnodup, -⟩ := totals (counts rows)
  have hperm := List.perm_insertionSort (fun a b : Frame × ℚ => a.1.key ≤ b.1.key)
    ((counts rows).foldl (fun frames e => addValue frames e.1 e.2) [])
  have hne := List.pairwise_map.mp ((hperm.map Prod.fst).nodup_iff.mpr hnodup)
  have hle := List.pairwise_insertionSort (fun a b : Frame × ℚ => a.1.key ≤ b.1.key)
    ((counts rows).foldl (fun frames e => addValue frames e.1 e.2) [])
  refine (hle.and hne).filterMap _ fun a b h x hx y hy => ?_
  obtain ⟨-, -, rfl⟩ := Option.map_eq_some_iff.mp hx
  obtain ⟨-, -, rfl⟩ := Option.map_eq_some_iff.mp hy
  exact lt_of_le_of_ne h.1 fun heq => h.2 (key_injective heq)

/-- Rows that leave every frame the same value have the same lines. -/
theorem folded_eq
    (h : ∀ g, (counts rows').foldl (effect g) none = (counts rows).foldl (effect g) none) :
    foldedFrames rows' clamp = foldedFrames rows clamp := by
  refine Core.Keyed.eq_of_get (r := fun f g => f.key < g.key) (fun _ _ => lt_asymm) folded_sorted
    folded_sorted fun g => ?_
  rw [get_folded, get_folded, h]

end Lines

section Claim

/-- The value of a module in a phase. -/
def own (rows : List Row) (f : Frame) : ℚ := values f (measurements rows)

/-- The modules that are measured, in their phases. -/
def measured (rows : List Row) : Finset Frame := ((measurements rows).map Prod.fst).toFinset

/-- The modules whose rows are counted: those of the backward phase only where they are leaves. -/
def counted (rows : List Row) : Finset Frame := ((counts rows).map Prod.fst).toFinset

/-- What the line of a module carries. -/
def carried (rows : List Row) (clamp_non_negative : Bool) (f : Frame) : ℚ :=
  (get (foldedFrames rows clamp_non_negative) f).getD 0

/-- The sum of the values of the measured direct children. -/
def childrenSum (rows : List Row) (f : Frame) : ℚ :=
  ∑ c ∈ children Frame.parent (measured rows) f, own rows c

/-- Each parent's value is at least the sum of those of its measured direct children. -/
def Covers (rows : List Row) : Prop := ∀ f ∈ measured rows, childrenSum rows f ≤ own rows f

open Classical in
/-- The lines do not depend on the order of the rows, and where the parents cover their children
they carry self times. -/
structure Consistent (rows : List Row) (clamp_non_negative : Bool) : Prop where
  order : ∀ rows', rows'.Perm rows →
    foldedFrames rows' clamp_non_negative = foldedFrames rows clamp_non_negative
  self_time : Covers rows → ∀ f ∈ measured rows,
    carried rows clamp_non_negative f = own rows f - childrenSum rows f
  total : Covers rows → ∀ f ∈ measured rows,
    ∑ d ∈ measured rows with Under Frame.parent (measured rows) f d,
      carried rows clamp_non_negative d = own rows f

/-- No counted module is directly in another one, and the measured modules that are not counted
have nothing of their own. -/
structure Apart (rows : List Row) : Prop where
  parents : ∀ f ∈ counted rows, ∀ g ∈ counted rows, f.parent ≠ some g
  left_out : Covers rows → ∀ f ∈ measured rows, f ∉ counted rows → own rows f = childrenSum rows f

theorem mem_measured : f ∈ measured rows ↔ ∃ e ∈ measurements rows, e.1 = f := by
  rw [measured, List.mem_toFinset, List.mem_map]

theorem mem_counted : f ∈ counted rows ↔ ∃ e ∈ counts rows, e.1 = f := by
  rw [counted, List.mem_toFinset, List.mem_map]

theorem mem_counted_iff :
    f ∈ counted rows ↔ f ∈ measured rows ∧ kept (backwardModuleNames rows) f = true := by
  rw [mem_counted, mem_measured, counts_eq_filter]
  constructor
  · rintro ⟨e, he, rfl⟩
    obtain ⟨he, hkept⟩ := List.mem_filter.mp he
    exact ⟨⟨e, he, rfl⟩, hkept⟩
  · rintro ⟨⟨e, he, rfl⟩, hkept⟩
    exact ⟨e, List.mem_filter.mpr ⟨he, hkept⟩, rfl⟩

/-- Without parents among the counted modules, a counted module keeps the values of its rows. -/
theorem foldl_of_parents (h : ∀ f ∈ counted rows, ∀ g ∈ counted rows, f.parent ≠ some g)
    (g : Frame) :
    (counts rows).foldl (effect g) none =
      if g ∈ counted rows then some (values g (counts rows)) else none := by
  by_cases hg : g ∈ counted rows
  · have hown : (counts rows).foldl (effect g) none = _ :=
      foldl_effect_own (fun e he => h e.1 (mem_counted.2 ⟨e, he, rfl⟩) g hg) none
    rw [hown, if_pos hg, if_pos (List.mem_toFinset.mp hg), Option.getD_none, zero_add]
  · rw [if_neg hg, foldl_effect_none fun e he heq => hg (mem_counted.2 ⟨e, he, heq⟩)]

theorem counted_perm (h : rows'.Perm rows) : counted rows' = counted rows := by
  ext f
  rw [mem_counted, mem_counted]
  simp only [(counts_perm h).mem_iff]

theorem values_perm {es' : List (Frame × ℚ)} (h : es'.Perm es) (f : Frame) :
    values f es' = values f es := ((h.filter _).map _).sum_eq

/-- All rows of a counted module are counted. -/
theorem values_counts (h : f ∈ counted rows) : values f (counts rows) = own rows f := by
  have hkept := (mem_counted_iff.1 h).2
  rw [own, values, values, counts_eq_filter, List.filter_filter]
  refine congrArg (fun l : List (Frame × ℚ) => (l.map Prod.snd).sum)
    (List.filter_congr fun e _ => ?_)
  by_cases heq : e.1 = f
  · simp [heq, hkept]
  · simp [heq]

theorem sum_pos {p : Frame × ℚ → Bool} (hpos : ∀ e ∈ es, 0 < e.2) {e : Frame × ℚ} (he : e ∈ es)
    (hp : p e = true) : 0 < ((es.filter p).map Prod.snd).sum := by
  apply List.sum_pos
  · intro v hv
    obtain ⟨e, he, rfl⟩ := List.mem_map.mp hv
    exact hpos e (List.mem_filter.mp he).1
  · exact List.ne_nil_of_mem (List.mem_map_of_mem (List.mem_filter.mpr ⟨he, hp⟩))

theorem counts_pos (e : Frame × ℚ) (he : e ∈ counts rows) : 0 < e.2 := by
  obtain ⟨row, -, h⟩ := List.mem_filterMap.mp he
  exact (measurement_frame h).2.2

theorem foldl_perm (h : ∀ f ∈ counted rows, ∀ g ∈ counted rows, f.parent ≠ some g)
    (hperm : rows'.Perm rows) (g : Frame) :
    (counts rows').foldl (effect g) none = (counts rows).foldl (effect g) none := by
  have hparents : ∀ f ∈ counted rows', ∀ g ∈ counted rows', f.parent ≠ some g := by
    rw [counted_perm hperm]
    exact h
  rw [foldl_of_parents h, foldl_of_parents hparents, counted_perm hperm,
    values_perm (counts_perm hperm)]

/-- A line that carries what the rows of the frame sum up to. -/
theorem carried_of_parents (h : ∀ f ∈ counted rows, ∀ g ∈ counted rows, f.parent ≠ some g)
    (g : Frame) :
    carried rows clamp g = if g ∈ counted rows then own rows g else 0 := by
  rw [carried, get_folded, foldl_of_parents h]
  by_cases hg : g ∈ counted rows
  · obtain ⟨e, he, heq⟩ := mem_counted.1 hg
    have hpos : 0 < values g (counts rows) := sum_pos counts_pos he (decide_eq_true heq)
    rw [if_pos hg, if_pos hg, Option.bind_some, shown, if_pos hpos, ← values_counts hg]
    rfl
  · rw [if_neg hg, if_neg hg]
    rfl

/-- The measured children of a counted module are counted: in the backward phase there are none. -/
theorem counted_of_parent (hf : f ∈ counted rows) {c : Frame} (hc : c ∈ measured rows)
    (hparent : c.parent = some f) : c ∈ counted rows := by
  refine mem_counted_iff.2 ⟨hc, ?_⟩
  have hkept := (mem_counted_iff.1 hf).2
  unfold kept at hkept ⊢
  rw [Bool.or_eq_true, decide_eq_true_iff, (parent_name hparent).1] at hkept
  rw [Bool.or_eq_true, decide_eq_true_iff]
  refine .inl fun hstage => ?_
  have hmem : c.module ∈ backwardModuleNames rows := by
    obtain ⟨e, he, rfl⟩ := mem_measured.1 hc
    obtain ⟨row, hrow, h⟩ := List.mem_filterMap.mp he
    obtain ⟨hphase, hmodule, -⟩ := measurement_frame h
    refine List.mem_filterMap.mpr ⟨row, hrow, ?_⟩
    rw [hphase, hstage, if_pos rfl, hmodule]
  rcases hkept with hne | hleaf
  · exact hne hstage
  · exact absurd (not_leaf_of_parent hparent hmem) (by rw [hleaf]; exact Bool.noConfusion)

theorem childrenSum_of_parents (h : ∀ f ∈ counted rows, ∀ g ∈ counted rows, f.parent ≠ some g)
    (hf : f ∈ counted rows) : childrenSum rows f = 0 := by
  refine Finset.sum_eq_zero fun c hc => ?_
  obtain ⟨hmem, hparent⟩ := mem_children.mp hc
  exact absurd hparent (h c (counted_of_parent hf hmem hparent) f hf)

/-- A counted module that is in another one makes the lines depend on the order: behind the rows of
its children, a module keeps all its value. -/
theorem parents_of_order (h : ∀ rows', rows'.Perm rows →
    foldedFrames rows' clamp = foldedFrames rows clamp) :
    ∀ f ∈ counted rows, ∀ g ∈ counted rows, f.parent ≠ some g := by
  intro f hf g hg hparent
  obtain ⟨mine, rest, hmine, hrest, hperm, ⟨first, hfirst, hcounts⟩, ⟨last, hlast, hcounts'⟩⟩ :=
    exists_orders rows g
  have hpos : ∀ e ∈ mine ++ rest, 0 < e.2 := fun e he => counts_pos e (hperm.mem_iff.mp he)
  have hown : 0 < values g mine := by
    obtain ⟨e, he, heq⟩ := mem_counted.1 hg
    rcases List.mem_append.mp (hperm.mem_iff.mpr he) with he | he
    · exact sum_pos (fun e he => hpos e (List.mem_append_left _ he)) he (decide_eq_true heq)
    · exact absurd heq (hrest e he)
  have htaken : 0 < taken g rest := by
    obtain ⟨e, he, heq⟩ := mem_counted.1 hf
    rcases List.mem_append.mp (hperm.mem_iff.mpr he) with he | he
    · exact absurd ((hmine e he).symm.trans heq ▸ hparent) parent_ne_self
    · exact sum_pos (fun e he => hpos e (List.mem_append_right _ he)) he
        (decide_eq_true (heq ▸ hparent))
  obtain ⟨e, he⟩ := List.exists_mem_of_ne_nil mine fun hnil => by simp [hnil, values] at hown
  have hmem : g ∈ mine.map Prod.fst := List.mem_map.mpr ⟨e, he, hmine e he⟩
  have hparents : ∀ e ∈ mine, e.1.parent ≠ some g := fun e he heq =>
    parent_ne_self (hmine e he ▸ heq)
  have hmine_run : mine.foldl (effect g) none = some (values g mine) := by
    rw [foldl_effect_own hparents, if_pos hmem, Option.getD_none, zero_add]
  have hbehind : get (foldedFrames last clamp) g = some (values g mine) := by
    rw [get_folded, hcounts', List.foldl_append, foldl_effect_none hrest, hmine_run,
      Option.bind_some, shown, if_pos hown]
  have hbefore : get (foldedFrames first clamp) g = shown (values g mine - taken g rest) := by
    rw [get_folded, hcounts, List.foldl_append, hmine_run, foldl_effect_taken hrest,
      Option.bind_some]
  have hsame : shown (values g mine - taken g rest) = some (values g mine) := by
    rw [← hbefore, ← hbehind, h first hfirst, h last hlast]
  unfold shown at hsame
  split at hsame
  · have heq := Option.some.inj hsame
    linarith
  · exact nomatch hsame

theorem Apart.self_time (h : Apart rows) (hcovers : Covers rows) (hf : f ∈ measured rows) :
    carried rows clamp f = own rows f - childrenSum rows f := by
  rw [carried_of_parents h.parents]
  split
  next hcounted => rw [childrenSum_of_parents h.parents hcounted, sub_zero]
  next hleft => rw [h.left_out hcovers f hf hleft, sub_self]

/-- The lines are the same in every order of the rows and carry self times exactly where no counted
module is directly in a counted one. -/
theorem consistent_iff (rows : List Row) (clamp_non_negative : Bool) :
    Consistent rows clamp_non_negative ↔ Apart rows := by
  constructor
  · intro h
    have hparents := parents_of_order h.order
    refine ⟨hparents, fun hcovers f hf hleft => ?_⟩
    have hself := h.self_time hcovers f hf
    rw [carried_of_parents hparents, if_neg hleft] at hself
    exact (sub_eq_zero.mp hself.symm)
  · intro h
    exact ⟨fun rows' hperm => folded_eq (foldl_perm h.parents hperm),
      fun hcovers f hf => h.self_time hcovers hf,
      fun hcovers f hf => sum_under parent_shorter (fun d hd => h.self_time hcovers hd) hf⟩

/-- Two modules, one in the other, with one row each. -/
def childFirst : List Row :=
  [⟨"features.conv1", "post forward", 5⟩, ⟨"features", "post forward", 8⟩]

/-- Behind the row of its child, the parent keeps its whole value. -/
theorem child_first_not_consistent : ¬ ∀ (rows : List Row) (clamp_non_negative : Bool),
    (rows.map fun row => (row.module, row.stage)).Nodup → Consistent rows clamp_non_negative := by
  intro h
  have hnodup : (childFirst.map fun row => (row.module, row.stage)).Nodup := by decide
  have horder := (h childFirst false hnodup).order childFirst.reverse (List.reverse_perm _)
  have hne : foldedFrames childFirst.reverse false ≠ foldedFrames childFirst false := by
    decide +kernel
  exact hne horder

/-- A query has one row for each module and stage. -/
theorem valueRows_nodup (data : List Row) :
    ((valueRows data).map fun row => (row.module, row.stage)).Nodup := by
  refine List.Nodup.sublist (List.filter_sublist.map _) ?_
  rw [List.map_map]
  exact Core.Keyed.nodup_gather

/-- The lines of a query, whatever the order in which the hash map returns its groups. -/
theorem lines_of_orders {data order : List Row} (to_units : ℚ → UInt64)
    (h : ∀ f ∈ counted (valueRows data), ∀ g ∈ counted (valueRows data), f.parent ≠ some g)
    (hperm : order.Perm (valueRows data)) :
    buildFoldedLines order to_units clamp =
      buildFoldedLines (valueRows data) to_units clamp := by
  rw [buildFoldedLines, buildFoldedLines, folded_eq (foldl_perm h hperm)]

end Claim

end Probing.Profiling.TorchFolded
