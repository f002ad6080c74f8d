import Mathlib.Data.Nat.ModEq
import Probing.Stacktrace.Fold

/-!
# Merging folded stacks in any order and in groups

The merge gathers the stacks of a path: the counts add up, and the ranks are those of the sets the
stacks come in. Both depend on the stacks of the path alone and not on their order, and groups of
stacks may be merged first, without their ranks.
-/

namespace Probing.Stacktrace

open Core.Keyed (update get gather get_gather nodup_gather mem_gather gather_append)

/-- Every stack with the rank of its set. -/
def contributions (sets : List (Option ℤ × List FoldedStacks)) : List (Option ℤ × FoldedStacks) :=
  sets.flatMap fun set => set.2.map fun stack => (set.1, stack)

/-- The key of a stack that is not dropped. -/
def mergeKey (c : Option ℤ × FoldedStacks) : Option String :=
  if mergePath c.2.segments = [] then none else some (join (mergePath c.2.segments))

/-- What a stack adds to the count of its path. -/
def weight (c : Option ℤ × FoldedStacks) : UInt64 := max c.2.count 1

section Gathered

variable (cs : List (Option ℤ × FoldedStacks)) (key : String)

/-- The stacks of a path. -/
def stacksOf : List (Option ℤ × FoldedStacks) := cs.filter fun c => mergeKey c = some key

def total : UInt64 := (stacksOf cs key).foldl (fun n c => n + weight c) 0

def ranksOf : List ℤ :=
  ((stacksOf cs key).filterMap Prod.fst).foldl (fun s r => insertRank r s) []

/-- The merged stack of a path, with the source of its first stack. -/
def merged : FoldedStacks where
  tid := 0
  source := ((stacksOf cs key).head?.map (·.2.source)).getD .Unknown
  segments := split key
  count := total cs key
  ranks := ranksOf cs key

/-- The paths of the merge, in their order. -/
def mergeKeys : List String :=
  (cs.filterMap mergeKey).dedup.insertionSort fun a b => split a ≤ split b

end Gathered

section Maps

variable {cs : List (Option ℤ × FoldedStacks)} {key : String}

/-- The maps after the stacks. -/
theorem foldl_add (cs : List (Option ℤ × FoldedStacks)) :
    cs.foldl (fun (m : MergeMaps) c => m.add c.1 c.2) ⟨[], [], []⟩ =
      ⟨gather mergeKey (fun c n => n.getD 0 + weight c) cs,
        gather (fun c => c.1.bind fun _ => mergeKey c)
          (fun c s => insertRank (c.1.getD 0) (s.getD [])) cs,
        gather mergeKey (fun c s => s.getD c.2.source) cs⟩ := by
  induction cs using List.reverseRecOn with
  | nil => rfl
  | append_singleton cs c ih =>
      obtain ⟨rank, stack⟩ := c
      rw [List.foldl_append, ih, gather_append, gather_append, gather_append]
      unfold mergeKey
      by_cases hpath : mergePath stack.segments = []
      · cases rank <;> simp [MergeMaps.add, hpath]
      · cases rank <;> simp [MergeMaps.add, hpath, weight]

theorem foldl_sets (sets : List (Option ℤ × List FoldedStacks)) (m : MergeMaps) :
    sets.foldl (fun (m : MergeMaps) set =>
      set.2.foldl (fun (m : MergeMaps) stack => m.add set.1 stack) m) m =
    (contributions sets).foldl (fun (m : MergeMaps) c => m.add c.1 c.2) m := by
  unfold contributions
  rw [List.foldl_flatMap]
  congr 1
  funext m set
  rw [List.foldl_map]

theorem get_counts (h : ∃ c ∈ cs, mergeKey c = some key) :
    get (gather mergeKey (fun c n => n.getD 0 + weight c) cs) key = some (total cs key) := by
  rw [get_gather]
  have hsome (l : List (Option ℤ × FoldedStacks)) (n : UInt64) :
      l.foldl (fun v c => some (v.getD 0 + weight c)) (some n) =
        some (l.foldl (fun n c => n + weight c) n) := by
    induction l generalizing n with
    | nil => rfl
    | cons c l ih => exact ih _
  have hne : stacksOf cs key ≠ [] := by
    obtain ⟨c, hc, hkey⟩ := h
    exact List.ne_nil_of_mem (List.mem_filter.mpr ⟨hc, decide_eq_true hkey⟩)
  unfold total
  change (stacksOf cs key).foldl _ none = _
  cases hl : stacksOf cs key with
  | nil => exact absurd hl hne
  | cons c l => exact hsome l _

theorem get_sources : (get (gather mergeKey (fun c s => s.getD c.2.source) cs) key).getD .Unknown =
    ((stacksOf cs key).head?.map (·.2.source)).getD .Unknown := by
  rw [get_gather]
  change ((stacksOf cs key).foldl _ none).getD _ = _
  have hsome (l : List (Option ℤ × FoldedStacks)) (s : StackSource) :
      l.foldl (fun v c => some (v.getD c.2.source)) (some s) = some s := by
    induction l with
    | nil => rfl
    | cons c l ih => exact ih
  cases stacksOf cs key with
  | nil => rfl
  | cons c l => exact congrArg (Option.getD · .Unknown) (hsome l c.2.source)

theorem get_ranks : (get (gather (fun c => c.1.bind fun _ => mergeKey c)
    (fun c s => insertRank (c.1.getD 0) (s.getD [])) cs) key).getD [] = ranksOf cs key := by
  rw [get_gather]
  unfold ranksOf stacksOf
  induction cs using List.reverseRecOn with
  | nil => rfl
  | append_singleton cs c ih =>
      obtain ⟨rank, stack⟩ := c
      rw [List.filter_append, List.filter_append, List.foldl_append, List.filterMap_append,
        List.foldl_append, ← ih]
      by_cases hkey : mergeKey (rank, stack) = some key
      · cases rank <;> simp [hkey]
      · cases rank <;> simp [hkey]

theorem split_le_antisymm {a b : String} (h : split a ≤ split b) (h' : split b ≤ split a) : a = b :=
  split_injective (le_antisymm h h')

instance : Std.Total fun a b : String => split a ≤ split b :=
  ⟨fun a b => le_total (split a) (split b)⟩

instance : IsTrans String fun a b => split a ≤ split b := ⟨fun _ _ _ => le_trans⟩

theorem mem_mergeKeys : key ∈ mergeKeys cs ↔ ∃ c ∈ cs, mergeKey c = some key := by
  unfold mergeKeys
  rw [List.mem_insertionSort, List.mem_dedup, List.mem_filterMap]

theorem mergeKeys_nodup : (mergeKeys cs).Nodup :=
  (List.perm_insertionSort _ _).nodup_iff.mpr (List.nodup_dedup _)

theorem mergeKeys_sorted : (mergeKeys cs).Pairwise fun a b => split a ≤ split b :=
  List.pairwise_insertionSort _ _

/-- Keys sort to one list, whatever their order was. -/
theorem mergeKeys_eq {keys : List String} (hnodup : keys.Nodup)
    (hmem : ∀ k, k ∈ keys ↔ ∃ c ∈ cs, mergeKey c = some k)
    (hsorted : keys.Pairwise fun a b => split a ≤ split b) : keys = mergeKeys cs :=
  List.Perm.eq_of_pairwise (fun _ _ _ _ => split_le_antisymm) hsorted mergeKeys_sorted
    ((List.perm_ext_iff_of_nodup hnodup mergeKeys_nodup).mpr fun k =>
      (hmem k).trans mem_mergeKeys.symm)

theorem mergeFoldedAttributed_eq (sets : List (Option ℤ × List FoldedStacks)) :
    mergeFoldedAttributed sets = (mergeKeys (contributions sets)).map
    (merged (contributions sets)) := by
  unfold mergeFoldedAttributed
  rw [foldl_sets, foldl_add]
  generalize contributions sets = cs
  have hmap {f : String × UInt64 → FoldedStacks} (hf : ∀ p, f p = {
        tid := 0
        source := (get (gather mergeKey (fun c s => s.getD c.2.source) cs) p.1).getD .Unknown
        segments := split p.1
        count := p.2
        ranks := (get (gather (fun c => c.1.bind fun _ => mergeKey c)
          (fun c s => insertRank (c.1.getD 0) (s.getD [])) cs) p.1).getD [] }) :
      (gather mergeKey (fun c n => n.getD 0 + weight c) cs).map f =
      ((gather mergeKey (fun c n => n.getD 0 + weight c) cs).map Prod.fst).map (merged cs) := by
    rw [List.map_map]
    refine List.map_congr_left fun p hp => (hf p).trans ?_
    have hkey := mem_gather.mp (List.mem_map_of_mem (f := Prod.fst) hp)
    have hcount := Core.Keyed.get_of_mem nodup_gather hp
    rw [get_counts hkey] at hcount
    simp only [Function.comp_apply, merged, get_sources, get_ranks, Option.some.inj hcount]
  dsimp only
  rw [hmap]
  swap
  · exact fun _ => rfl
  rw [← List.map_insertionSort (fun a b => split a ≤ split b) _ (merged cs) _
    fun _ _ _ _ => Iff.rfl]
  congr 1
  refine mergeKeys_eq ?_ (fun k => ?_) (List.pairwise_insertionSort _ _)
  · exact (List.perm_insertionSort _ _).nodup_iff.mpr nodup_gather
  · rw [List.mem_insertionSort]
    exact mem_gather

end Maps

section Values

variable {cs cs' : List (Option ℤ × FoldedStacks)} {key : String} {r : ℤ}

theorem sum_mod (l : List ℕ) (n : ℕ) : (l.map (· % n)).sum % n = l.sum % n := by
  induction l with
  | nil => rfl
  | cons a l ih =>
      rw [List.map_cons, List.sum_cons, List.sum_cons, Nat.add_mod, Nat.mod_mod, ih, ← Nat.add_mod]

/-- The count of a path, up to the overflow of 64 bits. -/
theorem total_toNat : (total cs key).toNat =
    ((stacksOf cs key).map fun c => (weight c).toNat).sum % 2 ^ 64 := by
  unfold total
  have hfold (l : List (Option ℤ × FoldedStacks)) (n : UInt64) :
      (l.foldl (fun n c => n + weight c) n).toNat =
        (n.toNat + (l.map fun c => (weight c).toNat).sum) % 2 ^ 64 := by
    induction l generalizing n with
    | nil => exact (Nat.mod_eq_of_lt n.toNat_lt).symm
    | cons c l ih =>
        rw [List.foldl_cons, ih, UInt64.toNat_add, List.map_cons, List.sum_cons, Nat.mod_add_mod,
          Nat.add_assoc]
  rw [hfold]
  exact congrArg (· % 2 ^ 64) (Nat.zero_add _)

theorem stacksOf_perm (h : cs.Perm cs') (key : String) :
    (stacksOf cs key).Perm (stacksOf cs' key) := h.filter _

theorem total_perm (h : cs.Perm cs') (key : String) : total cs key = total cs' key := by
  refine UInt64.toNat_inj.mp ?_
  rw [total_toNat, total_toNat, List.Perm.sum_nat ((stacksOf_perm h key).map _)]

theorem mem_insertRank {s : List ℤ} {x : ℤ} : x ∈ insertRank r s ↔ x = r ∨ x ∈ s := by
  unfold insertRank
  split
  case isTrue h => exact ⟨.inr, fun hx => hx.elim (fun heq => heq ▸ h) id⟩
  case isFalse => exact List.mem_orderedInsert _

theorem sorted_insertRank {s : List ℤ} (h : s.Pairwise (· < ·)) :
    (insertRank r s).Pairwise (· < ·) := by
  unfold insertRank
  split
  case isTrue => exact h
  case isFalse hnot =>
    have hle : (s.orderedInsert (· ≤ ·) r).Pairwise (· ≤ ·) :=
      (h.imp le_of_lt).orderedInsert _ _
    have hnodup : (s.orderedInsert (· ≤ ·) r).Nodup :=
      (List.perm_orderedInsert _ _ _).nodup_iff.mpr (List.nodup_cons.mpr ⟨hnot, h.imp ne_of_lt⟩)
    exact (hle.and hnodup).imp fun h => lt_of_le_of_ne h.1 h.2

theorem ranksOf_sorted : (ranksOf cs key).Pairwise (· < ·) := by
  unfold ranksOf
  induction (stacksOf cs key).filterMap Prod.fst using List.reverseRecOn with
  | nil => exact List.Pairwise.nil
  | append_singleton l r ih =>
      rw [List.foldl_append]
      exact sorted_insertRank ih

/-- The ranks of a path are those of the sets with a stack of the path. -/
theorem mem_ranksOf : r ∈ ranksOf cs key ↔ ∃ stack, (some r, stack) ∈ stacksOf cs key := by
  have hmem (l : List ℤ) : r ∈ l.foldl (fun s r => insertRank r s) [] ↔ r ∈ l := by
    induction l using List.reverseRecOn with
    | nil => exact Iff.rfl
    | append_singleton l x ih =>
        rw [List.foldl_append, List.mem_append, List.mem_singleton, ← ih, or_comm]
        exact mem_insertRank
  unfold ranksOf
  rw [hmem, List.mem_filterMap]
  constructor
  · rintro ⟨⟨rank, stack⟩, hc, rfl⟩
    exact ⟨stack, hc⟩
  · exact fun ⟨stack, hc⟩ => ⟨(some r, stack), hc, rfl⟩

theorem ranksOf_perm (h : cs.Perm cs') (key : String) : ranksOf cs key = ranksOf cs' key := by
  have hperm : (ranksOf cs key).Perm (ranksOf cs' key) :=
    (List.perm_ext_iff_of_nodup (ranksOf_sorted.imp ne_of_lt) (ranksOf_sorted.imp ne_of_lt)).mpr
      fun r => mem_ranksOf.trans ((exists_congr fun _ =>
        (stacksOf_perm h key).mem_iff).trans mem_ranksOf.symm)
  exact hperm.eq_of_pairwise (fun _ _ _ _ hab hba => absurd hab hba.asymm) ranksOf_sorted
    ranksOf_sorted

theorem mergeKeys_perm (h : cs.Perm cs') : mergeKeys cs = mergeKeys cs' :=
  mergeKeys_eq mergeKeys_nodup
    (fun _ => mem_mergeKeys.trans (exists_congr fun _ => and_congr_left fun _ => h.mem_iff))
    mergeKeys_sorted

/-- A merged stack but for its source. -/
def FoldedStacks.attributed (stack : FoldedStacks) : AttributedFoldedLine :=
  ⟨stack.segments, stack.count, stack.ranks⟩

theorem attributed_perm (h : cs.Perm cs') (key : String) :
    (merged cs key).attributed = (merged cs' key).attributed := by
  unfold merged FoldedStacks.attributed
  simp only [total_perm h, ranksOf_perm h]

end Values

section Merge

variable {sets sets' : List (Option ℤ × List FoldedStacks)}

theorem merge_perm (h : (contributions sets').Perm (contributions sets)) :
    (mergeFoldedAttributed sets').map FoldedStacks.attributed =
      (mergeFoldedAttributed sets).map FoldedStacks.attributed := by
  rw [mergeFoldedAttributed_eq, mergeFoldedAttributed_eq, mergeKeys_perm h,
    List.map_map, List.map_map]
  exact List.map_congr_left fun key _ => attributed_perm h key

theorem mem_merge {m : FoldedStacks} : m ∈ mergeFoldedAttributed sets ↔
    ∃ key, (∃ c ∈ contributions sets, mergeKey c = some key) ∧ merged
    (contributions sets) key = m := by
  rw [mergeFoldedAttributed_eq, List.mem_map]
  exact exists_congr fun key => and_congr_left fun _ => mem_mergeKeys

theorem mergeKey_eq_some {c : Option ℤ × FoldedStacks} {key : String} : mergeKey c = some key ↔
    mergePath c.2.segments ≠ [] ∧ join (mergePath c.2.segments) = key := by
  unfold mergeKey
  split
  case isTrue h => exact ⟨fun hnone => (nomatch hnone), fun hsome => absurd h hsome.1⟩
  case isFalse h => exact Option.some_inj.trans (and_iff_right h).symm

/-- The counts of the merged stacks add up to those of the stacks that have a path. -/
theorem merge_counts (sets : List (Option ℤ × List FoldedStacks)) :
    ((mergeFoldedAttributed sets).map (·.count.toNat)).sum % 2 ^ 64 =
      (((contributions sets).filter fun c => (mergeKey c).isSome).map
        fun c => (weight c).toNat).sum % 2 ^ 64 := by
  have hkeys : ∀ c ∈ contributions sets, ∀ key, mergeKey c = some key →
      key ∈ mergeKeys (contributions sets) := fun c hc key hkey =>
    mem_mergeKeys.2 ⟨c, hc, hkey⟩
  calc
    _ = ((mergeKeys (contributions sets)).map fun key =>
          ((stacksOf (contributions sets) key).map fun c => (weight c).toNat).sum % 2 ^ 64).sum %
            2 ^ 64 := by
      rw [mergeFoldedAttributed_eq, List.map_map]
      exact congrArg (List.sum · % 2 ^ 64) (List.map_congr_left fun key _ => total_toNat)
    _ = ((mergeKeys (contributions sets)).map fun key =>
          ((stacksOf (contributions sets) key).map fun c => (weight c).toNat).sum).sum %
              2 ^ 64 := by
      have hmod := sum_mod ((mergeKeys (contributions sets)).map fun key =>
        ((stacksOf (contributions sets) key).map fun c => (weight c).toNat).sum) (2 ^ 64)
      rwa [List.map_map] at hmod
    _ = _ := congrArg (· % 2 ^ 64) (Core.Keyed.sum_keys mergeKeys_nodup _ hkeys)

end Merge

section Levels

variable {groups : List (Option ℤ × List (Option ℤ × List FoldedStacks))}
variable {cs : List (Option ℤ × FoldedStacks)} {key : String}

/-- The groups one after the other. -/
def flat (groups : List (Option ℤ × List (Option ℤ × List FoldedStacks))) :
    List (Option ℤ × List FoldedStacks) := groups.flatMap Prod.snd

/-- The merged stacks of each group, as the stacks of one rank or of none. -/
def firstLevel (groups : List (Option ℤ × List (Option ℤ × List FoldedStacks))) :
    List (Option ℤ × List FoldedStacks) :=
  groups.map fun group => (group.1, mergeFoldedAttributed group.2)

/-- The path keeps its form, as segments and as a key. -/
def Plain (segs : List String) : Prop :=
  Anchored (mergePath segs) ∧ ∀ s ∈ mergePath segs, ';' ∉ s.toList

instance (segs : List String) : Decidable (Plain segs) := inferInstanceAs (Decidable (_ ∧ _))

theorem Plain.mergeKey {c : Option ℤ × FoldedStacks} (h : Plain c.2.segments)
    (hkey : mergeKey c = some key) (rank : Option ℤ) (cs : List (Option ℤ × FoldedStacks)) :
    Stacktrace.mergeKey (rank, merged cs key) = some key := by
  obtain ⟨hne, rfl⟩ := mergeKey_eq_some.1 hkey
  have hsegments : (merged cs (join (mergePath c.2.segments))).segments = mergePath c.2.segments :=
    split_join hne h.2
  refine mergeKey_eq_some.2 ?_
  rw [hsegments, mergePath_idem h.1]
  exact ⟨hne, rfl⟩

theorem contributions_flat : contributions (flat groups) =
    groups.flatMap fun group => contributions group.2 := by
  unfold contributions flat
  rw [List.flatMap_assoc]

theorem contributions_firstLevel : contributions (firstLevel groups) =
    groups.flatMap fun group => (mergeFoldedAttributed group.2).map (group.1, ·) := by
  unfold contributions firstLevel
  rw [List.flatMap_map]

theorem stacksOf_flatMap {α : Type*} (l : List α) (f : α → List (Option ℤ × FoldedStacks)) :
    stacksOf (l.flatMap f) key = l.flatMap fun x => stacksOf (f x) key := List.filter_flatMap

/-- One merged stack of a group has the key, if a stack of the group has it. -/
theorem stacksOf_merge {group : Option ℤ × List (Option ℤ × List FoldedStacks)}
    (hplain : ∀ c ∈ contributions group.2, Plain c.2.segments) :
    stacksOf ((mergeFoldedAttributed group.2).map (group.1, ·)) key =
      if key ∈ mergeKeys (contributions group.2) then
        [(group.1, merged (contributions group.2) key)] else [] := by
  have hself : ∀ k ∈ mergeKeys (contributions group.2),
      (mergeKey (group.1, merged (contributions group.2) k) = some key ↔ k = key) := by
    intro k hk
    obtain ⟨c, hc, hkey⟩ := mem_mergeKeys.1 hk
    rw [(hplain c hc).mergeKey hkey group.1 (contributions group.2), Option.some_inj]
  unfold stacksOf
  rw [mergeFoldedAttributed_eq, List.map_map, List.filter_map]
  have hfilter : (mergeKeys (contributions group.2)).filter
      ((fun c => decide (mergeKey c = some key)) ∘
        ((group.1, ·) ∘ merged (contributions group.2))) =
      (mergeKeys (contributions group.2)).filter fun k => decide (k = key) :=
    List.filter_congr fun k hk => decide_eq_decide.mpr (hself k hk)
  rw [hfilter, List.filter_eq, mergeKeys_nodup.count]
  split <;> rfl

theorem weight_toNat (c : Option ℤ × FoldedStacks) :
    (weight c).toNat = max c.2.count.toNat 1 := by
  change (if c.2.count ≤ 1 then 1 else c.2.count).toNat = _
  split
  case isTrue h => exact (max_eq_right (UInt64.le_iff_toNat_le.mp h)).symm
  case isFalse h =>
    exact (max_eq_left (Nat.not_le.mp fun hle => h (UInt64.le_iff_toNat_le.mpr hle)).le).symm

/-- The sum of all that is added. -/
def allCounts (cs : List (Option ℤ × FoldedStacks)) : ℕ := (cs.map fun c => (weight c).toNat).sum

theorem sum_stacksOf_le : ((stacksOf cs key).map fun c => (weight c).toNat).sum ≤ allCounts cs := by
  unfold allCounts stacksOf
  induction cs with
  | nil => exact Nat.le_refl 0
  | cons c cs ih =>
      rw [List.filter_cons, List.map_cons, List.sum_cons]
      split
      · rw [List.map_cons, List.sum_cons]
        omega
      · omega

theorem allCounts_flatMap {α : Type*} (l : List α) (f : α → List (Option ℤ × FoldedStacks)) :
    allCounts (l.flatMap f) = (l.map fun x => allCounts (f x)).sum := by
  unfold allCounts
  induction l with
  | nil => rfl
  | cons x l ih =>
      rw [List.flatMap_cons, List.map_append, List.sum_append_nat, ih, List.map_cons, List.sum_cons]

theorem allCounts_le {α : Type*} {l : List α} {x : α} (hx : x ∈ l)
    (f : α → List (Option ℤ × FoldedStacks)) : allCounts (f x) ≤ allCounts (l.flatMap f) := by
  obtain ⟨before, after, rfl⟩ := List.append_of_mem hx
  rw [allCounts_flatMap, List.map_append, List.map_cons, List.sum_append_nat, List.sum_cons]
  omega

section Regrouped

variable (hplain : ∀ c ∈ contributions (flat groups), Plain c.2.segments)

include hplain

theorem plain_of_group {group : Option ℤ × List (Option ℤ × List FoldedStacks)}
    (hgroup : group ∈ groups)
    (c : Option ℤ × FoldedStacks) (hc : c ∈ contributions group.2) : Plain c.2.segments :=
  hplain c (contributions_flat ▸ List.mem_flatMap.mpr ⟨group, hgroup, hc⟩)

theorem stacksOf_firstLevel : stacksOf (contributions (firstLevel groups)) key =
    groups.flatMap fun group => if key ∈ mergeKeys (contributions group.2) then
      [(group.1, merged (contributions group.2) key)] else [] := by
  rw [contributions_firstLevel, stacksOf_flatMap]
  exact List.flatMap_congr fun group hgroup => stacksOf_merge (plain_of_group hplain hgroup)

theorem mergeKeys_firstLevel :
    mergeKeys (contributions (firstLevel groups)) = mergeKeys (contributions (flat groups)) := by
  refine mergeKeys_eq mergeKeys_nodup (fun key => ?_) mergeKeys_sorted
  have hmem (cs : List (Option ℤ × FoldedStacks)) : key ∈ mergeKeys cs ↔ ∃ c, c ∈ stacksOf cs key :=
    mem_mergeKeys.trans (exists_congr fun c => by
      rw [stacksOf, List.mem_filter, decide_eq_true_iff])
  have hflat : (∃ c ∈ contributions (flat groups), mergeKey c = some key) ↔
      ∃ group ∈ groups, key ∈ mergeKeys (contributions group.2) := by
    simp only [contributions_flat, List.mem_flatMap, mem_mergeKeys]
    exact ⟨fun ⟨c, ⟨group, hgroup, hc⟩, hkey⟩ => ⟨group, hgroup, c, hc, hkey⟩,
      fun ⟨group, hgroup, c, hc, hkey⟩ => ⟨c, ⟨group, hgroup, hc⟩, hkey⟩⟩
  rw [hmem, stacksOf_firstLevel hplain, hflat]
  constructor
  · rintro ⟨c, hc⟩
    obtain ⟨group, hgroup, hc⟩ := List.mem_flatMap.mp hc
    refine ⟨group, hgroup, ?_⟩
    by_contra hnot
    rw [if_neg hnot] at hc
    exact List.not_mem_nil hc
  · rintro ⟨group, hgroup, hkey⟩
    refine ⟨(group.1, merged (contributions group.2) key),
      List.mem_flatMap.mpr ⟨group, hgroup, ?_⟩⟩
    rw [if_pos hkey]
    exact List.mem_singleton_self _

/-- A group adds to a path what its stacks add. -/
theorem total_firstLevel (hfits : allCounts (contributions (flat groups)) < 2 ^ 64) (key : String) :
    total (contributions (firstLevel groups)) key = total (contributions (flat groups)) key := by
  refine UInt64.toNat_inj.mp ?_
  rw [total_toNat, total_toNat, stacksOf_firstLevel hplain, contributions_flat, stacksOf_flatMap]
  change allCounts _ % _ = allCounts _ % _
  rw [allCounts_flatMap, allCounts_flatMap]
  refine congrArg (List.sum · % 2 ^ 64) (List.map_congr_left fun group hgroup => ?_)
  have hle : allCounts (stacksOf (contributions group.2) key) < 2 ^ 64 := by
    have h := allCounts_le hgroup fun group => contributions group.2
    rw [← contributions_flat] at h
    exact (sum_stacksOf_le.trans h).trans_lt hfits
  have htotal : (total (contributions group.2) key).toNat =
      allCounts (stacksOf (contributions group.2) key) :=
    total_toNat.trans (Nat.mod_eq_of_lt hle)
  by_cases hkey : key ∈ mergeKeys (contributions group.2)
  · have hpos : 1 ≤ allCounts (stacksOf (contributions group.2) key) := by
      obtain ⟨c, hc, hck⟩ := mem_mergeKeys.1 hkey
      have hmem : c ∈ stacksOf (contributions group.2) key :=
        List.mem_filter.mpr ⟨hc, decide_eq_true hck⟩
      obtain ⟨before, after, heq⟩ := List.append_of_mem hmem
      rw [heq, allCounts, List.map_append, List.map_cons, List.sum_append_nat, List.sum_cons,
        weight_toNat]
      omega
    rw [if_pos hkey]
    change (weight (group.1, merged (contributions group.2) key)).toNat + 0 = _
    rw [weight_toNat, Nat.add_zero]
    exact (congrArg (max · 1) htotal).trans (max_eq_left hpos)
  · rw [if_neg hkey]
    have hnil : stacksOf (contributions group.2) key = [] :=
      List.filter_eq_nil_iff.mpr fun c hc hck =>
        hkey (mem_mergeKeys.2 ⟨c, hc, of_decide_eq_true hck⟩)
    rw [hnil]

end Regrouped

end Levels

/-- The stacks in any order give the same paths, counts and ranks. Each path of a stack is there
once, with the ranks of the sets that it comes in, and the counts add up. Groups of stacks whose
paths keep their form may be merged first, under any ranks, and give the same paths and counts. -/
theorem merge_folded (sets : List (Option ℤ × List FoldedStacks)) :
    (∀ sets', (contributions sets').Perm (contributions sets) →
      (mergeFoldedAttributed sets').map FoldedStacks.attributed =
        (mergeFoldedAttributed sets).map FoldedStacks.attributed) ∧
    ((mergeFoldedAttributed sets).map FoldedStacks.segments).Pairwise (· < ·) ∧
    (∀ path, path ∈ (mergeFoldedAttributed sets).map FoldedStacks.segments ↔
      ∃ c ∈ contributions sets, mergePath c.2.segments ≠ [] ∧
        split (join (mergePath c.2.segments)) = path) ∧
    ((mergeFoldedAttributed sets).map (·.count.toNat)).sum % 2 ^ 64 =
      (((contributions sets).filter fun c => mergePath c.2.segments ≠ []).map
        fun c => max c.2.count.toNat 1).sum % 2 ^ 64 ∧
    (∀ m ∈ mergeFoldedAttributed sets, m.ranks.Pairwise (· < ·) ∧ ∀ r, r ∈ m.ranks ↔
      ∃ stack, (some r, stack) ∈ contributions sets ∧ mergePath stack.segments ≠ [] ∧
        split (join (mergePath stack.segments)) = m.segments) ∧
    (∀ groups, (contributions (flat groups)).Perm (contributions sets) →
      (∀ c ∈ contributions sets, Plain c.2.segments) → allCounts (contributions sets) < 2 ^ 64 →
        (mergeFoldedAttributed (firstLevel groups)).map (fun m => (m.segments, m.count)) =
          (mergeFoldedAttributed sets).map fun m => (m.segments, m.count)) ∧
    ∀ segs, Anchored (mergePath segs) → mergePath (mergePath segs) = mergePath segs := by
  have hjoin {key : String} {segs : List String} : join segs = key ↔
      split (join segs) = split key :=
    ⟨congrArg split, split_injective⟩
  refine ⟨fun sets' h => merge_perm h, ?_, fun path => ?_, ?_, fun m hm => ?_, ?_,
    fun segs => mergePath_idem⟩
  · rw [mergeFoldedAttributed_eq, List.map_map, List.pairwise_map]
    refine (mergeKeys_sorted.and mergeKeys_nodup).imp fun {a b} h => ?_
    exact lt_of_le_of_ne h.1 fun heq => h.2 (split_injective heq)
  · rw [List.mem_map]
    constructor
    · rintro ⟨m, hm, rfl⟩
      obtain ⟨key, ⟨c, hc, hkey⟩, rfl⟩ := mem_merge.1 hm
      obtain ⟨hne, rfl⟩ := mergeKey_eq_some.1 hkey
      exact ⟨c, hc, hne, rfl⟩
    · rintro ⟨c, hc, hne, rfl⟩
      exact ⟨_, mem_merge.2 ⟨_, ⟨c, hc, mergeKey_eq_some.2 ⟨hne, rfl⟩⟩, rfl⟩, rfl⟩
  · rw [merge_counts]
    have hkept : ((contributions sets).filter fun c => (mergeKey c).isSome) =
        (contributions sets).filter fun c => mergePath c.2.segments ≠ [] :=
      List.filter_congr fun c _ => by
        unfold mergeKey
        split <;> simp_all
    rw [hkept]
    exact congrArg (List.sum · % 2 ^ 64) (List.map_congr_left fun c _ => weight_toNat c)
  · obtain ⟨key, -, rfl⟩ := mem_merge.1 hm
    refine ⟨ranksOf_sorted, fun r => mem_ranksOf.trans (exists_congr fun stack => ?_)⟩
    rw [stacksOf, List.mem_filter, decide_eq_true_iff, mergeKey_eq_some, hjoin]
    exact Iff.rfl
  · intro groups hperm hplain hfits
    have hplain' : ∀ c ∈ contributions (flat groups), Plain c.2.segments :=
      fun c hc => hplain c (hperm.mem_iff.mp hc)
    have hfits' : allCounts (contributions (flat groups)) < 2 ^ 64 := by
      rwa [allCounts, List.Perm.sum_nat (hperm.map _)]
    rw [mergeFoldedAttributed_eq, mergeFoldedAttributed_eq, mergeKeys_firstLevel hplain',
      mergeKeys_perm hperm, List.map_map, List.map_map]
    refine List.map_congr_left fun key _ => ?_
    have htotal := (total_firstLevel hplain' hfits' key).trans (total_perm hperm key)
    exact congrArg (Prod.mk (split key)) htotal

/-- Two ranks with one path, of which one has a thread in front. -/
theorem merge_folded_two_ranks :
    (mergeFoldedAttributed (firstLevel [
        (none, [(some 0, [⟨1, .Sigprof, ["[py] main (a.py:1)"], 2, []⟩])]),
        (none, [(some 1, [⟨2, .Vm, ["thread-9", "[py] main (a.py:1)"], 3, []⟩])])])).map
          (fun m => (m.segments, m.count)) =
      (mergeFoldedAttributed [(some 0, [⟨1, .Sigprof, ["[py] main (a.py:1)"], 2, []⟩]),
        (some 1, [⟨2, .Vm, ["thread-9", "[py] main (a.py:1)"], 3, []⟩])]).map
          fun m => (m.segments, m.count) :=
  (merge_folded [(some 0, [⟨1, .Sigprof, ["[py] main (a.py:1)"], 2, []⟩]),
    (some 1, [⟨2, .Vm, ["thread-9", "[py] main (a.py:1)"], 3, []⟩])]).2.2.2.2.2.1 _
      (List.Perm.refl _) (by decide) (by decide)

/-- The first stack of a path gives the source; a count of 0 is taken as 1, and a stack of threads
only is dropped; merged again, a stack has no ranks, and a path may lose more segments. -/
theorem merge_folded_amends :
    (mergeFoldedAttributed [(none, [⟨0, .Vm, ["f"], 1, []⟩, ⟨0, .Sigprof, ["f"], 1, []⟩])] ≠
      mergeFoldedAttributed [(none, [⟨0, .Sigprof, ["f"], 1, []⟩, ⟨0, .Vm, ["f"], 1, []⟩])]) ∧
    (mergeFoldedAttributed [(none, [⟨0, .Vm, ["f"], 0, []⟩])]).map (·.count) = [1] ∧
    mergeFoldedAttributed [(none, [⟨0, .Vm, ["thread-1"], 5, []⟩])] = [] ∧
    (mergeFoldedAttributed [(some 0, [⟨0, .Vm, ["f"], 1, []⟩])]).map (·.ranks) = [[0]] ∧
    (mergeFoldedAttributed [(none, mergeFoldedAttributed
      [(some 0, [⟨0, .Vm, ["f"], 1, []⟩])])]).map (·.ranks) = [[]] ∧
    mergePath (mergePath ["thread-1", "all", "f"]) ≠ mergePath ["thread-1", "all", "f"] := by
  decide

section Lines

variable {sets sets' : List (Option ℤ × List String)}

theorem contributions_lines (sets : List (Option ℤ × List String)) :
    contributions (sets.map fun (rank, lines) =>
        (rank, lines.filterMap fun line => foldedFromLine line .Unknown)) =
      (sets.flatMap fun set => set.2.map fun line => (set.1, line)).filterMap fun p =>
        (foldedFromLine p.2 .Unknown).map fun stack => (p.1, stack) := by
  unfold contributions
  rw [List.flatMap_map, List.filterMap_flatMap]
  refine List.flatMap_congr fun set _ => ?_
  rw [List.map_filterMap, List.filterMap_map]
  rfl

/-- Lines have no source, so that their merge does not depend on their order at all. -/
theorem merge_lines_perm (h : (sets'.flatMap fun set => set.2.map fun line => (set.1, line)).Perm
    (sets.flatMap fun set => set.2.map fun line => (set.1, line))) :
    mergeDistributedStackAttributed sets' = mergeDistributedStackAttributed sets := by
  refine merge_perm ?_
  rw [contributions_lines, contributions_lines]
  exact h.filterMap _

end Lines

end Probing.Stacktrace
