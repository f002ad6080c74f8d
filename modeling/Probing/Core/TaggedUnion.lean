import Mathlib.Data.List.Perm.Basic
import Mathlib.Data.List.Nodup
import Mathlib.Order.Basic
import Mathlib.Data.Nat.Basic

/-!
# Unions without double counting

Chunks have distinct tags, and a page may carry the tag of a chunk. The union takes every page,
and the chunks whose tag no page carries. What a union gains and loses when pages are left out is
stated for any pages, and then, one page at a time, for pages that have the items of their chunk.
-/

namespace Probing.Core

structure Tagging (χ π τ ρ : Type*) where
  chunkTag : χ → τ
  chunkItems : χ → List ρ
  pageTag : π → Option τ
  pageItems : π → List ρ

namespace Tagging

variable {χ π τ ρ : Type*} (T : Tagging χ π τ ρ)

def tags (pages : List π) : List τ := pages.filterMap T.pageTag

/-- A page with the tag of a chunk has the items of the chunk. -/
def Copies (chunks : List χ) (pages : List π) : Prop :=
  ∀ p ∈ pages, ∀ c ∈ chunks, T.pageTag p = some (T.chunkTag c) → T.pageItems p = T.chunkItems c

section

variable {T} {chunks : List χ} {pages pages' : List π} {p : π}

theorem mem_tags {t : τ} : t ∈ T.tags pages ↔ ∃ p ∈ pages, T.pageTag p = some t :=
  List.mem_filterMap

theorem Copies.of_cons (h : T.Copies chunks (p :: pages)) : T.Copies chunks pages :=
  fun q hq => h q (List.mem_cons_of_mem p hq)

theorem Copies.subset (h : T.Copies chunks pages) (hs : pages' ⊆ pages) : T.Copies chunks pages' :=
  fun q hq => h q (hs hq)

end

variable [DecidableEq τ]

/-- The items of the chunks that no page carries the tag of. -/
def uncovered (chunks : List χ) (pages : List π) : List ρ :=
  (chunks.filter fun c => T.chunkTag c ∉ T.tags pages).flatMap T.chunkItems

def union (chunks : List χ) (pages : List π) : List ρ :=
  T.uncovered chunks pages ++ pages.flatMap T.pageItems

/-- The items of the chunks that one of all pages carries the tag of, and none of the fewer. -/
def released (chunks : List χ) (all pages : List π) : List ρ :=
  (chunks.filter fun c => T.chunkTag c ∈ T.tags all ∧ T.chunkTag c ∉ T.tags pages).flatMap
    T.chunkItems

/-- The page has the tag of a chunk, and no page of the others has it. -/
def Hides (chunks : List χ) (pages : List π) (p : π) : Prop :=
  ∃ c ∈ chunks, T.pageTag p = some (T.chunkTag c) ∧ T.chunkTag c ∉ T.tags pages

/-- The only page of its tag, which is the tag of a chunk. -/
def Lone (chunks : List χ) (pages : List π) (p : π) : Prop :=
  ∃ c ∈ chunks, T.pageTag p = some (T.chunkTag c) ∧
    (pages.filter fun p' => T.pageTag p' = T.pageTag p).length ≤ 1

variable {T} {chunks : List χ} {pages pages' : List π} {p : π}

theorem union_perm (h : pages.Perm pages') :
    (T.union chunks pages).Perm (T.union chunks pages') := by
  have htags : (fun c => decide (T.chunkTag c ∉ T.tags pages)) =
      fun c => decide (T.chunkTag c ∉ T.tags pages') := by
    ext c
    simp only [mem_tags, h.mem_iff]
  unfold union uncovered
  rw [htags]
  exact (h.flatMap_right _).append_left _

theorem released_eq {all : List π} {keep : χ → Bool} (h : ∀ c ∈ chunks, keep c = true ↔
    (∃ p ∈ all, T.pageTag p = some (T.chunkTag c)) ∧
      ∀ p ∈ pages, T.pageTag p ≠ some (T.chunkTag c)) :
    T.released chunks all pages = (chunks.filter keep).flatMap T.chunkItems := by
  unfold released
  refine congrArg (List.flatMap _) (List.filter_congr fun c hc => ?_)
  rw [Bool.eq_iff_iff, h c hc, decide_eq_true_iff, mem_tags, mem_tags]
  refine and_congr_right fun _ => ⟨fun hnone p hp htag => hnone ⟨p, hp, htag⟩, ?_⟩
  rintro hall ⟨p, hp, htag⟩
  exact hall p hp htag

/-- Where pages are left out, their items go and the chunks that only they covered come. -/
theorem union_released {all dropped : List π} (h : all.Perm (dropped ++ pages)) :
    (T.union chunks all ++ T.released chunks all pages).Perm
      (T.union chunks pages ++ dropped.flatMap T.pageItems) := by
  have hcovered : ∀ c, T.chunkTag c ∈ T.tags pages → T.chunkTag c ∈ T.tags all := by
    intro c hc
    obtain ⟨p, hp, htag⟩ := mem_tags.mp hc
    exact mem_tags.mpr ⟨p, h.mem_iff.mpr (List.mem_append_right _ hp), htag⟩
  have hchunks : (T.uncovered chunks all ++ T.released chunks all pages).Perm
      (T.uncovered chunks pages) := by
    have hall : (chunks.filter fun c => T.chunkTag c ∉ T.tags all) =
        (chunks.filter fun c => T.chunkTag c ∉ T.tags pages).filter fun c =>
          T.chunkTag c ∉ T.tags all := by
      rw [List.filter_filter]
      apply List.filter_congr
      intro c _
      rw [← Bool.decide_and]
      exact decide_eq_decide.mpr ⟨fun hnot => ⟨hnot, mt (hcovered c) hnot⟩, And.left⟩
    have hfew : (chunks.filter fun c =>
          T.chunkTag c ∈ T.tags all ∧ T.chunkTag c ∉ T.tags pages) =
        (chunks.filter fun c => T.chunkTag c ∉ T.tags pages).filter fun c =>
          !decide (T.chunkTag c ∉ T.tags all) := by
      rw [List.filter_filter]
      apply List.filter_congr
      intro c _
      simp [Bool.decide_and]
    unfold uncovered released
    rw [hall, hfew, ← List.flatMap_append]
    exact (List.filter_append_perm _ _).flatMap_right _
  have hpages : (all.flatMap T.pageItems).Perm
      (dropped.flatMap T.pageItems ++ pages.flatMap T.pageItems) := by
    rw [← List.flatMap_append]
    exact h.flatMap_right _
  calc
    T.union chunks all ++ T.released chunks all pages
    _ = T.uncovered chunks all ++ (all.flatMap T.pageItems ++ T.released chunks all pages) :=
      List.append_assoc _ _ _
    List.Perm _ (T.uncovered chunks all ++ (T.released chunks all pages ++
        all.flatMap T.pageItems)) := List.perm_append_comm.append_left _
    _ = T.uncovered chunks all ++ T.released chunks all pages ++ all.flatMap T.pageItems :=
      (List.append_assoc _ _ _).symm
    List.Perm _ (T.uncovered chunks pages ++
        (dropped.flatMap T.pageItems ++ pages.flatMap T.pageItems)) := hchunks.append hpages
    List.Perm _ (T.uncovered chunks pages ++
        (pages.flatMap T.pageItems ++ dropped.flatMap T.pageItems)) :=
      List.perm_append_comm.append_left _
    _ = T.union chunks pages ++ dropped.flatMap T.pageItems := (List.append_assoc _ _ _).symm

theorem uncovered_cons_of_not_hides (h : ¬ T.Hides chunks pages p) :
    T.uncovered chunks (p :: pages) = T.uncovered chunks pages := by
  unfold uncovered
  congr 1
  apply List.filter_congr
  intro c hc
  have hiff : T.chunkTag c ∈ T.tags (p :: pages) ↔ T.chunkTag c ∈ T.tags pages := by
    simp only [mem_tags, List.exists_mem_cons_iff]
    constructor
    · rintro (hp | hin)
      · by_contra hnew
        exact h ⟨c, hc, hp, fun hmem => hnew (mem_tags.1 hmem)⟩
      · exact hin
    · exact Or.inr
  simp only [hiff]

/-- A page that hides a chunk takes the items of this chunk from the rest. -/
theorem uncovered_of_hides {c : χ} (hnodup : (chunks.map T.chunkTag).Nodup) (hc : c ∈ chunks)
    (hp : T.pageTag p = some (T.chunkTag c)) (hnew : T.chunkTag c ∉ T.tags pages) :
    (T.uncovered chunks pages).Perm (T.chunkItems c ++ T.uncovered chunks (p :: pages)) := by
  obtain ⟨before, after, rfl⟩ := List.append_of_mem hc
  rw [List.map_append, List.map_cons, List.nodup_middle, List.nodup_cons] at hnodup
  have hother (l : List χ) (hl : ∀ d ∈ l, T.chunkTag d ≠ T.chunkTag c) :
      (l.filter fun d => T.chunkTag d ∉ T.tags (p :: pages)) =
        l.filter fun d => T.chunkTag d ∉ T.tags pages := by
    apply List.filter_congr
    intro d hd
    have hiff : T.chunkTag d ∈ T.tags (p :: pages) ↔ T.chunkTag d ∈ T.tags pages := by
      simp only [mem_tags, List.exists_mem_cons_iff, hp, Option.some.injEq,
        (hl d hd).symm, false_or]
    simp only [hiff]
  have hne (d : χ) (hd : d ∈ before ∨ d ∈ after) : T.chunkTag d ≠ T.chunkTag c := by
    intro heq
    apply hnodup.1
    rw [List.mem_append, ← heq]
    exact hd.imp (List.mem_map_of_mem) (List.mem_map_of_mem)
  have hcovered : T.chunkTag c ∈ T.tags (p :: pages) := mem_tags.2 ⟨p, List.mem_cons_self, hp⟩
  unfold uncovered
  simp only [List.filter_append, List.filter_cons, hnew, hcovered, not_true_eq_false,
    not_false_eq_true, decide_true, decide_false, if_true, Bool.false_eq_true, if_false,
    List.flatMap_append, List.flatMap_cons]
  rw [hother before fun d hd => hne d (Or.inl hd), hother after fun d hd => hne d (Or.inr hd),
    ← List.append_assoc, ← List.append_assoc]
  exact List.perm_append_comm.append_right _

/-- A page that hides its chunk replaces it. -/
theorem union_cons_of_hides (hnodup : (chunks.map T.chunkTag).Nodup)
    (hcopies : T.Copies chunks (p :: pages)) (h : T.Hides chunks pages p) :
    (T.union chunks (p :: pages)).Perm (T.union chunks pages) := by
  obtain ⟨c, hc, hp, hnew⟩ := h
  unfold union
  rw [List.flatMap_cons, hcopies p List.mem_cons_self c hc hp, ← List.append_assoc]
  apply List.Perm.append_right
  exact List.perm_append_comm.trans (uncovered_of_hides hnodup hc hp hnew).symm

/-- Any other page adds its items. -/
theorem union_cons_of_not_hides (h : ¬ T.Hides chunks pages p) :
    (T.union chunks (p :: pages)).Perm (T.pageItems p ++ T.union chunks pages) := by
  unfold union
  rw [List.flatMap_cons, uncovered_cons_of_not_hides h, ← List.append_assoc, ← List.append_assoc]
  exact List.perm_append_comm.append_right _

theorem Lone.hides (h : T.Lone chunks (p :: pages) p) : T.Hides chunks pages p := by
  obtain ⟨c, hc, hp, hlen⟩ := h
  refine ⟨c, hc, hp, ?_⟩
  intro hmem
  obtain ⟨p', hp', htag⟩ := mem_tags.1 hmem
  have hin : p' ∈ pages.filter fun p' => T.pageTag p' = T.pageTag p :=
    List.mem_filter.mpr ⟨hp', by simp [htag, hp]⟩
  have hpos := List.length_pos_of_mem hin
  rw [List.filter_cons_of_pos (by simp), List.length_cons] at hlen
  omega

theorem Hides.lone (h : T.Hides chunks pages p) : T.Lone chunks (p :: pages) p := by
  obtain ⟨c, hc, hp, hnew⟩ := h
  refine ⟨c, hc, hp, ?_⟩
  have hnone : (pages.filter fun p' => T.pageTag p' = T.pageTag p) = [] := by
    rw [List.filter_eq_nil_iff]
    intro p' hp' heq
    exact hnew (mem_tags.2 ⟨p', hp', by rw [of_decide_eq_true heq, hp]⟩)
  simp [hnone]

theorem Lone.of_cons {q : π} (h : T.Lone chunks (p :: pages) q) : T.Lone chunks pages q := by
  obtain ⟨c, hc, hq, hlen⟩ := h
  refine ⟨c, hc, hq, le_trans (List.Sublist.length_le ?_) hlen⟩
  exact (List.sublist_cons_self p pages).filter _

theorem Lone.perm (h : T.Lone chunks pages p) (hperm : pages.Perm pages') :
    T.Lone chunks pages' p := by
  obtain ⟨c, hc, hp, hlen⟩ := h
  exact ⟨c, hc, hp, by rwa [← (hperm.filter _).length_eq]⟩

/-- Pages without items and lone pages may be left out. -/
theorem union_drop (hnodup : (chunks.map T.chunkTag).Nodup) {dropped : List π}
    (hcopies : T.Copies chunks (dropped ++ pages))
    (h : ∀ p ∈ dropped, T.pageItems p = [] ∨ T.Lone chunks (dropped ++ pages) p) :
    (T.union chunks (dropped ++ pages)).Perm (T.union chunks pages) := by
  induction dropped with
  | nil => exact List.Perm.refl _
  | cons p dropped ih =>
      have hrest := ih hcopies.of_cons fun q hq =>
        (h q (List.mem_cons_of_mem p hq)).imp_right Lone.of_cons
      refine List.Perm.trans ?_ hrest
      by_cases hhides : T.Hides chunks (dropped ++ pages) p
      · exact union_cons_of_hides hnodup hcopies hhides
      · rcases h p List.mem_cons_self with hempty | hlone
        · have hgrows := union_cons_of_not_hides hhides
          rwa [hempty, List.nil_append] at hgrows
        · exact absurd hlone.hides hhides

/-- Leaving pages out never adds items. -/
theorem union_length_le (hnodup : (chunks.map T.chunkTag).Nodup) {dropped : List π}
    (hcopies : T.Copies chunks (dropped ++ pages)) :
    (T.union chunks pages).length ≤ (T.union chunks (dropped ++ pages)).length := by
  induction dropped with
  | nil => exact le_refl _
  | cons p dropped ih =>
      apply (ih hcopies.of_cons).trans
      by_cases hhides : T.Hides chunks (dropped ++ pages) p
      · exact (union_cons_of_hides hnodup hcopies hhides).length_eq.ge
      · rw [List.cons_append, (union_cons_of_not_hides hhides).length_eq, List.length_append]
        exact Nat.le_add_left _ _

/-- Leaving out a page with items that is not lone loses items. -/
theorem union_length_lt (hnodup : (chunks.map T.chunkTag).Nodup) {dropped : List π}
    (hcopies : T.Copies chunks (dropped ++ pages)) (hp : p ∈ dropped) (hitems : T.pageItems p ≠ [])
    (hlone : ¬ T.Lone chunks (dropped ++ pages) p) :
    (T.union chunks pages).length < (T.union chunks (dropped ++ pages)).length := by
  obtain ⟨before, after, rfl⟩ := List.append_of_mem hp
  have hperm : (before ++ p :: after ++ pages).Perm (p :: (before ++ after ++ pages)) := by
    rw [List.append_assoc, List.append_assoc, List.cons_append]
    exact List.perm_middle
  have hfirst : T.Copies chunks (p :: (before ++ after ++ pages)) :=
    hcopies.subset hperm.symm.subset
  have hhides : ¬ T.Hides chunks (before ++ after ++ pages) p := by
    intro h
    exact hlone (h.lone.perm hperm.symm)
  rw [(union_perm hperm).length_eq, (union_cons_of_not_hides hhides).length_eq, List.length_append]
  have hle := union_length_le hnodup hfirst.of_cons
  have hpos := List.length_pos_iff.mpr hitems
  omega

end Tagging

end Probing.Core
