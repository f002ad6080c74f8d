import Mathlib.Data.List.Sort
import Probing.Memc.SegmentRoundTrip

/-!
# Cold retention

A directory of segment files is kept below a byte budget and a time to live by removing its oldest
segments. Only sealed segments are removed, and never the newest one. A file that cannot be
validated ends the pass before anything is removed.
-/

namespace Probing.Memc

open Probing.Core

/-- A file of the directory with its modification time. -/
structure SegmentFile where
  path : String
  mtime : ℤ
  bytes : Bytes

/-- `metadata.len()`. -/
def SegmentFile.len (f : SegmentFile) : ℕ := f.bytes.length

/-- The segment files in the order of the listing; no two have one path. -/
structure ColdDir where
  files : List SegmentFile
  distinct : (files.map SegmentFile.path).Nodup

/-- A sealed header of the version before this one. -/
def legacySegmentIsSealed (X : Crates) (bytes : Bytes) : Bool :=
  if bytes.length < segmentHeaderSize ∨ getLe UInt32 bytes 0 ≠ magicMemc ∨
      getLe UInt16 bytes 4 ≠ versionMemc - 1 ∨
      getLe UInt32 bytes 60 ≠ X.xxh32 (slice bytes 0 60) then false
  else getLe UInt16 bytes 10 &&& flagSealed != 0

/-- Sorted from the oldest to the newest; files of one time stay in the order of the listing. -/
def segmentPaths (dir : ColdDir) : List SegmentFile :=
  dir.files.insertionSort fun a b => a.mtime ≤ b.mtime

/-- The loop that opens every segment: the paths to protect, or the first failure. -/
def protectOpen (X : Crates) : List SegmentFile → Except String (List String)
  | [] => .ok []
  | f :: rest =>
      match SegmentReader.fromMmap X f.bytes with
      | .ok reader =>
          if reader.header.isSealed then protectOpen X rest
          else (protectOpen X rest).map (f.path :: ·)
      | .error error =>
          if legacySegmentIsSealed X f.bytes then protectOpen X rest
          else .error s!"cannot validate MEMC segment {f.path} for retention: {error}"

/-- The limits of a pass and the time it is made at; `none` disables a limit. -/
structure Limits where
  now : ℤ
  maxBytes : Option ℕ
  ttl : Option ℕ

namespace Limits

variable (L : Limits)

/-- A segment from the future has no age. -/
def tooOld (f : SegmentFile) : Bool :=
  match L.ttl with
  | some ttl => decide (f.mtime ≤ L.now ∧ (ttl : ℤ) < L.now - f.mtime)
  | none => false

def overBudget (total : ℕ) : Bool :=
  match L.maxBytes with
  | some max => decide (max < total)
  | none => false

/-- The eviction loop, with the bytes that are left. -/
def evict (protected_paths : List String) : List SegmentFile → ℕ → List String
  | [], _ => []
  | f :: rest, total =>
      if f.path ∈ protected_paths then evict protected_paths rest total
      else if !(L.tooOld f || L.overBudget total) then []
      else f.path :: evict protected_paths rest (total - f.len)

def enforceLimitsChecked (X : Crates) (dir : ColdDir) : Except String (List String) :=
  let paths := segmentPaths dir
  if paths.length ≤ 1 then .ok []
  else match protectOpen X paths with
    | .error error => .error error
    | .ok protected_paths =>
        let protected_paths := protected_paths ++ (paths.getLast?.map SegmentFile.path).toList
        let total := paths.foldl (fun total f => saturatingAdd total f.len) 0
        .ok (L.evict protected_paths paths total)

/-- The removed paths; a failed pass is logged and removes nothing. -/
def enforceLimits (X : Crates) (dir : ColdDir) : List String :=
  match L.enforceLimitsChecked X dir with
  | .ok removed => removed
  | .error _ => []

end Limits

/-- A segment that no writer may have open: sealed, now or by the version before. -/
def SegmentFile.closed (X : Crates) (f : SegmentFile) : Bool :=
  match SegmentReader.fromMmap X f.bytes with
  | .ok reader => reader.header.isSealed
  | .error _ => legacySegmentIsSealed X f.bytes

/-- A segment that can be validated. -/
def SegmentFile.readable (X : Crates) (f : SegmentFile) : Bool :=
  match SegmentReader.fromMmap X f.bytes with
  | .ok _ => true
  | .error _ => legacySegmentIsSealed X f.bytes

section Loops

variable {X : Crates} {L : Limits} {fs : List SegmentFile} {total : ℕ}

/-- Every segment can be validated, and those that are not closed are protected, or the pass
fails. -/
theorem protectOpen_cases (X : Crates) (fs : List SegmentFile) :
    ((∀ f ∈ fs, f.readable X = true) ∧
      protectOpen X fs = .ok ((fs.filter fun f => !f.closed X).map SegmentFile.path)) ∨
    ((∃ f ∈ fs, f.readable X = false) ∧ ∃ error, protectOpen X fs = .error error) := by
  induction fs with
  | nil => exact .inl ⟨by simp, rfl⟩
  | cons f fs ih =>
      unfold protectOpen
      cases hopen : SegmentReader.fromMmap X f.bytes with
      | ok reader =>
          have hread : f.readable X = true := by simp [SegmentFile.readable, hopen]
          have hclosed : f.closed X = reader.header.isSealed := by
            simp [SegmentFile.closed, hopen]
          cases hsealed : reader.header.isSealed with
          | true =>
              simp only [if_true, List.filter_cons, hclosed, hsealed, Bool.not_true,
                Bool.false_eq_true, if_false, List.forall_mem_cons, hread, true_and,
                List.exists_mem_cons_iff, reduceCtorEq, false_or]
              simpa using ih
          | false =>
              simp only [Bool.false_eq_true, if_false, List.filter_cons, hclosed, hsealed,
                Bool.not_false, if_true, List.forall_mem_cons, hread, true_and,
                List.exists_mem_cons_iff]
              rcases ih with ⟨hall, hok⟩ | ⟨hsome, error, herror⟩
              · exact .inl ⟨hall, by rw [hok]; rfl⟩
              · exact .inr ⟨.inr hsome, error, by rw [herror]; rfl⟩
      | error error =>
          have hclosed : f.closed X = legacySegmentIsSealed X f.bytes := by
            simp [SegmentFile.closed, hopen]
          have hread : f.readable X = legacySegmentIsSealed X f.bytes := by
            simp [SegmentFile.readable, hopen]
          cases hlegacy : legacySegmentIsSealed X f.bytes with
          | true =>
              rw [hlegacy] at hclosed hread
              simp only [if_true, List.filter_cons, hclosed, Bool.not_true, Bool.false_eq_true,
                if_false, List.forall_mem_cons, hread, true_and, List.exists_mem_cons_iff]
              rcases ih with ⟨hall, hok⟩ | ⟨hsome, herror⟩
              · exact .inl ⟨hall, hok⟩
              · exact .inr ⟨.inr hsome, herror⟩
          | false =>
              rw [hlegacy] at hread
              exact .inr ⟨⟨f, List.mem_cons_self, hread⟩, _, rfl⟩

/-- Protected segments are only passed over. -/
theorem evict_filter (protected_paths : List String) :
    L.evict protected_paths fs total =
      L.evict [] (fs.filter fun f => f.path ∉ protected_paths) total := by
  induction fs generalizing total with
  | nil => rfl
  | cons f fs ih =>
      by_cases hprotected : f.path ∈ protected_paths
      · rw [List.filter_cons_of_neg (by simpa using hprotected), ← ih]
        simp only [Limits.evict, if_pos hprotected]
      · rw [List.filter_cons_of_pos (by simpa using hprotected)]
        simp only [Limits.evict, if_neg hprotected, List.not_mem_nil, if_false, ih]

/-- The bytes of the first `k` segments. -/
def bytesOf (fs : List SegmentFile) (k : ℕ) : ℕ := ((fs.take k).map SegmentFile.len).sum

@[simp] theorem bytesOf_zero : bytesOf fs 0 = 0 := rfl

@[simp] theorem bytesOf_succ (f : SegmentFile) (k : ℕ) :
    bytesOf (f :: fs) (k + 1) = f.len + bytesOf fs k := by
  simp [bytesOf]

theorem bytesOf_mono (fs : List SegmentFile) {j k : ℕ} (h : j ≤ k) :
    bytesOf fs j ≤ bytesOf fs k := by
  induction fs generalizing j k with
  | nil => simp [bytesOf]
  | cons f fs ih =>
      cases j with
      | zero => simp
      | succ j =>
          cases k with
          | zero => omega
          | succ k =>
              simp only [bytesOf_succ]
              exact Nat.add_le_add_left (ih (by omega)) _

/-- The loop stops before the first segment that is young enough while the bytes left are within
the budget. -/
theorem Limits.evict_take (L : Limits) (fs : List SegmentFile) (total : ℕ) : ∃ k ≤ fs.length,
    L.evict [] fs total = (fs.take k).map SegmentFile.path ∧
    (∀ j f, j < k → fs[j]? = some f →
      (L.tooOld f || L.overBudget (total - bytesOf fs j)) = true) ∧
    ∀ f, fs[k]? = some f → (L.tooOld f || L.overBudget (total - bytesOf fs k)) = false := by
  induction fs generalizing total with
  | nil => exact ⟨0, le_rfl, rfl, by simp, by simp⟩
  | cons f fs ih =>
      by_cases hgo : (L.tooOld f || L.overBudget total) = true
      · obtain ⟨k, hk, hevict, hbefore, hstop⟩ := ih (total - f.len)
        refine ⟨k + 1, Nat.succ_le_succ hk, ?_, fun j g hj hg => ?_, fun g hg => ?_⟩
        · simp only [Limits.evict, List.not_mem_nil, if_false, hgo, Bool.not_true,
            Bool.false_eq_true, hevict, List.take_succ_cons, List.map_cons]
        · cases j with
          | zero =>
              obtain rfl : f = g := by simpa using hg
              simpa using hgo
          | succ j =>
              rw [bytesOf_succ, ← Nat.sub_sub]
              exact hbefore j g (by omega) (by simpa using hg)
        · rw [bytesOf_succ, ← Nat.sub_sub]
          exact hstop g (by simpa using hg)
      · refine ⟨0, Nat.zero_le _, ?_, by simp, fun g hg => ?_⟩
        · simp only [Limits.evict, List.not_mem_nil, if_false, Bool.not_eq_true] at hgo ⊢
          simp [hgo]
        · obtain rfl : f = g := by simpa using hg
          simpa using hgo

/-- The saturating sum is the sum, cut at the largest 64-bit number. -/
theorem foldl_saturatingAdd (start : ℕ) (hstart : start ≤ 2 ^ 64 - 1) :
    fs.foldl (fun total f => saturatingAdd total f.len) start =
      min (start + (fs.map SegmentFile.len).sum) (2 ^ 64 - 1) := by
  induction fs generalizing start with
  | nil => simpa using hstart
  | cons f fs ih =>
      rw [List.foldl_cons, ih _ (by unfold saturatingAdd; omega), List.map_cons, List.sum_cons]
      unfold saturatingAdd
      omega

end Loops

section Retention

/-- The segments that may be removed, from the oldest on: closed, and not the newest. -/
def removable (X : Crates) (dir : ColdDir) : List SegmentFile :=
  (segmentPaths dir).dropLast.filter fun f => f.closed X

def totalBytes (dir : ColdDir) : ℕ := ((segmentPaths dir).map SegmentFile.len).sum

/-- With the `k` oldest removable segments gone, the others are young enough and the bytes left are
within the budget. -/
def Limits.Satisfied (L : Limits) (X : Crates) (dir : ColdDir) (k : ℕ) : Prop :=
  (∀ f ∈ (removable X dir).drop k, L.tooOld f = false) ∧
    L.overBudget (totalBytes dir - bytesOf (removable X dir) k) = false

/-- The removed paths are the shortest oldest-first prefix of the removable segments after which
the limits are satisfied, or all of them. -/
def Limits.Retains (L : Limits) (X : Crates) (dir : ColdDir) (removed : List String) : Prop :=
  ∃ k ≤ (removable X dir).length,
    removed = ((removable X dir).take k).map SegmentFile.path ∧
    (L.Satisfied X dir k ∨ k = (removable X dir).length) ∧ ∀ j < k, ¬ L.Satisfied X dir j

/-- There is nothing to remove. -/
def Limits.Idle (L : Limits) (X : Crates) (dir : ColdDir) : Prop :=
  removable X dir = [] ∨ L.Satisfied X dir 0

/-- No removable segment that is young enough comes below the budget only because the sum of all
sizes is cut at 2^64 - 1. -/
def Limits.Unsaturated (L : Limits) (X : Crates) (dir : ColdDir) : Prop :=
  ∀ k f, (removable X dir)[k]? = some f → L.tooOld f = false →
    L.overBudget (min (totalBytes dir) (2 ^ 64 - 1) - bytesOf (removable X dir) k) = false →
      L.overBudget (totalBytes dir - bytesOf (removable X dir) k) = false

variable {X : Crates} {L : Limits} {dir : ColdDir}

theorem paths_distinct (dir : ColdDir) : ((segmentPaths dir).map SegmentFile.path).Nodup :=
  ((List.perm_insertionSort _ dir.files).map _).nodup_iff.mpr dir.distinct

/-- Older segments come first. -/
theorem segmentPaths_sorted (dir : ColdDir) :
    (segmentPaths dir).Pairwise fun a b => a.mtime ≤ b.mtime := by
  have : Std.Total fun a b : SegmentFile => a.mtime ≤ b.mtime := ⟨fun a b => le_total _ _⟩
  have : IsTrans SegmentFile fun a b => a.mtime ≤ b.mtime := ⟨fun a b c => le_trans⟩
  exact List.pairwise_insertionSort _ _

theorem removable_sublist : (removable X dir).Sublist (segmentPaths dir) :=
  List.filter_sublist.trans (List.dropLast_sublist _)

/-- What the loop does not pass over is what may be removed. -/
theorem unprotected_eq (X : Crates) (dir : ColdDir) :
    (segmentPaths dir).filter (fun f => f.path ∉
      ((segmentPaths dir).filter fun f => !f.closed X).map SegmentFile.path ++
        ((segmentPaths dir).getLast?.map SegmentFile.path).toList) = removable X dir := by
  have hdistinct := paths_distinct dir
  unfold removable
  rcases List.eq_nil_or_concat (segmentPaths dir) with hnil | ⟨init, newest, hpaths⟩
  · simp [hnil]
  rw [List.concat_eq_append] at hpaths
  rw [hpaths] at hdistinct ⊢
  have hinj : ∀ f ∈ init ++ [newest], ∀ g ∈ init ++ [newest], f.path = g.path → f = g :=
    fun f hf g hg h => List.inj_on_of_nodup_map hdistinct hf hg h
  rw [List.dropLast_concat, List.filter_append]
  have hlast : [newest].filter (fun f => f.path ∉
      ((init ++ [newest]).filter fun f => !f.closed X).map SegmentFile.path ++
        ((init ++ [newest]).getLast?.map SegmentFile.path).toList) = [] := by
    simp
  rw [hlast, List.append_nil]
  apply List.filter_congr
  intro f hf
  have hne : f.path ≠ newest.path := by
    intro heq
    rw [List.map_append, List.nodup_append] at hdistinct
    exact hdistinct.2.2 _ (List.mem_map_of_mem hf) _ (by simp) heq
  have hmem : f.path ∈ ((init ++ [newest]).filter fun f => !f.closed X).map SegmentFile.path ↔
      f.closed X = false := by
    constructor
    · intro h
      obtain ⟨g, hg, heq⟩ := List.mem_map.mp h
      obtain ⟨hg, hclosed⟩ := List.mem_filter.mp hg
      rw [hinj f (List.mem_append_left _ hf) g hg heq.symm]
      simpa using hclosed
    · intro h
      exact List.mem_map_of_mem (List.mem_filter.mpr ⟨List.mem_append_left _ hf, by simpa using h⟩)
  rw [Bool.eq_iff_iff, decide_eq_true_iff, List.mem_append, hmem]
  cases f.closed X <;> simp [hne]

/-- With every segment readable the pass is the loop over the removable segments. -/
theorem enforceLimits_readable (h : ∀ f ∈ segmentPaths dir, f.readable X = true) :
    L.enforceLimits X dir =
      L.evict [] (removable X dir) (min (totalBytes dir) (2 ^ 64 - 1)) := by
  unfold Limits.enforceLimits Limits.enforceLimitsChecked
  by_cases hshort : (segmentPaths dir).length ≤ 1
  · have hnone : removable X dir = [] := by
      have hinit : (segmentPaths dir).dropLast = [] :=
        List.length_eq_zero_iff.mp (by rw [List.length_dropLast]; omega)
      rw [removable, hinit]
      rfl
    simp only [if_pos hshort, hnone, Limits.evict]
  · rcases protectOpen_cases X (segmentPaths dir) with ⟨-, hok⟩ | ⟨⟨f, hf, hread⟩, -⟩
    · simp only [if_neg hshort, hok]
      rw [evict_filter, unprotected_eq, foldl_saturatingAdd 0 (Nat.zero_le _), Nat.zero_add]
      rfl
    · rw [h f hf] at hread
      cases hread

/-- A segment that cannot be validated ends the pass. -/
theorem enforceLimits_unreadable (h : ∃ f ∈ segmentPaths dir, f.readable X = false) :
    L.enforceLimits X dir = [] := by
  obtain ⟨f, hf, hread⟩ := h
  unfold Limits.enforceLimits Limits.enforceLimitsChecked
  by_cases hshort : (segmentPaths dir).length ≤ 1
  · simp only [if_pos hshort]
  · rcases protectOpen_cases X (segmentPaths dir) with ⟨hall, -⟩ | ⟨-, error, herror⟩
    · rw [hall f hf] at hread
      cases hread
    · simp only [if_neg hshort, herror]

theorem overBudget_mono {m n : ℕ} (h : m ≤ n) (hover : L.overBudget m = true) :
    L.overBudget n = true := by
  unfold Limits.overBudget at hover ⊢
  cases hmax : L.maxBytes with
  | none => simp [hmax] at hover
  | some max =>
      simp only [hmax, decide_eq_true_eq] at hover ⊢
      omega

theorem tooOld_mono {f g : SegmentFile} (h : f.mtime ≤ g.mtime) (hold : L.tooOld g = true) :
    L.tooOld f = true := by
  unfold Limits.tooOld at hold ⊢
  cases httl : L.ttl with
  | none => simp [httl] at hold
  | some ttl =>
      simp only [httl, decide_eq_true_eq] at hold ⊢
      omega

/-- From a segment that is young enough on all are. -/
theorem young_from {k : ℕ} {f : SegmentFile} (hf : (removable X dir)[k]? = some f)
    (hyoung : L.tooOld f = false) : ∀ g ∈ (removable X dir).drop k, L.tooOld g = false := by
  intro g hg
  obtain ⟨hk, hget⟩ := List.getElem?_eq_some_iff.mp hf
  have hsorted : ((removable X dir).drop k).Pairwise fun a b => a.mtime ≤ b.mtime :=
    (segmentPaths_sorted dir).sublist ((List.drop_sublist _ _).trans removable_sublist)
  rw [List.drop_eq_getElem_cons hk, hget] at hg hsorted
  rcases List.mem_cons.mp hg with rfl | hg
  · exact hyoung
  · cases hold : L.tooOld g with
    | false => rfl
    | true =>
        rw [tooOld_mono ((List.pairwise_cons.mp hsorted).1 g hg) hold] at hyoung
        cases hyoung

/-- The limits are satisfied where the loop would stop with the true sum. -/
theorem satisfied_iff {k : ℕ} {f : SegmentFile} (hf : (removable X dir)[k]? = some f) :
    L.Satisfied X dir k ↔ L.tooOld f = false ∧
      L.overBudget (totalBytes dir - bytesOf (removable X dir) k) = false := by
  constructor
  · rintro ⟨hyoung, hbudget⟩
    obtain ⟨hk, hget⟩ := List.getElem?_eq_some_iff.mp hf
    exact ⟨hyoung f (by rw [List.drop_eq_getElem_cons hk, hget]; exact List.mem_cons_self), hbudget⟩
  · rintro ⟨hyoung, hbudget⟩
    exact ⟨young_from hf hyoung, hbudget⟩

/-- A pass over readable segments retains what it should exactly if the cut sum does not hide an
excess. -/
theorem retains_readable_iff (h : ∀ f ∈ segmentPaths dir, f.readable X = true) :
    L.Retains X dir (L.enforceLimits X dir) ↔ L.Unsaturated X dir := by
  obtain ⟨k, hk, hevict, hbefore, hstop⟩ := L.evict_take (removable X dir)
    (min (totalBytes dir) (2 ^ 64 - 1))
  rw [enforceLimits_readable h, hevict]
  constructor
  · rintro ⟨k', hk', htake, hend, -⟩ i f hf hyoung hbudget
    obtain rfl : k = k' := by
      have hlen := congrArg List.length htake
      simp only [List.length_map, List.length_take] at hlen
      omega
    have hki : k ≤ i := by
      by_contra hlt
      have hgo := hbefore i f (Nat.lt_of_not_le hlt) hf
      rw [hyoung, hbudget] at hgo
      cases hgo
    obtain ⟨hi, -⟩ := List.getElem?_eq_some_iff.mp hf
    rcases hend with hsat | hall
    · cases hover : L.overBudget (totalBytes dir - bytesOf (removable X dir) i) with
      | false => rfl
      | true =>
          have hmono := bytesOf_mono (removable X dir) hki
          have hbudget' := hsat.2
          rw [overBudget_mono (by omega) hover] at hbudget'
          cases hbudget'
    · omega
  · intro hunsaturated
    refine ⟨k, hk, rfl, ?_, fun j hj hsat => ?_⟩
    · by_cases hlt : k < (removable X dir).length
      · left
        have hget := List.getElem?_eq_getElem hlt
        have hgo := hstop _ hget
        rw [Bool.or_eq_false_iff] at hgo
        exact (satisfied_iff hget).mpr ⟨hgo.1, hunsaturated k _ hget hgo.1 hgo.2⟩
      · right
        omega
    · have hget := List.getElem?_eq_getElem (Nat.lt_of_lt_of_le hj hk)
      obtain ⟨hyoung, hbudget⟩ := (satisfied_iff hget).mp hsat
      have hgo := hbefore j _ hj hget
      rw [hyoung, Bool.false_or] at hgo
      rw [overBudget_mono (by omega) hgo] at hbudget
      cases hbudget

theorem unsaturated_of_idle (h : L.Idle X dir) : L.Unsaturated X dir := by
  intro k f hf _ _
  rcases h with hnil | ⟨-, hbudget⟩
  · simp [hnil] at hf
  · cases hover : L.overBudget (totalBytes dir - bytesOf (removable X dir) k) with
    | false => rfl
    | true =>
        rw [bytesOf_zero, Nat.sub_zero, overBudget_mono (Nat.sub_le _ _) hover] at hbudget
        cases hbudget

/-- What is removed is closed and not the newest segment. -/
theorem mem_enforceLimits {path : String} (h : path ∈ L.enforceLimits X dir) :
    ∃ f ∈ (segmentPaths dir).dropLast, f.closed X = true ∧ f.path = path := by
  by_cases hread : ∃ f ∈ segmentPaths dir, f.readable X = false
  · rw [enforceLimits_unreadable hread] at h
    cases h
  · have hall : ∀ f ∈ segmentPaths dir, f.readable X = true := by
      intro f hf
      cases hf' : f.readable X with
      | true => rfl
      | false => exact absurd ⟨f, hf, hf'⟩ hread
    obtain ⟨k, -, hevict, -⟩ := L.evict_take (removable X dir)
      (min (totalBytes dir) (2 ^ 64 - 1))
    rw [enforceLimits_readable hall, hevict] at h
    obtain ⟨f, hf, rfl⟩ := List.mem_map.mp h
    obtain ⟨hmem, hclosed⟩ := List.mem_filter.mp (List.mem_of_mem_take hf)
    exact ⟨f, hmem, hclosed, rfl⟩

/-- Removing nothing is right exactly if there is nothing to remove. -/
theorem retains_nil_iff : L.Retains X dir [] ↔ L.Idle X dir := by
  unfold Limits.Retains Limits.Idle
  constructor
  · rintro ⟨k, hk, htake, hend, hbefore⟩
    have hzero : k = 0 ∨ removable X dir = [] := by
      have hlen := congrArg List.length htake
      simp only [List.length_nil, List.length_map, List.length_take] at hlen
      rcases Nat.eq_zero_or_pos k with hk0 | hkpos
      · exact .inl hk0
      · exact .inr (List.length_eq_zero_iff.mp (by omega))
    rcases hzero with rfl | hnil
    · rcases hend with hsat | hall
      · exact .inr hsat
      · exact .inl (List.length_eq_zero_iff.mp hall.symm)
    · exact .inl hnil
  · rintro (hnil | hsat)
    · exact ⟨0, Nat.zero_le _, rfl, .inr (by rw [hnil]; rfl), by simp⟩
    · exact ⟨0, Nat.zero_le _, rfl, .inl hsat, by simp⟩

end Retention

/-- A pass never removes the newest, an unsealed or an unreadable segment. It removes exactly what
it must if there is nothing to remove, or every segment can be validated and the sum of the sizes is
not cut; and only then. -/
theorem retention_exact_iff (X : Crates) (L : Limits) (dir : ColdDir) :
    (∀ path ∈ L.enforceLimits X dir,
      ∃ f ∈ (segmentPaths dir).dropLast, f.closed X = true ∧ f.path = path) ∧
    (L.Retains X dir (L.enforceLimits X dir) ↔
      L.Idle X dir ∨ ((∀ f ∈ dir.files, f.readable X = true) ∧ L.Unsaturated X dir)) := by
  refine ⟨fun path h => mem_enforceLimits h, ?_⟩
  have hmem : ∀ f, f ∈ segmentPaths dir ↔ f ∈ dir.files :=
    fun f => (List.perm_insertionSort _ dir.files).mem_iff
  by_cases hall : ∀ f ∈ dir.files, f.readable X = true
  · rw [retains_readable_iff fun f hf => hall f ((hmem f).mp hf)]
    exact ⟨fun h => .inr ⟨hall, h⟩, fun h => h.elim unsaturated_of_idle And.right⟩
  · have hread : ∃ f ∈ segmentPaths dir, f.readable X = false := by
      simp only [not_forall, Bool.not_eq_true] at hall
      obtain ⟨f, hf, hread⟩ := hall
      exact ⟨f, (hmem f).mpr hf, hread⟩
    rw [enforceLimits_unreadable hread, retains_nil_iff]
    exact ⟨.inl, fun h => h.resolve_right fun hboth => hall hboth.1⟩

/-- A sealed segment of the version before. -/
def legacyBytes : Bytes :=
  let fields := le magicMemc ++ (le (versionMemc - 1) ++ (le (64 : UInt16) ++ (byteOrderMark ++
    (le flagSealed ++ List.replicate 48 0))))
  fields ++ le (stored.xxh32 fields)

/-- Two sealed segments and, between them, a file whose writer stopped before the header. -/
def stoppedDir : ColdDir where
  files := [⟨"a-000001.memc", 0, legacyBytes⟩, ⟨"b-000001.memc", 1, []⟩,
    ⟨"c-000001.memc", 2, legacyBytes⟩]
  distinct := by decide

/-- The oldest segment is far beyond its time to live, but the empty file keeps it from being
removed. -/
theorem unreadable_stops_eviction :
    ¬ (⟨1000, none, some 10⟩ : Limits).Retains stored stoppedDir
        ((⟨1000, none, some 10⟩ : Limits).enforceLimits stored stoppedDir) ∧
      (⟨1000, none, some 10⟩ : Limits).enforceLimits stored stoppedDir = [] ∧
      (removable stored stoppedDir).map SegmentFile.path = ["a-000001.memc"] := by
  have hnone : (⟨1000, none, some 10⟩ : Limits).enforceLimits stored stoppedDir = [] := by
    decide +kernel
  have hpaths : (removable stored stoppedDir).map SegmentFile.path = ["a-000001.memc"] := by
    decide +kernel
  refine ⟨?_, hnone, hpaths⟩
  rw [hnone, retains_nil_iff]
  rintro (hnil | ⟨hyoung, -⟩)
  · rw [hnil] at hpaths
    cases hpaths
  · have hold : ∃ f ∈ removable stored stoppedDir,
        (⟨1000, none, some 10⟩ : Limits).tooOld f = true := by decide +kernel
    obtain ⟨f, hf, hf'⟩ := hold
    rw [hyoung f (by simpa using hf)] at hf'
    cases hf'

end Probing.Memc
