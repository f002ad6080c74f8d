import Mathlib.Data.List.Sort
import Mathlib.Data.List.TakeWhile
import Mathlib.Data.String.Basic
import Probing.Core.Gather
import Probing.Stacktrace.Frames

/-!
# Folded stacks

A folded stack is a path of segments with a count. The merge brings the paths of several ranks to
one form, without the root `all`, the thread and the frames of the interpreter's start, and adds
up the counts of equal paths.
-/

namespace Probing.Stacktrace

open Probing.Core (contains parseUnsigned trim)

inductive StackSource where
  | Unknown
  | Vm
  | Sigprof
  | Sigusr2
  | SyncWalk
  | MachSuspend
  deriving DecidableEq

structure FoldedStacks where
  tid : UInt64
  source : StackSource
  segments : List String
  count : UInt64
  ranks : List ℤ
  deriving DecidableEq

def endsWith (name tail : String) : Bool := tail.toList.isSuffixOf name.toList

/-- Stdlib bootstrap frames that should not anchor a flamegraph root. -/
def isStdlibBootstrapPySegment (seg : String) : Bool :=
  if !startsWith seg "[py]" then false
  else contains seg "builtins.py" || contains seg "<frozen" || contains seg "importlib/" ||
    contains seg "runpy.py" || contains seg "zipimport.py" || contains seg "(platform.py:" ||
    endsWith seg "(platform.py)"

/-- The loop that drops the first segment while there are others. -/
def dropBootstrap : List String → List String
  | seg :: next :: rest =>
      if isStdlibBootstrapPySegment seg then dropBootstrap (next :: rest)
      else seg :: next :: rest
  | segs => segs

def canonicalizeFoldedSegments (segments : List String) : List String :=
  let out := dropBootstrap (segments.dropWhile fun s => !startsWith s "[py]")
  if out = [] then segments else out

/-- `thread-`, digits, and then nothing, a space or a bracket. -/
def isThreadFoldedSegment (seg : String) : Bool :=
  startsWith seg "thread-" &&
    let rest := seg.toList.drop 7
    let after := rest.dropWhile Char.isDigit
    decide (after.length < rest.length) &&
      (after == [] || after.head? == some ' ' || after.head? == some '(')

/-- The form of a path in which the merge compares it. -/
def mergePath (segments : List String) : List String :=
  canonicalizeFoldedSegments
    ((segments.dropWhile fun s => s == "all").dropWhile isThreadFoldedSegment)

/-- `segs.join(";")`. -/
def join (segs : List String) : String := String.ofList ([';'].intercalate (segs.map String.toList))

/-- `key.split(';')`. -/
def split (key : String) : List String := (key.toList.splitOn ';').map String.ofList

/-- `BTreeSet::insert`. -/
def insertRank (r : ℤ) (ranks : List ℤ) : List ℤ :=
  if r ∈ ranks then ranks else ranks.orderedInsert (· ≤ ·) r

/-- The three maps of the merge. -/
structure MergeMaps where
  counts : List (String × UInt64)
  ranks : List (String × List ℤ)
  sources : List (String × StackSource)

open Core.Keyed (update get)

/-- A stack of a rank is added. Its own `ranks` are not looked at. -/
def MergeMaps.add (m : MergeMaps) (rank : Option ℤ) (stack : FoldedStacks) : MergeMaps :=
  let segs := mergePath stack.segments
  if segs = [] then m
  else
    let key := join segs
    { counts := update (fun n => n.getD 0 + max stack.count 1) m.counts key
      sources := update (fun s => s.getD stack.source) m.sources key
      ranks := match rank with
        | some r => update (fun s => insertRank r (s.getD [])) m.ranks key
        | none => m.ranks }

/-- The maps are iterated in the order of their first entries, which the sort forgets: the segments
of different keys differ. -/
def mergeFoldedAttributed (sets : List (Option ℤ × List FoldedStacks)) : List FoldedStacks :=
  let maps := sets.foldl (fun (m : MergeMaps) set =>
    set.2.foldl (fun (m : MergeMaps) stack => m.add set.1 stack) m) ⟨[], [], []⟩
  (maps.counts.map fun (key, count) =>
    { tid := 0
      source := (get maps.sources key).getD .Unknown
      segments := split key
      count
      ranks := (get maps.ranks key).getD [] }).insertionSort fun a b => a.segments ≤ b.segments

/-- `rsplit_once`. -/
def rsplitOnce (sep : Char) (l : List Char) : Option (List Char × List Char) :=
  if sep ∈ l then
    some ((l.reverse.dropWhile (· != sep)).tail.reverse, (l.reverse.takeWhile (· != sep)).reverse)
  else none

/-- `str::parse::<u64>`. -/
def parseU64 (s : List Char) : Option UInt64 := (parseUnsigned 64 s).map .ofNat

/-- Parse classic folded lines (no thread metadata). -/
def foldedFromLine (line : String) (source : StackSource) : Option FoldedStacks := do
  let line := trim line.toList
  if line = [] then none
  let (stack, count_str) ← rsplitOnce ' ' line
  let count ← parseU64 count_str
  if count = 0 then none
  let segments := (stack.splitOn ';').filter fun p => !p.isEmpty
  if segments = [] then none
  some { tid := 0, source, segments := segments.map String.ofList, count, ranks := [] }

structure AttributedFoldedLine where
  path : List String
  count : UInt64
  ranks : List ℤ
  deriving DecidableEq

/-- Merge per-rank folded stacks, summing counts and collecting contributing ranks. -/
def mergeDistributedStackAttributed (sets : List (Option ℤ × List String)) :
    List AttributedFoldedLine :=
  let typed := sets.map fun (rank, lines) =>
    (rank, lines.filterMap fun line => foldedFromLine line .Unknown)
  (mergeFoldedAttributed typed).map fun f => ⟨f.segments, f.count, f.ranks⟩

section Paths

variable {segs : List String}

/-- A path that starts with a Python frame, or has none and starts with neither a root nor a
thread. -/
def Anchored (segs : List String) : Prop :=
  segs.head?.all (startsWith · "[py]") = true ∨
    (∀ s ∈ segs, startsWith s "[py]" = false) ∧ segs.head? ≠ some "all" ∧
      segs.head?.all (!isThreadFoldedSegment ·) = true

instance (segs : List String) : Decidable (Anchored segs) := inferInstanceAs (Decidable (_ ∨ _))

theorem dropBootstrap_suffix (segs : List String) : dropBootstrap segs <:+ segs := by
  fun_induction dropBootstrap segs with
  | case1 seg next rest hboot ih => exact ih.trans (List.suffix_cons seg _)
  | case2 => exact List.suffix_refl _
  | case3 => exact List.suffix_refl _

theorem dropBootstrap_ne_nil (h : segs ≠ []) : dropBootstrap segs ≠ [] := by
  fun_induction dropBootstrap segs with
  | case1 seg next rest hboot ih => exact ih (List.cons_ne_nil next rest)
  | case2 => exact h
  | case3 => exact h

theorem dropBootstrap_idem (segs : List String) :
    dropBootstrap (dropBootstrap segs) = dropBootstrap segs := by
  fun_induction dropBootstrap segs with
  | case1 seg next rest hboot ih => exact ih
  | case2 seg next rest hboot => rw [dropBootstrap, if_neg hboot]
  | case3 segs h => rw [dropBootstrap.eq_2 segs h]

theorem canonicalizeFoldedSegments_eq (segs : List String) :
    canonicalizeFoldedSegments segs =
      if segs.dropWhile (fun s => !startsWith s "[py]") = [] then segs
      else dropBootstrap (segs.dropWhile fun s => !startsWith s "[py]") := by
  unfold canonicalizeFoldedSegments
  by_cases h : segs.dropWhile (fun s => !startsWith s "[py]") = []
  · rw [if_pos h, h]
    rfl
  · rw [if_neg h]
    exact if_neg (dropBootstrap_ne_nil h)

theorem canonicalize_suffix (segs : List String) : canonicalizeFoldedSegments segs <:+ segs := by
  rw [canonicalizeFoldedSegments_eq]
  split
  · exact List.suffix_refl segs
  · exact (dropBootstrap_suffix _).trans (List.dropWhile_suffix _)

/-- The merge only drops segments from the root. -/
theorem mergePath_suffix (segs : List String) : mergePath segs <:+ segs :=
  (canonicalize_suffix _).trans ((List.dropWhile_suffix _).trans (List.dropWhile_suffix _))

/-- A path with a Python frame loses no more of the start-up. -/
theorem dropBootstrap_mergePath {s : String} (hs : s ∈ mergePath segs)
    (hpy : startsWith s "[py]" = true) : dropBootstrap (mergePath segs) = mergePath segs := by
  unfold mergePath at hs ⊢
  rw [canonicalizeFoldedSegments_eq] at hs ⊢
  split at hs
  case isTrue hnil =>
    have hnone := List.dropWhile_eq_nil_iff.mp hnil s hs
    rw [hpy] at hnone
    exact (Bool.false_ne_true hnone).elim
  case isFalse hsome =>
    rw [if_neg hsome]
    exact dropBootstrap_idem _

theorem startsWith_py {s : String} (h : startsWith s "[py]" = true) :
    (s == "all") = false ∧ isThreadFoldedSegment s = false := by
  have hhead : ∃ rest, s.toList = '[' :: rest := by
    obtain ⟨rest, hrest⟩ := List.isPrefixOf_iff_prefix.mp h
    exact ⟨_, hrest.symm⟩
  obtain ⟨rest, hrest⟩ := hhead
  constructor
  · refine beq_eq_false_iff_ne.mpr fun heq => ?_
    rw [heq] at hrest
    have hbracket : some 'a' = some '[' := congrArg List.head? hrest
    exact absurd hbracket (by decide)
  · unfold isThreadFoldedSegment startsWith
    rw [hrest]
    rfl

/-- An anchored path keeps its form when it is merged again. -/
theorem mergePath_idem (h : Anchored (mergePath segs)) :
    mergePath (mergePath segs) = mergePath segs := by
  cases hp : mergePath segs with
  | nil => rfl
  | cons s rest =>
      rw [hp] at h
      rcases h with hpy | ⟨hnone, hroot, hthread⟩
      · have hpy : startsWith s "[py]" = true := hpy
        obtain ⟨hall, hthread⟩ := startsWith_py hpy
        have hfix := dropBootstrap_mergePath (hp ▸ List.mem_cons_self : s ∈ mergePath segs) hpy
        rw [hp] at hfix
        unfold mergePath
        rw [List.dropWhile_cons_of_neg (by simp [hall]),
          List.dropWhile_cons_of_neg (by simp [hthread]), canonicalizeFoldedSegments_eq,
          List.dropWhile_cons_of_neg (by simp [hpy]), if_neg (List.cons_ne_nil s rest), hfix]
      · have hall : (s == "all") = false :=
          beq_eq_false_iff_ne.mpr fun heq => hroot (congrArg some heq)
        have hthread : isThreadFoldedSegment s = false := Bool.not_eq_true' _ ▸ hthread
        unfold mergePath
        rw [List.dropWhile_cons_of_neg (by simp [hall]),
          List.dropWhile_cons_of_neg (by simp [hthread]), canonicalizeFoldedSegments_eq, if_pos]
        exact List.dropWhile_eq_nil_iff.mpr fun x hx => by simp [hnone x hx]

theorem join_split (key : String) : join (split key) = key := by
  unfold join split
  rw [List.map_map]
  have hid : String.toList ∘ String.ofList = id := funext fun l => String.toList_ofList
  rw [hid, List.map_id, List.intercalate_splitOn, String.ofList_toList]

theorem split_join (hne : segs ≠ []) (h : ∀ s ∈ segs, ';' ∉ s.toList) :
    split (join segs) = segs := by
  unfold join split
  rw [String.toList_ofList, List.splitOn_intercalate]
  · rw [List.map_map]
    have hid : String.ofList ∘ String.toList = id := funext fun s => String.ofList_toList
    rw [hid, List.map_id]
  · intro l hl
    obtain ⟨s, hs, rfl⟩ := List.mem_map.mp hl
    exact h s hs
  · exact fun hnil => hne (List.map_eq_nil_iff.mp hnil)

theorem split_injective {key key' : String} (h : split key = split key') : key = key' := by
  rw [← join_split key, h, join_split]

end Paths

end Probing.Stacktrace
