import Mathlib.Algebra.BigOperators.ModEq
import Probing.Stacktrace.FlamegraphLines

/-!
# Samples through JSON

What comes back of the samples when folded lines go through a flamegraph and its JSON: every drawn
frame with nothing drawn under it becomes a line with the samples of all lines through it. Where
every line ends in such a frame, each path has its own samples again.
-/

namespace Probing.Stacktrace.Flamegraph

open Probing.Core (Forest Keyed.find)
open Probing.Core.Forest (Entry)

variable {W Text : Type} {F : Floats W} {S : Serde W Text} {fg : Graph} {lines : List String}
  {attr : List AttributedFoldedLine} {options : FlamegraphOptions}

/-- The frames that are drawn with nothing drawn under them: the path of each, and its value. -/
def ends (F : Floats W) (fg : Graph) (options : FlamegraphOptions) : List (List String × UInt64) :=
  (drawn F fg.root (F.graphWidth options.kind)).leaves.map fun path =>
    (path.map Prod.fst, endValue path)

/-- Every line goes on to a frame with nothing drawn under it: no frame on its path is too narrow,
and no other line goes on where it ends. -/
def AllEnd (F : Floats W) (fg : Graph) (options : FlamegraphOptions) (lines : List String) : Prop :=
  ∀ line ∈ attributed lines, line.path ∈ (ends F fg options).map Prod.fst

/-- The samples of the lines with a path. -/
def own (attr : List AttributedFoldedLine) (path : List String) : ℕ :=
  (((counted attr).filter fun line => line.path = path).map (·.count.toNat)).sum

/-- The samples that lines have for a path. -/
def samples (found : List (List String × UInt64)) (path : List String) : ℕ :=
  ((found.filter fun stack => stack.1 = path).map (·.2.toNat)).sum

/-- A line that can be read has samples and a path. -/
theorem parsed {text : String} {path : List String} {count : UInt64}
    (h : parseFoldedLine text = some (path, count)) : count ≠ 0 ∧ path ≠ [] := by
  unfold parseFoldedLine at h
  dsimp only at h
  split at h
  · exact nomatch h
  · obtain ⟨⟨stack, count_str⟩, -, h⟩ := Option.bind_eq_some_iff.mp h
    obtain ⟨n, -, h⟩ := Option.bind_eq_some_iff.mp h
    split at h
    · exact nomatch h
    next hn =>
      split at h
      · exact nomatch h
      next hframes =>
        obtain ⟨rfl, rfl⟩ := Prod.mk.inj (Option.some.inj h)
        exact ⟨hn, fun hnil => hframes (List.map_eq_nil_iff.mp hnil)⟩

theorem counted_attributed : counted (attributed lines) = attributed lines := by
  refine List.filter_eq_self.mpr fun line hline => ?_
  obtain ⟨text, -, hparse⟩ := List.mem_filterMap.mp hline
  obtain ⟨⟨path, count⟩, hstack, rfl⟩ := Option.map_eq_some_iff.mp hparse
  exact decide_eq_true (parsed hstack)

theorem root_of_lines (h : fromFoldedLines lines = some fg) :
    fg.root = tree (attributed lines) ∧ fg.total = fg.root.value := by
  unfold fromFoldedLines fromAttributedFoldedLines at h
  dsimp only at h
  split at h
  · exact nomatch h
  · obtain rfl := Option.some.inj h
    exact ⟨rfl, rfl⟩

theorem payload_entries : ((fg.payload F options).frames.map PlacedFrame.read).map JsonFrame.entry =
    (Forest.node (fg.root.name, fg.root.value) (drawn F fg.root (F.graphWidth options.kind))
      .nil).number none 0 := by
  rw [List.map_map]
  exact (adds_layout F none 0 F.zero F.zero (F.graphWidth options.kind) ⟨[], 0⟩).2

theorem names_of_not_all {path : List (String × UInt64)} (h : "all" ∉ path.map Prod.fst) :
    names path = path.map Prod.fst :=
  List.filter_eq_self.mpr fun _ hname => decide_eq_true fun heq => h (heq ▸ hname)

/-- The root has no name of its own in the lines. -/
theorem lines_below_root {root : String × UInt64} (hroot : root.1 = "all")
    {paths : List (List (String × UInt64))} (hpaths : ∀ path ∈ paths, path ≠ [])
    (hall : ∀ path ∈ paths, "all" ∉ path.map Prod.fst) :
    ((((paths.map (root :: ·)).filter fun path => endValue path ≠ 0).map
      fun path => (names path, endValue path)).filter fun stack => stack.1 ≠ []) =
        (paths.map fun path => (path.map Prod.fst, endValue path)).filter
          fun stack => stack.2 ≠ 0 := by
  induction paths with
  | nil => rfl
  | cons path rest ih =>
      have ih := ih (fun p hp => hpaths p (List.mem_cons_of_mem _ hp))
        fun p hp => hall p (List.mem_cons_of_mem _ hp)
      have hnames : names (root :: path) = path.map Prod.fst := by
        have hpath := names_of_not_all (hall path List.mem_cons_self)
        unfold names at hpath ⊢
        rw [List.map_cons, List.filter_cons_of_neg (by simp [hroot]), hpath]
      have hvalue : endValue (root :: path) = endValue path := by
        cases path with
        | nil => exact absurd rfl (hpaths [] List.mem_cons_self)
        | cons a below => rw [endValue, endValue, List.getLast?_cons_cons]
      have hne : path.map Prod.fst ≠ [] :=
        fun hnil => hpaths path List.mem_cons_self (List.map_eq_nil_iff.mp hnil)
      rw [List.map_cons, List.map_cons]
      by_cases hzero : endValue path = 0
      · rw [List.filter_cons_of_neg (by simp [hvalue, hzero]),
          List.filter_cons_of_neg (by simp [hzero]), ih]
      · rw [List.filter_cons_of_pos (by simp [hvalue, hzero]), List.map_cons,
          List.filter_cons_of_pos (by simpa [hnames] using hne),
          List.filter_cons_of_pos (by simp [hzero]), ih, hnames, hvalue]

theorem leaves_of_root {root : String × UInt64} {f : Forest (String × UInt64)}
    (hroot : root.1 = "all") (hall : ∀ path ∈ f.leaves, "all" ∉ path.map Prod.fst) :
    (((((Forest.node root f .nil).leaves).filter fun path => endValue path ≠ 0).map
      fun path => (names path, endValue path)).filter fun stack => stack.1 ≠ []) =
        (f.leaves.map fun path => (path.map Prod.fst, endValue path)).filter
          fun stack => stack.2 ≠ 0 := by
  cases f with
  | nil =>
      have hnames : names [root] = [] := by simp [names, hroot]
      by_cases hzero : endValue [root] = 0
      · simp [Forest.leaves, hzero]
      · simp [Forest.leaves, hzero, hnames]
  | node label kids rest =>
      rw [Forest.leaves_node, Forest.leaves, List.append_nil]
      refine lines_below_root hroot (fun path hpath => ?_) hall
      obtain ⟨root', -, below, rfl⟩ := Forest.root_of_leaf hpath
      exact List.cons_ne_nil _ _

section Through

variable (F) (S) (options) (hfrom : fromFoldedLines lines = some fg)

include hfrom

/-- The frames at the end have the paths that lines begin with, and the samples through them. -/
theorem ends_through {stack : List String × UInt64} (hstack : stack ∈ ends F fg options) :
    stack.2.toNat = through (attributed lines) stack.1 % 2 ^ 64 ∧
      ∃ line ∈ attributed lines, stack.1 <+: line.path := by
  obtain ⟨hroot, -⟩ := root_of_lines hfrom
  obtain ⟨path, hpath, rfl⟩ := List.mem_map.mp hstack
  rw [hroot] at hpath
  obtain ⟨goal, hgoal, hvalue⟩ := node_of_leaf sound_tree hpath
  refine ⟨?_, ?_⟩
  · rw [← hvalue]
    exact value_of_nodeAt hgoal
  · have hsome : (valueAt (path.map Prod.fst) (tree (attributed lines))).isSome := by
      rw [valueAt, hgoal]
      rfl
    rcases (valueAt_isSome _).mp hsome with hnil | hline
    · obtain ⟨label, -, below, rfl⟩ := Forest.root_of_leaf hpath
      exact absurd hnil (List.cons_ne_nil _ _)
    · rwa [counted_attributed] at hline

/-- One line for each frame at the end, unless its value has overflowed to zero. -/
theorem lines_of_ends (hall : ∀ line ∈ attributed lines, "all" ∉ line.path) :
    foldedLinesFromFlamegraphJson S (fg.jsonPayload F S options) =
      some (((ends F fg options).filter fun stack => stack.2 ≠ 0).map foldedLine) := by
  have hname : fg.root.name = "all" := by
    rw [(root_of_lines hfrom).1]
    exact tree_name
  have hnot : ∀ path ∈ (drawn F fg.root (F.graphWidth options.kind)).leaves,
      "all" ∉ path.map Prod.fst := by
    intro path hpath hmem
    obtain ⟨-, line, hline, hbegins⟩ := ends_through F options hfrom
      (List.mem_map_of_mem hpath)
    exact hall line hline (hbegins.subset hmem)
  unfold foldedLinesFromFlamegraphJson Graph.jsonPayload
  rw [S.from_str_to_string]
  dsimp only
  rw [stacksOf_number payload_entries, leaves_of_root hname hnot]
  rfl

omit hfrom in
theorem samples_cons {stack : List String × UInt64} {found : List (List String × UInt64)}
    {path : List String} : samples (stack :: found) path =
      (if stack.1 = path then stack.2.toNat else 0) + samples found path := by
  by_cases h : stack.1 = path <;> simp [samples, h]

omit hfrom in
/-- Frames whose value is zero add nothing. -/
theorem samples_filter (found : List (List String × UInt64)) (path : List String) :
    samples (found.filter fun stack => stack.2 ≠ 0) path = samples found path := by
  induction found with
  | nil => rfl
  | cons stack rest ih =>
      by_cases hzero : stack.2 = 0
      · rw [List.filter_cons_of_neg (by simpa using hzero), ih, samples_cons, hzero]
        simp
      · rw [List.filter_cons_of_pos (by simpa using hzero), samples_cons, samples_cons, ih]

omit hfrom in
theorem sum_filter (found : List (List String × UInt64)) :
    ((found.filter fun stack => stack.2 ≠ 0).map (·.2.toNat)).sum =
      (found.map (·.2.toNat)).sum := by
  induction found with
  | nil => rfl
  | cons stack rest ih =>
      by_cases hzero : stack.2 = 0
      · rw [List.filter_cons_of_neg (by simpa using hzero), ih, List.map_cons, List.sum_cons, hzero]
        exact (Nat.zero_add _).symm
      · rw [List.filter_cons_of_pos (by simpa using hzero), List.map_cons, List.sum_cons, ih,
          List.map_cons, List.sum_cons]

/-- No frame at the end is above another one. -/
theorem ends_apart : ((ends F fg options).map Prod.fst).Pairwise
    fun p q => ¬ p <+: q ∧ ¬ q <+: p := by
  have hsound : fg.root.Sound := by
    rw [(root_of_lines hfrom).1]
    exact sound_tree
  have hdistinct : (drawn F fg.root (F.graphWidth options.kind)).Distinct Prod.fst :=
    distinct_drawn hsound
  rw [ends, List.map_map]
  exact Forest.leaves_apart hdistinct

theorem ends_nodup : ((ends F fg options).map Prod.fst).Nodup := by
  refine (ends_apart F options hfrom).imp fun {p q} h heq => h.1 ?_
  rw [heq]

/-- A line whose path begins with that of an end has this path, when lines go on to ends. -/
theorem eq_of_begins (hends : AllEnd F fg options lines)
    {path : List String} (hpath : path ∈ (ends F fg options).map Prod.fst)
    {line : AttributedFoldedLine} (hline : line ∈ attributed lines) (hbegins : path <+: line.path) :
    line.path = path := by
  by_contra hne
  have hapart := ends_apart F options hfrom
  have hsymm : Std.Symm fun p q : List String => ¬ p <+: q ∧ ¬ q <+: p := ⟨fun _ _ h => ⟨h.2, h.1⟩⟩
  exact (hapart.forall hpath (hends line hline) (Ne.symm hne)).1 hbegins

theorem through_eq_own (hends : AllEnd F fg options lines)
    {path : List String} (hpath : path ∈ (ends F fg options).map Prod.fst) :
    through (attributed lines) path = own (attributed lines) path := by
  rw [through, own, counted_attributed]
  refine congrArg (fun l : List AttributedFoldedLine => (l.map (·.count.toNat)).sum)
    (List.filter_congr fun line hline => ?_)
  refine decide_eq_decide.mpr
    ⟨fun hbegins => eq_of_begins F options hfrom hends hpath hline hbegins, ?_⟩
  rintro rfl
  exact List.prefix_rfl

/-- Where every line goes on to an end, each path has its own samples. -/
theorem samples_ends (hends : AllEnd F fg options lines)
    (path : List String) :
    samples (ends F fg options) path = own (attributed lines) path % 2 ^ 64 := by
  have hnodup := ends_nodup F options hfrom
  by_cases hpath : path ∈ (ends F fg options).map Prod.fst
  · obtain ⟨stack, hstack, rfl⟩ := List.mem_map.mp hpath
    rw [samples, Core.Keyed.filter_of_mem hnodup hstack, List.map_singleton, List.sum_singleton,
      (ends_through F options hfrom hstack).1, through_eq_own F options hfrom hends hpath]
  · have hnone : (ends F fg options).filter (fun stack => stack.1 = path) = [] :=
      List.filter_eq_nil_iff.mpr fun stack hstack heq =>
        hpath (List.mem_map.mpr ⟨stack, hstack, of_decide_eq_true heq⟩)
    have hown : (counted (attributed lines)).filter (fun line => line.path = path) = [] := by
      rw [counted_attributed]
      exact List.filter_eq_nil_iff.mpr fun line hline heq =>
        hpath (of_decide_eq_true heq ▸ hends line hline)
    rw [samples, hnone, own, hown]
    rfl

/-- And the samples sum up to the total. -/
theorem sum_ends (hends : AllEnd F fg options lines) :
    ((ends F fg options).map (·.2.toNat)).sum % 2 ^ 64 = fg.total.toNat := by
  obtain ⟨hroot, htotal⟩ := root_of_lines hfrom
  have hnodup := ends_nodup F options hfrom
  have hvalues : (ends F fg options).map (·.2.toNat) =
      (((ends F fg options).map Prod.fst).map fun path => own (attributed lines) path).map
        (· % 2 ^ 64) := by
    rw [List.map_map, List.map_map]
    refine List.map_congr_left fun stack hstack => ?_
    rw [(ends_through F options hfrom hstack).1,
      through_eq_own F options hfrom hends (List.mem_map_of_mem hstack)]
    rfl
  have hsum : (((ends F fg options).map Prod.fst).map fun path => (((attributed lines).filter
      fun line => some line.path = some path).map fun line => line.count.toNat).sum).sum = _ :=
    Core.Keyed.sum_keys hnodup (fun line : AttributedFoldedLine => line.count.toNat)
      fun line hline path heq => Option.some.inj heq ▸ hends line hline
  calc
    ((ends F fg options).map (·.2.toNat)).sum % 2 ^ 64
      = (((ends F fg options).map Prod.fst).map
          fun path => own (attributed lines) path).sum % 2 ^ 64 := by
        rw [hvalues, ← List.sum_nat_mod]
    _ = ((attributed lines).map (·.count.toNat)).sum % 2 ^ 64 := by
        simp only [Option.some.injEq, Option.isSome_some, List.filter_true] at hsum
        rw [← hsum]
        simp only [own, counted_attributed]
    _ = fg.total.toNat := by
        have hnode : nodeAt [] (tree (attributed lines)) = some _ := rfl
        have hvalue : (tree (attributed lines)).value.toNat = _ := value_of_nodeAt hnode
        rw [htotal, hroot, hvalue, through, counted_attributed]
        simp

/-- Every node has the samples of the lines through it. Of lines without a frame named as the root,
the JSON gives back those of the frames with nothing drawn under them, each with the samples of all
lines through it; and where every line goes on to such a frame, each path has its own samples, which
sum up to the total. Samples are counted in 64 bits. -/
theorem lines_through_json :
    (∀ path node, nodeAt path fg.root = some node →
      node.value.toNat = through (attributed lines) path % 2 ^ 64) ∧
    ((∀ line ∈ attributed lines, "all" ∉ line.path) →
      ∃ found, foldedLinesFromFlamegraphJson S (fg.jsonPayload F S options) =
          some (found.map foldedLine) ∧
        (found = (ends F fg options).filter fun stack => stack.2 ≠ 0) ∧
        (∀ stack ∈ found, stack.2.toNat = through (attributed lines) stack.1 % 2 ^ 64) ∧
        (AllEnd F fg options lines →
          (∀ path, samples found path = own (attributed lines) path % 2 ^ 64) ∧
          (found.map (·.2.toNat)).sum % 2 ^ 64 = fg.total.toNat)) := by
  refine ⟨fun path node hnode => ?_,
    fun hall => ⟨_, lines_of_ends F S options hfrom hall, rfl, ?_, ?_⟩⟩
  · rw [(root_of_lines hfrom).1] at hnode
    exact value_of_nodeAt hnode
  · exact fun stack hstack => (ends_through F options hfrom (List.mem_filter.mp hstack).1).1
  · intro hends
    refine ⟨fun path => ?_, ?_⟩
    · rw [samples_filter, samples_ends F options hfrom hends]
    · rw [sum_filter, sum_ends F options hfrom hends]

end Through

/-- Widths that are whole numbers. -/
def wholeFloats : Floats ℕ where
  zero := 0
  add := (· + ·)
  per width value := width / value.toNat
  times value scale := value.toNat * scale
  narrow width := width = 0
  wide width := decide (0 < width)
  graphWidth kind := match kind with
    | .Classic => 1200
    | .TorchModule => 1400
  frameHeight kind := match kind with
    | .Classic => 18
    | .TorchModule => 32

/-- A text that keeps what is read of it. -/
def plainSerde (W : Type) : Serde W (List JsonFrame) where
  toString p := p.frames.map PlacedFrame.read
  fromStr := some
  from_str_to_string _ := rfl

def classic : FlamegraphOptions := ⟨"T", "samples", .Classic, "", none, none⟩

/-- One line, whose path ends in a frame with nothing under it. -/
theorem one_attr : attributed ["thread-1;leaf 4"] = [⟨["thread-1", "leaf"], 4, []⟩] := by decide

def oneGraph : Graph := ⟨⟨"all", 4, [], [⟨"thread-1", 4, [], [⟨"leaf", 4, [], []⟩]⟩]⟩, 4⟩

theorem oneGraph_from : fromFoldedLines ["thread-1;leaf 4"] = some oneGraph := by
  rw [fromFoldedLines, one_attr]
  rfl

theorem one_line_through_json : ∃ fg, fromFoldedLines ["thread-1;leaf 4"] = some fg ∧
    ∃ found, foldedLinesFromFlamegraphJson (plainSerde ℕ)
        (fg.jsonPayload wholeFloats (plainSerde ℕ) classic) = some (found.map foldedLine) ∧
      (∀ path, samples found path = own (attributed ["thread-1;leaf 4"]) path % 2 ^ 64) ∧
      (found.map (·.2.toNat)).sum % 2 ^ 64 = fg.total.toNat := by
  have hall : ∀ line ∈ attributed ["thread-1;leaf 4"], "all" ∉ line.path := by
    rw [one_attr]
    decide
  obtain ⟨found, hlines, -, -, hown⟩ := (lines_through_json wholeFloats (plainSerde ℕ)
    classic oneGraph_from).2 hall
  have hends : AllEnd wholeFloats oneGraph classic ["thread-1;leaf 4"] := by
    unfold AllEnd
    rw [one_attr]
    decide
  exact ⟨_, oneGraph_from, found, hlines, hown hends⟩

/-- Two lines, one of which goes on where the other one ends. -/
def prefixLines : List String := ["a 1", "a;b 1"]

def prefixGraph : Graph := ⟨⟨"all", 2, [], [⟨"a", 2, [], [⟨"b", 1, [], []⟩]⟩]⟩, 2⟩

theorem prefix_attr : attributed prefixLines = [⟨["a"], 1, []⟩, ⟨["a", "b"], 1, []⟩] := by decide

/-- The samples that end above others do not come back. -/
theorem prefix_samples_lost : ¬ ∀ lines fg, fromFoldedLines lines = some fg →
    ∃ returned, foldedLinesFromFlamegraphJson (plainSerde ℕ)
        (fg.jsonPayload wholeFloats (plainSerde ℕ) classic) = some returned ∧
      ∀ path, own (attributed returned) path = own (attributed lines) path := by
  intro h
  have hfrom : fromFoldedLines prefixLines = some prefixGraph := by
    rw [fromFoldedLines, prefix_attr]
    rfl
  obtain ⟨returned, hreturned, hown⟩ := h prefixLines _ hfrom
  have hlines : some returned = some ["a;b 1"] := hreturned.symm.trans (by decide)
  obtain rfl := Option.some.inj hlines
  have hb : attributed ["a;b 1"] = [⟨["a", "b"], 1, []⟩] := by decide
  have hlost := hown ["a"]
  rw [hb, prefix_attr] at hlost
  exact absurd hlost (by decide)

end Probing.Stacktrace.Flamegraph
