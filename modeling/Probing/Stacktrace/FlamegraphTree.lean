import Mathlib.Algebra.BigOperators.Group.List.Basic
import Probing.Stacktrace.Flamegraph

/-!
# The values of a flamegraph's nodes

A node is reached from the root by the names on its path. Every node has the sum of the counts of
the lines whose path begins with its own, and there are no other nodes.
-/

namespace Probing.Stacktrace.Flamegraph

open Probing.Core (Keyed.find Keyed.set)

/-- The node at a path. -/
def nodeAt : List String → Node → Option Node
  | [], node => some node
  | head :: rest, node => (Keyed.find Node.name node.children head).bind (nodeAt rest)

/-- Children have different names, all the way down. -/
inductive Node.Sound : Node → Prop
  | mk {node : Node} (names : (node.children.map Node.name).Nodup)
      (below : ∀ child ∈ node.children, child.Sound) : node.Sound

variable {node child : Node} {path rest : List String} {value : UInt64} {ranks : List ℤ}
  {name : String} {lines : List AttributedFoldedLine}

theorem Node.Sound.names (h : node.Sound) : (node.children.map Node.name).Nodup := by
  obtain ⟨hnames, -⟩ := h
  exact hnames

theorem Node.Sound.of_child (h : node.Sound) (hmem : child ∈ node.children) : child.Sound := by
  obtain ⟨-, hbelow⟩ := h
  exact hbelow child hmem

theorem sound_leaf : Node.Sound ⟨name, value, ranks, []⟩ :=
  .mk List.nodup_nil fun _ h => absurd h List.not_mem_nil

/-- The child that a line goes on with, which may be new. -/
def nextChild (node : Node) (name : String) : Node :=
  (Keyed.find Node.name node.children name).getD ⟨name, 0, [], []⟩

theorem nextChild_name : (nextChild node name).name = name := by
  unfold nextChild
  cases hfind : Keyed.find Node.name node.children name with
  | none => rfl
  | some child => exact (Core.Keyed.mem_of_find hfind).2

theorem sound_nextChild (h : node.Sound) : (nextChild node name).Sound := by
  unfold nextChild
  cases hfind : Keyed.find Node.name node.children name with
  | none => exact sound_leaf
  | some child => exact h.of_child (Core.Keyed.mem_of_find hfind).1

@[simp] theorem insertPath_name : (insertPath value ranks path node).name = node.name := by
  cases path <;> rfl

@[simp] theorem insertPath_value :
    (insertPath value ranks path node).value = node.value + value := by
  cases path <;> rfl

theorem insertPath_children : (insertPath value ranks (name :: rest) node).children =
    Keyed.set Node.name node.children (insertPath value ranks rest (nextChild node name)) := rfl

theorem sound_insertPath (h : node.Sound) : (insertPath value ranks path node).Sound := by
  induction path generalizing node with
  | nil => exact .mk h.names fun _ hmem => h.of_child hmem
  | cons name rest ih =>
      refine .mk (Core.Keyed.nodup_set h.names) fun child hmem => ?_
      rw [insertPath_children, (Core.Keyed.perm_set h.names).mem_iff, List.mem_cons] at hmem
      rcases hmem with rfl | hmem
      · exact ih (sound_nextChild h)
      · exact h.of_child (Core.Keyed.erase_sublist.mem hmem)

/-- The value at a path, where there is a node. -/
def valueAt (path : List String) (node : Node) : Option UInt64 :=
  (nodeAt path node).map Node.value

theorem valueAt_nextChild : valueAt path (nextChild node name) =
    if (Keyed.find Node.name node.children name).isSome then valueAt (name :: path) node
    else if path = [] then some 0 else none := by
  unfold valueAt nextChild
  cases hfind : Keyed.find Node.name node.children name with
  | some child =>
      rw [nodeAt, hfind]
      rfl
  | none => cases path <;> rfl

/-- A line adds its count to the nodes on its path, and makes those that are not there. -/
theorem valueAt_insert (h : node.Sound) (goal : List String) :
    valueAt goal (insertPath value ranks path node) =
      if goal <+: path then some ((valueAt goal node).getD 0 + value) else valueAt goal node := by
  induction path generalizing node goal with
  | nil =>
      cases goal with
      | nil => rfl
      | cons name rest => exact (if_neg (by simp)).symm
  | cons head rest ih =>
      cases goal with
      | nil =>
          rw [if_pos List.nil_prefix]
          rfl
      | cons name below =>
          have hname : (insertPath value ranks rest (nextChild node head)).name = head :=
            insertPath_name.trans nextChild_name
          by_cases heq : name = head
          · subst heq
            have hset := Core.Keyed.find_set_self h.names
              (v := insertPath value ranks rest (nextChild node name))
            rw [hname] at hset
            have hgoal : valueAt (name :: below) (insertPath value ranks (name :: rest) node) =
                valueAt below (insertPath value ranks rest (nextChild node name)) := by
              rw [valueAt, nodeAt, insertPath_children, hset]
              rfl
            rw [hgoal, ih (sound_nextChild h), valueAt_nextChild]
            cases hfind : Keyed.find Node.name node.children name with
            | some child => simp [List.cons_prefix_cons]
            | none =>
                have hnone : valueAt (name :: below) node = none := by
                  rw [valueAt, nodeAt, hfind]
                  rfl
                rw [hnone]
                cases below <;> simp [List.cons_prefix_cons]
          · have hset := Core.Keyed.find_set_of_ne h.names
              (v := insertPath value ranks rest (nextChild node head)) (hname ▸ heq)
            have hbegins : ¬ (name :: below) <+: (head :: rest) := fun hp =>
              heq (List.cons_prefix_cons.mp hp).1
            rw [if_neg hbegins, valueAt, nodeAt, insertPath_children, hset]
            rfl

/-- The lines that the tree is made of. -/
def counted (lines : List AttributedFoldedLine) : List AttributedFoldedLine :=
  lines.filter fun line => line.count ≠ 0 ∧ line.path ≠ []

/-- The samples of the lines through a path. -/
def through (lines : List AttributedFoldedLine) (path : List String) : ℕ :=
  (((counted lines).filter fun line => path <+: line.path).map (·.count.toNat)).sum

/-- The tree of lines that all count. -/
def grown (ls : List AttributedFoldedLine) : Node :=
  ls.foldl (fun root line => insertPath line.count line.ranks line.path root) ⟨"all", 0, [], []⟩

theorem tree_eq : tree lines = grown (counted lines) := by
  rw [tree, counted, grown, List.foldl_filter]
  refine List.foldl_ext _ _ _ fun root line _ => ?_
  by_cases hskip : line.count = 0 ∨ line.path = []
  · rw [if_pos hskip, if_neg]
    rcases hskip with h | h <;> simp [h]
  · rw [if_neg hskip, if_pos]
    simpa [not_or] using hskip

theorem grown_append (ls : List AttributedFoldedLine) (line : AttributedFoldedLine) :
    grown (ls ++ [line]) = insertPath line.count line.ranks line.path (grown ls) := by
  rw [grown, List.foldl_append]
  rfl

theorem sound_grown (ls : List AttributedFoldedLine) : (grown ls).Sound := by
  induction ls using List.reverseRecOn with
  | nil => exact sound_leaf
  | append_singleton ls line ih =>
      rw [grown_append]
      exact sound_insertPath ih

theorem sound_tree : (tree lines).Sound := by
  rw [tree_eq]
  exact sound_grown _

theorem tree_name : (tree lines).name = "all" := by
  rw [tree_eq]
  induction counted lines using List.reverseRecOn with
  | nil => rfl
  | append_singleton ls line ih =>
      rw [grown_append]
      exact insertPath_name.trans ih

/-- There is a node at the paths that a line begins with. -/
theorem valueAt_isSome (goal : List String) : (valueAt goal (tree lines)).isSome ↔
    goal = [] ∨ ∃ line ∈ counted lines, goal <+: line.path := by
  rw [tree_eq]
  induction counted lines using List.reverseRecOn with
  | nil => cases goal <;> simp [grown, valueAt, nodeAt, Core.Keyed.find]
  | append_singleton ls line ih =>
      rw [grown_append, valueAt_insert (sound_grown ls)]
      by_cases hbegins : goal <+: line.path
      · rw [if_pos hbegins]
        refine ⟨fun _ => .inr ⟨line, ?_, hbegins⟩, fun _ => rfl⟩
        exact List.mem_append_right _ List.mem_cons_self
      · rw [if_neg hbegins, ih]
        simp [hbegins, or_and_right, exists_or]

/-- The values of the nodes are the samples of the lines through them, as far as 64 bits hold. -/
theorem valueAt_toNat (goal : List String) :
    ((valueAt goal (tree lines)).getD 0).toNat = through lines goal % 2 ^ 64 := by
  rw [tree_eq, through]
  induction counted lines using List.reverseRecOn with
  | nil => cases goal <;> rfl
  | append_singleton ls line ih =>
      rw [grown_append, valueAt_insert (sound_grown ls), List.filter_append]
      by_cases hbegins : goal <+: line.path
      · rw [if_pos hbegins, List.filter_cons_of_pos (by simpa using hbegins), Option.getD_some,
          UInt64.toNat_add, ih, List.map_append, List.sum_append, Nat.mod_add_mod]
        rfl
      · rw [if_neg hbegins, List.filter_cons_of_neg (by simpa using hbegins), ih]
        simp

theorem value_of_nodeAt {goal : List String} (h : nodeAt goal (tree lines) = some node) :
    node.value.toNat = through lines goal % 2 ^ 64 := by
  rw [← valueAt_toNat, valueAt, h]
  rfl

end Probing.Stacktrace.Flamegraph
