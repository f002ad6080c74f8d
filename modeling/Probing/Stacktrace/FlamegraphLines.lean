import Probing.Core.Forest
import Probing.Stacktrace.FlamegraphTree

/-!
# The lines of a flamegraph's frames

The layout draws a part of the tree, and numbers its frames from the root down. The lines that are
made of the frames are those of the drawn nodes with nothing drawn under them, and each has the
value of its node: the samples of all lines that go through it.
-/

namespace Probing.Stacktrace.Flamegraph

open Probing.Core (Forest Keyed.find)
open Probing.Core.Forest (Entry)

theorem Node.induct {P : Node → Prop}
    (h : ∀ node : Node, (∀ child ∈ node.children, P child) → P node) (node : Node) : P node := by
  refine @Node.rec P (fun children => ∀ child ∈ children, P child) ?_ ?_ ?_ node
  · exact fun name value ranks children ih => h _ ih
  · exact fun _ hmem => absurd hmem List.not_mem_nil
  · intro child rest hchild hrest c hmem
    rcases List.mem_cons.mp hmem with rfl | hmem
    · exact hchild
    · exact hrest c hmem

section Drawn

variable {W : Type}

/-- A child with what is drawn under it in a width. -/
structure Sketch (W : Type) where
  value : UInt64
  name : String
  below : W → Forest (String × UInt64)

def Sketch.le (a b : Sketch W) : Prop := b.value < a.value ∨ a.value = b.value ∧ a.name ≤ b.name

instance (a b : Sketch W) : Decidable (a.le b) := inferInstanceAs (Decidable (_ ∨ _))

def drawnRow (F : Floats W) (scale : W) : List (Sketch W) → Forest (String × UInt64)
  | [] => .nil
  | child :: rest =>
      if F.wide (F.times child.value scale) then
        .node (child.name, child.value) (child.below (F.times child.value scale))
          (drawnRow F scale rest)
      else drawnRow F scale rest

mutual

/-- The part of a tree that is drawn under its root in a width. -/
def drawn (F : Floats W) : Node → W → Forest (String × UInt64)
  | ⟨_, value, _, children⟩, width =>
      if value = 0 ∨ F.narrow width then .nil
      else drawnRow F (F.per width value) ((sketches F children).insertionSort Sketch.le)

def sketches (F : Floats W) : List Node → List (Sketch W)
  | [] => []
  | child :: rest => ⟨child.value, child.name, drawn F child⟩ :: sketches F rest

end

def Node.le (a b : Node) : Prop := b.value < a.value ∨ a.value = b.value ∧ a.name ≤ b.name

instance (a b : Node) : Decidable (a.le b) := inferInstanceAs (Decidable (_ ∨ _))

/-- The children in the order in which they are laid out. -/
def Node.sorted (node : Node) : List Node := node.children.insertionSort Node.le

def Node.sketch (F : Floats W) (node : Node) : Sketch W := ⟨node.value, node.name, drawn F node⟩

def Node.child (F : Floats W) (frameHeight : W) (node : Node) : Child W :=
  ⟨node.value, node.name, layoutNode F frameHeight node⟩

variable (F : Floats W) {frameHeight width : W} {node : Node}

theorem mem_sorted {child : Node} : child ∈ node.sorted ↔ child ∈ node.children :=
  List.mem_insertionSort _

theorem sketches_eq (children : List Node) :
    sketches F children = children.map (Node.sketch F) := by
  induction children with
  | nil => rfl
  | cons child rest ih => rw [sketches, ih]; rfl

theorem layoutChildren_eq (children : List Node) :
    layoutChildren F frameHeight children = children.map (Node.child F frameHeight) := by
  induction children with
  | nil => rfl
  | cons child rest ih => rw [layoutChildren, ih]; rfl

theorem drawn_eq : drawn F node width =
    if node.value = 0 ∨ F.narrow width then .nil
    else drawnRow F (F.per width node.value) (node.sorted.map (Node.sketch F)) := by
  obtain ⟨name, value, ranks, children⟩ := node
  have hsort : (children.map (Node.sketch F)).insertionSort Sketch.le =
      (children.insertionSort Node.le).map (Node.sketch F) :=
    (List.map_insertionSort Node.le Sketch.le (Node.sketch F) children fun _ _ _ _ => Iff.rfl).symm
  rw [drawn, sketches_eq, hsort]
  rfl

theorem layoutNode_eq {parent : Option ℕ} {depth : ℕ} {x y : W} {ctx : LayoutCtx W} :
    layoutNode F frameHeight node parent depth x y width ctx =
      let next : LayoutCtx W := ⟨ctx.frames ++
          [⟨ctx.nextId, parent, node.name, node.value, x, y, width, depth, node.ranks⟩],
        ctx.nextId + 1⟩
      if node.value = 0 ∨ F.narrow width then next
      else placeChildren F ctx.nextId depth (F.add y frameHeight) (F.per width node.value)
        (node.sorted.map (Node.child F frameHeight)) x next := by
  obtain ⟨name, value, ranks, children⟩ := node
  have hsort : (children.map (Node.child F frameHeight)).insertionSort Child.le =
      (children.insertionSort Node.le).map (Node.child F frameHeight) :=
    (List.map_insertionSort Node.le Child.le (Node.child F frameHeight) children
      fun _ _ _ _ => Iff.rfl).symm
  rw [layoutNode, layoutChildren_eq, hsort]
  rfl

def PlacedFrame.entry (f : PlacedFrame W) : Entry (String × UInt64) :=
  ⟨f.id, f.parent, (f.name, f.value)⟩

/-- What a layout adds to the frames is a numbered forest. -/
def Adds (ctx ctx' : LayoutCtx W) (f : Forest (String × UInt64)) (parent : Option ℕ) : Prop :=
  ctx'.nextId = ctx.nextId + f.size ∧
    ctx'.frames.map PlacedFrame.entry =
      ctx.frames.map PlacedFrame.entry ++ f.number parent ctx.nextId

variable {ctx ctx₁ ctx₂ : LayoutCtx W} {label : String × UInt64}
  {kids rest : Forest (String × UInt64)} {parent : Option ℕ}

omit F in
theorem Adds.beside (h : Adds ctx ctx₁ (.node label kids .nil) parent)
    (h' : Adds ctx₁ ctx₂ rest parent) :
    Adds ctx ctx₂ (.node label kids rest) parent := by
  obtain ⟨hid, hframes⟩ := h
  obtain ⟨hid', hframes'⟩ := h'
  have hnext : ctx₁.nextId = ctx.nextId + 1 + kids.size := by
    rw [hid, Forest.size, Forest.size]
    omega
  refine ⟨?_, ?_⟩
  · rw [hid', hnext, Forest.size]
    omega
  · rw [hframes', hframes, hnext]
    simp [Forest.number]

omit F in
theorem Adds.under {frame : PlacedFrame W} (hframe : frame.entry = ⟨ctx.nextId, parent, label⟩)
    (h : Adds ⟨ctx.frames ++ [frame], ctx.nextId + 1⟩ ctx₁ kids (some ctx.nextId)) :
    Adds ctx ctx₁ (.node label kids .nil) parent := by
  obtain ⟨hid, hframes⟩ := h
  refine ⟨?_, ?_⟩
  · rw [hid, Forest.size, Forest.size]
    dsimp only
    omega
  · rw [hframes, List.map_append, List.map_singleton, hframe]
    simp [Forest.number]

theorem adds_row {children : List Node} {id depth : ℕ} {y scale : W}
    (ih : ∀ child ∈ children, ∀ parent depth x y width (ctx : LayoutCtx W),
      Adds ctx (layoutNode F frameHeight child parent depth x y width ctx)
        (.node (child.name, child.value) (drawn F child width) .nil) parent)
    (x : W) (ctx : LayoutCtx W) :
    Adds ctx (placeChildren F id depth y scale (children.map (Node.child F frameHeight)) x ctx)
      (drawnRow F scale (children.map (Node.sketch F))) (some id) := by
  induction children generalizing x ctx with
  | nil => exact ⟨rfl, (List.append_nil _).symm⟩
  | cons child rest ihr =>
      have ihr := ihr fun c hc => ih c (List.mem_cons_of_mem _ hc)
      rw [List.map_cons, List.map_cons, placeChildren, drawnRow]
      by_cases hwide : F.wide (F.times child.value scale) = true
      · have hchild := ih child List.mem_cons_self (some id) (depth + 1) x y
          (F.times child.value scale) ctx
        have hchild' : F.wide (F.times (child.child F frameHeight).value scale) = true := hwide
        have hsketch : F.wide (F.times (child.sketch F).value scale) = true := hwide
        rw [if_pos hchild', if_pos hsketch]
        exact hchild.beside (ihr _ _)
      · have hchild' : ¬ F.wide (F.times (child.child F frameHeight).value scale) = true := hwide
        have hsketch : ¬ F.wide (F.times (child.sketch F).value scale) = true := hwide
        rw [if_neg hchild', if_neg hsketch]
        exact ihr x ctx

/-- The layout of a node numbers the node and what is drawn under it. -/
theorem adds_layout (parent : Option ℕ) (depth : ℕ) (x y width : W) (ctx : LayoutCtx W) :
    Adds ctx (layoutNode F frameHeight node parent depth x y width ctx)
      (.node (node.name, node.value) (drawn F node width) .nil) parent := by
  induction node using Node.induct generalizing parent depth x y width ctx with
  | h node ih =>
      rw [layoutNode_eq, drawn_eq]
      let frame : PlacedFrame W :=
        ⟨ctx.nextId, parent, node.name, node.value, x, y, width, depth, node.ranks⟩
      refine Adds.under (show frame.entry = _ from rfl) ?_
      dsimp only
      split
      · exact ⟨rfl, (List.append_nil _).symm⟩
      · exact adds_row F (fun child hc => ih child (mem_sorted.1 hc)) x _

end Drawn

section Paths

/-- The value of the frame at the end of a path. -/
def endValue (path : List (String × UInt64)) : UInt64 := (path.getLast?.map Prod.snd).getD 0

variable {W : Type} {F : Floats W} {width scale : W} {node : Node}
  {path : List (String × UInt64)} {children : List Node}

theorem leaf_of_row (h : path ∈ (drawnRow F scale (children.map (Node.sketch F))).leaves) :
    ∃ child ∈ children, ∃ below, path = (child.name, child.value) :: below ∧
      (below = [] ∨ below ∈ (drawn F child (F.times child.value scale)).leaves) := by
  induction children with
  | nil => exact absurd h List.not_mem_nil
  | cons child rest ih =>
      rw [List.map_cons, drawnRow] at h
      split at h
      · rcases Forest.mem_leaves_node h with hbelow | h
        · exact ⟨child, List.mem_cons_self, hbelow⟩
        · obtain ⟨c, hc, hbelow⟩ := ih h
          exact ⟨c, List.mem_cons_of_mem _ hc, hbelow⟩
      · obtain ⟨c, hc, hbelow⟩ := ih h
        exact ⟨c, List.mem_cons_of_mem _ hc, hbelow⟩

theorem root_of_row {label : String × UInt64}
    (h : label ∈ (drawnRow F scale (children.map (Node.sketch F))).roots) :
    label.1 ∈ children.map Node.name := by
  induction children with
  | nil => exact absurd h List.not_mem_nil
  | cons child rest ih =>
      rw [List.map_cons, drawnRow] at h
      split at h
      · rcases List.mem_cons.mp h with rfl | h
        · exact List.mem_cons_self
        · exact List.mem_cons_of_mem _ (ih h)
      · exact List.mem_cons_of_mem _ (ih h)

theorem Node.Sound.sorted (h : node.Sound) : (node.sorted.map Node.name).Nodup :=
  (((List.perm_insertionSort _ _).map _).nodup_iff).mpr h.names

/-- The path of a leaf is that of a node, which has the value at its end. -/
theorem node_of_leaf (h : node.Sound) (hpath : path ∈ (drawn F node width).leaves) :
    ∃ goal, nodeAt (path.map Prod.fst) node = some goal ∧ goal.value = endValue path := by
  induction node using Node.induct generalizing path width with
  | h node ih =>
      rw [drawn_eq] at hpath
      split at hpath
      · exact absurd hpath List.not_mem_nil
      · obtain ⟨child, hchild, below, rfl, hbelow⟩ := leaf_of_row hpath
        have hchild := mem_sorted.1 hchild
        have hfind := Core.Keyed.find_of_mem h.names hchild
        rw [List.map_cons, nodeAt, hfind]
        rcases hbelow with rfl | hbelow
        · exact ⟨child, rfl, rfl⟩
        · obtain ⟨goal, hgoal, hvalue⟩ := ih child hchild (h.of_child hchild) hbelow
          refine ⟨goal, hgoal, hvalue.trans ?_⟩
          obtain ⟨label, -, under, rfl⟩ := Forest.root_of_leaf hbelow
          rw [endValue, endValue, List.getLast?_cons_cons]

theorem distinct_row (hnames : (children.map Node.name).Nodup)
    (ih : ∀ child ∈ children, ∀ width, (drawn F child width).Distinct Prod.fst) :
    (drawnRow F scale (children.map (Node.sketch F))).Distinct Prod.fst := by
  induction children with
  | nil => exact trivial
  | cons child rest ihr =>
      obtain ⟨hname, hrest⟩ := List.nodup_cons.mp hnames
      have hrow := ihr hrest fun c hc => ih c (List.mem_cons_of_mem _ hc)
      rw [List.map_cons, drawnRow]
      split
      · refine ⟨fun hmem => hname ?_, ih child List.mem_cons_self _, hrow⟩
        obtain ⟨label, hlabel, heq⟩ := List.mem_map.mp hmem
        have hroot := root_of_row hlabel
        rwa [heq] at hroot
      · exact hrow

theorem distinct_drawn (h : node.Sound) : (drawn F node width).Distinct Prod.fst := by
  induction node using Node.induct generalizing width with
  | h node ih =>
      rw [drawn_eq]
      split
      · exact trivial
      · refine distinct_row h.sorted fun child hchild width => ?_
        have hchild := mem_sorted.1 hchild
        exact ih child hchild (h.of_child hchild)

end Paths

section ReadBack

def JsonFrame.entry (f : JsonFrame) : Entry (String × UInt64) := ⟨f.id, f.parent, (f.name, f.value)⟩

/-- The names of a path, without the frames that have the name of the root. -/
def names (path : List (String × UInt64)) : List String :=
  (path.map Prod.fst).filter fun name => name ≠ "all"

variable {byId : ℕ → Option JsonFrame} {turns : ℕ} {frames : List JsonFrame}
  {f : Forest (String × UInt64)}

/-- The loop goes up the entries of the frames. -/
theorem walk_eq (id : Option ℕ) : walk byId turns id =
    (Forest.climb (fun i => (byId i).map JsonFrame.entry) turns id).map names := by
  induction turns generalizing id with
  | zero => cases id <;> rfl
  | succ turns ih =>
      cases id with
      | none => rfl
      | some id =>
          rw [walk, Forest.climb]
          cases byId id with
          | none => rfl
          | some frame =>
              change (walk byId turns frame.parent).map _ =
                ((Forest.climb _ turns frame.parent).map _).map names
              rw [ih, Option.map_map, Option.map_map]
              refine congrArg (Option.map · _) (funext fun path => ?_)
              by_cases hall : frame.name = "all"
              · simp [names, JsonFrame.entry, hall]
              · simp [names, JsonFrame.entry, hall]

theorem mapM_eq_some {α β : Type*} {read : α → Option β} {value : α → β} {l : List α}
    (h : ∀ a ∈ l, read a = some (value a)) : l.mapM read = some (l.map value) := by
  induction l with
  | nil => rfl
  | cons a rest ih =>
      rw [List.mapM_cons, h a List.mem_cons_self, ih fun b hb => h b (List.mem_cons_of_mem _ hb)]
      rfl

/-- The frames that are nobody's parent, and the lines of their paths. -/
theorem stacksOf_number (h : frames.map JsonFrame.entry = f.number none 0) :
    stacksFromFrames frames = some (((f.leaves.filter fun path => endValue path ≠ 0).map
      fun path => (names path, endValue path)).filter fun stack => stack.1 ≠ []) := by
  have hids : (frames.map JsonFrame.id).Nodup := by
    have hnodup : ((f.number none 0).map Entry.id).Nodup := Forest.nodup_number
    rwa [← h, List.map_map] at hnodup
  have hlook : ∀ g ∈ frames, Keyed.find JsonFrame.id frames.reverse g.id = some g := by
    intro g hg
    refine Core.Keyed.find_of_mem ?_ (List.mem_reverse.mpr hg)
    rwa [List.map_reverse, List.nodup_reverse]
  let look (i : ℕ) := (Keyed.find JsonFrame.id frames.reverse i).map JsonFrame.entry
  let way (g : JsonFrame) := (Forest.climb look (frames.length + 1) (some g.id)).getD []
  let low := frames.filter fun g => !frames.any fun d => d.parent == some g.id
  have hsize : f.size = frames.length := by
    have hlength : (f.number none 0).length = f.size := Forest.length_number
    rw [← hlength, ← h, List.length_map]
  have hlow : low.map (fun g => Forest.climb look (frames.length + 1) (some g.id)) =
      f.leaves.map fun path => some path.reverse := by
    have hfound : ∀ e ∈ f.number none 0, look e.id = some e := by
      intro e he
      rw [← h] at he
      obtain ⟨g, hg, rfl⟩ := List.mem_map.mp he
      exact congrArg (Option.map JsonFrame.entry) (hlook g hg)
    have hturns : f.size ≤ frames.length + 1 := by omega
    have hclimbs := Forest.climbs_number hfound hturns
    rw [← hclimbs, Forest.bottom, ← h, List.filter_map, List.map_map]
    refine congrArg (List.map _) (List.filter_congr fun g _ => ?_)
    simp [List.any_map, Function.comp_def, JsonFrame.entry]
  have hways : low.map way = f.leaves.map List.reverse := by
    have hmap := congrArg (List.map (Option.getD · [])) hlow
    simpa [List.map_map, Function.comp_def] using hmap
  have hclimb : ∀ g ∈ low, Forest.climb look (frames.length + 1) (some g.id) = some (way g) := by
    intro g hg
    obtain ⟨path, -, hpath⟩ := List.mem_map.mp (hlow ▸ List.mem_map_of_mem hg)
    simp only [way]
    rw [← hpath]
    rfl
  have hvalue : ∀ g ∈ low, g.value = endValue (way g).reverse := by
    intro g hg
    have hway := hclimb g hg
    have hfound : look g.id = some g.entry :=
      congrArg (Option.map JsonFrame.entry) (hlook g (List.mem_filter.mp hg).1)
    rw [Forest.climb, hfound] at hway
    obtain ⟨above, -, habove⟩ := Option.map_eq_some_iff.mp hway
    rw [← habove]
    simp [endValue, JsonFrame.entry]
  have hread : ∀ g ∈ low.filter fun g : JsonFrame => g.value ≠ 0,
      (walk (Keyed.find JsonFrame.id frames.reverse) (frames.length + 1) (some g.id)).map
        (fun path => (path.reverse, g.value)) =
          some ((names (way g).reverse, endValue (way g).reverse)) := by
    intro g hg
    have hg := (List.mem_filter.mp hg).1
    rw [walk_eq, hclimb g hg, ← hvalue g hg]
    simp [names, List.filter_reverse]
  have hkeep : (low.filter fun g : JsonFrame => g.value ≠ 0) =
      low.filter fun g => endValue (way g).reverse ≠ 0 :=
    List.filter_congr fun g hg => by rw [hvalue g hg]
  have hleaves : f.leaves = low.map fun g => (way g).reverse := by
    have hrev := congrArg (List.map List.reverse) hways
    simpa [List.map_map, Function.comp_def] using hrev.symm
  change Option.map _ ((low.filter fun g : JsonFrame => g.value ≠ 0).mapM _) = _
  have hinner : ((low.map fun g => (way g).reverse).filter fun path => endValue path ≠ 0) =
      (low.filter fun g => endValue (way g).reverse ≠ 0).map fun g => (way g).reverse :=
    List.filter_map
  rw [mapM_eq_some hread, hkeep, hleaves, hinner, List.map_map]
  rfl

end ReadBack

end Probing.Stacktrace.Flamegraph
