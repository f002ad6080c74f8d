import Probing.Stacktrace.Fold

/-!
# Flamegraphs

Folded lines become a tree in which every node has the sum of the counts of the lines through it.
The tree is laid out as frames, which the web page gets as JSON, and folded lines are made of such
JSON again. Widths are floats: what the layout does with them is a parameter.
-/

namespace Probing.Stacktrace.Flamegraph

open Probing.Core (Keyed.find Keyed.set trim)

inductive FlamegraphKind where
  | Classic
  | TorchModule
  deriving DecidableEq

structure FlamegraphOptions where
  title : String
  countName : String
  kind : FlamegraphKind
  subtitle : String
  metric : Option String
  profile : Option String

structure Node where
  name : String
  value : UInt64
  ranks : List ℤ
  children : List Node

def parseFoldedLine (line : String) : Option (List String × UInt64) := do
  let line := trim line.toList
  if line = [] then none
  let (stack, count_str) ← rsplitOnce ' ' line
  let count ← parseU64 count_str
  if count = 0 then none
  let frames := (stack.splitOn ';').filter fun part => !part.isEmpty
  if frames = [] then none
  return (frames.map String.ofList, count)

/-- The children of a node have different names, so that the one that is found is the one that is
put back. -/
def insertPath (value : UInt64) (ranks : List ℤ) : List String → Node → Node
  | [], node =>
      { node with value := node.value + value
                  ranks := ranks.foldl (fun all r => insertRank r all) node.ranks }
  | head :: rest, node =>
      let child := (Keyed.find Node.name node.children head).getD ⟨head, 0, [], []⟩
      { node with value := node.value + value
                  ranks := ranks.foldl (fun all r => insertRank r all) node.ranks
                  children := Keyed.set Node.name node.children
                    (insertPath value ranks rest child) }

structure Graph where
  root : Node
  total : UInt64

/-- The tree of the lines. -/
def tree (lines : List AttributedFoldedLine) : Node :=
  lines.foldl (fun root line =>
    if line.count = 0 ∨ line.path = [] then root
    else insertPath line.count line.ranks line.path root) ⟨"all", 0, [], []⟩

def fromAttributedFoldedLines (lines : List AttributedFoldedLine) : Option Graph :=
  let root := tree lines
  if root.value = 0 then none else some ⟨root, root.value⟩

/-- The lines that can be read, without ranks. -/
def attributed (lines : List String) : List AttributedFoldedLine :=
  lines.filterMap fun line => (parseFoldedLine line).map fun (path, count) => ⟨path, count, []⟩

def fromFoldedLines (lines : List String) : Option Graph :=
  fromAttributedFoldedLines (attributed lines)

structure PlacedFrame (W : Type) where
  id : ℕ
  parent : Option ℕ
  name : String
  value : UInt64
  x : W
  y : W
  w : W
  depth : ℕ
  ranks : List ℤ

/-- The arithmetic of widths, and the constants of the page: `per` is `width / value as f64`, and
`times` is `value as f64 * scale`. A width is compared with `MIN_RENDER_WIDTH` in both ways. -/
structure Floats (W : Type) where
  zero : W
  add : W → W → W
  per : W → UInt64 → W
  times : UInt64 → W → W
  narrow : W → Bool
  wide : W → Bool
  graphWidth : FlamegraphKind → W
  frameHeight : FlamegraphKind → W

structure LayoutCtx (W : Type) where
  frames : List (PlacedFrame W)
  nextId : ℕ

/-- A child with the layout of what is under it, for the parent, the depth and the place it gets. -/
structure Child (W : Type) where
  value : UInt64
  name : String
  layout : Option ℕ → ℕ → W → W → W → LayoutCtx W → LayoutCtx W

/-- The greater value first, then by name. -/
def Child.le {W : Type} (a b : Child W) : Prop :=
  b.value < a.value ∨ a.value = b.value ∧ a.name ≤ b.name

instance {W : Type} (a b : Child W) : Decidable (a.le b) := inferInstanceAs (Decidable (_ ∨ _))

variable {W : Type}

/-- The loop over the sorted children, with the place of the next one. -/
def placeChildren (F : Floats W) (id depth : ℕ) (y scale : W) :
    List (Child W) → W → LayoutCtx W → LayoutCtx W
  | [], _, ctx => ctx
  | child :: rest, child_x, ctx =>
      let child_w := F.times child.value scale
      if F.wide child_w then
        placeChildren F id depth y scale rest (F.add child_x child_w)
          (child.layout (some id) (depth + 1) child_x y child_w ctx)
      else placeChildren F id depth y scale rest child_x ctx

mutual

def layoutNode (F : Floats W) (frameHeight : W) :
    Node → Option ℕ → ℕ → W → W → W → LayoutCtx W → LayoutCtx W
  | ⟨name, value, ranks, children⟩, parent_id, depth, x, y, width, ctx =>
      let id := ctx.nextId
      let ctx : LayoutCtx W :=
        ⟨ctx.frames ++ [⟨id, parent_id, name, value, x, y, width, depth, ranks⟩], id + 1⟩
      if value = 0 ∨ F.narrow width then ctx
      else
        let sorted := (layoutChildren F frameHeight children).insertionSort Child.le
        placeChildren F id depth (F.add y frameHeight) (F.per width value) sorted x ctx

/-- The children, each with its layout. -/
def layoutChildren (F : Floats W) (frameHeight : W) : List Node → List (Child W)
  | [] => []
  | child :: rest =>
      ⟨child.value, child.name, layoutNode F frameHeight child⟩ ::
        layoutChildren F frameHeight rest

end

def Graph.layoutFrames (F : Floats W) (fg : Graph) (frameHeight graphWidth : W) :
    List (PlacedFrame W) :=
  (layoutNode F frameHeight fg.root none 0 F.zero F.zero graphWidth ⟨[], 0⟩).frames

/-- What the page gets. -/
structure Payload (W : Type) where
  profile : String
  title : String
  subtitle : String
  countName : String
  total : UInt64
  width : W
  frameHeight : W
  frames : List (PlacedFrame W)
  metric : Option String

def Graph.payload (F : Floats W) (fg : Graph) (options : FlamegraphOptions) : Payload W where
  profile := options.profile.getD (match options.kind with
    | .TorchModule => if options.countName = "samples" then "cpu-stack" else "torch-module"
    | .Classic => "classic")
  title := options.title
  subtitle := options.subtitle
  countName := options.countName
  total := fg.total
  width := F.graphWidth options.kind
  frameHeight := F.frameHeight options.kind
  frames := fg.layoutFrames F (F.frameHeight options.kind) (F.graphWidth options.kind)
  metric := options.metric

/-- What is read of a frame. -/
structure JsonFrame where
  id : ℕ
  parent : Option ℕ
  name : String
  value : UInt64
  deriving DecidableEq

def PlacedFrame.read (f : PlacedFrame W) : JsonFrame := ⟨f.id, f.parent, f.name, f.value⟩

/-- The serializer: what it writes of a payload is read as the frames of the payload. -/
structure Serde (W Text : Type) where
  toString : Payload W → Text
  fromStr : Text → Option (List JsonFrame)
  from_str_to_string : ∀ p, fromStr (toString p) = some (p.frames.map PlacedFrame.read)

def Graph.jsonPayload {Text : Type} (F : Floats W) (S : Serde W Text) (fg : Graph)
    (options : FlamegraphOptions) : Text := S.toString (fg.payload F options)

/-- The loop up from a leaf, which does not end where the parents go round. -/
def walk (byId : ℕ → Option JsonFrame) : ℕ → Option ℕ → Option (List String)
  | _, none => some []
  | 0, some _ => none
  | turns + 1, some id => match byId id with
    | none => some []
    | some frame => (walk byId turns frame.parent).map fun path =>
        if frame.name ≠ "all" then frame.name :: path else path

/-- The lines before they are written out. The names of a path are collected from the leaf up. Of
several frames with one id, the map has the last. -/
def stacksFromFrames (frames : List JsonFrame) : Option (List (List String × UInt64)) :=
  let byId := Keyed.find JsonFrame.id frames.reverse
  let leaves := frames.filter fun f => !frames.any fun g => g.parent == some f.id
  ((leaves.filter fun leaf => leaf.value ≠ 0).mapM fun leaf =>
    (walk byId (frames.length + 1) (some leaf.id)).map fun path => (path.reverse, leaf.value)).map
      fun found => found.filter fun stack => stack.1 ≠ []

def foldedLine (stack : List String × UInt64) : String := join stack.1 ++ " " ++ toString stack.2

/-- `none` where the loop over the parents does not end. -/
def foldedLinesFromFlamegraphJson {Text : Type} (S : Serde W Text) (body : Text) :
    Option (List String) :=
  match S.fromStr body with
  | none => some []
  | some frames => (stacksFromFrames frames).map fun found => found.map foldedLine

end Probing.Stacktrace.Flamegraph
