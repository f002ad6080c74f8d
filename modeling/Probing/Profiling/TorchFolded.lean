import Mathlib.Algebra.Order.Ring.Rat
import Mathlib.Data.Prod.Lex
import Probing.Stacktrace.Fold

/-!
# Folded lines of module times

A row has a module, the label of a hook and a value. The values of the modules of a phase become
the lines of a flamegraph: the value of a module is taken away from the value of the module it is
directly in, when that one is there already.
-/

namespace Probing.Profiling.TorchFolded

open Probing.Core.Keyed (get update modify gather)
open Probing.Core (trim)
open Probing.Stacktrace (startsWith)

structure Frame where
  stage : String
  module : String
  deriving DecidableEq

/-- Frames are ordered by their stage and then by their module. -/
def Frame.key (f : Frame) : String ×ₗ String := toLex (f.stage, f.module)

structure Row where
  module : String
  stage : String
  value : ℚ
  deriving DecidableEq

/-- Map stored hook labels to flamegraph phase names. -/
def normalizePostStage (stage : String) : Option String :=
  let label := String.ofList (trim stage.toList)
  if label = "post forward" then some "forward"
  else if label = "post backward" then some "backward"
  else if label = "post step" then some "step"
  else none

/-- `module.split('.')`. -/
def parts (module : String) : List String := (module.toList.splitOn '.').map String.ofList

/-- `parts.join(".")`. -/
def join (parts : List String) : String :=
  String.ofList (['.'].intercalate (parts.map String.toList))

/-- The module a module is directly in, in the same phase. -/
def Frame.parent (f : Frame) : Option Frame :=
  if 1 < (parts f.module).length then some { f with module := join (parts f.module).dropLast }
  else none

def isLeafModule (module : String) (all_modules : List String) : Bool :=
  !all_modules.any fun other => other != module && startsWith other (module ++ ".")

def backwardModuleNames (rows : List Row) : List String :=
  rows.filterMap fun row =>
    if normalizePostStage row.stage = some "backward" then some row.module else none

def filterBackwardLeafRows (rows : List Row) : List Row :=
  let backward_names := backwardModuleNames rows
  if backward_names.isEmpty then rows
  else rows.filter fun row => decide (normalizePostStage row.stage ≠ some "backward") ||
    isLeafModule row.module backward_names

/-- `and_modify(|total| *total += value).or_insert(value)`. -/
def plus (value : ℚ) : Option ℚ → ℚ
  | some total => total + value
  | none => value

/-- A value is added to that of its frame, and taken away from that of the parent, when the parent
has one. -/
def addValue (frames : List (Frame × ℚ)) (frame : Frame) (value : ℚ) : List (Frame × ℚ) :=
  let frames := update (plus value) frames frame
  match frame.parent with
  | some parent => modify (· - value) frames parent
  | none => frames

/-- One turn of the loop over the rows. -/
def addRow (clamp_non_negative : Bool) (frames : List (Frame × ℚ)) (row : Row) :
    List (Frame × ℚ) :=
  match normalizePostStage row.stage with
  | none => frames
  | some phase =>
      let value := if clamp_non_negative then max row.value 0 else row.value
      if value ≤ 0 then frames else addValue frames ⟨phase, row.module⟩ value

/-- The frames that get a line, with the values that the lines carry before they are rounded. -/
def foldedFrames (rows : List Row) (clamp_non_negative : Bool) : List (Frame × ℚ) :=
  let frames := (filterBackwardLeafRows rows).foldl (addRow clamp_non_negative) []
  (frames.insertionSort fun a b => a.1.key ≤ b.1.key).filterMap fun (frame, value) =>
    let adjusted := if clamp_non_negative then max value 0 else value
    if adjusted ≤ 0 then none else some (frame, adjusted)

def foldedLine (to_units : ℚ → UInt64) : Frame × ℚ → Option String := fun (frame, adjusted) =>
  let units := to_units adjusted
  if units = 0 then none
  else some (frame.stage ++ ";" ++ String.join ((parts frame.module).map (· ++ ";")) ++ " " ++
    toString units)

def buildFoldedLines (rows : List Row) (to_units : ℚ → UInt64) (clamp_non_negative : Bool) :
    List String :=
  (foldedFrames rows clamp_non_negative).filterMap (foldedLine to_units)

/-- The middle of the sorted values, or the mean of the two in the middle. -/
def median (values : List ℚ) : ℚ :=
  let sorted := values.insertionSort (· ≤ ·)
  let mid := sorted.length / 2
  if sorted = [] then 0
  else if sorted.length % 2 = 0 then (sorted.getD (mid - 1) 0 + sorted.getD mid 0) / 2
  else sorted.getD mid 0

/-- The rows that `lines_from_value_rows` makes of the rows of a query, one for each module and
stage. The hash map they are taken from returns them in any order. -/
def valueRows (data : List Row) : List Row :=
  let grouped := gather
    (fun row : Row => if 0 < row.value then some (row.module, row.stage) else none)
    (fun row values => values.getD [] ++ [row.value]) data
  (grouped.map fun (key, values) => Row.mk key.1 key.2 (median values)).filter
    fun row => decide (0 < row.value)

/-- What of a row is counted as a measurement. -/
def measurement (row : Row) : Option (Frame × ℚ) :=
  (normalizePostStage row.stage).bind fun phase =>
    if row.value ≤ 0 then none else some (⟨phase, row.module⟩, row.value)

variable {rows rows' : List Row} {row : Row} {frames : List (Frame × ℚ)} {f g : Frame}
  {clamp : Bool} {value : ℚ}

theorem addRow_eq : addRow clamp frames row = match measurement row with
    | some (frame, value) => addValue frames frame value
    | none => frames := by
  have hpos : max row.value 0 ≤ 0 ↔ row.value ≤ 0 := by simp
  unfold addRow measurement
  cases hphase : normalizePostStage row.stage with
  | none => rfl
  | some phase =>
      rw [Option.bind_some]
      by_cases h : row.value ≤ 0
      · cases clamp <;> simp [h]
      · have hmax : max row.value 0 = row.value := max_eq_left (le_of_lt (not_le.mp h))
        cases clamp <;> simp [h, hmax]

end Probing.Profiling.TorchFolded
