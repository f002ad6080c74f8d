import Mathlib.Data.List.Flatten
import Mathlib.Data.List.Induction
import Probing.Core.TsRange
import Probing.Proto.Seq

/-!
# Merging result frames

The frames of the nodes are appended one after the other, column by column. An element
that a column does not take is dropped, and the rest of the column moves up.
-/

namespace Probing.Proto

open Probing.Core

structure DataFrame where
  names : List String
  cols : List Seq
  size : ℕ
  deriving DecidableEq

namespace DataFrame

variable (df : DataFrame)

def rowCount : ℕ := (df.cols.map Seq.len).foldl max 0

def isEmpty : Bool := df.rowCount = 0

/-- `iter().position` of a column name. -/
def colIndex (name : String) : Option ℕ := df.names.findIdx? (· = name)

/-- The element of a row under a column name, `Nil` where the column is missing. -/
def ele (name : String) (row : ℕ) : Ele :=
  (((df.colIndex name).bind fun (i : ℕ) => df.cols[i]?).map fun c => c.get row).getD .Nil

end DataFrame

/-- `let _ = col.append(ele)`. -/
def appendIgnored (col : Seq) (ele : Ele) : Seq :=
  match col.append ele with
  | .ok col' => col'
  | .error _ => col

/-- A column for every name of the other frame. -/
def addColumns (base other : DataFrame) : DataFrame :=
  other.names.foldl (fun b name =>
    if name ∈ b.names then b
    else
      { b with
        names := b.names ++ [name]
        cols := b.cols ++ [.SeqText (List.replicate b.rowCount "")] }) base

def appendDataframe (base other : DataFrame) : DataFrame :=
  if other.isEmpty then base
  else if base.isEmpty then other
  else
    let named := addColumns base other
    let cols := named.cols.mapIdx fun colIdx col =>
      match named.names[colIdx]? with
      | some name =>
          (List.range other.rowCount).foldl
          (fun col row => appendIgnored col (other.ele name row)) col
      | none => col
    { named with cols := cols, size := (cols.map Seq.len).foldl max 0 }

def mergeDataframes (parts : List DataFrame) : DataFrame :=
  let out := parts.foldl (fun out df =>
    if df.isEmpty then out else if out.isEmpty then df else appendDataframe out df) ⟨[], [], 0⟩
  { out with size := out.rowCount }

namespace DataFrame

/-- Every column has a name and as many rows as the frame. -/
structure Rectangular (df : DataFrame) : Prop where
  width : df.cols.length = df.names.length
  height : ∀ c ∈ df.cols, c.len = df.rowCount

/-- The column at an index has this name. -/
def Column (df : DataFrame) (name : String) (c : Seq) : Prop :=
  ∃ i : ℕ, df.names[i]? = some name ∧ df.cols[i]? = some c

end DataFrame

/-- Every cell of a part is found under its name at the offset of the part, and columns
that a part does not have read as missing there. -/
structure Merges (parts : List DataFrame) (out : DataFrame) : Prop where
  rectangular : out.Rectangular
  rows : out.rowCount = (parts.map DataFrame.rowCount).sum
  present : ∀ pre p post, parts = pre ++ p :: post → p.isEmpty = false →
    ∀ name ∈ p.names, name ∈ out.names
  cell : ∀ pre p post, parts = pre ++ p :: post → ∀ row < p.rowCount, ∀ name c d,
    p.Column name c → out.Column name d → d.get ((pre.map DataFrame.rowCount).sum + row) = c.get row
  missing : ∀ pre p post, parts = pre ++ p :: post → ∀ row < p.rowCount, ∀ name d,
    name ∉ p.names → out.Column name d → d.get ((pre.map DataFrame.rowCount).sum + row) = .Nil

/-- Columns of the same name have the same elements. -/
def Consistent (p : DataFrame) : Prop :=
  ∀ name c d, p.Column name c → p.Column name d → c.eles = d.eles

/-- The parts with rows have the same columns with the same types, and none of them is
boolean once there are two such parts. -/
def Compatible (parts : List DataFrame) : Prop :=
  match parts.filter fun p => !p.isEmpty with
  | [] => True
  | first :: rest =>
      Consistent first ∧ ∀ p ∈ rest, Consistent p ∧ (∀ name, name ∈ p.names ↔ name ∈ first.names) ∧
        ∀ name c d, first.Column name c → p.Column name d → d.dtype = c.dtype ∧ c.dtype ≠ .BOOL

section RowCount

variable {df : DataFrame}

theorem DataFrame.len_le_rowCount {c : Seq} (h : c ∈ df.cols) : c.len ≤ df.rowCount :=
  le_foldl_max 0 (List.mem_map_of_mem h)

theorem DataFrame.rowCount_le {n : ℕ} (h : ∀ c ∈ df.cols, c.len ≤ n) : df.rowCount ≤ n := by
  have hfold (lens : List ℕ) (a : ℕ) (ha : a ≤ n) (hlens : ∀ k ∈ lens, k ≤ n) :
      lens.foldl max a ≤ n := by
    induction lens generalizing a with
    | nil => exact ha
    | cons k lens ih =>
        exact ih (max a k) (max_le ha (hlens k List.mem_cons_self)) fun j hj =>
          hlens j (List.mem_cons_of_mem k hj)
  apply hfold _ _ (Nat.zero_le n)
  intro k hk
  obtain ⟨c, hc, rfl⟩ := List.mem_map.mp hk
  exact h c hc

theorem DataFrame.not_empty_iff : df.isEmpty = false ↔ 0 < df.rowCount := by
  unfold DataFrame.isEmpty
  rw [decide_eq_false_iff_not, Nat.pos_iff_ne_zero]

end RowCount

/-- The elements of a part under a column name. -/
def cells (p : DataFrame) (name : String) : List Ele := (List.range p.rowCount).map (p.ele name)

@[simp] theorem cells_length (p : DataFrame) (name : String) :
    (cells p name).length = p.rowCount := by
  simp [cells]

def grow (col : Seq) (eles : List Ele) : Seq := eles.foldl appendIgnored col

section Grow

variable {col : Seq} {eles more : List Ele} {e : Ele}

theorem grow_append : grow col (eles ++ more) = grow (grow col eles) more := List.foldl_append

/-- The element is taken. -/
def Takes (col : Seq) (e : Ele) : Prop := e.dtype = col.dtype ∧ col.dtype ≠ .BOOL

theorem appendIgnored_takes (htyped : col.dtype ≠ .Nil) (h : Takes col e) :
    (appendIgnored col e).eles = col.eles ++ [e] ∧ (appendIgnored col e).dtype = col.dtype := by
  obtain ⟨col', hok, heles, hdtype⟩ := Seq.append_ok htyped h.1 h.2
  unfold appendIgnored
  rw [hok]
  exact ⟨heles, hdtype⟩

theorem appendIgnored_drops (htyped : col.dtype ≠ .Nil) (h : ¬ Takes col e) :
    appendIgnored col e = col := by
  have herror : col.append e = .error .WrongSequenceType := by
    apply Seq.append_error htyped
    unfold Takes at h
    tauto
  unfold appendIgnored
  rw [herror]

theorem grow_dtype (htyped : col.dtype ≠ .Nil) : (grow col eles).dtype = col.dtype := by
  induction eles using List.reverseRecOn with
  | nil => rfl
  | append_singleton eles e ih =>
      rw [grow_append]
      have htyped' : (grow col eles).dtype ≠ .Nil := by rwa [ih]
      by_cases h : Takes (grow col eles) e
      · exact (appendIgnored_takes htyped' h).2.trans ih
      · exact (congrArg Seq.dtype (appendIgnored_drops htyped' h)).trans ih

theorem grow_len_le (htyped : col.dtype ≠ .Nil) : (grow col eles).len ≤ col.len + eles.length := by
  induction eles using List.reverseRecOn with
  | nil => exact Nat.le_add_right _ _
  | append_singleton eles e ih =>
      have htyped' : (grow col eles).dtype ≠ .Nil := by rwa [grow_dtype htyped]
      rw [grow_append, List.length_append, List.length_singleton]
      change (appendIgnored (grow col eles) e).len ≤ _
      by_cases h : Takes (grow col eles) e
      · have heles := congrArg List.length (appendIgnored_takes htyped' h).1
        rw [List.length_append, Seq.eles_length, Seq.eles_length, List.length_singleton] at heles
        omega
      · rw [appendIgnored_drops htyped' h]
        omega

/-- Elements that are all taken are added in order. -/
theorem grow_eles (htyped : col.dtype ≠ .Nil) (h : ∀ e ∈ eles, Takes col e) :
    (grow col eles).eles = col.eles ++ eles := by
  induction eles using List.reverseRecOn with
  | nil => exact (List.append_nil _).symm
  | append_singleton eles e ih =>
      have hdtype : (grow col eles).dtype = col.dtype := grow_dtype htyped
      have htake : Takes (grow col eles) e := by
        unfold Takes
        rw [hdtype]
        exact h e (by simp)
      have hstep := (appendIgnored_takes (by rwa [hdtype]) htake).1
      rw [grow_append]
      exact hstep.trans (by rw [ih fun x hx => h x (by simp [hx]), List.append_assoc])

/-- A column that has grown by all the elements has taken each of them. -/
theorem takes_of_grow_len (htyped : col.dtype ≠ .Nil)
    (hlen : (grow col eles).len = col.len + eles.length) :
    ∀ e ∈ eles, Takes col e := by
  induction eles using List.reverseRecOn with
  | nil => exact fun e he => nomatch he
  | append_singleton eles e ih =>
      have hdtype : (grow col eles).dtype = col.dtype := grow_dtype htyped
      have hle : (grow col eles).len ≤ col.len + eles.length := grow_len_le htyped
      rw [grow_append, List.length_append, List.length_singleton] at hlen
      change (appendIgnored (grow col eles) e).len = _ at hlen
      by_cases htake : Takes (grow col eles) e
      · have heles := congrArg List.length (appendIgnored_takes (by rwa [hdtype]) htake).1
        rw [List.length_append, Seq.eles_length, Seq.eles_length, List.length_singleton] at heles
        intro x hx
        rcases List.mem_append.mp hx with hx | hx
        · exact ih (by omega) x hx
        · rw [List.mem_singleton.mp hx]
          unfold Takes at htake ⊢
          rwa [hdtype] at htake
      · rw [appendIgnored_drops (by rwa [hdtype]) htake] at hlen
        omega

end Grow

end Probing.Proto
