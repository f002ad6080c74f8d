import Mathlib.Data.List.Dedup
import Mathlib.Data.List.Sort
import Mathlib.Data.String.Basic
import Probing.Core.Text

/-!
# File names and SQL names of mmap tables

A file of the data directory is listed under the schema and the table its name splits into at the
first dot, a name without a dot under the schema `memtable`. A query for a schema and a table opens
the file with the name of the pair.
-/

namespace Probing.Sql

open Probing.Core (splitOnce splitOnce_eq_none splitOnce_eq_some)

/-- SQL schema of the files whose name has no dot. -/
def defaultUndottedSchema : String := "memtable"

/-- An ASCII letter or digit, or `_`. -/
def wordChar (c : Char) : Bool := c.isAlphanum || c == '_'

def validSchemaHead (s : String) : Bool := !s.toList.isEmpty && s.toList.all wordChar

def validTableTail (s : String) : Bool :=
  !s.toList.isEmpty && !s.toList.contains '/' && !s.toList.contains '\\' &&
    s.toList.all fun c => wordChar c || c == '.'

/-- The schema and the table a file is listed under, unless it is skipped. -/
def classifyMmapBasename (filename : String) : Option (String × String) :=
  if filename.toList.head? = some '.' then none
  else match splitOnce '.' filename.toList with
    | some (head, tail) =>
        if validSchemaHead (.ofList head) && validTableTail (.ofList tail) then
          some (.ofList head, .ofList tail)
        else none
    | none =>
        if validSchemaHead filename then some (defaultUndottedSchema, filename) else none

/-- The file of a schema and a table. -/
def mmapFilenameFor (schema table : String) : String :=
  if schema = defaultUndottedSchema then table else schema ++ "." ++ table

/-- The tables listed under a schema, for the files of the directory. -/
def tablesInSchema (files : List String) (target_schema : String) : List String :=
  ((files.filterMap fun n => (classifyMmapBasename n).bind fun p =>
    if p.1 = target_schema then some p.2 else none).insertionSort (· ≤ ·)).dedup

def mmapTableExists (files : List String) (schema table : String) : Bool :=
  if !validTableTail table then false
  else decide (mmapFilenameFor schema table ∈ files)

/-- The file that is opened for a schema and a table. -/
def tableFile (files : List String) (schema table : String) : Option String :=
  if mmapTableExists files schema table then some (mmapFilenameFor schema table) else none

section Names

variable {s t f : String}

theorem dot_not_word : wordChar '.' = false := by decide

theorem dot_not_mem (h : validSchemaHead s = true) : '.' ∉ s.toList := by
  intro hdot
  simp only [validSchemaHead, Bool.and_eq_true, List.all_eq_true] at h
  exact absurd (h.2 _ hdot) (by simp [dot_not_word])

theorem head_ne_dot (h : validSchemaHead s = true) (rest : List Char) :
    (s.toList ++ rest).head? ≠ some '.' := by
  have hnot := dot_not_mem h
  cases hs : s.toList with
  | nil => simp [validSchemaHead, hs] at h
  | cons c cs =>
      rw [hs] at hnot
      simpa using fun hc : c = '.' => hnot (by simp [hc])

theorem wordChar_ne {c : Char} (h : wordChar c = true) : c ≠ '/' ∧ c ≠ '\\' := by
  constructor <;> (rintro rfl; revert h; decide)

/-- What may be a schema may also be a table. -/
theorem validTableTail_of_head (h : validSchemaHead s = true) : validTableTail s = true := by
  simp only [validSchemaHead, Bool.and_eq_true, List.all_eq_true] at h
  obtain ⟨hne, hall⟩ := h
  simp only [validTableTail, Bool.and_eq_true, hne, true_and, List.all_eq_true, Bool.or_eq_true,
    Bool.not_eq_true', List.contains_eq_mem, decide_eq_false_iff_not]
  exact ⟨⟨fun hmem => (wordChar_ne (hall _ hmem)).1 rfl,
    fun hmem => (wordChar_ne (hall _ hmem)).2 rfl⟩, fun c hc => .inl (hall c hc)⟩

/-- A table without a dot may also be a schema. -/
theorem valid_headOf_tail (h : validTableTail s = true) (hdot : '.' ∉ s.toList) :
    validSchemaHead s = true := by
  simp only [validTableTail, Bool.and_eq_true, List.all_eq_true, Bool.or_eq_true] at h
  obtain ⟨⟨⟨hne, -⟩, -⟩, hall⟩ := h
  simp only [validSchemaHead, Bool.and_eq_true, hne, true_and, List.all_eq_true]
  intro c hc
  refine (hall c hc).resolve_right fun hcdot => hdot ?_
  rwa [← beq_iff_eq.mp hcdot]

/-- A listed file has a dotted name with the pair as its parts, or is undotted and listed under
the default schema. -/
theorem classify_eq_some : classifyMmapBasename f = some (s, t) ↔
    (validSchemaHead s = true ∧ validTableTail t = true ∧ f = s ++ "." ++ t) ∨
      (s = defaultUndottedSchema ∧ f = t ∧ validSchemaHead t = true) := by
  have hjoin : f = s ++ "." ++ t ↔ f.toList = s.toList ++ '.' :: t.toList := by
    rw [← String.toList_inj]
    simp
  constructor
  · intro h
    unfold classifyMmapBasename at h
    by_cases hhead : f.toList.head? = some '.'
    · rw [if_pos hhead] at h
      cases h
    rw [if_neg hhead] at h
    cases hsplit : splitOnce '.' f.toList with
    | none =>
        rw [hsplit] at h
        simp only [Option.ite_none_right_eq_some, Option.some.injEq, Prod.mk.injEq] at h
        obtain ⟨hvalid, rfl, rfl⟩ := h
        exact .inr ⟨rfl, rfl, hvalid⟩
    | some p =>
        rw [hsplit] at h
        simp only [Option.ite_none_right_eq_some, Option.some.injEq, Prod.mk.injEq,
          Bool.and_eq_true] at h
        obtain ⟨⟨hs, ht⟩, rfl, rfl⟩ := h
        refine .inl ⟨hs, ht, ?_⟩
        rw [hjoin, String.toList_ofList, String.toList_ofList]
        exact (splitOnce_eq_some.1 hsplit).2
  · rintro (⟨hs, ht, hf⟩ | ⟨rfl, rfl, hf⟩)
    · rw [hjoin] at hf
      have hsplit : splitOnce '.' f.toList = some (s.toList, t.toList) :=
        splitOnce_eq_some.2 ⟨dot_not_mem hs, hf⟩
      unfold classifyMmapBasename
      rw [if_neg (by rw [hf]; exact head_ne_dot hs _), hsplit]
      simp only [String.ofList_toList, hs, ht, Bool.and_self, if_true]
    · unfold classifyMmapBasename
      rw [if_neg (by simpa using head_ne_dot hf []), splitOnce_eq_none.2 (dot_not_mem hf)]
      simp only [hf, if_true]

theorem default_valid : validSchemaHead defaultUndottedSchema = true := by decide

theorem tail_ne_dotted : t ≠ s ++ "." ++ t := by
  intro h
  have hlength := congrArg (fun x : String => x.toList.length) h
  simp at hlength
  omega

/-- A dotted name whose schema is spelled out as the default one. -/
def Reserved (f : String) : Prop :=
  ∃ t, validTableTail t = true ∧ f = defaultUndottedSchema ++ "." ++ t

/-- The pair a file is listed under leads back to the file unless its name is reserved. -/
theorem filename_eq_iff (h : classifyMmapBasename f = some (s, t)) :
    mmapFilenameFor s t = f ↔ ¬ Reserved f := by
  rcases classify_eq_some.1 h with ⟨hs, ht, rfl⟩ | ⟨rfl, rfl, hf⟩
  · by_cases hdefault : s = defaultUndottedSchema
    · subst hdefault
      simp only [mmapFilenameFor, if_true]
      exact iff_of_false tail_ne_dotted (not_not.mpr ⟨t, ht, rfl⟩)
    · simp only [mmapFilenameFor, if_neg hdefault, true_iff]
      rintro ⟨t', ht', heq⟩
      have hboth := (classify_eq_some.2 (.inl ⟨default_valid, ht', rfl⟩)).symm.trans
        ((congrArg classifyMmapBasename heq).symm.trans h)
      simp only [Option.some.injEq, Prod.mk.injEq] at hboth
      exact hdefault hboth.1.symm
  · simp only [mmapFilenameFor, if_true, true_iff]
    rintro ⟨t', -, heq⟩
    refine dot_not_mem hf ?_
    rw [heq]
    simp

/-- The file of a valid pair is listed under the pair unless the default schema has a dotted
table. -/
theorem classify_filename_iff (hs : validSchemaHead s = true) (ht : validTableTail t = true) :
    classifyMmapBasename (mmapFilenameFor s t) = some (s, t) ↔
      ¬ (s = defaultUndottedSchema ∧ '.' ∈ t.toList) := by
  by_cases hdefault : s = defaultUndottedSchema
  · subst hdefault
    simp only [mmapFilenameFor, if_true, true_and]
    constructor
    · intro h hdot
      rcases classify_eq_some.1 h with ⟨-, -, heq⟩ | ⟨-, -, hvalid⟩
      · exact tail_ne_dotted heq
      · exact dot_not_mem hvalid hdot
    · intro hdot
      exact classify_eq_some.2 (.inr ⟨rfl, rfl, valid_headOf_tail ht hdot⟩)
  · simp only [mmapFilenameFor, hdefault, false_and, not_false_iff, iff_true]
    exact classify_eq_some.2 (.inl ⟨hs, ht, rfl⟩)

/-- Of two files under one pair exactly one has a reserved name. -/
theorem shadows_iff {g : String} (hf : classifyMmapBasename f = some (s, t))
    (hg : classifyMmapBasename g = some (s, t)) : f = g ↔ (Reserved f ↔ Reserved g) := by
  constructor
  · rintro rfl
    exact Iff.rfl
  · intro hsame
    by_cases hreserved : Reserved f
    · obtain ⟨t', ht', hft⟩ := hreserved
      obtain ⟨u, hu, hgu⟩ := hsame.mp ⟨t', ht', hft⟩
      rw [hft, classify_eq_some.2 (.inl ⟨default_valid, ht', rfl⟩)] at hf
      rw [hgu, classify_eq_some.2 (.inl ⟨default_valid, hu, rfl⟩)] at hg
      simp only [Option.some.injEq, Prod.mk.injEq] at hf hg
      rw [hft, hgu, hf.2, hg.2]
    · rw [← (filename_eq_iff hf).mpr hreserved,
        (filename_eq_iff hg).mpr fun h => hreserved (hsame.mpr h)]

theorem mem_tablesInSchema {files : List String} :
    t ∈ tablesInSchema files s ↔ ∃ f ∈ files, classifyMmapBasename f = some (s, t) := by
  simp only [tablesInSchema, List.mem_dedup, List.mem_insertionSort, List.mem_filterMap,
    Option.bind_eq_some_iff, Option.ite_none_right_eq_some, Option.some.injEq, Prod.exists]
  constructor
  · rintro ⟨f, hf, _, _, hclass, rfl, rfl⟩
    exact ⟨f, hf, hclass⟩
  · rintro ⟨f, hf, hclass⟩
    exact ⟨f, hf, s, t, hclass, rfl, rfl⟩

/-- A listed file is opened under its name unless that is reserved. -/
theorem tableFile_iff {files : List String} (hmem : f ∈ files)
    (h : classifyMmapBasename f = some (s, t)) :
    tableFile files s t = some f ↔ ¬ Reserved f := by
  have htail : validTableTail t = true := by
    rcases classify_eq_some.1 h with ⟨-, ht, -⟩ | ⟨-, -, ht⟩
    · exact ht
    · exact validTableTail_of_head ht
  rw [← filename_eq_iff h]
  simp only [tableFile, mmapTableExists, htail, Bool.not_true, Bool.false_eq_true, if_false,
    decide_eq_true_eq, Option.ite_none_right_eq_some, Option.some.injEq]
  exact ⟨fun hfile => hfile.2, fun hfile => ⟨hfile ▸ hmem, hfile⟩⟩

end Names

/-- The two mappings are inverse to each other, no file hides another and every listed file can be
read, all of this exactly for the names that do not spell out the default schema and the pairs
that do not put a dotted table into it. -/
theorem names_correspond_iff (files : List String) :
    (∀ s t, validSchemaHead s = true → validTableTail t = true →
      (classifyMmapBasename (mmapFilenameFor s t) = some (s, t) ↔
        ¬ (s = defaultUndottedSchema ∧ '.' ∈ t.toList))) ∧
    (∀ f, (∀ s t, classifyMmapBasename f = some (s, t) → mmapFilenameFor s t = f) ↔
      ¬ Reserved f) ∧
    (∀ f g s t, classifyMmapBasename f = some (s, t) → classifyMmapBasename g = some (s, t) →
      (f = g ↔ (Reserved f ↔ Reserved g))) ∧
    ∀ f s t, f ∈ files → classifyMmapBasename f = some (s, t) →
      t ∈ tablesInSchema files s ∧ (tableFile files s t = some f ↔ ¬ Reserved f) := by
  refine ⟨fun s t hs ht => classify_filename_iff hs ht, fun f => ?_,
    fun f g s t hf hg => shadows_iff hf hg,
    fun f s t hmem h => ⟨mem_tablesInSchema.2 ⟨f, hmem, h⟩, tableFile_iff hmem h⟩⟩
  constructor
  · rintro h ⟨t, ht, rfl⟩
    exact tail_ne_dotted (h _ _ (classify_eq_some.2 (.inl ⟨default_valid, ht, rfl⟩)))
  · intro hreserved s t h
    exact (filename_eq_iff h).mpr hreserved

/-- A table of another schema, and a dotted one, keep their names. -/
theorem names_correspond_dotted :
    classifyMmapBasename (mmapFilenameFor "foo" "bar.baz") = some ("foo", "bar.baz") ∧
      tableFile ["foo.bar.baz", "metrics"] "foo" "bar.baz" = some "foo.bar.baz" := by
  have hclass : classifyMmapBasename "foo.bar.baz" = some ("foo", "bar.baz") := by decide
  refine ⟨((names_correspond_iff []).1 "foo" "bar.baz" (by decide) (by decide)).mpr
    (by decide), ?_⟩
  refine (((names_correspond_iff ["foo.bar.baz", "metrics"]).2.2.2 "foo.bar.baz" "foo" "bar.baz"
    (by decide) hclass).2).mpr ?_
  rintro ⟨t, ht, heq⟩
  have hboth := (classify_eq_some.2 (.inl ⟨default_valid, ht, rfl⟩)).symm.trans
    ((congrArg classifyMmapBasename heq).symm.trans hclass)
  have hschema : defaultUndottedSchema = "foo" := congrArg Prod.fst (Option.some.inj hboth)
  exact absurd hschema (by decide)

/-- `memtable.metrics` is listed as a table of the default schema, next to or instead of the file
`metrics`, and a query for it opens that file; the file of `memtable."a.b"` belongs to `a`. -/
theorem default_schema_shadows :
    (¬ ∀ f s t, classifyMmapBasename f = some (s, t) → mmapFilenameFor s t = f) ∧
      (¬ ∀ s t, validSchemaHead s = true → validTableTail t = true →
        classifyMmapBasename (mmapFilenameFor s t) = some (s, t)) ∧
      classifyMmapBasename "memtable.metrics" = classifyMmapBasename "metrics" ∧
      tableFile ["memtable.metrics", "metrics"] "memtable" "metrics" = some "metrics" ∧
      tableFile ["memtable.metrics"] "memtable" "metrics" = none := by
  refine ⟨fun h => ?_, fun h => ?_, by decide, by decide, by decide⟩
  · exact absurd (h "memtable.metrics" "memtable" "metrics" (by decide)) (by decide)
  · exact absurd (h "memtable" "a.b" (by decide) (by decide)) (by decide)

end Probing.Sql
