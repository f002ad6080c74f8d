import Probing.Sql.Renaming
import Probing.Sql.SingleRelation

/-!
# The catalog rewriting

The names of relations are moved to the `global` catalog, and from there to the `probe`
catalog of a node. The visitor sees neither the scope nor the quotes of a name, so that
this is a renaming that undoes itself only for some names.
-/

namespace Probing.Sql.Ast

open Probing.Core (contains)
open Probing.Federation (knownSchemas eqIgnoreAsciiCase firstIdentEq global_toLower probe_toLower)

def relationIdentParts (name : ObjectName) : List String :=
  name.filterMap fun part => part.asIdent.map Ident.value

/-- The name that `set_relation_parts` stores. -/
def setRelationParts (parts : List String) : ObjectName :=
  parts.map fun part => .Identifier (.new part)

def rewriteRelationGlobalToProbe (name : ObjectName) : ObjectName :=
  let parts := relationIdentParts name
  if !firstIdentEq parts "global" then name
  else setRelationParts ("probe" :: parts.drop 1)

/-- The part is one of `KNOWN_SCHEMAS`. -/
def knownSchema (part : String) : Bool := knownSchemas.any (eqIgnoreAsciiCase part)

def rewriteRelationToGlobal (name : ObjectName) : ObjectName :=
  let parts := relationIdentParts name
  if parts.isEmpty || firstIdentEq parts "global" then name
  else if firstIdentEq parts "probe" then setRelationParts ("global" :: parts.drop 1)
  else if parts.head?.any knownSchema then setRelationParts ("global" :: parts)
  else name

section Text

variable (parse : String → Except String (List Statement)) (print : Statement → String)

/-- The statements as they are printed. -/
def printed (statements : List Statement) : String := "; ".intercalate (statements.map print)

/-- `none` leaves the string to the textual rewriting. -/
def rewriteCatalogRelations (sql : String) (rewrite_fn : ObjectName → ObjectName) : Option String :=
  match parse sql with
  | .ok (s :: rest) => some (printed print ((s :: rest).map (Statement.visitRelations rewrite_fn)))
  | _ => none

def rewriteGlobalCatalogToProbeLegacy (sql : String) : String :=
  (sql.replace "global." "probe.").replace "GLOBAL." "probe."

def rewriteSqlForGlobalFanoutLegacy (sql : String) : String :=
  if contains sql.toLower "global." then sql
  else
    let out := (sql.replace "probe." "global.").replace "PROBE." "global."
    if contains out.toLower "global." then out
    else
      knownSchemas.foldl (fun out schema =>
        ["FROM", "from", "JOIN", "join"].foldl (fun out kw =>
          out.replace (kw ++ " " ++ schema ++ ".") (kw ++ " global." ++ schema ++ ".")) out) out

def rewriteGlobalCatalogToProbe (sql : String) : String :=
  (rewriteCatalogRelations parse print sql rewriteRelationGlobalToProbe).getD
    (rewriteGlobalCatalogToProbeLegacy sql)

def rewriteSqlForGlobalFanout (sql : String) : String :=
  (rewriteCatalogRelations parse print sql rewriteRelationToGlobal).getD
    (rewriteSqlForGlobalFanoutLegacy sql)

end Text

/-- An identifier is folded unless it is quoted. -/
def normalize (ident : Ident) : String :=
  if ident.quoteStyle.isSome then ident.value else ident.value.toLower

/-- The identifiers of a name, unless a part is a function. -/
def idents (name : ObjectName) : Option (List String) :=
  (name.mapM ObjectNamePart.asIdent).map (List.map normalize)

/-- Names of one part may denote CTEs. -/
def denotesCte (ctes : List Ident) (name : ObjectName) : Bool :=
  match idents name with
  | some [ident] => (ctes.map normalize).contains ident
  | _ => false

/-- What a name refers to. -/
inductive Target where
  | cte (name : String)
  | table (catalog schema table : String)
  deriving DecidableEq

section Resolve

variable (default_schema : String) (ctes : List Ident) (name : ObjectName)

/-- A name is resolved with the default catalog `probe` and a default schema. -/
def resolve : Option Target :=
  match idents name with
  | some [t] =>
      if (ctes.map normalize).contains t then some (.cte t)
      else some (.table "probe" default_schema t)
  | some [s, t] => some (.table "probe" s t)
  | some [c, s, t] => some (.table c s t)
  | _ => none

end Resolve

/-- The table of a node that a table of the `global` catalog stands for. -/
def againstProbe : Target → Target
  | .cte name => .cte name
  | .table catalog schema table =>
      .table (if catalog = "global" then "probe" else catalog) schema table

/-- A catalog has been added or replaced, and nothing else. -/
inductive Renamed : ObjectName → ObjectName → Prop
  | same (name : ObjectName) : Renamed name name
  | added (catalog : String) (name : ObjectName) : Renamed name (.Identifier (.new catalog) :: name)
  | replaced (catalog : String) (first : Ident) (rest : ObjectName) :
      Renamed (.Identifier first :: rest) (.Identifier (.new catalog) :: rest)

/-- What the rewriting owes a reference to a relation. -/
structure RelationKept (default_schema : String) (ctes : List Ident)
    (name : ObjectName) : Prop where
  cte : denotesCte ctes name = true → rewriteRelationToGlobal name = name ∧
    rewriteRelationGlobalToProbe name = name
  to_global : Renamed name (rewriteRelationToGlobal name)
  to_probe : Renamed name (rewriteRelationGlobalToProbe name)
  undone :
    resolve default_schema ctes (rewriteRelationGlobalToProbe (rewriteRelationToGlobal name)) =
    (resolve default_schema ctes name).map againstProbe

/-- Two lists of identifiers, last one first, agree as far as both go. -/
def agree (a b : List String) : Prop := a <+: b ∨ b <+: a

/-- A qualifier names a table when the two agree from their ends on. -/
def namesTable (qualifier : List Ident) (name : ObjectName) : Prop :=
  ∃ parts, idents name = some parts ∧ agree (qualifier.map normalize).reverse parts.reverse

/-- A qualifier still names the tables that it names. -/
structure ColumnKept (tables : List ObjectName) (qualifier : List Ident) : Prop where
  renamed : ∀ name ∈ tables, Renamed name (rewriteRelationToGlobal name) ∧
    Renamed name (rewriteRelationGlobalToProbe name)
  named : ∀ name ∈ tables, namesTable qualifier name →
    namesTable qualifier (rewriteRelationToGlobal name) ∧
    namesTable qualifier (rewriteRelationGlobalToProbe name)

/-- An unquoted identifier. -/
def ObjectNamePart.plain : ObjectNamePart → Bool
  | .Identifier ident => ident.quoteStyle.isNone
  | .Function _ => false

section Condition

variable (default_schema : String) (ctes : List Ident) (name : ObjectName)

/-- The parts after a catalog are unquoted identifiers. -/
def PlainRest (name : ObjectName) (catalog : Ident) : Prop :=
  ∃ rest, name = .Identifier catalog :: rest ∧ ∀ part ∈ rest, part.plain = true

/-- A reference that the rewriting may touch: a name in the catalogs `global` or `probe`, or in
a known schema, without quotes where they would be lost, and with a shape that the
rewriting is meant for. -/
def SafeRelation : Prop :=
  let parts := relationIdentParts name
  if firstIdentEq parts "global" then
    ∃ first, PlainRest name first ∧ 3 ≤ name.length ∧ (name.length = 3 → normalize first = "global")
  else if firstIdentEq parts "probe" then
    denotesCte ctes name = false ∧ ∃ first, PlainRest name first ∧
      (name.length ≤ 3 → normalize first = "probe")
  else if parts.head?.any knownSchema then
    denotesCte ctes name = false ∧ (∀ part ∈ name, part.plain = true) ∧
      (name.length = 1 → default_schema = "probe") ∧ name.length ≠ 3
  else True

/-- The tables of a column lose no quotes, and it names none by its catalog. -/
def SafeColumn (qualifier : List Ident) : Prop :=
  let parts := relationIdentParts name
  if firstIdentEq parts "global" ∨ firstIdentEq parts "probe" then
    ∃ first, PlainRest name first ∧ (namesTable qualifier name → qualifier.length < name.length)
  else if parts.head?.any knownSchema then
    (∀ part ∈ name, part.plain = true) ∧
      (namesTable qualifier name → qualifier.length ≤ name.length ∨
      (qualifier.map normalize).reverse[name.length]? = some "global")
  else True

end Condition

section Parts

variable {name rest : ObjectName} {first : Ident} {parts : List String} {catalog : String}

theorem plain_eq {part : ObjectNamePart} (h : part.plain = true) :
    ∃ value, part = .Identifier (.new value) := by
  cases part with
  | Identifier ident =>
      obtain ⟨value, quoteStyle⟩ := ident
      obtain rfl : quoteStyle = none := Option.isNone_iff_eq_none.mp h
      exact ⟨value, rfl⟩
  | Function name => cases h

theorem plain_set (parts : List String) : ∀ part ∈ setRelationParts parts, part.plain = true := by
  intro part hpart
  obtain ⟨value, -, rfl⟩ := List.mem_map.mp hpart
  rfl

theorem ident_parts_length_le (name : ObjectName) :
    (relationIdentParts name).length ≤ name.length :=
  List.length_filterMap_le _ _

@[simp] theorem ident_parts_set (parts : List String) :
    relationIdentParts (setRelationParts parts) = parts := by
  induction parts with
  | nil => rfl
  | cons part parts ih => exact congrArg (part :: ·) ih

/-- Unquoted identifiers are written again as they were. -/
theorem set_ident_parts (h : ∀ part ∈ name, part.plain = true) :
    setRelationParts (relationIdentParts name) = name := by
  induction name with
  | nil => rfl
  | cons part name ih =>
      obtain ⟨value, rfl⟩ := plain_eq (h part List.mem_cons_self)
      exact congrArg (ObjectNamePart.Identifier (.new value) :: ·)
        (ih fun p hp => h p (List.mem_cons_of_mem _ hp))

theorem plain_ident_parts_length (h : ∀ part ∈ name, part.plain = true) :
    (relationIdentParts name).length = name.length := by
  have hset := congrArg List.length (set_ident_parts h)
  rwa [setRelationParts, List.length_map] at hset

theorem first_ident_ne_nil {expected : String} (h : firstIdentEq parts expected = true) :
    parts ≠ [] := by
  rintro rfl
  cases h

/-- Replacing the catalog keeps the other identifiers if they are unquoted. -/
theorem renamed_replaced_iff (hparts : relationIdentParts name ≠ []) :
    Renamed name (setRelationParts (catalog :: (relationIdentParts name).drop 1)) ↔
      ∃ first, PlainRest name first := by
  have hle := ident_parts_length_le name
  have hpos := List.length_pos_iff.mpr hparts
  constructor
  · intro h
    generalize hnew : setRelationParts (catalog :: (relationIdentParts name).drop 1) = new at h
    cases h with
    | same =>
        refine ⟨.new catalog, _, hnew.symm, plain_set _⟩
    | added catalog' =>
        have hlen := congrArg List.length (List.cons.inj hnew).2
        rw [List.length_map, List.length_drop] at hlen
        omega
    | replaced catalog' first rest =>
        refine ⟨first, rest, rfl, ?_⟩
        rw [← (List.cons.inj hnew).2]
        exact plain_set _
  · rintro ⟨first, rest, rfl, hrest⟩
    have hset :
      setRelationParts (catalog :: (relationIdentParts (.Identifier first :: rest)).drop 1) =
        .Identifier (.new catalog) :: rest :=
      congrArg (ObjectNamePart.Identifier (.new catalog) :: ·) (set_ident_parts hrest)
    rw [hset]
    exact .replaced catalog first rest

/-- Adding a catalog keeps the identifiers if they are unquoted. -/
theorem renamed_added_iff (hparts : relationIdentParts name ≠ []) :
    Renamed name (setRelationParts (catalog :: relationIdentParts name)) ↔
    ∀ part ∈ name, part.plain = true := by
  have hle := ident_parts_length_le name
  constructor
  · intro h
    generalize hnew : setRelationParts (catalog :: relationIdentParts name) = new at h
    have hlen := congrArg List.length hnew
    rw [setRelationParts, List.length_map, List.length_cons] at hlen
    cases h with
    | same =>
        rw [← hnew]
        exact plain_set _
    | added catalog' =>
        rw [← (List.cons.inj hnew).2]
        exact plain_set _
    | replaced catalog' first rest =>
        have hrest : ∀ part ∈ rest, part.plain = true := by
          rw [← (List.cons.inj hnew).2]
          exact plain_set _
        have hfirst : (relationIdentParts (.Identifier first :: rest)).length =
            (relationIdentParts rest).length + 1 := rfl
        rw [hfirst, plain_ident_parts_length hrest, List.length_cons] at hlen
        omega
  · intro h
    have hset : setRelationParts (catalog :: relationIdentParts name) =
        .Identifier (.new catalog) :: name :=
      congrArg (ObjectNamePart.Identifier (.new catalog) :: ·) (set_ident_parts h)
    rw [hset]
    exact .added catalog name

theorem idents_cons (first : Ident) (rest : ObjectName) :
    idents (.Identifier first :: rest) = (idents rest).map (normalize first :: ·) := by
  unfold idents
  rw [List.mapM_cons]
  change Option.map _ (Option.bind (some first) _) = _
  rw [Option.bind_some]
  cases rest.mapM ObjectNamePart.asIdent <;> rfl

theorem idents_plain (h : ∀ part ∈ rest, part.plain = true) : ∃ l, idents rest = some l ∧
    l.length = rest.length := by
  induction rest with
  | nil => exact ⟨[], rfl, rfl⟩
  | cons part rest ih =>
      obtain ⟨value, rfl⟩ := plain_eq (h part List.mem_cons_self)
      obtain ⟨l, hl, hlen⟩ := ih fun p hp => h p (List.mem_cons_of_mem _ hp)
      refine ⟨normalize (.new value) :: l, ?_, congrArg (· + 1) hlen⟩
      rw [idents_cons, hl, Option.map_some]

/-- An identifier that is a catalog but for its case is not another catalog. -/
theorem normalize_ne {other : String} (h : eqIgnoreAsciiCase first.value catalog = true)
    (hlow : catalog.toLower = catalog) (hother : eqIgnoreAsciiCase other catalog = false) :
    normalize first ≠ other := by
  have hvalue : first.value.toLower = catalog := (of_decide_eq_true h).trans hlow
  rintro rfl
  unfold normalize at hother
  split_ifs at hother
  · exact nomatch hother.symm.trans h
  · have hsame : eqIgnoreAsciiCase first.value.toLower catalog = true := by
      rw [hvalue]
      exact decide_eq_true rfl
    exact nomatch hother.symm.trans hsame

end Parts

section Undone

variable {default_schema : String} {ctes : List Ident} {name rest : ObjectName} {first : Ident}

theorem normalize_new_probe : normalize (.new "probe") = "probe" := probe_toLower

/-- Names of four parts or more refer to nothing. -/
theorem resolve_long {parts : List String} (h : idents name = some parts)
    (hlong : 4 ≤ parts.length) :
    resolve default_schema ctes name = none := by
  unfold resolve
  rw [h]
  match parts, hlong with
  | _ :: _ :: _ :: _ :: _, _ => rfl

theorem againstProbe_table (schema table : String) :
    againstProbe (.table "probe" schema table) = .table "probe" schema table := rfl

/-- A name whose first part is replaced by the catalog `probe`. -/
theorem undone_replaced_iff (hrest : ∀ part ∈ rest, part.plain = true)
    (hcte : denotesCte ctes (.Identifier first :: rest) = false) :
    resolve default_schema ctes (.Identifier (.new "probe") :: rest) =
        (resolve default_schema ctes (.Identifier first :: rest)).map againstProbe ↔
      (rest.length ≤ 1 → normalize first = "probe") ∧
        (rest.length = 2 → normalize first = "global" ∨ normalize first = "probe") := by
  obtain ⟨l, hl, hlen⟩ := idents_plain hrest
  have hold : idents (.Identifier first :: rest) = some (normalize first :: l) := by
    rw [idents_cons, hl, Option.map_some]
  have hnew : idents (.Identifier (.new "probe") :: rest) = some ("probe" :: l) := by
    rw [idents_cons, hl, Option.map_some, normalize_new_probe]
  rw [← hlen]
  match l with
  | [] =>
      have hnot : ((ctes.map normalize).contains (normalize first)) = false := by
        unfold denotesCte at hcte
        rw [hold] at hcte
        exact hcte
      unfold resolve
      rw [hold, hnew]
      dsimp only
      rw [hnot, if_neg Bool.false_ne_true, Option.map_some, againstProbe_table]
      refine Iff.trans ?_ (by simp : normalize first = "probe" ↔ _)
      constructor
      · intro h
        by_cases hprobe : (ctes.map normalize).contains "probe" = true
        · rw [if_pos hprobe] at h
          cases h
        · rw [if_neg hprobe] at h
          exact (Target.table.inj (Option.some.inj h)).2.2.symm
      · intro h
        rw [h] at hnot ⊢
        rw [hnot, if_neg Bool.false_ne_true]
  | [t] =>
      unfold resolve
      rw [hold, hnew]
      simp [againstProbe, eq_comm]
  | [s, t] =>
      unfold resolve
      rw [hold, hnew]
      by_cases hglobal : normalize first = "global"
      · simp [againstProbe, hglobal]
      · simp [againstProbe, hglobal, eq_comm]
  | _ :: _ :: _ :: _ =>
      rw [resolve_long hold (by simp), resolve_long hnew (by simp)]
      simp

/-- A name before which the catalog `probe` is put. -/
theorem undone_added_iff (hname : ∀ part ∈ name, part.plain = true) (hsome : name ≠ [])
    (hcte : denotesCte ctes name = false) :
    resolve default_schema ctes (.Identifier (.new "probe") :: name) =
        (resolve default_schema ctes name).map againstProbe ↔
      (name.length = 1 → default_schema = "probe") ∧ name.length ≠ 3 := by
  obtain ⟨l, hl, hlen⟩ := idents_plain hname
  have hnew : idents (.Identifier (.new "probe") :: name) = some ("probe" :: l) := by
    rw [idents_cons, hl, Option.map_some, normalize_new_probe]
  rw [← hlen]
  match l with
  | [] => exact absurd (List.length_eq_zero_iff.mp hlen.symm) hsome
  | [t] =>
      have hnot : ((ctes.map normalize).contains t) = false := by
        unfold denotesCte at hcte
        rw [hl] at hcte
        exact hcte
      unfold resolve
      rw [hl, hnew]
      dsimp only
      rw [hnot]
      simp [againstProbe, eq_comm]
  | [s, t] =>
      unfold resolve
      rw [hl, hnew]
      simp [againstProbe]
  | [c, s, t] =>
      rw [resolve_long hnew (by simp)]
      unfold resolve
      rw [hl]
      simp
  | _ :: _ :: _ :: _ :: _ =>
      rw [resolve_long hl (by simp), resolve_long hnew (by simp)]
      simp

end Undone

section Cases

variable {name : ObjectName}

theorem global_ident : firstIdentEq ["global"] "global" = true := decide_eq_true rfl

theorem probe_not_global : eqIgnoreAsciiCase "probe" "global" = false := by
  rw [eqIgnoreAsciiCase, probe_toLower, global_toLower]
  decide

theorem global_not_probe : eqIgnoreAsciiCase "global" "probe" = false := by
  rw [eqIgnoreAsciiCase, probe_toLower, global_toLower]
  decide

theorem to_global_of_global (h : firstIdentEq (relationIdentParts name) "global" = true) :
    rewriteRelationToGlobal name = name := if_pos (by rw [h, Bool.or_true])

theorem to_probe_of_global (h : firstIdentEq (relationIdentParts name) "global" = true) :
    rewriteRelationGlobalToProbe name = setRelationParts
    ("probe" :: (relationIdentParts name).drop 1) :=
  if_neg (by rw [h]; decide)

theorem to_probe_of_not_global (h : firstIdentEq (relationIdentParts name) "global" = false) :
    rewriteRelationGlobalToProbe name = name := if_pos (by rw [h]; rfl)

theorem to_global_of_probe (hglobal : firstIdentEq (relationIdentParts name) "global" = false)
    (h : firstIdentEq (relationIdentParts name) "probe" = true) :
    rewriteRelationToGlobal name = setRelationParts
    ("global" :: (relationIdentParts name).drop 1) := by
  have hsome := List.isEmpty_eq_false_iff.mpr (first_ident_ne_nil h)
  unfold rewriteRelationToGlobal
  dsimp only
  rw [if_neg (by rw [hsome, hglobal]; decide), if_pos h]

theorem to_global_of_schema (hglobal : firstIdentEq (relationIdentParts name) "global" = false)
    (hprobe : firstIdentEq (relationIdentParts name) "probe" = false)
    (h : (relationIdentParts name).head?.any knownSchema = true) :
    rewriteRelationToGlobal name = setRelationParts ("global" :: relationIdentParts name) := by
  have hsome : (relationIdentParts name).isEmpty = false := by
    cases hparts : relationIdentParts name with
    | nil =>
        rw [hparts] at h
        cases h
    | cons part parts => rfl
  unfold rewriteRelationToGlobal
  dsimp only
  rw [if_neg (by rw [hsome, hglobal]; decide), if_neg (by rw [hprobe]; decide), if_pos h]

theorem to_global_of_other (hprobe : firstIdentEq (relationIdentParts name) "probe" = false)
    (h : (relationIdentParts name).head?.any knownSchema = false) :
    rewriteRelationToGlobal name = name := by
  unfold rewriteRelationToGlobal
  dsimp only
  split_ifs with hsome hnone hknown
  · rfl
  · exact nomatch hprobe.symm.trans hnone
  · exact nomatch h.symm.trans hknown
  · rfl

/-- What has been moved to the `global` catalog is moved to the `probe` catalog. -/
theorem to_probe_set_global (parts : List String) :
    rewriteRelationGlobalToProbe (setRelationParts ("global" :: parts)) = setRelationParts
    ("probe" :: parts) := by
  have hparts := ident_parts_set ("global" :: parts)
  rw [to_probe_of_global (by rw [hparts]; exact global_ident), hparts]
  rfl

/-- The identifiers of a name are those that the fan-out model rewrites. -/
theorem ident_parts_to_global (name : ObjectName) :
    relationIdentParts (rewriteRelationToGlobal name) = Federation.rewriteRelationToGlobal
    (relationIdentParts name) := by
  have hschema : knownSchema = fun part => knownSchemas.any (eqIgnoreAsciiCase part) := rfl
  unfold rewriteRelationToGlobal Federation.rewriteRelationToGlobal
  rw [hschema]
  dsimp only
  split_ifs
  · rfl
  · exact ident_parts_set _
  · exact ident_parts_set _
  · rfl

end Cases

end Probing.Sql.Ast
