import Probing.Sql.CatalogRewrite

/-!
# What the catalog rewriting owes its statements

For every relation and every column of a statement it is said exactly when the rewriting
treats it well: case by case over the first identifier of the name.
-/

namespace Probing.Sql.Ast

open Probing.Federation (eqIgnoreAsciiCase firstIdentEq global_toLower probe_toLower)

section Kept

variable {default_schema : String} {ctes : List Ident} {name rest : ObjectName} {first : Ident}

/-- A name of several parts denotes no CTE. -/
theorem denotesCte_single (hrest : ∀ part ∈ rest, part.plain = true)
    (h : denotesCte ctes (.Identifier first :: rest) = true) : rest = [] := by
  obtain ⟨l, hl, hlen⟩ := idents_plain hrest
  have hname : idents (.Identifier first :: rest) = some (normalize first :: l) := by
    rw [idents_cons, hl, Option.map_some]
  unfold denotesCte at h
  rw [hname] at h
  cases l with
  | nil => exact List.length_eq_zero_iff.mp hlen.symm
  | cons t l => cases h

theorem set_replaced (hrest : ∀ part ∈ rest, part.plain = true) (catalog : String) :
    setRelationParts (catalog :: (relationIdentParts (.Identifier first :: rest)).drop 1) =
      .Identifier (.new catalog) :: rest :=
  congrArg (ObjectNamePart.Identifier (.new catalog) :: ·) (set_ident_parts hrest)

theorem set_added (hname : ∀ part ∈ name, part.plain = true) (catalog : String) :
    setRelationParts (catalog :: relationIdentParts name) = .Identifier (.new catalog) :: name :=
  congrArg (ObjectNamePart.Identifier (.new catalog) :: ·) (set_ident_parts hname)

/-- Names in the `global` catalog. -/
theorem kept_global_iff (h : firstIdentEq (relationIdentParts name) "global" = true) :
    RelationKept default_schema ctes name ↔
      ∃ first, PlainRest name first ∧ 3 ≤ name.length ∧
      (name.length = 3 → normalize first = "global") := by
  have hto := to_probe_of_global h
  have hfrom := to_global_of_global h
  constructor
  · intro hkept
    have hrenamed := hkept.to_probe
    rw [hto, renamed_replaced_iff (first_ident_ne_nil h)] at hrenamed
    obtain ⟨first, rest, rfl, hrest⟩ := hrenamed
    have hcatalog : eqIgnoreAsciiCase first.value "global" = true := h
    rw [set_replaced hrest] at hto
    have hcte : denotesCte ctes (.Identifier first :: rest) = false := by
      refine Bool.eq_false_of_not_eq_true fun hcte => ?_
      have hsame := (hkept.cte hcte).2
      rw [hto] at hsame
      obtain rfl := ObjectNamePart.Identifier.inj (List.cons.inj hsame).1
      exact nomatch probe_not_global.symm.trans hcatalog
    have hundone := hkept.undone
    rw [hfrom, hto, undone_replaced_iff hrest hcte] at hundone
    have hne : normalize first ≠ "probe" := normalize_ne hcatalog global_toLower probe_not_global
    have hlong : ¬ rest.length ≤ 1 := fun hshort => hne (hundone.1 hshort)
    refine ⟨first, ⟨rest, rfl, hrest⟩, ?_, fun hlen => ?_⟩
    · rw [List.length_cons]
      omega
    · rw [List.length_cons] at hlen
      exact (hundone.2 (by omega)).resolve_right hne
  · rintro ⟨first, ⟨rest, rfl, hrest⟩, hlong, hshort⟩
    rw [set_replaced hrest] at hto
    have hcte : denotesCte ctes (.Identifier first :: rest) = false := by
      refine Bool.eq_false_of_not_eq_true fun hcte => ?_
      obtain rfl := denotesCte_single hrest hcte
      simp at hlong
    refine ⟨fun hnot => (nomatch hcte.symm.trans hnot), ?_, ?_, ?_⟩
    · rw [hfrom]
      exact .same _
    · rw [hto]
      exact .replaced _ _ _
    · rw [hfrom, hto, undone_replaced_iff hrest hcte]
      rw [List.length_cons] at hlong hshort
      exact ⟨fun hle => absurd hlong (by omega), fun hlen => .inl (hshort (by omega))⟩

/-- Names in the `probe` catalog. -/
theorem kept_probe_iff (hglobal : firstIdentEq (relationIdentParts name) "global" = false)
    (h : firstIdentEq (relationIdentParts name) "probe" = true) :
    RelationKept default_schema ctes name ↔
      denotesCte ctes name = false ∧ ∃ first, PlainRest name first ∧
        (name.length ≤ 3 → normalize first = "probe") := by
  have hto := to_probe_of_not_global hglobal
  have hfrom := to_global_of_probe hglobal h
  have hboth := to_probe_set_global ((relationIdentParts name).drop 1)
  rw [← hfrom] at hboth
  constructor
  · intro hkept
    have hrenamed := hkept.to_global
    rw [hfrom, renamed_replaced_iff (first_ident_ne_nil h)] at hrenamed
    obtain ⟨first, rest, rfl, hrest⟩ := hrenamed
    have hcatalog : eqIgnoreAsciiCase first.value "probe" = true := h
    rw [set_replaced hrest] at hfrom hboth
    have hcte : denotesCte ctes (.Identifier first :: rest) = false := by
      refine Bool.eq_false_of_not_eq_true fun hcte => ?_
      have hsame := (hkept.cte hcte).1
      rw [hfrom] at hsame
      obtain rfl := ObjectNamePart.Identifier.inj (List.cons.inj hsame).1
      exact nomatch global_not_probe.symm.trans hcatalog
    have hundone := hkept.undone
    rw [hboth, undone_replaced_iff hrest hcte] at hundone
    have hne : normalize first ≠ "global" := normalize_ne hcatalog probe_toLower global_not_probe
    refine ⟨hcte, first, ⟨rest, rfl, hrest⟩, fun hlen => ?_⟩
    rw [List.length_cons] at hlen
    by_cases hshort : rest.length ≤ 1
    · exact hundone.1 hshort
    · exact (hundone.2 (by omega)).resolve_left hne
  · rintro ⟨hcte, first, ⟨rest, rfl, hrest⟩, hshort⟩
    rw [set_replaced hrest] at hfrom hboth
    refine ⟨fun hnot => (nomatch hcte.symm.trans hnot), ?_, ?_, ?_⟩
    · rw [hfrom]
      exact .replaced _ _ _
    · rw [hto]
      exact .same _
    · rw [hboth, undone_replaced_iff hrest hcte]
      rw [List.length_cons] at hshort
      exact ⟨fun hle => hshort (by omega), fun hlen => .inr (hshort (by omega))⟩

/-- Names in a known schema. -/
theorem kept_schema_iff (hglobal : firstIdentEq (relationIdentParts name) "global" = false)
    (hprobe : firstIdentEq (relationIdentParts name) "probe" = false)
    (h : (relationIdentParts name).head?.any knownSchema = true) :
    RelationKept default_schema ctes name ↔
      denotesCte ctes name = false ∧ (∀ part ∈ name, part.plain = true) ∧
        (name.length = 1 → default_schema = "probe") ∧ name.length ≠ 3 := by
  have hto := to_probe_of_not_global hglobal
  have hfrom := to_global_of_schema hglobal hprobe h
  have hboth := to_probe_set_global (relationIdentParts name)
  rw [← hfrom] at hboth
  have hparts : relationIdentParts name ≠ [] := by
    intro hnil
    rw [hnil] at h
    cases h
  have hsome : name ≠ [] := by
    rintro rfl
    exact hparts rfl
  constructor
  · intro hkept
    have hrenamed := hkept.to_global
    rw [hfrom, renamed_added_iff hparts] at hrenamed
    rw [set_added hrenamed] at hfrom hboth
    have hcte : denotesCte ctes name = false := by
      refine Bool.eq_false_of_not_eq_true fun hcte => ?_
      have hsame := congrArg List.length (hkept.cte hcte).1
      rw [hfrom, List.length_cons] at hsame
      omega
    have hundone := hkept.undone
    rw [hboth, undone_added_iff hrenamed hsome hcte] at hundone
    exact ⟨hcte, hrenamed, hundone⟩
  · rintro ⟨hcte, hname, hundone⟩
    rw [set_added hname] at hfrom hboth
    refine ⟨fun hnot => (nomatch hcte.symm.trans hnot), ?_, ?_, ?_⟩
    · rw [hfrom]
      exact .added _ _
    · rw [hto]
      exact .same _
    · rw [hboth, undone_added_iff hname hsome hcte]
      exact hundone

theorem idents_first {c : String} {l : List String} (h : idents name = some (c :: l)) :
    ∃ first rest, name = .Identifier first :: rest ∧ normalize first = c := by
  cases name with
  | nil => cases h
  | cons part rest =>
      cases part with
      | Function f => cases h
      | Identifier first =>
          rw [idents_cons] at h
          obtain ⟨l', -, hl'⟩ := Option.map_eq_some_iff.mp h
          exact ⟨first, rest, rfl, (List.cons.inj hl').1⟩

/-- A name that is in no `global` catalog but for its case resolves in the `probe` catalog. -/
theorem resolve_againstProbe (hglobal : firstIdentEq (relationIdentParts name) "global" = false) :
    (resolve default_schema ctes name).map againstProbe = resolve default_schema ctes name := by
  have hcatalog {c : String} {l : List String} (h : idents name = some (c :: l)) :
      c ≠ "global" := by
    rintro rfl
    obtain ⟨first, rest, rfl, hfirst⟩ := idents_first h
    have hnot : eqIgnoreAsciiCase first.value "global" = false := hglobal
    have hvalue : first.value.toLower = "global" := by
      unfold normalize at hfirst
      split_ifs at hfirst
      · rw [hfirst, global_toLower]
      · exact hfirst
    exact nomatch hnot.symm.trans (decide_eq_true (hvalue.trans global_toLower.symm))
  unfold resolve
  cases hparts : idents name with
  | none => rfl
  | some parts =>
      match parts, hparts with
      | [], _ => rfl
      | [t], _ =>
          dsimp only
          split_ifs <;> rfl
      | [s, t], _ => rfl
      | [c, s, t], h =>
          change some (Target.table (if c = "global" then "probe" else c) s t) = _
          rw [if_neg (hcatalog h)]
      | _ :: _ :: _ :: _ :: _, _ => rfl

/-- Names that the rewriting does not touch. -/
theorem kept_other (hglobal : firstIdentEq (relationIdentParts name) "global" = false)
    (hprobe : firstIdentEq (relationIdentParts name) "probe" = false)
    (h : (relationIdentParts name).head?.any knownSchema = false) :
    RelationKept default_schema ctes name := by
  have hto := to_probe_of_not_global hglobal
  have hfrom := to_global_of_other hprobe h
  refine ⟨fun _ => ⟨hfrom, hto⟩, ?_, ?_, ?_⟩
  · rw [hfrom]
    exact .same _
  · rw [hto]
    exact .same _
  · rw [hfrom, hto, resolve_againstProbe hglobal]

/-- The references that the rewriting treats well. -/
theorem relation_kept_iff : RelationKept default_schema ctes name ↔
    SafeRelation default_schema ctes name := by
  unfold SafeRelation
  dsimp only
  cases hglobal : firstIdentEq (relationIdentParts name) "global" with
  | true =>
      rw [if_pos rfl]
      exact kept_global_iff hglobal
  | false =>
      rw [if_neg Bool.false_ne_true]
      cases hprobe : firstIdentEq (relationIdentParts name) "probe" with
      | true =>
          rw [if_pos rfl]
          exact kept_probe_iff hglobal hprobe
      | false =>
          rw [if_neg Bool.false_ne_true]
          cases hschema : (relationIdentParts name).head?.any knownSchema with
          | true =>
              rw [if_pos rfl]
              exact kept_schema_iff hglobal hprobe hschema
          | false =>
              rw [if_neg Bool.false_ne_true]
              exact iff_of_true (kept_other hglobal hprobe hschema) trivial

end Kept

section Agree

variable {a r : List String} {g h : String}

/-- A qualifier that agrees with a name up to its catalog agrees with another catalog if it does not
reach it. -/
theorem agree_replaced_iff (hne : h ≠ g) (hagree : agree a (r ++ [h])) :
    agree a (r ++ [g]) ↔ a.length < r.length + 1 := by
  have hshort (hlen : a.length < r.length + 1) : a <+: r := by
    rcases hagree with hbelow | habove
    · exact List.prefix_of_prefix_length_le hbelow (List.prefix_append r [h]) (by omega)
    · have hle := habove.length_le
      rw [List.length_append, List.length_singleton] at hle
      omega
  have hlong {x : String} (hlen : ¬ a.length < r.length + 1) (hx : agree a (r ++ [x])) :
      r ++ [x] <+: a := by
    rcases hx with hbelow | habove
    · have hle := hbelow.length_le
      rw [List.length_append, List.length_singleton] at hle
      have heq := hbelow.eq_of_length (by rw [List.length_append, List.length_singleton]; omega)
      exact ⟨[], by rw [List.append_nil, heq]⟩
    · exact habove
  constructor
  · intro hg
    by_contra hlen
    have hsame := List.prefix_of_prefix_length_le (hlong hlen hagree) (hlong hlen hg) (by simp)
    have heq := hsame.eq_of_length (by simp)
    exact hne (List.cons.inj (List.append_cancel_left heq)).1
  · exact fun hlen => .inl ((hshort hlen).trans (List.prefix_append r [g]))

/-- A qualifier that agrees with a name agrees with it in a catalog if it does not go on with
another one. -/
theorem agree_added_iff (hagree : agree a r) :
    agree a (r ++ [g]) ↔ a.length ≤ r.length ∨ a[r.length]? = some g := by
  rcases hagree with hbelow | ⟨t, rfl⟩
  · exact iff_of_true (.inl (hbelow.trans (List.prefix_append r [g]))) (.inl hbelow.length_le)
  cases t with
  | nil =>
      rw [List.append_nil]
      exact iff_of_true (.inl (List.prefix_append r [g])) (.inl (le_refl _))
  | cons x t =>
      have hget : (r ++ x :: t)[r.length]? = some x := by simp
      rw [hget, List.length_append, List.length_cons]
      constructor
      · rintro (hle | hle)
        · right
          rw [List.prefix_append_right_inj] at hle
          exact congrArg some (List.cons_prefix_cons.mp hle).1
        · right
          rw [List.prefix_append_right_inj] at hle
          exact congrArg some (List.cons_prefix_cons.mp hle).1.symm
      · rintro (hle | hx)
        · omega
        · obtain rfl := Option.some.inj hx
          right
          rw [List.prefix_append_right_inj]
          exact ⟨t, rfl⟩

end Agree

section Columns

variable {name rest : ObjectName} {first : Ident} {qualifier : List Ident} {catalog : String}

/-- What the rewriting owes a column for one of its tables. -/
structure TableKept (qualifier : List Ident) (name : ObjectName) : Prop where
  to_global : Renamed name (rewriteRelationToGlobal name)
  to_probe : Renamed name (rewriteRelationGlobalToProbe name)
  named : namesTable qualifier name → namesTable qualifier (rewriteRelationToGlobal name) ∧
    namesTable qualifier (rewriteRelationGlobalToProbe name)

theorem column_kept_iff {tables : List ObjectName} :
    ColumnKept tables qualifier ↔ ∀ name ∈ tables, TableKept qualifier name :=
  ⟨fun h name hname => ⟨(h.renamed name hname).1, (h.renamed name hname).2, h.named name hname⟩,
    fun h => ⟨fun name hname => ⟨(h name hname).to_global, (h name hname).to_probe⟩,
      fun name hname => (h name hname).named⟩⟩

theorem names_cons_iff {l : List String} (hl : idents rest = some l)
    (hcatalog : normalize (.new catalog) = catalog) :
    namesTable qualifier (.Identifier (.new catalog) :: rest) ↔
      agree (qualifier.map normalize).reverse (l.reverse ++ [catalog]) := by
  unfold namesTable
  rw [idents_cons, hl, Option.map_some, hcatalog, ← List.reverse_cons]
  exact ⟨fun ⟨_, hparts, h⟩ => Option.some.inj hparts ▸ h, fun h => ⟨_, rfl, h⟩⟩

/-- A name whose catalog is replaced is still named by the qualifiers that do not reach it. -/
theorem names_replaced_iff (hrest : ∀ part ∈ rest, part.plain = true)
    (hne : normalize first ≠ catalog) (hcatalog : normalize (.new catalog) = catalog)
    (hnames : namesTable qualifier (.Identifier first :: rest)) :
    namesTable qualifier (.Identifier (.new catalog) :: rest) ↔
      qualifier.length < (ObjectNamePart.Identifier first :: rest).length := by
  obtain ⟨l, hl, hlen⟩ := idents_plain hrest
  obtain ⟨parts, hparts, hagree⟩ := hnames
  rw [idents_cons, hl, Option.map_some] at hparts
  obtain rfl := Option.some.inj hparts
  rw [List.reverse_cons] at hagree
  have hiff := agree_replaced_iff hne hagree
  rw [List.length_reverse, List.length_reverse, List.length_map, hlen] at hiff
  rw [List.length_cons, ← hiff]
  exact names_cons_iff hl hcatalog

/-- A name that gets a catalog is still named by the qualifiers that have no other one. -/
theorem names_added_iff (hname : ∀ part ∈ name, part.plain = true)
    (hcatalog : normalize (.new catalog) = catalog) (hnames : namesTable qualifier name) :
    namesTable qualifier (.Identifier (.new catalog) :: name) ↔
      qualifier.length ≤ name.length ∨ (qualifier.map normalize).reverse[name.length]? =
        some catalog := by
  obtain ⟨l, hl, hlen⟩ := idents_plain hname
  obtain ⟨parts, hparts, hagree⟩ := hnames
  obtain rfl := Option.some.inj (hl.symm.trans hparts)
  have hiff := agree_added_iff (g := catalog) hagree
  rw [List.length_reverse, List.length_reverse, List.length_map, hlen] at hiff
  rw [← hiff]
  exact names_cons_iff hl hcatalog

theorem normalize_new_global : normalize (.new "global") = "global" := global_toLower

/-- The tables that the rewriting leaves to their columns. -/
theorem table_kept_iff : TableKept qualifier name ↔ SafeColumn name qualifier := by
  unfold SafeColumn
  dsimp only
  cases hglobal : firstIdentEq (relationIdentParts name) "global" with
  | true =>
      have hto := to_probe_of_global hglobal
      have hfrom := to_global_of_global hglobal
      rw [if_pos (.inl rfl)]
      constructor
      · intro hkept
        have hrenamed := hkept.to_probe
        rw [hto, renamed_replaced_iff (first_ident_ne_nil hglobal)] at hrenamed
        obtain ⟨first, rest, rfl, hrest⟩ := hrenamed
        rw [set_replaced hrest] at hto
        have hne : normalize first ≠ "probe" := normalize_ne hglobal global_toLower probe_not_global
        refine ⟨first, ⟨rest, rfl, hrest⟩, fun hnames => ?_⟩
        have hnamed := (hkept.named hnames).2
        rw [hto] at hnamed
        exact (names_replaced_iff hrest hne normalize_new_probe hnames).mp hnamed
      · rintro ⟨first, ⟨rest, rfl, hrest⟩, hshort⟩
        have hne : normalize first ≠ "probe" := normalize_ne hglobal global_toLower probe_not_global
        rw [set_replaced hrest] at hto
        refine ⟨hfrom.symm ▸ .same _, hto.symm ▸ .replaced _ _ _, fun hnames => ?_⟩
        rw [hfrom, hto]
        exact ⟨hnames,
          (names_replaced_iff hrest hne normalize_new_probe hnames).mpr (hshort hnames)⟩
  | false =>
      have hto := to_probe_of_not_global hglobal
      cases hprobe : firstIdentEq (relationIdentParts name) "probe" with
      | true =>
          have hfrom := to_global_of_probe hglobal hprobe
          rw [if_pos (.inr rfl)]
          constructor
          · intro hkept
            have hrenamed := hkept.to_global
            rw [hfrom, renamed_replaced_iff (first_ident_ne_nil hprobe)] at hrenamed
            obtain ⟨first, rest, rfl, hrest⟩ := hrenamed
            rw [set_replaced hrest] at hfrom
            have hne : normalize first ≠ "global" :=
              normalize_ne hprobe probe_toLower global_not_probe
            refine ⟨first, ⟨rest, rfl, hrest⟩, fun hnames => ?_⟩
            have hnamed := (hkept.named hnames).1
            rw [hfrom] at hnamed
            exact (names_replaced_iff hrest hne normalize_new_global hnames).mp hnamed
          · rintro ⟨first, ⟨rest, rfl, hrest⟩, hshort⟩
            have hne : normalize first ≠ "global" :=
              normalize_ne hprobe probe_toLower global_not_probe
            rw [set_replaced hrest] at hfrom
            refine ⟨hfrom.symm ▸ .replaced _ _ _, hto.symm ▸ .same _, fun hnames => ?_⟩
            rw [hfrom, hto]
            exact ⟨(names_replaced_iff hrest hne normalize_new_global hnames).mpr (hshort hnames),
              hnames⟩
      | false =>
          rw [if_neg (by simp)]
          cases hschema : (relationIdentParts name).head?.any knownSchema with
          | true =>
              have hfrom := to_global_of_schema hglobal hprobe hschema
              have hparts : relationIdentParts name ≠ [] := by
                intro hnil
                rw [hnil] at hschema
                cases hschema
              rw [if_pos rfl]
              constructor
              · intro hkept
                have hrenamed := hkept.to_global
                rw [hfrom, renamed_added_iff hparts] at hrenamed
                rw [set_added hrenamed] at hfrom
                refine ⟨hrenamed, fun hnames => ?_⟩
                have hnamed := (hkept.named hnames).1
                rw [hfrom] at hnamed
                exact (names_added_iff hrenamed normalize_new_global hnames).mp hnamed
              · rintro ⟨hname, hshort⟩
                rw [set_added hname] at hfrom
                refine ⟨hfrom.symm ▸ .added _ _, hto.symm ▸ .same _, fun hnames => ?_⟩
                rw [hfrom, hto]
                exact ⟨(names_added_iff hname normalize_new_global hnames).mpr (hshort hnames),
                  hnames⟩
          | false =>
              have hfrom := to_global_of_other hprobe hschema
              rw [if_neg Bool.false_ne_true]
              refine iff_of_true ⟨hfrom.symm ▸ .same _, hto.symm ▸ .same _,
                fun hnames => ?_⟩ trivial
              rw [hfrom, hto]
              exact ⟨hnames, hnames⟩

end Columns

section Exact

variable {parse : String → Except String (List Statement)} {print : Statement → String}
    {default_schema sql : String}
  {statements : List Statement}

/-- What the rewriting owes each item of a tree. -/
def ItemKept (default_schema : String) : Item → Prop
  | .relation ctes name => RelationKept default_schema ctes name
  | .column tables qualifier => ColumnKept tables qualifier
  | .query | .command _ | .into _ => True

/-- The items that the rewriting treats well. -/
def SafeItem (default_schema : String) : Item → Prop
  | .relation ctes name => SafeRelation default_schema ctes name
  | .column tables qualifier => ∀ name ∈ tables, SafeColumn name qualifier
  | .query | .command _ | .into _ => True

theorem item_kept_iff (i : Item) : ItemKept default_schema i ↔ SafeItem default_schema i := by
  cases i with
  | relation ctes name => exact relation_kept_iff
  | column tables qualifier => exact column_kept_iff.trans (forall₂_congr fun _ _ => table_kept_iff)
  | query => exact Iff.rfl
  | command kind => exact Iff.rfl
  | into name => exact Iff.rfl

/-- A tree whose relations have been moved to the `global` catalog is read as it is printed,
if their names have kept their identifiers. -/
def Reprints (parse : String → Except String (List Statement))
    (print : Statement → String) : Prop :=
  ∀ sql statements, parse sql = .ok statements →
    (∀ s ∈ statements, ∀ ctes name, .relation ctes name ∈ s.items .empty →
      Renamed name (rewriteRelationToGlobal name)) →
    parse (printed print (statements.map (Statement.visitRelations rewriteRelationToGlobal))) =
      .ok (statements.map (Statement.visitRelations rewriteRelationToGlobal))

/-- The rewriting renames the relations of these statements and nothing else, and is undone
by the rewriting for the nodes. -/
structure Undone (parse : String → Except String (List Statement)) (print : Statement → String)
    (default_schema sql : String) (statements : List Statement) : Prop where
  kept : ∀ s ∈ statements, ∀ i ∈ s.items .empty, ItemKept default_schema i
  reads : parse (rewriteSqlForGlobalFanout parse print sql) =
    .ok (statements.map (Statement.visitRelations rewriteRelationToGlobal))
  again : rewriteGlobalCatalogToProbe parse print (rewriteSqlForGlobalFanout parse print sql) =
    printed print (statements.map fun s =>
      (s.visitRelations rewriteRelationToGlobal).visitRelations rewriteRelationGlobalToProbe)
  items : ∀ s ∈ statements, ((s.visitRelations rewriteRelationToGlobal).visitRelations
    rewriteRelationGlobalToProbe).items .empty =
      ((s.items .empty).map (Item.rename rewriteRelationToGlobal)).map
        (Item.rename rewriteRelationGlobalToProbe)

/-- Statements that parse are rewritten as trees. -/
theorem rewrite_parsed (hparse : parse sql = .ok statements) (hsome : statements ≠ [])
    (f : ObjectName → ObjectName) :
    rewriteCatalogRelations parse print sql f =
      some (printed print (statements.map (Statement.visitRelations f))) := by
  unfold rewriteCatalogRelations
  rw [hparse]
  cases statements with
  | nil => exact absurd rfl hsome
  | cons s rest => rfl

/-- The rewriting is a renaming that undoes itself exactly for the statements whose relations
and columns it treats well. -/
theorem catalog_rewrite_iff (hreprints : Reprints parse print) (hparse : parse sql = .ok statements)
    (hsome : statements ≠ []) : Undone parse print default_schema sql statements ↔
      ∀ s ∈ statements, ∀ i ∈ s.items .empty, SafeItem default_schema i := by
  constructor
  · exact fun h s hs i hi => (item_kept_iff i).mp (h.kept s hs i hi)
  · intro h
    have hkept : ∀ s ∈ statements, ∀ i ∈ s.items .empty, ItemKept default_schema i :=
      fun s hs i hi => (item_kept_iff i).mpr (h s hs i hi)
    have hglobal : rewriteSqlForGlobalFanout parse print sql =
        printed print (statements.map (Statement.visitRelations rewriteRelationToGlobal)) := by
      unfold rewriteSqlForGlobalFanout
      rw [rewrite_parsed hparse hsome, Option.getD_some]
    have hreads : parse (rewriteSqlForGlobalFanout parse print sql) =
        .ok (statements.map (Statement.visitRelations rewriteRelationToGlobal)) := by
      rw [hglobal]
      exact hreprints sql statements hparse fun s hs ctes name hname =>
        (hkept s hs _ hname).to_global
    refine ⟨hkept, hreads, ?_, fun s _ => ?_⟩
    · unfold rewriteGlobalCatalogToProbe
      rw [rewrite_parsed hreads (fun hnil => hsome (List.map_eq_nil_iff.mp hnil)),
        Option.getD_some, List.map_map]
      rfl
    · have hfirst := statement_items (f := rewriteRelationToGlobal) .empty s
      have hsecond := statement_items (f := rewriteRelationGlobalToProbe) .empty
        (s.visitRelations rewriteRelationToGlobal)
      rw [← hfirst]
      exact hsecond

end Exact

/-- The texts of a scan of one relation. -/
def printScan (s : Statement) : String :=
  match relations (s.items .empty) with
  | [name] => "SELECT rank FROM " ++ ".".intercalate (relationIdentParts name)
  | _ => ""

/-- A parser for two strings. -/
def parseScan (sql : String) : Except String (List Statement) :=
  if sql = "SELECT rank FROM python.metrics" then
    .ok [.Query (scanOf (.Table (plainName ["python", "metrics"]) false []))]
  else if sql = "SELECT rank FROM global.python.metrics" then
    .ok [.Query (scanOf (.Table (plainName ["global", "python", "metrics"]) false []))]
  else .error "unexpected statement"

theorem scan_to_global {parts : List String}
    (h : rewriteRelationToGlobal (plainName parts) = plainName ["global", "python", "metrics"]) :
    [Statement.Query (scanOf (.Table (plainName parts) false []))].map
        (Statement.visitRelations rewriteRelationToGlobal) =
      [.Query (scanOf (.Table (plainName ["global", "python", "metrics"]) false []))] := by
  rw [← h]
  rfl

theorem reprints_scan : Reprints parseScan printScan := by
  intro sql statements hparse _
  have hprint : printed printScan
    [.Query (scanOf (.Table (plainName ["global", "python", "metrics"]) false []))] =
      "SELECT rank FROM global.python.metrics" := by decide
  have hread : parseScan "SELECT rank FROM global.python.metrics" =
      .ok [.Query (scanOf (.Table (plainName ["global", "python", "metrics"]) false []))] := by
    have hother : "SELECT rank FROM global.python.metrics" ≠ "SELECT rank FROM python.metrics" := by
      decide
    unfold parseScan
    rw [if_neg hother, if_pos rfl]
  unfold parseScan at hparse
  split_ifs at hparse
  · obtain rfl := Except.ok.inj hparse
    rw [scan_to_global (by decide +kernel), hprint, hread]
  · obtain rfl := Except.ok.inj hparse
    rw [scan_to_global (by decide +kernel), hprint, hread]

theorem catalog_rewrite_scan : Undone parseScan printScan "probe" "SELECT rank FROM python.metrics"
    [.Query (scanOf (.Table (plainName ["python", "metrics"]) false []))] := by
  refine (catalog_rewrite_iff reprints_scan rfl (List.cons_ne_nil _ _)).mpr fun s hs i hi => ?_
  obtain rfl := List.mem_singleton.mp hs
  have hitems :
    (Statement.Query (scanOf (.Table (plainName ["python", "metrics"]) false []))).items .empty =
      [.query, .relation [] (plainName ["python", "metrics"])] := rfl
  rw [hitems] at hi
  rcases List.mem_cons.mp hi with rfl | hi
  · exact trivial
  · obtain rfl := List.mem_singleton.mp hi
    have hglobal : firstIdentEq (relationIdentParts (plainName ["python", "metrics"])) "global" =
        false := by
      decide +kernel
    have hprobe : firstIdentEq (relationIdentParts (plainName ["python", "metrics"])) "probe" =
        false := by
      decide +kernel
    have hschema : (relationIdentParts (plainName ["python", "metrics"])).head?.any knownSchema =
        true := by
      decide +kernel
    unfold SafeItem SafeRelation
    dsimp only
    rw [hglobal, hprobe, hschema, if_neg Bool.false_ne_true, if_neg Bool.false_ne_true, if_pos rfl]
    decide

/-- `WITH python AS (SELECT 1 AS x) SELECT x FROM python`. -/
def cteScan : Statement :=
  .Query (.mk false [.mk (.new "python") (.mk false [] (.Select none [] []) [])]
    (.Select none [.mk (.Table (plainName ["python"]) false []) [] []] []) [])

/-- A parser for one string. -/
def parseCte (sql : String) : Except String (List Statement) :=
  if sql = "WITH python AS (SELECT 1 AS x) SELECT x FROM python" then .ok [cteScan]
  else .error "unexpected statement"

/-- A CTE with the name of a schema is taken for a catalog table. -/
theorem catalog_rewrite_takes_cte :
    ¬ Undone parseCte printScan "probe" "WITH python AS (SELECT 1 AS x) SELECT x FROM python"
    [cteScan] := by
  intro h
  have hitem : Item.relation [.new "python"] (plainName ["python"]) ∈ cteScan.items .empty := by
    decide
  have hkept : RelationKept "probe" [.new "python"] (plainName ["python"]) :=
    h.kept cteScan (List.mem_singleton_self _) _ hitem
  have hcte : denotesCte [.new "python"] (plainName ["python"]) = true := by decide +kernel
  have htaken : rewriteRelationToGlobal (plainName ["python"]) ≠ plainName ["python"] := by
    decide +kernel
  exact htaken (hkept.cte hcte).1

end Probing.Sql.Ast
