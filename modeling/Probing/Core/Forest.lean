import Mathlib.Algebra.BigOperators.Group.Finset.Sigma

/-!
# Self values in a forest

The members of a finite set have values, and some of them are the parent of others. What is left
of a value when the values of the direct children are taken away is the self value. The self
values under a member add up to its own value, since that of every other one is taken away once.

A forest is written down as a list of entries, each with a number, that of its parent and a label.
An entry comes before those under it, and the numbers count up. The list gives the forest back from
its leaves: those whose number is nobody's parent, and from each of them the way up to a root.
-/

namespace Probing.Core.SelfValue

variable {F A : Type*} [DecidableEq F] [AddCommGroup A] (parent : F → Option F) (M : Finset F)

def children (f : F) : Finset F := {c ∈ M | parent c = some f}

/-- The members that are reached from a member through parents that are members. -/
inductive Under (root : F) : F → Prop
  | root : Under root root
  | child {f c : F} (h : Under root f) (hmem : c ∈ M) (hparent : parent c = some f) : Under root c

variable {parent M} {rank : F → ℕ} {root f c : F}

theorem mem_children : c ∈ children parent M f ↔ c ∈ M ∧ parent c = some f := Finset.mem_filter

omit [DecidableEq F] in
theorem Under.rank_le (h : Under parent M root f)
    (hrank : ∀ c f, parent c = some f → rank f < rank c) : rank root ≤ rank f := by
  induction h with
  | root => exact le_rfl
  | child _ _ hparent ih => exact ih.trans (hrank _ _ hparent).le

omit [DecidableEq F] in
theorem Under.mem (h : Under parent M root f) (hroot : root ∈ M) : f ∈ M := by
  cases h with
  | root => exact hroot
  | child _ hmem _ => exact hmem

open Classical in
/-- All below the root are the children of one member each. -/
theorem under_erase (hrank : ∀ c f, parent c = some f → rank f < rank c) (hroot : root ∈ M) :
    ({f ∈ M | Under parent M root f}).erase root =
      ({f ∈ M | Under parent M root f}).biUnion (children parent M) := by
  ext c
  rw [Finset.mem_erase, Finset.mem_filter, Finset.mem_biUnion]
  constructor
  · rintro ⟨hne, hmem, h⟩
    cases h with
    | root => exact absurd rfl hne
    | @child f _ h _ hparent =>
        exact ⟨f, Finset.mem_filter.mpr ⟨h.mem hroot, h⟩, mem_children.2 ⟨hmem, hparent⟩⟩
  · rintro ⟨f, hf, hc⟩
    obtain ⟨hmem, hparent⟩ := mem_children.1 hc
    have h := (Finset.mem_filter.mp hf).2
    refine ⟨?_, hmem, h.child hmem hparent⟩
    rintro rfl
    have hlt := hrank _ _ hparent
    have hle := h.rank_le hrank
    omega

theorem children_disjoint (s : Set F) : s.PairwiseDisjoint (children parent M) := by
  intro f _ g _ hne
  refine Finset.disjoint_left.mpr fun c hf hg => hne ?_
  exact Option.some.inj ((mem_children.1 hf).2.symm.trans (mem_children.1 hg).2)

open Classical in
/-- The self values of a member and of all that is under it add up to its value. -/
theorem sum_under {own self : F → A} (hrank : ∀ c f, parent c = some f → rank f < rank c)
    (hself : ∀ f ∈ M, self f = own f - ∑ c ∈ children parent M f, own c) (hroot : root ∈ M) :
    ∑ f ∈ M with Under parent M root f, self f = own root := by
  have hmem : root ∈ ({f ∈ M | Under parent M root f} : Finset F) :=
    Finset.mem_filter.mpr ⟨hroot, .root⟩
  calc
    ∑ f ∈ M with Under parent M root f, self f
      = ∑ f ∈ M with Under parent M root f, (own f - ∑ c ∈ children parent M f, own c) :=
        Finset.sum_congr rfl fun f hf => hself f (Finset.mem_filter.mp hf).1
    _ = (∑ f ∈ M with Under parent M root f, own f) -
          ∑ f ∈ M with Under parent M root f, ∑ c ∈ children parent M f, own c :=
        Finset.sum_sub_distrib _ _
    _ = (∑ f ∈ M with Under parent M root f, own f) -
          ∑ c ∈ ({f ∈ M | Under parent M root f} : Finset F).erase root, own c := by
        rw [under_erase hrank hroot, Finset.sum_biUnion (children_disjoint _)]
    _ = own root := by
        rw [← Finset.add_sum_erase _ own hmem, add_sub_cancel_right]

end Probing.Core.SelfValue

namespace Probing.Core

/-- A first tree, by its label and what is under it, and the trees beside it. -/
inductive Forest (α : Type*) where
  | nil
  | node (label : α) (kids rest : Forest α)

namespace Forest

variable {α : Type*}

structure Entry (α : Type*) where
  id : ℕ
  parent : Option ℕ
  label : α

def size : Forest α → ℕ
  | nil => 0
  | node _ kids rest => kids.size + 1 + rest.size

def number : Forest α → Option ℕ → ℕ → List (Entry α)
  | nil, _, _ => []
  | node label kids rest, parent, n =>
      ⟨n, parent, label⟩ :: (kids.number (some n) (n + 1) ++ rest.number parent (n + 1 + kids.size))

/-- The labels from a root down to each leaf. -/
def leaves : Forest α → List (List α)
  | nil => []
  | node label nil rest => [label] :: rest.leaves
  | node label kids rest => kids.leaves.map (label :: ·) ++ rest.leaves

/-- The labels from an entry up to a root, when the turns are enough to get there. -/
def climb (look : ℕ → Option (Entry α)) : ℕ → Option ℕ → Option (List α)
  | _, none => some []
  | 0, some _ => none
  | turns + 1, some id => match look id with
    | none => some []
    | some e => (climb look turns e.parent).map (e.label :: ·)

/-- The entries that are nobody's parent. -/
def bottom (es : List (Entry α)) : List (Entry α) :=
  es.filter fun e => !es.any fun d => d.parent == some e.id

variable {f kids rest : Forest α} {label : α} {parent : Option ℕ} {n id turns : ℕ} {e : Entry α}
  {es : List (Entry α)} {look : ℕ → Option (Entry α)} {trail : List α}

@[simp] theorem leaves_node {first : α} {below beside : Forest α} :
    (node label (node first below beside) rest).leaves =
      (node first below beside).leaves.map (label :: ·) ++ rest.leaves := rfl

/-- A leaf is a root with nothing under it or a leaf of what is under a root. -/
theorem mem_leaves_node {path : List α} (hpath : path ∈ (node label kids rest).leaves) :
    (∃ below, path = label :: below ∧ (below = [] ∨ below ∈ kids.leaves)) ∨ path ∈ rest.leaves := by
  cases kids with
  | nil => exact (List.mem_cons.mp hpath).imp_left fun heq => ⟨[], heq, .inl rfl⟩
  | node first below beside =>
      refine (List.mem_append.mp hpath).imp_left fun hmem => ?_
      obtain ⟨under, hunder, rfl⟩ := List.mem_map.mp hmem
      exact ⟨under, rfl, .inr hunder⟩

theorem ids_number : (f.number parent n).map Entry.id = List.range' n f.size := by
  induction f generalizing parent n with
  | nil => rfl
  | node label kids rest ihk ihr =>
      have hsize : size (node label kids rest) = (kids.size + rest.size) + 1 := by
        rw [size]
        omega
      rw [number, List.map_cons, List.map_append, ihk, ihr, hsize, List.range'_succ,
        ← List.range'_append_1]

theorem length_number : (f.number parent n).length = f.size := by
  rw [← List.length_map Entry.id, ids_number, List.length_range']

theorem nodup_number : ((f.number parent n).map Entry.id).Nodup := by
  rw [ids_number]
  exact List.nodup_range'

theorem id_of_mem (h : e ∈ f.number parent n) : n ≤ e.id ∧ e.id < n + f.size := by
  have hmem : e.id ∈ (f.number parent n).map Entry.id := List.mem_map_of_mem h
  rwa [ids_number, List.mem_range'_1] at hmem

/-- Parents are that of the roots, and numbers of the forest's own. -/
theorem parent_of_mem (h : e ∈ f.number parent n) :
    e.parent = parent ∨ ∃ p, e.parent = some p ∧ n ≤ p ∧ p < e.id := by
  induction f generalizing parent n with
  | nil => exact absurd h List.not_mem_nil
  | node label kids rest ihk ihr =>
      rcases List.mem_cons.mp h with rfl | h
      · exact .inl rfl
      · rcases List.mem_append.mp h with h | h
        · have hid := (id_of_mem h).1
          rcases ihk h with hp | ⟨p, hp, hle, hlt⟩
          · exact .inr ⟨n, hp, Nat.le_refl n, by omega⟩
          · exact .inr ⟨p, hp, by omega, hlt⟩
        · rcases ihr h with hp | ⟨p, hp, hle, hlt⟩
          · exact .inl hp
          · exact .inr ⟨p, hp, by omega, hlt⟩

/-- The way up from an entry. -/
def Leads (look : ℕ → Option (Entry α)) (e : Entry α) (trail : List α) : Prop :=
  ∀ turns, e.id < turns → climb look turns (some e.id) = some trail

theorem leads_of_parent (hlook : look e.id = some e)
    (hparent : ∀ turns, e.id ≤ turns → climb look turns e.parent = some trail) :
    Leads look e (e.label :: trail) := by
  intro turns hturns
  cases turns with
  | zero => exact absurd hturns (Nat.not_lt_zero _)
  | succ turns =>
      rw [climb, hlook]
      change (climb look turns e.parent).map _ = _
      rw [hparent turns (by omega)]
      rfl

/-- A forest as a part of a list of entries: the list holds its entries and none else under them,
and goes up from its roots along `trail`. -/
structure Within (es : List (Entry α)) (look : ℕ → Option (Entry α)) (f : Forest α)
    (parent : Option ℕ) (n : ℕ) (trail : List α) : Prop where
  sub : ∀ e ∈ f.number parent n, e ∈ es
  found : ∀ e ∈ f.number parent n, look e.id = some e
  below : ∀ p, parent = some p → p < n
  up : ∀ turns, n ≤ turns → climb look turns parent = some trail
  closed : ∀ d ∈ es, ∀ q, d.parent = some q → n ≤ q → q < n + f.size → d ∈ f.number parent n

variable (h : Within es look (.node label kids rest) parent n trail)

include h

theorem Within.leads : Leads look ⟨n, parent, label⟩ (label :: trail) :=
  leads_of_parent (h.found _ List.mem_cons_self) h.up

/-- An entry whose parent is in the forest is in the same part of it. -/
theorem Within.cases {d : Entry α} (hd : d ∈ es) {q : ℕ} (hq : d.parent = some q) (hle : n ≤ q)
    (hlt : q < n + (Forest.node label kids rest).size) :
    (d ∈ kids.number (some n) (n + 1) ∧ q < n + 1 + kids.size) ∨
      (d ∈ rest.number parent (n + 1 + kids.size) ∧ n + 1 + kids.size ≤ q) := by
  have hroot (hsame : d.parent = parent) : False := by
    have := h.below q (hsame ▸ hq)
    omega
  rcases List.mem_cons.mp (h.closed d hd q hq hle hlt) with rfl | hmem
  · exact absurd rfl hroot
  · rcases List.mem_append.mp hmem with hmem | hmem
    · refine .inl ⟨hmem, ?_⟩
      have hid := (id_of_mem hmem).2
      rcases parent_of_mem hmem with hp | ⟨p, hp, -, hp'⟩
      · have := Option.some.inj (hq.symm.trans hp)
        omega
      · have := Option.some.inj (hq.symm.trans hp)
        omega
    · refine .inr ⟨hmem, ?_⟩
      rcases parent_of_mem hmem with hp | ⟨p, hp, hp', -⟩
      · exact absurd hp hroot
      · have := Option.some.inj (hq.symm.trans hp)
        omega

theorem Within.under : Within es look kids (some n) (n + 1) (label :: trail) where
  sub e he := h.sub e (List.mem_cons_of_mem _ (List.mem_append_left _ he))
  found e he := h.found e (List.mem_cons_of_mem _ (List.mem_append_left _ he))
  below p hp := by
    have := Option.some.inj hp
    omega
  up turns hturns := h.leads turns hturns
  closed d hd q hq hle hlt := by
    rcases h.cases hd hq (by omega) (by rw [size]; omega) with ⟨hmem, -⟩ | ⟨-, hle'⟩
    · exact hmem
    · omega

theorem Within.beside : Within es look rest parent (n + 1 + kids.size) trail where
  sub e he := h.sub e (List.mem_cons_of_mem _ (List.mem_append_right _ he))
  found e he := h.found e (List.mem_cons_of_mem _ (List.mem_append_right _ he))
  below p hp := by
    have := h.below p hp
    omega
  up turns hturns := h.up turns (by omega)
  closed d hd q hq hle hlt := by
    rcases h.cases hd hq (by omega) (by rw [size]; omega) with ⟨-, hlt'⟩ | ⟨hmem, -⟩
    · omega
    · exact hmem

/-- A root is nobody's parent when nothing is under it. -/
theorem Within.bottom_iff : (es.any fun d => d.parent == some n) = true ↔ kids ≠ nil := by
  rw [List.any_eq_true]
  constructor
  · rintro ⟨d, hd, hparent⟩ rfl
    have hparent : d.parent = some n := by simpa using hparent
    rcases h.cases hd hparent (Nat.le_refl n) (by rw [size]; omega) with ⟨hmem, -⟩ | ⟨-, hle⟩
    · exact List.not_mem_nil hmem
    · rw [size] at hle
      omega
  · intro hne
    cases kids with
    | nil => exact absurd rfl hne
    | node first below beside =>
        exact ⟨⟨n + 1, some n, first⟩, h.under.sub _ List.mem_cons_self, by simp⟩

omit h in
/-- The leaves are what the entries at the bottom lead up along. -/
theorem Within.climbs {f : Forest α} (h : Within es look f parent n trail)
    (hturns : n + f.size ≤ turns) :
    ((f.number parent n).filter fun e => !es.any fun d => d.parent == some e.id).map
        (fun e => climb look turns (some e.id)) =
      f.leaves.map fun path => some (path.reverse ++ trail) := by
  induction f generalizing parent n trail with
  | nil => rfl
  | node label kids rest ihk ihr =>
      rw [size] at hturns
      have hkids := ihk h.under (by omega)
      have hrest := ihr h.beside (by omega)
      have hroot := h.leads turns (by dsimp only; omega)
      rw [number, List.filter_cons, List.filter_append]
      cases kids with
      | nil =>
          have hany := (not_congr h.bottom_iff).mpr (not_not.mpr rfl)
          rw [if_pos (by simpa using hany), List.map_cons, List.map_append, hkids, hrest, hroot,
            leaves]
          rfl
      | node first below beside =>
          have hany := h.bottom_iff.mpr (nomatch ·)
          rw [if_neg (by simpa using hany), List.map_append, hkids, hrest, leaves_node,
            List.map_append, List.map_map]
          simp [Function.comp_def]

omit h in
/-- A forest is read back from the entries at the bottom of its list. -/
theorem climbs_number {f : Forest α} (hlook : ∀ e ∈ f.number none 0, look e.id = some e)
    (hturns : f.size ≤ turns) :
    (bottom (f.number none 0)).map (fun e => climb look turns (some e.id)) =
      f.leaves.map fun path => some path.reverse := by
  have h : Within (f.number none 0) look f none 0 [] :=
    { sub := fun e he => he
      found := hlook
      below := fun _ hp => nomatch hp
      up := fun turns _ => by cases turns <;> rfl
      closed := fun d hd _ _ _ _ => hd }
  have hsize : 0 + f.size ≤ turns := by omega
  have hclimbs := h.climbs hsize
  simpa only [List.append_nil, bottom] using hclimbs

section Distinct

omit h

variable {K : Type*} (key : α → K)

def roots : Forest α → List α
  | nil => []
  | node label _ rest => label :: rest.roots

/-- Trees that are beside each other have roots with different keys. -/
def Distinct : Forest α → Prop
  | nil => True
  | node label kids rest => key label ∉ rest.roots.map key ∧ kids.Distinct ∧ rest.Distinct

variable {key} {path path' : List α}

theorem root_of_leaf {f : Forest α} (hpath : path ∈ f.leaves) :
    ∃ label ∈ f.roots, ∃ below, path = label :: below := by
  induction f with
  | nil => exact absurd hpath List.not_mem_nil
  | node label kids rest ihk ihr =>
      rcases mem_leaves_node hpath with ⟨below, rfl, -⟩ | hrest
      · exact ⟨label, List.mem_cons_self, below, rfl⟩
      · obtain ⟨l, hl, hbelow⟩ := ihr hrest
        exact ⟨l, List.mem_cons_of_mem _ hl, hbelow⟩

/-- No leaf is above another one, and none is there twice. -/
theorem leaves_apart {f : Forest α} (hf : f.Distinct key) : (f.leaves.map (·.map key)).Pairwise
    fun p q => ¬ p <+: q ∧ ¬ q <+: p := by
  induction f with
  | nil => exact List.Pairwise.nil
  | node label kids rest ihk ihr =>
      obtain ⟨hlabel, hkids, hrest⟩ := hf
      have hcross {below : List K} {p : List K} (hp : p ∈ rest.leaves.map (·.map key)) :
          ¬ (key label :: below) <+: p ∧ ¬ p <+: (key label :: below) := by
        obtain ⟨path, hpath, rfl⟩ := List.mem_map.mp hp
        obtain ⟨l, hl, under, rfl⟩ := root_of_leaf hpath
        have hne : key label ≠ key l := fun heq => hlabel (heq ▸ List.mem_map_of_mem hl)
        rw [List.map_cons, List.cons_prefix_cons, List.cons_prefix_cons]
        exact ⟨fun h => hne h.1, fun h => hne h.1.symm⟩
      cases kids with
      | nil =>
          rw [leaves, List.map_cons]
          exact List.pairwise_cons.mpr ⟨fun p hp => hcross hp, ihr hrest⟩
      | node first below beside =>
          rw [leaves_node, List.map_append, List.pairwise_append]
          refine ⟨?_, ihr hrest, ?_⟩
          · have hsame := ihk hkids
            rw [List.pairwise_map] at hsame
            rw [List.map_map, List.pairwise_map]
            refine hsame.imp fun {p q} hpq => ?_
            simpa [List.cons_prefix_cons] using hpq
          · intro p hp q hq
            obtain ⟨path, hpath, rfl⟩ := List.mem_map.mp hp
            obtain ⟨under, -, rfl⟩ := List.mem_map.mp hpath
            exact hcross hq

end Distinct

end Forest

end Probing.Core
