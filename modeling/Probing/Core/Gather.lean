import Mathlib.Algebra.Order.Ring.Int
import Mathlib.Data.List.Dedup
import Mathlib.Data.List.Induction
import Mathlib.Data.List.Perm.Basic
import Probing.Core.Keyed

/-!
# Gathering by key

A pass over a list that keeps one value for each key. An entry of a key changes the value of that
key, and an entry without a key changes nothing: the value of a key is that of a pass over the
entries of this key alone.
-/

namespace Probing.Core.Keyed

variable {K V E : Type*} [DecidableEq K]

/-- The value of a key. -/
def get (l : List (K × V)) (k : K) : Option V := (find Prod.fst l k).map Prod.snd

/-- The value of a key is set, or changed. -/
def update (f : Option V → V) (l : List (K × V)) (k : K) : List (K × V) :=
  set Prod.fst l (k, f (get l k))

/-- The value of a key is changed, where the key has one. -/
def modify (f : V → V) (l : List (K × V)) (k : K) : List (K × V) :=
  match get l k with
  | some v => set Prod.fst l (k, f v)
  | none => l

def gather (key : E → Option K) (step : E → Option V → V) (es : List E) : List (K × V) :=
  es.foldl (fun l e => match key e with
    | some k => update (step e) l k
    | none => l) []

variable {l : List (K × V)} {f : Option V → V} {j k : K}

theorem get_set_self {v : V} (h : (l.map Prod.fst).Nodup) :
    get (set Prod.fst l (k, v)) k = some v :=
  congrArg (Option.map Prod.snd) (find_set_self (v := (k, v)) h)

theorem get_set_of_ne {v : V} (h : (l.map Prod.fst).Nodup) (hne : j ≠ k) :
    get (set Prod.fst l (k, v)) j = get l j :=
  congrArg (Option.map Prod.snd) (find_set_of_ne (v := (k, v)) h hne)

theorem get_erase_self (h : (l.map Prod.fst).Nodup) : get (erase Prod.fst l k) k = none :=
  congrArg (Option.map Prod.snd) (find_erase_self h)

theorem get_erase_of_ne (hne : j ≠ k) : get (erase Prod.fst l k) j = get l j :=
  congrArg (Option.map Prod.snd) (find_erase_of_ne hne)

theorem nodup_update (h : (l.map Prod.fst).Nodup) : ((update f l k).map Prod.fst).Nodup :=
  nodup_set h

theorem get_update_self (h : (l.map Prod.fst).Nodup) :
    get (update f l k) k = some (f (get l k)) := get_set_self h

theorem get_update_of_ne (h : (l.map Prod.fst).Nodup) (hne : j ≠ k) :
    get (update f l k) j = get l j := get_set_of_ne h hne

theorem length_update_of_some {v : V} (h : get l k = some v) :
    (update f l k).length = l.length := by
  obtain ⟨u, hu, -⟩ := Option.map_eq_some_iff.mp h
  unfold update set
  rw [if_pos (by rw [hu]; rfl), List.length_map]

theorem length_update_of_none (h : get l k = none) : (update f l k).length = l.length + 1 := by
  have hnone : find Prod.fst l k = none := Option.map_eq_none_iff.mp h
  unfold update set
  rw [if_neg (by rw [hnone]; exact Bool.false_ne_true), List.length_append]
  rfl

theorem get_eq_none : get l k = none ↔ k ∉ l.map Prod.fst := by
  unfold get
  rw [Option.map_eq_none_iff, find_eq_none]
  constructor
  · intro h hmem
    obtain ⟨u, hu, heq⟩ := List.mem_map.mp hmem
    exact h u hu heq
  · exact fun h u hu heq => h (heq ▸ List.mem_map_of_mem hu)

theorem get_of_mem {v : V} (h : (l.map Prod.fst).Nodup) (hmem : (k, v) ∈ l) : get l k = some v :=
  congrArg (Option.map Prod.snd) (find_of_mem h hmem)

theorem mem_iff_get (h : (l.map Prod.fst).Nodup) {v : V} : (k, v) ∈ l ↔ get l k = some v := by
  refine ⟨get_of_mem h, fun hget => ?_⟩
  obtain ⟨⟨j, w⟩, hfind, hw⟩ := Option.map_eq_some_iff.mp hget
  obtain ⟨hmem, hkey⟩ := mem_of_find hfind
  exact (Prod.ext hkey hw : (j, w) = (k, v)) ▸ hmem

theorem get_perm {l' : List (K × V)} (h : (l.map Prod.fst).Nodup) (hperm : l'.Perm l) :
    get l' k = get l k := by
  have h' : (l'.map Prod.fst).Nodup := (hperm.map _).nodup_iff.mpr h
  ext v
  rw [← mem_iff_get h, ← mem_iff_get h', hperm.mem_iff]

/-- Values that are changed or dropped. -/
theorem get_filterMap {W : Type*} {change : V → Option W} (h : (l.map Prod.fst).Nodup) :
    get (l.filterMap fun e => (change e.2).map (e.1, ·)) k = (get l k).bind change := by
  have hsub : ((l.filterMap fun e => (change e.2).map (e.1, ·)).map Prod.fst).Sublist
      (l.map Prod.fst) := by
    clear h
    induction l with
    | nil => exact List.Sublist.refl _
    | cons e rest ih =>
        rw [List.filterMap_cons]
        cases change e.2 with
        | none => exact ih.cons _
        | some w => exact ih.cons_cons _
  ext w
  rw [← mem_iff_get (h.sublist hsub), Option.bind_eq_some_iff, List.mem_filterMap]
  constructor
  · rintro ⟨⟨j, v⟩, hmem, heq⟩
    obtain ⟨w', hw, hpair⟩ := Option.map_eq_some_iff.mp heq
    obtain ⟨rfl, rfl⟩ := Prod.mk.inj hpair
    exact ⟨v, get_of_mem h hmem, hw⟩
  · rintro ⟨v, hget, hw⟩
    exact ⟨(k, v), (mem_iff_get h).mpr hget, by rw [hw]; rfl⟩

/-- Lists that are sorted by their keys are equal when they have the same values. -/
theorem eq_of_get {r : K → K → Prop} {l₁ l₂ : List (K × V)} (hr : ∀ j k, r j k → ¬ r k j)
    (h₁ : l₁.Pairwise fun a b => r a.1 b.1) (h₂ : l₂.Pairwise fun a b => r a.1 b.1)
    (hget : ∀ k, get l₁ k = get l₂ k) : l₁ = l₂ := by
  have hnodup {l : List (K × V)} (h : l.Pairwise fun a b => r a.1 b.1) :
      (l.map Prod.fst).Nodup := by
    refine List.pairwise_map.mpr (h.imp fun {a b} hab heq => ?_)
    rw [heq] at hab
    exact hr _ _ hab hab
  refine List.Perm.eq_of_pairwise (fun a b _ _ hab hba => absurd hba (hr _ _ hab)) h₁ h₂ ?_
  refine (List.perm_ext_iff_of_nodup ((hnodup h₁).of_map _) ((hnodup h₂).of_map _)).mpr fun a => ?_
  rw [mem_iff_get (hnodup h₁), mem_iff_get (hnodup h₂), hget]

section Modify

variable {change : V → V}

theorem nodup_modify (h : (l.map Prod.fst).Nodup) : ((modify change l k).map Prod.fst).Nodup := by
  unfold modify
  split
  · exact nodup_set h
  · exact h

theorem get_modify_self (h : (l.map Prod.fst).Nodup) :
    get (modify change l k) k = (get l k).map change := by
  unfold modify
  cases hget : get l k with
  | none => exact hget
  | some v => exact get_set_self h

theorem get_modify_of_ne (h : (l.map Prod.fst).Nodup) (hne : j ≠ k) :
    get (modify change l k) j = get l j := by
  unfold modify
  cases get l k with
  | none => rfl
  | some v => exact get_set_of_ne h hne

end Modify

section Gather

variable {key : E → Option K} {step : E → Option V → V} {es : List E}

theorem gather_append (e : E) : gather key step (es ++ [e]) = match key e with
    | some k => update (step e) (gather key step es) k
    | none => gather key step es := by
  unfold gather
  rw [List.foldl_append]
  rfl

theorem nodup_gather : ((gather key step es).map Prod.fst).Nodup := by
  induction es using List.reverseRecOn with
  | nil => exact List.nodup_nil
  | append_singleton es e ih =>
      rw [gather_append]
      split
      · exact nodup_update ih
      · exact ih

/-- The value of a key is gathered from the entries of the key. -/
theorem get_gather (k : K) : get (gather key step es) k =
    (es.filter fun e => key e = some k).foldl (fun v e => some (step e v)) none := by
  induction es using List.reverseRecOn with
  | nil => rfl
  | append_singleton es e ih =>
      rw [gather_append, List.filter_append, List.foldl_append, ← ih]
      cases hkey : key e with
      | none => simp [hkey]
      | some j =>
          by_cases hj : j = k
          · subst hj
            simp [hkey, get_update_self nodup_gather]
          · have hne : ¬ key e = some k := fun heq => hj (Option.some.inj (hkey.symm.trans heq))
            simp [hkey, hj, get_update_of_ne nodup_gather (Ne.symm hj)]

theorem mem_gather : k ∈ (gather key step es).map Prod.fst ↔ ∃ e ∈ es, key e = some k := by
  rw [← not_iff_not, ← get_eq_none, get_gather]
  have hsome (l : List E) (v : Option V) : l.foldl (fun v e => some (step e v)) v = none ↔
      l = [] ∧ v = none := by
    induction l generalizing v with
    | nil => simp
    | cons e l ih => simp [ih]
  rw [hsome, and_iff_left rfl, List.filter_eq_nil_iff]
  simp

/-- One more entry adds its weight to the sum of its key. -/
theorem sum_keys_cons {e : E} (hkey : key e = some j) (weight : E → ℕ) {keys : List K}
    (hnodup : keys.Nodup) :
    (keys.map fun k => (((e :: es).filter fun e => key e = some k).map weight).sum).sum =
      (if j ∈ keys then weight e else 0) +
        (keys.map fun k => ((es.filter fun e => key e = some k).map weight).sum).sum := by
  induction keys with
  | nil => rfl
  | cons k keys ih =>
      obtain ⟨hk, hkeys⟩ := List.nodup_cons.mp hnodup
      rw [List.map_cons, List.sum_cons, ih hkeys, List.map_cons, List.sum_cons]
      by_cases hjk : j = k
      · subst hjk
        simp [hkey, hk]
        omega
      · simp [hkey, hjk]
        omega

/-- Sums over the keys are sums over the entries that have one. -/
theorem sum_keys {keys : List K} (hnodup : keys.Nodup) (weight : E → ℕ)
    (hkeys : ∀ e ∈ es, ∀ k, key e = some k → k ∈ keys) :
    (keys.map fun k => ((es.filter fun e => key e = some k).map weight).sum).sum =
      ((es.filter fun e => (key e).isSome).map weight).sum := by
  induction es with
  | nil =>
      clear hkeys hnodup
      induction keys with
      | nil => rfl
      | cons k keys ih => simp
  | cons e es ih =>
      have ih := ih fun x hx => hkeys x (List.mem_cons_of_mem e hx)
      cases hkey : key e with
      | none => simpa [hkey] using ih
      | some j =>
          rw [sum_keys_cons hkey weight hnodup, ih, if_pos (hkeys e List.mem_cons_self j hkey)]
          simp [hkey]

end Gather

section Groups

variable {R W : Type*} {key : E → K} {es : List E}

/-- Every key of a list with its entries. -/
def groups (key : E → K) (es : List E) : List (K × List E) :=
  (es.map key).dedup.map fun k => (k, es.filter fun e => key e = k)

theorem groups_map {F : Type*} (f : F → E) (fs : List F) :
    groups key (fs.map f) = (groups (fun x => key (f x)) fs).map fun g => (g.1, g.2.map f) := by
  unfold groups
  rw [List.map_map, List.map_map]
  exact List.map_congr_left fun k _ => Prod.ext rfl List.filter_map

/-- Groups under keys that tell apart what the keys before told apart. -/
theorem groups_injective {J : Type*} [DecidableEq J] {f : K → J} (hf : Function.Injective f) :
    groups (fun e => f (key e)) es = (groups key es).map fun g => (f g.1, g.2) := by
  have hkeys : (es.map fun e => f (key e)).dedup = (es.map key).dedup.map f := by
    rw [← List.dedup_map_of_injective hf, List.map_map]
    rfl
  unfold groups
  rw [hkeys, List.map_map, List.map_map]
  refine List.map_congr_left fun k _ => Prod.ext rfl ?_
  exact List.filter_congr fun e _ => by simp [hf.eq_iff]

theorem filter_groups (k : K) : (groups key es).filter (fun g => g.1 = k) =
    if k ∈ es.map key then [(k, es.filter fun e => key e = k)] else [] := by
  have hfilter : (es.map key).dedup.filter (fun j => j = k) = if k ∈ es.map key then
    [k] else [] := by
    rw [List.filter_eq]
    split
    next hk =>
      rw [List.count_eq_one_of_mem (List.nodup_dedup _) (List.mem_dedup.mpr hk), List.replicate_one]
    next hk =>
      rw [List.count_eq_zero_of_not_mem fun h => hk (List.mem_dedup.mp h), List.replicate_zero]
  calc
    (groups key es).filter (fun g => g.1 = k)
        = ((es.map key).dedup.filter fun j => j = k).map fun j =>
            (j, es.filter fun e => key e = j) := by
      unfold groups
      rw [List.filter_map]
      rfl
    _ = if k ∈ es.map key then [(k, es.filter fun e => key e = k)] else [] := by
      rw [hfilter]
      split <;> rfl

/-- What the parts of a list say about a key: the entries of the key, of every part that has
some. -/
def shares (key : E → K) (k : K) (parts : List (List E)) : List (List E) :=
  (parts.filter fun es => k ∈ es.map key).map fun es => es.filter fun e => key e = k

theorem flatten_shares (k : K) (parts : List (List E)) :
    (shares key k parts).flatten = parts.flatten.filter fun e => key e = k := by
  unfold shares
  induction parts with
  | nil => rfl
  | cons es parts ih =>
      rw [List.flatten_cons, List.filter_append, ← ih]
      by_cases hk : k ∈ es.map key
      · rw [List.filter_cons_of_pos (by simpa using hk), List.map_cons, List.flatten_cons]
      · have hnil : (es.filter fun e => key e = k) = [] :=
          List.filter_eq_nil_iff.mpr fun e he heq =>
            hk (of_decide_eq_true heq ▸ List.mem_map_of_mem he)
        rw [List.filter_cons_of_neg (by simpa using hk), hnil, List.nil_append]

theorem shares_ne_nil {k : K} {parts : List (List E)} (hk : k ∈ parts.flatten.map key) :
    shares key k parts ≠ [] := by
  obtain ⟨e, he, rfl⟩ := List.mem_map.mp hk
  obtain ⟨es, hes, hmem⟩ := List.mem_flatten.mp he
  refine List.ne_nil_of_mem (a := es.filter fun e' => key e' = key e)
    (List.mem_map.mpr ⟨es, ?_, rfl⟩)
  exact List.mem_filter.mpr ⟨hes, decide_eq_true (List.mem_map_of_mem hmem)⟩

/-- The rows that the groups of the parts are made into, by key. -/
theorem filter_made {make : K → List E → R} {key' : R → K}
    (hkey : ∀ k es, key' (make k es) = k) (k : K) (parts : List (List E)) :
    (parts.flatMap fun es => (groups key es).map fun g => make g.1 g.2).filter
    (fun r => key' r = k) =
      (shares key k parts).map (make k) := by
  unfold shares
  induction parts with
  | nil => rfl
  | cons es parts ih =>
      have hhead : ((groups key es).map fun g => make g.1 g.2).filter (fun r => key' r = k) =
          ((groups key es).filter fun g => g.1 = k).map fun g => make g.1 g.2 := by
        rw [List.filter_map]
        congr 1
        exact List.filter_congr fun g _ => by simp [hkey]
      rw [List.flatMap_cons, List.filter_append, ih, hhead, filter_groups]
      by_cases hk : k ∈ es.map key
      · rw [if_pos hk, List.filter_cons_of_pos (by simpa using hk)]
        rfl
      · rw [if_neg hk, List.filter_cons_of_neg (by simpa using hk)]
        rfl

theorem mem_keys_made {make : K → List E → R} {key' : R → K}
    (hkey : ∀ k es, key' (make k es) = k) (k : K) (parts : List (List E)) :
    k ∈ (parts.flatMap fun es => (groups key es).map fun g => make g.1 g.2).map key' ↔
    k ∈ parts.flatten.map key := by
  simp [groups, hkey, and_assoc]

/-- Groups are made part by part and then merged: where a merge of what is made of the shares of a
key is what is made of all its entries, this is the result for the whole list. -/
theorem merge_groups {make : K → List E → R} {merged : K → List R → W} {whole : K → List E → W}
    {key' : R → K} (hkey : ∀ k es, key' (make k es) = k)
    (hmerge : ∀ k (ess : List (List E)), ess ≠ [] → merged k (ess.map (make k)) =
      whole k ess.flatten)
    (parts : List (List E)) :
    ((groups key' (parts.flatMap fun es => (groups key es).map fun g => make g.1 g.2)).map fun g =>
      merged g.1 g.2).Perm ((groups key parts.flatten).map fun g => whole g.1 g.2) := by
  have hkeys :
    ((parts.flatMap fun es => (groups key es).map fun g => make g.1 g.2).map key').dedup.Perm
      (parts.flatten.map key).dedup :=
    (List.perm_ext_iff_of_nodup (List.nodup_dedup _) (List.nodup_dedup _)).mpr fun k => by
      rw [List.mem_dedup, List.mem_dedup, mem_keys_made hkey]
  have hvalue : ∀ k ∈ (parts.flatten.map key).dedup,
      merged k ((parts.flatMap fun es => (groups key es).map fun g => make g.1 g.2).filter fun r =>
        key' r = k) = whole k (parts.flatten.filter fun e => key e = k) := by
    intro k hk
    rw [filter_made hkey, hmerge k _ (shares_ne_nil (List.mem_dedup.mp hk)), flatten_shares]
  have hleft :
      ((groups key' (parts.flatMap fun es => (groups key es).map fun g => make g.1 g.2)).map
        fun g => merged g.1 g.2)
        = ((parts.flatMap fun es =>
              (groups key es).map fun g => make g.1 g.2).map key').dedup.map fun k =>
            merged k ((parts.flatMap fun es => (groups key es).map fun g => make g.1 g.2).filter
                fun r => key' r = k) :=
      List.map_map
  have hright : ((groups key parts.flatten).map fun g => whole g.1 g.2) =
      (parts.flatten.map key).dedup.map fun k =>
      whole k (parts.flatten.filter fun e => key e = k) := List.map_map
  rw [hleft, hright, ← List.map_congr_left hvalue]
  exact hkeys.map _

end Groups

/-- A fold that skips what is missing, and has no result where nothing is there. -/
def foldSome {α : Type*} (op : α → α → α) (vs : List (Option α)) : Option α :=
  vs.foldr (Option.merge op) none

section Fold

variable {α : Type*} {op : α → α → α}

theorem foldSome_append (hop : ∀ a b c, op (op a b) c = op a (op b c)) (us vs : List (Option α)) :
    foldSome op (us ++ vs) = Option.merge op (foldSome op us) (foldSome op vs) := by
  induction us with
  | nil => exact Option.merge_none_left.symm
  | cons u us ih =>
      change Option.merge op u (foldSome op (us ++ vs)) =
        Option.merge op (Option.merge op u (foldSome op us)) _
      rw [ih]
      cases u <;> cases foldSome op us <;> cases foldSome op vs <;> simp [Option.merge, hop]

/-- A fold over parts is a fold over the folds of the parts. -/
theorem foldSome_flatten (hop : ∀ a b c, op (op a b) c = op a (op b c))
    (vss : List (List (Option α))) :
    foldSome op (vss.map (foldSome op)) = foldSome op vss.flatten := by
  induction vss with
  | nil => rfl
  | cons vs vss ih =>
      rw [List.flatten_cons, foldSome_append hop, ← ih]
      rfl

end Fold

end Probing.Core.Keyed
