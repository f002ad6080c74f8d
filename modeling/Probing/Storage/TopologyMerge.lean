import Mathlib.Data.List.AList
import Mathlib.Data.List.MinMax
import Mathlib.Data.List.Perm.Basic
import Mathlib.Data.Prod.Lex

/-!
# Merging topology views

A view says which workers every node has, and how recent that is. `merge` raises the version and
the timestamp to those of the other view, but takes the other view's worker lists in any case:
of several views of a node the one merged last decides, not the most recent one.
-/

namespace Probing.Storage

structure TopologyView where
  version : ℕ
  timestamp : ℕ
  workersPerNode : AList fun _ : String => List String
  estimatedTotalNodes : ℕ

namespace TopologyView

def empty : TopologyView := ⟨0, 0, ∅, 0⟩

def getWorkers (v : TopologyView) (node : String) : Option (List String) :=
  v.workersPerNode.lookup node

def merge (self other : TopologyView) : TopologyView where
  version := if self.version < other.version then other.version else self.version
  timestamp := if self.timestamp < other.timestamp then other.timestamp else self.timestamp
  workersPerNode := other.workersPerNode.entries.foldl
    (fun m e => m.insert e.1 e.2) self.workersPerNode
  estimatedTotalNodes := max self.estimatedTotalNodes other.estimatedTotalNodes

/-- The views merged one after the other. -/
def mergeAll (views : List TopologyView) : TopologyView := views.foldl merge empty

/-- Two views that no reader tells apart. -/
structure Same (v w : TopologyView) : Prop where
  version : v.version = w.version
  timestamp : v.timestamp = w.timestamp
  workers : ∀ node, v.getWorkers node = w.getWorkers node
  estimated : v.estimatedTotalNodes = w.estimatedTotalNodes

/-- How recent a view is: by version, then by timestamp. -/
def stamp (v : TopologyView) : ℕ ×ₗ ℕ := toLex (v.version, v.timestamp)

/-- The view knows the node and no view of the list that does is more recent. -/
structure Recent (views : List TopologyView) (node : String) (v : TopologyView) : Prop where
  mem : v ∈ views
  knows : (v.getWorkers node).isSome
  newest : ∀ w ∈ views, (w.getWorkers node).isSome → w.stamp ≤ v.stamp

/-- The merged list of a node is that of a most recent view that knows the node. -/
def UpToDate (views : List TopologyView) (node : String) : Prop :=
  match (mergeAll views).getWorkers node with
  | none => ∀ v ∈ views, v.getWorkers node = none
  | some workers => ∃ v, Recent views node v ∧ v.getWorkers node = some workers

/-- What merging should promise for a list of views. -/
structure MergesWell (views : List TopologyView) : Prop where
  order : ∀ l : List TopologyView, l.Perm views → (mergeAll l).Same (mergeAll views)
  twice : ∀ v w : TopologyView, ((v.merge w).merge w).Same (v.merge w)
  recent : ∀ node, UpToDate views node

/-- No two views list different workers for a node. -/
def Agree (views : List TopologyView) : Prop :=
  ∀ v ∈ views, ∀ w ∈ views, ∀ node workers workers', v.getWorkers node = some workers →
    w.getWorkers node = some workers' → workers = workers'

section Lookup

variable {v w : TopologyView} {views : List TopologyView} {node : String}

/-- Entries inserted one by one are found before those of the map. -/
theorem lookup_insert_entries {l : List (Σ _ : String, List String)} (hl : l.NodupKeys)
    (m : AList fun _ : String => List String) :
    (l.foldl (fun m e => m.insert e.1 e.2) m).lookup node =
      (l.dlookup node).or (m.lookup node) := by
  induction l generalizing m with
  | nil => rfl
  | cons e l ih =>
      obtain ⟨hnot, hl⟩ := List.nodupKeys_cons.mp hl
      rw [List.foldl_cons, ih hl]
      by_cases hnode : node = e.1
      · have hnone : l.dlookup node = none := List.dlookup_eq_none.mpr (hnode ▸ hnot)
        subst hnode
        rw [hnone, List.dlookup_cons_eq, AList.lookup_insert]
        rfl
      · rw [AList.lookup_insert_ne hnode, List.dlookup_cons_ne _ _ hnode]

/-- The other view's list of a node wins. -/
theorem getWorkers_merge :
    (v.merge w).getWorkers node = (w.getWorkers node).or (v.getWorkers node) :=
  lookup_insert_entries w.workersPerNode.nodupKeys v.workersPerNode

@[simp] theorem version_merge : (v.merge w).version = max v.version w.version := by
  simp only [merge]
  split_ifs <;> omega

@[simp] theorem timestamp_merge : (v.merge w).timestamp = max v.timestamp w.timestamp := by
  simp only [merge]
  split_ifs <;> omega

@[simp] theorem estimated_merge : (v.merge w).estimatedTotalNodes =
    max v.estimatedTotalNodes w.estimatedTotalNodes := rfl

/-- What the last view that knows a node lists for it. -/
def lastKnown (views : List TopologyView) (node : String) : Option (List String) :=
  views.reverse.findSome? fun v => v.getWorkers node

@[simp] theorem lastKnown_snoc :
    lastKnown (views ++ [v]) node = (v.getWorkers node).or (lastKnown views node) := by
  simp only [lastKnown, List.reverse_append, List.reverse_singleton, List.singleton_append,
    List.findSome?_cons]
  cases v.getWorkers node <;> rfl

theorem lastKnown_eq_none : lastKnown views node = none ↔
    ∀ v ∈ views, v.getWorkers node = none := by
  simp [lastKnown]

theorem exists_of_lastKnown {workers : List String} (h : lastKnown views node = some workers) :
    ∃ v ∈ views, v.getWorkers node = some workers := by
  obtain ⟨v, hv, hworkers⟩ := List.exists_of_findSome?_eq_some h
  exact ⟨v, List.mem_reverse.mp hv, hworkers⟩

/-- The merged list of a node is that of the last view that knows it. -/
theorem getWorkers_mergeAll : (mergeAll views).getWorkers node = lastKnown views node := by
  induction views using List.reverseRecOn with
  | nil => rfl
  | append_singleton views v ih =>
      rw [lastKnown_snoc, ← ih]
      simp only [mergeAll, List.foldl_append, List.foldl_cons, List.foldl_nil]
      exact getWorkers_merge

/-- The other fields are folds of maxima. -/
theorem mergeAll_fields (views : List TopologyView) :
    (mergeAll views).version = (views.map version).foldl max 0 ∧
    (mergeAll views).timestamp = (views.map timestamp).foldl max 0 ∧
    (mergeAll views).estimatedTotalNodes =
      (views.map estimatedTotalNodes).foldl max 0 := by
  induction views using List.reverseRecOn with
  | nil => exact ⟨rfl, rfl, rfl⟩
  | append_singleton views v ih =>
      obtain ⟨hversion, htimestamp, hestimated⟩ := ih
      simp only [mergeAll] at hversion htimestamp hestimated
      simp [mergeAll, List.foldl_append, hversion, htimestamp, hestimated]

/-- Merging a view once more changes nothing. -/
theorem merge_twice (v w : TopologyView) : ((v.merge w).merge w).Same (v.merge w) where
  version := by simp
  timestamp := by simp
  workers node := by
    simp only [getWorkers_merge]
    cases w.getWorkers node <;> rfl
  estimated := by simp

end Lookup

section Order

variable {views l : List TopologyView} {node : String}

theorem foldl_max_perm {xs ys : List ℕ} (h : xs.Perm ys) : xs.foldl max 0 = ys.foldl max 0 :=
  h.foldl_eq 0

/-- Up to the worker lists the order of the views does not matter. -/
theorem mergeAll_perm (h : l.Perm views)
    (hworkers : ∀ node, lastKnown l node = lastKnown views node) :
    (mergeAll l).Same (mergeAll views) := by
  obtain ⟨hversion, htimestamp, hestimated⟩ := mergeAll_fields l
  obtain ⟨hversion', htimestamp', hestimated'⟩ := mergeAll_fields views
  refine ⟨?_, ?_, fun node => ?_, ?_⟩
  · rw [hversion, hversion', foldl_max_perm (h.map _)]
  · rw [htimestamp, htimestamp', foldl_max_perm (h.map _)]
  · rw [getWorkers_mergeAll, getWorkers_mergeAll, hworkers]
  · rw [hestimated, hestimated', foldl_max_perm (h.map _)]

/-- A view that knows the node decides when it is merged last. -/
theorem exists_perm_last {v : TopologyView} {workers : List String} (hv : v ∈ views)
    (hworkers : v.getWorkers node = some workers) :
    ∃ l : List TopologyView, l.Perm views ∧ lastKnown l node = some workers := by
  obtain ⟨s, t, rfl⟩ := List.append_of_mem hv
  refine ⟨s ++ t ++ [v], ?_, by rw [lastKnown_snoc, hworkers]; rfl⟩
  rw [List.append_assoc]
  have hlast : (t ++ [v]).Perm (v :: t) := List.perm_append_comm
  exact hlast.append_left s

/-- Some view that knows the node is the most recent one. -/
theorem exists_recent {v : TopologyView} (hv : v ∈ views) (hknows : (v.getWorkers node).isSome) :
    ∃ w, Recent views node w := by
  have hmem : v ∈ views.filter fun w => (w.getWorkers node).isSome :=
    List.mem_filter.mpr ⟨hv, hknows⟩
  cases hmax : (views.filter fun w => (w.getWorkers node).isSome).argmax stamp with
  | none => exact absurd hmem (by rw [List.argmax_eq_none.mp hmax]; exact List.not_mem_nil)
  | some w =>
      obtain ⟨hw, hwknows⟩ := List.mem_filter.mp (List.argmax_mem hmax)
      exact ⟨w, hw, hwknows, fun u hu huknows =>
        List.le_of_mem_argmax (List.mem_filter.mpr ⟨hu, huknows⟩) hmax⟩

/-- For one order of arrival: the last view that knows the node must list what a most recent one
lists. -/
theorem upToDate_iff : UpToDate views node ↔ ∀ workers, lastKnown views node = some workers →
    ∃ v, Recent views node v ∧ v.getWorkers node = some workers := by
  unfold UpToDate
  rw [getWorkers_mergeAll]
  cases hlast : lastKnown views node with
  | none => simpa using lastKnown_eq_none.1 hlast
  | some workers => simp

theorem Agree.upToDate (h : Agree views) (node : String) : UpToDate views node := by
  rw [upToDate_iff]
  intro workers hworkers
  obtain ⟨v, hv, hlist⟩ := exists_of_lastKnown hworkers
  obtain ⟨w, hw⟩ := exists_recent hv (by rw [hlist]; rfl)
  obtain ⟨workers', hlist'⟩ := Option.isSome_iff_exists.mp hw.knows
  exact ⟨w, hw, (h v hv w hw.mem node _ _ hlist hlist') ▸ hlist'⟩

theorem Agree.perm (h : Agree views) (hperm : l.Perm views) (node : String) :
    lastKnown l node = lastKnown views node := by
  cases hlast : lastKnown views node with
  | none =>
      rw [lastKnown_eq_none] at hlast ⊢
      exact fun v hv => hlast v (hperm.mem_iff.mp hv)
  | some workers =>
      obtain ⟨v, hv, hlist⟩ := exists_of_lastKnown hlast
      cases hlast' : lastKnown l node with
      | none =>
          rw [lastKnown_eq_none.1 hlast' v (hperm.mem_iff.mpr hv)] at hlist
          exact absurd hlist (by simp)
      | some workers' =>
          obtain ⟨w, hw, hlist'⟩ := exists_of_lastKnown hlast'
          rw [h w (hperm.mem_iff.mp hw) v hv node _ _ hlist' hlist]

end Order

/-- Merging a list of views is independent of the order and up to date exactly if no two of the
views list different workers for a node. -/
theorem merges_well_iff (views : List TopologyView) : MergesWell views ↔ Agree views := by
  constructor
  · intro h v hv w hw node workers workers' hlist hlist'
    obtain ⟨l, hl, hlast⟩ := exists_perm_last hv hlist
    obtain ⟨l', hl', hlast'⟩ := exists_perm_last hw hlist'
    have hsame := ((h.order l hl).workers node).trans ((h.order l' hl').workers node).symm
    rw [getWorkers_mergeAll, getWorkers_mergeAll, hlast, hlast'] at hsame
    exact Option.some.inj hsame
  · intro h
    exact ⟨fun l hl => mergeAll_perm hl (h.perm hl), merge_twice, h.upToDate⟩

def newer : TopologyView := ⟨2, 20, AList.singleton "node1" ["worker2"], 1⟩

def older : TopologyView := ⟨1, 10, AList.singleton "node1" ["worker1"], 1⟩

/-- A late old view brings its workers back under the newer version, and the order decides. -/
theorem late_view_restores_workers : ¬ MergesWell [newer, older] ∧
    (mergeAll [newer, older]).version = 2 ∧
    (mergeAll [newer, older]).getWorkers "node1" = some ["worker1"] ∧
    (mergeAll [older, newer]).getWorkers "node1" = some ["worker2"] := by
  refine ⟨fun h => ?_, by decide, by decide, by decide⟩
  have hsame := (h.order [older, newer] (List.Perm.swap _ _ _)).workers "node1"
  exact absurd hsame (by decide)

end TopologyView

end Probing.Storage
