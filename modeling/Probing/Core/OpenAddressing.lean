import Mathlib.Data.Int.ModEq
import Mathlib.Data.List.Nodup
import Mathlib.Data.List.Perm.Subperm
import Mathlib.Data.List.TakeWhile

/-!
# Open addressing with tombstones

A table is a row of buckets, and every key visits all of them in an order of its own. An
entry is found again as long as no bucket that its key visits earlier is empty; a removal
leaves a tombstone and keeps that promise, an insertion may fill the first one.
-/

namespace Probing.Core.OpenAddressing

variable {K V : Type}

inductive Bucket (K V : Type) where
  | empty
  | tomb
  | live (key : K) (val : V)

theorem Bucket.empty_ne_live {K V : Type} {k : K} {v : V} :
    (.empty : Bucket K V) ≠ .live k v := nofun

theorem Bucket.tomb_ne_empty {K V : Type} : (.tomb : Bucket K V) ≠ .empty := nofun

theorem Bucket.tomb_ne_live {K V : Type} {k : K} {v : V} : (.tomb : Bucket K V) ≠ .live k v := nofun

theorem Bucket.live_ne_empty {K V : Type} {k : K} {v : V} : Bucket.live k v ≠ .empty := nofun

theorem Bucket.live_ne_tomb {K V : Type} {k : K} {v : V} : Bucket.live k v ≠ .tomb := nofun

def Bucket.entry : Bucket K V → Option (K × V)
  | .empty | .tomb => none
  | .live key val => some (key, val)

/-- The order in which each key visits the buckets. -/
structure Scheme (K : Type) where
  size : ℕ
  visits : K → List ℕ
  each : ∀ key, (visits key).Perm (List.range size)

namespace Scheme

variable {s : Scheme K} {key : K} {i : ℕ}

theorem mem_visits : i ∈ s.visits key ↔ i < s.size :=
  ((s.each key).mem_iff).trans List.mem_range

end Scheme

/-- Linear probing reaches every bucket once. -/
theorem linear_perm {n : ℕ} (hn : 0 < n) (a : ℕ) :
    ((List.range n).map fun probe => (a + probe) % n).Perm (List.range n) := by
  have hnodup : ((List.range n).map fun probe => (a + probe) % n).Nodup := by
    refine List.Nodup.map_on ?_ List.nodup_range
    intro x hx y hy heq
    rw [List.mem_range] at hx hy
    have hmod : Nat.ModEq n x y := Nat.ModEq.add_left_cancel' a heq
    rwa [Nat.ModEq, Nat.mod_eq_of_lt hx, Nat.mod_eq_of_lt hy] at hmod
  refine List.Subperm.perm_of_length_le (hnodup.subperm ?_) (by simp)
  intro i hi
  obtain ⟨probe, -, rfl⟩ := List.mem_map.mp hi
  exact List.mem_range.mpr (Nat.mod_lt _ hn)

/-- The buckets that are visited before one. -/
def before (visits : List ℕ) (i : ℕ) : List ℕ := visits.takeWhile (· ≠ i)

section Before

variable {i j : ℕ} {rest : List ℕ}

@[simp] theorem before_self (i : ℕ) (rest : List ℕ) : before (i :: rest) i = [] := by simp [before]

theorem before_cons (h : j ≠ i) : before (j :: rest) i = j :: before rest i := by simp [before, h]

theorem ne_of_mem_before (h : j ∈ before rest i) : j ≠ i := by
  have hne := List.mem_takeWhile_imp h
  exact of_decide_eq_true hne

theorem mem_of_mem_before (h : j ∈ before rest i) : j ∈ rest := (List.takeWhile_sublist _).subset h

end Before

section Search

variable [DecidableEq K] (cell : ℕ → Bucket K V) (key : K)

/-- Where a key is found, and its value. -/
def find : List ℕ → Option (ℕ × V)
  | [] => none
  | i :: rest =>
      match cell i with
      | .empty => none
      | .tomb => find rest
      | .live other val => if other = key then some (i, val) else find rest

inductive Target where
  | fresh (i : ℕ)
  | found (i : ℕ)
  | full
  deriving DecidableEq

/-- Where an insertion stores its entry. -/
def target : List ℕ → Option ℕ → Target
  | [], first_tomb => (first_tomb.map .fresh).getD .full
  | i :: rest, first_tomb =>
      match cell i with
      | .empty => .fresh (first_tomb.getD i)
      | .tomb => target rest (some (first_tomb.getD i))
      | .live other _ => if other = key then .found i else target rest first_tomb

variable {cell key} {visits : List ℕ} {i : ℕ} {val : V}

/-- An entry is found behind buckets that are neither empty nor of its key. -/
theorem find_live (hmem : i ∈ visits) (hcell : cell i = .live key val)
    (hbefore : ∀ j ∈ before visits i, cell j ≠ .empty ∧ ∀ v, cell j ≠ .live key v) :
    find cell key visits = some (i, val) := by
  induction visits with
  | nil => exact (List.not_mem_nil hmem).elim
  | cons j rest ih =>
      by_cases hji : j = i
      · subst hji
        simp [find, hcell]
      · have hrest : i ∈ rest := (List.mem_cons.mp hmem).resolve_left (Ne.symm hji)
        rw [before_cons hji] at hbefore
        have hfound := ih hrest fun j' hj' => hbefore j' (List.mem_cons_of_mem _ hj')
        obtain ⟨hempty, hother⟩ := hbefore j List.mem_cons_self
        cases hj : cell j with
        | empty => exact absurd hj hempty
        | tomb => simpa [find, hj] using hfound
        | live other v =>
            have hne : other ≠ key := by
              rintro rfl
              exact hother v hj
            simpa [find, hj, hne] using hfound

theorem find_absent (h : ∀ j ∈ visits, ∀ v, cell j ≠ .live key v) :
    find cell key visits = none := by
  induction visits with
  | nil => rfl
  | cons j rest ih =>
      have hrest := ih fun j' hj' => h j' (List.mem_cons_of_mem _ hj')
      cases hj : cell j with
      | empty => simp [find, hj]
      | tomb => simpa [find, hj] using hrest
      | live other v =>
          have hne : other ≠ key := by
            rintro rfl
            exact h j List.mem_cons_self v hj
          simpa [find, hj, hne] using hrest

theorem target_live (first_tomb : Option ℕ) (hmem : i ∈ visits) (hcell : cell i = .live key val)
    (hbefore : ∀ j ∈ before visits i, cell j ≠ .empty ∧ ∀ v, cell j ≠ .live key v) :
    target cell key visits first_tomb = .found i := by
  induction visits generalizing first_tomb with
  | nil => exact (List.not_mem_nil hmem).elim
  | cons j rest ih =>
      by_cases hji : j = i
      · subst hji
        simp [target, hcell]
      · have hrest : i ∈ rest := (List.mem_cons.mp hmem).resolve_left (Ne.symm hji)
        rw [before_cons hji] at hbefore
        have hfound :=
          fun first => ih first hrest fun j' hj' => hbefore j' (List.mem_cons_of_mem _ hj')
        obtain ⟨hempty, hother⟩ := hbefore j List.mem_cons_self
        cases hj : cell j with
        | empty => exact absurd hj hempty
        | tomb => simpa [target, hj] using hfound _
        | live other v =>
            have hne : other ≠ key := by
              rintro rfl
              exact hother v hj
            simpa [target, hj, hne] using hfound _

/-- What an insertion finds for a key that is not there. -/
def Vacant (cell : ℕ → Bucket K V) (visits : List ℕ) (first_tomb : Option ℕ) : Target → Prop
  | .found _ => False
  | .full => first_tomb = none ∧ ∀ i ∈ visits, (cell i).entry.isSome
  | .fresh i => first_tomb = some i ∨
      first_tomb = none ∧ i ∈ visits ∧ (cell i).entry = none ∧ ∀ j ∈ before visits i,
      cell j ≠ .empty

theorem target_absent (first_tomb : Option ℕ) (h : ∀ j ∈ visits, ∀ v, cell j ≠ .live key v) :
    Vacant cell visits first_tomb (target cell key visits first_tomb) := by
  induction visits generalizing first_tomb with
  | nil =>
      cases first_tomb with
      | none => exact ⟨rfl, fun i hi => (List.not_mem_nil hi).elim⟩
      | some i => exact .inl rfl
  | cons j rest ih =>
      have hrest := fun first => ih first fun j' hj' => h j' (List.mem_cons_of_mem _ hj')
      cases hj : cell j with
      | empty =>
          rw [target, hj]
          cases first_tomb with
          | none => exact .inr ⟨rfl, List.mem_cons_self, by simp [hj, Bucket.entry], by simp⟩
          | some i => exact .inl rfl
      | tomb =>
          have hafter := hrest (some (first_tomb.getD j))
          rw [target, hj]
          dsimp only
          cases htarget : target cell key rest (some (first_tomb.getD j)) with
          | found i =>
              rw [htarget] at hafter
              exact hafter.elim
          | full =>
              rw [htarget] at hafter
              exact (Option.some_ne_none _ hafter.1).elim
          | fresh i =>
              rw [htarget] at hafter
              have hi : first_tomb.getD j = i :=
                hafter.elim Option.some.inj fun h => (Option.some_ne_none _ h.1).elim
              cases first_tomb with
              | some k => exact .inl (congrArg some hi)
              | none =>
                  obtain rfl : j = i := hi
                  exact .inr ⟨rfl, List.mem_cons_self, by simp [hj, Bucket.entry], by simp⟩
      | live other v =>
          have hne : other ≠ key := by
            rintro rfl
            exact h j List.mem_cons_self v hj
          have hafter := hrest first_tomb
          rw [target, hj]
          dsimp only
          rw [if_neg hne]
          cases htarget : target cell key rest first_tomb with
          | found i =>
              rw [htarget] at hafter
              exact hafter.elim
          | full =>
              rw [htarget] at hafter
              refine ⟨hafter.1, fun i hi => ?_⟩
              rcases List.mem_cons.mp hi with rfl | hi
              · simp [hj, Bucket.entry]
              · exact hafter.2 i hi
          | fresh i =>
              rw [htarget] at hafter
              refine hafter.imp_right fun ⟨hnone, hmem, hentry, hbefore⟩ =>
                ⟨hnone, List.mem_cons_of_mem _ hmem, hentry, fun j' hj' => ?_⟩
              have hji : j ≠ i := by
                rintro rfl
                simp [hj, Bucket.entry] at hentry
              rw [before_cons hji] at hj'
              rcases List.mem_cons.mp hj' with rfl | hj'
              · simp [hj]
              · exact hbefore j' hj'

end Search

/-- The buckets hold the map. -/
structure Represents (s : Scheme K) (cell : ℕ → Bucket K V) (m : K → Option V) : Prop where
  stored : ∀ key val, m key = some val ↔ ∃ i < s.size, cell i = .live key val
  single : ∀ {i j key v w}, i < s.size → j < s.size → cell i = .live key v →
    cell j = .live key w → i = j
  reached : ∀ {i key v}, i < s.size → cell i = .live key v → ∀ j ∈ before (s.visits key) i,
    cell j ≠ .empty

namespace Represents

variable {s : Scheme K} {cell : ℕ → Bucket K V} {m : K → Option V} {key : K} {val : V} {i : ℕ}

/-- A table of empty buckets. -/
theorem empty (s : Scheme K) (h : ∀ i < s.size, (cell i).entry = none) :
    Represents s cell fun _ => none where
  stored key val := by
    refine iff_of_false (fun h => nomatch h) ?_
    rintro ⟨i, hi, hcell⟩
    simpa [hcell, Bucket.entry] using h i hi
  single hi _ hcell := by simpa [hcell, Bucket.entry] using h _ hi
  reached hi hcell := by simpa [hcell, Bucket.entry] using h _ hi

theorem absent (h : Represents s cell m) (hkey : m key = none) :
    ∀ j ∈ s.visits key, ∀ v, cell j ≠ .live key v := by
  intro j hj v hcell
  have hsome := (h.stored key v).mpr ⟨j, Scheme.mem_visits.mp hj, hcell⟩
  rw [hkey] at hsome
  cases hsome

theorem clear (h : Represents s cell m) (hi : i < s.size) (hcell : cell i = .live key val) :
    ∀ j ∈ before (s.visits key) i, cell j ≠ .empty ∧ ∀ v, cell j ≠ .live key v := by
  intro j hj
  refine ⟨h.reached hi hcell j hj, fun v hlive => ne_of_mem_before hj ?_⟩
  exact h.single (Scheme.mem_visits.mp (mem_of_mem_before hj)) hi hlive hcell

section Decided

variable [DecidableEq K]

/-- A lookup is the value of the map. -/
theorem find_eq (h : Represents s cell m) (key : K) :
    (find cell key (s.visits key)).map Prod.snd = m key := by
  cases hkey : m key with
  | none => rw [find_absent (h.absent hkey), Option.map_none]
  | some val =>
      obtain ⟨i, hi, hcell⟩ := (h.stored key val).mp hkey
      rw [find_live (Scheme.mem_visits.mpr hi) hcell (h.clear hi hcell), Option.map_some]

theorem find_some (h : Represents s cell m) (hfind : find cell key (s.visits key) = some (i, val)) :
    i < s.size ∧ cell i = .live key val := by
  have hkey := h.find_eq key
  rw [hfind] at hkey
  obtain ⟨j, hj, hcell⟩ := (h.stored key val).mp hkey.symm
  rw [find_live (Scheme.mem_visits.mpr hj) hcell (h.clear hj hcell)] at hfind
  obtain ⟨rfl, -⟩ := Prod.mk.inj (Option.some.inj hfind)
  exact ⟨hj, hcell⟩

theorem target_found (h : Represents s cell m)
    (htarget : target cell key (s.visits key) none = .found i) :
    i < s.size ∧ ∃ val, cell i = .live key val ∧ m key = some val := by
  cases hkey : m key with
  | none =>
      have hvacant := target_absent none (h.absent hkey)
      rw [htarget] at hvacant
      exact hvacant.elim
  | some val =>
      obtain ⟨j, hj, hcell⟩ := (h.stored key val).mp hkey
      rw [target_live none (Scheme.mem_visits.mpr hj) hcell (h.clear hj hcell)] at htarget
      obtain rfl := Target.found.inj htarget
      exact ⟨hj, val, hcell, rfl⟩

theorem not_found (h : Represents s cell m)
    (htarget : ∀ i, target cell key (s.visits key) none ≠ .found i) :
    m key = none := by
  cases hkey : m key with
  | none => rfl
  | some val =>
      obtain ⟨j, hj, hcell⟩ := (h.stored key val).mp hkey
      exact absurd (target_live none (Scheme.mem_visits.mpr hj) hcell (h.clear hj hcell))
        (htarget j)

theorem target_fresh (h : Represents s cell m)
    (htarget : target cell key (s.visits key) none = .fresh i) :
    m key = none ∧ i < s.size ∧ (cell i).entry = none ∧ ∀ j ∈ before (s.visits key) i,
    cell j ≠ .empty := by
  have hkey : m key = none := h.not_found fun j hj => by
    rw [htarget] at hj
    cases hj
  have hvacant := target_absent none (h.absent hkey)
  rw [htarget] at hvacant
  obtain ⟨-, hmem, hentry, hbefore⟩ := hvacant.resolve_left fun hnone => nomatch hnone
  exact ⟨hkey, Scheme.mem_visits.mp hmem, hentry, hbefore⟩

/-- An insertion finds no bucket exactly if its key is not there and every bucket is taken. -/
theorem target_full (h : Represents s cell m) :
    target cell key (s.visits key) none = .full ↔ m key = none ∧ ∀ i < s.size,
    (cell i).entry.isSome := by
  constructor
  · intro htarget
    have hkey : m key = none := h.not_found fun j hj => by
      rw [htarget] at hj
      cases hj
    have hvacant := target_absent none (h.absent hkey)
    rw [htarget] at hvacant
    exact ⟨hkey, fun i hi => hvacant.2 i (Scheme.mem_visits.mpr hi)⟩
  · rintro ⟨hkey, hlive⟩
    have hvacant := target_absent none (h.absent hkey)
    cases htarget : target cell key (s.visits key) none with
    | full => rfl
    | found i =>
        rw [htarget] at hvacant
        exact hvacant.elim
    | fresh i =>
        obtain ⟨-, hi, hentry, -⟩ := h.target_fresh htarget
        have hsome := hlive i hi
        rw [hentry] at hsome
        cases hsome

/-- A bucket that holds no other key takes an entry, if no other bucket holds its key. -/
theorem put (h : Represents s cell m) (hi : i < s.size)
    (hown : ∀ {k v}, cell i = .live k v → k = key)
    (honly : ∀ j < s.size, j ≠ i → ∀ v, cell j ≠ .live key v)
    (hbefore : ∀ j ∈ before (s.visits key) i, cell j ≠ .empty) (val : V) :
    Represents s (Function.update cell i (.live key val)) (Function.update m key (some val)) := by
  have hkept {j} (hj : cell j ≠ .empty) : Function.update cell i (Bucket.live key val) j ≠
      .empty := by
    by_cases hji : j = i
    · subst hji
      simp
    · rwa [Function.update_of_ne hji]
  -- a bucket of the key is this one, and a bucket of another key was there before
  have hcases {j k v} (hj : j < s.size)
    (hcell : Function.update cell i (Bucket.live key val) j = .live k v) :
      (j = i ∧ k = key ∧ v = val) ∨ (j ≠ i ∧ k ≠ key ∧ cell j = .live k v) := by
    by_cases hji : j = i
    · rw [hji, Function.update_self] at hcell
      obtain ⟨rfl, rfl⟩ := Bucket.live.inj hcell
      exact .inl ⟨hji, rfl, rfl⟩
    · rw [Function.update_of_ne hji] at hcell
      refine .inr ⟨hji, ?_, hcell⟩
      rintro rfl
      exact honly j hj hji v hcell
  constructor
  · intro k v
    by_cases hk : k = key
    · subst hk
      rw [Function.update_self]
      constructor
      · intro hv
        exact ⟨i, hi, by rw [Function.update_self, Option.some.inj hv]⟩
      · rintro ⟨j, hj, hcell⟩
        rcases hcases hj hcell with ⟨-, -, rfl⟩ | ⟨-, hne, -⟩
        · rfl
        · exact absurd rfl hne
    · rw [Function.update_of_ne hk, h.stored]
      constructor
      · rintro ⟨j, hj, hcell⟩
        have hji : j ≠ i := by
          rintro rfl
          exact hk (hown hcell)
        exact ⟨j, hj, by rwa [Function.update_of_ne hji]⟩
      · rintro ⟨j, hj, hcell⟩
        rcases hcases hj hcell with ⟨-, hkey, -⟩ | ⟨-, -, hold⟩
        · exact absurd hkey hk
        · exact ⟨j, hj, hold⟩
  · intro a b k v w ha hb hca hcb
    rcases hcases ha hca with ⟨rfl, rfl, -⟩ | ⟨-, hne, hold⟩
    · rcases hcases hb hcb with ⟨rfl, -, -⟩ | ⟨-, hne, -⟩
      · rfl
      · exact absurd rfl hne
    · rcases hcases hb hcb with ⟨-, rfl, -⟩ | ⟨-, -, hold'⟩
      · exact absurd rfl hne
      · exact h.single ha hb hold hold'
  · intro a k v ha hcell j hj
    rcases hcases ha hcell with ⟨rfl, rfl, -⟩ | ⟨-, -, hold⟩
    · exact hkept (hbefore j hj)
    · exact hkept (h.reached ha hold j hj)

/-- A bucket without an entry takes one. -/
theorem fill (h : Represents s cell m) (hkey : m key = none) (hi : i < s.size)
    (hentry : (cell i).entry = none)
    (hbefore : ∀ j ∈ before (s.visits key) i, cell j ≠ .empty) (val : V) :
    Represents s (Function.update cell i (.live key val)) (Function.update m key (some val)) := by
  refine h.put hi (fun hcell => ?_) (fun j hj _ => h.absent hkey j (Scheme.mem_visits.mpr hj))
    hbefore val
  simp [hcell, Bucket.entry] at hentry

/-- The bucket of a key takes another value. -/
theorem replace (h : Represents s cell m) (hi : i < s.size)
    (hlive : cell i = .live key val) (val' : V) :
    Represents s (Function.update cell i (.live key val')) (Function.update m key (some val')) :=
  h.put hi (fun hcell => (Bucket.live.inj (hcell.symm.trans hlive)).1)
    (fun _ hj hji _ hcell => hji (h.single hj hi hcell hlive)) (h.reached hi hlive) val'

/-- The bucket of a key becomes a tombstone. -/
theorem erase (h : Represents s cell m) (hi : i < s.size) (hlive : cell i = .live key val) :
    Represents s (Function.update cell i .tomb) (Function.update m key none) := by
  have hkept {j k v} (hj : Function.update cell i .tomb j = Bucket.live k v) : j ≠ i ∧
      cell j = .live k v := by
    by_cases hji : j = i
    · rw [hji, Function.update_self] at hj
      cases hj
    · rw [Function.update_of_ne hji] at hj
      exact ⟨hji, hj⟩
  constructor
  · intro k v
    by_cases hk : k = key
    · subst hk
      rw [Function.update_self]
      refine iff_of_false (fun hnone => nomatch hnone) ?_
      rintro ⟨j, hj, hcell⟩
      obtain ⟨hji, hcell⟩ := hkept hcell
      exact hji (h.single hj hi hcell hlive)
    · rw [Function.update_of_ne hk, h.stored]
      constructor
      · rintro ⟨j, hj, hcell⟩
        have hji : j ≠ i := by
          rintro rfl
          exact hk (Bucket.live.inj (hcell.symm.trans hlive)).1
        exact ⟨j, hj, by rwa [Function.update_of_ne hji]⟩
      · rintro ⟨j, hj, hcell⟩
        exact ⟨j, hj, (hkept hcell).2⟩
  · intro a b k v w ha hb hca hcb
    exact h.single ha hb (hkept hca).2 (hkept hcb).2
  · intro a k v ha hcell j hj
    by_cases hji : j = i
    · subst hji
      simp
    · rw [Function.update_of_ne hji]
      exact h.reached ha (hkept hcell).2 j hj

end Decided

end Represents

section Entries

variable {s : Scheme K} {cell : ℕ → Bucket K V} {m : K → Option V}

/-- The entries, bucket by bucket. -/
def entries (size : ℕ) (cell : ℕ → Bucket K V) : List (K × V) :=
  (List.range size).filterMap fun i => (cell i).entry

theorem entry_eq_some {b : Bucket K V} {key : K} {val : V} : b.entry = some (key, val) ↔
    b = .live key val := by
  cases b <;> simp [Bucket.entry]

theorem Represents.mem_entries (h : Represents s cell m) {key : K} {val : V} :
    (key, val) ∈ entries s.size cell ↔ m key = some val := by
  simp only [entries, List.mem_filterMap, List.mem_range, entry_eq_some, h.stored]

/-- No key has two entries. -/
theorem Represents.nodup_entries (h : Represents s cell m) :
    ((entries s.size cell).map Prod.fst).Nodup := by
  rw [List.Nodup, List.pairwise_map, entries, List.pairwise_filterMap]
  refine List.Pairwise.imp_of_mem ?_ List.nodup_range
  rintro i j hi hj hne ⟨key, v⟩ hv ⟨key', w⟩ hw (rfl : key = key')
  exact hne (h.single (List.mem_range.mp hi) (List.mem_range.mp hj) (entry_eq_some.mp hv)
    (entry_eq_some.mp hw))

theorem length_entries (size : ℕ) (cell : ℕ → Bucket K V) :
    (entries size cell).length = (List.range size).countP fun i => (cell i).entry.isSome := by
  rw [entries, List.length_filterMap_eq_countP]

theorem entries_full {size : ℕ} : (entries size cell).length = size ↔
    ∀ i < size, (cell i).entry.isSome := by
  have hlen := List.filterMap_length_eq_length (l := List.range size) (f := fun i => (cell i).entry)
  rw [List.length_range] at hlen
  rw [entries, hlen]
  simp

end Entries

end Probing.Core.OpenAddressing
