import Probing.Extern.TableClasses

/-!
# Classes that share a table

Classes with one table name share the registered table as long as the name keeps it. A class whose
fields differ is sent on to make a table of its own, which fails, and not with the error for this
case; and a class that drops the table frees the name while other classes still append to the old
table.
-/

namespace Probing.Extern

open Probing.Core (Meets)
open Probing.Core.Keyed (get)

variable {C V E D T : Type} {N : Native V E D T} {decl : C → Decl}
  {s u : State C D T} {a : Action C V} {cls other : C} {t t' : ℕ} {io : Bool} {row : List V}
  {rows : List (List V)} {d : Decl}

namespace State

@[simp] theorem release_cache : (s.release t).cache = s.cache := by
  unfold release
  split
  · rfl
  · split
    · split <;> rfl
    · rfl

@[simp] theorem release_registry : (s.release t).registry = s.registry := by
  unfold release
  split
  · rfl
  · split
    · split <;> rfl
    · rfl

@[simp] theorem release_backings : (s.release t).backings = s.backings := by
  unfold release
  split
  · rfl
  · split
    · split <;> rfl
    · rfl

@[simp] theorem releases_cache {held : Option ℕ} : (s.releases held).cache = s.cache := by
  cases held with
  | none => rfl
  | some t => exact release_cache

@[simp] theorem releases_registry {held : Option ℕ} : (s.releases held).registry = s.registry := by
  cases held with
  | none => rfl
  | some t => exact release_registry

@[simp] theorem releases_backings {held : Option ℕ} : (s.releases held).backings = s.backings := by
  cases held with
  | none => rfl
  | some t => exact release_backings

/-- Only the table that is appended to changes. -/
structure Appends (s u : State C D T) (t : ℕ) : Prop where
  cache : u.cache = s.cache
  registry : u.registry = s.registry
  others : ∀ t', t' ≠ t → u.backings[t']? = s.backings[t']?
  length : u.backings.length = s.backings.length

theorem Appends.trans {v : State C D T} (h : s.Appends u t) (h' : u.Appends v t) :
    s.Appends v t where
  cache := h'.cache.trans h.cache
  registry := h'.registry.trans h.registry
  others t' hne := (h'.others t' hne).trans (h.others t' hne)
  length := h'.length.trans h.length

section Rows

variable [DecidableEq D]

variable (N s t row io) in
theorem appendRow_appends : s.Appends (s.appendRow N t row io).2 t := by
  have hsame : s.Appends s t := ⟨rfl, rfl, fun _ _ => rfl, rfl⟩
  unfold appendRow
  split
  · exact hsame
  · split
    · exact hsame
    · split
      · exact hsame
      · exact ⟨rfl, rfl, fun t' h => List.getElem?_set_ne (Ne.symm h), List.length_set⟩

variable (N s t rows io) in
theorem appendRows_appends : s.Appends (s.appendRows N t io rows).2 t := by
  induction rows generalizing s with
  | nil => exact ⟨rfl, rfl, fun _ _ => rfl, rfl⟩
  | cons row rest ih =>
      have hrow := appendRow_appends N s t io row
      unfold appendRows
      cases h : s.appendRow N t row io with
      | mk outcome u =>
          rw [h] at hrow
          cases outcome with
          | ok _ => exact hrow.trans (ih u)
          | error _ => exact hrow

end Rows

variable [DecidableEq C]

variable (N s d io) in
omit [DecidableEq C] in
/-- Where a table cannot be made, nothing is changed; a table that is made gets the name. -/
theorem newTable_cases : s.newTable N d io = (.error (.RuntimeError "memtable error"), s) ∨
    ∃ u b, s.newTable N d io = (.ok s.backings.length, u) ∧ u.cache = s.cache ∧
      u.registry = Core.Keyed.set Prod.fst s.registry (d.tableName, s.backings.length) ∧
      u.backings = s.backings ++ [b] := by
  unfold newTable
  dsimp only
  split
  · exact .inl rfl
  next backing files _ =>
    exact .inr ⟨_, backing, rfl, releases_cache, releases_registry, releases_backings⟩

/-- What the class finds at its first use. -/
theorem initTable_cached (h : get s.cache cls = some t) :
    s.initTable N decl cls io = (.ok t, s) := by
  unfold initTable
  rw [h]

theorem initTable_shared {b : ExternBacking D T} (h : get s.cache cls = none)
    (hfound : s.registered (decl cls).tableName = some (t, b))
    (hsame : b.columns = (decl cls).fields) :
    s.initTable N decl cls io = (.ok t, s.keep cls t) := by
  have hget : s.getTable (decl cls) = .ok t := by
    unfold getTable
    rw [hfound]
    exact if_neg (not_not.mpr hsame)
  unfold initTable
  rw [h]
  dsimp only
  rw [hget]

variable (N io) in
/-- Without a table of its fields under its name the class makes a table, or fails. -/
theorem initTable_new (h : get s.cache cls = none) (hnone : ∀ t b,
    s.registered (decl cls).tableName = some (t, b) → b.columns ≠ (decl cls).fields) :
    s.initTable N decl cls io = (.error (.RuntimeError "memtable error"), s) ∨
      ∃ u b, s.initTable N decl cls io = (.ok s.backings.length, u) ∧
        u.cache = Core.Keyed.set Prod.fst s.cache (cls, s.backings.length) ∧
        u.registry =
          Core.Keyed.set Prod.fst s.registry ((decl cls).tableName, s.backings.length) ∧
        u.backings = s.backings ++ [b] := by
  have herror : ∃ e, s.getTable (decl cls) = .error e := by
    unfold getTable
    cases hfound : s.registered (decl cls).tableName with
    | none => exact ⟨_, rfl⟩
    | some found => exact ⟨_, if_pos (hnone found.1 found.2 hfound)⟩
  obtain ⟨e, he⟩ := herror
  unfold initTable
  rw [h]
  dsimp only
  rw [he]
  rcases newTable_cases N s io (decl cls) with hfail | ⟨u, b, hnew, hc, hr, hb⟩
  · rw [hfail]
    exact .inl rfl
  · rw [hnew]
    refine .inr ⟨_, b, rfl, ?_, hr, hb⟩
    exact congrArg (Core.Keyed.set Prod.fst · (cls, s.backings.length)) hc

theorem drop_cache : (s.drop decl cls).cache = Core.Keyed.erase Prod.fst s.cache cls :=
  releases_cache.trans releases_cache

theorem drop_registry :
    (s.drop decl cls).registry = Core.Keyed.erase Prod.fst s.registry (decl cls).tableName :=
  releases_registry

theorem drop_backings : (s.drop decl cls).backings = s.backings :=
  releases_backings.trans releases_backings

end State

section Claim

variable [DecidableEq C]

section Caches

variable (decl)

/-- The class that uses its table in a call. -/
def Action.user : Action C V → Option (C × Bool)
  | .append cls _ io => some (cls, io)
  | .appendMany cls _ io => some (cls, io)
  | .take _ _ => none
  | .drop _ => none

/-- The classes that have a table all have the one that is registered under their name. -/
def Common (s : State C D T) : Prop :=
  ∀ cls t, get s.cache cls = some t → get s.registry (decl cls).tableName = some t

/-- No class comes to a name that has other fields, and no class drops a table that another class
has. -/
def Careful (s : State C D T) : Action C V → Prop
  | .append cls _ _ => get s.cache cls = none → ∀ t b,
      s.registered (decl cls).tableName = some (t, b) → b.columns = (decl cls).fields
  | .appendMany cls _ _ => get s.cache cls = none → ∀ t b,
      s.registered (decl cls).tableName = some (t, b) → b.columns = (decl cls).fields
  | .take _ _ => True
  | .drop cls => ∀ other, other ≠ cls → (decl other).tableName = (decl cls).tableName →
      get s.cache other = none

/-- Every class is in the cache once, and every name is registered once, with a table that is
there. -/
structure Inv (s : State C D T) : Prop where
  classes : (s.cache.map Prod.fst).Nodup
  names : (s.registry.map Prod.fst).Nodup
  there : ∀ name t, get s.registry name = some t → t < s.backings.length
  common : Common decl s

variable {decl}

theorem Inv.keep (h : Inv decl s) (hname : get s.registry (decl cls).tableName = some t) :
    Inv decl (s.keep cls t) where
  classes := Core.Keyed.nodup_set h.classes
  names := h.names
  there := h.there
  common other t' ht' := by
    by_cases heq : other = cls
    · subst heq
      rw [State.keep, Core.Keyed.get_set_self h.classes] at ht'
      obtain rfl := Option.some.inj ht'
      exact hname
    · rw [State.keep, Core.Keyed.get_set_of_ne h.classes heq] at ht'
      exact h.common other t' ht'

/-- A table that is made for a free name. -/
theorem Inv.made (h : Inv decl s) (hfree : get s.registry (decl cls).tableName = none)
    {b : ExternBacking D T}
    (hcache : u.cache = Core.Keyed.set Prod.fst s.cache (cls, s.backings.length))
    (hregistry : u.registry =
      Core.Keyed.set Prod.fst s.registry ((decl cls).tableName, s.backings.length))
    (hbackings : u.backings = s.backings ++ [b]) : Inv decl u where
  classes := by
    rw [hcache]
    exact Core.Keyed.nodup_set h.classes
  names := by
    rw [hregistry]
    exact Core.Keyed.nodup_set h.names
  there name t ht := by
    rw [hbackings, List.length_append, List.length_singleton]
    by_cases heq : name = (decl cls).tableName
    · rw [hregistry, heq, Core.Keyed.get_set_self h.names] at ht
      have := Option.some.inj ht
      omega
    · rw [hregistry, Core.Keyed.get_set_of_ne h.names heq] at ht
      have := h.there name t ht
      omega
  common other t ht := by
    rw [hregistry]
    by_cases hother : other = cls
    · subst hother
      rw [hcache, Core.Keyed.get_set_self h.classes] at ht
      obtain rfl := Option.some.inj ht
      exact Core.Keyed.get_set_self h.names
    · rw [hcache, Core.Keyed.get_set_of_ne h.classes hother] at ht
      have hreg := h.common other t ht
      have hname : (decl other).tableName ≠ (decl cls).tableName := fun heq => by
        rw [heq, hfree] at hreg
        exact nomatch hreg
      rw [Core.Keyed.get_set_of_ne h.names hname]
      exact hreg

theorem Inv.appends (h : Inv decl s) (happ : s.Appends u t) : Inv decl u where
  classes := by
    rw [happ.cache]
    exact h.classes
  names := by
    rw [happ.registry]
    exact h.names
  there name t' ht' := by
    rw [happ.registry] at ht'
    rw [happ.length]
    exact h.there name t' ht'
  common cls t' ht' := by
    rw [happ.cache] at ht'
    rw [happ.registry]
    exact h.common cls t' ht'

/-- A free name: nothing is registered, since what is registered is there. -/
theorem Inv.free (h : Inv decl s) {name : String} (hnone : s.registered name = none) :
    get s.registry name = none := by
  cases hget : get s.registry name with
  | none => rfl
  | some t =>
      have hlt := h.there name t hget
      unfold State.registered at hnone
      rw [hget, Option.bind_some, List.getElem?_eq_getElem hlt] at hnone
      exact nomatch hnone

variable (N io) in
/-- What a class that may use its name ends up with. -/
theorem Inv.init (h : Inv decl s) (hcareful : get s.cache cls = none → ∀ t b,
      s.registered (decl cls).tableName = some (t, b) → b.columns = (decl cls).fields) :
    (∃ e, s.initTable N decl cls io = (.error e, s)) ∨
      ∃ t u, s.initTable N decl cls io = (.ok t, u) ∧ Inv decl u ∧ get u.cache cls = some t ∧
        ∀ t', t' < s.backings.length → u.backings[t']? = s.backings[t']? := by
  cases hcache : get s.cache cls with
  | some t => exact .inr ⟨t, s, State.initTable_cached hcache, h, hcache, fun _ _ => rfl⟩
  | none =>
      cases hfound : s.registered (decl cls).tableName with
      | some found =>
          have hget : get s.registry (decl cls).tableName = some found.1 := by
            obtain ⟨t, ht, hb⟩ := Option.bind_eq_some_iff.mp hfound
            obtain ⟨b, -, rfl⟩ := Option.map_eq_some_iff.mp hb
            exact ht
          have hsame := hcareful hcache found.1 found.2 hfound
          refine .inr ⟨found.1, s.keep cls found.1, State.initTable_shared hcache hfound hsame,
            h.keep hget, ?_, fun _ _ => rfl⟩
          exact Core.Keyed.get_set_self h.classes
      | none =>
          have hnone : ∀ t b, s.registered (decl cls).tableName = some (t, b) →
              b.columns ≠ (decl cls).fields := by
            intro t b hsome
            rw [hfound] at hsome
            exact nomatch hsome
          rcases State.initTable_new N io hcache hnone with hfail | ⟨u, b, hnew, hc, hr, hb⟩
          · exact .inl ⟨_, hfail⟩
          · refine .inr ⟨_, u, hnew, h.made (h.free hfound) hc hr hb, ?_, fun t' ht' => ?_⟩
            · rw [hc]
              exact Core.Keyed.get_set_self h.classes
            · rw [hb, List.getElem?_append_left ht']

theorem Inv.drop (h : Inv decl s) (halone : ∀ other, other ≠ cls →
      (decl other).tableName = (decl cls).tableName → get s.cache other = none) :
    Inv decl (s.drop decl cls) where
  classes := by
    rw [State.drop_cache]
    exact Core.Keyed.nodup_erase h.classes
  names := by
    rw [State.drop_registry]
    exact Core.Keyed.nodup_erase h.names
  there name t ht := by
    rw [State.drop_registry] at ht
    rw [State.drop_backings]
    by_cases heq : name = (decl cls).tableName
    · rw [heq, Core.Keyed.get_erase_self h.names] at ht
      exact nomatch ht
    · rw [Core.Keyed.get_erase_of_ne heq] at ht
      exact h.there name t ht
  common other t ht := by
    rw [State.drop_cache] at ht
    rw [State.drop_registry]
    have hother : other ≠ cls := by
      rintro rfl
      rw [Core.Keyed.get_erase_self h.classes] at ht
      exact nomatch ht
    rw [Core.Keyed.get_erase_of_ne hother] at ht
    have hname : (decl other).tableName ≠ (decl cls).tableName := fun heq => by
      rw [halone other hother heq] at ht
      exact nomatch ht
    rw [Core.Keyed.get_erase_of_ne hname]
    exact h.common other t ht

theorem inv_start : Inv decl (start : State C D T) where
  classes := List.nodup_nil
  names := List.nodup_nil
  there _ _ h := nomatch h
  common _ _ h := nomatch h

end Caches

variable [DecidableEq D]

variable (N decl) in
/-- A call does what declared tables promise. A class whose name is in use shares the table when
its fields are the same, and is refused with a `ValueError` that changes nothing when they differ.
Behind the call all classes with a table have that of their name, and a call that reports its rows
as appended wrote to no other table. -/
structure Right (s : State C D T) (a : Action C V) : Prop where
  shares : ∀ cls io, a.user = some (cls, io) → get s.cache cls = none →
    ∀ t b, s.registered (decl cls).tableName = some (t, b) → b.columns = (decl cls).fields →
      (s.initTable N decl cls io).1 = .ok t
  refuses : ∀ cls io, a.user = some (cls, io) → get s.cache cls = none →
    ∀ t b, s.registered (decl cls).tableName = some (t, b) → b.columns ≠ (decl cls).fields →
      (s.initTable N decl cls io).1 = .error (State.differentFields (decl cls).tableName) ∧
        (s.call N decl a).2 = s
  common : Common decl (s.call N decl a).2
  appended : ∀ cls io, a.user = some (cls, io) → ∀ out, (s.call N decl a).1 = .ok out →
    ∃ t, get (s.call N decl a).2.cache cls = some t ∧
      get (s.call N decl a).2.registry (decl cls).tableName = some t ∧
      ∀ t', t' ≠ t → t' < s.backings.length → (s.call N decl a).2.backings[t']? = s.backings[t']?

variable (N io rows) in
theorem Inv.use (h : Inv decl s) (hcareful : get s.cache cls = none → ∀ t b,
      s.registered (decl cls).tableName = some (t, b) → b.columns = (decl cls).fields) :
    Inv decl (s.use N decl cls rows io).2 ∧ ∀ out, (s.use N decl cls rows io).1 = .ok out →
      ∃ t, get (s.use N decl cls rows io).2.cache cls = some t ∧
        ∀ t', t' ≠ t → t' < s.backings.length →
          (s.use N decl cls rows io).2.backings[t']? = s.backings[t']? := by
  unfold State.use
  rcases h.init N io hcareful with ⟨e, he⟩ | ⟨t, u, hu, hinv, hcache, hothers⟩
  · rw [he]
    exact ⟨h, fun _ hout => nomatch hout⟩
  · rw [hu]
    dsimp only
    have happ := State.appendRows_appends N u t io rows
    cases hrows : u.appendRows N t io rows with
    | mk outcome v =>
        rw [hrows] at happ
        cases outcome with
        | ok _ =>
            refine ⟨hinv.appends happ, fun _ _ => ⟨t, ?_, fun t' hne hlt => ?_⟩⟩
            · rw [← hcache]
              exact congrArg (get · cls) happ.cache
            · exact (happ.others t' hne).trans (hothers t' hlt)
        | error e => exact ⟨hinv.appends happ, fun _ hout => nomatch hout⟩

/-- A careful use is right, and leaves the invariant. -/
theorem Inv.right_use (h : Inv decl s) (huser : a.user = some (cls, io))
    (hcall : s.call N decl a = s.use N decl cls rows io) (hcareful : get s.cache cls = none → ∀ t b,
      s.registered (decl cls).tableName = some (t, b) → b.columns = (decl cls).fields) :
    Right N decl s a := by
  obtain ⟨hinv, happended⟩ := h.use N io rows hcareful
  have hsame {cls' : C} {io' : Bool} (huser' : a.user = some (cls', io')) : cls' = cls ∧ io' = io :=
    Prod.mk.inj (Option.some.inj (huser'.symm.trans huser))
  refine ⟨?_, ?_, ?_, ?_⟩
  · rintro cls' io' huser' hcache t b hfound hcolumns
    rw [State.initTable_shared hcache hfound hcolumns]
  · rintro cls' io' huser' hcache t b hfound hcolumns
    obtain ⟨rfl, rfl⟩ := hsame huser'
    exact absurd (hcareful hcache t b hfound) hcolumns
  · rw [hcall]
    exact hinv.common
  · rintro cls' io' huser' out hout
    obtain ⟨rfl, rfl⟩ := hsame huser'
    rw [hcall] at hout ⊢
    obtain ⟨t, hcache, hothers⟩ := happended out hout
    exact ⟨t, hcache, hinv.common _ _ hcache, hothers⟩

/-- Fields that differ are never refused as they should: a table is made, or cannot be made. -/
theorem Right.fields (h : Right N decl s a) (huser : a.user = some (cls, io))
    (hcache : get s.cache cls = none) (t : ℕ) (b : ExternBacking D T)
    (hfound : s.registered (decl cls).tableName = some (t, b)) :
    b.columns = (decl cls).fields := by
  by_contra hne
  have hrefused := (h.refuses cls io huser hcache t b hfound hne).1
  have hall : ∀ t' b', s.registered (decl cls).tableName = some (t', b') →
      b'.columns ≠ (decl cls).fields := by
    intro t' b' hfound'
    obtain ⟨rfl, rfl⟩ := Prod.mk.inj (Option.some.inj (hfound.symm.trans hfound'))
    exact hne
  rcases State.initTable_new N io hcache hall with hfail | ⟨u, b', hnew, -⟩
  · rw [hfail] at hrefused
    exact nomatch hrefused
  · rw [hnew] at hrefused
    exact nomatch hrefused

theorem Inv.right_iff (h : Inv decl s) (a : Action C V) : Right N decl s a ↔ Careful decl s a := by
  cases a with
  | append cls row io =>
      exact ⟨fun hright => hright.fields rfl, fun hcareful => h.right_use rfl rfl hcareful⟩
  | appendMany cls rows io =>
      exact ⟨fun hright => hright.fields rfl, fun hcareful => h.right_use rfl rfl hcareful⟩
  | take cls n =>
      refine ⟨fun _ => trivial, fun _ => ⟨?_, ?_, h.common, ?_⟩⟩
      · exact fun _ _ huser => nomatch huser
      · exact fun _ _ huser => nomatch huser
      · exact fun _ _ huser => nomatch huser
  | drop cls =>
      constructor
      · intro hright other hother hname
        cases hcache : get s.cache other with
        | none => rfl
        | some t =>
            have hkept : get (s.drop decl cls).cache other = some t := by
              rw [State.drop_cache, Core.Keyed.get_erase_of_ne hother, hcache]
            have hreg := hright.common other t hkept
            change get (s.drop decl cls).registry _ = _ at hreg
            rw [State.drop_registry, hname, Core.Keyed.get_erase_self h.names] at hreg
            exact nomatch hreg
      · intro halone
        refine ⟨?_, ?_, (h.drop halone).common, ?_⟩
        · exact fun _ _ huser => nomatch huser
        · exact fun _ _ huser => nomatch huser
        · exact fun _ _ huser => nomatch huser

theorem Inv.step (h : Inv decl s) (hright : Right N decl s a) : Inv decl (s.call N decl a).2 := by
  have hcareful := (h.right_iff a).mp hright
  cases a with
  | append cls row io => exact (h.use N io _ hcareful).1
  | appendMany cls rows io => exact (h.use N io _ hcareful).1
  | take cls n => exact h
  | drop cls => exact h.drop hcareful

/-- The calls of a run all do what declared tables promise exactly where all of them are careful. -/
theorem shared_iff (N : Native V E D T) (decl : C → Decl) (acts : List (Action C V)) :
    Meets (State.step N decl) (Right N decl) start acts ↔
      Meets (State.step N decl) (Careful decl) start acts :=
  Core.meets_congr (fun _ a h => h.right_iff a)
    (fun _ _ _ h hright ht => Option.some.inj ht ▸ h.step hright) inv_start

/-- Cells that are numbers, in rings that keep every row. -/
def plain : Native ℕ ℕ Unit (List (List ℕ)) where
  pythonToEle := some
  inferExternColumnDtype _ := ()
  eleDtype _ := some ()
  createRing _ _ _ _ := []
  pushRow table _ row := some (table ++ [row])
  rows table _ := table

/-- Two classes with one name, whose fields are the same or not. -/
def twoClasses (same : Bool) (cls : Bool) : Decl :=
  ⟨"points", if cls && !same then ["x", "y"] else ["x"], 4096⟩

/-- Both append, one drops the table and the other one appends once more. -/
def dropBetween : List (Action Bool ℕ) :=
  [Action.append false [1] true, Action.append true [2] true, Action.drop false,
    Action.append true [3] true]

/-- A class comes to a table with other fields. -/
def otherFields : List (Action Bool ℕ) :=
  [Action.append false [1] true, Action.append true [2, 3] true]

/-- The row behind the drop is appended to a table that nobody finds under its name, and other
fields are not refused with a `ValueError`. -/
theorem dropped_and_mismatched :
    ¬ Meets (State.step plain (twoClasses true)) (Right plain (twoClasses true)) start
        dropBetween ∧
      ¬ Meets (State.step plain (twoClasses false)) (Right plain (twoClasses false)) start
        otherFields := by
  constructor
  · intro hmeets
    obtain ⟨-, hsecond⟩ := hmeets
    obtain ⟨-, hthird⟩ := hsecond _ rfl
    obtain ⟨hdrop, -⟩ := hthird _ rfl
    have hkept : get (State.call plain (twoClasses true) _ (.drop false)).2.registry "points" =
        some 0 := hdrop.common true 0 rfl
    exact absurd hkept (by decide)
  · intro hmeets
    obtain ⟨-, hsecond⟩ := hmeets
    obtain ⟨huse, -⟩ := hsecond _ rfl
    have hrefused := (huse.refuses true true rfl rfl 0 _ rfl (by decide)).1
    exact absurd hrefused (by decide)

end Claim

end Probing.Extern
