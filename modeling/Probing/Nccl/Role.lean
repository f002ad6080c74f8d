import Mathlib.Algebra.Order.Ring.Int
import Probing.Core.Text

/-!
# Role ranks from the environment

A rank is read from the variables of its dimension, in order, and else from the role key. The
variables are read one after the other, and the environment may change between two reads. What is
read is the rank of an environment in which every source keeps what it once said and all sources
agree.
-/

namespace Probing.Nccl.Role

open Probing.Core

inductive Dim where
  | tp
  | pp
  | dp
  deriving DecidableEq

structure RoleRanks where
  tpRank : ℤ
  ppRank : ℤ
  dpRank : ℤ
  deriving DecidableEq

namespace RoleRanks

def unknown : RoleRanks := ⟨-1, -1, -1⟩

def get (r : RoleRanks) : Dim → ℤ
  | .tp => r.tpRank
  | .pp => r.ppRank
  | .dp => r.dpRank

def set (r : RoleRanks) (d : Dim) (v : ℤ) : RoleRanks :=
  match d with
  | .tp => { r with tpRank := v }
  | .pp => { r with ppRank := v }
  | .dp => { r with dpRank := v }

variable (r : RoleRanks) (d e : Dim) (v : ℤ)

@[simp] theorem get_set_self : (r.set d v).get d = v := by
  cases d <;> rfl

theorem get_set_of_ne {d e : Dim} (h : e ≠ d) : (r.set d v).get e = r.get e := by
  cases d <;> cases e <;> first | rfl | exact absurd rfl h

theorem ext_get {r r' : RoleRanks} (h : ∀ d, r.get d = r'.get d) : r = r' := by
  cases r
  cases r'
  exact RoleRanks.mk.injEq .. ▸ ⟨h .tp, h .pp, h .dp⟩

@[simp] theorem get_unknown : unknown.get d = -1 := by
  cases d <;> rfl

end RoleRanks

/-- The variables of a process. -/
abbrev Env := String → Option (List Char)

/-- A body that reads variables one at a time. -/
inductive Reading (α : Type) where
  | done (a : α)
  | read (key : String) (rest : Option (List Char) → Reading α)

/-- A rank, which is an integer of 32 bits and not negative. -/
def rankValue (raw : List Char) : Option ℤ :=
  (parseInt (-2 ^ 31) (2 ^ 31 - 1) (trim raw)).filter (0 ≤ ·)

def readEnvI32 {α : Type} (rest : ℤ → Reading α) : List String → Reading α
  | [] => rest (-1)
  | key :: keys => .read key fun raw =>
      match raw.bind rankValue with
      | some v => rest v
      | none => readEnvI32 rest keys

def dimOf (key : List Char) : Option Dim :=
  if key = ['t', 'p'] then some .tp
  else if key = ['p', 'p'] then some .pp
  else if key = ['d', 'p'] then some .dp
  else none

def parsePart (ranks : RoleRanks) (part : List Char) : RoleRanks :=
  match splitOnce '=' part with
  | none => ranks
  | some (key, value) =>
      match rankValue value, dimOf (trim key) with
      | some v, some d => ranks.set d v
      | _, _ => ranks

/-- Pull `tp` / `pp` / `dp` out of a canonical role key. -/
def parseRoleKey (role : List Char) : RoleRanks := (role.splitOn ',').foldl parsePart .unknown

def keys : Dim → List String
  | .tp => ["TENSOR_MODEL_PARALLEL_RANK", "TP_RANK", "PROBING_TP_RANK"]
  | .pp => ["PIPELINE_MODEL_PARALLEL_RANK", "PP_RANK", "PROBING_PP_RANK"]
  | .dp => ["DATA_PARALLEL_RANK", "DP_RANK", "PROBING_DP_RANK"]

/-- The ranks of the variables, with those of the role key where there are none. -/
def fill (ranks : RoleRanks) (role : Option (List Char)) : RoleRanks :=
  match role with
  | none => ranks
  | some role =>
      let from_role := parseRoleKey role
      { tpRank := if ranks.tpRank < 0 then from_role.tpRank else ranks.tpRank
        ppRank := if ranks.ppRank < 0 then from_role.ppRank else ranks.ppRank
        dpRank := if ranks.dpRank < 0 then from_role.dpRank else ranks.dpRank }

def snapshot : Reading RoleRanks :=
  readEnvI32 (fun tp => readEnvI32 (fun pp => readEnvI32 (fun dp =>
    if 0 ≤ tp ∧ 0 ≤ pp ∧ 0 ≤ dp then .done ⟨tp, pp, dp⟩
    else .read "PROBING_NODE_ROLE" fun role => .done (fill ⟨tp, pp, dp⟩ role))
    (keys .dp)) (keys .pp)) (keys .tp)

section Environment

variable (env : Env) (d : Dim)

/-- What a variable says of a rank. -/
def variableRank (key : String) : Option ℤ := (env key).bind rankValue

/-- What the role key says of a rank. -/
def roleRank : Option ℤ :=
  (env "PROBING_NODE_ROLE").bind fun role =>
    if 0 ≤ (parseRoleKey role).get d then some ((parseRoleKey role).get d) else none

/-- What is said of a rank, the first source first. -/
def given : List (Option ℤ) := (keys d).map (variableRank env) ++ [roleRank env d]

def known : Bool := (given env d).any Option.isSome

/-- The rank in the environment. -/
def rank : ℤ := (((given env d).find? Option.isSome).getD none).getD (-1)

/-- The sources of a rank agree. -/
def Agrees : Prop := ∀ d, ∀ a ∈ given env d, ∀ v ∈ a, v = rank env d

variable {env d} {later final : Env} {v : ℤ}

/-- No source takes back what it said. -/
structure Grows (env later : Env) : Prop where
  vars : ∀ d, ∀ key ∈ keys d, ∀ v ∈ variableRank env key, v ∈ variableRank later key
  role : ∀ d, ∀ v ∈ roleRank env d, v ∈ roleRank later d

theorem Grows.refl (env : Env) : Grows env env := ⟨fun _ _ _ _ hv => hv, fun _ _ hv => hv⟩

theorem Grows.trans (h : Grows env later) (h' : Grows later final) : Grows env final :=
  ⟨fun d key hkey v hv => h'.vars d key hkey v (h.vars d key hkey v hv),
    fun d v hv => h'.role d v (h.role d v hv)⟩

theorem known_iff : known env d ↔ ∃ v, some v ∈ given env d := by
  rw [known, List.any_eq_true]
  constructor
  · rintro ⟨a, ha, hsome⟩
    obtain ⟨v, rfl⟩ := Option.isSome_iff_exists.mp hsome
    exact ⟨v, ha⟩
  · rintro ⟨v, hv⟩
    exact ⟨some v, hv, rfl⟩

theorem mem_given : some v ∈ given env d ↔
    (∃ key ∈ keys d, variableRank env key = some v) ∨ roleRank env d = some v := by
  rw [given, List.mem_append, List.mem_map, List.mem_singleton, eq_comm (a := some v)]

theorem given_of_grows (h : Grows env later) (hv : some v ∈ given env d) :
    some v ∈ given later d := by
  rcases mem_given.1 hv with ⟨key, hkey, hv⟩ | hv
  · exact mem_given.2 (.inl ⟨key, hkey, h.vars d key hkey v hv⟩)
  · exact mem_given.2 (.inr (h.role d v hv))

theorem known_of_grows (h : Grows env later) (hk : known env d) : known later d := by
  obtain ⟨v, hv⟩ := known_iff.1 hk
  exact known_iff.2 ⟨v, given_of_grows h hv⟩

/-- The rank in the environment is what a source says. -/
theorem rank_given (hk : known env d) : some (rank env d) ∈ given env d := by
  obtain ⟨v, hv⟩ := known_iff.1 hk
  cases hfind : (given env d).find? Option.isSome with
  | none => exact absurd rfl (List.find?_eq_none.mp hfind _ hv)
  | some a =>
      obtain ⟨w, rfl⟩ := Option.isSome_iff_exists.mp (List.find?_some hfind)
      rw [rank, hfind]
      exact List.mem_of_find?_eq_some hfind

theorem rank_of_grows (h : Grows env later) (hagrees : Agrees later) (hk : known env d) :
    rank later d = rank env d :=
  (hagrees d _ (given_of_grows h (rank_given hk)) _ rfl).symm

theorem rankValue_nonneg {raw : List Char} (h : rankValue raw = some v) : 0 ≤ v := by
  simpa using (Option.filter_eq_some_iff.mp h).2

theorem given_nonneg (h : some v ∈ given env d) : 0 ≤ v := by
  rcases mem_given.1 h with ⟨key, -, hv⟩ | hv
  · obtain ⟨raw, -, hraw⟩ := Option.bind_eq_some_iff.mp hv
    exact rankValue_nonneg hraw
  · obtain ⟨role, -, hrole⟩ := Option.bind_eq_some_iff.mp hv
    obtain ⟨hpos, hv⟩ := Option.ite_none_right_eq_some.mp hrole
    exact Option.some.inj hv ▸ hpos

theorem rank_nonneg (hk : known env d) : 0 ≤ rank env d := given_nonneg (rank_given hk)

end Environment

/-- Whatever the environment does between the reads, the ranks that are read in the end are those of
the environment or unknown, and the ranks in `K` are not unknown. -/
def Reads (K : Dim → Prop) : Reading RoleRanks → Env → Prop
  | .done r, env => ∀ d, (r.get d = -1 ∨ known env d ∧ r.get d = rank env d) ∧
      (K d → known env d ∧ r.get d = rank env d)
  | .read key rest, env =>
    ∀ later, Grows env later → Agrees later → Reads K (rest (later key)) later

section Reads

variable {K : Dim → Prop} {env later : Env} {d : Dim} {v : ℤ}

theorem Reads.grow {prog : Reading RoleRanks} (h : Reads K prog env) (hgrows : Grows env later)
    (hagrees : Agrees later) : Reads K prog later := by
  cases prog with
  | done r =>
      have hcarry {d : Dim} (hd : known env d ∧ r.get d = rank env d) :
          known later d ∧ r.get d = rank later d :=
        ⟨known_of_grows hgrows hd.1, hd.2.trans (rank_of_grows hgrows hagrees hd.1).symm⟩
      exact fun d => ⟨(h d).1.imp_right hcarry, fun hd => hcarry ((h d).2 hd)⟩
  | read key rest => exact fun final hgrows' => h final (hgrows.trans hgrows')

/-- A value that was read for a rank: the rank or unknown, and not unknown if a variable told the
rank in the earlier environment. -/
def Told (env later : Env) (d : Dim) (v : ℤ) : Prop :=
  (v = -1 ∨ known later d ∧ v = rank later d) ∧
    ((∃ key ∈ keys d, (variableRank env key).isSome) → known later d ∧ v = rank later d)

theorem Told.grow {final : Env} (h : Told env later d v) (hgrows : Grows later final)
    (hagrees : Agrees final) : Told env final d v := by
  have hcarry (hd : known later d ∧ v = rank later d) : known final d ∧ v = rank final d :=
    ⟨known_of_grows hgrows hd.1, hd.2.trans (rank_of_grows hgrows hagrees hd.1).symm⟩
  exact ⟨h.1.imp_right hcarry, fun hkey => hcarry (h.2 hkey)⟩

theorem read_env_reads {rest : ℤ → Reading RoleRanks} (d : Dim) (ks : List String)
    (hks : ∀ key ∈ ks, key ∈ keys d) (hagrees : Agrees env)
    (hrest : ∀ later v, Grows env later → Agrees later →
      (v = -1 ∨ known later d ∧ v = rank later d) →
      ((∃ key ∈ ks, (variableRank env key).isSome) → known later d ∧ v = rank later d) →
      Reads K (rest v) later) : Reads K (readEnvI32 rest ks) env := by
  induction ks generalizing env with
  | nil => exact hrest env (-1) (.refl env) hagrees (.inl rfl) (by simp)
  | cons key ks ih =>
      intro later hgrows hagrees'
      cases hread : variableRank later key with
      | some v =>
          have hgiven : some v ∈ given later d :=
            mem_given.2 (.inl ⟨key, hks key (List.mem_cons_self ..), hread⟩)
          have htold : known later d ∧ v = rank later d :=
            ⟨known_iff.2 ⟨v, hgiven⟩, hagrees' d _ hgiven v rfl⟩
          simp only [show (later key).bind rankValue = some v from hread]
          exact hrest later v hgrows hagrees' (.inr htold) fun _ => htold
      | none =>
          simp only [show (later key).bind rankValue = none from hread]
          apply ih (fun k hk => hks k (List.mem_cons_of_mem _ hk)) hagrees'
          intro final v hgrows' hagrees'' hv hvars
          apply hrest final v (hgrows.trans hgrows') hagrees'' hv
          rintro ⟨k, hk, hsome⟩
          obtain ⟨w, hw⟩ := Option.isSome_iff_exists.mp hsome
          have hw' := hgrows.vars d k (hks k hk) w hw
          rcases List.mem_cons.mp hk with rfl | hk
          · rw [hread] at hw'
            cases hw'
          · exact hvars ⟨k, hk, Option.isSome_iff_exists.mpr ⟨w, hw'⟩⟩

/-- The role key is read where a variable told nothing. -/
theorem fill_get {r : RoleRanks} {raw : Option (List Char)} (d : Dim) :
    (fill r raw).get d = if r.get d < 0 then
      (raw.map fun role => (parseRoleKey role).get d).getD (r.get d) else r.get d := by
  cases raw with
  | none => simp [fill]
  | some role => cases d <;> rfl

theorem parseRoleKey_get (role : List Char) (d : Dim) :
    (parseRoleKey role).get d = -1 ∨ 0 ≤ (parseRoleKey role).get d := by
  rw [parseRoleKey]
  have hstart : RoleRanks.unknown.get d = -1 ∨ 0 ≤ RoleRanks.unknown.get d := .inl (by simp)
  generalize RoleRanks.unknown = ranks at hstart
  induction role.splitOn ',' generalizing ranks with
  | nil => exact hstart
  | cons part rest ih =>
      rw [List.foldl_cons]
      apply ih
      rw [parsePart]
      split
      · exact hstart
      · split
        · rename_i v e hv he
          by_cases hd : d = e
          · subst hd
            exact .inr (RoleRanks.get_set_self .. ▸ rankValue_nonneg hv)
          · exact RoleRanks.get_set_of_ne ranks v hd ▸ hstart
        · exact hstart

/-- What the role key says is what is read of it. -/
theorem roleRank_eq_some : roleRank env d = some v ↔ 0 ≤ v ∧
    ∃ role, env "PROBING_NODE_ROLE" = some role ∧ (parseRoleKey role).get d = v := by
  rw [roleRank, Option.bind_eq_some_iff]
  constructor
  · rintro ⟨role, hrole, hv⟩
    obtain ⟨hpos, hv⟩ := Option.ite_none_right_eq_some.mp hv
    obtain rfl := Option.some.inj hv
    exact ⟨hpos, role, hrole, rfl⟩
  · rintro ⟨hpos, role, hrole, rfl⟩
    exact ⟨role, hrole, if_pos hpos⟩

theorem Told.of_grows {final : Env} (hgrows : Grows env later)
    (hv : v = -1 ∨ known final d ∧ v = rank final d)
    (hvars : (∃ key ∈ keys d, (variableRank later key).isSome) →
      known final d ∧ v = rank final d) :
    Told env final d v := by
  refine ⟨hv, ?_⟩
  rintro ⟨key, hkey, hsome⟩
  obtain ⟨w, hw⟩ := Option.isSome_iff_exists.mp hsome
  exact hvars ⟨key, hkey, Option.isSome_iff_exists.mpr ⟨w, hgrows.vars d key hkey w hw⟩⟩

/-- The role key is read after the variables. -/
theorem Told.fill {r : RoleRanks} (h : Told env later d (r.get d)) (hgrows : Grows env later)
    (hagrees : Agrees later) :
    ((fill r (later "PROBING_NODE_ROLE")).get d = -1 ∨ known later d ∧
      (fill r (later "PROBING_NODE_ROLE")).get d = rank later d) ∧
      (known env d → known later d ∧
        (fill r (later "PROBING_NODE_ROLE")).get d = rank later d) := by
  have hkey {v : ℤ} (hv : roleRank later d = some v) : known later d ∧ v = rank later d := by
    have hgiven := mem_given.2 (.inr hv)
    exact ⟨known_iff.2 ⟨v, hgiven⟩, hagrees d _ hgiven v rfl⟩
  rw [fill_get]
  split
  · rename_i hneg
    have hnone : r.get d = -1 := h.1.resolve_right fun ⟨hk, hr⟩ => by
      have hpos := rank_nonneg hk
      omega
    have hvalue : roleRank later d = none ∧
        ((later "PROBING_NODE_ROLE").map fun role =>
          (parseRoleKey role).get d).getD (r.get d) = -1 ∨
        ∃ v, roleRank later d = some v ∧
          ((later "PROBING_NODE_ROLE").map fun role =>
            (parseRoleKey role).get d).getD (r.get d) = v := by
      cases hrole : later "PROBING_NODE_ROLE" with
      | none => exact .inl ⟨by rw [roleRank, hrole]; rfl, hnone⟩
      | some role =>
          rcases parseRoleKey_get role d with hunknown | hpos
          · refine .inl ⟨?_, hunknown⟩
            rw [roleRank, hrole, Option.bind_some, if_neg (by omega)]
          · exact .inr ⟨_, roleRank_eq_some.2 ⟨hpos, role, hrole, rfl⟩, rfl⟩
    rcases hvalue with ⟨hrole, hvalue⟩ | ⟨v, hrole, hvalue⟩
    · refine ⟨.inl hvalue, fun hk => ?_⟩
      obtain ⟨v, hv⟩ := known_iff.1 hk
      rcases mem_given.1 hv with ⟨key, hkey', hv⟩ | hv
      · obtain ⟨hk', hr⟩ := h.2 ⟨key, hkey', Option.isSome_iff_exists.mpr ⟨v, hv⟩⟩
        have hpos := rank_nonneg hk'
        omega
      · have hv' := hgrows.role d v hv
        rw [hrole] at hv'
        cases hv'
    · rw [hvalue]
      exact ⟨.inr (hkey hrole), fun _ => hkey hrole⟩
  · rename_i hpos
    have htold := h.1.resolve_left (by omega)
    exact ⟨.inr htold, fun _ => htold⟩

theorem snapshot_reads (hagrees : Agrees env) (hK : ∀ d, K d → known env d) :
    Reads K snapshot env := by
  apply read_env_reads .tp (keys .tp) (fun _ hkey => hkey) hagrees
  intro env₁ tp hgrows₁ hagrees₁ htp hvars
  have htold₁ : Told env env₁ .tp tp := .of_grows (.refl env) htp hvars
  apply read_env_reads .pp (keys .pp) (fun _ hkey => hkey) hagrees₁
  intro env₂ pp hgrows₂ hagrees₂ hpp hvars
  have htold₂ : Told env env₂ .pp pp := .of_grows hgrows₁ hpp hvars
  apply read_env_reads .dp (keys .dp) (fun _ hkey => hkey) hagrees₂
  intro env₃ dp hgrows₃ hagrees₃ hdp hvars
  have htold₃ : Told env env₃ .dp dp := .of_grows (hgrows₁.trans hgrows₂) hdp hvars
  have htold : ∀ d, Told env env₃ d ((⟨tp, pp, dp⟩ : RoleRanks).get d)
    | .tp => (htold₁.grow hgrows₂ hagrees₂).grow hgrows₃ hagrees₃
    | .pp => htold₂.grow hgrows₃ hagrees₃
    | .dp => htold₃
  split
  · rename_i hall
    intro d
    have hpos : 0 ≤ (⟨tp, pp, dp⟩ : RoleRanks).get d := by
      cases d
      exacts [hall.1, hall.2.1, hall.2.2]
    have hd := (htold d).1.resolve_left (by omega)
    exact ⟨.inr hd, fun _ => hd⟩
  · intro env₄ hgrows₄ hagrees₄ d
    have hgrows := ((hgrows₁.trans hgrows₂).trans hgrows₃).trans hgrows₄
    obtain ⟨hvalue, hknown⟩ := ((htold d).grow hgrows₄ hagrees₄).fill hgrows hagrees₄
    exact ⟨hvalue, fun hd => hknown (hK d hd)⟩

end Reads

end Probing.Nccl.Role
