import Mathlib.Data.Fintype.Basic
import Probing.Core.Run
import Probing.Nccl.Role

/-!
# The cached role

A call returns the cached ranks once a role is resolved, and else every 256th call reads the
environment again. The call that finds a rank stores the three ranks one after the other and then
the flag. Every load, every store and every read of a variable is a step of its own.
-/

namespace Probing.Nccl.Role

open Probing.Core

instance : Fintype Dim := ⟨{.tp, .pp, .dp}, fun d => by cases d <;> decide⟩

def resnapshotEvery : ℕ := 256

/-- The order of the three loads and of the three stores. -/
def Dim.all : List Dim := [.tp, .pp, .dp]

inductive Pc where
  | idle
  | entered
  | counting
  | loading (ranks : RoleRanks) (todo : List Dim)
  | reading (prog : Reading RoleRanks)
  | storing (ranks : RoleRanks) (todo : List Dim)
  | returned (ranks : RoleRanks)

/-- The call reads the environment or stores what it has read. -/
def Pc.Rereads : Pc → Prop
  | .reading _ | .storing _ _ => True
  | _ => False

/-- The call has made an attempt, unless it has found the role resolved. -/
def Pc.Active : Pc → Prop
  | .loading _ _ | .reading _ | .storing _ _ => True
  | _ => False

/-- The call stores what it has read. -/
def Pc.Stores : Pc → Prop
  | .storing _ _ => True
  | _ => False

/-- What a reading call has found in the end. -/
def Pc.found : Pc → Option RoleRanks
  | .reading (.done r) => some r
  | _ => none

instance : ∀ pc : Pc, Decidable pc.Rereads
  | .reading _ | .storing _ _ => .isTrue trivial
  | .idle | .entered | .counting | .loading _ _ | .returned _ => .isFalse id

instance : ∀ pc : Pc, Decidable pc.Stores
  | .storing _ _ => .isTrue trivial
  | .idle | .entered | .counting | .loading _ _ | .reading _ | .returned _ => .isFalse id

/-- The environment, the statics, and the calls. The rest is what has happened: the ranks that were
available when a call started, and those for which it started late enough; the number of attempts so
far, and at a call's own one; for each rank the calls that have started after it became available
and returned, and the attempts before that; and the calls that made an attempt and go on. -/
structure Process (C : Type) where
  env : Env
  cachedRanks : RoleRanks
  roleResolved : Bool
  snapshotAttempts : ℕ
  pc : C → Pc
  born : C → Dim → Bool
  due : C → Dim → Bool
  draws : ℕ
  drawnAt : C → ℕ
  since : Dim → ℕ
  marks : Dim → ℕ
  drawers : List C

inductive Action (C : Type) where
  | setenv (env : Env)
  | start (call : C)
  | run (call : C)

instance (env later : Env) : Decidable (Grows env later) :=
  decidable_of_iff
    ((∀ d, ∀ key ∈ keys d, ∀ v ∈ variableRank env key, v ∈ variableRank later key) ∧
      ∀ d, ∀ v ∈ roleRank env d, v ∈ roleRank later d)
    ⟨fun h => ⟨h.1, h.2⟩, fun h => ⟨h.vars, h.role⟩⟩

instance (env : Env) : Decidable (Agrees env) :=
  inferInstanceAs (Decidable (∀ d, ∀ a ∈ given env d, ∀ v ∈ a, v = rank env d))

namespace Process

variable {C : Type}

def new : Process C where
  env := fun _ => none
  cachedRanks := .unknown
  roleResolved := false
  snapshotAttempts := 0
  pc := fun _ => .idle
  born := fun _ _ => false
  due := fun _ _ => false
  draws := 0
  drawnAt := fun _ => 0
  since := fun _ => 0
  marks := fun _ => 0
  drawers := []

variable [DecidableEq C]

def goto (s : Process C) (c : C) (pc : Pc) : Process C := { s with pc := Function.update s.pc c pc }

def finish (s : Process C) (c : C) (r : RoleRanks) : Process C :=
  { s.goto c (.returned r) with
    since := fun d => if s.born c d then s.since d + 1 else s.since d
    drawers := s.drawers.erase c }

/-- An attempt is drawn, and every 256th one reads the environment. -/
def draw (s : Process C) (c : C) : Process C :=
  { s.goto c (if s.snapshotAttempts % resnapshotEvery = 0 then .reading snapshot
      else .loading .unknown Dim.all) with
    snapshotAttempts := (s.snapshotAttempts + 1) % 2 ^ 32
    draws := s.draws + 1
    drawnAt := Function.update s.drawnAt c s.draws
    drawers := c :: s.drawers }

/-- The next step of a call of `cached`. -/
def cached (s : Process C) (c : C) : Option (Process C) :=
  match s.pc c with
  | .idle => none
  | .entered =>
      some (s.goto c (if s.roleResolved then .loading .unknown Dim.all else .counting))
  | .counting => some (s.draw c)
  | .loading r [] => some (s.finish c r)
  | .loading r (d :: todo) => some (s.goto c (.loading (r.set d (s.cachedRanks.get d)) todo))
  | .reading (.read key rest) => some (s.goto c (.reading (rest (s.env key))))
  | .reading (.done r) =>
      if 0 ≤ r.tpRank ∨ 0 ≤ r.ppRank ∨ 0 ≤ r.dpRank then some (s.goto c (.storing r Dim.all))
      else some (s.finish c r)
  | .storing r (d :: todo) =>
      some { s.goto c (.storing r todo) with cachedRanks := s.cachedRanks.set d (r.get d) }
  | .storing r [] => some { s.finish c r with roleResolved := true }
  | .returned _ => none

def start (s : Process C) (c : C) : Process C :=
  { s.goto c .entered with
    born := Function.update s.born c (known s.env)
    due := Function.update s.due c fun d => decide (256 ≤ s.since d) }

def setenv (s : Process C) (env : Env) : Process C :=
  { s with
    env
    marks := fun d => if known env d && !known s.env d then s.draws else s.marks d }

/-- The environment changes so that no source takes back what it said and all agree. A call starts
when there is none of its name. -/
def step (s : Process C) : Action C → Option (Process C)
  | .setenv env => if Grows s.env env ∧ Agrees env then some (s.setenv env) else none
  | .start c =>
      match s.pc c with
      | .idle | .returned _ => some (s.start c)
      | _ => none
  | .run c => s.cached c

omit [DecidableEq C]

/-- Every rank that a call returned is the one in the environment or unknown, and a call that
started late enough returned the rank. -/
def Right (s : Process C) : Prop := ∀ c r, s.pc c = .returned r → ∀ d,
  (0 ≤ r.get d → known s.env d ∧ r.get d = rank s.env d) ∧
    (s.due c d → known s.env d ∧ r.get d = rank s.env d)

/-- No rank becomes available when a role is resolved or about to be stored. No call that starts 256
calls after a rank became available finds the role unresolved and another call still reading or
storing it. A call that has found a rank has found all that are available. -/
def Sound (s : Process C) : Action C → Prop
  | .setenv env => (∀ d, known env d → known s.env d) ∨
      s.roleResolved = false ∧ ∀ c, ¬ (s.pc c).Stores
  | .start _ => (∃ d, 256 ≤ s.since d) → s.roleResolved = true ∨ ∀ c, ¬ (s.pc c).Rereads
  | .run c => ∀ r ∈ (s.pc c).found, (∃ d, 0 ≤ r.get d) → ∀ d, known s.env d → 0 ≤ r.get d

instance [Fintype C] (s : Process C) : ∀ a, Decidable (s.Sound a)
  | .setenv _ => inferInstanceAs (Decidable (_ ∨ _))
  | .start _ => inferInstanceAs (Decidable (_ → _))
  | .run c => inferInstanceAs (Decidable (∀ r ∈ (s.pc c).found, _))

end Process

/-- The ranks in the environment. -/
def ranksOf (env : Env) : RoleRanks :=
  let get d := if known env d then rank env d else -1
  ⟨get .tp, get .pp, get .dp⟩

section Ranks

variable {env later : Env} {d : Dim} {v : ℤ}

theorem ranksOf_get (env : Env) (d : Dim) :
    (ranksOf env).get d = if known env d then rank env d else -1 := by
  cases d <;> rfl

theorem ranksOf_known (h : known env d) : (ranksOf env).get d = rank env d := by
  rw [ranksOf_get, if_pos h]

theorem known_of_nonneg (h : 0 ≤ (ranksOf env).get d) : known env d := by
  by_contra hk
  rw [ranksOf_get, if_neg hk] at h
  omega

theorem ranksOf_grows (hgrows : Grows env later) (hagrees : Agrees later) (hk : known env d) :
    (ranksOf later).get d = (ranksOf env).get d := by
  rw [ranksOf_known hk, ranksOf_known (known_of_grows hgrows hk), rank_of_grows hgrows hagrees hk]

/-- The ranks stay if no other one becomes available. -/
theorem ranksOf_same (hgrows : Grows env later) (hagrees : Agrees later)
    (hnone : ∀ d, known later d → known env d) : ranksOf later = ranksOf env := by
  apply RoleRanks.ext_get
  intro d
  by_cases hk : known env d
  · exact ranksOf_grows hgrows hagrees hk
  · rw [ranksOf_get, ranksOf_get, if_neg hk, if_neg fun hk' => hk (hnone d hk')]

/-- The rank or unknown. -/
def Seen (env : Env) (d : Dim) (v : ℤ) : Prop := v = -1 ∨ v = (ranksOf env).get d

theorem Seen.grow (h : Seen env d v) (hgrows : Grows env later) (hagrees : Agrees later) :
    Seen later d v := by
  by_cases hk : known env d
  · exact h.imp_right fun hv => hv.trans (ranksOf_grows hgrows hagrees hk).symm
  · refine .inl (h.elim id fun hv => ?_)
    rw [hv, ranksOf_get, if_neg hk]

theorem Reads.mono {K K' : Dim → Prop} {prog : Reading RoleRanks} {env : Env} (h : Reads K prog env)
    (hK : ∀ d, K' d → K d) : Reads K' prog env := by
  induction prog generalizing env with
  | done r => exact fun d => ⟨(h d).1, fun hd => (h d).2 (hK d hd)⟩
  | read key rest ih => exact fun later hgrows hagrees => ih _ (h later hgrows hagrees)

end Ranks

namespace Process

variable {C : Type} [DecidableEq C]

/-- The ranks that were available at the call's attempt. -/
def Drawn (s : Process C) (c : C) (d : Dim) : Prop := known s.env d ∧ s.marks d ≤ s.drawnAt c

/-- What a call has loaded or read, by where it stands. A call that has to return a rank finds the
role resolved. -/
def Placed (s : Process C) (c : C) : Pc → Prop
  | .idle => True
  | .entered => ∀ d, s.due c d → s.roleResolved
  | .counting => ∀ d, s.due c d = false
  | .loading r todo => ∀ d, Seen s.env d (r.get d) ∧
      (s.due c d → s.roleResolved ∧ (d ∉ todo → r.get d = (ranksOf s.env).get d))
  | .reading prog => (∀ d, s.due c d = false) ∧ s.drawnAt c < s.draws ∧
      Reads (s.Drawn c) prog s.env
  | .storing r todo => (∀ d, s.due c d = false) ∧ r = ranksOf s.env ∧ (∃ d, 0 ≤ r.get d) ∧
      ∀ d, d ∉ todo → s.cachedRanks.get d = r.get d
  | .returned r => ∀ d, Seen s.env d (r.get d) ∧
      (s.due c d → r.get d = (ranksOf s.env).get d)

/-- Every 256th attempt since a rank became available is one of a call that still reads or stores,
and each call that has returned since has made an attempt. -/
structure Waiting (s : Process C) : Prop where
  pending : ∀ d, known s.env d → ∀ x, s.marks d ≤ x → x < s.draws → x % resnapshotEvery = 0 →
    ∃ c, (s.pc c).Rereads ∧ s.drawnAt c = x
  attempts : ∀ d, known s.env d →
    s.since d + s.drawers.countP (s.born · d) ≤ s.draws - s.marks d

structure Inv (s : Process C) : Prop where
  agrees : Agrees s.env
  attempts : s.snapshotAttempts = s.draws % 2 ^ 32
  cached : ∀ d, Seen s.env d (s.cachedRanks.get d)
  resolved : s.roleResolved → s.cachedRanks = ranksOf s.env
  placed : ∀ c, s.Placed c (s.pc c)
  born : ∀ c d, s.born c d → known s.env d
  since : ∀ d, 0 < s.since d → known s.env d
  due : ∀ c d, s.due c d → known s.env d
  marks : ∀ d, s.marks d ≤ s.draws
  drawers : s.drawers.Nodup
  active : ∀ c ∈ s.drawers, (s.pc c).Active
  drew : s.roleResolved = false → ∀ c, (s.pc c).Active → c ∈ s.drawers
  waiting : s.roleResolved = false → s.Waiting

variable {s s' : Process C} {c : C} {r : RoleRanks} {pc : Pc}

omit [DecidableEq C] in
theorem Inv.right (h : s.Inv) : s.Right := by
  rintro c r hpc d
  have hplaced := h.placed c
  rw [hpc] at hplaced
  obtain ⟨hseen, hdue⟩ := hplaced d
  refine ⟨fun hpos => ?_, fun hd => ?_⟩
  · have hr := hseen.resolve_left (by omega)
    have hk := known_of_nonneg (hr ▸ hpos)
    exact ⟨hk, hr.trans (ranksOf_known hk)⟩
  · have hk := h.due c d hd
    exact ⟨hk, (hdue hd).trans (ranksOf_known hk)⟩

omit [DecidableEq C] in
theorem inv_new : (new : Process C).Inv := by
  have hknown (d : Dim) : known (fun _ => none) d = false := by
    cases d <;> rfl
  constructor <;> simp [new, hknown, Placed, Pc.Active, Seen]
  · decide
  · constructor <;> simp [hknown]

omit [DecidableEq C] in
/-- The step of another call, or one that does not move the call. -/
theorem Placed.frame (h : s.Placed c pc) (henv : s'.env = s.env) (hdue : s'.due c = s.due c)
    (hdrawn : s'.drawnAt c = s.drawnAt c) (hmarks : s'.marks = s.marks)
    (hdraws : s.draws ≤ s'.draws)
    (hresolved : s.roleResolved → s'.roleResolved)
    (hcached : ∀ d, s.cachedRanks.get d = (ranksOf s.env).get d →
      s'.cachedRanks.get d = (ranksOf s.env).get d) : s'.Placed c pc := by
  have hDrawn : s'.Drawn c = s.Drawn c := by
    funext d
    rw [Drawn, Drawn, henv, hdrawn, hmarks]
  cases pc with
  | idle => trivial
  | entered => exact fun d hd => hresolved (h d (hdue ▸ hd))
  | counting => exact fun d => hdue ▸ h d
  | loading r todo =>
      rintro d
      rw [henv, hdue]
      exact ⟨(h d).1, fun hd => ⟨hresolved ((h d).2 hd).1, ((h d).2 hd).2⟩⟩
  | reading prog =>
      refine ⟨fun d => hdue ▸ h.1 d, hdrawn ▸ Nat.lt_of_lt_of_le h.2.1 hdraws, ?_⟩
      rw [hDrawn, henv]
      exact h.2.2
  | storing r todo =>
      obtain ⟨hnot, hr, hsome, hstored⟩ := h
      refine ⟨fun d => hdue ▸ hnot d, henv ▸ hr, hsome, fun d hd => ?_⟩
      rw [hr]
      exact hcached d ((hstored d hd).trans (by rw [hr]))
  | returned r =>
      rintro d
      rw [henv, hdue]
      exact h d

/-- A call moves on, and may store a rank; it neither starts, draws an attempt nor returns. -/
theorem Inv.goto {v : RoleRanks} (h : s.Inv) (hplaced : { s with cachedRanks := v }.Placed c pc)
    (hseen : ∀ d, Seen s.env d (v.get d))
    (hresolved : s.roleResolved → v = ranksOf s.env)
    (hcached : ∀ d, s.cachedRanks.get d = (ranksOf s.env).get d → v.get d = (ranksOf s.env).get d)
    (hactive : (s.pc c).Active → pc.Active)
    (hdrew : s.roleResolved = false → pc.Active → (s.pc c).Active)
    (hrereads : (s.pc c).Rereads → pc.Rereads) : { s.goto c pc with cachedRanks := v }.Inv where
  agrees := h.agrees
  attempts := h.attempts
  cached := hseen
  resolved := hresolved
  placed := by
    refine (Function.forall_update_iff s.pc (Process.Placed _)).mpr ⟨?_, fun d _ => ?_⟩
    · exact hplaced.frame rfl rfl rfl rfl (Nat.le_refl _) id fun _ => id
    · exact (h.placed d).frame rfl rfl rfl rfl (Nat.le_refl _) id hcached
  born := h.born
  since := h.since
  due := h.due
  marks := h.marks
  drawers := h.drawers
  active := by
    intro d hd
    by_cases hdc : d = c
    · subst hdc
      simpa only [Process.goto, Function.update_self] using hactive (h.active d hd)
    · simpa only [Process.goto, Function.update_of_ne hdc] using h.active d hd
  drew := by
    intro hfalse d hd
    by_cases hdc : d = c
    · subst hdc
      simp only [Process.goto, Function.update_self] at hd
      exact h.drew hfalse d (hdrew hfalse hd)
    · simp only [Process.goto, Function.update_of_ne hdc] at hd
      exact h.drew hfalse d hd
  waiting := by
    intro hfalse
    refine ⟨fun d hd x hx hlt hmod => ?_, (h.waiting hfalse).attempts⟩
    obtain ⟨e, he, hdrawn⟩ := (h.waiting hfalse).pending d hd x hx hlt hmod
    refine ⟨e, ?_, hdrawn⟩
    by_cases hec : e = c
    · subst hec
      simpa only [Process.goto, Function.update_self] using hrereads he
    · simpa only [Process.goto, Function.update_of_ne hec] using he

/-- A call returns, and may have resolved the role. -/
theorem Inv.finish {b : Bool} (h : s.Inv) (hactive : (s.pc c).Active)
    (hplaced : ∀ d, Seen s.env d (r.get d) ∧ (s.due c d → r.get d = (ranksOf s.env).get d))
    (hmono : s.roleResolved = true → b = true)
    (hresolved : b = true → s.cachedRanks = ranksOf s.env)
    (hfree : b = false → (s.pc c).Rereads → ∀ d, ¬ s.Drawn c d) :
    { s.finish c r with roleResolved := b }.Inv where
  agrees := h.agrees
  attempts := h.attempts
  cached := h.cached
  resolved := hresolved
  placed := by
    refine (Function.forall_update_iff s.pc (Process.Placed _)).mpr ⟨hplaced, fun d _ => ?_⟩
    exact (h.placed d).frame rfl rfl rfl rfl (Nat.le_refl _) hmono fun _ => id
  born := h.born
  since := by
    intro d hd
    by_cases hborn : s.born c d
    · exact h.born c d hborn
    · simp only [Process.finish, if_neg hborn] at hd
      exact h.since d hd
  due := h.due
  marks := h.marks
  drawers := h.drawers.erase c
  active := by
    intro d hd
    obtain ⟨hdc, hd⟩ := h.drawers.mem_erase_iff.mp hd
    simpa only [Process.finish, Process.goto, Function.update_of_ne hdc] using h.active d hd
  drew := by
    intro hfalse d hd
    have hs : s.roleResolved = false :=
      Bool.eq_false_iff.mpr fun hs => by simp [hmono hs] at hfalse
    by_cases hdc : d = c
    · subst hdc
      simp [Process.finish, Process.goto, Pc.Active] at hd
    · simp only [Process.finish, Process.goto, Function.update_of_ne hdc] at hd
      exact h.drawers.mem_erase_iff.mpr ⟨hdc, h.drew hs d hd⟩
  waiting := by
    intro hfalse
    have hs : s.roleResolved = false :=
      Bool.eq_false_iff.mpr fun hs => by simp [hmono hs] at hfalse
    have hmem := h.drew hs c hactive
    constructor
    · intro d hd x hx hlt hmod
      obtain ⟨e, he, hdrawn⟩ := (h.waiting hs).pending d hd x hx hlt hmod
      refine ⟨e, ?_, hdrawn⟩
      have hec : e ≠ c := by
        rintro rfl
        exact hfree hfalse he d ⟨hd, hdrawn ▸ hx⟩
      simpa only [Process.finish, Process.goto, Function.update_of_ne hec] using he
    · intro d hd
      have hold := (h.waiting hs).attempts d hd
      have hcount := List.countP_erase (s.born · d) s.drawers c
      change (if s.born c d then s.since d + 1 else s.since d) +
        (s.drawers.erase c).countP (s.born · d) ≤ s.draws - s.marks d
      by_cases hborn : s.born c d
      · have hpos : 0 < s.drawers.countP (s.born · d) := List.countP_pos_iff.mpr ⟨c, hmem, hborn⟩
        rw [if_pos hborn, hcount, if_pos ⟨hmem, hborn⟩]
        omega
      · rw [if_neg hborn, hcount, if_neg fun hc => hborn hc.2]
        omega

omit [DecidableEq C] in
/-- When 256 calls have been made since a rank became available and none is reading or storing, the
role is resolved. -/
theorem Inv.resolved_of_since (h : s.Inv) {d : Dim} (hsince : 256 ≤ s.since d)
    (hnone : ∀ c, ¬ (s.pc c).Rereads) : s.roleResolved = true := by
  by_contra hfalse
  have hwaiting := h.waiting (Bool.eq_false_iff.mpr hfalse)
  have hk : known s.env d := h.since d (by omega)
  have hattempts := hwaiting.attempts d hk
  obtain ⟨c, hc, -⟩ := hwaiting.pending d hk ((s.marks d + 255) / 256 * 256) (by omega) (by omega)
    (Nat.mul_mod_left ..)
  exact hnone c hc

theorem Inv.start (h : s.Inv) (hidle : ¬ (s.pc c).Active) (hsound : s.Sound (.start c)) :
    (s.start c).Inv := by
  have hdrawers : c ∉ s.drawers := fun hc => hidle (h.active c hc)
  have hrereads : ¬ (s.pc c).Rereads := by
    intro hc
    cases hpc : s.pc c <;> simp_all [Pc.Active, Pc.Rereads]
  have hresolved {d : Dim} (hsince : 256 ≤ s.since d) : s.roleResolved = true :=
    (hsound ⟨d, hsince⟩).elim id fun hnone => h.resolved_of_since hsince hnone
  exact {
    agrees := h.agrees
    attempts := h.attempts
    cached := h.cached
    resolved := h.resolved
    placed := by
      intro d
      by_cases hd : d = c
      · subst hd
        simp only [Process.start, Process.goto, Function.update_self]
        intro e he
        simp only [Function.update_self, decide_eq_true_eq] at he
        exact hresolved he
      · simp only [Process.start, Process.goto, Function.update_of_ne hd]
        exact (h.placed d).frame rfl (Function.update_of_ne hd _ _) rfl rfl (Nat.le_refl _) id
          fun _ => id
    born := by
      intro d e hd
      by_cases hdc : d = c
      · subst hdc
        simp only [Process.start, Function.update_self] at hd
        exact hd
      · simp only [Process.start, Function.update_of_ne hdc] at hd
        exact h.born d e hd
    since := h.since
    due := by
      intro d e hd
      by_cases hdc : d = c
      · subst hdc
        simp only [Process.start, Function.update_self, decide_eq_true_eq] at hd
        exact h.since e (by omega)
      · simp only [Process.start, Function.update_of_ne hdc] at hd
        exact h.due d e hd
    marks := h.marks
    drawers := h.drawers
    active := by
      intro d hd
      have hdc : d ≠ c := fun hdc => hdrawers (hdc ▸ hd)
      simpa only [Process.start, Process.goto, Function.update_of_ne hdc] using h.active d hd
    drew := by
      intro hfalse d hd
      by_cases hdc : d = c
      · subst hdc
        simp [Process.start, Process.goto, Pc.Active] at hd
      · simp only [Process.start, Process.goto, Function.update_of_ne hdc] at hd
        exact h.drew hfalse d hd
    waiting := by
      intro hfalse
      constructor
      · intro d hd x hx hlt hmod
        obtain ⟨e, he, hdrawn⟩ := (h.waiting hfalse).pending d hd x hx hlt hmod
        refine ⟨e, ?_, hdrawn⟩
        have hec : e ≠ c := fun hec => hrereads (hec ▸ he)
        simpa only [Process.start, Process.goto, Function.update_of_ne hec] using he
      · intro d hd
        refine Nat.le_trans (Nat.le_of_eq ?_) ((h.waiting hfalse).attempts d hd)
        congr 1
        apply List.countP_congr
        intro e he
        have hec : e ≠ c := fun hec => hdrawers (hec ▸ he)
        simp only [Process.start, Function.update_of_ne hec] }

/-- An attempt. If it reads the environment, it is one of a call that reads from now on. -/
theorem Inv.draw (h : s.Inv) (hcounting : s.pc c = .counting) : (s.draw c).Inv := by
  have hdue : ∀ d, s.due c d = false := by
    have hplaced := h.placed c
    rwa [hcounting] at hplaced
  have hdrawers : c ∉ s.drawers := fun hc => by
    have hactive := h.active c hc
    rw [hcounting] at hactive
    exact hactive
  have hmod : s.snapshotAttempts % resnapshotEvery = s.draws % resnapshotEvery := by
    rw [h.attempts, resnapshotEvery]
    omega
  have hactive : ∀ pc : Pc, pc = (if s.snapshotAttempts % resnapshotEvery = 0 then
      .reading snapshot else .loading .unknown Dim.all) → pc.Active := by
    rintro pc rfl
    split <;> trivial
  exact {
    agrees := h.agrees
    attempts := by
      change (s.snapshotAttempts + 1) % 2 ^ 32 = (s.draws + 1) % 2 ^ 32
      rw [h.attempts]
      omega
    cached := h.cached
    resolved := h.resolved
    placed := by
      intro d
      by_cases hd : d = c
      · subst hd
        simp only [Process.draw, Process.goto, Function.update_self]
        split
        · refine ⟨hdue, ?_, snapshot_reads h.agrees fun e he => he.1⟩
          simp only [Function.update_self]
          exact Nat.lt_succ_self _
        · intro e
          refine ⟨.inl (RoleRanks.get_unknown e), fun he => ?_⟩
          exact absurd he (by simp [hdue e])
      · simp only [Process.draw, Process.goto, Function.update_of_ne hd]
        exact (h.placed d).frame rfl rfl (Function.update_of_ne hd _ _) rfl (Nat.le_succ _) id
          fun _ => id
    born := h.born
    since := h.since
    due := h.due
    marks := fun d => Nat.le_succ_of_le (h.marks d)
    drawers := List.nodup_cons.mpr ⟨hdrawers, h.drawers⟩
    active := by
      intro d hd
      by_cases hdc : d = c
      · subst hdc
        simp only [Process.draw, Process.goto, Function.update_self]
        exact hactive _ rfl
      · simp only [Process.draw, Process.goto, Function.update_of_ne hdc]
        exact h.active d (List.mem_of_ne_of_mem hdc hd)
    drew := by
      intro hfalse d hd
      by_cases hdc : d = c
      · exact hdc ▸ List.mem_cons_self
      · simp only [Process.draw, Process.goto, Function.update_of_ne hdc] at hd
        exact List.mem_cons_of_mem _ (h.drew hfalse d hd)
    waiting := by
      intro hfalse
      constructor
      · intro d hd x hx hlt hx256
        change x < s.draws + 1 at hlt
        rcases Nat.lt_succ_iff_lt_or_eq.mp hlt with hlt | rfl
        · obtain ⟨e, he, hdrawn⟩ := (h.waiting hfalse).pending d hd x hx hlt hx256
          have hec : e ≠ c := by
            rintro rfl
            rw [hcounting] at he
            exact he
          refine ⟨e, ?_, (Function.update_of_ne hec _ _).trans hdrawn⟩
          simpa only [Process.draw, Process.goto, Function.update_of_ne hec] using he
        · refine ⟨c, ?_, Function.update_self ..⟩
          simp only [Process.draw, Process.goto, Function.update_self]
          rw [if_pos (hmod.trans hx256)]
          trivial
      · intro d hd
        have hold := (h.waiting hfalse).attempts d hd
        have hmarks := h.marks d
        have hcount : (c :: s.drawers).countP (s.born · d) ≤ s.drawers.countP (s.born · d) + 1 := by
          rw [List.countP_cons]
          split <;> omega
        change s.since d + (c :: s.drawers).countP (s.born · d) ≤ s.draws + 1 - s.marks d
        omega }

omit [DecidableEq C] in
/-- The environment grows. -/
theorem Inv.setenv {env : Env} (h : s.Inv) (hgrows : Grows s.env env) (hagrees : Agrees env)
    (hsound : s.Sound (.setenv env)) : (s.setenv env).Inv := by
  have hsame : s.roleResolved = true ∨ (∃ c r todo, s.pc c = .storing r todo) →
      ranksOf env = ranksOf s.env := by
    intro hset
    rcases hsound with hnone | ⟨hfalse, hstoring⟩
    · exact ranksOf_same hgrows hagrees hnone
    · rcases hset with htrue | ⟨c, r, todo, hpc⟩
      · rw [hfalse] at htrue
        cases htrue
      · exact absurd (hpc ▸ trivial) (hstoring c)
  have hmarks {d : Dim} (hd : known s.env d) : (s.setenv env).marks d = s.marks d := by
    simp [Process.setenv, hd]
  have hnew {d : Dim} (hk : known env d) (hd : ¬ known s.env d) :
      (s.setenv env).marks d = s.draws := by
    simp [Process.setenv, hk, hd]
  exact {
    agrees := hagrees
    attempts := h.attempts
    cached := fun d => (h.cached d).grow hgrows hagrees
    resolved := fun hres => (h.resolved hres).trans (hsame (.inl hres)).symm
    placed := by
      intro c
      have hplaced := h.placed c
      change (s.setenv env).Placed c (s.pc c)
      have hrank {d : Dim} (hd : s.due c d) : (ranksOf env).get d = (ranksOf s.env).get d :=
        ranksOf_grows hgrows hagrees (h.due c d hd)
      cases hpc : s.pc c with
      | idle => trivial
      | entered | counting =>
          rw [hpc] at hplaced
          exact hplaced
      | loading r todo =>
          rw [hpc] at hplaced
          exact fun d => ⟨(hplaced d).1.grow hgrows hagrees, fun hd =>
            ⟨((hplaced d).2 hd).1, fun hdone => (((hplaced d).2 hd).2 hdone).trans (hrank hd).symm⟩⟩
      | reading prog =>
          rw [hpc] at hplaced
          obtain ⟨hdue, hlt, hreads⟩ := hplaced
          refine ⟨hdue, hlt, (hreads.grow hgrows hagrees).mono ?_⟩
          rintro d ⟨hk, hle⟩
          by_cases hd : known s.env d
          · exact ⟨hd, hmarks hd ▸ hle⟩
          · rw [hnew hk hd] at hle
            exact absurd hlt (Nat.not_lt.mpr hle)
      | storing r todo =>
          rw [hpc] at hplaced
          obtain ⟨hdue, hr, hsome, hstored⟩ := hplaced
          exact ⟨hdue, hr.trans (hsame (.inr ⟨c, r, todo, hpc⟩)).symm, hsome, hstored⟩
      | returned r =>
          rw [hpc] at hplaced
          exact fun d => ⟨(hplaced d).1.grow hgrows hagrees, fun hd =>
            ((hplaced d).2 hd).trans (hrank hd).symm⟩
    born := fun c d hd => known_of_grows hgrows (h.born c d hd)
    since := fun d hd => known_of_grows hgrows (h.since d hd)
    due := fun c d hd => known_of_grows hgrows (h.due c d hd)
    marks := by
      intro d
      simp only [Process.setenv]
      split
      · exact Nat.le_refl _
      · exact h.marks d
    drawers := h.drawers
    active := h.active
    drew := h.drew
    waiting := by
      intro hfalse
      constructor
      · intro d hd x hx hlt hx256
        by_cases hk : known s.env d
        · exact (h.waiting hfalse).pending d hk x (hmarks hk ▸ hx) hlt hx256
        · rw [hnew hd hk] at hx
          exact absurd hlt (Nat.not_lt.mpr hx)
      · intro d hd
        change s.since d + s.drawers.countP (s.born · d) ≤ s.draws - (s.setenv env).marks d
        by_cases hk : known s.env d
        · exact hmarks hk ▸ (h.waiting hfalse).attempts d hk
        · have hsince : s.since d = 0 := by
            by_contra hpos
            exact hk (h.since d (Nat.pos_of_ne_zero hpos))
          have hcount : s.drawers.countP (s.born · d) = 0 :=
            List.countP_eq_zero.mpr fun c _ hc => hk (h.born c d hc)
          rw [hsince, hcount]
          exact Nat.zero_le _ }

/-- What a reading call has found in the end are the ranks in the environment, if it has found all
that are available. -/
theorem ranksOf_reads {K : Dim → Prop} {env : Env} (h : Reads K (.done r) env)
    (hall : ∀ d, known env d → 0 ≤ r.get d) : r = ranksOf env := by
  apply RoleRanks.ext_get
  intro d
  rw [ranksOf_get]
  split
  · rename_i hk
    have hpos := hall d hk
    exact ((h d).1.resolve_left (by omega)).2
  · rename_i hk
    exact (h d).1.resolve_right fun hd => hk hd.1

theorem Inv.cached_step (h : s.Inv) (hsound : s.Sound (.run c)) (hstep : s.cached c = some s') :
    s'.Inv := by
  have hplaced := h.placed c
  have hkeep : ∀ d, s.cachedRanks.get d = (ranksOf s.env).get d →
      s.cachedRanks.get d = (ranksOf s.env).get d := fun _ => id
  cases hpc : s.pc c with
  | idle | returned r => simp [Process.cached, hpc] at hstep
  | entered =>
      rw [hpc] at hplaced
      simp only [Process.cached, hpc, Option.some.injEq] at hstep
      subst hstep
      cases hres : s.roleResolved with
      | true =>
          refine h.goto (v := s.cachedRanks) ?_ h.cached h.resolved hkeep (by simp [hpc, Pc.Active])
            (by simp [hres]) (by simp [hpc, Pc.Rereads])
          refine fun d => ⟨.inl (RoleRanks.get_unknown d), fun _ => ⟨hres, fun hd => ?_⟩⟩
          cases d <;> simp [Dim.all] at hd
      | false =>
          refine h.goto (v := s.cachedRanks) ?_ h.cached h.resolved hkeep (by simp [hpc, Pc.Active])
            (by simp [Pc.Active]) (by simp [hpc, Pc.Rereads])
          exact fun d => Bool.eq_false_iff.mpr fun hd => by simp [hplaced d hd] at hres
  | counting =>
      simp only [Process.cached, hpc, Option.some.injEq] at hstep
      subst hstep
      exact h.draw hpc
  | loading r todo =>
      rw [hpc] at hplaced
      cases todo with
      | nil =>
          simp only [Process.cached, hpc, Option.some.injEq] at hstep
          subst hstep
          refine h.finish (b := s.roleResolved) (by simp [hpc, Pc.Active]) ?_ id h.resolved
            (by simp [hpc, Pc.Rereads])
          exact fun d => ⟨(hplaced d).1, fun hd => ((hplaced d).2 hd).2 List.not_mem_nil⟩
      | cons d todo =>
          simp only [Process.cached, hpc, Option.some.injEq] at hstep
          subst hstep
          refine h.goto (v := s.cachedRanks) ?_ h.cached h.resolved hkeep (by simp [Pc.Active])
            (by simp [hpc, Pc.Active]) (by simp [hpc, Pc.Rereads])
          intro e
          by_cases hed : e = d
          · subst hed
            rw [RoleRanks.get_set_self]
            refine ⟨h.cached e, fun he => ?_⟩
            have hres := ((hplaced e).2 he).1
            exact ⟨hres, fun _ => by rw [h.resolved hres]⟩
          · rw [RoleRanks.get_set_of_ne r _ hed]
            refine ⟨(hplaced e).1, fun he => ⟨((hplaced e).2 he).1, fun hnot => ?_⟩⟩
            exact ((hplaced e).2 he).2 (by simp [hed, hnot])
  | reading prog =>
      rw [hpc] at hplaced
      obtain ⟨hdue, hlt, hreads⟩ := hplaced
      cases prog with
      | read key rest =>
          simp only [Process.cached, hpc, Option.some.injEq] at hstep
          subst hstep
          refine h.goto (v := s.cachedRanks) ?_ h.cached h.resolved hkeep (by simp [Pc.Active])
            (by simp [hpc, Pc.Active]) (by simp [Pc.Rereads])
          exact ⟨hdue, hlt, hreads s.env (.refl s.env) h.agrees⟩
      | done r =>
          simp only [Process.cached, hpc] at hstep
          split at hstep
          · rename_i hsome
            obtain rfl := Option.some.inj hstep
            have hsome' : ∃ d, 0 ≤ r.get d := by
              rcases hsome with hsome | hsome | hsome
              exacts [⟨.tp, hsome⟩, ⟨.pp, hsome⟩, ⟨.dp, hsome⟩]
            refine h.goto (v := s.cachedRanks) ?_ h.cached h.resolved hkeep (by simp [Pc.Active])
              (by simp [hpc, Pc.Active]) (by simp [Pc.Rereads])
            refine ⟨hdue, ranksOf_reads hreads (hsound r (by rw [hpc]; rfl) hsome'), hsome',
              fun d hd => ?_⟩
            cases d <;> simp [Dim.all] at hd
          · rename_i hnone
            obtain rfl := Option.some.inj hstep
            have hneg (d : Dim) : ¬ 0 ≤ r.get d := by
              intro hd
              cases d
              exacts [hnone (.inl hd), hnone (.inr (.inl hd)), hnone (.inr (.inr hd))]
            refine h.finish (b := s.roleResolved) (by simp [hpc, Pc.Active]) (fun d => ?_) id
              h.resolved fun _ _ d hd => ?_
            · refine ⟨(hreads d).1.imp_right fun hr => hr.2.trans (ranksOf_known hr.1).symm, ?_⟩
              simp [hdue d]
            · obtain ⟨hk, hr⟩ := (hreads d).2 hd
              exact hneg d (hr ▸ rank_nonneg hk)
  | storing r todo =>
      rw [hpc] at hplaced
      obtain ⟨hdue, hr, hsome, hstored⟩ := hplaced
      cases todo with
      | nil =>
          simp only [Process.cached, hpc, Option.some.injEq] at hstep
          subst hstep
          refine h.finish (b := true) (by simp [hpc, Pc.Active]) (fun d => ?_) (fun _ => rfl)
            (fun _ => ?_) (by simp)
          · exact ⟨.inr (by rw [hr]), by simp [hdue d]⟩
          · apply RoleRanks.ext_get
            intro d
            rw [hstored d List.not_mem_nil, hr]
      | cons d todo =>
          simp only [Process.cached, hpc, Option.some.injEq] at hstep
          subst hstep
          have hget (e : Dim) : (s.cachedRanks.set d (r.get d)).get e = (ranksOf s.env).get e ∨
              (s.cachedRanks.set d (r.get d)).get e = s.cachedRanks.get e ∧ e ≠ d := by
            by_cases hed : e = d
            · subst hed
              rw [RoleRanks.get_set_self]
              exact .inl (by rw [hr])
            · exact .inr ⟨RoleRanks.get_set_of_ne _ _ hed, hed⟩
          refine h.goto (v := s.cachedRanks.set d (r.get d)) ?_ (fun e => ?_) (fun hres => ?_)
            (fun e he => ?_) (by simp [Pc.Active]) (by simp [hpc, Pc.Active]) (by simp [Pc.Rereads])
          · refine ⟨hdue, hr, hsome, fun e he => ?_⟩
            rcases hget e with hv | ⟨hv, hed⟩
            · exact hv.trans (by rw [hr])
            · exact hv.trans (hstored e (by simp [hed, he]))
          · rcases hget e with hv | ⟨hv, -⟩
            · exact .inr hv
            · exact hv ▸ h.cached e
          · apply RoleRanks.ext_get
            intro e
            rcases hget e with hv | ⟨hv, -⟩
            · exact hv
            · rw [hv, h.resolved hres]
          · rcases hget e with hv | ⟨hv, -⟩
            · exact hv
            · exact hv.trans he

theorem Inv.step (h : s.Inv) {a : Action C} (hsound : s.Sound a) (hstep : s.step a = some s') :
    s'.Inv := by
  cases a with
  | setenv env =>
      obtain ⟨⟨hgrows, hagrees⟩, hs⟩ := Option.ite_none_right_eq_some.mp hstep
      exact Option.some.inj hs ▸ h.setenv hgrows hagrees hsound
  | start c =>
      simp only [Process.step] at hstep
      split at hstep
      · rename_i hpc
        exact Option.some.inj hstep ▸ h.start (by simp [hpc, Pc.Active]) hsound
      · rename_i r hpc
        exact Option.some.inj hstep ▸ h.start (by simp [hpc, Pc.Active]) hsound
      · cases hstep
  | run c => exact h.cached_step hsound hstep

/-- In every state of a run whose steps are all sound, the calls have returned the ranks in the
environment or unknown ones, and the rank if they started late enough. -/
theorem right_of_sound {acts : List (Action C)}
    (hsound : Meets Process.step Sound (new : Process C) acts)
    (hrun : exec Process.step new acts = some s) : s.Right :=
  (exec_invariant (fun _ _ _ h hok hstep => Inv.step h hok hstep) inv_new hsound hrun).right

/-- The variables of the three ranks, which become available together. -/
def threeRanks : Env := fun key =>
  if key = "TP_RANK" then some ['0'] else if key = "PP_RANK" then some ['1']
  else if key = "DP_RANK" then some ['2'] else none

/-- A call with so many accesses. -/
def oneCall (n : ℕ) : List (Action Unit) := .start () :: List.replicate n (.run ())

/-- The first call finds nothing. When the ranks have become available, 255 calls do not read them,
the next one does, and the last one finds them cached. -/
def reread : List (Action Unit) :=
  oneCall 13 ++ .setenv threeRanks :: (List.replicate 255 (oneCall 6)).flatten ++ oneCall 13 ++
    oneCall 5

theorem reread_right : ∃ s, exec Process.step (new : Process Unit) reread = some s ∧
    s.due () .tp = true ∧ s.cachedRanks = ⟨0, 1, 2⟩ ∧ s.Right := by
  have hend : ((exec Process.step new reread).map fun s => (s.due () .tp, s.cachedRanks)) =
      some (true, ⟨0, 1, 2⟩) := by decide +kernel
  obtain ⟨s, hrun, hfacts⟩ := Option.map_eq_some_iff.mp hend
  obtain ⟨hdue, hcached⟩ := Prod.mk.inj hfacts
  exact ⟨s, hrun, hdue, hcached, right_of_sound (by decide +kernel) hrun⟩

/-- The rank of data parallelism becomes available first, and that of tensor parallelism later. -/
def dpFirst : Env := fun key => if key = "DP_RANK" then some ['1'] else none

def tpLater : Env := fun key => if key = "TP_RANK" then some ['3'] else dpFirst key

/-- A call that finds the role resolved returns what is cached. -/
theorem exec_resolved {s : Process Unit} (hresolved : s.roleResolved = true)
    (hpc : ∃ r, s.pc () = .returned r) :
    ∃ s', exec Process.step s (oneCall 5) = some s' ∧
      s'.env = s.env ∧ s'.cachedRanks = s.cachedRanks ∧ s'.roleResolved = true ∧
      s'.pc () = .returned s.cachedRanks ∧ (∀ d, known s.env d → s'.since d = s.since d + 1) ∧
      ∀ d, s'.due () d = decide (256 ≤ s.since d) := by
  obtain ⟨r, hpc⟩ := hpc
  simp only [oneCall, exec_cons, exec_nil, Option.bind_some, List.replicate, Process.step,
    Process.cached, Process.start, Process.goto, hpc, Function.update_self, hresolved, if_true,
    Dim.all]
  refine ⟨_, rfl, rfl, rfl, rfl, ?_, fun d hd => ?_, fun d => ?_⟩
  · simp only [Process.finish, Process.goto, Function.update_self]
    cases s.cachedRanks
    rfl
  · simp [Process.finish, Process.goto, hd]
  · simp [Process.finish, Process.goto]

/-- However many calls are made, the second rank is not found. -/
theorem exec_frozen (n : ℕ) : ∃ acts s, exec Process.step (new : Process Unit) acts = some s ∧
    s.env = tpLater ∧ s.cachedRanks = ⟨-1, -1, 1⟩ ∧ s.roleResolved = true ∧
    (∃ r, s.pc () = .returned r) ∧ s.since .tp = n := by
  induction n with
  | zero =>
      exact ⟨(.setenv dpFirst :: oneCall 16) ++ [.setenv tpLater], _,
        rfl, rfl, by decide, by decide, ⟨⟨-1, -1, 1⟩, rfl⟩, by decide⟩
  | succ n ih =>
      obtain ⟨acts, s, hrun, henv, hcached, hresolved, hpc, hsince⟩ := ih
      obtain ⟨s', hcall, hlater, hcached', hresolved', hpc', hsince', -⟩ :=
        exec_resolved hresolved hpc
      refine ⟨_, s', exec_trans hrun hcall, hlater.trans henv, hcached'.trans hcached, hresolved',
        ⟨_, hpc'⟩, ?_⟩
      rw [hsince' .tp (henv ▸ by decide), hsince]

/-- A call that starts 256 calls after the second rank became available does not return it. -/
theorem frozen_not_right : ¬ ∀ (acts : List (Action Unit)) (s : Process Unit),
    exec Process.step new acts = some s → s.Right := by
  rintro h
  obtain ⟨acts, s, hrun, henv, hcached, hresolved, hpc, hsince⟩ := exec_frozen 256
  obtain ⟨s', hcall, hlater, -, -, hpc', -, hdue⟩ := exec_resolved hresolved hpc
  have hright := (h _ s' (exec_trans hrun hcall) () _ hpc' .tp).2 (by rw [hdue, hsince]; rfl)
  have hrank := hright.2
  rw [hcached, hlater, henv] at hrank
  exact absurd hrank (by decide)

end Process

end Probing.Nccl.Role
