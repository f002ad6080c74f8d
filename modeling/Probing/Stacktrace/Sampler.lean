import Mathlib.Data.Finset.Card

/-!
# The life of the sampler's ring

`setup` installs a ring, signal handlers, cooperative samplers and consumers use it, and `reset`
takes it away and frees it. Calls move one access to the shared words at a time, in any order of
the agents. A handler that interrupts a call is an agent of its own.
-/

namespace Probing.Stacktrace.Sampler

/-- The rounds for which `reset` waits for the handlers. -/
def spinLimit : ℕ := 10000000

/-- Where a call is: the next access it makes. Rings are named in the order of their allocation. -/
inductive Pc where
  | idle
  | handlerCheck
  | handlerEnter
  | handlerStack
  | handlerLoad
  | handlerRing (ring : ℕ)
  | handlerLeave
  | cooperativeCheck
  | cooperativeLoad
  | cooperativeRing (ring : ℕ)
  | consumerCheck (my_gen : ℕ)
  | consumerLoad (my_gen : ℕ) (stopping : Bool)
  | consumerRing (my_gen : ℕ) (stopping : Bool) (ring : ℕ)
  | setupCheck
  | setupInstall (ring : ℕ)
  | setupGeneration
  | setupEnable (my_gen : ℕ)
  | resetDisable
  | resetGeneration
  | resetSwap
  | resetWait (ring : ℕ) (rounds : ℕ)
  | resetFree (ring : ℕ)
  | resetRestore (ring : ℕ)
  deriving DecidableEq

/-- The counters never wrap. No branch reads `freed` and `lost`. -/
structure State (A : Type) where
  enabled : Bool
  active : ℕ
  ringPtr : Option ℕ
  generation : ℕ
  allocated : ℕ
  freed : List ℕ
  lost : List ℕ
  pc : A → Pc

inductive Action (A : Type) where
  | sigprofHandler (a : A)
  | maybeCooperativeSample (a : A)
  | setup (a : A)
  | reset (a : A)
  | step (a : A) (choice : Bool)

namespace State

variable {A : Type} [DecidableEq A]

def new : State A where
  enabled := false
  active := 0
  ringPtr := none
  generation := 0
  allocated := 0
  freed := []
  lost := []
  pc _ := .idle

def goto (s : State A) (a : A) (p : Pc) : State A := { s with pc := Function.update s.pc a p }

/-- One access of a call. The choice is what the call finds elsewhere: an alternate stack, a sample
that is due, another access to the ring, a thread for the consumer. After the spawn the agent of
`setup` is the new thread. -/
def advance (s : State A) (a : A) (choice : Bool) : State A :=
  match s.pc a with
  | .idle => s
  | .handlerCheck => s.goto a (if s.enabled then .handlerEnter else .idle)
  | .handlerEnter => { s with active := s.active + 1 }.goto a .handlerStack
  | .handlerStack => s.goto a (if choice then .handlerLoad else .handlerLeave)
  | .handlerLoad =>
      match s.ringPtr with
      | none => s.goto a .handlerLeave
      | some ring => s.goto a (.handlerRing ring)
  | .handlerRing ring => s.goto a (if choice then .handlerRing ring else .handlerLeave)
  | .handlerLeave => { s with active := s.active - 1 }.goto a .idle
  | .cooperativeCheck => s.goto a (if s.enabled && choice then .cooperativeLoad else .idle)
  | .cooperativeLoad =>
      match s.ringPtr with
      | none => s.goto a .idle
      | some ring => s.goto a (.cooperativeRing ring)
  | .cooperativeRing ring => s.goto a (if choice then .cooperativeRing ring else .idle)
  | .consumerCheck my_gen => s.goto a (.consumerLoad my_gen (s.generation != my_gen))
  | .consumerLoad my_gen stopping =>
      match s.ringPtr with
      | none => s.goto a (if stopping then .idle else .consumerCheck my_gen)
      | some ring => s.goto a (.consumerRing my_gen stopping ring)
  | .consumerRing my_gen stopping ring =>
      s.goto a (if choice then .consumerRing my_gen stopping ring
        else if stopping then .idle else .consumerCheck my_gen)
  | .setupCheck =>
      match s.ringPtr with
      | none => { s with allocated := s.allocated + 1 }.goto a (.setupInstall s.allocated)
      | some _ => s.goto a .setupGeneration
  | .setupInstall ring =>
      match s.ringPtr with
      | none => { s with ringPtr := some ring }.goto a .setupGeneration
      | some _ => { s with freed := s.freed ++ [ring] }.goto a .setupGeneration
  | .setupGeneration =>
      { s with generation := s.generation + 1 }.goto a (.setupEnable (s.generation + 1))
  | .setupEnable my_gen =>
      { s with enabled := true }.goto a (if choice then .consumerCheck my_gen else .idle)
  | .resetDisable => { s with enabled := false }.goto a .resetGeneration
  | .resetGeneration => { s with generation := s.generation + 1 }.goto a .resetSwap
  | .resetSwap =>
      match s.ringPtr with
      | none => s.goto a .idle
      | some ring => { s with ringPtr := none }.goto a (.resetWait ring spinLimit)
  | .resetWait ring 0 => s.goto a (.resetRestore ring)
  | .resetWait ring (rounds + 1) =>
      s.goto a (if s.active = 0 then .resetFree ring else .resetWait ring rounds)
  | .resetFree ring => { s with freed := s.freed ++ [ring] }.goto a .idle
  -- the store drops the pointer to a ring that a `setup` has installed meanwhile
  | .resetRestore ring =>
      { s with ringPtr := some ring, lost := s.lost ++ s.ringPtr.toList }.goto a .idle

/-- An agent begins a call when it is in none. -/
def enter (s : State A) (a : A) (p : Pc) : State A :=
  match s.pc a with
  | .idle => s.goto a p
  | _ => s

def act (s : State A) : Action A → State A
  | .sigprofHandler a => s.enter a .handlerCheck
  | .maybeCooperativeSample a => s.enter a .cooperativeCheck
  | .setup a => s.enter a .setupCheck
  | .reset a => s.enter a .resetDisable
  | .step a choice => s.advance a choice

def run (s : State A) (acts : List (Action A)) : State A := acts.foldl act s

end State

/-- The ring that a call alone has in its hands. -/
def Pc.holds : Pc → Option ℕ
  | .setupInstall ring => some ring
  | .resetWait ring _ => some ring
  | .resetFree ring => some ring
  | .resetRestore ring => some ring
  | _ => none

/-- The ring that the next access may free. -/
def Pc.drops : Pc → Option ℕ
  | .setupInstall ring => some ring
  | .resetFree ring => some ring
  | _ => none

/-- The call is counted in `HANDLER_ACTIVE`. -/
def Pc.guarded : Pc → Bool
  | .handlerStack => true
  | .handlerLoad => true
  | .handlerRing _ => true
  | .handlerLeave => true
  | _ => false

/-- The ring that a call reads or writes. -/
def Pc.inside : Pc → Option ℕ
  | .handlerRing ring => some ring
  | .cooperativeRing ring => some ring
  | .consumerRing _ _ ring => some ring
  | _ => none

/-- The generation that a consumer, or the call that is to spawn it, belongs to. -/
def Pc.consumes : Pc → Option ℕ
  | .consumerCheck my_gen => some my_gen
  | .consumerLoad my_gen _ => some my_gen
  | .consumerRing my_gen _ _ => some my_gen
  | .setupEnable my_gen => some my_gen
  | _ => none

/-- Where an allocated ring can be. -/
inductive Place (A : Type) where
  | installed
  | held (a : A)
  | freed
  | lost

def State.At {A : Type} (s : State A) (ring : ℕ) : Place A → Prop
  | .installed => s.ringPtr = some ring
  | .held a => (s.pc a).holds = some ring
  | .freed => ring ∈ s.freed
  | .lost => ring ∈ s.lost

/-- Exactly the things below `bound` have a place, and each has one. -/
structure Settled {P : Type} (bound : ℕ) (At : ℕ → P → Prop) : Prop where
  placed : ∀ x, x < bound ↔ ∃ p, At x p
  one_place : ∀ {x p q}, At x p → At x q → p = q

namespace Settled

variable {P : Type} {bound x : ℕ} {At At' : ℕ → P → Prop} {p q : P}

theorem congr (h : Settled bound At) (hAt : ∀ y r, At' y r ↔ At y r) : Settled bound At' := by
  obtain rfl : At' = At := funext fun y => funext fun r => propext (hAt y r)
  exact h

/-- A thing moves from its place to another one, and the other places keep what they have. -/
theorem move (h : Settled bound At) (hx : At x p) (hpq : p ≠ q)
    (hout : ∀ y, At' y p ↔ y ≠ x ∧ At y p)
    (hin : ∀ y, At' y q ↔ y = x ∨ At y q) (hsame : ∀ y r, r ≠ p → r ≠ q → (At' y r ↔ At y r)) :
    Settled bound At' := by
  have hAt (y : ℕ) (r : P) : At' y r ↔ y = x ∧ r = q ∨ y ≠ x ∧ At y r := by
    have hne (hr : r ≠ p) (hy : At y r) : y ≠ x := by
      rintro rfl
      exact hr (h.one_place hy hx)
    by_cases hrp : r = p
    · subst hrp
      rw [hout]
      simp [hpq]
    by_cases hrq : r = q
    · subst hrq
      rw [hin]
      have := hne hrp
      tauto
    · rw [hsame y r hrp hrq]
      have := hne hrp
      tauto
  refine ⟨fun y => ?_, fun {y r r'} hr hr' => ?_⟩
  · simp only [hAt]
    by_cases hy : y = x
    · subst hy
      exact iff_of_true ((h.placed y).2 ⟨p, hx⟩) ⟨q, .inl ⟨rfl, rfl⟩⟩
    · simp only [hy, false_and, false_or, ne_eq, not_false_eq_true, true_and]
      exact h.placed y
  · rcases (hAt y r).1 hr with ⟨hy, rfl⟩ | ⟨hy, hr⟩
    · rcases (hAt y r').1 hr' with ⟨-, rfl⟩ | ⟨hy', -⟩
      · rfl
      · exact absurd hy hy'
    · rcases (hAt y r').1 hr' with ⟨hy', -⟩ | ⟨-, hr'⟩
      · exact absurd hy' hy
      · exact h.one_place hr hr'

/-- The next thing gets its first place. -/
theorem fresh (h : Settled bound At) (hAt : ∀ y r, At' y r ↔ y = bound ∧ r = q ∨ At y r) :
    Settled (bound + 1) At' where
  placed y := by
    calc
      y < bound + 1 ↔ y = bound ∨ y < bound := by omega
      _ ↔ y = bound ∨ ∃ r, At y r := by rw [h.placed y]
      _ ↔ ∃ r, At' y r := by
        simp only [hAt, exists_or, exists_and_left, exists_eq, and_true]
  one_place {y r r'} hr hr' := by
    have hbelow {z t} (ht : At z t) : z ≠ bound :=
      fun hz => absurd ((h.placed z).2 ⟨t, ht⟩) (by omega)
    rcases (hAt y r).1 hr with ⟨hy, rfl⟩ | hr
    · rcases (hAt y r').1 hr' with ⟨-, rfl⟩ | hr'
      · rfl
      · exact absurd hy (hbelow hr')
    · rcases (hAt y r').1 hr' with ⟨hy', -⟩ | hr'
      · exact absurd hy' (hbelow hr)
      · exact h.one_place hr hr'

end Settled

section Steps

variable {A : Type} [DecidableEq A] {s t : State A} {a b : A} {p : Pc} {ring : ℕ}

theorem pc_self (ht : t.pc = Function.update s.pc a p) : t.pc a = p := by
  rw [ht, Function.update_self]

theorem pc_of_ne (ht : t.pc = Function.update s.pc a p) (hb : b ≠ a) : t.pc b = s.pc b := by
  rw [ht, Function.update_of_ne hb]

/-- Every ring is in one place, and no ring is freed or lost twice. -/
structure Owned (s : State A) : Prop where
  settled : Settled s.allocated s.At
  freed_once : s.freed.Nodup
  lost_once : s.lost.Nodup

namespace Owned

/-- The rings stay where they are. -/
theorem stay (h : Owned s) (ht : t.pc = Function.update s.pc a p) (hp : p.holds = (s.pc a).holds)
    (hptr : t.ringPtr = s.ringPtr) (hallocated : t.allocated = s.allocated)
    (hfreed : t.freed = s.freed) (hlost : t.lost = s.lost) : Owned t where
  settled := by
    rw [hallocated]
    refine h.settled.congr fun x q => ?_
    cases q with
    | installed => simp only [State.At, hptr]
    | held b =>
        by_cases hb : b = a
        · subst hb
          simp only [State.At, pc_self ht, hp]
        · simp only [State.At, pc_of_ne ht hb]
    | freed => simp only [State.At, hfreed]
    | lost => simp only [State.At, hlost]
  freed_once := hfreed ▸ h.freed_once
  lost_once := hlost ▸ h.lost_once

/-- A ring is allocated by a call that holds none. -/
theorem allocate (h : Owned s) (ht : t.pc = Function.update s.pc a p)
    (hnone : (s.pc a).holds = none) (hp : p.holds = some s.allocated) (hptr : t.ringPtr = s.ringPtr)
    (hallocated : t.allocated = s.allocated + 1)
    (hfreed : t.freed = s.freed) (hlost : t.lost = s.lost) : Owned t where
  settled := by
    rw [hallocated]
    refine h.settled.fresh (q := .held a) fun x q => ?_
    cases q with
    | installed => simp [State.At, hptr]
    | held b =>
        by_cases hb : b = a
        · subst hb
          simp [State.At, pc_self ht, hp, hnone, eq_comm]
        · simp [State.At, pc_of_ne ht hb, hb]
    | freed => simp [State.At, hfreed]
    | lost => simp [State.At, hlost]
  freed_once := hfreed ▸ h.freed_once
  lost_once := hlost ▸ h.lost_once

/-- The ring of a call is installed where none is. -/
theorem install (h : Owned s) (ht : t.pc = Function.update s.pc a p)
    (hring : (s.pc a).holds = some ring)
    (hp : p.holds = none) (hnone : s.ringPtr = none) (hptr : t.ringPtr = some ring)
    (hallocated : t.allocated = s.allocated) (hfreed : t.freed = s.freed)
    (hlost : t.lost = s.lost) : Owned t where
  settled := by
    rw [hallocated]
    refine h.settled.move (p := .held a) (q := .installed) hring (nomatch ·) (fun y => ?_)
      (fun y => ?_) ?_
    · simp [State.At, pc_self ht, hp, hring, eq_comm]
    · simp [State.At, hptr, hnone, eq_comm]
    · rintro y (_ | b | _ | _) hr hr'
      · exact absurd rfl hr'
      · have hb : b ≠ a := fun hb => hr (hb ▸ rfl)
        simp only [State.At, pc_of_ne ht hb]
      · simp only [State.At, hfreed]
      · simp only [State.At, hlost]
  freed_once := hfreed ▸ h.freed_once
  lost_once := hlost ▸ h.lost_once

/-- A call takes the installed ring. -/
theorem take (h : Owned s) (ht : t.pc = Function.update s.pc a p) (hnone : (s.pc a).holds = none)
    (hp : p.holds = some ring) (hring : s.ringPtr = some ring) (hptr : t.ringPtr = none)
    (hallocated : t.allocated = s.allocated) (hfreed : t.freed = s.freed)
    (hlost : t.lost = s.lost) : Owned t where
  settled := by
    rw [hallocated]
    refine h.settled.move (p := .installed) (q := .held a) hring (nomatch ·) (fun y => ?_)
      (fun y => ?_) ?_
    · simp [State.At, hptr, hring, eq_comm]
    · simp [State.At, pc_self ht, hp, hnone, eq_comm]
    · rintro y (_ | b | _ | _) hr hr'
      · exact absurd rfl hr
      · have hb : b ≠ a := fun hb => hr' (hb ▸ rfl)
        simp only [State.At, pc_of_ne ht hb]
      · simp only [State.At, hfreed]
      · simp only [State.At, hlost]
  freed_once := hfreed ▸ h.freed_once
  lost_once := hlost ▸ h.lost_once

/-- A call frees the ring that it holds. -/
theorem free (h : Owned s) (ht : t.pc = Function.update s.pc a p)
    (hring : (s.pc a).holds = some ring)
    (hp : p.holds = none) (hptr : t.ringPtr = s.ringPtr) (hallocated : t.allocated = s.allocated)
    (hfreed : t.freed = s.freed ++ [ring]) (hlost : t.lost = s.lost) : Owned t where
  settled := by
    rw [hallocated]
    refine h.settled.move (p := .held a) (q := .freed) hring (nomatch ·) (fun y => ?_)
      (fun y => ?_) ?_
    · simp [State.At, pc_self ht, hp, hring, eq_comm]
    · simp [State.At, hfreed, or_comm]
    · rintro y (_ | b | _ | _) hr hr'
      · simp only [State.At, hptr]
      · have hb : b ≠ a := fun hb => hr (hb ▸ rfl)
        simp only [State.At, pc_of_ne ht hb]
      · exact absurd rfl hr'
      · simp only [State.At, hlost]
  freed_once := by
    have hnew : ring ∉ s.freed := fun hmem =>
      nomatch h.settled.one_place (p := .held a) (q := .freed) hring hmem
    rw [hfreed, ← List.concat_eq_append]
    exact h.freed_once.concat hnew
  lost_once := hlost ▸ h.lost_once

omit [DecidableEq A] in
/-- The pointer to the installed ring is dropped. -/
theorem lose (h : Owned s) (hpc : t.pc = s.pc) (hring : s.ringPtr = some ring)
    (hptr : t.ringPtr = none) (hallocated : t.allocated = s.allocated) (hfreed : t.freed = s.freed)
    (hlost : t.lost = s.lost ++ [ring]) :
    Owned t where
  settled := by
    rw [hallocated]
    refine h.settled.move (p := .installed) (q := .lost) hring (nomatch ·) (fun y => ?_)
      (fun y => ?_) ?_
    · simp [State.At, hptr, hring, eq_comm]
    · simp [State.At, hlost, or_comm]
    · rintro y (_ | b | _ | _) hr hr'
      · exact absurd rfl hr
      · simp only [State.At, hpc]
      · simp only [State.At, hfreed]
      · exact absurd rfl hr'
  freed_once := hfreed ▸ h.freed_once
  lost_once := by
    have hnew : ring ∉ s.lost := fun hmem =>
      nomatch h.settled.one_place (p := .installed) (q := .lost) hring hmem
    rw [hlost, ← List.concat_eq_append]
    exact h.lost_once.concat hnew

theorem advance (h : Owned s) (a : A) (choice : Bool) : Owned (s.advance a choice) := by
  unfold State.advance
  cases hpc : s.pc a with
  | idle => exact h
  | handlerCheck => exact h.stay (a := a) rfl (by rw [hpc]; split <;> rfl) rfl rfl rfl rfl
  | handlerEnter => exact h.stay (a := a) rfl (by rw [hpc]; rfl) rfl rfl rfl rfl
  | handlerStack => exact h.stay (a := a) rfl (by rw [hpc]; split <;> rfl) rfl rfl rfl rfl
  | handlerLoad =>
      cases hring : s.ringPtr with
      | none => exact h.stay (a := a) rfl (by rw [hpc]; rfl) rfl rfl rfl rfl
      | some ring => exact h.stay (a := a) rfl (by rw [hpc]; rfl) rfl rfl rfl rfl
  | handlerRing ring => exact h.stay (a := a) rfl (by rw [hpc]; split <;> rfl) rfl rfl rfl rfl
  | handlerLeave => exact h.stay (a := a) rfl (by rw [hpc]; rfl) rfl rfl rfl rfl
  | cooperativeCheck => exact h.stay (a := a) rfl (by rw [hpc]; split <;> rfl) rfl rfl rfl rfl
  | cooperativeLoad =>
      cases hring : s.ringPtr with
      | none => exact h.stay (a := a) rfl (by rw [hpc]; rfl) rfl rfl rfl rfl
      | some ring => exact h.stay (a := a) rfl (by rw [hpc]; rfl) rfl rfl rfl rfl
  | cooperativeRing ring => exact h.stay (a := a) rfl (by rw [hpc]; split <;> rfl) rfl rfl rfl rfl
  | consumerCheck my_gen => exact h.stay (a := a) rfl (by rw [hpc]; rfl) rfl rfl rfl rfl
  | consumerLoad my_gen stopping =>
      cases hring : s.ringPtr with
      | none => exact h.stay (a := a) rfl (by rw [hpc]; split <;> rfl) rfl rfl rfl rfl
      | some ring => exact h.stay (a := a) rfl (by rw [hpc]; rfl) rfl rfl rfl rfl
  | consumerRing my_gen stopping ring =>
      exact h.stay (a := a) rfl (by rw [hpc]; split <;> [rfl; split <;> rfl]) rfl rfl rfl rfl
  | setupCheck =>
      cases hring : s.ringPtr with
      | none => exact h.allocate (a := a) rfl (by rw [hpc]; rfl) rfl hring.symm rfl rfl rfl
      | some ring => exact h.stay (a := a) rfl (by rw [hpc]; rfl) rfl rfl rfl rfl
  | setupInstall ring =>
      cases hring : s.ringPtr with
      | none => exact h.install (a := a) rfl (by rw [hpc]; rfl) rfl hring rfl rfl rfl rfl
      | some _ => exact h.free (a := a) rfl (by rw [hpc]; rfl) rfl hring.symm rfl rfl rfl
  | setupGeneration => exact h.stay (a := a) rfl (by rw [hpc]; rfl) rfl rfl rfl rfl
  | setupEnable my_gen => exact h.stay (a := a) rfl (by rw [hpc]; split <;> rfl) rfl rfl rfl rfl
  | resetDisable => exact h.stay (a := a) rfl (by rw [hpc]; rfl) rfl rfl rfl rfl
  | resetGeneration => exact h.stay (a := a) rfl (by rw [hpc]; rfl) rfl rfl rfl rfl
  | resetSwap =>
      cases hring : s.ringPtr with
      | none => exact h.stay (a := a) rfl (by rw [hpc]; rfl) rfl rfl rfl rfl
      | some ring => exact h.take (a := a) rfl (by rw [hpc]; rfl) rfl hring rfl rfl rfl rfl
  | resetWait ring rounds =>
      cases rounds with
      | zero => exact h.stay (a := a) rfl (by rw [hpc]; rfl) rfl rfl rfl rfl
      | succ rounds => exact h.stay (a := a) rfl (by rw [hpc]; split <;> rfl) rfl rfl rfl rfl
  | resetFree ring => exact h.free (a := a) rfl (by rw [hpc]; rfl) rfl rfl rfl rfl rfl
  | resetRestore ring =>
      cases hring : s.ringPtr with
      | none =>
          exact h.install (a := a) rfl (by rw [hpc]; rfl) rfl hring rfl rfl rfl (List.append_nil _)
      | some other =>
          have hlose : Owned { s with ringPtr := none, lost := s.lost ++ [other] } :=
            h.lose rfl hring rfl rfl rfl rfl
          exact hlose.install (a := a) rfl (by rw [hpc]; rfl) rfl rfl rfl rfl rfl rfl

end Owned

/-- What an access can do, as far as the users of the rings are concerned. -/
structure Moves (s : State A) (a : A) (t : State A) : Prop where
  others : ∀ {b}, b ≠ a → t.pc b = s.pc b
  allocated : s.allocated ≤ t.allocated
  generation : s.generation ≤ t.generation
  inside : ∀ {ring}, (t.pc a).inside = some ring → (s.pc a).inside = some ring ∨
    s.ringPtr = some ring
  handled : ∀ {ring}, t.pc a = .handlerRing ring → s.pc a = .handlerRing ring ∨
    s.ringPtr = some ring
  consumes : ∀ {g}, (t.pc a).consumes = some g → (s.pc a).consumes = some g ∨ s.generation < g ∧
    g ≤ t.generation
  drops : ∀ {ring}, (t.pc a).drops = some ring →
    (s.pc a).drops = some ring ∨ s.allocated ≤ ring ∨ s.active = 0
  freed : ∀ ring ∈ t.freed, ring ∈ s.freed ∨ (s.pc a).drops = some ring
  counted : (t.pc a).guarded = (s.pc a).guarded ∧ t.active = s.active ∨
    (s.pc a).guarded = false ∧ (t.pc a).guarded = true ∧ t.active = s.active + 1 ∨
    (s.pc a).guarded = true ∧ (t.pc a).guarded = false ∧ t.active = s.active - 1

section Branches

attribute [local simp] Pc.drops Pc.guarded Pc.inside Pc.consumes State.goto

theorem advance_moves (s : State A) (a : A) (choice : Bool) : Moves s a (s.advance a choice) := by
  unfold State.advance
  cases hpc : s.pc a with
  | idle => constructor <;> simp +contextual [hpc]
  | handlerCheck => constructor <;> cases s.enabled <;> simp +contextual [hpc]
  | handlerEnter => constructor <;> simp +contextual [hpc]
  | handlerStack => constructor <;> cases choice <;> simp +contextual [hpc]
  | handlerLoad =>
      cases hring : s.ringPtr with
      | none => constructor <;> simp +contextual [hpc]
      | some ring => constructor <;> simp +contextual [hpc, hring]
  | handlerRing ring => constructor <;> cases choice <;> simp +contextual [hpc]
  | handlerLeave => constructor <;> simp +contextual [hpc]
  | cooperativeCheck => constructor <;> cases s.enabled <;> cases choice <;> simp +contextual [hpc]
  | cooperativeLoad =>
      cases hring : s.ringPtr with
      | none => constructor <;> simp +contextual [hpc]
      | some ring => constructor <;> simp +contextual [hpc, hring]
  | cooperativeRing ring => constructor <;> cases choice <;> simp +contextual [hpc]
  | consumerCheck my_gen => constructor <;> simp +contextual [hpc]
  | consumerLoad my_gen stopping =>
      cases hring : s.ringPtr with
      | none => constructor <;> cases stopping <;> simp +contextual [hpc]
      | some ring => constructor <;> simp +contextual [hpc, hring]
  | consumerRing my_gen stopping ring =>
      constructor <;> cases choice <;> cases stopping <;> simp +contextual [hpc]
  | setupCheck =>
      cases hring : s.ringPtr with
      | none => constructor <;> simp +contextual [hpc]
      | some ring => constructor <;> simp +contextual [hpc]
  | setupInstall ring =>
      cases hring : s.ringPtr with
      | none => constructor <;> simp +contextual [hpc, eq_comm]
      | some _ => constructor <;> simp +contextual [hpc, eq_comm]
  | setupGeneration => constructor <;> simp +contextual [hpc]
  | setupEnable my_gen => constructor <;> cases choice <;> simp +contextual [hpc]
  | resetDisable => constructor <;> simp +contextual [hpc]
  | resetGeneration => constructor <;> simp +contextual [hpc]
  | resetSwap =>
      cases hring : s.ringPtr with
      | none => constructor <;> simp +contextual [hpc]
      | some ring => constructor <;> simp +contextual [hpc]
  | resetWait ring rounds =>
      cases rounds with
      | zero => constructor <;> simp +contextual [hpc]
      | succ rounds =>
          by_cases hactive : s.active = 0
          · constructor <;> simp +contextual [hpc, hactive]
          · constructor <;> simp +contextual [hpc, hactive]
  | resetFree ring => constructor <;> simp +contextual [hpc, eq_comm]
  | resetRestore ring => constructor <;> simp +contextual [hpc]

end Branches

/-- What a call is before its first access. -/
structure Outside (p : Pc) : Prop where
  holds : p.holds = none
  drops : p.drops = none
  guarded : p.guarded = false
  inside : p.inside = none
  consumes : p.consumes = none

theorem enter_cases (s : State A) (a : A) (p : Pc) : s.enter a p = s ∨ s.pc a = .idle ∧
    s.enter a p = s.goto a p := by
  unfold State.enter
  cases s.pc a with
  | idle => exact .inr ⟨rfl, rfl⟩
  | _ => exact .inl rfl

theorem Owned.enter (h : Owned s) (hp : Outside p) : Owned (s.enter a p) := by
  rcases enter_cases s a p with henter | ⟨hidle, henter⟩
  · rwa [henter]
  · rw [henter]
    exact h.stay rfl (hp.holds.trans (congrArg Pc.holds hidle).symm) rfl rfl rfl rfl

omit [DecidableEq A] in
theorem Moves.refl (s : State A) (a : A) : Moves s a s :=
  ⟨fun _ => rfl, Nat.le_refl _, Nat.le_refl _, .inl, .inl, .inl, .inl, fun _ => .inl,
    .inl ⟨rfl, rfl⟩⟩

theorem enter_moves (s : State A) (a : A) (hp : Outside p) : Moves s a (s.enter a p) := by
  rcases enter_cases s a p with henter | ⟨hidle, henter⟩
  · rw [henter]
    exact .refl s a
  · have hself : (s.goto a p).pc a = p := pc_self rfl
    rw [henter]
    refine ⟨fun hb => pc_of_ne rfl hb, Nat.le_refl _, Nat.le_refl _, ?_, ?_, ?_, ?_,
      fun _ => .inl, ?_⟩
    · intro ring hring
      rw [hself, hp.inside] at hring
      cases hring
    · intro ring hring
      have hinside := hp.inside
      rw [← hself, hring] at hinside
      cases hinside
    · intro g hg
      rw [hself, hp.consumes] at hg
      cases hg
    · intro ring hring
      rw [hself, hp.drops] at hring
      cases hring
    · exact .inl ⟨by rw [hself, hp.guarded, hidle]; rfl, rfl⟩

def Action.agent : Action A → A
  | .sigprofHandler a => a
  | .maybeCooperativeSample a => a
  | .setup a => a
  | .reset a => a
  | .step a _ => a

theorem act_moves (s : State A) (x : Action A) : Moves s x.agent (s.act x) := by
  cases x with
  | sigprofHandler a => exact enter_moves s a ⟨rfl, rfl, rfl, rfl, rfl⟩
  | maybeCooperativeSample a => exact enter_moves s a ⟨rfl, rfl, rfl, rfl, rfl⟩
  | setup a => exact enter_moves s a ⟨rfl, rfl, rfl, rfl, rfl⟩
  | reset a => exact enter_moves s a ⟨rfl, rfl, rfl, rfl, rfl⟩
  | step a choice => exact advance_moves s a choice

theorem Owned.act (h : Owned s) (x : Action A) : Owned (s.act x) := by
  cases x with
  | sigprofHandler a => exact h.enter ⟨rfl, rfl, rfl, rfl, rfl⟩
  | maybeCooperativeSample a => exact h.enter ⟨rfl, rfl, rfl, rfl, rfl⟩
  | setup a => exact h.enter ⟨rfl, rfl, rfl, rfl, rfl⟩
  | reset a => exact h.enter ⟨rfl, rfl, rfl, rfl, rfl⟩
  | step a choice => exact h.advance a choice

/-- What holds between two accesses. -/
structure Inv (s : State A) : Prop where
  owned : Owned s
  counted : ∃ S : Finset A, s.active = S.card ∧ ∀ a, a ∈ S ↔ (s.pc a).guarded = true
  known : ∀ {a ring}, (s.pc a).inside = some ring → ring < s.allocated
  kept : ∀ {a ring}, s.pc a = .handlerRing ring → ring ∉ s.freed ∧ ∀ b, (s.pc b).drops ≠ some ring
  current : ∀ {a g}, (s.pc a).consumes = some g → g ≤ s.generation
  one_consumer : ∀ {a b g}, (s.pc a).consumes = some g → (s.pc b).consumes = some g → a = b

namespace Inv

omit [DecidableEq A] in
theorem new : Inv (State.new : State A) where
  owned := by
    refine ⟨⟨fun x => ?_, ?_⟩, List.nodup_nil, List.nodup_nil⟩
    · refine iff_of_false (Nat.not_lt_zero x) ?_
      rintro ⟨_ | b | _ | _, h⟩ <;> simp [State.At, State.new, Pc.holds] at h
    · rintro x (_ | b | _ | _) q h <;> simp [State.At, State.new, Pc.holds] at h
  counted := ⟨∅, rfl, by simp [State.new, Pc.guarded]⟩
  known h := nomatch h
  kept h := nomatch h
  current h := nomatch h
  one_consumer h := nomatch h

omit [DecidableEq A] in
/-- An installed ring is allocated, not freed, and in no hands. -/
theorem installed (h : Inv s) (hring : s.ringPtr = some ring) :
    ring < s.allocated ∧ ring ∉ s.freed ∧ ∀ b, (s.pc b).drops ≠ some ring := by
  have hone {q : Place A} (hq : s.At ring q) : Place.installed = q :=
    h.owned.settled.one_place (p := .installed) hring hq
  refine ⟨(h.owned.settled.placed ring).2 ⟨.installed, hring⟩,
    fun hfreed => (nomatch hone (q := .freed) hfreed), ?_⟩
  intro b hdrops
  have hholds : (s.pc b).holds = some ring := by
    cases hpc : s.pc b <;> rw [hpc] at hdrops <;> first | exact hdrops | cases hdrops
  exact nomatch hone (q := .held b) hholds

theorem counted_moves (h : Inv s) (hm : Moves s a t) :
    ∃ S : Finset A, t.active = S.card ∧ ∀ b, b ∈ S ↔ (t.pc b).guarded = true := by
  obtain ⟨S, hcard, hS⟩ := h.counted
  rcases hm.counted with ⟨hsame, hactive⟩ | ⟨hout, hin, hactive⟩ | ⟨hin, hout, hactive⟩
  · refine ⟨S, hactive.trans hcard, fun b => ?_⟩
    by_cases hb : b = a
    · rw [hS, hb, hsame]
    · rw [hS, hm.others hb]
  · have hnew : a ∉ S := fun hmem => absurd ((hS a).1 hmem) (by simp [hout])
    refine ⟨insert a S, ?_, fun b => ?_⟩
    · rw [Finset.card_insert_of_notMem hnew, hactive, hcard]
    · by_cases hb : b = a
      · simp [hb, hin]
      · rw [Finset.mem_insert, hm.others hb, ← hS]
        simp [hb]
  · have hold : a ∈ S := (hS a).2 hin
    refine ⟨S.erase a, ?_, fun b => ?_⟩
    · rw [Finset.card_erase_of_mem hold, hactive, hcard]
    · by_cases hb : b = a
      · simp [hb, hout]
      · rw [Finset.mem_erase, hm.others hb, ← hS]
        simp [hb]

/-- The handlers keep their rings: while one is counted no `reset` decides to free, and the ring
that a `reset` has taken is not to be found by another handler. -/
theorem kept_moves (h : Inv s) (hm : Moves s a t) {b : A} (hb : t.pc b = .handlerRing ring) :
    ring ∉ t.freed ∧ ∀ c, (t.pc c).drops ≠ some ring := by
  have hwas : s.pc b = .handlerRing ring ∨ b = a ∧ s.ringPtr = some ring := by
    by_cases hba : b = a
    · subst hba
      exact (hm.handled hb).imp_right fun hring => ⟨rfl, hring⟩
    · exact .inl ((hm.others hba).symm.trans hb)
  have hbefore : ring < s.allocated ∧ ring ∉ s.freed ∧ ∀ c, (s.pc c).drops ≠ some ring := by
    rcases hwas with hb' | ⟨-, hring⟩
    · exact ⟨h.known (congrArg Pc.inside hb'), h.kept hb'⟩
    · exact h.installed hring
  obtain ⟨hknown, hfreed, hdrops⟩ := hbefore
  refine ⟨fun hmem => ?_, fun c hc => ?_⟩
  · exact (hm.freed ring hmem).elim hfreed (hdrops a)
  · by_cases hca : c = a
    · subst hca
      rcases hm.drops hc with hc' | hnew | hactive
      · exact hdrops c hc'
      · omega
      · rcases hwas with hb' | ⟨rfl, -⟩
        · obtain ⟨S, hcard, hS⟩ := h.counted
          have hmem : b ∈ S := (hS b).2 (congrArg Pc.guarded hb')
          have := Finset.card_pos.2 ⟨b, hmem⟩
          omega
        · rw [hb] at hc
          cases hc
    · rw [hm.others hca] at hc
      exact hdrops c hc

theorem moves (h : Inv s) (ht : Owned t) (hm : Moves s a t) : Inv t where
  owned := ht
  counted := h.counted_moves hm
  known {b ring} hb := by
    refine Nat.lt_of_lt_of_le ?_ hm.allocated
    by_cases hba : b = a
    · subst hba
      exact (hm.inside hb).elim h.known fun hring => (h.installed hring).1
    · exact h.known ((congrArg Pc.inside (hm.others hba)).symm.trans hb)
  kept hb := h.kept_moves hm hb
  current {b g} hb := by
    by_cases hba : b = a
    · subst hba
      exact (hm.consumes hb).elim (fun hb' => (h.current hb').trans hm.generation) And.right
    · exact (h.current ((congrArg Pc.consumes (hm.others hba)).symm.trans hb)).trans hm.generation
  one_consumer {b c g} hb hc := by
    have hwas {d : A} (hd : (t.pc d).consumes = some g) :
        (s.pc d).consumes = some g ∨ d = a ∧ s.generation < g := by
      by_cases hda : d = a
      · subst hda
        exact (hm.consumes hd).imp_right fun hg => ⟨rfl, hg.1⟩
      · exact .inl ((congrArg Pc.consumes (hm.others hda)).symm.trans hd)
    rcases hwas hb with hb' | ⟨rfl, hnew⟩
    · rcases hwas hc with hc' | ⟨-, hnew⟩
      · exact h.one_consumer hb' hc'
      · have := h.current hb'
        omega
    · rcases hwas hc with hc' | ⟨rfl, -⟩
      · have := h.current hc'
        omega
      · rfl

theorem run (h : Inv s) (acts : List (Action A)) : Inv (s.run acts) := by
  induction acts generalizing s with
  | nil => exact h
  | cons x rest ih => exact ih (h.moves (h.owned.act x) (act_moves s x))

end Inv

/-- What the calls may rely on in a state. -/
structure Protected (s : State A) : Prop where
  handlers : ∀ a ring, s.pc a = .handlerRing ring → ring ∉ s.freed
  one_place : ∀ ring, ring < s.allocated ↔ ∃! p, s.At ring p
  freed_once : s.freed.Nodup
  lost_once : s.lost.Nodup
  active_exact : ∃ S : Finset A, s.active = S.card ∧ ∀ a, a ∈ S ↔ (s.pc a).guarded = true
  entered : ∀ x a ring, ((s.act x).pc a).inside = some ring →
    (s.pc a).inside = some ring ∨ s.ringPtr = some ring ∧ ring ∉ (s.act x).freed
  one_consumer : ∀ a b g, (s.pc a).consumes = some g → (s.pc b).consumes = some g → a = b

theorem State.rings_protected (acts : List (Action A)) :
    Protected ((State.new : State A).run acts) := by
  have h : Inv ((State.new : State A).run acts) := Inv.new.run acts
  refine ⟨fun a ring ha => (h.kept ha).1, fun ring => ?_, h.owned.freed_once,
    h.owned.lost_once, h.counted, ?_, fun a b g => h.one_consumer⟩
  · refine (h.owned.settled.placed ring).trans ⟨fun ⟨p, hp⟩ => ?_, ExistsUnique.exists⟩
    exact ⟨p, hp, fun q hq => h.owned.settled.one_place hq hp⟩
  · intro x a ring ha
    have hm := act_moves ((State.new : State A).run acts) x
    by_cases hax : a = x.agent
    · subst hax
      refine (hm.inside ha).imp_right fun hring => ⟨hring, fun hmem => ?_⟩
      obtain ⟨-, hfreed, hdrops⟩ := h.installed hring
      exact (hm.freed ring hmem).elim hfreed (hdrops _)
    · exact .inl ((congrArg Pc.inside (hm.others hax)).symm.trans ha)

-- a consumer is not counted: a `reset` frees the ring that it reads
example :
    let s := (State.new : State Bool).run
      ([.setup true] ++ .replicate 6 (.step true true) ++ [.reset false] ++
        .replicate 5 (.step false true))
    s.pc true = .consumerRing 1 false 0 ∧ s.freed = [0] := ⟨rfl, rfl⟩

end Steps

end Probing.Stacktrace.Sampler
