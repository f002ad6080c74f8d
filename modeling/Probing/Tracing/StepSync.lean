import Probing.Tracing.Coordinates

/-!
# Step synchronisation

A training loop that counts iterations gives the threads of the process their step coordinates: a
call sets the number of micro batches of its thread and then, if the iteration is not the one that
was given last, moves the thread to the first micro step of it. What was given last is remembered
for the whole process, and is compared and stored by every thread.
-/

namespace Probing.Tracing.StepSync

open Probing.Core
open Coordinates (StepContext StepSnapshot Environment)

/-- Where a thread is in a call that goes on to move its coordinate. -/
inductive Pc where
  | idle
  | syncing (iteration microBatches : ℕ)
  | storing (iteration microBatches : ℕ)
  deriving DecidableEq

/-- The iteration and the number of micro batches that a thread was moved to last, and the steps it
has advanced since. -/
structure Pin where
  iteration : ℕ
  microBatches : ℕ
  advances : ℕ
  deriving DecidableEq

structure Process (T : Type) where
  contexts : T → StepContext
  lastIteration : Option ℕ
  pc : T → Pc
  /-- The calls do not read it: what has happened to the threads so far. -/
  pins : T → Pin

variable {T : Type}

/-- What a call reads: the number of micro batches and the iteration, where they can be read. -/
inductive Action (T : Type) where
  | syncStepFromMegatron (thread : T) (force : Bool) (microBatches iteration : Option ℕ)
  | syncStepFromIteration (thread : T) (force : Bool) (iteration microBatches read : Option ℕ)
  | syncMicroStep (thread : T)
  | store (thread : T)
  | advanceMicroStep (thread : T)

namespace Process

def new (env : Environment) : Process T where
  contexts := fun _ => StepContext.default env
  lastIteration := none
  pc := fun _ => .idle
  pins := fun _ => ⟨0, 1, 0⟩

/-- The number of micro batches that a call goes on with. -/
def count (s : Process T) (thread : T) (microBatches : Option ℕ) : ℕ :=
  microBatches.getD (max (s.contexts thread).snapshot.microBatches 1)

/-- The number that was read is set for the thread. -/
def counted (s : Process T) (thread : T) (microBatches : Option ℕ) : StepContext :=
  match microBatches with
  | some m => (s.contexts thread).setMicroBatches m
  | none => s.contexts thread

variable [DecidableEq T]

/-- A call up to the comparison. A number that is not one of 64 bits raises at once. -/
def enter (s : Process T) (thread : T) (force : Bool) (microBatches iteration : Option ℕ) :
    Process T :=
  if 2 ^ 64 ≤ s.count thread microBatches then s
  else
    let s' := { s with
      contexts := Function.update s.contexts thread (s.counted thread microBatches) }
    match iteration with
    | none => s'
    | some i =>
        if !force && s.lastIteration = some i then s'
        else
          { s' with pc := Function.update s.pc thread (.syncing i (s.count thread microBatches)) }

def syncStepFromMegatron (s : Process T) (thread : T) (force : Bool)
    (microBatches iteration : Option ℕ) : Process T :=
  s.enter thread force microBatches iteration

/-- A number that is given goes before one that is read. -/
def syncStepFromIteration (s : Process T) (thread : T) (force : Bool)
    (iteration microBatches read : Option ℕ) : Process T :=
  match iteration with
  | none => s
  | some i => s.enter thread force (microBatches.or read) (some i)

/-- `probing.step(iteration * micro_batches)`, which raises if the product has more than 64 bits. -/
def syncMicroStep (s : Process T) (thread : T) (i m : ℕ) : Process T :=
  if i * m < 2 ^ 64 then
    { s with
      contexts := Function.update s.contexts thread ((s.contexts thread).syncMicroStep (i * m))
      pc := Function.update s.pc thread (.storing i m)
      pins := Function.update s.pins thread ⟨i, m, 0⟩ }
  else { s with pc := Function.update s.pc thread .idle }

def store (s : Process T) (thread : T) (i : ℕ) : Process T :=
  { s with lastIteration := some i, pc := Function.update s.pc thread .idle }

def advanceMicroStep (s : Process T) (thread : T) : Process T :=
  { s with
    contexts := Function.update s.contexts thread (s.contexts thread).advanceMicroStep
    pins := Function.update s.pins thread
      { s.pins thread with advances := (s.pins thread).advances + 1 } }

/-- One access to what is remembered, with what the call does to its own thread. The numbers of
micro batches are positive. -/
def step (s : Process T) : Action T → Option (Process T)
  | .syncStepFromMegatron t force m i =>
      if s.pc t = .idle ∧ m ≠ some 0 then some (s.syncStepFromMegatron t force m i) else none
  | .syncStepFromIteration t force i m read =>
      if s.pc t = .idle ∧ m.or read ≠ some 0 then some (s.syncStepFromIteration t force i m read)
      else none
  | .syncMicroStep t =>
      match s.pc t with
      | .syncing i m => some (s.syncMicroStep t i m)
      | _ => none
  | .store t =>
      match s.pc t with
      | .storing i _ => some (s.store t i)
      | _ => none
  | .advanceMicroStep t => if s.pc t = .idle then some (s.advanceMicroStep t) else none

/-- The call returns at the comparison. -/
def Skips (s : Process T) (force : Bool) (i : ℕ) : Prop :=
  force = false ∧ s.lastIteration = some i

instance (s : Process T) (force : Bool) (i : ℕ) : Decidable (s.Skips force i) :=
  inferInstanceAs (Decidable (_ ∧ _))

/-- The thread's coordinate is that of the iteration, with the number of micro batches. -/
def At (s : Process T) (thread : T) (i m : ℕ) : Prop :=
  (s.contexts thread).snapshot.localStep = i ∧ (s.contexts thread).snapshot.microBatches = m

/-- A call that returns at the comparison has the coordinate right, and none raises. -/
def PinsCall (s : Process T) (t : T) (force : Bool) (microBatches iteration : Option ℕ) : Prop :=
  ∀ i ∈ iteration, s.count t microBatches < 2 ^ 64 ∧
    (s.Skips force i → (s.enter t force microBatches (some i)).At t i (s.count t microBatches))

/-- Where a call that has read an iteration ends, the coordinate of its thread is right. -/
def Pins (s : Process T) : Action T → Prop
  | .syncStepFromMegatron t force m i => s.pc t = .idle → m ≠ some 0 → s.PinsCall t force m i
  | .syncStepFromIteration t force i m read =>
      s.pc t = .idle → m.or read ≠ some 0 → s.PinsCall t force (m.or read) i
  | .syncMicroStep t => ∀ i m, s.pc t = .syncing i m → i * m < 2 ^ 64
  | .store t => ∀ i m, s.pc t = .storing i m → (s.store t i).At t i m
  | .advanceMicroStep _ => True

end Process

/-- Where the thread has come to. The counter stops at its largest value. -/
def Pin.position (p : Pin) : ℕ := min (p.iteration * p.microBatches + p.advances) (2 ^ 64 - 1)

/-- The thread has come to a micro step of the iteration. -/
def Pin.Within (p : Pin) (i m : ℕ) : Prop := i * m ≤ p.position ∧ p.position < (i + 1) * m

instance (p : Pin) (i m : ℕ) : Decidable (p.Within i m) := inferInstanceAs (Decidable (_ ∧ _))

namespace Process

variable [DecidableEq T]

/-- A call that is not forced and gets the iteration that is remembered finds its thread within
it. -/
def InStepCall (s : Process T) (t : T) (force : Bool) (microBatches iteration : Option ℕ) : Prop :=
  ∀ i ∈ iteration, s.count t microBatches < 2 ^ 64 ∧
    (s.Skips force i → (s.pins t).Within i (s.count t microBatches))

def InStep (s : Process T) : Action T → Prop
  | .syncStepFromMegatron t force m i => s.pc t = .idle → m ≠ some 0 → s.InStepCall t force m i
  | .syncStepFromIteration t force i m read =>
      s.pc t = .idle → m.or read ≠ some 0 → s.InStepCall t force (m.or read) i
  | .syncMicroStep t => ∀ i m, s.pc t = .syncing i m → i * m < 2 ^ 64
  | .store _ => True
  | .advanceMicroStep _ => True

end Process

/-- A thread's counter is at the position that its history tells, and in a call its number of micro
batches is the call's. -/
structure Placed (c : StepContext) (pc : Pc) (pin : Pin) : Prop where
  positive : 0 < c.microBatches
  position : c.microStep = pin.position
  syncing : ∀ i m, pc = .syncing i m → c.microBatches = m
  storing : ∀ i m, pc = .storing i m → c.microBatches = m ∧ c.microStep = i * m

section Contexts

variable {c : StepContext} {pc : Pc} {pin : Pin} {i m : ℕ}

theorem localStep_eq_iff (hpos : 0 < c.microBatches) : c.snapshot.localStep = i ↔
    i * c.microBatches ≤ c.microStep ∧ c.microStep < (i + 1) * c.microBatches := by
  change c.microStep / max c.microBatches 1 = i ↔ _
  rw [Nat.max_eq_left hpos, Nat.div_eq_iff hpos, Nat.add_one_mul]
  omega

/-- A thread that has advanced fewer times than the iteration has micro batches is within it. -/
theorem Pin.within_of_advances (hfits : pin.iteration * pin.microBatches < 2 ^ 64)
    (hadvances : pin.advances < pin.microBatches) :
    pin.Within pin.iteration pin.microBatches := by
  rw [Pin.Within, Pin.position, Nat.add_one_mul]
  omega

theorem placed_default (env : Environment) : Placed (StepContext.default env) .idle ⟨0, 1, 0⟩ where
  positive := Nat.lt_of_lt_of_le Nat.one_pos (Nat.le_max_right _ 1)
  position := rfl
  syncing := by simp
  storing := by simp

theorem Placed.sync (h : Placed c (.syncing i m) pin) (hfits : i * m < 2 ^ 64) :
    Placed (c.syncMicroStep (i * m)) (.storing i m) ⟨i, m, 0⟩ where
  positive := h.positive
  position := by
    change i * m = min (i * m + 0) (2 ^ 64 - 1)
    omega
  syncing := by simp
  storing := by
    rintro i' m' hpc
    obtain ⟨rfl, rfl⟩ := Pc.storing.inj hpc
    exact ⟨h.syncing _ _ rfl, rfl⟩

theorem Placed.idle (h : Placed c pc pin) : Placed c .idle pin :=
  ⟨h.positive, h.position, by simp, by simp⟩

theorem Placed.advance (h : Placed c .idle pin) :
    Placed c.advanceMicroStep .idle { pin with advances := pin.advances + 1 } where
  positive := h.positive
  position := by
    change min (c.microStep + 1) (2 ^ 64 - 1) =
      min (pin.iteration * pin.microBatches + (pin.advances + 1)) (2 ^ 64 - 1)
    have hposition := h.position
    rw [Pin.position] at hposition
    omega
  syncing := by simp
  storing := by simp

end Contexts

namespace Process

def Inv (s : Process T) : Prop := ∀ t, Placed (s.contexts t) (s.pc t) (s.pins t)

theorem inv_new (env : Environment) : (new env : Process T).Inv := fun _ => placed_default env

variable {s s' : Process T} {t : T} {force : Bool} {microBatches iteration : Option ℕ} {i m : ℕ}

/-- The number that a call goes on with is the one that its thread then has. -/
theorem Inv.counted (h : s.Inv) (t : T) (hzero : microBatches ≠ some 0) :
    (s.counted t microBatches).microBatches = s.count t microBatches ∧
      0 < s.count t microBatches ∧
      (s.counted t microBatches).microStep = (s.contexts t).microStep := by
  cases microBatches with
  | none =>
      have hpos := (h t).positive
      have hcount : s.count t none = (s.contexts t).microBatches := Nat.max_eq_left hpos
      rw [hcount]
      exact ⟨rfl, hpos, rfl⟩
  | some m =>
      have hm : 0 < m := Nat.pos_of_ne_zero fun hm => hzero (congrArg some hm)
      exact ⟨Nat.max_eq_left hm, hm, rfl⟩

variable [DecidableEq T]

theorem inv_update {c : StepContext} {pc : Pc} {pin : Pin} (h : s.Inv) (hc : Placed c pc pin)
    (hcontexts : s'.contexts = Function.update s.contexts t c)
    (hpc : s'.pc = Function.update s.pc t pc) (hpins : s'.pins = Function.update s.pins t pin) :
    s'.Inv := by
  intro u
  rw [hcontexts, hpc, hpins]
  by_cases hu : u = t
  · subst hu
    simpa only [Function.update_self] using hc
  · simpa only [Function.update_of_ne hu] using h u

theorem Inv.enter (h : s.Inv) (hidle : s.pc t = .idle) (hzero : microBatches ≠ some 0) :
    (s.enter t force microBatches iteration).Inv := by
  obtain ⟨hbatches, hpos, hstep⟩ := h.counted t hzero
  have hcounted (pc : Pc) (hpc : pc = .idle ∨ ∃ i, pc = .syncing i (s.count t microBatches)) :
      Placed (s.counted t microBatches) pc (s.pins t) := by
    refine ⟨hbatches ▸ hpos, hstep.trans (h t).position, ?_, ?_⟩
    · rintro i m rfl
      obtain ⟨j, hj⟩ := hpc.resolve_left (by simp)
      rw [hbatches, (Pc.syncing.inj hj).2]
    · rintro i m rfl
      simp at hpc
  rw [Process.enter]
  split
  · exact h
  · cases iteration with
    | none =>
        exact inv_update h (hcounted .idle (.inl rfl)) rfl
          (hidle ▸ (Function.update_eq_self t s.pc).symm) (Function.update_eq_self t s.pins).symm
    | some i =>
        simp only
        split
        · exact inv_update h (hcounted .idle (.inl rfl)) rfl
            (hidle ▸ (Function.update_eq_self t s.pc).symm) (Function.update_eq_self t s.pins).symm
        · exact inv_update h (hcounted _ (.inr ⟨i, rfl⟩)) rfl rfl
            (Function.update_eq_self t s.pins).symm

/-- Every access keeps the counters at the positions that the history tells. -/
theorem Inv.step (h : s.Inv) {a : Action T} (hstep : s.step a = some s') : s'.Inv := by
  cases a with
  | syncStepFromMegatron t force m i =>
      obtain ⟨⟨hidle, hzero⟩, hs⟩ := Option.ite_none_right_eq_some.mp hstep
      obtain rfl := Option.some.inj hs
      exact h.enter hidle hzero
  | syncStepFromIteration t force i m read =>
      obtain ⟨⟨hidle, hzero⟩, hs⟩ := Option.ite_none_right_eq_some.mp hstep
      obtain rfl := Option.some.inj hs
      cases i with
      | none => exact h
      | some i => exact h.enter hidle hzero
  | syncMicroStep t =>
      simp only [Process.step] at hstep
      split at hstep
      · rename_i i m hpc
        cases hstep
        have ht := h t
        rw [hpc] at ht
        rw [Process.syncMicroStep]
        split
        · rename_i hfits
          exact inv_update h (ht.sync hfits) rfl rfl rfl
        · exact inv_update h ht.idle (Function.update_eq_self t s.contexts).symm rfl
            (Function.update_eq_self t s.pins).symm
      · cases hstep
  | store t =>
      simp only [Process.step] at hstep
      split at hstep
      · cases hstep
        exact inv_update h (h t).idle (Function.update_eq_self t s.contexts).symm rfl
          (Function.update_eq_self t s.pins).symm
      · cases hstep
  | advanceMicroStep t =>
      obtain ⟨hidle, hs⟩ := Option.ite_none_right_eq_some.mp hstep
      obtain rfl := Option.some.inj hs
      have ht := h t
      rw [hidle] at ht
      exact inv_update h ht.advance rfl (hidle ▸ (Function.update_eq_self t s.pc).symm) rfl

/-- A call that returns at the comparison leaves its thread where it was. -/
theorem Inv.pins_call_iff (h : s.Inv) (hzero : microBatches ≠ some 0) :
    s.PinsCall t force microBatches iteration ↔ s.InStepCall t force microBatches iteration := by
  obtain ⟨hbatches, hpos, hstep⟩ := h.counted t hzero
  refine forall₂_congr fun i hi => and_congr_right fun hfits => imp_congr_right fun hskips => ?_
  have henter :
      (s.enter t force microBatches (some i)).contexts t = s.counted t microBatches := by
    have hreturn : (!force && decide (s.lastIteration = some i)) = true := by
      simp [hskips.1, hskips.2]
    rw [Process.enter, if_neg (by omega)]
    simp only [hreturn, if_true, Function.update_self]
  rw [At, henter, localStep_eq_iff (hbatches ▸ hpos), hbatches, hstep, (h t).position]
  exact and_iff_left hbatches

theorem Inv.pins_iff (h : s.Inv) (a : Action T) : s.Pins a ↔ s.InStep a := by
  cases a with
  | syncStepFromMegatron t force m i =>
      exact imp_congr_right fun _ => forall_congr' fun hzero => h.pins_call_iff hzero
  | syncStepFromIteration t force i m read =>
      exact imp_congr_right fun _ => forall_congr' fun hzero => h.pins_call_iff hzero
  | syncMicroStep t => exact Iff.rfl
  | store t =>
      refine iff_of_true (fun i m hpc => ?_) trivial
      obtain ⟨hbatches, hposition⟩ := (h t).storing i m hpc
      have hpos := (h t).positive
      refine ⟨(localStep_eq_iff hpos).mpr ?_, hbatches⟩
      rw [hposition, hbatches, Nat.add_one_mul]
      omega
  | advanceMicroStep t => exact Iff.rfl

/-- The calls of a run leave the right coordinates exactly if no call that is not forced gets the
remembered iteration on a thread outside it, and no number has more than 64 bits. A thread that was
moved to the iteration with this number of micro batches, and has advanced fewer times, is within
it. -/
theorem pinned_iff (env : Environment) (acts : List (Action T)) :
    (Meets step Pins (new env : Process T) acts ↔ Meets step InStep (new env) acts) ∧
      ∀ p : Pin, p.iteration * p.microBatches < 2 ^ 64 → p.advances < p.microBatches →
        p.Within p.iteration p.microBatches :=
  ⟨meets_congr (fun _ a h => Inv.pins_iff h a) (fun _ _ _ h _ hstep => Inv.step h hstep)
    (inv_new env), fun _ hfits hadvances => Pin.within_of_advances hfits hadvances⟩

/-- The second thread is not moved to the iteration that the first one has been moved to. -/
theorem second_thread_not_pinned :
    ¬ Meets step Pins (new ⟨none, none, none, none, none, ⟨none, none, none, none, none, none⟩⟩ :
      Process Bool)
      [.syncStepFromIteration false false (some 5) (some 2) none, .syncMicroStep false,
        .store false, .syncStepFromIteration true false (some 5) (some 2) none] := by
  rintro h
  have hcall := (((h.2 _ rfl).2 _ rfl).2 _ rfl).1
  have hpinned := (hcall rfl (by decide) 5 rfl).2 ⟨rfl, rfl⟩
  exact absurd hpinned.1 (by decide)

end Process

end Probing.Tracing.StepSync
