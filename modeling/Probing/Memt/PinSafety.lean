import Probing.Memt.PinHandshake
import Mathlib.Data.Fintype.Basic

/-!
# Pins protect bytes

In every run in which no swap that clears a lease word meets a later claim of a
running process, a granted pin keeps its chunk's generation and the bytes below
the extent it was granted, and no running process loses a lease it holds.
-/

namespace Probing.Memt.Lease

open Probing.Core (exec Meets exec_invariant)
open Probing.Core.LeaseSlot (Slot Names World Phase Move)

variable {Task Inst : Type*} [DecidableEq Task] [DecidableEq Inst] {S : Setting Task Inst}
  {s t : State S} {τ : Task}

/-- What a pin promises from the moment it is granted until it is released or
its process dies. -/
structure State.PinsProtected (s : State S) : Prop where
  generation : ∀ τ c k g used bytes, s.procs.Running (S.inst τ) →
    s.task τ = .pinned c k g used bytes → (s.chunk c).generation = g
  bytes : ∀ τ c k g used bytes, s.procs.Running (S.inst τ) →
    s.task τ = .pinned c k g used bytes → ∀ i < used, (s.chunk c).bytes i = bytes i
  leases : s.wronged = false

/-- The invariant of the lease protocol. -/
structure State.Inv (s : State S) : Prop where
  leases : s.LeaseInv
  shaped : s.Shaped
  handshake : s.Handshake
  unwronged : s.wronged = false

omit [DecidableEq Task] in
/-- A swap that is safe from reuse takes no lease from a running process. -/
theorem not_wrongs {l : ReaderLease Task Inst} {P : Processes S} {a : Option Task} {w : Seen}
    (haba : NoAba P l (some w))
    (hknows : (Phase.condemned w.word w.epoch).Knows P.world l a) :
    wrongs P l (some w) = false := by
  simp only [wrongs, decide_eq_false_iff_not, not_and, not_exists]
  intro hword _ i hi hrun
  rcases haba hword with hepoch | hdead
  · exact hknows.2 hepoch i hi hrun
  · exact hdead i hi hrun

theorem AcquirePc.phase_of_clears {p : AcquirePc} {w : Seen} (h : p.clears = some w) :
    p.phase = .condemned w.word w.epoch := by
  cases p <;> simp_all [clears, phase]

theorem ScanPc.phase_of_clears {p : ScanPc} {w : Seen} (h : p.clears = some w) :
    p.phase = .condemned w.word w.epoch := by
  cases p <;> simp_all [clears, phase]

theorem taskStep_unwronged (h : s.Inv) (hτ : s.procs.Running (S.inst τ))
    (haba : s.NoAba (.task τ)) : (s.taskStep τ).wronged = false := by
  have hw := h.unwronged
  unfold State.taskStep
  cases hpc : s.task τ with
  | acquire call slot p =>
      simp only
      split_ifs
      · exact hw
      · have hnot : wrongs s.procs (s.lease call.chunk slot) p.clears = false := by
          simp only [State.NoAba, State.swap, hpc] at haba
          cases hc : p.clears with
          | none => rfl
          | some w =>
              rw [hc] at haba
              have hk := (h.leases (call.chunk, slot)).knows (some τ) hτ
              simp only [State.stake, hpc, TaskPc.stake, Stake.at_self,
                AcquirePc.phase_of_clears hc] at hk
              exact not_wrongs haba hk
        generalize acquireStep s.procs τ (s.lease call.chunk slot) p = next
        obtain ⟨l, next⟩ := next
        cases next <;> simp only [State.setTask, hw, hnot, Bool.or_self]
  | releaseLoad c slot retry =>
      simp only
      split <;> (try split_ifs) <;> exact hw
  | _ =>
      simp only
      (try split_ifs) <;> exact hw

omit [DecidableEq Task] in
theorem writerStep_unwronged (h : s.Inv) (hwriter : s.procs.Running S.writer)
    (haba : s.NoAba .writer) : s.writerStep.wronged = false := by
  have hw := h.unwronged
  unfold State.writerStep
  cases hpc : s.writer with
  | scan previous attempt slot live p =>
      simp only
      split_ifs
      · exact hw
      · have hnot : wrongs s.procs (s.lease s.nextChunk slot) p.clears = false := by
          simp only [State.NoAba, State.swap, hpc] at haba
          cases hc : p.clears with
          | none => rfl
          | some w =>
              rw [hc] at haba
              have hk := (h.leases (s.nextChunk, slot)).knows none hwriter
              simp only [State.stake, hpc, WriterPc.stake, Stake.at_self,
                ScanPc.phase_of_clears hc] at hk
              exact not_wrongs haba hk
        generalize scanStep s.procs (s.lease s.nextChunk slot) p = next
        obtain ⟨l, next⟩ := next
        cases next <;> simp only [hw, hnot, Bool.or_self]
  | sealCurrent | appendByte row i =>
      simp only
      split_ifs <;> exact hw
  | _ => exact hw

omit [DecidableEq Task] [DecidableEq Inst] in
theorem Processes.spawned_of_running {P : Processes S} {i : Inst} (h : P.Running i) :
    P.spawned i = true := P.known _ i h

theorem taskStep_inv (h : s.Inv) (hτ : s.procs.Running (S.inst τ))
    (haba : s.NoAba (.task τ)) : (s.taskStep τ).Inv := by
  have hshape := h.shaped.task τ
  obtain ⟨x₀, hmove⟩ := taskStep_move h.leases hτ hshape haba
  obtain ⟨-, hwriter, -, hprocs, hother⟩ := taskStep_frame s τ
  refine ⟨hmove.leaseInv hτ h.leases, ⟨fun σ => ?_, ?_, fun σ hσ => ?_, ?_⟩,
    taskStep_handshake h.handshake hτ, taskStep_unwronged h hτ haba⟩
  · by_cases hσ : σ = τ
    · subst hσ
      exact taskStep_shape h.leases hτ hshape haba
    · rw [hother σ hσ]
      exact h.shaped.task σ
  · rw [hwriter]
    exact h.shaped.writer
  · rw [hprocs] at hσ
    have hne : σ ≠ τ := by
      rintro rfl
      simp [Processes.spawned_of_running hτ] at hσ
    rw [hother σ hne]
    exact h.shaped.unborn_task σ hσ
  · rw [hprocs, hwriter]
    exact h.shaped.unborn_writer

theorem writerStep_inv (h : s.Inv) (hwriter : s.procs.Running S.writer)
    (haba : s.NoAba .writer) : s.writerStep.Inv := by
  obtain ⟨x₀, hmove⟩ := writerStep_move h.shaped.writer haba
  obtain ⟨hprocs, htask⟩ := writerStep_frame s
  refine ⟨hmove.leaseInv hwriter h.leases,
    ⟨?_, writerStep_shape h.shaped.writer, ?_, fun hunborn => ?_⟩,
    writerStep_handshake h.handshake h.leases h.shaped.task hwriter haba,
    writerStep_unwronged h hwriter haba⟩
  · rw [htask]
    exact h.shaped.task
  · rw [hprocs, htask]
    exact h.shaped.unborn_task
  · rw [hprocs, Processes.spawned_of_running hwriter] at hunborn
    exact absurd hunborn (by simp)

omit [DecidableEq Task] in
/-- A process starts or dies: what the running tasks know is about processes
that have been started before. -/
theorem procs_inv {P : Processes S} (h : s.Inv)
    (hspawned : ∀ i, s.procs.spawned i → P.spawned i)
    (hrunning : ∀ i, P.Running i → s.procs.Running i ∨ s.procs.spawned i = false) :
    State.Inv { s with procs := P } := by
  have hidle : ∀ τ, P.Running (S.inst τ) → ¬ s.procs.Running (S.inst τ) → s.task τ = .idle :=
    fun τ hτ hn => h.shaped.unborn_task τ ((hrunning _ hτ).resolve_left hn)
  have hunspawned : ∀ i, P.spawned i = false → s.procs.spawned i = false := by
    intro i hi
    by_contra hne
    simp [hspawned i (by simpa using hne)] at hi
  have hold : ∀ i, s.procs.spawned i → P.Running i → s.procs.Running i := by
    intro i hi hr
    rcases hrunning i hr with hr' | hn
    · exact hr'
    · simp [hn] at hi
  refine ⟨fun x => (h.leases x).world hspawned hold fun b hb hn => ?_,
    ⟨h.shaped.task, h.shaped.writer, fun τ hτ => h.shaped.unborn_task τ (hunspawned _ hτ),
      fun hw => h.shaped.unborn_writer (hunspawned _ hw)⟩, ⟨h.handshake.empty, ?_, ?_, ?_⟩,
    h.unwronged⟩
  · cases b with
    | none =>
        have hw := h.shaped.unborn_writer ((hrunning _ hb).resolve_left hn)
        simp [State.stake, hw, WriterPc.stake]
    | some τ => simp [State.stake, hidle τ hb hn, TaskPc.stake]
  · intro pr at' sl q hq τ hτ k hk
    by_cases hr : s.procs.Running (S.inst τ)
    · exact h.handshake.passed pr at' sl q hq τ hr k hk
    · simp [hidle τ hτ hr, TaskPc.armed] at hk
  · intro hrec τ hτ k hk
    by_cases hr : s.procs.Running (S.inst τ)
    · exact h.handshake.recycling hrec τ hr k hk
    · simp [hidle τ hτ hr, TaskPc.armed] at hk
  · intro τ hτ
    by_cases hr : s.procs.Running (S.inst τ)
    · exact h.handshake.sees τ hr
    · simp [hidle τ hτ hr, TaskPc.Sees]

omit [DecidableEq Inst] in
/-- A task enters or leaves a call without touching its slot. -/
theorem setTask_inv (h : s.Inv) (hτ : s.procs.Running (S.inst τ)) {p : TaskPc}
    (hstake : ∀ x, p.stake.at x = (s.task τ).stake.at x)
    (hshape : p.Shape S.leaseSlots (S.pid (S.inst τ))) (harmed : p.armed = none)
    (hsees : p.Sees s.chunk) : (s.setTask τ p).Inv := by
  have hother : ∀ σ, σ ≠ τ → (s.setTask τ p).task σ = s.task σ := by
    intro σ hσ
    simp [State.setTask, hσ]
  have hsub : ∀ σ x, ((s.setTask τ p).task σ).armed = some x → (s.task σ).armed = some x := by
    intro σ x hx
    by_cases hσ : σ = τ
    · subst hσ
      simp [harmed] at hx
    · rwa [hother σ hσ] at hx
  refine ⟨(agentMove_quiet (0, 0) hstake).leaseInv hτ h.leases,
    ⟨fun σ => ?_, h.shaped.writer, fun σ hσ => ?_, h.shaped.unborn_writer⟩,
    ⟨h.handshake.empty, ?_, ?_, fun σ hσ => ?_⟩, h.unwronged⟩
  · by_cases hσ : σ = τ
    · subst hσ
      rwa [task_setTask]
    · rw [hother σ hσ]
      exact h.shaped.task σ
  · have hunborn : s.procs.spawned (S.inst σ) = false := hσ
    have hne : σ ≠ τ := by
      rintro rfl
      simp [Processes.spawned_of_running hτ] at hunborn
    rw [hother σ hne]
    exact h.shaped.unborn_task σ hunborn
  · exact fun pr at' sl q hq σ hσ k hk => h.handshake.passed pr at' sl q hq σ hσ k (hsub σ _ hk)
  · exact fun hrec σ hσ k hk => h.handshake.recycling hrec σ hσ k (hsub σ _ hk)
  · by_cases hστ : σ = τ
    · subst hστ
      rwa [task_setTask]
    · rw [hother σ hστ]
      exact h.handshake.sees σ hσ

omit [DecidableEq Inst] in
/-- The writer at rest begins an append or an advance. -/
theorem writer_starts_inv (h : s.Inv) (hwriter : s.procs.Running S.writer)
    (hidle : s.writer = .idle) {p : WriterPc} (hstake : ∀ c, (p.stake c).2 = .away)
    (hshape : p.Shape S.leaseSlots) (hblocks : ¬ p.Blocks) (hrecycles : ¬ p.Recycles)
    (hscan : ∀ pr at' sl l q, p ≠ .scan pr at' sl l q) : State.Inv { s with writer := p } := by
  have hmove : AgentMove s { s with writer := p } none (0, 0) :=
    agentMove_writer_quiet (0, 0) rfl rfl rfl fun x => by
      have hnew : (State.stake { s with writer := p } none).at x = .away :=
        Stake.at_of_away (hstake _) x
      rw [hnew, State.stake, hidle]
      exact (Stake.at_away _ _).symm
  exact ⟨hmove.leaseInv hwriter h.leases,
    ⟨h.shaped.task, hshape, h.shaped.unborn_task, fun hu => by
      simp [Processes.spawned_of_running hwriter] at hu⟩,
    ⟨fun hb => absurd hb hblocks, fun pr at' sl q hq => absurd hq (hscan pr at' sl false q),
      fun hr => absurd hr hrecycles, h.handshake.sees⟩, h.unwronged⟩

theorem step_inv {act : Action Task Inst} (h : s.Inv) (haba : s.NoAba act)
    (hstep : s.step act = some t) : t.Inv := by
  cases act with
  | pin τ c =>
      simp only [State.step] at hstep
      split at hstep
      case h_1 hpc =>
        obtain ⟨⟨hτ, hc⟩, ⟨⟩⟩ := Option.ite_none_right_eq_some.mp hstep
        exact setTask_inv h hτ (fun x => by simp [hpc, TaskPc.stake]) trivial rfl trivial
      case h_2 => simp at hstep
  | unpin τ =>
      simp only [State.step] at hstep
      split at hstep
      case h_1 c slot g u b hpc =>
        obtain ⟨hτ, ⟨⟩⟩ := Option.ite_none_right_eq_some.mp hstep
        have hshape := h.shaped.task τ
        rw [hpc] at hshape
        exact setTask_inv h hτ (fun x => by simp [hpc, TaskPc.stake]) hshape rfl trivial
      case h_2 => simp at hstep
  | task τ =>
      obtain ⟨hτ, ⟨⟩⟩ := Option.ite_none_right_eq_some.mp hstep
      exact taskStep_inv h hτ haba
  | append row =>
      simp only [State.step] at hstep
      split at hstep
      case h_1 hidle =>
        obtain ⟨⟨hw, hfits⟩, ⟨⟩⟩ := Option.ite_none_right_eq_some.mp hstep
        exact writer_starts_inv h hw hidle (fun _ => rfl) trivial id id (by simp)
      case h_2 => simp at hstep
  | advance =>
      simp only [State.step] at hstep
      split at hstep
      case h_1 hidle =>
        obtain ⟨hw, ⟨⟩⟩ := Option.ite_none_right_eq_some.mp hstep
        exact writer_starts_inv h hw hidle (fun _ => rfl) trivial id id (by simp)
      case h_2 => simp at hstep
  | writer =>
      obtain ⟨hw, ⟨⟩⟩ := Option.ite_none_right_eq_some.mp hstep
      exact writerStep_inv h hw haba
  | spawn i =>
      obtain ⟨⟨hfree, hnew⟩, ⟨⟩⟩ := Option.ite_none_right_eq_some.mp hstep
      refine procs_inv h (fun j hj => ?_) fun j hj => ?_
      · simp only [Processes.spawn, Function.update_apply]
        split_ifs <;> simp [hj]
      · by_cases hji : j = i
        · exact .inr (hji ▸ hnew)
        · refine .inl ?_
          simp only [Processes.Running, Processes.spawn, Function.update_apply] at hj ⊢
          split_ifs at hj with hpid
          · exact absurd (Option.some.inj hj).symm hji
          · exact hj
  | die i =>
      obtain ⟨hr, ⟨⟩⟩ := Option.ite_none_right_eq_some.mp hstep
      refine procs_inv h (fun j hj => hj) fun j hj => .inl ?_
      simp only [Processes.Running, Processes.die, Function.update_apply] at hj ⊢
      split_ifs at hj
      exact hj

omit [DecidableEq Task] [DecidableEq Inst] in
theorem inv_initial : (State.initial S).Inv where
  leases x := by
    refine ⟨fun _ => rfl, ?_, ?_, ?_, ?_, fun a _ => ?_⟩
    all_goals try simp [State.slot, State.initial]
    cases a <;> simp [State.stake, TaskPc.stake, WriterPc.stake, Phase.Knows]
  shaped := ⟨fun _ => trivial, trivial, fun _ _ => rfl, fun _ => rfl⟩
  handshake := ⟨fun h => h.elim, fun _ _ _ _ h => by simp [State.initial] at h,
    fun h => h.elim, fun _ _ => trivial⟩
  unwronged := rfl

omit [DecidableEq Task] [DecidableEq Inst] in
theorem State.Inv.pinsProtected (h : s.Inv) : s.PinsProtected where
  generation τ c k g used bytes hτ hpc := by
    have hs := h.handshake.sees τ hτ
    rw [hpc] at hs
    exact hs.1
  bytes τ c k g used bytes hτ hpc := by
    have hs := h.handshake.sees τ hτ
    rw [hpc] at hs
    exact hs.2.2
  leases := h.unwronged

/-- Pins protect their bytes in every run in which each swap that clears a lease
word meets the claim the word was loaded from, or a process that has died. -/
theorem pins_protected (S : Setting Task Inst) {acts : List (Action Task Inst)} {t : State S}
    (hok : Meets State.step State.NoAba (State.initial S) acts)
    (hrun : exec State.step (State.initial S) acts = some t) : t.PinsProtected :=
  (exec_invariant (fun _ _ _ => step_inv) inv_initial hok hrun).pinsProtected

section Runs

local instance threeTasks : NeZero 3 := ⟨by decide⟩
local instance fourInstances : NeZero 4 := ⟨by decide⟩

/-- Instances 1 and 2 are two processes that run under process id 7, one after
the other. The ring has one chunk and one lease slot. -/
def reusedPid : Setting (Fin 3) (Fin 4) where
  numChunks := 1
  num_chunks_pos := by decide
  chunkSize := 64
  leaseSlots := 1
  pid
    | 0 => 1
    | 1 | 2 => 7
    | 3 => 9
  startTime i := .ofNat (100 * (i + 1))
  start_time_ne := by decide
  inst τ := τ.succ
  writer := 0

def steps (τ : Fin 3) (n : ℕ) : List (Action (Fin 3) (Fin 4)) := List.replicate n (.task τ)

def writerSteps (n : ℕ) : List (Action (Fin 3) (Fin 4)) := List.replicate n .writer

/-- A row is written, task 0 pins the chunk and dies, and task 2 judges it dead
while it makes the same attempt. -/
def staleJudgement : List (Action (Fin 3) (Fin 4)) :=
  [Action.spawn 0, .spawn 1, .spawn 3, .append [1, 2, 3, 4]] ++ writerSteps 5 ++
    .pin 0 0 :: steps 0 9 ++ .die 1 :: .pin 2 0 :: steps 2 5

/-- Task 2 clears the dead lease at once and pins the chunk itself; the writer
tries to advance. -/
def promptRun : List (Action (Fin 3) (Fin 4)) :=
  staleJudgement ++ steps 2 8 ++ .advance :: writerSteps 20

instance (P : Processes reusedPid) (l : ReaderLease (Fin 3) (Fin 4)) :
    ∀ o, Decidable (NoAba P l o)
  | some w => inferInstanceAs (Decidable (l.word = some w.word →
      l.epoch = w.epoch ∨ ∀ i ∈ l.inst, ¬ P.Running i))
  | none => inferInstanceAs (Decidable True)

instance (s : State reusedPid) (act : Action (Fin 3) (Fin 4)) : Decidable (s.NoAba act) :=
  inferInstanceAs (Decidable (NoAba _ _ _))

/-- Task `τ` holds a granted pin. -/
def holdsPin (τ : Fin 3) (t : State reusedPid) : Bool :=
  match t.task τ with
  | .pinned _ _ _ _ _ => t.procs.Running (reusedPid.inst τ)
  | _ => false

theorem pins_protected_promptRun :
    ∃ t, exec State.step (State.initial reusedPid) promptRun = some t ∧ holdsPin 2 t ∧
      t.PinsProtected := by
  have hrun : (exec State.step (State.initial reusedPid) promptRun).any (holdsPin 2) = true := by
    decide
  have hok : Meets State.step State.NoAba (State.initial reusedPid) promptRun := by
    decide
  obtain ⟨t, ht, hpin⟩ := (Option.any_eq_true _ _).mp hrun
  exact ⟨t, ht, hpin, pins_protected reusedPid hok ht⟩

/-- Before task 2 clears the word it judged, the process id is reused: task 1
replaces the dead lease with its own, whose word is the same. The swap clears
it, and the writer recycles the chunk. -/
def reusedRun : List (Action (Fin 3) (Fin 4)) :=
  staleJudgement ++ .spawn 2 :: .pin 1 0 :: steps 1 13 ++ steps 2 1 ++
    .advance :: writerSteps 8

/-- A granted pin's chunk has another generation. -/
def recycledUnder (τ : Fin 3) (t : State reusedPid) : Bool :=
  match t.task τ with
  | .pinned c _ g _ _ => t.procs.Running (reusedPid.inst τ) ∧ (t.chunk c).generation ≠ g
  | _ => false

/-- A lease of a running process is cleared, and the chunk it pins recycled. -/
theorem pins_unprotected :
    ∃ t, exec State.step (State.initial reusedPid) reusedRun = some t ∧
      ¬ t.PinsProtected ∧ recycledUnder 1 t := by
  have hrun : (exec State.step (State.initial reusedPid) reusedRun).any
      (fun t => t.wronged && recycledUnder 1 t) = true := by
    decide
  obtain ⟨t, ht, hboth⟩ := (Option.any_eq_true _ _).mp hrun
  obtain ⟨hwronged, hrecycled⟩ := Bool.and_eq_true_iff.mp hboth
  exact ⟨t, ht, fun h => by simp [h.leases] at hwronged, hrecycled⟩

end Runs

end Probing.Memt.Lease
