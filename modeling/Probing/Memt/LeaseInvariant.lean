import Probing.Memt.LeaseProtocol

/-!
# Lease accesses are moves of the lease slot

`acquire_process_lease`, `release_process_lease` and `chunk_has_live_leases`
touch one slot at a time, and each access is a move of that slot, provided the
swap that clears a word does not meet a later claim of a running process.

At any time a task, and the writer's scan, has a stake in at most one slot of
one chunk. A step moves that slot and leaves every other slot alone.
-/

namespace Probing.Memt.Lease

open Probing.Core.LeaseSlot (Slot Names World Phase Move Dead Inv)

variable {Task Inst : Type*}

def AcquirePc.phase : AcquirePc → Phase UInt32 UInt64
  | load | claim => .away
  | ownStart w | claimantExists w | ownerStart w => .seen w.word w.epoch
  | ownCompare w start | ownerAlive w start => .measured w.word w.epoch start
  | ownClear w | clear w => .condemned w.word w.epoch
  | ownJoin w => .joining w.word w.epoch
  | claimStart => .claiming
  | claimFinish => .stamped

def ScanPc.phase : ScanPc → Phase UInt32 UInt64
  | load => .away
  | start w => .seen w.word w.epoch
  | alive w st => .measured w.word w.epoch st
  | clear w => .condemned w.word w.epoch

def AcquireNext.phase : AcquireNext → Phase UInt32 UInt64
  | goto p => p.phase
  | nextSlot | exhausted => .away
  | acquired => .holding

def ScanNext.phase : ScanNext → Phase UInt32 UInt64
  | goto p => p.phase
  | nextSlot _ => .away

/-- What a task knows about the word it loaded: it names the task's process with
a positive count, or has a positive count. -/
def AcquirePc.Shape (pid : UInt32) : AcquirePc → Prop
  | ownStart w | ownCompare w _ | ownClear w | ownJoin w => w.owner = pid ∧ 0 < w.refs
  | ownerStart w | ownerAlive w _ => 0 < w.refs
  | _ => True

section Moves

variable [DecidableEq Task] {S : Setting Task Inst} {P : Processes S}
  {l : ReaderLease Task Inst} {τ : Task}

/-- A swap that would succeed meets the claim the word was loaded from, or one
whose process is not running. -/
def NoAba (P : Processes S) (l : ReaderLease Task Inst) : Option Seen → Prop
  | some w => l.word = some w.word → l.epoch = w.epoch ∨ ∀ i ∈ l.inst, ¬ P.Running i
  | none => True

theorem clearSwap_move {a : Option Task} {w : Seen} (h : NoAba P l (some w)) :
    Move P.world a l (.condemned w.word w.epoch) (clearSwap l w) .away := by
  unfold clearSwap
  split_ifs with hw
  · refine .reclaim l hw ((h hw).imp id fun hdead i hi => hdead i hi)
  · exact .leaveCondemned l _ _

omit [DecidableEq Task] in
theorem not_exists_dead {w : Seen} {st : Option UInt64} (h : P.processExists w.owner = false) :
    Dead P.world w.word st := by
  intro i hi hpid
  have hocc : P.occupant w.owner = some i := by
    rw [← show S.pid i = w.owner from hpid]
    exact hi
  simp [Processes.processExists, hocc] at h

omit [DecidableEq Task] in
theorem not_alive_dead {w : Seen} {start : UInt64} (hpos : 0 < w.refs)
    (h : P.processInstanceAlive w.owner start = false) : Dead P.world w.word (some start) := by
  intro i hi hpid
  have hocc : P.occupant w.owner = some i := by
    rw [← show S.pid i = w.owner from hpid]
    exact hi
  refine ⟨hpos, start, rfl, fun heq => ?_⟩
  have heq' : S.startTime i = start := heq
  simp [Processes.processInstanceAlive, Processes.processExists,
    Processes.processStartTime, hocc, heq'] at h

/-- Every access of `acquire_process_lease` is a move of the slot. -/
theorem acquireStep_move {p : AcquirePc} (hτ : P.Running (S.inst τ))
    (hshape : p.Shape (S.pid (S.inst τ))) (hknows : p.phase.Knows P.world l (some τ))
    (haba : NoAba P l p.clears) :
    Move P.world (some τ) l p.phase (acquireStep P τ l p).1 (acquireStep P τ l p).2.phase ∧
      ∀ p', (acquireStep P τ l p).2 = .goto p' → p'.Shape (S.pid (S.inst τ)) := by
  cases p with
  | load =>
      cases hw : l.word with
      | none => exact ⟨by simpa [acquireStep, hw] using .stay l .away, by simp [acquireStep, hw,
          AcquirePc.Shape]⟩
      | some w =>
          have hsee : Move P.world (some τ) l .away l (.seen w l.epoch) := .see l hw
          simp only [acquireStep, hw]
          split_ifs with hown hzero
          · exact ⟨hsee, by rintro p' ⟨⟩; exact hown⟩
          · exact ⟨hsee, by rintro p' ⟨⟩; trivial⟩
          · exact ⟨hsee, by rintro p' ⟨⟩; exact Nat.pos_of_ne_zero hzero⟩
  | ownStart w => exact ⟨.measure l _ _, by rintro p' ⟨⟩; exact hshape⟩
  | ownCompare w recorded =>
      simp only [acquireStep]
      split_ifs with hne hboth hmax
      · refine ⟨.condemnMeasured l fun i hi hpid => ?_, by rintro p' ⟨⟩; exact hshape⟩
        have hme : i = S.inst τ :=
          P.world.running_unique i _ hi hτ (hpid.trans hshape.1)
        exact ⟨hshape.2, recorded, rfl, hme ▸ fun h => hne h.symm⟩
      · exact ⟨.leaveMeasured l _ _ _, by rintro p' ⟨⟩⟩
      · exact ⟨.leaveMeasured l _ _ _, by rintro p' ⟨⟩⟩
      · exact ⟨.recognise l hshape.1 hshape.2 (not_not.mp hne), by rintro p' ⟨⟩; exact hshape⟩
  | ownClear w => exact ⟨clearSwap_move haba, by rintro p' ⟨⟩; trivial⟩
  | ownJoin w =>
      simp only [acquireStep]
      split_ifs with hw
      · exact ⟨.join l hw, by rintro p' ⟨⟩⟩
      · exact ⟨.leaveJoining l _ _, by rintro p' ⟨⟩; trivial⟩
  | claim =>
      simp only [acquireStep]
      split_ifs with hw
      · exact ⟨.claim l hw, by rintro p' ⟨⟩; trivial⟩
      · exact ⟨.stay l .away, by rintro p' ⟨⟩; trivial⟩
  | claimStart => exact ⟨.stamp l, by rintro p' ⟨⟩; trivial⟩
  | claimFinish =>
      have hw : l.word = some (S.pid (S.inst τ), 0) := hknows.1
      simp only [acquireStep, if_pos hw]
      exact ⟨.complete l hw, by rintro p' ⟨⟩⟩
  | claimantExists w =>
      simp only [acquireStep]
      split_ifs with hex
      · exact ⟨.leaveSeen l _ _, by rintro p' ⟨⟩⟩
      · exact ⟨.condemn l (not_exists_dead (by simpa using hex)), by rintro p' ⟨⟩; trivial⟩
  | ownerStart w => exact ⟨.measure l _ _, by rintro p' ⟨⟩; exact hshape⟩
  | ownerAlive w start =>
      simp only [acquireStep]
      split_ifs with halive
      · exact ⟨.leaveMeasured l _ _ _, by rintro p' ⟨⟩⟩
      · exact ⟨.condemnMeasured l (not_alive_dead hshape (by simpa using halive)),
          by rintro p' ⟨⟩; trivial⟩
  | clear w => exact ⟨clearSwap_move haba, by rintro p' ⟨⟩; trivial⟩

/-- Every access of `chunk_has_live_leases` is a move of the slot. -/
theorem scanStep_move {p : ScanPc} (haba : NoAba P l p.clears) :
    Move P.world none l p.phase (scanStep P l p).1 (scanStep P l p).2.phase := by
  cases p with
  | load =>
      cases hw : l.word with
      | none => simpa only [scanStep, hw] using .stay l .away
      | some w =>
          simp only [scanStep, hw]
          exact .see l hw
  | start w => exact .measure l _ _
  | alive w start =>
      simp only [scanStep]
      split_ifs with hlive
      · exact .leaveMeasured l _ _ _
      · refine .condemnMeasured l ?_
        simp only [not_or, not_and, Bool.not_eq_true] at hlive
        rcases Nat.eq_zero_or_pos w.refs with hzero | hpos
        · exact not_exists_dead (hlive.1 hzero)
        · exact not_alive_dead hpos (hlive.2 hpos)
  | clear w =>
      have h := clearSwap_move (a := none) haba
      simp only [scanStep]
      split_ifs <;> exact h

end Moves

open Probing.Core.LeaseSlot (Slot Names World Phase Move Inv)

variable {Task Inst : Type*}

/-- A slot, by chunk and index, and the phase of an agent at it. -/
abbrev Stake := (ℕ × ℕ) × Phase UInt32 UInt64

/-- The phase of an agent at slot `x`. -/
def Stake.at (k : Stake) (x : ℕ × ℕ) : Phase UInt32 UInt64 := if k.1 = x then k.2 else .away

@[simp] theorem Stake.at_self (x : ℕ × ℕ) (p : Phase UInt32 UInt64) :
    Stake.at (x, p) x = p := by simp [Stake.at]

@[simp] theorem Stake.at_away (x y : ℕ × ℕ) : Stake.at (x, .away) y = .away := by
  simp [Stake.at]

theorem Stake.at_of_away {k : Stake} (h : k.2 = .away) (x : ℕ × ℕ) : k.at x = .away := by
  simp [Stake.at, h]

theorem Stake.at_ne {x y : ℕ × ℕ} (p : Phase UInt32 UInt64) (h : y ≠ x) :
    Stake.at (x, p) y = .away := by simp [Stake.at, Ne.symm h]

def TaskPc.stake : TaskPc → Stake
  | acquire call slot p => ((call.chunk, slot), p.phase)
  | stateAfter call slot | generationAfter call slot _ | usedLoad call slot _ =>
      ((call.chunk, slot), .holding)
  | pinned c slot _ _ _ | releaseLoad c slot _ | releaseSwap c slot _ _ => ((c, slot), .holding)
  | idle | stateBefore _ _ | generationBefore _ _ _ => ((0, 0), .away)

/-- The stake of the writer while it scans chunk `c`. -/
def WriterPc.stake (c : ℕ) : WriterPc → Stake
  | scan _ _ slot _ p => ((c, slot), p.phase)
  | _ => ((0, 0), .away)

/-- What the program counter of a task says by itself. -/
def TaskPc.Shape (leaseSlots : ℕ) (pid : UInt32) : TaskPc → Prop
  | acquire _ slot p =>
      p.Shape pid ∧ slot ≤ leaseSlots ∧ (slot = leaseSlots → p = .load)
  | stateAfter _ slot | generationAfter _ slot _ | usedLoad _ slot _ | pinned _ slot _ _ _
  | releaseLoad _ slot _ | releaseSwap _ slot _ _ => slot < leaseSlots
  | _ => True

def WriterPc.Shape (leaseSlots : ℕ) : WriterPc → Prop
  | scan _ _ slot _ p => slot ≤ leaseSlots ∧ (slot = leaseSlots → p = .load)
  | _ => True

section Invariant

variable [DecidableEq Task] [DecidableEq Inst] {S : Setting Task Inst}

namespace State

variable (s : State S)

def slot (x : ℕ × ℕ) : ReaderLease Task Inst := s.lease x.1 x.2

def stake : Option Task → Stake
  | some τ => (s.task τ).stake
  | none => s.writer.stake s.nextChunk

def LeaseInv : Prop :=
  ∀ x, Inv s.procs.world (s.slot x) fun a => (s.stake a).at x

/-- The slot a step accesses and the word it is about to clear there, if any. -/
def swap (s : State S) : Action Task Inst → (ℕ × ℕ) × Option Seen
  | .task τ =>
      match s.task τ with
      | .acquire call slot p => ((call.chunk, slot), p.clears)
      | _ => ((0, 0), none)
  | .writer =>
      match s.writer with
      | .scan _ _ slot _ p => ((s.nextChunk, slot), p.clears)
      | _ => ((0, 0), none)
  | _ => ((0, 0), none)

/-- The swap a step is about to make, if any, is safe from reuse. -/
def NoAba (s : State S) (act : Action Task Inst) : Prop :=
  Lease.NoAba s.procs (s.slot (s.swap act).1) (s.swap act).2

end State

variable {s t : State S} {a : Option Task} {x₀ : ℕ × ℕ}

omit [DecidableEq Task] [DecidableEq Inst] in
@[simp] theorem slot_setLease (c k : ℕ) (l : ReaderLease Task Inst) :
    (s.setLease c k l).slot (c, k) = l := by simp [State.slot, State.setLease]

omit [DecidableEq Task] [DecidableEq Inst] in
theorem slot_setLease_ne {c k : ℕ} {x : ℕ × ℕ} (l : ReaderLease Task Inst) (h : x ≠ (c, k)) :
    (s.setLease c k l).slot x = s.slot x := by
  have hne : ¬ (x.1 = c ∧ x.2 = k) := fun e => h (Prod.ext e.1 e.2)
  simp only [State.slot, State.setLease, if_neg hne]

/-- A step of one agent is a move of one slot and nothing at the others. -/
structure AgentMove (s t : State S) (a : Option Task) (x₀ : ℕ × ℕ) : Prop where
  procs : t.procs = s.procs
  others : ∀ b, b ≠ a → t.stake b = s.stake b
  elsewhere : ∀ x, x ≠ x₀ → t.slot x = s.slot x ∧ (t.stake a).at x = (s.stake a).at x
  move : Move s.procs.world a (s.slot x₀) ((s.stake a).at x₀) (t.slot x₀) ((t.stake a).at x₀)

/-- The process of an agent runs. -/
def State.Acts (s : State S) (a : Option Task) : Prop := s.procs.Running (S.names.inst a)

omit [DecidableEq Inst] in
theorem AgentMove.leaseInv (hm : AgentMove s t a x₀) (ha : s.Acts a) (h : s.LeaseInv) :
    t.LeaseInv := by
  intro x
  have hprocs : t.procs.world = s.procs.world := by rw [hm.procs]
  rw [hprocs]
  by_cases hx : x = x₀
  · subst hx
    have hphase : (fun b => (t.stake b).at x) =
        Function.update (fun b => (s.stake b).at x) a ((t.stake a).at x) := by
      funext b
      by_cases hb : b = a
      · subst hb; simp
      · simp [hb, hm.others b hb]
    rw [hphase]
    exact (h x).move ha hm.move
  · have hphase : (fun b => (t.stake b).at x) = fun b => (s.stake b).at x := by
      funext b
      by_cases hb : b = a
      · subst hb; exact (hm.elsewhere x hx).2
      · simp only [hm.others b hb]
    rw [hphase, (hm.elsewhere x hx).1]
    exact h x

variable {τ : Task}

omit [DecidableEq Inst] in
theorem stake_setTask_ne (s : State S) (p : TaskPc) {b : Option Task} (hb : b ≠ some τ) :
    (s.setTask τ p).stake b = s.stake b := by
  cases b with
  | none => rfl
  | some σ =>
      have hne : σ ≠ τ := fun e => hb (by rw [e])
      simp [State.stake, State.setTask, hne]

omit [DecidableEq Inst] in
@[simp] theorem stake_setTask (s : State S) (p : TaskPc) :
    (s.setTask τ p).stake (some τ) = p.stake := by simp [State.stake, State.setTask]

omit [DecidableEq Inst] in
/-- A step of a task that touches no slot and keeps its stake. -/
theorem agentMove_quiet {p : TaskPc} (x₀ : ℕ × ℕ)
    (hp : ∀ x, p.stake.at x = (s.task τ).stake.at x) :
    AgentMove s (s.setTask τ p) (some τ) x₀ where
  procs := rfl
  others b hb := stake_setTask_ne s p hb
  elsewhere x _ := ⟨rfl, by rw [stake_setTask]; exact hp x⟩
  move := by
    rw [stake_setTask, hp]
    exact .stay _ _

omit [DecidableEq Inst] in
/-- A step of a task that accesses the slot it has its stake in. -/
theorem agentMove_setLease {c k : ℕ} {l : ReaderLease Task Inst} {p : TaskPc} {w : Bool}
    {q q' : Phase UInt32 UInt64} (hq : (s.task τ).stake = ((c, k), q))
    (hp : p.stake = ((c, k), q') ∨ p.stake.2 = .away ∧ q' = .away)
    (hm : Move s.procs.world (some τ) (s.lease c k) q l q') :
    AgentMove s ({ s.setLease c k l with wronged := w }.setTask τ p) (some τ) (c, k) := by
  have hat : ∀ x, p.stake.at x = Stake.at ((c, k), q') x := by
    intro x
    rcases hp with hp | ⟨hp, rfl⟩
    · rw [hp]
    · rw [Stake.at_of_away hp, Stake.at_away]
  refine ⟨rfl, fun b hb => ?_, fun x hx => ⟨slot_setLease_ne l hx, ?_⟩, ?_⟩
  · rw [stake_setTask_ne _ p hb]
    cases b <;> rfl
  · rw [stake_setTask, hat, Stake.at_ne _ hx, State.stake, hq, Stake.at_ne _ hx]
  · have hslot : State.slot ({ s.setLease c k l with wronged := w }.setTask τ p) (c, k) = l :=
      slot_setLease c k l
    rw [hslot, stake_setTask, hat, State.stake, hq, Stake.at_self, Stake.at_self]
    exact hm

/-- A step of a task is a move of one slot. -/
theorem taskStep_move (h : s.LeaseInv) (hτ : s.procs.Running (S.inst τ))
    (hshape : (s.task τ).Shape S.leaseSlots (S.pid (S.inst τ)))
    (haba : s.NoAba (.task τ)) : ∃ x₀, AgentMove s (s.taskStep τ) (some τ) x₀ := by
  have hquiet : ∀ p : TaskPc, (∀ x, p.stake.at x = (s.task τ).stake.at x) →
      ∃ x₀, AgentMove s (s.setTask τ p) (some τ) x₀ := fun p hp => ⟨(0, 0), agentMove_quiet _ hp⟩
  have hstay : ∃ x₀, AgentMove s s (some τ) x₀ :=
    ⟨(0, 0), rfl, fun _ _ => rfl, fun _ _ => ⟨rfl, rfl⟩, .stay _ _⟩
  unfold State.taskStep
  cases hpc : s.task τ with
  | idle => exact hstay
  | pinned c slot g u b => exact hstay
  | stateBefore c attempt =>
      simp only
      split_ifs <;> exact hquiet _ fun x => by simp [hpc, TaskPc.stake]
  | generationBefore c attempt st =>
      exact hquiet _ fun x => by simp [hpc, TaskPc.stake, AcquirePc.phase]
  | acquire call slot p =>
      rw [hpc] at hshape
      obtain ⟨hp, hle, hend⟩ := hshape
      simp only
      split_ifs with hslot
      · obtain rfl := hend hslot
        exact hquiet _ fun x => by simp [hpc, TaskPc.stake, AcquirePc.phase]
      · have hstake : (s.task τ).stake = ((call.chunk, slot), p.phase) := by rw [hpc]; rfl
        have hk : p.phase.Knows s.procs.world (s.lease call.chunk slot) (some τ) := by
          have hk := (h (call.chunk, slot)).knows (some τ) hτ
          simpa [State.stake, hstake, State.slot] using hk
        simp only [State.NoAba, State.swap, hpc] at haba
        have hm := (acquireStep_move hτ hp hk haba).1
        refine ⟨(call.chunk, slot), ?_⟩
        generalize hnext : acquireStep s.procs τ (s.lease call.chunk slot) p = next at hm
        obtain ⟨l, next⟩ := next
        cases next with
        | goto p' => exact agentMove_setLease hstake (.inl rfl) hm
        | nextSlot => exact agentMove_setLease hstake (.inr ⟨rfl, rfl⟩) hm
        | acquired => exact agentMove_setLease hstake (.inl rfl) hm
        | exhausted => exact agentMove_setLease hstake (.inr ⟨rfl, rfl⟩) hm
  | stateAfter call slot => exact hquiet _ fun x => by simp [hpc, TaskPc.stake]
  | generationAfter call slot st =>
      simp only
      split_ifs <;> exact hquiet _ fun x => by simp [hpc, TaskPc.stake]
  | usedLoad call slot g =>
      simp only
      split_ifs <;> exact hquiet _ fun x => by simp [hpc, TaskPc.stake]
  | releaseLoad c slot retry =>
      have hstake : (s.task τ).stake = ((c, slot), .holding) := by rw [hpc]; rfl
      obtain ⟨w, hw, hpid, hpos, -⟩ := (h (c, slot)).holding (a := some τ) hτ
        (by simp [State.stake, hstake])
      have hmine : w.1 = S.pid (S.inst τ) ∧ w.2 ≠ 0 := ⟨hpid, Nat.ne_of_gt hpos⟩
      have hw' : (s.lease c slot).word = some w := hw
      simp only [hw', if_pos hmine]
      exact hquiet _ fun x => by simp [hpc, TaskPc.stake]
  | releaseSwap c slot w retry =>
      have hstake : (s.task τ).stake = ((c, slot), .holding) := by rw [hpc]; rfl
      simp only
      split_ifs with hw
      · have haway : (retry.elim TaskPc.idle (TaskPc.stateBefore c)).stake.2 = .away := by
          cases retry <;> rfl
        exact ⟨(c, slot), agentMove_setLease (w := s.wronged) hstake (.inr ⟨haway, rfl⟩)
          (.release _ hw)⟩
      · exact hquiet _ fun x => by simp [hpc, TaskPc.stake]

omit [DecidableEq Inst] in
/-- A step of the writer that touches no slot and keeps its stake. -/
theorem agentMove_writer_quiet (x₀ : ℕ × ℕ) (hprocs : t.procs = s.procs)
    (htask : t.task = s.task) (hlease : t.lease = s.lease)
    (hp : ∀ x, (t.stake none).at x = (s.stake none).at x) : AgentMove s t none x₀ where
  procs := hprocs
  others b hb := by
    cases b with
    | none => exact absurd rfl hb
    | some σ => simp only [State.stake, htask]
  elsewhere x _ := ⟨by simp only [State.slot, hlease], hp x⟩
  move := by
    have hslot : t.slot x₀ = s.slot x₀ := by simp only [State.slot, hlease]
    rw [hslot, hp]
    exact .stay _ _

omit [DecidableEq Inst] in
/-- A step of the writer that accesses the slot it scans. -/
theorem agentMove_writer_setLease {c k : ℕ} {l : ReaderLease Task Inst} {p : WriterPc} {w : Bool}
    {q q' : Phase UInt32 UInt64} (hq : s.stake none = ((c, k), q))
    (hp : p.stake s.nextChunk = ((c, k), q') ∨ (p.stake s.nextChunk).2 = .away ∧ q' = .away)
    (hm : Move s.procs.world none (s.lease c k) q l q') :
    AgentMove s { s.setLease c k l with wronged := w, writer := p } none (c, k) := by
  have hat : ∀ x, (p.stake s.nextChunk).at x = Stake.at ((c, k), q') x := by
    intro x
    rcases hp with hp | ⟨hp, rfl⟩
    · rw [hp]
    · rw [Stake.at_of_away hp, Stake.at_away]
  have hstake : ({ s.setLease c k l with wronged := w, writer := p } : State S).stake none =
      p.stake s.nextChunk := rfl
  refine ⟨rfl, fun b hb => ?_, fun x hx => ⟨slot_setLease_ne l hx, ?_⟩, ?_⟩
  · cases b with
    | none => exact absurd rfl hb
    | some σ => rfl
  · rw [hstake, hat, hq, Stake.at_ne _ hx, Stake.at_ne _ hx]
  · have hslot : State.slot { s.setLease c k l with wronged := w, writer := p } (c, k) = l :=
      slot_setLease c k l
    rw [hslot, hstake, hat, hq, Stake.at_self, Stake.at_self]
    exact hm

/-- A step of the writer is a move of one slot. -/
theorem writerStep_move (hshape : s.writer.Shape S.leaseSlots) (haba : s.NoAba .writer) :
    ∃ x₀, AgentMove s s.writerStep none x₀ := by
  have hquiet : ∀ t : State S, t.procs = s.procs → t.task = s.task → t.lease = s.lease →
      (∀ x, (t.stake none).at x = (s.stake none).at x) → ∃ x₀, AgentMove s t none x₀ :=
    fun t h1 h2 h3 h4 => ⟨(0, 0), agentMove_writer_quiet _ h1 h2 h3 h4⟩
  unfold State.writerStep
  cases hpc : s.writer with
  | scan previous attempt slot live p =>
      rw [hpc] at hshape
      obtain ⟨hle, hend⟩ := hshape
      simp only
      split_ifs with hslot
      · obtain rfl := hend hslot
        refine hquiet _ rfl rfl rfl fun x => ?_
        have haway : ((State.scanEnd previous attempt live).stake s.nextChunk).2 = .away := by
          unfold State.scanEnd
          split_ifs <;> rfl
        have haway' : (s.stake none).2 = .away := by
          simp only [State.stake, hpc, WriterPc.stake, ScanPc.phase]
        rw [Stake.at_of_away haway']
        exact Stake.at_of_away haway x
      · have hstake : s.stake none = ((s.nextChunk, slot), p.phase) := by
          simp only [State.stake, hpc, WriterPc.stake]
        simp only [State.NoAba, State.swap, hpc] at haba
        have hm := scanStep_move (l := s.lease s.nextChunk slot) haba
        refine ⟨(s.nextChunk, slot), ?_⟩
        generalize hnext : scanStep s.procs (s.lease s.nextChunk slot) p = next at hm
        obtain ⟨l, next⟩ := next
        cases next with
        | goto p' => exact agentMove_writer_setLease hstake (.inl rfl) hm
        | nextSlot found => exact agentMove_writer_setLease hstake (.inr ⟨rfl, rfl⟩) hm
  | sealCurrent =>
      simp only
      split_ifs <;> exact hquiet _ rfl rfl rfl fun x => by simp [State.stake, hpc, WriterPc.stake]
  | appendByte row i =>
      simp only
      split_ifs <;> exact hquiet _ rfl rfl rfl fun x => by simp [State.stake, hpc, WriterPc.stake]
  | storeEmpty previous =>
      exact hquiet _ rfl rfl rfl fun x => by simp [State.stake, hpc, WriterPc.stake, ScanPc.phase]
  | _ => exact hquiet _ rfl rfl rfl fun x => by simp [State.stake, hpc, WriterPc.stake]

/-- What program counters say by themselves, and that only processes that have
been started have begun anything. -/
structure State.Shaped (s : State S) : Prop where
  task : ∀ τ, (s.task τ).Shape S.leaseSlots (S.pid (S.inst τ))
  writer : s.writer.Shape S.leaseSlots
  unborn_task : ∀ τ, s.procs.spawned (S.inst τ) = false → s.task τ = .idle
  unborn_writer : s.procs.spawned S.writer = false → s.writer = .idle

theorem retry_shape (c : ℕ) (retry : Option ℕ) (n : ℕ) (pid : UInt32) :
    (retry.elim TaskPc.idle (TaskPc.stateBefore c)).Shape n pid := by
  cases retry <;> trivial

omit [DecidableEq Inst] in
@[simp] theorem task_setTask (s : State S) (p : TaskPc) : (s.setTask τ p).task τ = p := by
  simp [State.setTask]

theorem taskStep_shape (h : s.LeaseInv) (hτ : s.procs.Running (S.inst τ))
    (hshape : (s.task τ).Shape S.leaseSlots (S.pid (S.inst τ)))
    (haba : s.NoAba (.task τ)) :
    ((s.taskStep τ).task τ).Shape S.leaseSlots (S.pid (S.inst τ)) := by
  unfold State.taskStep
  cases hpc : s.task τ with
  | idle | pinned c slot g u b => exact hshape
  | stateBefore c attempt => simp only; split_ifs <;> simp [TaskPc.Shape]
  | generationBefore c attempt st =>
      simp only [task_setTask]
      exact ⟨trivial, Nat.zero_le _, fun _ => rfl⟩
  | acquire call slot p =>
      rw [hpc] at hshape
      obtain ⟨hp, hle, hend⟩ := hshape
      simp only
      split_ifs with hslot
      · simp [TaskPc.Shape]
      · have hstake : (s.task τ).stake = ((call.chunk, slot), p.phase) := by rw [hpc]; rfl
        have hk : p.phase.Knows s.procs.world (s.lease call.chunk slot) (some τ) := by
          have hk := (h (call.chunk, slot)).knows (some τ) hτ
          simpa [State.stake, hstake, State.slot] using hk
        simp only [State.NoAba, State.swap, hpc] at haba
        have hm := (acquireStep_move hτ hp hk haba).2
        have hlt : slot < S.leaseSlots := Nat.lt_of_le_of_ne hle hslot
        generalize hnext : acquireStep s.procs τ (s.lease call.chunk slot) p = next at hm
        obtain ⟨l, next⟩ := next
        cases next with
        | goto p' =>
            simp only [task_setTask]
            exact ⟨hm p' rfl, hle, fun e => absurd e hslot⟩
        | nextSlot =>
            simp only [task_setTask]
            exact ⟨trivial, hlt, fun _ => rfl⟩
        | acquired => simp only [task_setTask]; exact hlt
        | exhausted => simp [TaskPc.Shape]
  | stateAfter call slot => rw [hpc] at hshape; (simp only [task_setTask]; exact hshape)
  | generationAfter call slot st =>
      rw [hpc] at hshape
      simp only
      split_ifs <;> (simp only [task_setTask]; exact hshape)
  | usedLoad call slot g =>
      rw [hpc] at hshape
      simp only
      split_ifs <;> (simp only [task_setTask]; exact hshape)
  | releaseLoad c slot retry =>
      rw [hpc] at hshape
      simp only
      split
      · split_ifs
        · (simp only [task_setTask]; exact hshape)
        · (simp only [task_setTask]; exact retry_shape c retry _ _)
      · (simp only [task_setTask]; exact retry_shape c retry _ _)
  | releaseSwap c slot w retry =>
      rw [hpc] at hshape
      simp only
      split_ifs
      · (simp only [task_setTask]; exact retry_shape c retry _ _)
      · (simp only [task_setTask]; exact hshape)

omit [DecidableEq Task] in
theorem writerStep_shape (hshape : s.writer.Shape S.leaseSlots) :
    s.writerStep.writer.Shape S.leaseSlots := by
  unfold State.writerStep
  cases hpc : s.writer with
  | scan previous attempt slot live p =>
      rw [hpc] at hshape
      obtain ⟨hle, hend⟩ := hshape
      simp only
      split_ifs with hslot
      · unfold State.scanEnd
        split_ifs
        · trivial
        · trivial
        · exact ⟨Nat.zero_le _, fun _ => rfl⟩
        · exact ⟨Nat.zero_le _, fun _ => rfl⟩
      · generalize scanStep s.procs (s.lease s.nextChunk slot) p = next
        obtain ⟨l, next⟩ := next
        cases next with
        | goto p' => exact ⟨hle, fun e => absurd e hslot⟩
        | nextSlot found => exact ⟨Nat.lt_of_le_of_ne hle hslot, fun _ => rfl⟩
  | sealCurrent => simp only; split_ifs <;> trivial
  | appendByte row i => simp only; split_ifs <;> trivial
  | storeEmpty previous => exact ⟨Nat.zero_le _, fun _ => rfl⟩
  | idle => simp only [hpc]; trivial
  | _ => trivial

end Invariant

end Probing.Memt.Lease
