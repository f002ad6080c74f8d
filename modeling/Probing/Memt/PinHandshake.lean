import Probing.Memt.LeaseInvariant

/-!
# The handshake between pins and recycling

A task that has seen a non-empty state after its lease was counted is armed: the
writer either has not stored `Empty` yet, and its scan will find the lease, or it
has finished recycling. So no chunk is recycled under an armed task.
-/

namespace Probing.Memt.Lease

open Probing.Core.LeaseSlot (Slot Names World Phase Move)

variable {Task Inst : Type*}

/-- The chunk and slot of a pin that is granted, or will be unless the chunk's
generation has changed. -/
def TaskPc.armed : TaskPc → Option (ℕ × ℕ)
  | generationAfter call slot st => if st = .Empty then none else some (call.chunk, slot)
  | usedLoad call slot _ => some (call.chunk, slot)
  | pinned c slot _ _ _ => some (c, slot)
  | _ => none

/-- What a task has read of its chunk is what the chunk holds. -/
def TaskPc.Sees (chunk : ℕ → Chunk) : TaskPc → Prop
  | usedLoad call _ g => (chunk call.chunk).generation = g
  | pinned c _ g used bytes => (chunk c).generation = g ∧ used ≤ (chunk c).used ∧
      ∀ i < used, (chunk c).bytes i = bytes i
  | _ => True

/-- The writer keeps the next chunk empty. -/
def WriterPc.Blocks : WriterPc → Prop
  | scan _ _ _ _ _ | restore _ | sealCurrent | generation | used | writing => True
  | _ => False

/-- The writer has found no live lease and recycles the next chunk. -/
def WriterPc.Recycles : WriterPc → Prop
  | sealCurrent | generation | used | writing => True
  | _ => False

/-- `ch'` extends `ch` within its generation. -/
def Chunk.Extends (ch ch' : Chunk) : Prop :=
  ch'.generation = ch.generation ∧ ch.used ≤ ch'.used ∧ ∀ i < ch.used, ch'.bytes i = ch.bytes i

theorem Chunk.Extends.refl (ch : Chunk) : ch.Extends ch := ⟨rfl, Nat.le_refl _, fun _ _ => rfl⟩

theorem TaskPc.stake_of_armed {p : TaskPc} {x : ℕ × ℕ} (h : p.armed = some x) :
    p.stake = (x, .holding) := by
  cases p <;> simp_all [armed, stake]

theorem TaskPc.lt_of_armed {p : TaskPc} {c k n : ℕ} {pid : UInt32} (h : p.armed = some (c, k))
    (hp : p.Shape n pid) : k < n := by
  cases p <;> simp_all [armed, Shape]

theorem TaskPc.Sees.extends {p : TaskPc} {chunk chunk' : ℕ → Chunk} (h : p.Sees chunk)
    (hext : ∀ c k, p.armed = some (c, k) → (chunk c).Extends (chunk' c)) : p.Sees chunk' := by
  cases p with
  | usedLoad call slot g => exact (hext _ _ rfl).1.trans h
  | pinned c slot g used bytes =>
      obtain ⟨hg, hu, hb⟩ := hext _ _ rfl
      exact ⟨hg.trans h.1, Nat.le_trans h.2.1 hu,
        fun i hi => (hb i (Nat.lt_of_lt_of_le hi h.2.1)).trans (h.2.2 i hi)⟩
  | _ => trivial

section Safety

variable [DecidableEq Task] [DecidableEq Inst] {S : Setting Task Inst} {s t : State S} {τ : Task}

/-- The handshake between the writer's `Empty` and the readers' leases. -/
structure State.Handshake (s : State S) : Prop where
  empty : s.writer.Blocks → (s.chunk s.nextChunk).state = .Empty
  passed : ∀ previous attempt slot p, s.writer = .scan previous attempt slot false p →
    ∀ τ, s.procs.Running (S.inst τ) → ∀ k, (s.task τ).armed = some (s.nextChunk, k) → slot ≤ k
  recycling : s.writer.Recycles →
    ∀ τ, s.procs.Running (S.inst τ) → ∀ k, (s.task τ).armed ≠ some (s.nextChunk, k)
  sees : ∀ τ, s.procs.Running (S.inst τ) → (s.task τ).Sees s.chunk

theorem taskStep_frame (s : State S) (τ : Task) :
    (s.taskStep τ).chunk = s.chunk ∧ (s.taskStep τ).writer = s.writer ∧
      (s.taskStep τ).writeChunk = s.writeChunk ∧ (s.taskStep τ).procs = s.procs ∧
      ∀ σ, σ ≠ τ → (s.taskStep τ).task σ = s.task σ := by
  unfold State.taskStep
  cases hpc : s.task τ with
  | acquire call slot p =>
      simp only
      split_ifs
      · simp +contextual [State.setTask]
      · generalize acquireStep s.procs τ (s.lease call.chunk slot) p = next
        obtain ⟨l, next⟩ := next
        cases next <;> simp +contextual [State.setTask, State.setLease]
  | releaseLoad c slot retry =>
      simp only
      split <;> (try split_ifs) <;> simp +contextual [State.setTask]
  | _ =>
      simp only
      (try split_ifs) <;> simp +contextual [State.setTask, State.setLease]

/-- A task is armed by a load that finds its chunk not empty. -/
theorem taskStep_armed {x : ℕ × ℕ} (h : ((s.taskStep τ).task τ).armed = some x) :
    (s.task τ).armed = some x ∨ (s.chunk x.1).state ≠ .Empty := by
  revert h
  unfold State.taskStep
  cases hpc : s.task τ with
  | acquire call slot p =>
      simp only
      split_ifs
      · simp [TaskPc.armed]
      · generalize acquireStep s.procs τ (s.lease call.chunk slot) p = next
        obtain ⟨l, next⟩ := next
        cases next <;> simp [TaskPc.armed]
  | stateAfter call slot =>
      simp only [task_setTask, TaskPc.armed]
      split_ifs with hempty
      · simp
      · rintro ⟨⟩
        exact .inr hempty
  | generationAfter call slot st =>
      simp only
      split_ifs with hok
      · simp [TaskPc.armed, hok.2.1]
        exact fun h => .inl h
      · simp [TaskPc.armed]
  | usedLoad call slot g =>
      simp only
      split_ifs <;> simp [TaskPc.armed]
      exact fun h => .inl h
  | releaseLoad c slot retry =>
      simp only
      split <;> (try split_ifs) <;> cases retry <;> simp [TaskPc.armed]
  | releaseSwap c slot w retry =>
      simp only
      split_ifs <;> cases retry <;> simp [TaskPc.armed]
  | stateBefore c attempt => simp only; split_ifs <;> simp [TaskPc.armed]
  | generationBefore c attempt st => simp [TaskPc.armed]
  | idle | pinned c slot g u b => simp only [hpc]; exact fun h => .inl h

theorem taskStep_sees (h : (s.task τ).Sees s.chunk) :
    ((s.taskStep τ).task τ).Sees s.chunk := by
  revert h
  unfold State.taskStep
  cases hpc : s.task τ with
  | acquire call slot p =>
      simp only
      split_ifs
      · simp [TaskPc.Sees]
      · generalize acquireStep s.procs τ (s.lease call.chunk slot) p = next
        obtain ⟨l, next⟩ := next
        cases next <;> simp [TaskPc.Sees]
  | stateAfter call slot => simp [TaskPc.Sees]
  | generationAfter call slot st => simp only; split_ifs <;> simp [TaskPc.Sees]
  | usedLoad call slot g =>
      simp only
      split_ifs <;> simp [TaskPc.Sees]
  | releaseLoad c slot retry =>
      simp only
      split <;> (try split_ifs) <;> cases retry <;> simp [TaskPc.Sees]
  | releaseSwap c slot w retry =>
      simp only
      split_ifs <;> cases retry <;> simp [TaskPc.Sees]
  | stateBefore c attempt => simp only; split_ifs <;> simp [TaskPc.Sees]
  | generationBefore c attempt st => simp [TaskPc.Sees]
  | idle | pinned c slot g u b => simp only [hpc]; exact id

/-- A step of a task keeps the handshake. -/
theorem taskStep_handshake (h : s.Handshake) (hτ : s.procs.Running (S.inst τ)) :
    (s.taskStep τ).Handshake := by
  obtain ⟨hchunk, hwriter, hwc, hprocs, hother⟩ := taskStep_frame s τ
  have hnext : (s.taskStep τ).nextChunk = s.nextChunk := by simp only [State.nextChunk, hwc]
  -- Nobody is armed at the chunk the writer keeps empty who was not before.
  have harmed : s.writer.Blocks → ∀ σ k, ((s.taskStep τ).task σ).armed = some (s.nextChunk, k) →
      (s.task σ).armed = some (s.nextChunk, k) := by
    intro hblocks σ k hσ
    by_cases hστ : σ = τ
    · subst hστ
      rcases taskStep_armed hσ with h' | h'
      · exact h'
      · exact absurd (h.empty hblocks) h'
    · rwa [hother σ hστ] at hσ
  refine ⟨?_, ?_, ?_, ?_⟩
  · rw [hwriter, hchunk, hnext]
    exact h.empty
  · rw [hwriter, hnext, hprocs]
    intro previous attempt slot p hp σ hσ k hk
    exact h.passed previous attempt slot p hp σ hσ k (harmed (by rw [hp]; trivial) σ k hk)
  · rw [hwriter, hnext, hprocs]
    intro hrec σ hσ k hk
    have hblocks : s.writer.Blocks := by
      revert hrec
      cases s.writer <;> simp [WriterPc.Recycles, WriterPc.Blocks]
    exact h.recycling hrec σ hσ k (harmed hblocks σ k hk)
  · rw [hprocs, hchunk]
    intro σ hσ
    by_cases hστ : σ = τ
    · subst hστ
      exact taskStep_sees (h.sees σ hσ)
    · rw [hother σ hστ]
      exact h.sees σ hσ

omit [DecidableEq Task] in
theorem writerStep_frame (s : State S) :
    s.writerStep.procs = s.procs ∧ s.writerStep.task = s.task := by
  unfold State.writerStep
  cases s.writer with
  | scan previous attempt slot live p =>
      simp only
      split_ifs
      · exact ⟨rfl, rfl⟩
      · generalize scanStep s.procs (s.lease s.nextChunk slot) p = next
        obtain ⟨l, next⟩ := next
        cases next <;> exact ⟨rfl, rfl⟩
  | sealCurrent | appendByte row i =>
      simp only
      split_ifs <;> exact ⟨rfl, rfl⟩
  | _ => exact ⟨rfl, rfl⟩

omit [DecidableEq Task] in
/-- The writer changes published bytes and generations only while it recycles. -/
theorem writerStep_extends (s : State S) (c : ℕ) (hc : s.writer.Recycles → c ≠ s.nextChunk) :
    (s.chunk c).Extends (s.writerStep.chunk c) := by
  have hrefl := Chunk.Extends.refl (s.chunk c)
  have hset : ∀ d ch, (c = d → (s.chunk c).Extends ch) →
      (s.chunk c).Extends ((s.setChunk d ch).chunk c) := by
    intro d ch h
    by_cases hd : c = d
    · subst hd
      simpa [State.setChunk] using h rfl
    · simpa [State.setChunk, hd] using hrefl
  unfold State.writerStep
  cases hpc : s.writer with
  | scan previous attempt slot live p =>
      simp only
      split_ifs
      · exact hrefl
      · generalize scanStep s.procs (s.lease s.nextChunk slot) p = next
        obtain ⟨l, next⟩ := next
        cases next <;> exact hrefl
  | appendByte row i =>
      simp only
      split_ifs with hi
      · refine hset _ _ fun hd => ?_
        subst hd
        refine ⟨rfl, Nat.le_refl _, fun j hj => ?_⟩
        have hne : j ≠ (s.chunk s.writeChunk).used + i := by omega
        simp [hne]
      · refine hset _ _ fun hd => ?_
        subst hd
        exact ⟨rfl, Nat.le_add_right _ _, fun _ _ => rfl⟩
  | storeEmpty previous | restore previous =>
      refine hset _ _ fun hd => ?_
      subst hd
      exact ⟨rfl, Nat.le_refl _, fun _ _ => rfl⟩
  | sealCurrent =>
      simp only
      split_ifs
      · exact hrefl
      · refine hset _ _ fun hd => ?_
        subst hd
        exact ⟨rfl, Nat.le_refl _, fun _ _ => rfl⟩
  | generation | used | writing =>
      refine hset _ _ fun hd => absurd hd (hc ?_)
      rw [hpc]
      trivial
  | idle | previousState | writeChunk => exact hrefl

omit [DecidableEq Task] [DecidableEq Inst] in
/-- A pass that goes on without a live owner has found no armed task's lease. -/
theorem scanStep_passes {l : ReaderLease Task Inst} {p : ScanPc} {x : ℕ × ℕ}
    (h : s.LeaseInv) (hl : l = s.slot x) (haba : NoAba s.procs l p.clears)
    (hstake : s.stake none = (x, p.phase)) (hwriter : s.procs.Running S.writer)
    (hnext : (scanStep s.procs l p).2 = .nextSlot false) (hτ : s.procs.Running (S.inst τ)) :
    (s.task τ).armed ≠ some x := by
  intro harmed
  have hhold : (s.stake (some τ)).at x = .holding := by
    rw [State.stake, TaskPc.stake_of_armed harmed, Stake.at_self]
  obtain ⟨w, hw, hpid, hpos, hmem⟩ := (h x).holding (a := some τ) hτ hhold
  rw [← hl] at hw hmem
  cases p with
  | load => simp [scanStep, hw] at hnext
  | start v => simp [scanStep] at hnext
  | alive v st =>
      simp only [scanStep] at hnext
      split_ifs at hnext
      simp at hnext
  | clear v =>
      -- The swap succeeds, so the slot's process is not running, but the task's is.
      simp only [scanStep] at hnext
      split_ifs at hnext with hword
      have hinst := (h x).holders (some τ) (hl ▸ hmem)
      have hknows := (h x).knows none hwriter
      simp only [hstake, Stake.at_self] at hknows
      rcases haba hword with hepoch | hdead
      · exact hknows.2 (hl ▸ hepoch) _ hinst hτ
      · exact hdead (S.inst τ) (by rw [hl, hinst]; rfl) hτ

omit [DecidableEq Task] in
/-- A step of the writer keeps the handshake. -/
theorem writerStep_handshake (h : s.Handshake) (hlease : s.LeaseInv)
    (hshape : ∀ τ, (s.task τ).Shape S.leaseSlots (S.pid (S.inst τ)))
    (hwriter : s.procs.Running S.writer) (haba : s.NoAba .writer) : s.writerStep.Handshake := by
  obtain ⟨hprocs, htask⟩ := writerStep_frame s
  have hsees : ∀ τ, s.writerStep.procs.Running (S.inst τ) →
      (s.writerStep.task τ).Sees s.writerStep.chunk := by
    rw [hprocs, htask]
    intro τ hτ
    refine (h.sees τ hτ).extends fun c k hk => writerStep_extends s c fun hrec hc => ?_
    exact h.recycling hrec τ hτ k (hc ▸ hk)
  cases hpc : s.writer with
  | scan previous attempt slot live p =>
      have hempty := h.empty (by rw [hpc]; trivial)
      by_cases hslot : slot = S.leaseSlots
      · have hstep : s.writerStep = { s with writer := State.scanEnd previous attempt live } := by
          simp only [State.writerStep, hpc, if_pos hslot]
        rw [hstep] at hsees ⊢
        refine ⟨fun _ => hempty, ?_, ?_, hsees⟩
        · intro pr at' sl q hq τ _ k _
          have hsl : sl = 0 := by
            simp only [State.scanEnd] at hq
            split_ifs at hq <;> simp at hq <;> exact hq.2.2.1.symm
          omega
        · intro hrec τ hτ k hk
          have hlive : live = false := by
            simp only [State.scanEnd] at hrec
            split_ifs at hrec <;> simp_all [WriterPc.Recycles]
          subst hlive
          have hle := h.passed _ _ _ _ hpc τ hτ k hk
          have hlt := TaskPc.lt_of_armed hk (hshape τ)
          omega
      · have hstake : s.stake none = ((s.nextChunk, slot), p.phase) := by
          simp only [State.stake, hpc, WriterPc.stake]
        simp only [State.NoAba, State.swap, hpc] at haba
        have hpass := fun hn τ hτ => scanStep_passes (τ := τ) hlease
          (show s.lease s.nextChunk slot = s.slot (s.nextChunk, slot) from rfl) haba hstake
          hwriter hn hτ
        generalize hnext : scanStep s.procs (s.lease s.nextChunk slot) p = next at hpass
        obtain ⟨l, next⟩ := next
        simp only [State.writerStep, hpc, if_neg hslot, hnext] at hsees ⊢
        cases next with
        | goto p' =>
            refine ⟨fun _ => hempty, ?_, fun hrec => hrec.elim, hsees⟩
            rintro _ _ _ _ ⟨⟩ τ hτ k hk
            exact h.passed _ _ _ _ hpc τ hτ k hk
        | nextSlot found =>
            refine ⟨fun _ => hempty, ?_, fun hrec => hrec.elim, hsees⟩
            intro pr at' sl q hq τ hτ k hk
            obtain ⟨-, -, rfl, hor, -⟩ := WriterPc.scan.inj hq
            obtain ⟨rfl, rfl⟩ := Bool.or_eq_false_iff.mp hor
            have hle : slot ≤ k := h.passed _ _ _ _ hpc τ hτ k hk
            have hne : slot ≠ k := fun e => hpass rfl τ hτ (e ▸ hk)
            omega
  | storeEmpty previous =>
      simp only [State.writerStep, hpc] at hsees ⊢
      refine ⟨fun _ => by simp [State.setChunk, State.nextChunk], ?_, fun hrec => hrec.elim, hsees⟩
      rintro _ _ _ _ ⟨⟩ τ _ k _
      exact Nat.zero_le k
  | sealCurrent =>
      have hempty := h.empty (by rw [hpc]; trivial)
      have hrec := h.recycling (by rw [hpc]; trivial)
      simp only [State.writerStep, hpc] at hsees ⊢
      split_ifs at hsees ⊢ with hsame
      · exact ⟨fun _ => hempty, fun _ _ _ _ hq => by simp at hq, fun _ => hrec, hsees⟩
      · refine ⟨fun _ => ?_, fun _ _ _ _ hq => by simp at hq, fun _ => hrec, hsees⟩
        have hne : s.nextChunk ≠ s.writeChunk := fun e => hsame e.symm
        change (if s.nextChunk = s.writeChunk then _ else s.chunk s.nextChunk).state = _
        rw [if_neg hne]
        exact hempty
  | generation | used =>
      have hempty := h.empty (by rw [hpc]; trivial)
      have hrec := h.recycling (by rw [hpc]; trivial)
      simp only [State.writerStep, hpc] at hsees ⊢
      refine ⟨fun _ => ?_, fun _ _ _ _ hq => by simp at hq, fun _ => hrec, hsees⟩
      simpa [State.setChunk, State.nextChunk] using hempty
  | appendByte row i =>
      simp only [State.writerStep, hpc] at hsees ⊢
      split_ifs at hsees ⊢ <;>
        exact ⟨fun hb => hb.elim, fun _ _ _ _ hq => by simp at hq, fun hr => hr.elim, hsees⟩
  | idle =>
      have hstep : s.writerStep = s := by simp only [State.writerStep, hpc]
      rw [hstep]
      exact h
  | _ =>
      simp only [State.writerStep, hpc] at hsees ⊢
      exact ⟨fun hb => hb.elim, fun _ _ _ _ hq => by simp at hq, fun hr => hr.elim, hsees⟩

end Safety

end Probing.Memt.Lease
