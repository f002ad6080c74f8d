import Probing.Core.ClaimLock
import Probing.Memh.SlotProtocol

/-!
# Exclusive ownership of the slot array

`acquire_writer` and the guard's `drop` are moves of the claim lock, so at most
one live thread is between its store of `writer_pid` and the end of its guard.
-/

namespace Probing.Memh

open Probing.Core.ClaimLock (Words Phase Move Exclusive)

/-- Zero in a lock word names nobody. -/
def nonzero {α : Type*} [DecidableEq α] [OfNat α 0] (x : α) : Option α :=
  if x = 0 then none else some x

@[simp] theorem nonzero_zero {α : Type*} [DecidableEq α] [OfNat α 0] :
    nonzero (0 : α) = none := by simp [nonzero]

theorem nonzero_of_ne {α : Type*} [DecidableEq α] [OfNat α 0] {x : α} (h : x ≠ 0) :
    nonzero x = some x := by simp [nonzero, h]

/-- Compare-and-swap of a word to zero, seen through `nonzero`. -/
theorem nonzero_clear {α : Type*} [DecidableEq α] [OfNat α 0] (x c : α) :
    nonzero (if x = c then 0 else x) =
      if nonzero x = some c then none else nonzero x := by
  by_cases hx : x = 0
  · simp [nonzero, hx]
  · by_cases hc : x = c <;> simp_all [nonzero]

theorem nonzero_inj {α : Type*} [DecidableEq α] [OfNat α 0] {x y : α} :
    nonzero x = nonzero y ↔ x = y := by
  unfold nonzero
  split <;> split <;> simp_all [eq_comm]

def Lock.words (l : Lock) : Words UInt32 UInt64 :=
  ⟨nonzero l.writerClaim, nonzero l.writerPid, nonzero l.writerStartTime⟩

def ClaimPc.phase : ClaimPc → Phase UInt32 UInt64
  | claimLoad _ | claimantExists _ _ | claimSet _ => .out
  | claimClear _ claimant => .clearing claimant
  | ownerLoad | claimDrop => .claimed
  | startLoad owner => .sawOwner owner
  | ownerAlive owner start => .sawStamp owner (nonzero start)
  | startStore => .free
  | pidStore => .stamped

def OwnerPc.phase : OwnerPc → Phase UInt32 UInt64
  | claimRelease => .publishing
  | _ => .owning

def Pc.phase : Pc → Phase UInt32 UInt64
  | idle | reading _ _ _ => .out
  | claiming _ p => p.phase
  | owning _ p => p.phase

@[simp] theorem Pc.phase_idle : Pc.idle.phase = .out := rfl
@[simp] theorem Pc.phase_reading (idx retries : ℕ) (p : ReadPc) :
    (Pc.reading idx retries p).phase = .out := rfl
@[simp] theorem Pc.phase_claiming (c : Caller) (p : ClaimPc) :
    (Pc.claiming c p).phase = p.phase := rfl
@[simp] theorem Pc.phase_owning (c : Caller) (p : OwnerPc) :
    (Pc.owning c p).phase = p.phase := rfl

@[simp] theorem Caller.phase_resume (c : Caller) : c.resume.phase = .out := by cases c <;> rfl

@[simp] theorem Caller.phase_after (c : Caller) (p : TxPc) : (c.after p).phase = .owning := by
  cases c <;> cases p <;> rfl

variable {A : Type*} [DecidableEq A] (S : Setting A)

/-- The start time of a process, unless the platform does not tell it. -/
def Setting.born (pid : UInt32) : Option UInt64 := nonzero (S.processStartTime pid)

/-- The invariant of the writer lock. -/
def State.LockExclusive (s : State A) : Prop :=
  Exclusive S.pid S.born (fun p => s.processExists p) s.lock.words fun a => (s.pc a).phase

variable {S} {s t : State A} {a : A}

/-- The lock moves a live thread can make. -/
abbrev LockMove (S : Setting A) (s : State A) (a : A) (t : State A) : Prop :=
  Move S.pid S.born (fun p => s.processExists p) a s.lock.words (s.pc a).phase
    t.lock.words (t.pc a).phase

omit [DecidableEq A] in
theorem LockMove.stay (hlock : t.lock = s.lock) (hphase : (t.pc a).phase = (s.pc a).phase) :
    LockMove S s a t := by
  simp only [LockMove, hlock, hphase]
  exact .stay _ _

omit [DecidableEq A] in
/-- Name the words and phases of a move. -/
theorem LockMove.of {w w' : Words UInt32 UInt64} {p p' : Phase UInt32 UInt64}
    (hm : Move S.pid S.born (fun p => s.processExists p) a w p w' p')
    (hw : s.lock.words = w) (hp : (s.pc a).phase = p)
    (hw' : t.lock.words = w') (hp' : (t.pc a).phase = p') : LockMove S s a t := by
  subst hw hp hw' hp'
  exact hm

theorem readStep_lock (idx retries : ℕ) (p : ReadPc) :
    (readStep s a idx retries p).lock = s.lock ∧
      ((readStep s a idx retries p).pc a).phase = .out := by
  cases p with
  | control => simp only [readStep]; split_ifs <;> simp [ClaimPc.phase]
  | word0 c | hash c word0 | value c word0 hash => simp [readStep]
  | check c word0 hash value => simp only [readStep]; split_ifs <;> simp

omit [DecidableEq A] in
theorem judged_dead {owner : UInt32} {start : UInt64}
    (h : ¬ processInstanceAlive S s owner start) :
    ¬ s.processExists owner ∨
      nonzero start ≠ none ∧ S.born owner ≠ none ∧ nonzero start ≠ S.born owner := by
  simp only [processInstanceAlive, Bool.and_eq_true, Bool.or_eq_true, beq_iff_eq, not_and,
    not_or] at h
  by_cases hex : s.processExists owner
  · obtain ⟨⟨hstart, hborn⟩, hne⟩ := h hex
    refine .inr ⟨by simp [nonzero, hstart], by simp [Setting.born, nonzero, hborn], ?_⟩
    rw [Setting.born, Ne, nonzero_inj]
    exact fun e => hne e.symm
  · exact .inl hex

theorem claimStep_move {caller : Caller} {p : ClaimPc} (hpc : s.pc a = .claiming caller p) :
    LockMove S s a (claimStep S s a caller p) := by
  have hphase : (s.pc a).phase = p.phase := by rw [hpc]; rfl
  cases p with
  | claimLoad k =>
      apply LockMove.stay <;> simp only [claimStep] <;> split_ifs <;>
        simp [hphase, ClaimPc.phase]
  | claimantExists k claimant =>
      simp only [claimStep]
      split_ifs with hex
      · exact .stay rfl (by simp [hphase, ClaimPc.phase])
      · exact .of (.suspect _ hex) rfl hphase rfl (by simp [ClaimPc.phase])
  | claimClear k claimant =>
      refine .of (.clear _ claimant) rfl hphase ?_ ?_
      · have hcas : nonzero (if s.lock.writerClaim = claimant then 0 else s.lock.writerClaim) =
            if s.lock.words.claim = some claimant then none else s.lock.words.claim :=
          nonzero_clear _ _
        rw [← hcas]
        simp only [claimStep]
        split_ifs <;> rfl
      · simp only [claimStep]
        split_ifs <;> simp [ClaimPc.phase]
  | claimSet k =>
      simp only [claimStep]
      split_ifs with hclaim
      · exact .of (.claim _ (by simp [Lock.words, hclaim])) rfl hphase
          (by simp [Lock.words, nonzero_of_ne (S.pid_ne_zero a)])
          (by simp [ClaimPc.phase])
      · exact .stay rfl (by simp [hphase, ClaimPc.phase])
  | ownerLoad =>
      simp only [claimStep]
      split_ifs with howner
      · exact .of (.seeNobody _ (by simp [Lock.words, howner])) rfl hphase rfl
          (by simp [ClaimPc.phase])
      · have hseen : s.lock.words.owner = some s.lock.writerPid := nonzero_of_ne howner
        exact .of (.seeOwner _ hseen) rfl hphase rfl (by simp [ClaimPc.phase])
  | startLoad owner =>
      exact .of (.seeStamp _ owner) rfl hphase rfl
        (by simp [claimStep, ClaimPc.phase, Lock.words])
  | ownerAlive owner start =>
      simp only [claimStep]
      split_ifs with halive
      · exact .of (.judgeAlive _ owner (nonzero start)) rfl hphase rfl
          (by simp [ClaimPc.phase])
      · exact .of (.judgeDead _ (judged_dead halive)) rfl hphase rfl
          (by simp [ClaimPc.phase])
  | claimDrop =>
      exact .of (.abandon _) rfl hphase (by simp [claimStep, Lock.words]) (by simp [claimStep])
  | startStore =>
      exact .of (.stamp _) rfl hphase (by simp [claimStep, Lock.words, Setting.born])
        (by simp [claimStep, ClaimPc.phase])
  | pidStore =>
      exact .of (.publish _) rfl hphase
        (by simp [claimStep, Lock.words, nonzero_of_ne (S.pid_ne_zero a)])
        (by simp [claimStep, OwnerPc.phase])

theorem ownerStep_move {caller : Caller} {p : OwnerPc} (hpc : s.pc a = .owning caller p) :
    LockMove S s a (ownerStep S s a caller p) := by
  have hphase : (s.pc a).phase = p.phase := by rw [hpc]; rfl
  cases p with
  | claimRelease =>
      exact .of (.unclaim _) rfl hphase (by simp [ownerStep, Lock.words])
        (by simp [ownerStep, OwnerPc.phase])
  | tx p =>
      have hnext : ((ownerStep S s a caller (.tx p)).pc a).phase = .owning := by simp [ownerStep]
      exact .stay rfl (hnext.trans hphase.symm)
  | dropStart =>
      exact .of (.unstamp _) rfl hphase (by simp [ownerStep, Lock.words])
        (by simp [ownerStep, OwnerPc.phase])
  | dropPid =>
      exact .of (.disown _) rfl hphase (by simp [ownerStep, Lock.words]) (by simp [ownerStep])

theorem advance_move : LockMove S s a (advance S s a) := by
  unfold advance
  split
  · exact .stay rfl rfl
  case h_2 idx retries p hpc =>
    have h := readStep_lock (s := s) (a := a) idx retries p
    exact .stay h.1 (by rw [h.2, hpc]; rfl)
  case h_3 caller p hpc => exact claimStep_move hpc
  case h_4 caller p hpc => exact ownerStep_move hpc

omit [DecidableEq A] in
/-- A call that starts takes no access to the lock. -/
theorem Enters.phase {p : Pc} (h : Enters S s a p) : p.phase = (s.pc a).phase := by
  cases h with
  | read hpc _ | acquire hpc => rw [hpc]; rfl
  | update hpc _ | release hpc => rw [hpc]; rfl

omit [DecidableEq A] in
theorem lockExclusive_initial : (State.initial : State A).LockExclusive S :=
  Exclusive.initial

theorem step_lockExclusive {act : Action A} (h : s.LockExclusive S)
    (hstep : step S s act = some t) : t.LockExclusive S := by
  obtain ⟨b, p, halive, hp, rfl⟩ | ⟨b, rfl, halive, rfl⟩ | ⟨q, rfl⟩ := step_cases hstep
  · have hphase : (fun c => ((s.goto b p).pc c).phase) = fun c => (s.pc c).phase := by
      funext c
      by_cases hc : c = b
      · subst hc; simp [hp.phase]
      · simp [hc]
    unfold State.LockExclusive
    rw [hphase]
    exact h
  · have hmove := h.move (processExists_pid halive) (advance_move (s := s))
    have hphase : (fun c => ((advance S s b).pc c).phase) =
        Function.update (fun c => (s.pc c).phase) b ((advance S s b).pc b).phase := by
      funext c
      by_cases hc : c = b
      · subst hc; simp
      · simp [hc, advance_pc_other hc]
    unfold State.LockExclusive State.processExists
    rw [hphase, advance_alive]
    exact hmove
  · refine h.mono fun r hr => ?_
    simp only [State.processExists, Function.update_apply, Bool.and_eq_true] at hr ⊢
    refine ⟨hr.1, ?_⟩
    by_cases hrq : r = q
    · simp [hrq] at hr
    · simpa [hrq] using hr.2

omit [DecidableEq A] in
/-- Two live threads never own the slot array at once. -/
theorem owner_unique (h : s.LockExclusive S) {b : A} {c d : Caller} {p q : OwnerPc}
    (ha : s.alive (S.pid a)) (hb : s.alive (S.pid b))
    (hpa : s.pc a = .owning c p) (hpb : s.pc b = .owning d q) : a = b := by
  have howns : ∀ r : OwnerPc, r.phase.Owns := by intro r; cases r <;> trivial
  exact h.owner_unique a b (processExists_pid ha) (processExists_pid hb)
    (by simp [hpa, howns]) (by simp [hpb, howns])

end Probing.Memh
