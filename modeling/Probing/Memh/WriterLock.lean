import Mathlib.Data.Fintype.Basic
import Probing.Memh.SlotProtocol

/-!
# The writer lock among processes that come and go

`acquire_writer` and the guard's `drop` with process ids that are given to new processes. The
lock stores ids and one start time, so it may take a new process for a dead one. The slot
transactions of the owner are those of the slot protocol.
-/

namespace Probing.Memh.WriterLock

/-- The threads, the process each belongs to, and the id and start time of each process. Process
id 0 names no process; start time 0 is one the platform does not tell. -/
structure Setting (A P : Type*) extends Geometry where
  proc : A → P
  pid : P → UInt32
  pid_ne_zero : ∀ p, pid p ≠ 0
  startTime : P → UInt64

inductive Pc where
  | idle
  | claiming (p : ClaimPc)
  | owning (p : OwnerPc)
  deriving DecidableEq

/-- The caller of `acquire_writer` has the guard and is not inside an update. -/
def Pc.held : Pc := .owning (.tx .held)

/-- Table, lock and threads; `running` is the live process with a process id. -/
structure State (A P : Type*) where
  store : Store
  lock : Lock
  running : UInt32 → Option P
  /-- The processes that have been started, dead ones included. -/
  started : P → Bool
  pc : A → Pc

inductive Action (A P : Type*) where
  | acquire (a : A)
  | update (a : A) (idx : ℕ) (u : SlotUpdate)
  | release (a : A)
  | step (a : A)
  | start (p : P)
  | die (p : P)
  deriving DecidableEq

section Step

variable {A P : Type*} [DecidableEq A] [DecidableEq P] (S : Setting A P)

def State.initial : State A P where
  store := .initial
  lock := ⟨0, 0, 0⟩
  running := fun _ => none
  started := fun _ => false
  pc := fun _ => .idle

def State.goto (s : State A P) (a : A) (p : Pc) : State A P :=
  { s with pc := Function.update s.pc a p }

/-- The process of the thread is running. -/
def State.Live (s : State A P) (a : A) : Prop :=
  s.running (S.pid (S.proc a)) = some (S.proc a)

instance (s : State A P) (a : A) : Decidable (s.Live S a) :=
  inferInstanceAs (Decidable (_ = _))

def State.processExists (s : State A P) (pid : UInt32) : Bool :=
  pid != 0 && (s.running pid).isSome

def State.processStartTime (s : State A P) (pid : UInt32) : UInt64 :=
  ((s.running pid).map S.startTime).getD 0

/-- One truthful answer about the process that now has the id. -/
def State.processInstanceAlive (s : State A P) (pid : UInt32) (expected : UInt64) : Bool :=
  s.processExists pid &&
    (expected == 0 || s.processStartTime S pid == 0 || s.processStartTime S pid == expected)

/-- One step of `acquire_writer` before the lock is owned. -/
def claimStep (s : State A P) (a : A) : ClaimPc → State A P
  | .claimLoad k =>
      if k = 64 then s.goto a .idle
      else if s.lock.writerClaim = 0 then s.goto a (.claiming (.claimSet k))
      else s.goto a (.claiming (.claimantExists k s.lock.writerClaim))
  | .claimantExists k claimant =>
      if s.processExists claimant then s.goto a .idle
      else s.goto a (.claiming (.claimClear k claimant))
  | .claimClear k claimant =>
      let next := s.goto a (.claiming (.claimLoad (k + 1)))
      if s.lock.writerClaim = claimant then
        { next with lock := { s.lock with writerClaim := 0 } }
      else next
  | .claimSet k =>
      if s.lock.writerClaim = 0 then
        { s.goto a (.claiming .ownerLoad) with
          lock := { s.lock with writerClaim := S.pid (S.proc a) } }
      else s.goto a (.claiming (.claimLoad (k + 1)))
  | .ownerLoad =>
      if s.lock.writerPid = 0 then s.goto a (.claiming .startStore)
      else s.goto a (.claiming (.startLoad s.lock.writerPid))
  | .startLoad owner => s.goto a (.claiming (.ownerAlive owner s.lock.writerStartTime))
  | .ownerAlive owner start =>
      if s.processInstanceAlive S owner start then s.goto a (.claiming .claimDrop)
      else s.goto a (.claiming .startStore)
  | .claimDrop => { s.goto a .idle with lock := { s.lock with writerClaim := 0 } }
  | .startStore =>
      { s.goto a (.claiming .pidStore) with
        lock := { s.lock with writerStartTime := s.processStartTime S (S.pid (S.proc a)) } }
  | .pidStore =>
      { s.goto a (.owning .claimRelease) with
        lock := { s.lock with writerPid := S.pid (S.proc a) } }

/-- After a step of the transaction: a refused recovery drops the guard at once. -/
def afterTx : TxPc → OwnerPc
  | .refused => .dropStart
  | p => .tx p

/-- One step of the lock owner. -/
def ownerStep (s : State A P) (a : A) : OwnerPc → State A P
  | .claimRelease =>
      { s.goto a (.owning (.tx .journalState)) with lock := { s.lock with writerClaim := 0 } }
  | .tx p =>
      let (store, next) := transact S.toGeometry s.store p
      { s.goto a (.owning (afterTx next)) with store }
  | .dropStart =>
      { s.goto a (.owning .dropPid) with lock := { s.lock with writerStartTime := 0 } }
  | .dropPid => { s.goto a .idle with lock := { s.lock with writerPid := 0 } }

/-- One step of a thread inside one of the functions. -/
def advance (s : State A P) (a : A) : State A P :=
  match s.pc a with
  | .idle => s
  | .claiming p => claimStep S s a p
  | .owning p => ownerStep S s a p

/-- One step of the system. Only threads of running processes act, an id names one process at a
time, and a process starts once. -/
def step (s : State A P) : Action A P → Option (State A P)
  | .acquire a =>
      if s.Live S a ∧ s.pc a = .idle then some (s.goto a (.claiming (.claimLoad 0))) else none
  | .update a idx u =>
      if s.Live S a ∧ s.pc a = .held ∧ idx < S.numBuckets then
        some (s.goto a (.owning (.tx (.beginLoad idx u 0)))) else none
  | .release a =>
      if s.Live S a ∧ s.pc a = .held then some (s.goto a (.owning .dropStart)) else none
  | .step a => if s.Live S a then some (advance S s a) else none
  | .start p =>
      if s.running (S.pid p) = none ∧ s.started p = false then
        some { s with
          running := Function.update s.running (S.pid p) (some p)
          started := Function.update s.started p true }
      else none
  | .die p =>
      if s.running (S.pid p) = some p then
        some { s with running := Function.update s.running (S.pid p) none }
      else none

end Step

namespace Pc

/-- Inside the guarded section, from the store of `writer_pid` to the one that clears it. -/
def inside : Pc → Bool
  | owning _ => true
  | _ => false

/-- Holds the claim word. -/
def claims : Pc → Bool
  | claiming (.claimLoad _) | claiming (.claimantExists _ _) | claiming (.claimClear _ _)
  | claiming (.claimSet _) => false
  | claiming _ | owning .claimRelease => true
  | _ => false

/-- About to clear the claim of `claimant`, which was found dead. -/
def clearing : Pc → Option UInt32
  | claiming (.claimClear _ claimant) => some claimant
  | _ => none

end Pc

/-- A call on the lock: threads enter `acquire_writer` and run, nothing else happens. -/
def Action.call {A P : Type*} : Action A P → Bool
  | .acquire _ | .step _ => true
  | _ => false

section Promise

variable {A P : Type*} [DecidableEq A] [DecidableEq P] (S : Setting A P)

/-- What the lock promises in every state. -/
structure State.Safe (s : State A P) : Prop where
  exclusive : ∀ a b, s.Live S a → s.Live S b → (s.pc a).inside → (s.pc b).inside → a = b
  claim_kept : ∀ a, s.Live S a → (s.pc a).claims → s.lock.writerClaim = S.pid (S.proc a)
  owner_kept : ∀ a, s.Live S a → (s.pc a).inside → s.lock.writerPid = S.pid (S.proc a)
  /-- With no live owner, calls of live threads alone lead to one that succeeds. -/
  acquirable : (∀ a, s.Live S a → ¬ (s.pc a).inside) → (∃ a, s.Live S a) →
    ∃ acts t b, (∀ act ∈ acts, act.call) ∧ Core.exec (step S) s acts = some t ∧ t.Live S b ∧
      t.pc b = .held

/-- A stored start time tells a process from the one it was stored for. -/
def TellsApart (stored actual : UInt64) : Prop := stored ≠ 0 ∧ actual ≠ 0 ∧ stored ≠ actual

instance (stored actual : UInt64) : Decidable (TellsApart stored actual) :=
  inferInstanceAs (Decidable (_ ∧ _ ∧ _))

/-- The steps that take no process for another one. A process that starts does not get an id that
a live thread has found dead and is about to clear, nor the id in the claim word, nor, unless the
stored start time tells the two apart or an owner is about to be published, the id of the last
owner; and a thread that dies between its two stores leaves a start time that tells its process
from the one that now has the id of the last owner. -/
def Distinct (s : State A P) : Action A P → Prop
  | .start p => (∀ a, s.Live S a → (s.pc a).clearing ≠ some (S.pid p)) ∧
      s.lock.writerClaim ≠ S.pid p ∧
      (s.lock.writerPid = S.pid p →
        TellsApart s.lock.writerStartTime (S.startTime p) ∨
          ∃ a, s.Live S a ∧ s.pc a = .claiming .pidStore)
  | .die p => (∃ a, S.proc a = p ∧ s.pc a = .claiming .pidStore) →
      ∀ q ∈ s.running s.lock.writerPid, q = p ∨ TellsApart (S.startTime p) (S.startTime q)
  | _ => True

instance [Fintype A] (s : State A P) (act : Action A P) : Decidable (Distinct S s act) := by
  cases act <;> unfold Distinct <;> infer_instance

end Promise

end Probing.Memh.WriterLock
