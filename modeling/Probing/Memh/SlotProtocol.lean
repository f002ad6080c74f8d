import Probing.Core.Run
import Probing.Memh.SlotTransaction

/-!
# The slot protocol of processes that crash

Threads of any number of processes read slots, acquire the writer lock and
update slots, one atomic load or store at a time. A process may die between any
two steps; process ids are not reused. The reads a writer makes while it holds
the lock are the reads of another thread of its process.
-/

namespace Probing.Memh

/-- The threads, the process each belongs to and the start time of each process.
Process id 0 names no process. -/
structure Setting (A : Type*) extends Geometry where
  pid : A → UInt32
  pid_ne_zero : ∀ a, pid a ≠ 0
  processStartTime : UInt32 → UInt64

/-- The words of the writer lock. -/
structure Lock where
  writerPid : UInt32
  writerStartTime : UInt64
  writerClaim : UInt32
  deriving DecidableEq, Repr

/-- The caller of `acquire_writer`: a writer keeps the lock, a spinning reader
drops it at once and reads on. -/
inductive Caller where
  | writer
  | reader (idx retries : ℕ)
  deriving DecidableEq, Repr

/-- Program counter inside `read_slot`, with the words loaded so far. -/
inductive ReadPc where
  | control
  | word0 (c : UInt64)
  | hash (c word0 : UInt64)
  | value (c word0 hash : UInt64)
  | check (c word0 hash value : UInt64)
  deriving DecidableEq, Repr

/-- Program counter inside `acquire_writer` up to the store of `writer_pid`;
`k` counts the attempts. -/
inductive ClaimPc where
  | claimLoad (k : ℕ)
  | claimantExists (k : ℕ) (claimant : UInt32)
  | claimClear (k : ℕ) (claimant : UInt32)
  | claimSet (k : ℕ)
  | ownerLoad
  | startLoad (owner : UInt32)
  | ownerAlive (owner : UInt32) (start : UInt64)
  | claimDrop
  | startStore
  | pidStore
  deriving DecidableEq, Repr

/-- Program counter from the store of `writer_pid` to the end of the guard's
`drop`. -/
inductive OwnerPc where
  | claimRelease
  | tx (p : TxPc)
  | dropStart
  | dropPid
  deriving DecidableEq

inductive Pc where
  | idle
  | reading (idx retries : ℕ) (p : ReadPc)
  | claiming (caller : Caller) (p : ClaimPc)
  | owning (caller : Caller) (p : OwnerPc)
  deriving DecidableEq

/-- Table, lock, processes and threads. `returned` records what the calls of
`read_slot` have returned; the code does not store it. -/
structure State (A : Type*) where
  store : Store
  lock : Lock
  alive : UInt32 → Bool
  pc : A → Pc
  returned : List (ℕ × Image)

inductive Action (A : Type*) where
  | read (a : A) (idx : ℕ)
  | acquire (a : A)
  | update (a : A) (idx : ℕ) (u : SlotUpdate)
  | release (a : A)
  | step (a : A)
  | die (pid : UInt32)
  deriving DecidableEq

def Pc.held : Pc := .owning .writer (.tx .held)

/-- Where a caller continues when the lock is not, or no longer, its own. -/
def Caller.resume : Caller → Pc
  | writer => .idle
  | reader idx retries => .reading idx retries .control

section Step

variable {A : Type*} [DecidableEq A] (S : Setting A)

def State.initial : State A where
  store := .initial
  lock := ⟨0, 0, 0⟩
  alive := fun _ => true
  pc := fun _ => .idle
  returned := []

def State.goto (s : State A) (a : A) (p : Pc) : State A :=
  { s with pc := Function.update s.pc a p }

@[simp] theorem State.gotoPc (s : State A) (a : A) (p : Pc) :
    (s.goto a p).pc = Function.update s.pc a p := rfl
theorem State.gotoPc_self (s : State A) (a : A) (p : Pc) : (s.goto a p).pc a = p := by simp
@[simp] theorem State.goto_store (s : State A) (a : A) (p : Pc) :
    (s.goto a p).store = s.store := rfl
@[simp] theorem State.goto_lock (s : State A) (a : A) (p : Pc) : (s.goto a p).lock = s.lock := rfl
@[simp] theorem State.goto_alive (s : State A) (a : A) (p : Pc) :
    (s.goto a p).alive = s.alive := rfl
@[simp] theorem State.goto_returned (s : State A) (a : A) (p : Pc) :
    (s.goto a p).returned = s.returned := rfl

def State.processExists (s : State A) (pid : UInt32) : Bool := pid != 0 && s.alive pid

def processInstanceAlive (s : State A) (pid : UInt32) (expected : UInt64) : Bool :=
  s.processExists pid &&
    (expected == 0 || S.processStartTime pid == 0 || S.processStartTime pid == expected)

/-- One step of `read_slot`. -/
def readStep (s : State A) (a : A) (idx retries : ℕ) : ReadPc → State A
  | .control =>
      let c := s.store.load (slotOffset idx) 2
      if isOdd c then
        if 64 ≤ retries ∧ retries % 1024 = 64 then
          s.goto a (.claiming (.reader idx (retries + 1)) (.claimLoad 0))
        else s.goto a (.reading idx (retries + 1) .control)
      else s.goto a (.reading idx retries (.word0 c))
  | .word0 c => s.goto a (.reading idx retries (.hash c (s.store.load (slotOffset idx) 0)))
  | .hash c word0 =>
      s.goto a (.reading idx retries (.value c word0 (s.store.load (slotOffset idx) 1)))
  | .value c word0 hash =>
      s.goto a (.reading idx retries (.check c word0 hash (s.store.load (slotOffset idx) 3)))
  | .check c word0 hash value =>
      if c = s.store.load (slotOffset idx) 2 then
        { s.goto a .idle with returned := (idx, ⟨word0, hash, c, value⟩) :: s.returned }
      else s.goto a (.reading idx retries .control)

/-- One step of `acquire_writer` before the lock is owned. -/
def claimStep (s : State A) (a : A) (caller : Caller) : ClaimPc → State A
  | .claimLoad k =>
      if k = 64 then s.goto a caller.resume
      else if s.lock.writerClaim = 0 then s.goto a (.claiming caller (.claimSet k))
      else s.goto a (.claiming caller (.claimantExists k s.lock.writerClaim))
  | .claimantExists k claimant =>
      if s.processExists claimant then s.goto a caller.resume
      else s.goto a (.claiming caller (.claimClear k claimant))
  | .claimClear k claimant =>
      let next := s.goto a (.claiming caller (.claimLoad (k + 1)))
      if s.lock.writerClaim = claimant then
        { next with lock := { s.lock with writerClaim := 0 } }
      else next
  | .claimSet k =>
      if s.lock.writerClaim = 0 then
        { s.goto a (.claiming caller .ownerLoad) with
          lock := { s.lock with writerClaim := S.pid a } }
      else s.goto a (.claiming caller (.claimLoad (k + 1)))
  | .ownerLoad =>
      if s.lock.writerPid = 0 then s.goto a (.claiming caller .startStore)
      else s.goto a (.claiming caller (.startLoad s.lock.writerPid))
  | .startLoad owner =>
      s.goto a (.claiming caller (.ownerAlive owner s.lock.writerStartTime))
  | .ownerAlive owner start =>
      if processInstanceAlive S s owner start then s.goto a (.claiming caller .claimDrop)
      else s.goto a (.claiming caller .startStore)
  | .claimDrop =>
      { s.goto a caller.resume with lock := { s.lock with writerClaim := 0 } }
  | .startStore =>
      { s.goto a (.claiming caller .pidStore) with
        lock := { s.lock with writerStartTime := S.processStartTime (S.pid a) } }
  | .pidStore =>
      { s.goto a (.owning caller .claimRelease) with
        lock := { s.lock with writerPid := S.pid a } }

/-- What the owner does next: a writer at rest waits for its caller, everyone
else goes on, and a recovered reader or a refused owner drops the guard. -/
def Caller.after : Caller → TxPc → OwnerPc
  | _, .refused => .dropStart
  | .reader _ _, .held => .dropStart
  | _, p => .tx p

/-- One step of the lock owner. -/
def ownerStep (s : State A) (a : A) (caller : Caller) : OwnerPc → State A
  | .claimRelease =>
      { s.goto a (.owning caller (.tx .journalState)) with
        lock := { s.lock with writerClaim := 0 } }
  | .tx p =>
      let (store, next) := transact S.toGeometry s.store p
      { s.goto a (.owning caller (caller.after next)) with store }
  | .dropStart =>
      { s.goto a (.owning caller .dropPid) with lock := { s.lock with writerStartTime := 0 } }
  | .dropPid =>
      { s.goto a caller.resume with lock := { s.lock with writerPid := 0 } }

/-- One step of a thread inside one of the functions. -/
def advance (s : State A) (a : A) : State A :=
  match s.pc a with
  | .idle => s
  | .reading idx retries p => readStep s a idx retries p
  | .claiming caller p => claimStep S s a caller p
  | .owning caller p => ownerStep S s a caller p

/-- One step of the system; only threads of live processes act. -/
def step (s : State A) : Action A → Option (State A)
  | .read a idx =>
      if s.alive (S.pid a) ∧ s.pc a = .idle ∧ idx < S.numBuckets then
        some (s.goto a (.reading idx 0 .control)) else none
  | .acquire a =>
      if s.alive (S.pid a) ∧ s.pc a = .idle then
        some (s.goto a (.claiming .writer (.claimLoad 0))) else none
  | .update a idx u =>
      if s.alive (S.pid a) ∧ s.pc a = .held ∧ idx < S.numBuckets then
        some (s.goto a (.owning .writer (.tx (.beginLoad idx u 0)))) else none
  | .release a =>
      if s.alive (S.pid a) ∧ s.pc a = .held then
        some (s.goto a (.owning .writer .dropStart)) else none
  | .step a => if s.alive (S.pid a) then some (advance S s a) else none
  | .die pid => some { s with alive := Function.update s.alive pid false }

/-- A thread at rest, or at rest with the lock, enters a function. -/
inductive Enters (s : State A) (a : A) : Pc → Prop where
  | read {idx : ℕ} (hpc : s.pc a = .idle) (hidx : idx < S.numBuckets) :
      Enters s a (.reading idx 0 .control)
  | acquire (hpc : s.pc a = .idle) : Enters s a (.claiming .writer (.claimLoad 0))
  | update {idx : ℕ} {u : SlotUpdate} (hpc : s.pc a = .held) (hidx : idx < S.numBuckets) :
      Enters s a (.owning .writer (.tx (.beginLoad idx u 0)))
  | release (hpc : s.pc a = .held) : Enters s a (.owning .writer .dropStart)

variable {S}

/-- Every step is a call that starts, an access of a running call or a death. -/
theorem step_cases {s t : State A} {act : Action A} (h : step S s act = some t) :
    (∃ a p, s.alive (S.pid a) ∧ Enters S s a p ∧ t = s.goto a p) ∨
      (∃ a, act = .step a ∧ s.alive (S.pid a) ∧ t = advance S s a) ∨
      ∃ pid, t = { s with alive := Function.update s.alive pid false } := by
  cases act with
  | read a idx =>
      obtain ⟨⟨halive, hpc, hidx⟩, ⟨⟩⟩ := Option.ite_none_right_eq_some.mp h
      exact .inl ⟨a, _, halive, .read hpc hidx, rfl⟩
  | acquire a =>
      obtain ⟨⟨halive, hpc⟩, ⟨⟩⟩ := Option.ite_none_right_eq_some.mp h
      exact .inl ⟨a, _, halive, .acquire hpc, rfl⟩
  | update a idx u =>
      obtain ⟨⟨halive, hpc, hidx⟩, ⟨⟩⟩ := Option.ite_none_right_eq_some.mp h
      exact .inl ⟨a, _, halive, .update hpc hidx, rfl⟩
  | release a =>
      obtain ⟨⟨halive, hpc⟩, ⟨⟩⟩ := Option.ite_none_right_eq_some.mp h
      exact .inl ⟨a, _, halive, .release hpc, rfl⟩
  | step a =>
      obtain ⟨halive, ⟨⟩⟩ := Option.ite_none_right_eq_some.mp h
      exact .inr (.inl ⟨a, rfl, halive, rfl⟩)
  | die pid => exact .inr (.inr ⟨pid, (Option.some.inj h).symm⟩)

theorem advance_frame (s : State A) (a : A) :
    (advance S s a).alive = s.alive ∧ ∀ b, b ≠ a → (advance S s a).pc b = s.pc b := by
  unfold advance
  split
  · exact ⟨rfl, fun _ _ => rfl⟩
  case h_2 p _ =>
    cases p <;> simp only [readStep] <;> (try split_ifs) <;> simp +contextual
  case h_3 p _ =>
    cases p <;> simp only [claimStep] <;> (try split_ifs) <;> simp +contextual
  case h_4 p _ => cases p <;> simp +contextual [ownerStep]

@[simp] theorem advance_alive (s : State A) (a : A) : (advance S s a).alive = s.alive :=
  (advance_frame s a).1

theorem advance_pc_other {s : State A} {a b : A} (h : b ≠ a) :
    (advance S s a).pc b = s.pc b :=
  (advance_frame s a).2 b h

omit [DecidableEq A] in
theorem processExists_pid {s : State A} {a : A} (h : s.alive (S.pid a)) :
    s.processExists (S.pid a) := by
  simp [State.processExists, S.pid_ne_zero a, h]

end Step

end Probing.Memh
