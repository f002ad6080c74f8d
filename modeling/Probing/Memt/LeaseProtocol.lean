import Mathlib.Algebra.Order.Ring.Int
import Probing.Core.LeaseSlot
import Probing.Core.Run
import Probing.Memt.Schema

/-!
# Reader pins against the ring writer

Tasks of any number of processes pin and release chunks while the single writer
appends rows and recycles chunks, one atomic access at a time. Processes die and
their ids are reused by processes with other start times. A task stands for one
pin: a thread that holds several pins is several tasks of its process. The row
counters, timestamp ranges and header statistics take no part in the handshake.
-/

namespace Probing.Memt.Lease

open Probing.Core.LeaseSlot (Slot Names World Phase)

/-- The table, the process instances and the tasks each of them runs. -/
structure Setting (Task Inst : Type*) where
  numChunks : ℕ
  num_chunks_pos : 0 < numChunks
  chunkSize : ℕ
  leaseSlots : ℕ
  pid : Inst → UInt32
  startTime : Inst → UInt64
  start_time_ne : ∀ i j, pid i = pid j → startTime i = startTime j → i = j
  inst : Task → Inst
  writer : Inst

variable {Task Inst : Type*}

/-- The scan of the writer is an agent of its own, `none`. -/
def Setting.names (S : Setting Task Inst) : Names UInt32 UInt64 Inst (Option Task) where
  pid := S.pid
  born := S.startTime
  inst
    | some τ => S.inst τ
    | none => S.writer
  born_ne := S.start_time_ne

/-- The instance running under each process id, and all instances so far. -/
structure Processes (S : Setting Task Inst) where
  occupant : UInt32 → Option Inst
  spawned : Inst → Bool
  named : ∀ p i, occupant p = some i → S.pid i = p
  known : ∀ p i, occupant p = some i → spawned i

namespace Processes

variable {S : Setting Task Inst} (P : Processes S)

def Running (i : Inst) : Prop := P.occupant (S.pid i) = some i

instance [DecidableEq Inst] (i : Inst) : Decidable (P.Running i) :=
  inferInstanceAs (Decidable (_ = _))

def world : World S.names where
  running := P.Running
  spawned i := P.spawned i
  running_spawned i h := P.known _ i h
  running_unique i j hi hj hpid := Option.some.inj <| by
    have hpid' : S.pid i = S.pid j := hpid
    rw [← show P.occupant (S.pid i) = some i from hi, hpid']
    exact hj

variable [DecidableEq Inst]

/-- A new process takes a free process id. -/
def spawn (i : Inst) : Processes S where
  occupant := Function.update P.occupant (S.pid i) (some i)
  spawned := Function.update P.spawned i true
  named p j h := by
    by_cases hp : p = S.pid i
    · subst hp
      simp only [Function.update_self, Option.some.injEq] at h
      rw [h]
    · rw [Function.update_of_ne hp] at h
      exact P.named p j h
  known p j h := by
    by_cases hj : j = i
    · simp [hj]
    · rw [Function.update_of_ne hj]
      by_cases hp : p = S.pid i
      · subst hp
        simp only [Function.update_self, Option.some.injEq] at h
        exact absurd h.symm hj
      · rw [Function.update_of_ne hp] at h
        exact P.known p j h

def die (i : Inst) : Processes S where
  occupant := Function.update P.occupant (S.pid i) none
  spawned := P.spawned
  named p j h := by
    by_cases hp : p = S.pid i
    · simp [hp] at h
    · rw [Function.update_of_ne hp] at h
      exact P.named p j h
  known p j h := by
    by_cases hp : p = S.pid i
    · simp [hp] at h
    · rw [Function.update_of_ne hp] at h
      exact P.known p j h

omit [DecidableEq Inst]

def processExists (pid : UInt32) : Bool := (P.occupant pid).isSome

def processStartTime (pid : UInt32) : UInt64 := ((P.occupant pid).map S.startTime).getD 0

def processInstanceAlive (pid : UInt32) (expected : UInt64) : Bool :=
  P.processExists pid &&
    (expected == 0 || P.processStartTime pid == 0 || P.processStartTime pid == expected)

end Processes

/-- The part of a chunk a pin protects, and its lifecycle state. -/
structure Chunk where
  generation : UInt64
  used : ℕ
  state : ChunkState
  bytes : ℕ → UInt8

/-- A word of a lease slot with the slot's epoch at the time of the load. -/
structure Seen where
  owner : UInt32
  refs : ℕ
  epoch : ℕ
  deriving DecidableEq

def Seen.word (w : Seen) : UInt32 × ℕ := (w.owner, w.refs)

/-- Program counter inside `acquire_process_lease` at one slot. -/
inductive AcquirePc where
  | load
  /-- The word names this process. -/
  | ownStart (w : Seen)
  | ownCompare (w : Seen) (recorded : UInt64)
  | ownClear (w : Seen)
  | ownJoin (w : Seen)
  | claim
  | claimStart
  | claimFinish
  /-- The word names another process, or a claim under way. -/
  | claimantExists (w : Seen)
  | ownerStart (w : Seen)
  | ownerAlive (w : Seen) (start : UInt64)
  | clear (w : Seen)
  deriving DecidableEq

/-- Program counter inside `chunk_has_live_leases` at one slot. -/
inductive ScanPc where
  | load
  | start (w : Seen)
  | alive (w : Seen) (start : UInt64)
  | clear (w : Seen)
  deriving DecidableEq

/-- One round of `pin_chunk`. -/
structure PinCall where
  chunk : ℕ
  attempt : ℕ
  stateBefore : ChunkState
  generationBefore : UInt64
  deriving DecidableEq

/-- Program counter of a task. A pin carries the generation and the extent
`pin_chunk` returned, and the bytes below the extent at that moment. A release
goes on with another round of `pin_chunk` or returns. -/
inductive TaskPc where
  | idle
  | stateBefore (chunk attempt : ℕ)
  | generationBefore (chunk attempt : ℕ) (stateBefore : ChunkState)
  | acquire (call : PinCall) (slot : ℕ) (p : AcquirePc)
  | stateAfter (call : PinCall) (slot : ℕ)
  | generationAfter (call : PinCall) (slot : ℕ) (state_after : ChunkState)
  | usedLoad (call : PinCall) (slot : ℕ) (generation : UInt64)
  | pinned (chunk slot : ℕ) (generation : UInt64) (used : ℕ) (bytes : ℕ → UInt8)
  | releaseLoad (chunk slot : ℕ) (retry : Option ℕ)
  | releaseSwap (chunk slot : ℕ) (w : UInt32 × ℕ) (retry : Option ℕ)

/-- Program counter of the writer, in `write_row_bytes` or
`advance_chunk_raw_detailed`. -/
inductive WriterPc where
  | idle
  | appendByte (row : List UInt8) (i : ℕ)
  | previousState
  | storeEmpty (previous : ChunkState)
  | scan (previous : ChunkState) (attempt slot : ℕ) (live : Bool) (p : ScanPc)
  | restore (previous : ChunkState)
  | sealCurrent
  | generation
  | used
  | writing
  | writeChunk

structure State (S : Setting Task Inst) where
  chunk : ℕ → Chunk
  lease : ℕ → ℕ → Slot UInt32 UInt64 Inst (Option Task)
  writeChunk : ℕ
  procs : Processes S
  task : Task → TaskPc
  writer : WriterPc
  /-- Some swap has cleared the lease of a running process with a positive
  count; the code does not store this. -/
  wronged : Bool

inductive Action (Task Inst : Type*) where
  | pin (τ : Task) (chunk : ℕ)
  | unpin (τ : Task)
  | task (τ : Task)
  | append (row : List UInt8)
  | advance
  | writer
  | spawn (i : Inst)
  | die (i : Inst)

section Step

variable [DecidableEq Task] [DecidableEq Inst] {S : Setting Task Inst}

/-- The effect of an access on the slot, and where `acquire_process_lease` goes. -/
inductive AcquireNext where
  | goto (p : AcquirePc)
  | nextSlot
  | acquired
  | exhausted

abbrev ReaderLease (Task Inst : Type*) := Slot UInt32 UInt64 Inst (Option Task)

def seenAt (l : ReaderLease Task Inst) (w : UInt32 × ℕ) : Seen := ⟨w.1, w.2, l.epoch⟩

/-- Compare-and-swap of the word `w` to zero. -/
def clearSwap (l : ReaderLease Task Inst) (w : Seen) : ReaderLease Task Inst :=
  if l.word = some w.word then l.reclaim else l

/-- One step of `acquire_process_lease` for task `τ` at one slot. -/
def acquireStep (P : Processes S) (τ : Task) (l : ReaderLease Task Inst) :
    AcquirePc → ReaderLease Task Inst × AcquireNext
  | .load =>
      (l, .goto (match l.word with
        | none => .claim
        | some w =>
            if w.1 = S.pid (S.inst τ) ∧ 0 < w.2 then .ownStart (seenAt l w)
            else if w.2 = 0 then .claimantExists (seenAt l w)
            else .ownerStart (seenAt l w)))
  | .ownStart w => (l, .goto (.ownCompare w l.start))
  | .ownCompare w recorded =>
      let startTime := S.startTime (S.inst τ)
      (l, if recorded ≠ startTime then
            if recorded ≠ 0 ∧ startTime ≠ 0 then .goto (.ownClear w) else .nextSlot
          else if w.refs = 2 ^ 32 - 1 then .exhausted else .goto (.ownJoin w))
  | .ownClear w => (clearSwap l w, .goto .load)
  | .ownJoin w =>
      if l.word = some w.word then (l.join (some τ) w.word, .acquired) else (l, .goto .load)
  | .claim =>
      if l.word = none then (l.claim S.names (some τ), .goto .claimStart) else (l, .goto .load)
  | .claimStart => (l.stamp S.names (some τ), .goto .claimFinish)
  | .claimFinish =>
      if l.word = some (S.pid (S.inst τ), 0) then (l.complete S.names (some τ), .acquired)
      else (l, .nextSlot)
  | .claimantExists w => (l, if P.processExists w.owner then .nextSlot else .goto (.clear w))
  | .ownerStart w => (l, .goto (.ownerAlive w l.start))
  | .ownerAlive w start =>
      (l, if P.processInstanceAlive w.owner start then .nextSlot else .goto (.clear w))
  | .clear w => (clearSwap l w, .goto .load)

/-- Where `chunk_has_live_leases` goes after an access: on at the slot, or to the
next slot, having found a live owner or not. -/
inductive ScanNext where
  | goto (p : ScanPc)
  | nextSlot (live : Bool)

/-- One step of `chunk_has_live_leases` at one slot. -/
def scanStep (P : Processes S) (l : ReaderLease Task Inst) :
    ScanPc → ReaderLease Task Inst × ScanNext
  | .load =>
      (l, match l.word with
        | none => .nextSlot false
        | some w => .goto (.start (seenAt l w)))
  | .start w => (l, .goto (.alive w l.start))
  | .alive w start =>
      (l, if (w.refs = 0 ∧ P.processExists w.owner) ∨
            (0 < w.refs ∧ P.processInstanceAlive w.owner start) then .nextSlot true
          else .goto (.clear w))
  | .clear w =>
      (clearSwap l w, if l.word = some w.word then .nextSlot false else .goto .load)

/-- The word a step is about to clear. -/
def AcquirePc.clears : AcquirePc → Option Seen
  | ownClear w | clear w => some w
  | _ => none

def ScanPc.clears : ScanPc → Option Seen
  | clear w => some w
  | _ => none

/-- Clearing word `w` would take a lease from a running process. -/
def wrongs (P : Processes S) (l : ReaderLease Task Inst) : Option Seen → Bool
  | some w => l.word = some w.word ∧ 0 < w.refs ∧ ∃ i ∈ l.inst, P.Running i
  | none => false

namespace State

variable (s : State S)

def setTask (τ : Task) (p : TaskPc) : State S :=
  { s with task := fun σ => if σ = τ then p else s.task σ }

def setLease (c k : ℕ) (l : ReaderLease Task Inst) : State S :=
  { s with lease := fun c' k' => if c' = c ∧ k' = k then l else s.lease c' k' }

def setChunk (c : ℕ) (ch : Chunk) : State S :=
  { s with chunk := fun c' => if c' = c then ch else s.chunk c' }

/-- The chunk the next advance recycles. -/
def nextChunk : ℕ := (s.writeChunk + 1) % S.numChunks

/-- One step of `pin_chunk` or `release_process_lease`. -/
def taskStep (τ : Task) : State S :=
  match s.task τ with
  | .idle | .pinned .. => s
  | .stateBefore c attempt =>
      if attempt = 64 ∨ (s.chunk c).state = .Empty then s.setTask τ .idle
      else s.setTask τ (.generationBefore c attempt (s.chunk c).state)
  | .generationBefore c attempt stateBefore =>
      s.setTask τ (.acquire ⟨c, attempt, stateBefore, (s.chunk c).generation⟩ 0 .load)
  | .acquire call slot p =>
      if slot = S.leaseSlots then s.setTask τ .idle
      else
        let l := s.lease call.chunk slot
        let (l', next) := acquireStep s.procs τ l p
        let t := { s.setLease call.chunk slot l' with
          wronged := s.wronged || wrongs s.procs l p.clears }
        match next with
        | .goto p' => t.setTask τ (.acquire call slot p')
        | .nextSlot => t.setTask τ (.acquire call (slot + 1) .load)
        | .acquired => t.setTask τ (.stateAfter call slot)
        | .exhausted => t.setTask τ .idle
  | .stateAfter call slot =>
      s.setTask τ (.generationAfter call slot (s.chunk call.chunk).state)
  | .generationAfter call slot state_after =>
      let generation_after := (s.chunk call.chunk).generation
      if call.stateBefore = state_after ∧ state_after ≠ .Empty ∧
          call.generationBefore = generation_after then
        s.setTask τ (.usedLoad call slot generation_after)
      else s.setTask τ (.releaseLoad call.chunk slot (some (call.attempt + 1)))
  | .usedLoad call slot generation =>
      let ch := s.chunk call.chunk
      if ch.used ≤ S.chunkSize - chunkHeaderSize then
        s.setTask τ (.pinned call.chunk slot generation ch.used ch.bytes)
      else s.setTask τ (.releaseLoad call.chunk slot (some (call.attempt + 1)))
  | .releaseLoad c slot retry =>
      match (s.lease c slot).word with
      | some w =>
          if w.1 = S.pid (S.inst τ) ∧ w.2 ≠ 0 then s.setTask τ (.releaseSwap c slot w retry)
          else s.setTask τ (retry.elim .idle (.stateBefore c))
      | none => s.setTask τ (retry.elim .idle (.stateBefore c))
  | .releaseSwap c slot w retry =>
      let l := s.lease c slot
      if l.word = some w then
        (s.setLease c slot (l.release (some τ) w)).setTask τ
          (retry.elim .idle (.stateBefore c))
      else s.setTask τ (.releaseLoad c slot retry)

/-- Spins before an advance gives up on draining the readers. -/
def pinDrainSpins : ℕ := 1024

/-- The end of one pass of `chunk_has_live_leases`: the last pass decides, an
earlier one is followed by the last as soon as it finds no live owner. -/
def scanEnd (previous : ChunkState) (attempt : ℕ) (live : Bool) : WriterPc :=
  if attempt = pinDrainSpins then
    if live then .restore previous else .sealCurrent
  else .scan previous (if live then attempt + 1 else pinDrainSpins) 0 false .load

/-- One step of the writer. -/
def writerStep : State S :=
  let c := s.nextChunk
  let ch := s.chunk c
  match s.writer with
  | .idle => s
  | .appendByte row i =>
      let cur := s.chunk s.writeChunk
      if h : i < row.length then
        { s.setChunk s.writeChunk { cur with
            bytes := Function.update cur.bytes (cur.used + i) (row.get ⟨i, h⟩) } with
          writer := .appendByte row (i + 1) }
      else
        { s.setChunk s.writeChunk { cur with used := cur.used + row.length } with
          writer := .idle }
  | .previousState => { s with writer := .storeEmpty ch.state }
  | .storeEmpty previous =>
      { s.setChunk c { ch with state := .Empty } with
        writer := .scan previous 0 0 false .load }
  | .scan previous attempt slot live p =>
      if slot = S.leaseSlots then { s with writer := scanEnd previous attempt live }
      else
        let l := s.lease c slot
        let (l', next) := scanStep s.procs l p
        let t := { s.setLease c slot l' with
          wronged := s.wronged || wrongs s.procs l p.clears }
        match next with
        | .goto p' => { t with writer := .scan previous attempt slot live p' }
        | .nextSlot found =>
            { t with writer := .scan previous attempt (slot + 1) (live || found) .load }
  | .restore previous =>
      { s.setChunk c { ch with state := previous } with writer := .idle }
  | .sealCurrent =>
      if s.writeChunk = c then { s with writer := .generation }
      else
        { s.setChunk s.writeChunk { s.chunk s.writeChunk with state := .Sealed } with
          writer := .generation }
  | .generation =>
      { s.setChunk c { ch with generation := ch.generation + 1 } with writer := .used }
  | .used => { s.setChunk c { ch with used := 0 } with writer := .writing }
  | .writing => { s.setChunk c { ch with state := .Writing } with writer := .writeChunk }
  | .writeChunk => { s with writeChunk := c, writer := .idle }

/-- A row fits the write chunk. -/
def Fits (row : List UInt8) : Prop :=
  chunkHeaderSize + (s.chunk s.writeChunk).used + row.length ≤ S.chunkSize

instance (row : List UInt8) : Decidable (s.Fits row) :=
  inferInstanceAs (Decidable (_ ≤ _))

/-- One step of the system. Only running processes act. -/
def step : Action Task Inst → Option (State S)
  | .pin τ c =>
      match s.task τ with
      | .idle => if s.procs.Running (S.inst τ) ∧ c < S.numChunks then
          some (s.setTask τ (.stateBefore c 0)) else none
      | _ => none
  | .unpin τ =>
      match s.task τ with
      | .pinned c slot _ _ _ => if s.procs.Running (S.inst τ) then
          some (s.setTask τ (.releaseLoad c slot none)) else none
      | _ => none
  | .task τ => if s.procs.Running (S.inst τ) then some (s.taskStep τ) else none
  | .append row =>
      match s.writer with
      | .idle => if s.procs.Running S.writer ∧ s.Fits row then
          some { s with writer := .appendByte row 0 } else none
      | _ => none
  | .advance =>
      match s.writer with
      | .idle => if s.procs.Running S.writer then
          some { s with writer := .previousState } else none
      | _ => none
  | .writer => if s.procs.Running S.writer then some s.writerStep else none
  | .spawn i =>
      if s.procs.occupant (S.pid i) = none ∧ s.procs.spawned i = false then
        some { s with procs := s.procs.spawn i } else none
  | .die i =>
      if s.procs.Running i then some { s with procs := s.procs.die i } else none

end State

/-- The freshly initialised table: chunk 0 is the write chunk, no process has
started. -/
def State.initial (S : Setting Task Inst) : State S where
  chunk c := ⟨if c = 0 then 1 else 0, 0, if c = 0 then .Writing else .Empty, fun _ => 0⟩
  lease _ _ := ⟨none, 0, none, none, [], 0, false⟩
  writeChunk := 0
  procs := ⟨fun _ => none, fun _ => false, by simp, by simp⟩
  task _ := .idle
  writer := .idle
  wronged := false

end Step

end Probing.Memt.Lease
