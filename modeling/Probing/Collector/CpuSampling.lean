import Mathlib.Algebra.Order.Ring.Int
import Probing.Core.Bytes
import Probing.Core.Keyed
import Probing.Core.Run

/-!
# CPU sampling

A round of the CPU collector samples the process and its busiest threads, each of which may fail,
and leaves rows with the CPU time since the last samples. A round also carries the counters that the
kernel has at that moment, sampled or not, so the rounds so far say what was used in an interval.
Times are unbounded, and the percentages, which are floats, are left out.
-/

namespace Probing.Collector.Cpu

open Probing.Core (saturatingAdd)

/-- Cumulative CPU time. -/
@[ext] structure Usage where
  user : ℕ
  sys : ℕ
  deriving DecidableEq

namespace Usage

/-- `saturating_sub` for both times. -/
def since (curr prev : Usage) : Usage := ⟨curr.user - prev.user, curr.sys - prev.sys⟩

def le (a b : Usage) : Prop := a.user ≤ b.user ∧ a.sys ≤ b.sys

instance (a b : Usage) : Decidable (a.le b) := inferInstanceAs (Decidable (_ ∧ _))

end Usage

structure ProcessSample where
  cputimeUserNs : ℕ
  cputimeSysNs : ℕ
  rssBytes : ℕ
  threadCount : ℕ
  volCtxt : ℕ
  involCtxt : ℕ
  deriving DecidableEq

def ProcessSample.usage (sample : ProcessSample) : Usage :=
  ⟨sample.cputimeUserNs, sample.cputimeSysNs⟩

/-- `thread` tells threads apart whose `tid` was used again. It is not in the source, and no branch
reads it. -/
structure ThreadSample where
  thread : ℕ
  tid : ℤ
  comm : String
  state : Option String
  wchan : Option String
  cputimeUserNs : ℕ
  cputimeSysNs : ℕ
  deriving DecidableEq

namespace ThreadSample

def usage (sample : ThreadSample) : Usage := ⟨sample.cputimeUserNs, sample.cputimeSysNs⟩

def totalCputimeNs (sample : ThreadSample) : ℕ :=
  saturatingAdd sample.cputimeUserNs sample.cputimeSysNs

end ThreadSample

/-- What the kernel tells of the process, with the times in ticks. -/
structure ProcessStat where
  utime : ℕ
  stime : ℕ
  rssBytes : ℕ
  threadCount : ℕ
  volCtxt : ℕ
  involCtxt : ℕ
  deriving DecidableEq

/-- What the kernel tells of a thread, with the times in ticks. -/
structure Task where
  thread : ℕ
  tid : ℤ
  comm : String
  state : String
  wchan : Option String
  utime : ℕ
  stime : ℕ
  deriving DecidableEq

/-- The ticks of a second, and `thread_top_n` of the configuration. -/
structure Setting where
  clkTck : ℕ
  threadTopN : ℕ

namespace Setting

variable (S : Setting)

def ticksToNs (ticks : ℕ) : ℕ := min (ticks * 1000000000) (2 ^ 64 - 1) / S.clkTck

def sampleProcess (stat : ProcessStat) : ProcessSample where
  cputimeUserNs := S.ticksToNs stat.utime
  cputimeSysNs := S.ticksToNs stat.stime
  rssBytes := stat.rssBytes
  threadCount := stat.threadCount
  volCtxt := stat.volCtxt
  involCtxt := stat.involCtxt

def threadSample (task : Task) : ThreadSample where
  thread := task.thread
  tid := task.tid
  comm := task.comm
  state := some task.state
  wchan := task.wchan.filter fun s => s ≠ ""
  cputimeUserNs := S.ticksToNs task.utime
  cputimeSysNs := S.ticksToNs task.stime

/-- The threads with the most CPU time; `sort_by_key` is stable. -/
def sampleThreads (tasks : List Task) : List ThreadSample :=
  if S.threadTopN = 0 then []
  else
    let threads := tasks.map S.threadSample
    if S.threadTopN < threads.length then
      (threads.mergeSort fun a b => b.totalCputimeNs ≤ a.totalCputimeNs).take S.threadTopN
    else threads

/-- The cumulative times of a thread, which are zero for one that is not there. -/
def usageOf (tasks : List Task) (thread : ℕ) : Option Usage :=
  (Core.Keyed.find Task.thread tasks thread).map fun task => (S.threadSample task).usage

end Setting

/-- A row of `cpu.utilization`. `thread`, `interval` and `used` tell whose row it is, and for how
long and how much the process or the thread ran since the round before; they are not in the
source. -/
structure UtilizationRow where
  ts : ℤ
  scope : String
  platform : String
  tid : ℤ
  comm : String
  wallNs : ℕ
  deltaUserNs : ℕ
  deltaSysNs : ℕ
  deltaTotalNs : ℕ
  cumUserNs : ℕ
  cumSysNs : ℕ
  rssKb : ℕ
  threadCount : ℕ
  deltaVolCtxt : ℕ
  deltaInvolCtxt : ℕ
  state : String
  wchan : String
  thread : Option ℕ
  interval : ℕ
  used : Usage
  deriving DecidableEq

/-- A row of `cpu.tasks`. -/
structure TasksRow where
  ts : ℤ
  platform : String
  tid : ℤ
  comm : String
  state : String
  wchan : String
  wallNs : ℕ
  deltaUserNs : ℕ
  deltaSysNs : ℕ
  deltaTotalNs : ℕ
  deriving DecidableEq

/-- `push_tasks_row` gets the values of the row of the thread. -/
def UtilizationRow.tasksRow (row : UtilizationRow) : TasksRow where
  ts := row.ts
  platform := row.platform
  tid := row.tid
  comm := row.comm
  state := row.state
  wchan := row.wchan
  wallNs := row.wallNs
  deltaUserNs := row.deltaUserNs
  deltaSysNs := row.deltaSysNs
  deltaTotalNs := row.deltaTotalNs

/-- The clock, and what the kernel knows. -/
structure Reading where
  now : ℕ
  stat : ProcessStat
  tasks : List Task

/-- One round, and which of its samples succeed. -/
structure Round extends Reading where
  ts : ℤ
  processOk : Bool
  threadsOk : Bool

/-- The start of the collector and the rounds so far, the last one first. It is not in the source,
and no branch reads it. -/
structure History where
  start : Reading
  rounds : List Round

namespace History

variable (S : Setting) (h : History)

/-- The round before, or the start. -/
def last : Reading := (h.rounds.head?.map Round.toReading).getD h.start

def processUsed : Usage := (S.sampleProcess h.last.stat).usage

def threadStarted (thread : ℕ) : Usage := (S.usageOf h.start.tasks thread).getD ⟨0, 0⟩

/-- The counters of a thread when it was last there. -/
def threadUsed (thread : ℕ) : Usage :=
  h.rounds.foldr (fun r used => (S.usageOf r.tasks thread).getD used) (h.threadStarted S thread)

/-- The last process sample that succeeded. -/
def sampled : Option ProcessSample :=
  (h.rounds.find? Round.processOk).map fun r => S.sampleProcess r.stat

/-- What the last thread sample that succeeded has under a `tid`. -/
def listed (tid : ℤ) : Option ThreadSample :=
  (h.rounds.find? Round.threadsOk).bind fun r =>
    Core.Keyed.find ThreadSample.tid (S.sampleThreads r.tasks) tid

/-- The clock and the counters do not go back, and no two threads are the same or have the same
number. -/
structure Follows (r : Round) : Prop where
  now : h.last.now ≤ r.now
  process : (h.processUsed S).le (S.sampleProcess r.stat).usage
  threads : ∀ task ∈ r.tasks, (h.threadUsed S task.thread).le (S.threadSample task).usage
  nodup : (r.tasks.map Task.thread).Nodup
  nodup_tid : (r.tasks.map Task.tid).Nodup

instance (r : Round) : Decidable (h.Follows S r) :=
  decidable_of_iff (h.last.now ≤ r.now ∧ (h.processUsed S).le (S.sampleProcess r.stat).usage ∧
      (∀ task ∈ r.tasks, (h.threadUsed S task.thread).le (S.threadSample task).usage) ∧
      (r.tasks.map Task.thread).Nodup ∧ (r.tasks.map Task.tid).Nodup)
    ⟨fun ⟨h₁, h₂, h₃, h₄, h₅⟩ => ⟨h₁, h₂, h₃, h₄, h₅⟩, fun h => ⟨h.1, h.2, h.3, h.4, h.5⟩⟩

end History

/-- The state between rounds, with the rows of all rounds. -/
structure SampleState where
  lastWall : ℕ
  lastProcess : Option ProcessSample
  lastThreads : List ThreadSample
  utilization : List UtilizationRow
  tasks : List TasksRow
  history : History

namespace SampleState

variable (S : Setting)

def new (start : Reading) : SampleState where
  lastWall := start.now
  lastProcess := none
  lastThreads := []
  utilization := []
  tasks := []
  history := ⟨start, []⟩

/-- The row of the process, if it was sampled before. -/
def processRows (s : SampleState) (r : Round) : List UtilizationRow :=
  let wallNs := r.now - s.lastWall
  let curr := S.sampleProcess r.stat
  match s.lastProcess with
  | some prev =>
      if 0 < wallNs then
        let delta := curr.usage.since prev.usage
        [{ ts := r.ts
           scope := "process"
           platform := "linux"
           tid := 0
           comm := ""
           wallNs
           deltaUserNs := delta.user
           deltaSysNs := delta.sys
           deltaTotalNs := saturatingAdd delta.user delta.sys
           cumUserNs := curr.cputimeUserNs
           cumSysNs := curr.cputimeSysNs
           rssKb := curr.rssBytes / 1024
           threadCount := curr.threadCount
           deltaVolCtxt := curr.volCtxt - prev.volCtxt
           deltaInvolCtxt := curr.involCtxt - prev.involCtxt
           state := ""
           wchan := ""
           thread := none
           interval := r.now - s.history.last.now
           used := curr.usage.since (s.history.processUsed S) }]
      else []
  | none => []

/-- What is subtracted from the counters of a thread: its last sample, or nothing. In the map that
`collect` builds, later samples replace earlier ones of the same `tid`. -/
def baseline (s : SampleState) (tid : ℤ) : Usage :=
  ((Core.Keyed.find ThreadSample.tid s.lastThreads.reverse tid).map ThreadSample.usage).getD ⟨0, 0⟩

def threadRow (s : SampleState) (r : Round) (thread : ThreadSample) : UtilizationRow :=
  let delta := thread.usage.since (s.baseline thread.tid)
  { ts := r.ts
    scope := "thread"
    platform := "linux"
    tid := thread.tid
    comm := thread.comm
    wallNs := r.now - s.lastWall
    deltaUserNs := delta.user
    deltaSysNs := delta.sys
    deltaTotalNs := saturatingAdd delta.user delta.sys
    cumUserNs := thread.cputimeUserNs
    cumSysNs := thread.cputimeSysNs
    rssKb := 0
    threadCount := 0
    deltaVolCtxt := 0
    deltaInvolCtxt := 0
    state := thread.state.getD ""
    wchan := thread.wchan.getD ""
    thread := some thread.thread
    interval := r.now - s.history.last.now
    used := thread.usage.since (s.history.threadUsed S thread.thread) }

def threadRows (s : SampleState) (r : Round) : List UtilizationRow :=
  if 0 < r.now - s.lastWall then (S.sampleThreads r.tasks).map (s.threadRow S r) else []

/-- One round of the loop. -/
def round (s : SampleState) (r : Round) : SampleState :=
  let process := if r.processOk then s.processRows S r else []
  let threads := if r.threadsOk then s.threadRows S r else []
  { lastWall := r.now
    lastProcess := if r.processOk then some (S.sampleProcess r.stat) else s.lastProcess
    lastThreads := if r.threadsOk then S.sampleThreads r.tasks else s.lastThreads
    utilization := s.utilization ++ (process ++ threads)
    tasks := s.tasks ++ threads.map UtilizationRow.tasksRow
    history := { s.history with rounds := r :: s.history.rounds } }

/-- The rounds that can come next. -/
def step (s : SampleState) (r : Round) : Option SampleState :=
  if s.history.Follows S r then some (s.round S r) else none

end SampleState

end Probing.Collector.Cpu
