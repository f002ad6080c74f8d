import Mathlib.Data.List.ReduceOption
import Mathlib.Data.List.TakeWhile
import Probing.Profiling.DeferredDrain

/-!
# One worker

A worker has not started, or its thread takes every record of its queue, or a sentinel is the
last entry of the queue, or the thread has taken that sentinel and the queue is empty.
-/

namespace Probing.Profiling.DeferredDrain

variable {R : Type}

namespace Thread

/-- The thread will look at the queue again. -/
def loops : Thread R → Prop
  | .get | .process (some _) | .taskDone false => True
  | _ => False

/-- The thread has taken a sentinel. -/
def leaves : Thread R → Prop
  | .process none | .taskDone true | .ended => True
  | _ => False

def busy : Thread R → ℕ
  | .process _ | .taskDone _ => 1
  | _ => 0

/-- The record that the thread is about to save. -/
def holding : Thread R → List R
  | .process (some record) => [record]
  | _ => []

theorem not_loops_of_isNone {t : Thread R} (h : t.isNone = true) : ¬ t.loops := by
  cases t with
  | absent => exact not_false
  | _ => exact (nomatch h)

theorem not_leaves_of_isNone {t : Thread R} (h : t.isNone = true) : ¬ t.leaves := by
  cases t with
  | absent => exact not_false
  | _ => exact (nomatch h)

instance : DecidablePred (Thread.loops (R := R))
  | .get | .process (some _) | .taskDone false => .isTrue trivial
  | .absent | .process none | .taskDone true | .ended => .isFalse not_false

end Thread

namespace Worker

inductive Phase (w : Worker R) : Prop
  | absent (hthread : w.thread = .absent) (hstarted : w.started = false)
      (hstopped : w.stopped = false) (hqueue : w.queue = []) (hkept : w.accepted = w.saved)
      (hempty : w.accepted = [])
  | looping (records : List R) (hthread : w.thread.loops) (hstarted : w.started = true)
      (hstopped : w.stopped = false) (hqueue : w.queue = records.map some)
      (hkept : w.accepted = w.saved ++ w.thread.holding ++ records)
  | stopping (records : List R) (hthread : w.thread.loops) (hstarted : w.started = true)
      (hstopped : w.stopped = true) (hqueue : w.queue = records.map some ++ [none])
      (hkept : w.accepted = w.saved ++ w.thread.holding ++ records)
  | left (hthread : w.thread.leaves) (hstarted : w.started = true) (hstopped : w.stopped = true)
      (hqueue : w.queue = []) (hkept : w.accepted = w.saved)

structure Ok (w : Worker R) : Prop where
  counted : w.unfinished = w.queue.length + w.thread.busy
  phase : w.Phase

variable {w w' : Worker R}

theorem ok_new (maxsize : ℕ) : (new maxsize : Worker R).Ok :=
  ⟨rfl, .absent rfl rfl rfl rfl rfl rfl⟩

theorem Ok.set_lock (h : w.Ok) (lock : Bool) : Ok { w with lock := lock } := by
  refine ⟨h.counted, ?_⟩
  cases h.phase with
  | absent hthread hstarted hstopped hqueue hkept hempty =>
      exact .absent hthread hstarted hstopped hqueue hkept hempty
  | looping records hthread hstarted hstopped hqueue hkept =>
      exact .looping records hthread hstarted hstopped hqueue hkept
  | stopping records hthread hstarted hstopped hqueue hkept =>
      exact .stopping records hthread hstarted hstopped hqueue hkept
  | left hthread hstarted hstopped hqueue hkept =>
      exact .left hthread hstarted hstopped hqueue hkept

theorem Ok.ensureStarted (h : w.Ok) : w.ensureStarted.Ok := by
  cases hstarted : w.started with
  | true =>
      rw [Worker.ensureStarted, if_pos hstarted]
      exact h.set_lock false
  | false =>
      rw [Worker.ensureStarted, hstarted]
      cases h.phase with
      | absent hthread _ hstopped hqueue hkept hempty =>
          have hcounted := h.counted
          rw [hthread] at hcounted
          refine ⟨hcounted, .looping [] trivial rfl hstopped hqueue ?_⟩
          rw [List.append_nil]
          exact hkept.trans (List.append_nil _).symm
      | looping _ _ hset => rw [hset] at hstarted; exact (nomatch hstarted)
      | stopping _ _ hset => rw [hset] at hstarted; exact (nomatch hstarted)
      | left _ hset => rw [hset] at hstarted; exact (nomatch hstarted)

theorem started_ensureStarted : w.ensureStarted.started = true := by
  rw [Worker.ensureStarted]
  split
  next hstarted => exact hstarted
  · rfl

/-- A record is put before any sentinel. -/
theorem Ok.submit (h : w.Ok) (hstarted : w.started = true) (hstopped : w.stopped = false)
    (record : R) : (w.submit record).Ok := by
  have hcounted : (w.submit record).unfinished =
      (w.submit record).queue.length + w.thread.busy := by
    change w.unfinished + 1 = (w.queue ++ [some record]).length + w.thread.busy
    rw [List.length_append, List.length_singleton, h.counted]
    omega
  refine ⟨hcounted, ?_⟩
  cases h.phase with
  | absent _ hclear => rw [hclear] at hstarted; exact (nomatch hstarted)
  | looping records hthread _ _ hqueue hkept =>
      refine .looping (records ++ [record]) hthread hstarted hstopped ?_ ?_
      · change w.queue ++ [some record] = _
        rw [hqueue, List.map_append]
        rfl
      · change w.accepted ++ [record] = w.saved ++ w.thread.holding ++ (records ++ [record])
        rw [hkept, List.append_assoc _ records]
  | stopping _ _ _ hset => rw [hset] at hstopped; exact (nomatch hstopped)
  | left _ _ hset => rw [hset] at hstopped; exact (nomatch hstopped)

theorem Ok.stop (h : w.Ok) (hstarted : w.started = true) (hstopped : w.stopped = false) :
    w.stop.Ok := by
  have hcounted : w.stop.unfinished = w.stop.queue.length + w.thread.busy := by
    change w.unfinished + 1 = (w.queue ++ [none]).length + w.thread.busy
    rw [List.length_append, List.length_singleton, h.counted]
    omega
  refine ⟨hcounted, ?_⟩
  cases h.phase with
  | absent _ hclear => rw [hclear] at hstarted; exact (nomatch hstarted)
  | looping records hthread _ _ hqueue hkept =>
      refine .stopping records hthread hstarted rfl ?_ hkept
      change w.queue ++ [none] = _
      rw [hqueue]
  | stopping _ _ _ hset => rw [hset] at hstopped; exact (nomatch hstopped)
  | left _ _ hset => rw [hset] at hstopped; exact (nomatch hstopped)

/-- The thread goes on, and its phase stays as long as it will look at the queue again. -/
theorem Ok.loops (h : w.Ok) (hloops : w.thread.loops) (hloops' : w'.thread.loops)
    (hstarted : w'.started = w.started) (hstopped : w'.stopped = w.stopped)
    (hqueue : w'.queue = w.queue) (hkept : w'.accepted = w.accepted)
    (hheld : w'.saved ++ w'.thread.holding = w.saved ++ w.thread.holding)
    (hcounted : w'.unfinished = w'.queue.length + w'.thread.busy) : w'.Ok := by
  refine ⟨hcounted, ?_⟩
  cases h.phase with
  | absent hthread =>
      rw [hthread] at hloops
      exact hloops.elim
  | looping records _ hset hclear hrecords haccepted =>
      refine .looping records hloops' (hstarted.trans hset) (hstopped.trans hclear)
        (hqueue.trans hrecords) ?_
      rw [hkept, hheld, haccepted]
  | stopping records _ hset hset' hrecords haccepted =>
      refine .stopping records hloops' (hstarted.trans hset) (hstopped.trans hset')
        (hqueue.trans hrecords) ?_
      rw [hkept, hheld, haccepted]
  | left hthread =>
      cases hw : w.thread with
      | process task =>
          rw [hw] at hthread hloops
          cases task with
          | none => exact hloops.elim
          | some record => exact hthread.elim
      | taskDone last =>
          rw [hw] at hthread hloops
          cases last with
          | true => exact hloops.elim
          | false => exact hthread.elim
      | get => rw [hw] at hthread; exact hthread.elim
      | absent => rw [hw] at hthread; exact hthread.elim
      | ended => rw [hw] at hloops; exact hloops.elim

/-- The thread goes on after it has taken the sentinel. -/
theorem Ok.leaves (h : w.Ok) (hleaves : w.thread.leaves) (hleaves' : w'.thread.leaves)
    (hstarted : w'.started = w.started) (hstopped : w'.stopped = w.stopped)
    (hqueue : w'.queue = w.queue) (hkept : w'.accepted = w.accepted) (hsaved : w'.saved = w.saved)
    (hcounted : w'.unfinished = w'.queue.length + w'.thread.busy) : w'.Ok := by
  refine ⟨hcounted, ?_⟩
  have hnot : ¬ w.thread.loops := by
    cases hw : w.thread with
    | process task =>
        rw [hw] at hleaves
        cases task with
        | none => exact not_false
        | some record => exact hleaves.elim
    | taskDone last =>
        rw [hw] at hleaves
        cases last with
        | true => exact not_false
        | false => exact hleaves.elim
    | get => rw [hw] at hleaves; exact hleaves.elim
    | absent => exact not_false
    | ended => exact not_false
  cases h.phase with
  | absent hthread => rw [hthread] at hleaves; exact hleaves.elim
  | looping _ hloops => exact (hnot hloops).elim
  | stopping _ hloops => exact (hnot hloops).elim
  | left _ hset hset' hempty hall =>
      exact .left hleaves' (hstarted.trans hset) (hstopped.trans hset') (hqueue.trans hempty)
        (by rw [hkept, hsaved, hall])

/-- The thread takes the head of the queue. -/
theorem Ok.takes (h : w.Ok) {task : Option R} {queue : List (Option R)}
    (hthread : w.thread = .get) (hqueue : w.queue = task :: queue) :
    Ok { w with thread := .process task, queue := queue } := by
  have hcounted : w.unfinished = queue.length + 1 := by
    rw [h.counted, hqueue, hthread]
    rfl
  refine ⟨hcounted, ?_⟩
  cases h.phase with
  | absent hw => rw [hthread] at hw; exact (nomatch hw)
  | looping records _ hstarted hstopped hrecords hkept =>
      rw [hthread] at hkept
      cases records with
      | nil =>
          rw [hrecords] at hqueue
          exact (nomatch hqueue)
      | cons record records =>
          obtain ⟨rfl, rfl⟩ := List.cons.inj (hqueue.symm.trans hrecords)
          refine .looping records trivial hstarted hstopped rfl ?_
          change w.accepted = w.saved ++ [record] ++ records
          rw [hkept, List.append_assoc w.saved, List.append_assoc w.saved]
          rfl
  | stopping records _ hstarted hstopped hrecords hkept =>
      rw [hthread] at hkept
      cases records with
      | nil =>
          obtain ⟨rfl, rfl⟩ := List.cons.inj (hqueue.symm.trans hrecords)
          refine .left trivial hstarted hstopped rfl ?_
          rw [hkept]
          exact (List.append_nil _).trans (List.append_nil _)
      | cons record records =>
          obtain ⟨rfl, rfl⟩ := List.cons.inj (hqueue.symm.trans hrecords)
          refine .stopping records trivial hstarted hstopped rfl ?_
          change w.accepted = w.saved ++ [record] ++ records
          rw [hkept, List.append_assoc w.saved, List.append_assoc w.saved]
          rfl
  | left hleaves => rw [hthread] at hleaves; exact hleaves.elim

theorem Ok.run (h : w.Ok) (hrun : w.run = some w') : w'.Ok := by
  have hcounted := h.counted
  cases hthread : w.thread with
  | absent => simp [Worker.run, hthread] at hrun
  | ended => simp [Worker.run, hthread] at hrun
  | get =>
      cases hqueue : w.queue with
      | nil => simp [Worker.run, hthread, hqueue] at hrun
      | cons task queue =>
          simp only [Worker.run, hthread, hqueue] at hrun
          obtain rfl := Option.some.inj hrun
          exact h.takes hthread hqueue
  | process task =>
      rw [hthread] at hcounted
      cases task with
      | some record =>
          simp only [Worker.run, hthread] at hrun
          obtain rfl := Option.some.inj hrun
          refine h.loops (by rw [hthread]; trivial) trivial rfl rfl rfl rfl ?_ hcounted
          rw [hthread]
          exact List.append_nil _
      | none =>
          simp only [Worker.run, hthread] at hrun
          obtain rfl := Option.some.inj hrun
          exact h.leaves (by rw [hthread]; trivial) trivial rfl rfl rfl rfl rfl hcounted
  | taskDone last =>
      rw [hthread] at hcounted
      have hless : w.unfinished - 1 = w.queue.length := by
        rw [hcounted]
        rfl
      simp only [Worker.run, hthread] at hrun
      obtain rfl := Option.some.inj hrun
      cases last with
      | false =>
          refine h.loops (by rw [hthread]; trivial) trivial rfl rfl rfl rfl ?_ hless
          rw [hthread]
          rfl
      | true => exact h.leaves (by rw [hthread]; trivial) trivial rfl rfl rfl rfl rfl hless

/-- No thread is lost in a fork that finds none. -/
theorem Ok.fork (h : w.Ok) (hthread : w.thread.isNone = true ∨ w.thread.isEnded = true) :
    w.fork.Ok := by
  obtain ⟨maxsize, queue, unfinished, thread, started, lock, accepted, saved, stopped⟩ := w
  cases thread with
  | absent => exact h
  | ended => exact h
  | _ => obtain hnone | hended := hthread <;> contradiction

/-- What is saved are the first of the records that were accepted, each once. -/
theorem Ok.saved_isPrefix (h : w.Ok) : w.saved <+: w.accepted := by
  cases h.phase with
  | absent _ _ _ _ hkept => exact hkept ▸ List.prefix_rfl
  | looping records _ _ _ _ hkept =>
      rw [hkept, List.append_assoc]
      exact List.prefix_append _ _
  | stopping records _ _ _ _ hkept =>
      rw [hkept, List.append_assoc]
      exact List.prefix_append _ _
  | left _ _ _ _ hkept => exact hkept ▸ List.prefix_rfl

/-- The records that the thread will still take from the queue. -/
def willRead (w : Worker R) : List R :=
  if w.thread.loops then (w.queue.takeWhile Option.isSome).reduceOption else []

theorem reduceOption_map_some (records : List R) : (records.map some).reduceOption = records := by
  rw [List.reduceOption, List.filterMap_map]
  exact List.filterMap_some

theorem takeWhile_map_some (records : List R) (queue : List (Option R)) :
    (records.map some ++ none :: queue).takeWhile Option.isSome = records.map some := by
  induction records with
  | nil => rfl
  | cons record records ih => simp [ih]

theorem Ok.willRead_eq (h : w.Ok) : w.willRead = w.queue.reduceOption := by
  cases h.phase with
  | absent hthread _ _ hqueue => rw [willRead, hqueue]; split <;> rfl
  | looping records hthread _ _ hqueue =>
      rw [willRead, if_pos hthread, hqueue]
      congr 1
      refine List.takeWhile_eq_self_iff.mpr fun task htask => ?_
      obtain ⟨record, -, rfl⟩ := List.mem_map.mp htask
      rfl
  | stopping records hthread _ _ hqueue =>
      rw [willRead, if_pos hthread, hqueue, takeWhile_map_some, List.reduceOption_append,
        reduceOption_map_some]
      exact (List.append_nil _).symm
  | left hthread _ _ hqueue => rw [willRead, hqueue]; split <;> rfl

/-- A queue without unfinished tasks has everything saved. -/
theorem Ok.saved_eq (h : w.Ok) (hzero : w.unfinished = 0) : w.saved = w.accepted := by
  have hcounted := h.counted
  rw [hzero] at hcounted
  have hqueue : w.queue = [] := List.eq_nil_of_length_eq_zero (by omega)
  cases h.phase with
  | absent _ _ _ _ hkept => exact hkept.symm
  | looping records hthread _ _ hrecords hkept =>
      have hnil : records = [] := List.map_eq_nil_iff.mp (hrecords.symm.trans hqueue)
      cases hw : w.thread with
      | process task =>
          rw [hw, hqueue] at hcounted
          exact (nomatch hcounted)
      | _ =>
          rw [hw, hnil] at hkept
          exact (hkept.trans ((List.append_nil _).trans (List.append_nil _))).symm
  | stopping records _ _ _ hrecords =>
      rw [hqueue] at hrecords
      exact (List.append_ne_nil_of_right_ne_nil _ (by simp) hrecords.symm).elim
  | left _ _ _ _ hkept => exact hkept.symm

/-- A worker that has not started has accepted nothing. -/
theorem Ok.accepted_eq_nil (h : w.Ok) (hnot : w.started = false ∨ w.thread.isNone = true) :
    w.accepted = [] := by
  have hstarted (hset : w.started = true) : w.thread.isNone = true := by
    refine hnot.resolve_left fun hclear => ?_
    rw [hset] at hclear
    exact (nomatch hclear)
  cases h.phase with
  | absent _ _ _ _ _ hempty => exact hempty
  | looping _ hthread hset => exact (Thread.not_loops_of_isNone (hstarted hset) hthread).elim
  | stopping _ hthread hset => exact (Thread.not_loops_of_isNone (hstarted hset) hthread).elim
  | left hthread hset => exact (Thread.not_leaves_of_isNone (hstarted hset) hthread).elim

end Worker

end Probing.Profiling.DeferredDrain
