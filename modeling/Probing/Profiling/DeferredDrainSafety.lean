import Mathlib.Algebra.BigOperators.Group.Finset.Basic
import Probing.Core.Run
import Probing.Profiling.DeferredDrainWorker

/-!
# Nothing that was accepted is lost

A record that is put behind a sentinel, a second sentinel, a sentinel that finds the queue full,
and a fork that leaves a worker thread or the holder of a lock behind are the steps after which a
record is never saved or a call never returns.
-/

namespace Probing.Profiling.DeferredDrain

open Probing.Core (exec exec_invariant Meets)

variable {A R : Type}

/-- The call holds the lock of the worker. -/
def Call.holds : Call R → ℕ → Prop
  | .ensureBody worker _, i | .shutdownBody worker _, i => worker = i
  | _, _ => False

/-- The call holds `_worker_lock`. -/
def Call.holdsGlobal : Call R → Prop
  | .getBody _ | .drainBody => True
  | _ => False

/-- The accesses that go on with a call or a thread. -/
def Action.goesOn : Action A R → Bool
  | .step _ | .run _ => true
  | _ => false

namespace Worker

/-- What never shrinks. -/
structure Grows (w w' : Worker R) : Prop where
  started : w.started = true → w'.started = true
  stopped : w.stopped = true → w'.stopped = true
  accepted : w.accepted.length ≤ w'.accepted.length
  saved : w.saved.length ≤ w'.saved.length

variable {w w' : Worker R}

theorem Grows.refl (w : Worker R) : Grows w w := ⟨id, id, Nat.le_refl _, Nat.le_refl _⟩

theorem grows_ensureStarted : Grows w w.ensureStarted := by
  rw [Worker.ensureStarted]
  split
  · exact ⟨id, id, Nat.le_refl _, Nat.le_refl _⟩
  · exact ⟨fun _ => rfl, id, Nat.le_refl _, Nat.le_refl _⟩

theorem grows_submit (record : R) : Grows w (w.submit record) := by
  refine ⟨id, id, ?_, Nat.le_refl _⟩
  change _ ≤ (w.accepted ++ [record]).length
  rw [List.length_append]
  exact Nat.le_add_right _ _

theorem grows_stop : Grows w w.stop := ⟨id, fun _ => rfl, Nat.le_refl _, Nat.le_refl _⟩

theorem grows_run (h : w.run = some w') : Grows w w' := by
  rw [Worker.run] at h
  split at h
  · obtain rfl := Option.some.inj h
    exact ⟨id, id, Nat.le_refl _, Nat.le_refl _⟩
  · obtain rfl := Option.some.inj h
    refine ⟨id, id, Nat.le_refl _, ?_⟩
    simp only [List.length_append]
    exact Nat.le_add_right _ _
  · obtain rfl := Option.some.inj h
    exact ⟨id, id, Nat.le_refl _, Nat.le_refl _⟩
  · obtain rfl := Option.some.inj h
    exact ⟨id, id, Nat.le_refl _, Nat.le_refl _⟩
  · cases h

end Worker

namespace State

/-- What deferred persistence promises of the records: those that were saved are the first of
those that were accepted, each once; a `flush` or `shutdown` returns when all that its worker had
accepted before is saved; and what is in a queue will be read. -/
structure Good (s : State A R) : Prop where
  once : ∀ i, (s.workers i).saved <+: (s.workers i).accepted
  flushed : ∀ f ∈ s.flushed, f.before ≤ (s.workers f.worker).saved.length
  read : ∀ i, (s.workers i).willRead = (s.workers i).queue.reduceOption

/-- A record is put when the worker was not told to stop, and a sentinel when there is none yet and
room for it. -/
def Allows (s : State A R) : Call R → Prop
  | .putNowait i _ => (s.workers i).full = false → (s.workers i).stopped = false
  | .putNone i _ => (s.workers i).full = false ∧ (s.workers i).stopped = false
  | _ => True

/-- And a process forks when it has no worker thread and no lock is held. -/
def Undisturbed (s : State A R) : Action A R → Prop
  | .step a => s.Allows (s.calls a)
  | .fork _ => s.workerLock = false ∧ ∀ i < s.created, (s.workers i).lock = false ∧
      ((s.workers i).thread.isNone = true ∨ (s.workers i).thread.isEnded = true)
  | _ => True

instance (s : State A R) : DecidablePred s.Allows
  | .putNowait i _ => inferInstanceAs
      (Decidable ((s.workers i).full = false → (s.workers i).stopped = false))
  | .putNone i _ => inferInstanceAs
      (Decidable ((s.workers i).full = false ∧ (s.workers i).stopped = false))
  | .idle | .getLock _ | .getBody _ | .ensureLock _ _ | .ensureBody _ _ | .flush _ _ _
  | .join _ _ _ | .shutdownLock _ _ | .shutdownBody _ _ | .threadJoin _ _ | .drainLock
  | .drainBody => .isTrue trivial

instance (s : State A R) : ∀ act, Decidable (s.Undisturbed act)
  | .step a => inferInstanceAs (Decidable (s.Allows (s.calls a)))
  | .fork _ => inferInstanceAs (Decidable (_ ∧ ∀ i < s.created, _ ∧ _))
  | .getDeferredDrainWorker _ _ | .submit _ _ _ _ | .flush _ _ | .shutdown _ _
  | .shutdownDeferredDrain _ | .run _ => .isTrue trivial

/-- What a call knows. -/
def Knows (s : State A R) : Call R → Prop
  | .ensureLock i _ | .ensureBody i _ => i < s.created
  | .putNowait i _ => i < s.created ∧ (s.workers i).started = true
  | .flush i before shutting | .join i before shutting =>
      i < s.created ∧ before ≤ (s.workers i).accepted.length ∧
        (shutting = true → (s.workers i).started = true)
  | .shutdownLock i before | .shutdownBody i before =>
      i < s.created ∧ before ≤ (s.workers i).accepted.length
  | .putNone i before =>
      i < s.created ∧ (s.workers i).started = true ∧ before ≤ (s.workers i).saved.length
  | .threadJoin i before =>
      i < s.created ∧ (s.workers i).stopped = true ∧ before ≤ (s.workers i).saved.length
  | _ => True

structure Inv (s : State A R) : Prop where
  ok : ∀ i, (s.workers i).Ok
  fresh : ∀ i, s.created ≤ i → (s.workers i).thread = .absent ∧ (s.workers i).lock = false
  worker : ∀ i, s.worker = some i → i < s.created
  knows : ∀ a, s.Knows (s.calls a)
  flushed : ∀ f ∈ s.flushed, f.worker < s.created ∧
    f.before ≤ (s.workers f.worker).saved.length
  locked : ∀ i, (s.workers i).lock = true → ∃ a, (s.calls a).holds i
  globally : s.workerLock = true → ∃ a, (s.calls a).holdsGlobal
  finite : ∃ calls : Finset A, ∀ a, a ∉ calls → s.calls a = .idle

structure Follows (s t : State A R) : Prop where
  created : s.created ≤ t.created
  workers : ∀ i < s.created, Worker.Grows (s.workers i) (t.workers i)

variable {s t : State A R} {i : ℕ} {c : Call R}

theorem Inv.good (h : s.Inv) : s.Good where
  once i := (h.ok i).saved_isPrefix
  flushed f hf := (h.flushed f hf).2
  read i := (h.ok i).willRead_eq

theorem Knows.follows (h : s.Knows c) (hst : Follows s t) : t.Knows c := by
  have hcreated {i : ℕ} (hi : i < s.created) : i < t.created := Nat.lt_of_lt_of_le hi hst.created
  cases c with
  | ensureLock i record => exact hcreated h
  | ensureBody i record => exact hcreated h
  | putNowait i record => exact ⟨hcreated h.1, (hst.workers i h.1).started h.2⟩
  | flush i before shutting =>
      exact ⟨hcreated h.1, Nat.le_trans h.2.1 (hst.workers i h.1).accepted,
        fun hs => (hst.workers i h.1).started (h.2.2 hs)⟩
  | join i before shutting =>
      exact ⟨hcreated h.1, Nat.le_trans h.2.1 (hst.workers i h.1).accepted,
        fun hs => (hst.workers i h.1).started (h.2.2 hs)⟩
  | shutdownLock i before =>
      exact ⟨hcreated h.1, Nat.le_trans h.2 (hst.workers i h.1).accepted⟩
  | shutdownBody i before =>
      exact ⟨hcreated h.1, Nat.le_trans h.2 (hst.workers i h.1).accepted⟩
  | putNone i before =>
      exact ⟨hcreated h.1, (hst.workers i h.1).started h.2.1,
        Nat.le_trans h.2.2 (hst.workers i h.1).saved⟩
  | threadJoin i before =>
      exact ⟨hcreated h.1, (hst.workers i h.1).stopped h.2.1,
        Nat.le_trans h.2.2 (hst.workers i h.1).saved⟩
  | _ => trivial

/-- One worker changes. -/
theorem Follows.of_set {w : Worker R} (hworkers : t.workers = Function.update s.workers i w)
    (hcreated : t.created = s.created) (hgrows : Worker.Grows (s.workers i) w) : Follows s t where
  created := Nat.le_of_eq hcreated.symm
  workers j _ := by
    rw [hworkers]
    by_cases hj : j = i
    · subst hj
      rw [Function.update_self]
      exact hgrows
    · rw [Function.update_of_ne hj]
      exact .refl _

theorem Follows.of_same (hworkers : t.workers = s.workers) (hcreated : t.created = s.created) :
    Follows s t where
  created := Nat.le_of_eq hcreated.symm
  workers j _ := by
    rw [hworkers]
    exact .refl _

theorem Inv.flushed_follows (h : s.Inv) (hst : Follows s t) : ∀ f ∈ s.flushed,
    f.worker < t.created ∧ f.before ≤ (t.workers f.worker).saved.length := by
  intro f hf
  obtain ⟨hcreated, hbefore⟩ := h.flushed f hf
  exact ⟨Nat.lt_of_lt_of_le hcreated hst.created,
    Nat.le_trans hbefore (hst.workers f.worker hcreated).saved⟩

variable [DecidableEq A] {a : A}

/-- A call goes on. -/
theorem Inv.move (h : s.Inv) (hcalls : t.calls = Function.update s.calls a c)
    (hfollows : Follows s t) (hok : ∀ i, (t.workers i).Ok)
    (hfresh : ∀ i, t.created ≤ i → (t.workers i).thread = .absent ∧ (t.workers i).lock = false)
    (hworker : ∀ i, t.worker = some i → i < t.created) (hself : t.Knows c)
    (hflushed : ∀ f ∈ t.flushed, f.worker < t.created ∧
      f.before ≤ (t.workers f.worker).saved.length)
    (hlocked : ∀ i, (t.workers i).lock = true →
      c.holds i ∨ (s.workers i).lock = true ∧ ¬ (s.calls a).holds i)
    (hglobally : t.workerLock = true →
      c.holdsGlobal ∨ s.workerLock = true ∧ ¬ (s.calls a).holdsGlobal) : t.Inv where
  ok := hok
  fresh := hfresh
  worker := hworker
  knows := by
    rw [hcalls]
    exact (Function.forall_update_iff s.calls fun _ c => t.Knows c).mpr
      ⟨hself, fun b _ => (h.knows b).follows hfollows⟩
  flushed := hflushed
  locked i hi := by
    rw [hcalls, Function.exists_update_iff s.calls fun _ c => c.holds i]
    refine (hlocked i hi).imp_right fun ⟨hold, hnot⟩ => ?_
    obtain ⟨b, hb⟩ := h.locked i hold
    exact ⟨b, fun heq => hnot (heq ▸ hb), hb⟩
  globally hset := by
    rw [hcalls, Function.exists_update_iff s.calls fun _ c => c.holdsGlobal]
    refine (hglobally hset).imp_right fun ⟨hold, hnot⟩ => ?_
    obtain ⟨b, hb⟩ := h.globally hold
    exact ⟨b, fun heq => hnot (heq ▸ hb), hb⟩
  finite := by
    obtain ⟨calls, hcalls'⟩ := h.finite
    refine ⟨insert a calls, fun b hb => ?_⟩
    obtain ⟨hne, hmem⟩ := not_or.mp fun hor => hb (Finset.mem_insert.mpr hor)
    rw [hcalls, Function.update_of_ne hne]
    exact hcalls' b hmem

/-- A call goes on and changes nothing that is shared. -/
theorem Inv.goto (h : s.Inv) (hself : s.Knows c) (hholds : ∀ i, ¬ (s.calls a).holds i)
    (hglobal : ¬ (s.calls a).holdsGlobal) : (s.goto a c).Inv :=
  h.move rfl (.of_same rfl rfl) h.ok h.fresh h.worker hself h.flushed
    (fun i hi => .inr ⟨hi, hholds i⟩) fun hset => .inr ⟨hset, hglobal⟩

omit [DecidableEq A] in
theorem Inv.ok_set (h : s.Inv) {w : Worker R} (hok : w.Ok) (j : ℕ) :
    (Function.update s.workers i w j).Ok :=
  (Function.forall_update_iff s.workers fun _ w => w.Ok).mpr ⟨hok, fun j _ => h.ok j⟩ j

omit [DecidableEq A] in
theorem Inv.fresh_set (h : s.Inv) {w : Worker R} (hi : i < s.created) :
    ∀ j, s.created ≤ j → (Function.update s.workers i w j).thread = .absent ∧
      (Function.update s.workers i w j).lock = false :=
  (Function.forall_update_iff s.workers fun j w =>
    s.created ≤ j → w.thread = .absent ∧ w.lock = false).mpr
      ⟨fun hge => absurd hi (Nat.not_lt.mpr hge), fun j _ => h.fresh j⟩

/-- A call goes on and changes one worker, whose lock is that of its critical section. -/
theorem Inv.set (h : s.Inv) {w : Worker R} (hi : i < s.created) (hok : w.Ok)
    (hgrows : Worker.Grows (s.workers i) w) (hself : (s.set i w).Knows c)
    (hlock : w.lock = true → c.holds i ∨ (s.workers i).lock = true ∧ ¬ (s.calls a).holds i)
    (hothers : ∀ j ≠ i, ¬ (s.calls a).holds j) (hglobal : ¬ (s.calls a).holdsGlobal) :
    ((s.set i w).goto a c).Inv := by
  have hfollows : Follows s ((s.set i w).goto a c) := .of_set rfl rfl hgrows
  refine h.move rfl hfollows (h.ok_set hok) (h.fresh_set hi) h.worker hself
    (h.flushed_follows hfollows) (fun j hj => ?_) fun hset => .inr ⟨hset, hglobal⟩
  · change (Function.update s.workers i w j).lock = true at hj
    by_cases hji : j = i
    · subst hji
      rw [Function.update_self] at hj
      exact hlock hj
    · rw [Function.update_of_ne hji] at hj
      exact .inr ⟨hj, hothers j hji⟩

/-- A `flush` or `shutdown` returns. -/
theorem Inv.returns (h : s.Inv) {before : ℕ} (hi : i < s.created)
    (hbefore : before ≤ (s.workers i).saved.length) (hholds : ∀ i, ¬ (s.calls a).holds i)
    (hglobal : ¬ (s.calls a).holdsGlobal) : (s.returns a i before).Inv := by
  refine h.move rfl (.of_same rfl rfl) h.ok h.fresh h.worker trivial (fun f hf => ?_)
    (fun i hi => .inr ⟨hi, hholds i⟩) fun hset => .inr ⟨hset, hglobal⟩
  obtain hold | hnew := List.mem_append.mp hf
  · exact h.flushed f hold
  · obtain rfl := List.mem_singleton.mp hnew
    exact ⟨hi, hbefore⟩

theorem Inv.flushes (h : s.Inv) {before : ℕ} {shutting : Bool} (hi : i < s.created)
    (hbefore : before ≤ (s.workers i).saved.length)
    (hstarted : shutting = true → (s.workers i).started = true)
    (hholds : ∀ i, ¬ (s.calls a).holds i) (hglobal : ¬ (s.calls a).holdsGlobal) :
    (s.flushes a i before shutting).Inv := by
  cases shutting with
  | true => exact h.goto ⟨hi, hstarted rfl, hbefore⟩ hholds hglobal
  | false => exact h.returns hi hbefore hholds hglobal

theorem Inv.getBody (h : s.Inv) {size : Option ℤ} (hcall : s.calls a = .getBody size)
    (hstep : s.advance a (.getBody size) = some t) : t.Inv := by
  have hholds (i : ℕ) : ¬ (s.calls a).holds i := by rw [hcall]; exact not_false
  simp only [advance] at hstep
  split at hstep
  · obtain rfl := Option.some.inj hstep
    have hworkers {j : ℕ} (hj : j ≠ s.created) : Function.update s.workers s.created
        (.new (queueMaxsize size)) j = s.workers j := Function.update_of_ne hj _ _
    have hself : Function.update s.workers s.created (.new (queueMaxsize size)) s.created =
        .new (queueMaxsize size) := Function.update_self _ _ _
    have hfollows : Follows s { (s.set s.created (.new (queueMaxsize size))).goto a .idle with
        created := s.created + 1
        worker := some s.created
        workerLock := false } := by
      refine ⟨Nat.le_succ _, fun j hj => ?_⟩
      change Worker.Grows _ (Function.update s.workers s.created (.new (queueMaxsize size)) j)
      rw [hworkers (Nat.ne_of_lt hj)]
      exact .refl _
    refine h.move rfl hfollows (fun j => ?_) (fun j hj => ?_) (fun j hj => ?_) trivial
      (h.flushed_follows hfollows) (fun j hj => ?_) fun hset => (nomatch hset)
    · change (Function.update s.workers s.created (.new (queueMaxsize size)) j).Ok
      by_cases hjc : j = s.created
      · rw [hjc, hself]
        exact Worker.ok_new _
      · rw [hworkers hjc]
        exact h.ok j
    · change s.created + 1 ≤ j at hj
      change (Function.update s.workers s.created (.new (queueMaxsize size)) j).thread = _ ∧
        (Function.update s.workers s.created (.new (queueMaxsize size)) j).lock = _
      rw [hworkers (by omega)]
      exact h.fresh j (by omega)
    · obtain rfl := Option.some.inj hj
      exact Nat.lt_succ_self _
    · change (Function.update s.workers s.created (.new (queueMaxsize size)) j).lock = _ at hj
      by_cases hjc : j = s.created
      · rw [hjc, hself] at hj
        exact (nomatch hj)
      · rw [hworkers hjc] at hj
        exact .inr ⟨hj, hholds j⟩
  · obtain rfl := Option.some.inj hstep
    exact h.move rfl (.of_same rfl rfl) h.ok h.fresh h.worker trivial h.flushed
      (fun i hi => .inr ⟨hi, hholds i⟩) fun hset => (nomatch hset)

theorem Inv.drainBody (h : s.Inv) (hcall : s.calls a = .drainBody)
    (hstep : s.advance a .drainBody = some t) : t.Inv := by
  have hholds (i : ℕ) : ¬ (s.calls a).holds i := by rw [hcall]; exact not_false
  simp only [advance] at hstep
  split at hstep
  next worker hworker =>
    obtain rfl := Option.some.inj hstep
    exact h.move rfl (.of_same rfl rfl) h.ok h.fresh (fun i hi => (nomatch hi))
      ⟨h.worker worker hworker, Nat.le_refl _⟩ h.flushed (fun i hi => .inr ⟨hi, hholds i⟩)
      fun hset => (nomatch hset)
  · obtain rfl := Option.some.inj hstep
    exact h.move rfl (.of_same rfl rfl) h.ok h.fresh h.worker trivial h.flushed
      (fun i hi => .inr ⟨hi, hholds i⟩) fun hset => (nomatch hset)

theorem Inv.submit (h : s.Inv) {record : R} (hcall : s.calls a = .putNowait i record)
    (hok : s.Undisturbed (.step a)) (hstep : s.advance a (.putNowait i record) = some t) :
    t.Inv := by
  have hknows := h.knows a
  rw [Undisturbed, hcall] at hok
  rw [hcall] at hknows
  have hholds (j : ℕ) : ¬ (s.calls a).holds j := by rw [hcall]; exact not_false
  have hglobal : ¬ (s.calls a).holdsGlobal := by rw [hcall]; exact not_false
  simp only [advance] at hstep
  split at hstep
  · obtain rfl := Option.some.inj hstep
    exact h.goto trivial hholds hglobal
  next hroom =>
    obtain rfl := Option.some.inj hstep
    exact h.set hknows.1 ((h.ok i).submit hknows.2 (hok (Bool.not_eq_true _ ▸ hroom)) record)
      (Worker.grows_submit record) trivial (fun hlock => .inr ⟨hlock, hholds i⟩)
      (fun j _ => hholds j) hglobal

theorem Inv.putNone (h : s.Inv) {before : ℕ} (hcall : s.calls a = .putNone i before)
    (hok : s.Undisturbed (.step a)) (hstep : s.advance a (.putNone i before) = some t) :
    t.Inv := by
  have hknows := h.knows a
  rw [Undisturbed, hcall] at hok
  rw [hcall] at hknows
  obtain ⟨hi, hstarted, hbefore⟩ := hknows
  have hholds (j : ℕ) : ¬ (s.calls a).holds j := by rw [hcall]; exact not_false
  simp only [advance, hok.1] at hstep
  obtain rfl := Option.some.inj hstep
  refine h.set hi ((h.ok i).stop hstarted hok.2) Worker.grows_stop ⟨hi, ?_⟩
    (fun hlock => .inr ⟨hlock, hholds i⟩) (fun j _ => hholds j) (by rw [hcall]; exact not_false)
  change (Function.update s.workers i (s.workers i).stop i).stopped = true ∧
    before ≤ (Function.update s.workers i (s.workers i).stop i).saved.length
  rw [Function.update_self]
  exact ⟨rfl, hbefore⟩

/-- A lock is taken. -/
theorem Inv.lock (h : s.Inv) (hi : i < s.created) (hself : s.Knows c) (hc : c.holds i)
    (hholds : ∀ j, ¬ (s.calls a).holds j) (hglobal : ¬ (s.calls a).holdsGlobal) :
    ((s.set i { s.workers i with lock := true }).goto a c).Inv := by
  have hgrows : Worker.Grows (s.workers i) { s.workers i with lock := true } :=
    ⟨id, id, Nat.le_refl _, Nat.le_refl _⟩
  exact h.set hi ((h.ok i).set_lock true) hgrows (hself.follows (.of_set rfl rfl hgrows))
    (fun _ => .inl hc) (fun j _ => hholds j) hglobal

theorem Inv.global_lock (h : s.Inv) (hself : s.Knows c) (hc : c.holdsGlobal)
    (hholds : ∀ j, ¬ (s.calls a).holds j) : Inv { s.goto a c with workerLock := true } :=
  h.move rfl (.of_same rfl rfl) h.ok h.fresh h.worker hself h.flushed
    (fun i hi => .inr ⟨hi, hholds i⟩) fun _ => .inl hc

theorem Inv.ensureBody (h : s.Inv) {record : R} (hcall : s.calls a = .ensureBody i record) :
    ((s.set i (s.workers i).ensureStarted).goto a (.putNowait i record)).Inv := by
  have hknows := h.knows a
  rw [hcall] at hknows
  have hknows : i < s.created := hknows
  refine h.set hknows (h.ok i).ensureStarted Worker.grows_ensureStarted ⟨hknows, ?_⟩
    (fun hlock => ?_) (fun j hj hholds => ?_) (by rw [hcall]; exact not_false)
  · change (Function.update s.workers i (s.workers i).ensureStarted i).started = true
    rw [Function.update_self]
    exact Worker.started_ensureStarted
  · rw [Worker.ensureStarted] at hlock
    split at hlock <;> cases hlock
  · rw [hcall] at hholds
    exact hj hholds.symm

theorem Inv.shutdownBody (h : s.Inv) {before : ℕ} (hcall : s.calls a = .shutdownBody i before)
    (hstep : s.advance a (.shutdownBody i before) = some t) : t.Inv := by
  have hknows := h.knows a
  rw [hcall] at hknows
  obtain ⟨hi, hbefore⟩ := hknows
  have hgrows : Worker.Grows (s.workers i) { s.workers i with lock := false } :=
    ⟨id, id, Nat.le_refl _, Nat.le_refl _⟩
  have hset {c : Call R} (hself : s.Knows c) :
      ((s.set i { s.workers i with lock := false }).goto a c).Inv := by
    refine h.set hi ((h.ok i).set_lock false) hgrows (hself.follows (.of_set rfl rfl hgrows))
      (fun hlock => (nomatch hlock)) (fun j hj hholds => ?_) (by rw [hcall]; exact not_false)
    rw [hcall] at hholds
    exact hj hholds.symm
  simp only [advance] at hstep
  split at hstep
  next habsent =>
    obtain rfl := Option.some.inj hstep
    have hzero := (h.ok i).accepted_eq_nil habsent
    rw [hzero] at hbefore
    obtain rfl := Nat.le_zero.mp hbefore
    have hidle := hset (c := .idle) trivial
    refine ⟨hidle.ok, hidle.fresh, hidle.worker, hidle.knows, fun f hf => ?_, hidle.locked,
      hidle.globally, hidle.finite⟩
    obtain hold | hnew := List.mem_append.mp hf
    · exact hidle.flushed f hold
    · obtain rfl := List.mem_singleton.mp hnew
      exact ⟨hi, Nat.zero_le _⟩
  next hthere =>
    obtain rfl := Option.some.inj hstep
    refine hset ⟨hi, hbefore, fun _ => ?_⟩
    by_contra hclear
    exact hthere (.inl (Bool.not_eq_true _ ▸ hclear))

theorem Inv.advance (h : s.Inv) (hok : s.Undisturbed (.step a))
    (hstep : s.advance a (s.calls a) = some t) : t.Inv := by
  have hknows := h.knows a
  cases hcall : s.calls a with
  | idle => rw [hcall] at hstep; exact (nomatch hstep)
  | getBody size => exact h.getBody hcall (hcall ▸ hstep)
  | drainBody => exact h.drainBody hcall (hcall ▸ hstep)
  | putNowait i record => exact h.submit hcall hok (hcall ▸ hstep)
  | putNone i before => exact h.putNone hcall hok (hcall ▸ hstep)
  | shutdownBody i before => exact h.shutdownBody hcall (hcall ▸ hstep)
  | ensureBody i record =>
      rw [hcall] at hstep
      obtain rfl := Option.some.inj hstep
      exact h.ensureBody hcall
  | getLock size =>
      rw [hcall] at hstep
      simp only [State.advance] at hstep
      split at hstep
      · exact (nomatch hstep)
      · obtain rfl := Option.some.inj hstep
        exact h.global_lock trivial trivial (by rw [hcall]; exact fun _ => not_false)
  | drainLock =>
      rw [hcall] at hstep
      simp only [State.advance] at hstep
      split at hstep
      · exact (nomatch hstep)
      · obtain rfl := Option.some.inj hstep
        exact h.global_lock trivial trivial (by rw [hcall]; exact fun _ => not_false)
  | ensureLock i record =>
      rw [hcall] at hstep hknows
      simp only [State.advance] at hstep
      split at hstep
      · exact (nomatch hstep)
      · obtain rfl := Option.some.inj hstep
        exact h.lock hknows hknows rfl (by rw [hcall]; exact fun _ => not_false)
          (by rw [hcall]; exact not_false)
  | shutdownLock i before =>
      rw [hcall] at hstep hknows
      simp only [State.advance] at hstep
      split at hstep
      · exact (nomatch hstep)
      · obtain rfl := Option.some.inj hstep
        exact h.lock hknows.1 hknows rfl (by rw [hcall]; exact fun _ => not_false)
          (by rw [hcall]; exact not_false)
  | flush i before shutting =>
      rw [hcall] at hstep hknows
      have hholds (j : ℕ) : ¬ (s.calls a).holds j := by rw [hcall]; exact not_false
      have hglobal : ¬ (s.calls a).holdsGlobal := by rw [hcall]; exact not_false
      simp only [State.advance] at hstep
      split at hstep
      · obtain rfl := Option.some.inj hstep
        exact h.goto hknows hholds hglobal
      next hclear =>
        obtain rfl := Option.some.inj hstep
        obtain ⟨hi, hbefore, hstarted⟩ := hknows
        rw [(h.ok i).accepted_eq_nil (.inl (Bool.not_eq_true _ ▸ hclear))] at hbefore
        exact h.flushes hi (Nat.le_trans hbefore (Nat.zero_le _)) hstarted hholds hglobal
  | join i before shutting =>
      rw [hcall] at hstep hknows
      simp only [State.advance] at hstep
      split at hstep
      next hzero =>
        obtain rfl := Option.some.inj hstep
        obtain ⟨hi, hbefore, hstarted⟩ := hknows
        rw [← (h.ok i).saved_eq hzero] at hbefore
        exact h.flushes hi hbefore hstarted (by rw [hcall]; exact fun _ => not_false)
          (by rw [hcall]; exact not_false)
      · exact (nomatch hstep)
  | threadJoin i before =>
      rw [hcall] at hstep hknows
      simp only [State.advance] at hstep
      split at hstep
      · obtain rfl := Option.some.inj hstep
        exact h.returns hknows.1 hknows.2.2 (by rw [hcall]; exact fun _ => not_false)
          (by rw [hcall]; exact not_false)
      · exact (nomatch hstep)

omit [DecidableEq A] in
theorem calls_of_idle (h : s.idle a = true) : s.calls a = .idle := by
  rw [idle] at h
  cases hcall : s.calls a with
  | idle => rfl
  | _ => rw [hcall] at h; exact (nomatch h)

/-- A call starts. -/
theorem Inv.starts (h : s.Inv) (hidle : s.idle a = true) (hself : s.Knows c) :
    (s.goto a c).Inv := by
  have hcall := calls_of_idle hidle
  exact h.goto hself (by rw [hcall]; exact fun _ => not_false) (by rw [hcall]; exact not_false)

omit [DecidableEq A] in
/-- A thread goes on. -/
theorem Inv.run (h : s.Inv) {w : Worker R} (hrun : (s.workers i).run = some w) :
    (s.set i w).Inv := by
  have hi : i < s.created := by
    by_contra hge
    have habsent := (h.fresh i (Nat.not_lt.mp hge)).1
    simp [Worker.run, habsent] at hrun
  have hfollows : Follows s (s.set i w) := .of_set rfl rfl (Worker.grows_run hrun)
  have hlock : w.lock = (s.workers i).lock := by
    rw [Worker.run] at hrun
    split at hrun <;> first | (obtain rfl := Option.some.inj hrun; rfl) | cases hrun
  refine ⟨h.ok_set ((h.ok i).run hrun), h.fresh_set hi, h.worker,
    fun b => (h.knows b).follows hfollows, h.flushed_follows hfollows,
    fun j hj => h.locked j ?_, h.globally, h.finite⟩
  · change (Function.update s.workers i w j).lock = true at hj
    by_cases hji : j = i
    · subst hji
      rw [Function.update_self, hlock] at hj
      exact hj
    · rw [Function.update_of_ne hji] at hj
      exact hj

omit [DecidableEq A] in
/-- The child of a fork goes on, with nothing that the fork has cut off. -/
theorem Inv.fork (h : s.Inv) (hok : s.Undisturbed (.fork a)) :
    Inv ({ s with workers := fun i => (s.workers i).fork, calls := fun _ => .idle } :
      State A R) := by
  obtain ⟨hglobal, hworkers⟩ := hok
  have hfresh (i : ℕ) (hi : s.created ≤ i) : (s.workers i).thread.isNone = true := by
    rw [(h.fresh i hi).1]
    rfl
  refine ⟨fun i => (h.ok i).fork ?_, fun i hi => ⟨?_, (h.fresh i hi).2⟩, h.worker,
    fun _ => trivial, h.flushed, fun i hi => ?_, fun hset => ?_, ⟨∅, fun _ _ => rfl⟩⟩
  · obtain hlt | hle := Nat.lt_or_ge i s.created
    · exact (hworkers i hlt).2
    · exact .inl (hfresh i hle)
  · change (if (s.workers i).thread.isNone then _ else _) = _
    rw [hfresh i hi]
    rfl
  · change (s.workers i).lock = true at hi
    obtain hlt | hle := Nat.lt_or_ge i s.created
    · rw [(hworkers i hlt).1] at hi
      exact (nomatch hi)
    · rw [(h.fresh i hle).2] at hi
      exact (nomatch hi)
  · change s.workerLock = true at hset
    rw [hglobal] at hset
    exact (nomatch hset)

theorem Inv.step (h : s.Inv) {act : Action A R} (hok : s.Undisturbed act)
    (hstep : s.step act = some t) : t.Inv := by
  cases act with
  | getDeferredDrainWorker a size =>
      simp only [State.step] at hstep
      split at hstep
      next hidle =>
        obtain rfl := Option.some.inj hstep
        exact h.starts hidle trivial
      · exact (nomatch hstep)
  | submit a worker record enabled =>
      simp only [State.step] at hstep
      split at hstep
      next hstart =>
        obtain rfl := Option.some.inj hstep
        split
        · exact h.starts hstart.1 hstart.2
        · exact h
      · exact (nomatch hstep)
  | flush a worker =>
      simp only [State.step] at hstep
      split at hstep
      next hstart =>
        obtain rfl := Option.some.inj hstep
        exact h.starts hstart.1 ⟨hstart.2, Nat.le_refl _, fun hfalse => (nomatch hfalse)⟩
      · exact (nomatch hstep)
  | shutdown a worker =>
      simp only [State.step] at hstep
      split at hstep
      next hstart =>
        obtain rfl := Option.some.inj hstep
        exact h.starts hstart.1 ⟨hstart.2, Nat.le_refl _⟩
      · exact (nomatch hstep)
  | shutdownDeferredDrain a =>
      simp only [State.step] at hstep
      split at hstep
      next hidle =>
        obtain rfl := Option.some.inj hstep
        exact h.starts hidle trivial
      · exact (nomatch hstep)
  | fork a =>
      simp only [State.step] at hstep
      split at hstep
      · obtain rfl := Option.some.inj hstep
        exact h.fork hok
      · exact (nomatch hstep)
  | step a => exact h.advance hok hstep
  | run worker =>
      obtain ⟨w, hrun, rfl⟩ := Option.map_eq_some_iff.mp hstep
      exact h.run hrun

omit [DecidableEq A] in
theorem inv_new : (new : State A R).Inv where
  ok _ := Worker.ok_new 0
  fresh _ _ := ⟨rfl, rfl⟩
  worker _ h := (nomatch h)
  knows _ := trivial
  flushed _ h := (nomatch h)
  locked _ h := (nomatch h)
  globally h := (nomatch h)
  finite := ⟨∅, fun _ _ => rfl⟩

end State

end Probing.Profiling.DeferredDrain
