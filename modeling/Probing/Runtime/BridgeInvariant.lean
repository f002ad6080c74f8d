import Probing.Runtime.Bridge

/-!
# The invariant of the bridge

An activity waits for one that began later, and only jobs that have not been taken are in
their cells. Nothing that waits in the queue has been called under the job that is
executed.

Following who waits for whom leads from every call to one that runs, or into the queue of
the bridge, and from there to the job that is executed. A run is safe when the threads it
needs can be spawned, no job makes a call for the bridge through what it waits for, and no
closure panics as a job.
-/

namespace Probing.Runtime

open Probing.Core

/-- What holds of an activity by itself. -/
structure Activity.Valid (n : ℕ) (a : Activity) : Prop where
  older : ∀ c ∈ a.callers, c < n
  once : a.started ≤ 1
  cell : a.stored = true ↔ a.phase = .queued
  queued : a.phase = .queued → a.started = 0 ∧ a.callers ≠ [] ∧ a.wrapped = true
  ended : ∀ r, a.delivered = some r → a.phase = .finished
  wrapped : a.wrapped = true → a.thread = .bridge
  value : ∀ v, a.delivered = some (.value v) → a.outcome = some (.returned v)
  panicked : a.delivered = some .panicked → a.outcome = some .panicked ∧ a.route = .direct

namespace State

/-- The activities fit together. -/
structure Linked (s : State) : Prop where
  valid : ∀ n < s.count, (s.activity n).Valid n
  direct : ∀ n < s.count, (s.activity n).route = .direct → s.OnCallersThread n
  callee : ∀ n < s.count, ∀ c, (s.activity n).phase = .waiting c →
    c < s.count ∧ (s.activity c).callers = s.callersFrom n
  taken : ∀ n < s.count, ∀ c ∈ (s.activity n).callers, (s.activity c).phase ≠ .queued
  closed : ∀ n < s.count, ∀ c ∈ (s.activity n).callers, ∀ b ∈ (s.activity c).callers,
    b ∈ (s.activity n).callers

/-- The bridge thread and its queue. -/
structure Serves (s : State) : Prop where
  queue : ∀ q, q ∈ s.queue ↔ q < s.count ∧ (s.activity q).phase = .queued
  nodup : s.queue.Nodup
  job : ∀ j, s.job = some j → j < s.count ∧ (s.activity j).phase ≠ .queued ∧
    (s.activity j).phase ≠ .finished ∧ (s.activity j).callers ≠ [] ∧ (s.activity j).wrapped = true
  wrapped : ∀ n < s.count, (s.activity n).wrapped = true →
    (s.activity n).phase = .queued ∨ (s.activity n).phase = .finished ∨ s.job = some n
  behind : ∀ j, s.job = some j → ∀ q ∈ s.queue, j ∉ (s.activity q).callers
  flag : ∀ θ, s.onNativeBridge θ = true ↔ θ = .bridge ∧ s.job.isSome = true

structure Inv (s : State) : Prop where
  linked : s.Linked
  serves : s.Serves

variable {s : State} {n c : ℕ} {a : Activity}

section Linked

theorem put_self (s : State) (n : ℕ) (a : Activity) : (s.put n a).activity n = a :=
  Function.update_self ..

theorem put_of_ne {m : ℕ} (h : m ≠ n) (s : State) (a : Activity) :
    (s.put n a).activity m = s.activity m :=
  Function.update_of_ne h ..

theorem add_self (s : State) (a : Activity) : (s.add a).activity s.count = a :=
  Function.update_self ..

theorem add_of_lt {m : ℕ} (h : m < s.count) (a : Activity) : (s.add a).activity m = s.activity m :=
  Function.update_of_ne (Nat.ne_of_lt h) ..

theorem Linked.older (h : s.Linked) (hn : n < s.count) (hc : c ∈ (s.activity n).callers) :
    c < s.count :=
  Nat.lt_trans ((h.valid n hn).older c hc) hn

/-- An activity with callers that have begun. -/
structure Joins (s : State) (a : Activity) : Prop where
  valid : a.Valid s.count
  direct : a.route = .direct → ∃ c, a.callers.head? = some c ∧ (s.activity c).thread = a.thread
  fresh : ∀ c, a.phase ≠ .waiting c
  taken : ∀ c ∈ a.callers, (s.activity c).phase ≠ .queued
  closed : ∀ c ∈ a.callers, ∀ b ∈ (s.activity c).callers, b ∈ a.callers

theorem Linked.add (h : s.Linked) (ha : s.Joins a) : (s.add a).Linked := by
  have hcases (m : ℕ) (hm : m < (s.add a).count) : m = s.count ∨ m < s.count :=
    (Nat.lt_or_eq_of_le (Nat.lt_succ_iff.mp hm)).symm
  constructor
  · intro m hm
    rcases hcases m hm with rfl | hold
    · rw [add_self]
      exact ha.valid
    · rw [add_of_lt hold]
      exact h.valid m hold
  · intro m hm hroute
    unfold OnCallersThread
    rcases hcases m hm with rfl | hold
    · rw [add_self] at hroute ⊢
      obtain ⟨c, hc, hthread⟩ := ha.direct hroute
      refine ⟨c, hc, ?_⟩
      rw [add_of_lt (ha.valid.older c (List.mem_of_head? hc))]
      exact hthread
    · rw [add_of_lt hold] at hroute ⊢
      obtain ⟨c, hc, hthread⟩ := h.direct m hold hroute
      refine ⟨c, hc, ?_⟩
      rw [add_of_lt (h.older hold (List.mem_of_head? hc))]
      exact hthread
  · intro m hm c hphase
    unfold callersFrom
    rcases hcases m hm with rfl | hold
    · rw [add_self] at hphase
      exact absurd hphase (ha.fresh c)
    · rw [add_of_lt hold] at hphase ⊢
      obtain ⟨hc, hcallers⟩ := h.callee m hold c hphase
      rw [add_of_lt hc]
      exact ⟨Nat.lt_succ_of_lt hc, hcallers⟩
  · intro m hm c hc
    rcases hcases m hm with rfl | hold
    · rw [add_self] at hc
      rw [add_of_lt (ha.valid.older c hc)]
      exact ha.taken c hc
    · rw [add_of_lt hold] at hc
      rw [add_of_lt (h.older hold hc)]
      exact h.taken m hold c hc
  · intro m hm c hc b hb
    rcases hcases m hm with rfl | hold
    · rw [add_self] at hc ⊢
      rw [add_of_lt (ha.valid.older c hc)] at hb
      exact ha.closed c hc b hb
    · rw [add_of_lt hold] at hc ⊢
      rw [add_of_lt (h.older hold hc)] at hb
      exact h.closed m hold c hc b hb

/-- What an activity may become: the same call in another phase. -/
structure Becomes (s : State) (n : ℕ) (a : Activity) : Prop where
  lt : n < s.count
  valid : a.Valid n
  callers : a.callers = (s.activity n).callers
  route : a.route = (s.activity n).route
  thread : a.thread = (s.activity n).thread
  callee : ∀ c, a.phase = .waiting c → c < s.count ∧ (s.activity c).callers = s.callersFrom n
  taken : a.phase ≠ .queued

theorem Becomes.callers_eq (ha : s.Becomes n a) (m : ℕ) :
    ((s.put n a).activity m).callers = (s.activity m).callers := by
  by_cases hm : m = n
  · rw [hm, put_self]
    exact ha.callers
  · rw [put_of_ne hm]

theorem Becomes.thread_eq (ha : s.Becomes n a) (m : ℕ) :
    ((s.put n a).activity m).thread = (s.activity m).thread := by
  by_cases hm : m = n
  · rw [hm, put_self]
    exact ha.thread
  · rw [put_of_ne hm]

theorem Linked.put (h : s.Linked) (ha : s.Becomes n a) : (s.put n a).Linked := by
  constructor
  · intro m hm
    by_cases hmn : m = n
    · rw [hmn, put_self]
      exact ha.valid
    · rw [put_of_ne hmn]
      exact h.valid m hm
  · intro m hm hroute
    have hbefore : (s.activity m).route = .direct := by
      by_cases hmn : m = n
      · rw [hmn, put_self] at hroute
        rw [hmn, ← ha.route]
        exact hroute
      · rwa [put_of_ne hmn] at hroute
    obtain ⟨c, hc, hthread⟩ := h.direct m hm hbefore
    refine ⟨c, ?_, ?_⟩
    · rw [ha.callers_eq]
      exact hc
    · rw [ha.thread_eq, ha.thread_eq]
      exact hthread
  · intro m hm c hphase
    unfold callersFrom
    rw [ha.callers_eq, ha.callers_eq]
    by_cases hmn : m = n
    · rw [hmn, put_self] at hphase
      rw [hmn]
      exact ha.callee c hphase
    · rw [put_of_ne hmn] at hphase
      exact h.callee m hm c hphase
  · intro m hm c hc
    rw [ha.callers_eq] at hc
    by_cases hcn : c = n
    · rw [hcn, put_self]
      exact ha.taken
    · rw [put_of_ne hcn]
      exact h.taken m hm c hc
  · intro m hm c hc b hb
    rw [ha.callers_eq] at hc hb ⊢
    exact h.closed m hm c hc b hb

/-- An activity that runs may wait for one that it called. -/
theorem Linked.waits (h : s.Linked) (hn : s.Running n) (hc : c < s.count)
    (hcallers : (s.activity c).callers = s.callersFrom n) :
    s.Becomes n { s.activity n with phase := .waiting c } := by
  have hv := h.valid n hn.1
  refine ⟨hn.1, ⟨hv.older, hv.once, ?_, fun hq => (nomatch hq), fun r hr => ?_, hv.wrapped,
    hv.value, hv.panicked⟩, rfl, rfl, rfl, fun c' hc' => ?_, fun hq => (nomatch hq)⟩
  · rw [hv.cell, hn.2]
    exact ⟨fun hq => (nomatch hq), fun hq => (nomatch hq)⟩
  · exact nomatch hn.2.symm.trans (hv.ended r hr)
  · obtain rfl := Phase.waiting.inj hc'
    exact ⟨hc, hcallers⟩

theorem call_eq (hn : n < s.count) (a : Activity) :
    s.call n a = (s.add a).put n { (s.add a).activity n with phase := .waiting s.count } := by
  rw [add_of_lt hn]
  unfold call add setPhase put
  dsimp only
  rw [Function.update_comm (Nat.ne_of_gt hn)]

theorem Linked.waits_new (h : s.Linked) (hn : s.Running n) (ha : s.Joins a)
    (hcallers : a.callers = s.callersFrom n) :
    (s.add a).Becomes n { (s.add a).activity n with phase := .waiting s.count } := by
  have hrun : (s.add a).Running n := by
    refine ⟨Nat.lt_succ_of_lt hn.1, ?_⟩
    rw [add_of_lt hn.1]
    exact hn.2
  refine (h.add ha).waits hrun (Nat.lt_succ_self _) ?_
  unfold callersFrom
  rw [add_self, add_of_lt hn.1]
  exact hcallers

/-- What an activity that runs can call. -/
theorem Linked.joins (h : s.Linked) (hn : s.Running n) (hcallers : a.callers = s.callersFrom n)
    (hvalid : (∀ c ∈ a.callers, c < s.count) → a.Valid s.count)
    (hdirect : a.route = .direct → (s.activity n).thread = a.thread)
    (hfresh : ∀ c, a.phase ≠ .waiting c) :
    s.Joins a where
  valid := by
    apply hvalid
    intro c hc
    rw [hcallers] at hc
    rcases List.mem_cons.mp hc with rfl | hc
    · exact hn.1
    · exact h.older hn.1 hc
  direct hroute := ⟨n, by rw [hcallers]; rfl, hdirect hroute⟩
  fresh := hfresh
  taken c hc := by
    rw [hcallers] at hc
    rcases List.mem_cons.mp hc with rfl | hc
    · rw [hn.2]
      exact fun hq => (nomatch hq)
    · exact h.taken n hn.1 c hc
  closed c hc b hb := by
    rw [hcallers] at hc ⊢
    rcases List.mem_cons.mp hc with rfl | hc
    · exact List.mem_cons_of_mem _ hb
    · exact List.mem_cons_of_mem _ (h.closed n hn.1 c hc b hb)

theorem Linked.joins_begun (h : s.Linked) (hn : s.Running n) {route : Route}
    {thread : Thread} (inside : Bool) (hdirect : route = .direct → (s.activity n).thread = thread) :
    s.Joins (.begun (s.callersFrom n) route thread inside) :=
  h.joins hn rfl
    (fun holder => ⟨holder, Nat.le_refl _, ⟨fun hf => (nomatch hf), fun hf => (nomatch hf)⟩,
    fun hf => (nomatch hf), fun _ hf => (nomatch hf), fun hf => (nomatch hf),
    fun _ hf => (nomatch hf), fun hf => (nomatch hf)⟩)
    hdirect fun _ hf => (nomatch hf)

theorem Linked.joins_sent (h : s.Linked) (hn : s.Running n) {route : Route} (inside : Bool)
    (hroute : route ≠ .direct) : s.Joins (.sent (s.callersFrom n) route inside) :=
  h.joins hn rfl (fun holder => ⟨holder, Nat.zero_le _, ⟨fun _ => rfl, fun _ => rfl⟩,
    fun _ => ⟨rfl, List.cons_ne_nil _ _, rfl⟩, fun _ hf => (nomatch hf), fun _ => rfl,
    fun _ hf => (nomatch hf), fun hf => (nomatch hf)⟩)
    (fun hf => absurd hf hroute) fun _ hf => (nomatch hf)

theorem Linked.congr {t : State} (h : s.Linked) (hactivity : t.activity = s.activity)
    (hcount : t.count = s.count) :
    t.Linked := by
  constructor
  · rw [hactivity, hcount]
    exact h.valid
  · unfold OnCallersThread
    rw [hactivity, hcount]
    exact h.direct
  · unfold callersFrom
    rw [hactivity, hcount]
    exact h.callee
  · rw [hactivity, hcount]
    exact h.taken
  · rw [hactivity, hcount]
    exact h.closed

end Linked

section Serves

theorem Serves.add (h : s.Serves) (hphase : a.phase ≠ .queued) (hwrapped : a.wrapped = false) :
    (s.add a).Serves where
  queue q := by
    constructor
    · intro hq
      obtain ⟨hlt, hqueued⟩ := (h.queue q).mp hq
      rw [add_of_lt hlt]
      exact ⟨Nat.lt_succ_of_lt hlt, hqueued⟩
    · rintro ⟨hlt, hqueued⟩
      rcases Nat.lt_or_eq_of_le (Nat.lt_succ_iff.mp hlt) with hold | rfl
      · rw [add_of_lt hold] at hqueued
        exact (h.queue q).mpr ⟨hold, hqueued⟩
      · rw [add_self] at hqueued
        exact absurd hqueued hphase
  nodup := h.nodup
  job j hj := by
    obtain ⟨hlt, hjob⟩ := h.job j hj
    rw [add_of_lt hlt]
    exact ⟨Nat.lt_succ_of_lt hlt, hjob⟩
  wrapped n hn hset := by
    rcases Nat.lt_or_eq_of_le (Nat.lt_succ_iff.mp hn) with hold | rfl
    · rw [add_of_lt hold] at hset ⊢
      exact h.wrapped n hold hset
    · rw [add_self, hwrapped] at hset
      cases hset
  behind j hj q hq := by
    rw [add_of_lt ((h.queue q).mp hq).1]
    exact h.behind j hj q hq
  flag := h.flag

/-- A job is put at the end of the queue, and the executed job does not wait for it. -/
theorem Serves.send (h : s.Serves) (hphase : a.phase = .queued)
    (hbehind : ∀ j, s.job = some j → j ∉ a.callers) :
    State.Serves { s.add a with queue := s.queue ++ [s.count] } where
  queue q := by
    change q ∈ s.queue ++ [s.count] ↔ q < s.count + 1 ∧ ((s.add a).activity q).phase = .queued
    rw [List.mem_append, List.mem_singleton]
    rcases Nat.lt_trichotomy q s.count with hold | rfl | hnone
    · rw [add_of_lt hold, h.queue q]
      exact ⟨fun hq => hq.elim (fun hq => ⟨Nat.lt_succ_of_lt hold, hq.2⟩) fun hq =>
        absurd hq (Nat.ne_of_lt hold), fun hq => .inl ⟨hold, hq.2⟩⟩
    · rw [add_self]
      exact ⟨fun _ => ⟨Nat.lt_succ_self _, hphase⟩, fun _ => .inr rfl⟩
    · refine ⟨fun hq => ?_, fun hq => absurd hq.1 (by omega)⟩
      rcases hq with hq | hq
      · exact absurd ((h.queue q).mp hq).1 (Nat.lt_asymm hnone)
      · exact absurd hq (Nat.ne_of_gt hnone)
  nodup := by
    refine List.nodup_append.mpr ⟨h.nodup, by simp, fun q hq r hr => ?_⟩
    rw [List.mem_singleton.mp hr]
    exact Nat.ne_of_lt ((h.queue q).mp hq).1
  job j hj := by
    obtain ⟨hlt, hjob⟩ := h.job j hj
    change j < s.count + 1 ∧ ((s.add a).activity j).phase ≠ .queued ∧
      ((s.add a).activity j).phase ≠ .finished ∧ ((s.add a).activity j).callers ≠ [] ∧
      ((s.add a).activity j).wrapped = true
    rw [add_of_lt hlt]
    exact ⟨Nat.lt_succ_of_lt hlt, hjob⟩
  wrapped n hn hset := by
    change ((s.add a).activity n).phase = _ ∨ ((s.add a).activity n).phase = _ ∨ _
    change ((s.add a).activity n).wrapped = true at hset
    rcases Nat.lt_or_eq_of_le (Nat.lt_succ_iff.mp hn) with hold | rfl
    · rw [add_of_lt hold] at hset ⊢
      exact h.wrapped n hold hset
    · rw [add_self]
      exact .inl hphase
  behind j hj q hq := by
    change j ∉ ((s.add a).activity q).callers
    rcases List.mem_append.mp hq with hq | hq
    · rw [add_of_lt ((h.queue q).mp hq).1]
      exact h.behind j hj q hq
    · rw [List.mem_singleton.mp hq, add_self]
      exact hbehind j hj
  flag := h.flag

/-- An activity that has been taken goes on, and one that is not the job may end. -/
theorem Serves.put (h : s.Serves) (ha : s.Becomes n a) (hbefore : (s.activity n).phase ≠ .queued)
    (hwrapped : a.wrapped = (s.activity n).wrapped) (hends : a.phase = .finished → s.job ≠ some n)
    (hended : (s.activity n).phase = .finished → a.phase = .finished) : (s.put n a).Serves where
  queue q := by
    change q ∈ s.queue ↔ q < s.count ∧ _
    by_cases hq : q = n
    · rw [hq, put_self, h.queue n]
      exact ⟨fun hn => absurd hn.2 hbefore, fun hn => absurd hn.2 ha.taken⟩
    · rw [put_of_ne hq]
      exact h.queue q
  nodup := h.nodup
  job j hj := by
    obtain ⟨hlt, hqueued, hfinished, hcallers, hset⟩ := h.job j hj
    by_cases hjn : j = n
    · subst hjn
      rw [put_self]
      refine ⟨hlt, ha.taken, fun hend => hends hend hj, ?_, ?_⟩
      · rw [ha.callers]
        exact hcallers
      · rw [hwrapped]
        exact hset
    · rw [put_of_ne hjn]
      exact ⟨hlt, hqueued, hfinished, hcallers, hset⟩
  wrapped m hm hset := by
    by_cases hmn : m = n
    · subst hmn
      rw [put_self] at hset ⊢
      rw [hwrapped] at hset
      rcases h.wrapped m hm hset with hqueued | hfinished | hjob
      · exact absurd hqueued hbefore
      · exact .inr (.inl (hended hfinished))
      · exact .inr (.inr hjob)
    · rw [put_of_ne hmn] at hset ⊢
      exact h.wrapped m hm hset
  behind j hj q hq := by
    rw [ha.callers_eq]
    exact h.behind j hj q hq
  flag := h.flag

theorem Serves.slot (h : s.Serves) (slot : Option Bool) : State.Serves { s with slot := slot } :=
  ⟨h.queue, h.nodup, h.job, h.wrapped, h.behind, h.flag⟩

/-- The bridge takes the first job. -/
theorem Serves.start {q : ℕ} {rest : List ℕ} (h : s.Serves) (hlinked : s.Linked)
    (hidle : s.job = none) (hqueue : s.queue = q :: rest) (ha : s.Becomes q a)
    (hwrapped : a.wrapped = (s.activity q).wrapped) (hphase : a.phase = .running) :
    State.Serves { (s.put q a).setFlag .bridge true with queue := rest, job := some q } := by
  have hmem : q ∈ s.queue := by rw [hqueue]; exact List.mem_cons_self
  have hnodup := h.nodup
  rw [hqueue, List.nodup_cons] at hnodup
  obtain ⟨hlt, hqueued⟩ := (h.queue q).mp hmem
  have hv := (hlinked.valid q hlt).queued hqueued
  refine ⟨fun r => ?_, hnodup.2, fun j hj => ?_, fun m hm hset => ?_,
    fun j hj r hr => ?_, fun θ => ?_⟩
  · change r ∈ rest ↔ r < s.count ∧ ((s.put q a).activity r).phase = .queued
    by_cases hrq : r = q
    · subst hrq
      rw [put_self, hphase]
      exact ⟨fun hr => absurd hr hnodup.1, fun hr => (nomatch hr.2)⟩
    · rw [put_of_ne hrq, ← h.queue r, hqueue, List.mem_cons]
      exact ⟨.inr, fun hr => hr.resolve_left hrq⟩
  · obtain rfl := Option.some.inj hj
    change q < s.count ∧ ((s.put q a).activity q).phase ≠ .queued ∧
      ((s.put q a).activity q).phase ≠ .finished ∧ ((s.put q a).activity q).callers ≠ [] ∧
      ((s.put q a).activity q).wrapped = true
    rw [put_self, hphase, ha.callers, hwrapped]
    exact ⟨hlt, fun hq => (nomatch hq), fun hq => (nomatch hq), hv.2.1, hv.2.2⟩
  · change ((s.put q a).activity m).phase = _ ∨ ((s.put q a).activity m).phase = _ ∨ some q = some m
    change ((s.put q a).activity m).wrapped = true at hset
    by_cases hmq : m = q
    · exact .inr (.inr (congrArg some hmq.symm))
    · rw [put_of_ne hmq] at hset ⊢
      rcases h.wrapped m hm hset with hq | hf | hjob
      · exact .inl hq
      · exact .inr (.inl hf)
      · rw [hidle] at hjob
        cases hjob
  · -- No activity was called by a job that had not been taken.
    obtain rfl := Option.some.inj hj
    change q ∉ ((s.put q a).activity r).callers
    rw [ha.callers_eq]
    have hr' : r ∈ s.queue := by rw [hqueue]; exact List.mem_cons_of_mem _ hr
    intro hcaller
    exact hlinked.taken r ((h.queue r).mp hr').1 q hcaller hqueued
  · change Function.update s.onNativeBridge .bridge true θ = true ↔ _
    rw [Function.update_apply]
    split_ifs with hθ
    · exact ⟨fun _ => ⟨hθ, rfl⟩, fun _ => rfl⟩
    · rw [h.flag, hidle]
      exact ⟨fun hf => absurd hf.1 hθ, fun hf => absurd hf.1 hθ⟩

/-- The job comes to its end, and resets the flag. -/
theorem Serves.done (h : s.Serves) (ha : s.Becomes n a) (hjob : s.job = some n)
    (hphase : a.phase = .finished) :
    State.Serves (State.setFlag { s.put n a with job := none } .bridge false) := by
  obtain ⟨hlt, hqueued, -⟩ := h.job n hjob
  refine ⟨fun q => ?_, h.nodup, fun j hj => (nomatch hj), fun m hm hset => ?_,
    fun j hj => (nomatch hj), fun θ => ?_⟩
  · change q ∈ s.queue ↔ q < s.count ∧ ((s.put n a).activity q).phase = .queued
    by_cases hq : q = n
    · rw [hq, put_self, h.queue n]
      exact ⟨fun hn => absurd hn.2 hqueued, fun hn => absurd hn.2 ha.taken⟩
    · rw [put_of_ne hq]
      exact h.queue q
  · change ((s.put n a).activity m).phase = _ ∨ ((s.put n a).activity m).phase = _ ∨ _
    change ((s.put n a).activity m).wrapped = true at hset
    by_cases hmn : m = n
    · rw [hmn, put_self]
      exact .inr (.inl hphase)
    · rw [put_of_ne hmn] at hset ⊢
      rcases h.wrapped m hm hset with hq | hf | hj
      · exact .inl hq
      · exact .inr (.inl hf)
      · exact absurd (Option.some.inj (hj.symm.trans hjob)) hmn
  · change Function.update s.onNativeBridge .bridge false θ = true ↔ _
    rw [Function.update_apply]
    split_ifs with hθ
    · exact ⟨fun hf => (nomatch hf), fun hf => (nomatch hf.2)⟩
    · rw [h.flag]
      exact ⟨fun hf => absurd hf.1 hθ, fun hf => absurd hf.1 hθ⟩

end Serves

section Steps

variable {t : State} {spawns : Bool}

/-- A call in place. -/
theorem Inv.call (h : s.Inv) (hn : s.Running n) {route : Route} {thread : Thread} (inside : Bool)
    (hdirect : route = .direct → (s.activity n).thread = thread) :
    (s.call n (.begun (s.callersFrom n) route thread inside)).Inv := by
  have hjoins := h.linked.joins_begun hn inside hdirect
  have hwaits := h.linked.waits_new hn hjoins rfl
  have hbefore : ((s.add (.begun (s.callersFrom n) route thread inside)).activity n).phase =
      .running := by
    rw [add_of_lt hn.1]
    exact hn.2
  rw [call_eq hn.1]
  refine ⟨(h.linked.add hjoins).put hwaits, ?_⟩
  have hserves :=
    h.serves.add (a := .begun (s.callersFrom n) route thread inside) (fun hf => (nomatch hf)) rfl
  exact hserves.put hwaits (fun hf => (nomatch hbefore.symm.trans hf)) rfl (fun hf => (nomatch hf))
    fun hf => (nomatch hbefore.symm.trans hf)

/-- A call that is sent to the bridge. -/
theorem Inv.send (h : s.Inv) (hn : s.Running n) {route : Route} (inside : Bool) (slot : Option Bool)
    (hroute : route ≠ .direct) (hunder : ¬ s.UnderJob n) :
    State.Inv { s.call n (.sent (s.callersFrom n) route inside) with
      slot := slot
      queue := s.queue ++ [s.count] } := by
  have hjoins := h.linked.joins_sent hn inside hroute
  have hwaits := h.linked.waits_new hn hjoins rfl
  have hbefore : ((s.add (.sent (s.callersFrom n) route inside)).activity n).phase = .running := by
    rw [add_of_lt hn.1]
    exact hn.2
  have hsend := h.serves.send (a := .sent (s.callersFrom n) route inside) rfl fun j hj hmem =>
    hunder ⟨j, hj, (List.mem_cons.mp hmem).imp Eq.symm id⟩
  rw [call_eq hn.1]
  have hserves := hsend.put (a := { (s.add (.sent (s.callersFrom n) route inside)).activity n with
    phase := .waiting s.count }) ⟨hwaits.lt, hwaits.valid, hwaits.callers,
    hwaits.route, hwaits.thread,
      hwaits.callee, hwaits.taken⟩
    (fun hf => (nomatch hbefore.symm.trans hf)) rfl (fun hf => (nomatch hf))
    fun hf => (nomatch hbefore.symm.trans hf)
  exact ⟨((h.linked.add hjoins).put hwaits).congr rfl rfl, hserves.slot slot⟩

theorem Inv.runHere (h : s.Inv) (hn : s.Running n) (w : Ways) : (s.runHere n w).Inv :=
  h.call hn _ fun _ => rfl

theorem Inv.runOnNativeThread (h : s.Inv) (hn : s.Running n) {w : Ways} (hw : w.bridged ≠ .direct)
    (hcalm : s.ForBridge n → s.hasThread spawns = true ∧ ¬ s.UnderJob n) :
    (s.runOnNativeThread n spawns w).Inv := by
  unfold State.runOnNativeThread
  by_cases hneeds : s.needsNativeBridge n = true
  · rw [if_pos hneeds]
    unfold State.runOnNativeBridge
    by_cases hflag : s.onNativeBridge (s.activity n).thread = true
    · rw [if_pos hflag]
      exact h.runHere hn w
    · rw [if_neg hflag]
      obtain ⟨hthread, hunder⟩ := hcalm ⟨hneeds, Bool.eq_false_iff.mpr hflag⟩
      unfold State.nativeCall
      dsimp only
      rw [if_pos hthread]
      exact h.send hn w.insideBridged (some (s.hasThread spawns)) hw hunder
  · rw [if_neg hneeds]
    exact h.runHere hn w

theorem Inv.blockOn (h : s.Inv) (hn : s.Running n) (hcalm : s.Calm (.blockOn n spawns)) :
    (s.blockOn n spawns).Inv := by
  dsimp only [Calm] at hcalm
  unfold State.blockOn
  by_cases hinside : (s.activity n).inside = true
  · rw [if_pos hinside] at hcalm ⊢
    by_cases hflag : s.onNativeBridge (s.activity n).thread = true
    · rw [if_pos hflag]
      exact h.call hn true fun hf => (nomatch hf)
    · rw [if_neg hflag]
      unfold spawnBlockOnThread
      rw [if_pos (hcalm (Bool.eq_false_iff.mpr hflag))]
      exact h.call hn true fun hf => (nomatch hf)
  · rw [if_neg hinside] at hcalm ⊢
    exact h.runOnNativeThread hn (fun hf => (nomatch hf)) hcalm

/-- Code that no call waits for yet. -/
theorem Inv.add (h : s.Inv) (hjoins : s.Joins a) (hphase : a.phase = .running)
    (hwrapped : a.wrapped = false) :
    (s.add a).Inv :=
  ⟨h.linked.add hjoins, h.serves.add (by rw [hphase]; exact fun hf => (nomatch hf)) hwrapped⟩

theorem Inv.startJob {q : ℕ} {rest : List ℕ} (h : s.Inv) (hidle : s.job = none)
    (hqueue : s.queue = q :: rest) :
    (s.startJob q rest).Inv := by
  have hmem : q ∈ s.queue := by rw [hqueue]; exact List.mem_cons_self
  obtain ⟨hlt, hqueued⟩ := (h.serves.queue q).mp hmem
  have hv := h.linked.valid q hlt
  obtain ⟨hzero, -, -⟩ := hv.queued hqueued
  have hstored := hv.cell.mpr hqueued
  have hbecomes : s.Becomes q (s.activity q).start := by
    refine ⟨hlt,
      ⟨hv.older, ?_, ⟨fun hf => (nomatch hf), fun hf => (nomatch hf)⟩, fun hf => (nomatch hf),
      fun r hr => (nomatch hqueued.symm.trans (hv.ended r hr)), hv.wrapped, hv.value,
      hv.panicked⟩, rfl, rfl, rfl, fun c hc => (nomatch hc), fun hf => (nomatch hf)⟩
    change (s.activity q).started + 1 ≤ 1
    omega
  unfold State.startJob
  rw [if_pos hstored]
  exact ⟨(h.linked.put hbecomes).congr rfl rfl,
    h.serves.start h.linked hidle hqueue hbecomes rfl rfl⟩

theorem Inv.settle {o : Outcome} (h : s.Inv) (hn : s.Running n) (hcalm : s.Calm (.settle n o)) :
    (s.settle n o).Inv := by
  have hv := h.linked.valid n hn.1
  have hundelivered (r : CallResult) (hr : (s.activity n).delivered = some r) : False :=
    nomatch hn.2.symm.trans (hv.ended r hr)
  have hbecomes : s.Becomes n { s.activity n with phase := .finished, outcome := some o } := by
    refine ⟨hn.1, ⟨hv.older, hv.once, ?_, fun hf => (nomatch hf), fun _ _ => rfl, hv.wrapped,
      fun v hr => (hundelivered _ hr).elim, fun hr => (hundelivered _ hr).elim⟩, rfl, rfl, rfl,
      fun c hc => (nomatch hc), fun hf => (nomatch hf)⟩
    rw [hv.cell, hn.2]
    exact ⟨fun hf => (nomatch hf), fun hf => (nomatch hf)⟩
  unfold State.settle
  dsimp only
  by_cases hjob : s.job = some n
  · obtain ⟨-, -, -, -, hwrapped⟩ := h.serves.job n hjob
    have hdone := h.serves.done hbecomes hjob rfl
    rw [← hv.wrapped hwrapped] at hdone
    rw [if_pos hjob, if_pos ⟨hwrapped, fun ho => hcalm ho hjob⟩]
    exact ⟨(h.linked.put hbecomes).congr rfl rfl, hdone⟩
  · have hplain : (s.activity n).wrapped = false := by
      rw [← Bool.not_eq_true]
      intro hwrapped
      rcases h.serves.wrapped n hn.1 hwrapped with hq | hf | hj
      · exact nomatch hn.2.symm.trans hq
      · exact nomatch hn.2.symm.trans hf
      · exact hjob hj
    rw [if_neg hjob, if_neg fun hw => Bool.false_ne_true (hplain.symm.trans hw.1)]
    refine ⟨(h.linked.put hbecomes).congr rfl rfl, ?_⟩
    exact h.serves.put hbecomes (fun hf => (nomatch hn.2.symm.trans hf)) rfl (fun _ => hjob)
      fun hf => (nomatch hn.2.symm.trans hf)

theorem result_value {v : ℕ} (h : a.result = .value v) : a.outcome = some (.returned v) := by
  unfold Activity.result at h
  split at h
  case h_1 v' houtcome =>
      obtain rfl := CallResult.value.inj h
      exact houtcome
  case h_2 => split_ifs at h
  case h_3 => cases h

theorem result_panicked (h : a.result = .panicked) : a.outcome = some .panicked ∧
    a.route = .direct := by
  unfold Activity.result at h
  split at h
  case h_1 => cases h
  case h_2 houtcome =>
      split_ifs at h with hroute
      exact ⟨houtcome, hroute⟩
  case h_3 => cases h

theorem Inv.deliver (h : s.Inv) (hn : n < s.count) (hwait : (s.activity n).phase = .waiting c)
    (hdone : (s.activity c).phase = .finished) : (s.deliver n c).Inv := by
  obtain ⟨hc, hcallers⟩ := h.linked.callee n hn c hwait
  have hv := h.linked.valid c hc
  have hvn := h.linked.valid n hn
  have hne : n ≠ c := by
    intro hnc
    rw [hnc, hdone] at hwait
    cases hwait
  have hempty : ¬ (s.activity c).stored = true :=
    fun hs => (nomatch hdone.symm.trans (hv.cell.mp hs))
  have hresult : s.Becomes c { s.activity c with delivered := some (s.activity c).result } :=
    ⟨hc, ⟨hv.older, hv.once, hv.cell, fun hf => (nomatch hdone.symm.trans hf),
      fun _ _ => hdone, hv.wrapped, fun v hr => result_value (Option.some.inj hr),
      fun hr => result_panicked (Option.some.inj hr)⟩, rfl, rfl, rfl,
      fun c' hc' => (nomatch hdone.symm.trans hc'), fun hf => (nomatch hdone.symm.trans hf)⟩
  have hserves := h.serves.put hresult (fun hf => (nomatch hdone.symm.trans hf)) rfl
    (fun _ hjob => (h.serves.job c hjob).2.2.1 hdone) fun _ => hdone
  have hlinked := h.linked.put hresult
  have hgoes : (s.put c { s.activity c with delivered := some (s.activity c).result }).Becomes n
      { s.activity n with phase := .running } := by
    refine ⟨hn, ⟨hvn.older, hvn.once, ?_, fun hf => (nomatch hf), fun r hr => ?_, hvn.wrapped,
      hvn.value, hvn.panicked⟩, ?_, ?_, ?_, fun c' hc' => (nomatch hc'), fun hf => (nomatch hf)⟩
    · rw [hvn.cell, hwait]
      exact ⟨fun hf => (nomatch hf), fun hf => (nomatch hf)⟩
    · exact nomatch hwait.symm.trans (hvn.ended r hr)
    all_goals rw [put_of_ne hne]
  unfold State.deliver setPhase
  dsimp only
  rw [if_neg hempty, put_of_ne hne]
  refine ⟨hlinked.put hgoes, hserves.put hgoes ?_ ?_ (fun hf => (nomatch hf)) ?_⟩
  · rw [put_of_ne hne, hwait]
    exact fun hf => (nomatch hf)
  · rw [put_of_ne hne]
  · rw [put_of_ne hne, hwait]
    exact fun hf => (nomatch hf)

/-- Every step that meets the condition keeps the invariant. -/
theorem Inv.step {action : Action} (h : s.Inv) (hcalm : s.Calm action)
    (hstep : s.step action = some t) : t.Inv := by
  cases action with
  | enter thread inside =>
      dsimp only [State.step] at hstep
      split_ifs at hstep
      obtain rfl := Option.some.inj hstep
      refine h.add
        ⟨⟨fun c hc => (nomatch hc), Nat.le_refl _, ⟨fun hf => (nomatch hf), fun hf => (nomatch hf)⟩,
        fun hf => (nomatch hf), fun _ hf => (nomatch hf), fun hf => (nomatch hf),
        fun _ hf => (nomatch hf), fun hf => (nomatch hf)⟩, fun hf => (nomatch hf),
        fun _ hf => (nomatch hf), fun c hc => (nomatch hc), fun c hc => (nomatch hc)⟩
        rfl rfl
  | native n spawns =>
      dsimp only [State.step] at hstep
      split_ifs at hstep with hn
      obtain rfl := Option.some.inj hstep
      exact h.runOnNativeThread hn (fun hf => (nomatch hf)) hcalm
  | blockOn n spawns =>
      dsimp only [State.step] at hstep
      split_ifs at hstep with hn
      obtain rfl := Option.some.inj hstep
      exact h.blockOn hn hcalm
  | spawn n =>
      dsimp only [State.step] at hstep
      split_ifs at hstep with hn
      obtain rfl := Option.some.inj hstep
      exact h.add (h.linked.joins_begun hn.1 true fun hf => (nomatch hf)) rfl rfl
  | await n c =>
      dsimp only [State.step] at hstep
      split_ifs at hstep with hn
      obtain rfl := Option.some.inj hstep
      obtain ⟨hrun, hc, -, hcallers, -⟩ := hn
      have hwaits := h.linked.waits hrun hc hcallers
      exact ⟨h.linked.put hwaits, h.serves.put hwaits (fun hf => (nomatch hrun.2.symm.trans hf)) rfl
        (fun hf => (nomatch hf)) fun hf => (nomatch hrun.2.symm.trans hf)⟩
  | startJob =>
      dsimp only [State.step] at hstep
      cases hjob : s.job with
      | some j =>
          rw [hjob] at hstep
          cases hstep
      | none =>
          cases hqueue : s.queue with
          | nil =>
              rw [hjob, hqueue] at hstep
              cases hstep
          | cons q rest =>
              rw [hjob, hqueue] at hstep
              obtain rfl := Option.some.inj hstep
              exact h.startJob hjob hqueue
  | settle n o =>
      dsimp only [State.step] at hstep
      split_ifs at hstep with hn
      obtain rfl := Option.some.inj hstep
      exact h.settle hn hcalm
  | deliver n c =>
      dsimp only [State.step] at hstep
      split_ifs at hstep with hn
      obtain rfl := Option.some.inj hstep
      exact h.deliver hn.1 hn.2.1 hn.2.2

theorem initial_inv : initial.Inv where
  linked := ⟨fun _ hn => (nomatch hn), fun _ hn => (nomatch hn), fun _ hn => (nomatch hn),
    fun _ hn => (nomatch hn), fun _ hn => (nomatch hn)⟩
  serves := ⟨fun _ => ⟨fun hq => (nomatch hq), fun hq => (nomatch hq.1)⟩, List.nodup_nil,
    fun _ hj => (nomatch hj), fun _ hn => (nomatch hn), fun _ hj => (nomatch hj),
    fun _ => ⟨fun hf => (nomatch hf), fun hf => (nomatch hf.2)⟩⟩

end Steps

end State

open Probing.Core

namespace State

variable {s t : State} {n : ℕ}

/-- What a call waits for in the end: an activity that waits for no other call, unless it
is in the queue. -/
theorem Linked.descend (h : s.Linked) (hn : n < s.count) (hunfinished : s.Unfinished n) :
    ∃ m < s.count, s.Unfinished m ∧ (m = n ∨ n ∈ (s.activity m).callers) ∧
      ∀ k, (s.activity m).phase = .waiting k → ¬ s.Unfinished k := by
  induction hleft : s.count - n using Nat.strongRecOn generalizing n with
  | _ left ih =>
    by_cases hwaits : ∃ c, (s.activity n).phase = .waiting c ∧ s.Unfinished c
    · obtain ⟨c, hphase, hopen⟩ := hwaits
      obtain ⟨hc, hcallers⟩ := h.callee n hn c hphase
      have hcalled : n ∈ (s.activity c).callers := by
        rw [hcallers]
        exact List.mem_cons_self
      have hlater := (h.valid c hc).older n hcalled
      obtain ⟨m, hm, hmopen, hunder, hfree⟩ := ih _ (by omega) hc hopen rfl
      refine ⟨m, hm, hmopen, .inr ?_, hfree⟩
      rcases hunder with rfl | hunder
      · exact hcalled
      · exact h.closed m hm c hunder n hcalled
    · refine ⟨n, hn, hunfinished, .inl rfl, fun k hk hopen => hwaits ⟨k, hk, hopen⟩⟩

/-- The job that is executed does not wait for the queue. -/
theorem Inv.live (h : s.Inv) : ¬ s.Deadlocked := by
  rintro ⟨⟨n, hn, hunfinished⟩, hall⟩
  obtain ⟨m, hm, hopen, -, hfree⟩ := h.linked.descend hn hunfinished
  obtain ⟨k, hk, hkopen, hwaits | ⟨hqueued, hmk, hnext⟩⟩ := hall m hm hopen
  · exact hfree k hwaits hkopen
  · cases hjob : s.job with
    | some j =>
        obtain ⟨hj, hjqueued, hjfinished, hjcallers, -⟩ := h.serves.job j hjob
        obtain ⟨m', hm', hopen', hunder, hfree'⟩ := h.linked.descend hj ⟨hjcallers, hjfinished⟩
        obtain ⟨k', -, hkopen', hwaits' | ⟨hqueued', -, -⟩⟩ := hall m' hm' hopen'
        · exact hfree' k' hwaits' hkopen'
        · rcases hunder with rfl | hunder
          · exact hjqueued hqueued'
          · exact h.serves.behind j hjob m' ((h.serves.queue m').mpr ⟨hm', hqueued'⟩) hunder
    | none =>
        rw [hjob] at hnext
        change s.queue.head? = some k at hnext
        have hkqueued := ((h.serves.queue k).mp (List.mem_of_head? hnext)).2
        obtain ⟨k', -, -, hwaits' | ⟨-, hne, hnext'⟩⟩ := hall k hk hkopen
        · exact nomatch hkqueued.symm.trans hwaits'
        · rw [hjob] at hnext'
          exact hne (Option.some.inj (hnext.symm.trans hnext'))

theorem Inv.bridged (h : s.Inv) : s.Bridged where
  once n hn := (h.linked.valid n hn).once
  own_result n hn r hr := by
    cases r with
    | value v => exact (h.linked.valid n hn).value v hr
    | error => trivial
    | panicked =>
        obtain ⟨houtcome, hroute⟩ := (h.linked.valid n hn).panicked hr
        exact ⟨houtcome, h.linked.direct n hn hroute⟩
  live := h.live
  flag := h.serves.flag

/-- In a run whose steps are calm, every closure and future is started at most once, every
call gets its own result or an error, some call can go on, and the flag is true for the
bridge thread while it executes a job. -/
theorem calm_run_bridged {acts : List Action} (hcalm : Meets step Calm initial acts)
    (hrun : exec step initial acts = some t) : t.Bridged :=
  Inv.bridged
    (exec_invariant (fun _ _ _ hs hok hstep => Inv.step hs hok hstep) initial_inv hcalm hrun)

/-- The main thread blocks on a future that awaits a task, and the task blocks on a future
of its own. -/
def nestedRun : List Action :=
  [.enter .main false, .blockOn 0 true, .startJob, .spawn 1, .await 1 2, .blockOn 2 true,
    .settle 3 (.returned 7), .deliver 2 3, .settle 2 (.returned 7), .deliver 1 2,
    .settle 1 .panicked, .deliver 0 1]

theorem calm_run_nested : ∃ t, exec step initial nestedRun = some t ∧ t.Bridged := by
  have hcalm : Meets step Calm initial nestedRun := by decide
  cases hrun : exec step initial nestedRun with
  | none =>
      have hsome : (exec step initial nestedRun).isSome = true := by decide
      rw [hrun] at hsome
      cases hsome
  | some t => exact ⟨t, rfl, calm_run_bridged hcalm hrun⟩

/-- The task that the executed job waits for makes a call for the bridge. -/
def waitsForItself : List Action :=
  [.enter .main false, .blockOn 0 true, .startJob, .spawn 1, .await 1 2, .native 2 true]

/-- A closure panics as a job. -/
def jobPanics : List Action := [.enter .main false, .native 0 true, .startJob, .settle 1 .panicked]

/-- A task blocks on a future, and no thread can be spawned. -/
def noThread : List Action := [.enter (.other 0) true, .blockOn 0 false]

/-- The bridge thread cannot be spawned, so that the closure that sets the flag runs on the
main thread. -/
def noBridge : List Action := [.enter .main false, .native 0 false]

theorem bridge_fails :
    (∃ t, exec step initial waitsForItself = some t ∧ t.Deadlocked) ∧
    (∃ t, exec step initial jobPanics = some t ∧ t.job = none ∧ t.onNativeBridge .bridge = true) ∧
    (∃ t, exec step initial noThread = some t ∧
      (t.activity 1).delivered = some .panicked ∧ (t.activity 1).outcome = none) ∧
    (∃ t, exec step initial noBridge = some t ∧ t.onNativeBridge .main = true) := by
  refine ⟨⟨_, rfl, ?_⟩, ⟨_, rfl, rfl, rfl⟩, ⟨_, rfl, rfl, rfl⟩, ⟨_, rfl, rfl⟩⟩
  decide

end State

end Probing.Runtime
