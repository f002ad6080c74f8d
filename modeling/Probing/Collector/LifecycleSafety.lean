import Probing.Collector.Lifecycle
import Probing.Core.Run

/-!
# The lifecycle of a collector

A `start` that takes the flag while an older thread is still to clear it, a `stop` that finds no
join handle, or finds the flag cleared by another `stop`, and a `start` of the GPU collector
without its table are the steps that break the lifecycle.
-/

namespace Probing.Collector

open Probing.Core (exec exec_invariant Meets)

/-- A `start` has taken the flag and has not spawned its thread. -/
def Pc.opens : Pc → Prop
  | .sharedTable _ | .spawn _ => True
  | _ => False

/-- A `start` is under way and has no thread. -/
def Pc.starts : Pc → Prop
  | .sharedTable _ | .spawn _ | .fail => True
  | _ => False

instance : DecidablePred Pc.opens := fun p =>
  match p with
  | .sharedTable _ | .spawn _ => .isTrue trivial
  | .idle | .fail | .store _ | .take _ | .join _ _ => .isFalse not_false

namespace State

variable {A : Type}

def Alive (s : State A) (i : ℕ) : Prop := ∃ t, s.threads[i]? = some t ∧ t ≠ .ended

def Samples (s : State A) (i : ℕ) : Prop := ∃ iterations, s.threads[i]? = some (.sample iterations)

/-- What the lifecycle promises. -/
structure Good (s : State A) : Prop where
  one : ∀ i j, s.Samples i → s.Samples j → i = j
  running : s.running = true → (∃ i, s.Alive i) ∨ ∃ a, (s.pc a).starts
  errors : ∀ e ∈ s.errors, e.left = e.found
  stopped : ∀ i < s.stopped, ¬ s.Samples i
  marks : ∀ i, s.threads[i]? = some .exit →
    (∀ j, i < j → ¬ s.Alive j) ∧ ∀ a, ¬ (s.pc a).opens

/-- A `start` finds the flag clear when no thread and no other `start` will clear it or look at
it, a `stop` finds it clear when no thread is sampling, a `stop` finds the handle of the thread
that is sampling, and the table of the GPU collector opens. -/
def Undisturbed (c : Collector) (s : State A) : Action A → Prop
  | .start _ backends _ => s.running = false ∧ (c = .gpu → backends = true) →
      (∀ i, ¬ s.Alive i) ∧ ∀ b, ¬ (s.pc b).opens
  | .stop _ => s.running = false → ∀ i, ¬ s.Samples i
  | .sharedTable _ ok => c = .gpu → s.opened = true ∨ ok = true
  | .step a => ∀ before, s.pc a = .take before → ∀ i < before, s.Samples i → s.handle = some i
  | .thread _ | .panic _ => True

/-- From one state to the next, the threads that there are end and are not told to go on. -/
structure Settles (s t : State A) : Prop where
  length : s.threads.length ≤ t.threads.length
  alive : ∀ i < s.threads.length, t.Alive i → s.Alive i
  clear : ∀ i < s.threads.length, t.Alive i → s.running = false → t.running = false
  samples : ∀ i < s.threads.length, t.Samples i → s.Samples i ∨ s.running = true

/-- The first threads have ended, or the flag tells them to. -/
structure Told (s : State A) (before : ℕ) : Prop where
  bound : before ≤ s.threads.length
  clear : ∀ i < before, s.Alive i → s.running = false

/-- And those that sample are joined. -/
structure Joined (s : State A) (before : ℕ) (P : ℕ → Prop) : Prop extends Told s before where
  samples : ∀ i < before, s.Samples i → P i

variable {s t : State A} {before i : ℕ} {P : ℕ → Prop}

theorem Samples.alive (h : s.Samples i) : s.Alive i := by
  obtain ⟨iterations, hi⟩ := h
  exact ⟨_, hi, by simp⟩

theorem Alive.lt (h : s.Alive i) : i < s.threads.length := by
  obtain ⟨t, hi, -⟩ := h
  exact (List.getElem?_eq_some_iff.mp hi).1

theorem Told.settles (h : s.Told before) (hst : Settles s t) : t.Told before where
  bound := Nat.le_trans h.bound hst.length
  clear i hi halive := by
    have hlt := Nat.lt_of_lt_of_le hi h.bound
    exact hst.clear i hlt halive (h.clear i hi (hst.alive i hlt halive))

theorem Joined.settles (h : s.Joined before P) (hst : Settles s t) : t.Joined before P where
  toTold := h.toTold.settles hst
  samples i hi hsamples := by
    have hlt := Nat.lt_of_lt_of_le hi h.bound
    obtain hold | hrunning := hst.samples i hlt hsamples
    · exact h.samples i hi hold
    · have hclear := h.clear i hi (hst.alive i hlt hsamples.alive)
      rw [hrunning] at hclear
      exact (nomatch hclear)

/-- The threads stay, and the flag is not set. -/
theorem Settles.of_threads (hthreads : t.threads = s.threads)
    (hrunning : s.running = false → t.running = false) : Settles s t where
  length := by rw [hthreads]
  alive i _ h := by
    rw [Alive, hthreads] at h
    exact h
  clear _ _ _ := hrunning
  samples i _ h := by
    rw [Samples, hthreads] at h
    exact .inl h

/-- The flag is set when no thread is left. -/
theorem Settles.of_none (hthreads : t.threads = s.threads) (hnone : ∀ i, ¬ s.Alive i) :
    Settles s t where
  length := by rw [hthreads]
  alive i _ h := by
    rw [Alive, hthreads] at h
    exact h
  clear i _ h := by
    rw [Alive, hthreads] at h
    exact (hnone i h).elim
  samples i _ h := by
    rw [Samples, hthreads] at h
    exact .inl h

/-- A thread is spawned. -/
theorem Settles.of_spawn {thread : Thread} (hthreads : t.threads = s.threads ++ [thread])
    (hrunning : t.running = s.running) : Settles s t where
  length := by rw [hthreads, List.length_append]; exact Nat.le_add_right _ _
  alive i hi h := by
    rw [Alive, hthreads, List.getElem?_append_left hi] at h
    exact h
  clear i _ _ h := hrunning.trans h
  samples i hi h := by
    rw [Samples, hthreads, List.getElem?_append_left hi] at h
    exact .inl h

theorem alive_set {thread : Thread} (hthreads : t.threads = s.threads.set i thread)
    (halive : s.Alive i) {j : ℕ} (h : t.Alive j) : s.Alive j := by
  by_cases hij : i = j
  · subst hij
    exact halive
  · rw [Alive, hthreads, List.getElem?_set_ne hij] at h
    exact h

/-- A thread goes on; it samples only under the flag. -/
theorem Settles.of_set {thread : Thread} (hthreads : t.threads = s.threads.set i thread)
    (halive : s.Alive i) (hrunning : s.running = false → t.running = false)
    (hsamples : ∀ iterations, thread = .sample iterations → s.running = true) : Settles s t where
  length := by rw [hthreads, List.length_set]
  alive j _ h := alive_set hthreads halive h
  clear _ _ _ := hrunning
  samples j _ h := by
    by_cases hij : i = j
    · subst hij
      obtain ⟨iterations, hj⟩ := h
      rw [hthreads, List.getElem?_set_self halive.lt] at hj
      exact .inr (hsamples iterations (Option.some.inj hj))
    · rw [Samples, hthreads, List.getElem?_set_ne hij] at h
      exact .inl h

/-- What a call relies on. -/
def Knows (s : State A) : Pc → Prop
  | .take before => s.Told before
  | .join before thread => s.Joined before (· = thread)
  | _ => True

structure Inv (s : State A) : Prop where
  one : ∀ i j, s.Alive i → s.Alive j → i = j
  opening : ∀ a, (s.pc a).opens → ∀ i, ¬ s.Alive i
  exclusive : ∀ a b, (s.pc a).opens → (s.pc b).opens → a = b
  running : s.running = true → (∃ i, s.Alive i) ∨ ∃ a, (s.pc a).starts
  errors : ∀ e ∈ s.errors, e.left = e.found
  stopped : s.Joined s.stopped fun _ => False
  knows : ∀ a, s.Knows (s.pc a)

theorem Inv.good (h : s.Inv) : s.Good where
  one i j hi hj := h.one i j hi.alive hj.alive
  running := h.running
  errors := h.errors
  stopped i hi hsamples := h.stopped.samples i hi hsamples
  marks i hi := by
    have halive : s.Alive i := ⟨.exit, hi, by simp⟩
    refine ⟨fun j hij hj => ?_, fun a ha => h.opening a ha i halive⟩
    exact Nat.ne_of_lt hij (h.one i j halive hj)

theorem Knows.settles {p : Pc} (h : s.Knows p) (hst : Settles s t) : t.Knows p := by
  cases p with
  | take before => exact Told.settles h hst
  | join before thread => exact Joined.settles h hst
  | _ => trivial

/-- A thread goes on, and no call does. -/
theorem Inv.thread (h : s.Inv) {thread : Thread} (hpc : t.pc = s.pc)
    (hthreads : t.threads = s.threads.set i thread) (halive : s.Alive i)
    (hrunning : t.running = true → s.running = true ∧ thread ≠ .ended)
    (hsamples : ∀ iterations, thread = .sample iterations → s.running = true)
    (herrors : t.errors = s.errors) (hstopped : t.stopped = s.stopped) : t.Inv := by
  have hsettles : Settles s t := by
    refine .of_set hthreads halive (fun hclear => ?_) hsamples
    by_contra hset
    rw [Bool.not_eq_false] at hset
    rw [(hrunning hset).1] at hclear
    exact (nomatch hclear)
  refine ⟨fun j k hj hk => ?_, fun a ha j hj => ?_, ?_, fun hset => ?_, ?_, ?_, fun a => ?_⟩
  · exact h.one j k (alive_set hthreads halive hj) (alive_set hthreads halive hk)
  · rw [hpc] at ha
    exact h.opening a ha i halive
  · rw [hpc]
    exact h.exclusive
  · refine .inl ⟨i, thread, ?_, (hrunning hset).2⟩
    rw [hthreads, List.getElem?_set_self halive.lt]
  · rw [herrors]
    exact h.errors
  · rw [hstopped]
    exact h.stopped.settles hsettles
  · rw [hpc]
    exact (h.knows a).settles hsettles

theorem mem_errors_append {e : Failed} {found left : Bool} (h : ∀ e ∈ s.errors, e.left = e.found)
    (heq : left = found) (he : e ∈ s.errors ++ [⟨found, left⟩]) : e.left = e.found := by
  obtain hold | hnew := List.mem_append.mp he
  · exact h e hold
  · obtain rfl := List.mem_singleton.mp hnew
    exact heq

/-- `stop` returns: the threads that it found have ended, or see the flag cleared. -/
theorem Joined.stops (h : s.Joined before fun _ => False)
    (hstopped : s.Joined s.stopped fun _ => False) :
    s.Joined (max s.stopped before) fun _ => False := by
  obtain hle | hle := Nat.le_total s.stopped before
  · rw [Nat.max_eq_right hle]
    exact h
  · rw [Nat.max_eq_left hle]
    exact hstopped

variable [DecidableEq A] {a : A} {p : Pc}

/-- A call goes on. -/
theorem Inv.move (h : s.Inv) (hpc : t.pc = Function.update s.pc a p) (hsettles : Settles s t)
    (hone : ∀ i j, t.Alive i → t.Alive j → i = j)
    (hopening : ∀ b, (t.pc b).opens → ∀ i, ¬ t.Alive i)
    (hexclusive : p.opens → ∀ b ≠ a, ¬ (s.pc b).opens)
    (hrunning : t.running = true → (∃ i, t.Alive i) ∨ ∃ b, (t.pc b).starts)
    (herrors : ∀ e ∈ t.errors, e.left = e.found)
    (hstopped : t.Joined t.stopped fun _ => False) (hself : t.Knows p) : t.Inv where
  one := hone
  opening := hopening
  exclusive := by
    rw [hpc]
    exact Core.unique_update h.exclusive hexclusive
  running := hrunning
  errors := herrors
  stopped := hstopped
  knows := by
    rw [hpc]
    exact (Function.forall_update_iff s.pc fun _ p => t.Knows p).mpr
      ⟨hself, fun b _ => (h.knows b).settles hsettles⟩

/-- A call goes on that had no thread to spawn, or has one left to spawn. -/
theorem Inv.calls (h : s.Inv) (hpc : t.pc = Function.update s.pc a p)
    (hthreads : t.threads = s.threads) (hopens : p.opens → (s.pc a).opens)
    (hstarts : t.running = true → s.running = true ∧ ((s.pc a).starts → p.starts))
    (herrors : ∀ e ∈ t.errors, e.left = e.found)
    (hstopped : t.Joined t.stopped fun _ => False) (hself : t.Knows p) : t.Inv := by
  have hclear : s.running = false → t.running = false := by
    intro hclear
    by_contra hset
    rw [Bool.not_eq_false] at hset
    rw [(hstarts hset).1] at hclear
    exact (nomatch hclear)
  have halive (i : ℕ) : t.Alive i ↔ s.Alive i := by rw [Alive, hthreads]; exact Iff.rfl
  refine h.move hpc (.of_threads hthreads hclear) (fun i j hi hj => ?_) (fun b hb i hi => ?_)
    (fun hp b hb hother => hb (h.exclusive b a hother (hopens hp))) (fun hset => ?_) herrors
    hstopped hself
  · exact h.one i j ((halive i).mp hi) ((halive j).mp hj)
  · have hi := (halive i).mp hi
    by_cases hba : b = a
    · rw [hba, hpc, Function.update_self] at hb
      exact h.opening a (hopens hb) i hi
    · rw [hpc, Function.update_of_ne hba] at hb
      exact h.opening b hb i hi
  · obtain ⟨hset, hstarts⟩ := hstarts hset
    obtain ⟨i, hi⟩ | ⟨b, hb⟩ := h.running hset
    · exact .inl ⟨i, (halive i).mpr hi⟩
    · refine .inr ⟨b, ?_⟩
      by_cases hba : b = a
      · rw [hba] at hb ⊢
        rw [hpc, Function.update_self]
        exact hstarts hb
      · rw [hpc, Function.update_of_ne hba]
        exact hb

/-- `start` returns an error and leaves the flag as it is. -/
theorem Inv.fails (h : s.Inv) (hidle : s.pc a = .idle) : (s.fails a s.running).Inv := by
  have hpc : (s.fails a s.running).pc = Function.update s.pc a .idle := rfl
  refine h.calls hpc rfl False.elim (fun hset => ⟨hset, fun hp => ?_⟩)
    (fun e he => mem_errors_append h.errors rfl he) ?_ trivial
  · rw [hidle] at hp
    exact hp.elim
  · exact h.stopped.settles (.of_threads rfl id)

/-- `start` takes the flag. -/
theorem Inv.takes (h : s.Inv) {iterations : Option ℤ} (hnone : ∀ i, ¬ s.Alive i)
    (hother : ∀ b, ¬ (s.pc b).opens) :
    State.Inv { s.goto a (.sharedTable iterations) with running := true } := by
  refine h.move rfl (.of_none rfl hnone) (fun i j hi => (hnone i hi).elim)
    (fun b _ i hi => hnone i hi) (fun _ b _ => hother b) (fun _ => .inr ⟨a, ?_⟩) h.errors
    (h.stopped.settles (.of_none rfl hnone)) trivial
  change (Function.update s.pc a (.sharedTable iterations) a).starts
  rw [Function.update_self]
  trivial

theorem Inv.start (h : s.Inv) {c : Collector} {backends : Bool} {iterations : Option ℤ}
    (hok : s.Undisturbed c (.start a backends iterations))
    (hstep : s.step c (.start a backends iterations) = some t) : t.Inv := by
  simp only [State.step] at hstep
  split at hstep
  · exact (nomatch hstep)
  next hidle =>
    have hidle := not_not.mp hidle
    split at hstep
    · obtain rfl := Option.some.inj hstep
      exact h.fails hidle
    next hbackends =>
      split at hstep
      next hset =>
        obtain rfl := Option.some.inj hstep
        have hsame : ({ s with running := true } : State A) = s := by rw [← hset]
        rw [hsame]
        exact h.fails hidle
      next hclear =>
        obtain rfl := Option.some.inj hstep
        have hfound : s.running = false ∧ (c = .gpu → backends = true) := by
          refine ⟨Bool.not_eq_true _ ▸ hclear, fun hc => ?_⟩
          by_contra hnone
          exact hbackends ⟨hc, Bool.not_eq_true _ ▸ hnone⟩
        obtain ⟨hnone, hother⟩ := hok hfound
        exact h.takes hnone hother

theorem Inv.stop (h : s.Inv) {c : Collector} (hok : s.Undisturbed c (.stop a))
    (hstep : s.step c (.stop a) = some t) : t.Inv := by
  simp only [State.step] at hstep
  split at hstep
  · exact (nomatch hstep)
  next hidle =>
    have hidle := not_not.mp hidle
    split at hstep
    next hset =>
      obtain rfl := Option.some.inj hstep
      have hsettles : Settles s { s.goto a (.take s.threads.length) with running := false } :=
        .of_threads rfl fun _ => rfl
      refine h.calls rfl rfl False.elim (fun hset => (nomatch hset)) h.errors
        (h.stopped.settles hsettles) ⟨Nat.le_refl _, fun _ _ _ => rfl⟩
    next hclear =>
      obtain rfl := Option.some.inj hstep
      have hclear : s.running = false := Bool.not_eq_true _ ▸ hclear
      have hjoined : s.Joined s.threads.length fun _ => False :=
        ⟨⟨Nat.le_refl _, fun _ _ _ => hclear⟩, fun i _ hi => hok hclear i hi⟩
      have hpc : (s.stops a s.threads.length).pc = Function.update s.pc a .idle := rfl
      refine h.calls hpc rfl False.elim (fun hset => ?_) h.errors
        ((hjoined.stops h.stopped).settles (.of_threads rfl id)) trivial
      have hset : s.running = true := hset
      rw [hclear] at hset
      exact (nomatch hset)

theorem Inv.sharedTable (h : s.Inv) {c : Collector} {ok : Bool}
    (hok : s.Undisturbed c (.sharedTable a ok))
    (hstep : s.step c (.sharedTable a ok) = some t) : t.Inv := by
  cases hpc : s.pc a with
  | sharedTable iterations =>
      have hopens : (s.pc a).opens := by rw [hpc]; trivial
      simp only [State.step, hpc] at hstep
      split at hstep
      · obtain rfl := Option.some.inj hstep
        exact h.calls rfl rfl (fun _ => hopens) (fun hset => ⟨hset, fun _ => trivial⟩) h.errors
          (h.stopped.settles (.of_threads rfl id)) trivial
      next hclosed =>
        cases c with
        | cpu =>
            obtain rfl := Option.some.inj hstep
            exact h.calls rfl rfl (fun _ => hopens) (fun hset => ⟨hset, fun _ => trivial⟩)
              h.errors (h.stopped.settles (.of_threads rfl id)) trivial
        | gpu => exact (hclosed (hok rfl)).elim
  | _ => simp [State.step, hpc] at hstep

/-- A `start` that could not open its table gives the flag back. -/
theorem Inv.gives_back (h : s.Inv) : ({ s with running := false }.fails a false).Inv := by
  have hpc : (({ s with running := false } : State A).fails a false).pc =
      Function.update s.pc a .idle := rfl
  refine h.calls hpc rfl False.elim (fun hset => (nomatch hset))
    (fun e he => mem_errors_append h.errors rfl he)
    (h.stopped.settles (.of_threads rfl fun _ => rfl)) trivial

/-- The thread of a `start` begins. -/
theorem Inv.spawn (h : s.Inv) {iterations : Option ℤ} (hpc : s.pc a = .spawn iterations) :
    State.Inv { s.goto a (.store s.threads.length) with
      threads := s.threads ++ [.check iterations] } := by
  have hopens : (s.pc a).opens := by rw [hpc]; trivial
  have hnone := h.opening a hopens
  have honly {i : ℕ} (hi : State.Alive { s.goto a (.store s.threads.length) with
      threads := s.threads ++ [.check iterations] } i) : i = s.threads.length := by
    by_contra hne
    have hlt := hi.lt
    have hlt : i < (s.threads ++ [Thread.check iterations]).length := hlt
    rw [List.length_append, List.length_singleton] at hlt
    have hold : i < s.threads.length := by omega
    rw [Alive] at hi
    simp only [List.getElem?_append_left hold] at hi
    exact hnone i hi
  have hself : State.Alive { s.goto a (.store s.threads.length) with
      threads := s.threads ++ [.check iterations] } s.threads.length :=
    ⟨.check iterations, List.getElem?_concat_length, by simp⟩
  refine h.move rfl (.of_spawn rfl rfl) (fun i j hi hj => (honly hi).trans (honly hj).symm)
    (fun b hb => ?_) False.elim (fun _ => .inl ⟨_, hself⟩) h.errors
    (h.stopped.settles (.of_spawn rfl rfl)) trivial
  have hb : (Function.update s.pc a (.store s.threads.length) b).opens := hb
  by_cases hba : b = a
  · rw [hba, Function.update_self] at hb
    exact hb.elim
  · rw [Function.update_of_ne hba] at hb
    exact (hba (h.exclusive b a hb hopens)).elim

theorem Inv.take (h : s.Inv) {c : Collector} (hok : s.Undisturbed c (.step a))
    (hpc : s.pc a = .take before) (hstep : s.step c (.step a) = some t) : t.Inv := by
  have htold := h.knows a
  rw [hpc] at htold
  have hstarts : ¬ (s.pc a).starts := by rw [hpc]; exact not_false
  simp only [State.step, hpc] at hstep
  split at hstep
  · exact (nomatch hstep)
  cases hhandle : s.handle with
  | none =>
      simp only [hhandle] at hstep
      obtain rfl := Option.some.inj hstep
      have hjoined : s.Joined before fun _ => False := by
        refine ⟨htold, fun i hi hsamples => ?_⟩
        have hfound := hok before hpc i hi hsamples
        rw [hhandle] at hfound
        exact (nomatch hfound)
      have hgoto : (s.stops a before).pc = Function.update s.pc a .idle := rfl
      exact h.calls hgoto rfl False.elim (fun hset => ⟨hset, fun hs => (hstarts hs).elim⟩) h.errors
        ((hjoined.stops h.stopped).settles (.of_threads rfl id)) trivial
  | some thread =>
      simp only [hhandle] at hstep
      obtain rfl := Option.some.inj hstep
      have hjoined : s.Joined before (· = thread) := by
        refine ⟨htold, fun i hi hsamples => ?_⟩
        have hfound := hok before hpc i hi hsamples
        rw [hhandle] at hfound
        exact (Option.some.inj hfound).symm
      exact h.calls rfl rfl False.elim (fun hset => ⟨hset, fun hs => (hstarts hs).elim⟩) h.errors
        (h.stopped.settles (.of_threads rfl id)) (hjoined.settles (.of_threads rfl id))

theorem Inv.join (h : s.Inv) {c : Collector} {thread : ℕ} (hpc : s.pc a = .join before thread)
    (hstep : s.step c (.step a) = some t) : t.Inv := by
  have hjoined := h.knows a
  rw [hpc] at hjoined
  have hjoined : s.Joined before (· = thread) := hjoined
  have hstarts : ¬ (s.pc a).starts := by rw [hpc]; exact not_false
  simp only [State.step, hpc] at hstep
  split at hstep
  next hended =>
    obtain rfl := Option.some.inj hstep
    have hnone : s.Joined before fun _ => False := by
      refine ⟨hjoined.toTold, fun i hi hsamples => ?_⟩
      obtain rfl := hjoined.samples i hi hsamples
      obtain ⟨iterations, hi⟩ := hsamples
      rw [hended] at hi
      exact (nomatch hi)
    have hgoto : ({ s.stops a before with locked := false } : State A).pc =
        Function.update s.pc a .idle := rfl
    exact h.calls hgoto rfl False.elim (fun hset => ⟨hset, fun hs => (hstarts hs).elim⟩) h.errors
      ((hnone.stops h.stopped).settles (.of_threads rfl id)) trivial
  · exact (nomatch hstep)

theorem Inv.step (h : s.Inv) {c : Collector} (hok : s.Undisturbed c (.step a))
    (hstep : s.step c (.step a) = some t) : t.Inv := by
  cases hpc : s.pc a with
  | fail =>
      simp only [State.step, hpc] at hstep
      obtain rfl := Option.some.inj hstep
      exact h.gives_back
  | spawn iterations =>
      simp only [State.step, hpc] at hstep
      obtain rfl := Option.some.inj hstep
      exact h.spawn hpc
  | store thread =>
      simp only [State.step, hpc] at hstep
      split at hstep
      · exact (nomatch hstep)
      · obtain rfl := Option.some.inj hstep
        have hstarts : ¬ (s.pc a).starts := by rw [hpc]; exact not_false
        exact h.calls rfl rfl False.elim (fun hset => ⟨hset, fun hs => (hstarts hs).elim⟩)
          h.errors (h.stopped.settles (.of_threads rfl id)) trivial
  | take before => exact h.take hok hpc hstep
  | join before thread => exact h.join hpc hstep
  | _ => simp [State.step, hpc] at hstep

theorem enters_eq_sample {running : Bool} {iterations left : Option ℤ}
    (h : enters running iterations = .sample left) : running = true := by
  cases running with
  | true => rfl
  | false => cases iterations <;> simp [enters] at h

theorem enters_ne_ended (running : Bool) (iterations : Option ℤ) :
    enters running iterations ≠ .ended := by
  cases iterations with
  | none => cases running <;> simp [enters]
  | some iterations =>
      rw [enters]
      split <;> simp

theorem Inv.step_thread (h : s.Inv) {c : Collector}
    (hstep : s.step c (.thread i) = some t) : t.Inv := by
  cases hi : s.threads[i]? with
  | none => simp [State.step, hi] at hstep
  | some thread =>
      cases thread with
      | check iterations =>
          simp only [State.step, hi] at hstep
          obtain rfl := Option.some.inj hstep
          refine h.thread rfl rfl ⟨_, hi, by simp⟩
            (fun hset => ⟨hset, enters_ne_ended _ _⟩) (fun left hleft => ?_) rfl rfl
          exact enters_eq_sample hleft
      | sample iterations =>
          simp only [State.step, hi] at hstep
          obtain rfl := Option.some.inj hstep
          exact h.thread rfl rfl ⟨_, hi, by simp⟩ (fun hset => ⟨hset, by simp⟩)
            (fun left hleft => (nomatch hleft)) rfl rfl
      | exit =>
          simp only [State.step, hi] at hstep
          obtain rfl := Option.some.inj hstep
          exact h.thread rfl rfl ⟨_, hi, by simp⟩ (fun hset => (nomatch hset))
            (fun left hleft => (nomatch hleft)) rfl rfl
      | ended => simp [State.step, hi] at hstep

theorem Inv.panic (h : s.Inv) {c : Collector}
    (hstep : s.step c (.panic i) = some t) : t.Inv := by
  have hexits (halive : s.Alive i) : State.Inv { s with threads := s.threads.set i .exit } :=
    h.thread rfl rfl halive (fun hset => ⟨hset, by simp⟩) (fun left hleft => (nomatch hleft))
      rfl rfl
  cases hi : s.threads[i]? with
  | none => simp [State.step, hi] at hstep
  | some thread =>
      cases thread with
      | check iterations =>
          simp only [State.step, hi] at hstep
          obtain rfl := Option.some.inj hstep
          exact hexits ⟨_, hi, by simp⟩
      | sample iterations =>
          simp only [State.step, hi] at hstep
          obtain rfl := Option.some.inj hstep
          exact hexits ⟨_, hi, by simp⟩
      | _ => simp [State.step, hi] at hstep

omit [DecidableEq A] in
theorem inv_new : (new : State A).Inv where
  one i j hi := by
    obtain ⟨t, hi, -⟩ := hi
    exact (nomatch hi)
  opening a ha := ha.elim
  exclusive a b ha := ha.elim
  running h := (nomatch h)
  errors e he := (nomatch he)
  stopped := ⟨⟨Nat.le_refl _, fun _ _ _ => rfl⟩, fun i hi => (Nat.not_lt_zero i hi).elim⟩
  knows a := trivial

/-- Every step that is not one of those keeps the lifecycle. -/
theorem Inv.acts (h : s.Inv) {c : Collector} {act : Action A} (hok : s.Undisturbed c act)
    (hstep : State.step c s act = some t) : t.Inv := by
  cases act with
  | start a backends iterations => exact h.start hok hstep
  | stop a => exact h.stop hok hstep
  | sharedTable a ok => exact h.sharedTable hok hstep
  | step a => exact h.step hok hstep
  | thread i => exact h.step_thread hstep
  | panic i => exact h.panic hstep

/-- In every run without such steps, the lifecycle of either collector is what it promises. -/
theorem lifecycle_run (c : Collector) (acts : List (Action A)) (s : State A)
    (hok : Meets (State.step c) (Undisturbed c) new acts)
    (hrun : exec (State.step c) new acts = some s) : s.Good :=
  (exec_invariant (fun _ _ _ hs hok hstep => hs.acts hok hstep) inv_new hok hrun).good

/-- One call of `start`, an iteration of its thread, and one call of `stop`. -/
def startAndStop : List (Action Unit) :=
  [.start () true none, .sharedTable () true, .step (), .step (), .thread 0, .stop (), .step (),
    .thread 0, .thread 0, .thread 0, .step ()]

theorem lifecycle_run_start_and_stop : ∃ s : State Unit,
    exec (State.step .gpu) new startAndStop = some s ∧ s.Good := by
  refine ⟨_, rfl, lifecycle_run .gpu startAndStop _ ?_ rfl⟩
  have hnone (i : ℕ) : ¬ (new : State Unit).Alive i := fun ⟨_, hi, _⟩ => (nomatch hi)
  refine ⟨fun _ => ⟨hnone, fun b => not_false⟩, fun s₁ h₁ => ?_⟩
  obtain rfl := Option.some.inj h₁
  refine ⟨fun _ => .inr rfl, fun s₂ h₂ => ?_⟩
  obtain rfl := Option.some.inj h₂
  refine ⟨fun before hpc => (nomatch hpc), fun s₃ h₃ => ?_⟩
  obtain rfl := Option.some.inj h₃
  refine ⟨fun before hpc => (nomatch hpc), fun s₄ h₄ => ?_⟩
  obtain rfl := Option.some.inj h₄
  refine ⟨trivial, fun s₅ h₅ => ?_⟩
  obtain rfl := Option.some.inj h₅
  refine ⟨fun hclear => (nomatch hclear), fun s₆ h₆ => ?_⟩
  obtain rfl := Option.some.inj h₆
  refine ⟨fun before hpc i hi _ => ?_, fun s₇ h₇ => ?_⟩
  · obtain rfl := Pc.take.inj hpc
    obtain rfl := Nat.lt_one_iff.mp hi
    rfl
  obtain rfl := Option.some.inj h₇
  refine ⟨trivial, fun s₈ h₈ => ?_⟩
  obtain rfl := Option.some.inj h₈
  refine ⟨trivial, fun s₉ h₉ => ?_⟩
  obtain rfl := Option.some.inj h₉
  refine ⟨trivial, fun s₁₀ h₁₀ => ?_⟩
  obtain rfl := Option.some.inj h₁₀
  exact ⟨fun before hpc => (nomatch hpc), fun _ _ => trivial⟩

/-- The GPU collector cannot be started again once its table did not open; and a `stop` of the
CPU collector that comes before the handle is stored leaves the thread sampling. -/
theorem lifecycle_broken :
    (∃ s : State Bool, exec (State.step .gpu) new
      [.start false true none, .sharedTable false false] = some s ∧ ¬ s.Good) ∧
    ∃ s : State Bool, exec (State.step .cpu) new
      [.start false true none, .sharedTable false true, .step false, .thread 0, .stop true,
        .step true] = some s ∧ ¬ s.Good := by
  refine ⟨⟨_, rfl, fun hgood => ?_⟩, ⟨_, rfl, fun hgood => ?_⟩⟩
  · have heq := hgood.errors ⟨false, true⟩ (List.mem_singleton.mpr rfl)
    exact (nomatch heq)
  · exact hgood.stopped 0 (by decide) ⟨none, rfl⟩

end State

end Probing.Collector
