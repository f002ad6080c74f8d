import Mathlib.Data.List.Basic

/-!
# A counted lease reclaimed from the dead

A slot is claimed by one process at a time and counts the holds of that
process's threads. The word names the owner and the count; the start time that
tells one instance of a process name from another lives in a second word. Any
thread that judges the owner dead clears the word by compare-and-swap. This is
safe as long as the slot was not claimed again between the load the judgement
rests on and the swap.
-/

namespace Probing.Core.LeaseSlot

/-- Owner and count; `none` is a free slot. -/
abbrev Word (P : Type*) := Option (P × ℕ)

/-- A slot: its word and start time, and the history the invariant speaks of:
the instance that claimed it last, the claiming thread, the threads that hold
it, the number of claims so far and whether the last claim was completed. -/
structure Slot (P T I A : Type*) where
  word : Word P
  start : T
  inst : Option I
  claimant : Option A
  holders : List A
  epoch : ℕ
  completed : Bool

/-- Where a thread stands with respect to one slot; `e` is the epoch in which it
loaded the word. -/
inductive Phase (P T : Type*) where
  | away
  | seen (w : P × ℕ) (e : ℕ)
  | measured (w : P × ℕ) (e : ℕ) (st : T)
  /-- Judged the owner dead. -/
  | condemned (w : P × ℕ) (e : ℕ)
  /-- Found its own process's count. -/
  | joining (w : P × ℕ) (e : ℕ)
  | claiming
  | stamped
  | holding

/-- Processes: names, start times and threads. -/
structure Names (P T I A : Type*) where
  pid : I → P
  born : I → T
  inst : A → I
  born_ne : ∀ i j, pid i = pid j → born i = born j → i = j

variable {P T I A : Type*} (N : Names P T I A)

/-- The process that runs under each name now, and every process that ever ran. -/
structure World (N : Names P T I A) where
  running : I → Prop
  spawned : I → Prop
  running_spawned : ∀ i, running i → spawned i
  running_unique : ∀ i j, running i → running j → N.pid i = N.pid j → i = j

namespace Slot

variable [DecidableEq A]

/-- A successful claim by thread `a`. -/
def claim (s : Slot P T I A) (a : A) : Slot P T I A where
  word := some (N.pid (N.inst a), 0)
  start := s.start
  inst := some (N.inst a)
  claimant := some a
  holders := []
  epoch := s.epoch + 1
  completed := false

def stamp (s : Slot P T I A) (a : A) : Slot P T I A := { s with start := N.born (N.inst a) }

/-- The compare-and-swap that completes a claim. -/
def complete (s : Slot P T I A) (a : A) : Slot P T I A :=
  { s with word := some (N.pid (N.inst a), 1), holders := [a], completed := true }

/-- A further hold of the owner. -/
def join (s : Slot P T I A) (a : A) (w : P × ℕ) : Slot P T I A :=
  { s with word := some (w.1, w.2 + 1), holders := a :: s.holders }

/-- The word after a hold of `w` is given up. -/
def released (w : P × ℕ) : Word P := if w.2 = 1 then none else some (w.1, w.2 - 1)

def release (s : Slot P T I A) (a : A) (w : P × ℕ) : Slot P T I A :=
  { s with word := released w, holders := s.holders.erase a }

/-- The compare-and-swap that clears a dead owner's word. -/
def reclaim (s : Slot P T I A) : Slot P T I A := { s with word := none, holders := [] }

end Slot

/-- No running process can be the owner a judgement was about. -/
def Dead {N : Names P T I A} (W : World N) (w : P × ℕ) (st : Option T) : Prop :=
  ∀ i, W.running i → N.pid i = w.1 → 0 < w.2 ∧ ∃ t, st = some t ∧ N.born i ≠ t

variable [DecidableEq A]

/-- One access of thread `a` to a slot. -/
inductive Move {N : Names P T I A} (W : World N) (a : A) :
    Slot P T I A → Phase P T → Slot P T I A → Phase P T → Prop where
  | stay (s p) : Move W a s p s p
  | see (s) {w} (hw : s.word = some w) : Move W a s .away s (.seen w s.epoch)
  | measure (s w e) : Move W a s (.seen w e) s (.measured w e s.start)
  | condemn (s) {w e} (hdead : Dead W w none) : Move W a s (.seen w e) s (.condemned w e)
  | condemnMeasured (s) {w e st} (hdead : Dead W w (some st)) :
      Move W a s (.measured w e st) s (.condemned w e)
  | leaveSeen (s w e) : Move W a s (.seen w e) s .away
  | leaveMeasured (s w e st) : Move W a s (.measured w e st) s .away
  | leaveCondemned (s w e) : Move W a s (.condemned w e) s .away
  | leaveJoining (s w e) : Move W a s (.joining w e) s .away
  | reclaim (s) {w e} (hw : s.word = some w)
      (haba : s.epoch = e ∨ ∀ i, s.inst = some i → ¬ W.running i) :
      Move W a s (.condemned w e) s.reclaim .away
  | claim (s) (hw : s.word = none) : Move W a s .away (s.claim N a) .claiming
  | stamp (s) : Move W a s .claiming (s.stamp N a) .stamped
  | complete (s) (hw : s.word = some (N.pid (N.inst a), 0)) :
      Move W a s .stamped (s.complete N a) .holding
  | recognise (s) {w e st} (hpid : w.1 = N.pid (N.inst a)) (hpos : 0 < w.2)
      (hst : st = N.born (N.inst a)) : Move W a s (.measured w e st) s (.joining w e)
  | join (s) {w e} (hw : s.word = some w) : Move W a s (.joining w e) (s.join a w) .holding
  | release (s) {w} (hw : s.word = some w) : Move W a s .holding (s.release a w) .away

/-- What a thread in a phase knows of the slot. -/
def Phase.Knows {N : Names P T I A} (W : World N) (s : Slot P T I A) (a : A) :
    Phase P T → Prop
  | away => True
  | seen w e => e ≤ s.epoch ∧
      (s.epoch = e → (∃ i, s.inst = some i ∧ N.pid i = w.1) ∧ (0 < w.2 → s.completed)) ∧
      (e < s.epoch → ∀ i, s.inst = some i → N.pid i = N.pid (N.inst a) → i = N.inst a)
  | measured w e st => e ≤ s.epoch ∧
      (s.epoch = e → ∃ i, s.inst = some i ∧ N.pid i = w.1 ∧ (0 < w.2 → st = N.born i)) ∧
      (e < s.epoch → ∀ i, s.inst = some i → N.pid i = N.pid (N.inst a) → i = N.inst a)
  | condemned _ e => e ≤ s.epoch ∧ (s.epoch = e → ∀ i, s.inst = some i → ¬ W.running i)
  | joining w e => e ≤ s.epoch ∧ w.1 = N.pid (N.inst a) ∧ 0 < w.2 ∧
      (s.epoch = e → s.inst = some (N.inst a)) ∧
      (e < s.epoch → ∀ i, s.inst = some i → N.pid i = N.pid (N.inst a) → i = N.inst a)
  | claiming => s.word = some (N.pid (N.inst a), 0) ∧ s.inst = some (N.inst a) ∧
      s.claimant = some a ∧ s.completed = false
  | stamped => s.word = some (N.pid (N.inst a), 0) ∧ s.inst = some (N.inst a) ∧
      s.claimant = some a ∧ s.completed = false ∧ s.start = N.born (N.inst a)
  | holding => a ∈ s.holders

/-- The invariant of one slot. -/
structure Inv {N : Names P T I A} (W : World N) (s : Slot P T I A) (phase : A → Phase P T) :
    Prop where
  free : s.word = none → s.holders = []
  owned : ∀ w, s.word = some w → (∃ i, s.inst = some i ∧ N.pid i = w.1) ∧
    s.holders.length = w.2 ∧ (0 < w.2 → s.completed)
  completed : s.completed → ∀ i, s.inst = some i → s.start = N.born i
  holders : ∀ a ∈ s.holders, s.inst = some (N.inst a)
  spawned : ∀ i, s.inst = some i → W.spawned i
  knows : ∀ a, W.running (N.inst a) → (phase a).Knows W s a

/-- A thread between its claim and the swap that completes it. -/
def Phase.Claiming : Phase P T → Prop
  | claiming | stamped => True
  | _ => False

/-- A thread with no stake in the slot. -/
def Phase.Observing : Phase P T → Prop
  | claiming | stamped | holding => False
  | _ => True

variable {N} {W : World N} {s s' : Slot P T I A} {phase : A → Phase P T} {a b : A} {p : Phase P T}

omit [DecidableEq A]

theorem Phase.Knows.claiming (hk : p.Knows W s a) (hp : p.Claiming) :
    s.word = some (N.pid (N.inst a), 0) ∧ s.inst = some (N.inst a) ∧ s.claimant = some a ∧
      s.completed = false := by
  cases p <;> first | exact hp.elim | exact hk | exact ⟨hk.1, hk.2.1, hk.2.2.1, hk.2.2.2.1⟩

/-- What an observer knows survives anything but a new claim. -/
theorem Phase.Knows.observing (hk : p.Knows W s a) (hp : p.Observing)
    (hepoch : s'.epoch = s.epoch) (hinst : s'.inst = s.inst)
    (hcompleted : s.completed → s'.completed) : p.Knows W s' a := by
  cases p <;> first | exact hp.elim | simp_all [Phase.Knows]

/-- After a new claim an observer's epoch is over. -/
theorem Phase.Knows.overtaken [DecidableEq A] (hk : p.Knows W s b) (hp : p.Observing)
    (ha : W.running (N.inst a)) (hb : W.running (N.inst b)) :
    p.Knows W (s.claim N a) b := by
  have hnew : ∀ i, some (N.inst a) = some i → N.pid i = N.pid (N.inst b) → i = N.inst b := by
    rintro i hi hpid
    obtain rfl := Option.some.inj hi
    exact W.running_unique _ _ ha hb hpid
  cases p with
  | away => trivial
  | seen w e | measured w e st =>
      exact ⟨Nat.le_succ_of_le hk.1, fun he => absurd hk.1 (by simp [Slot.claim] at he; omega),
        fun _ => hnew⟩
  | condemned w e =>
      exact ⟨Nat.le_succ_of_le hk.1, fun he => absurd hk.1 (by simp [Slot.claim] at he; omega)⟩
  | joining w e =>
      exact ⟨Nat.le_succ_of_le hk.1, hk.2.1, hk.2.2.1,
        fun he => absurd hk.1 (by simp [Slot.claim] at he; omega), fun _ => hnew⟩
  | claiming | stamped | holding => exact hp.elim

variable [DecidableEq A]

theorem knows_update (hself : p.Knows W s a)
    (hother : ∀ b, b ≠ a → W.running (N.inst b) → (phase b).Knows W s b) (b : A)
    (hb : W.running (N.inst b)) : (Function.update phase a p b).Knows W s b := by
  by_cases hba : b = a
  · subst hba
    rwa [Function.update_self]
  · rw [Function.update_of_ne hba]
    exact hother b hba hb

/-- Every phase is an observer's, a claimant's or a holder's. -/
theorem Phase.trichotomy (p : Phase P T) : p.Observing ∨ p.Claiming ∨ p = .holding := by
  cases p <;> simp [Observing, Claiming]

namespace Inv

variable (h : Inv W s phase)

include h

/-- A move that leaves the slot alone. -/
theorem of_slot_eq (hself : p.Knows W s a) : Inv W s (Function.update phase a p) :=
  { h with knows := knows_update hself fun b _ hb => h.knows b hb }

omit [DecidableEq A] in
/-- Nobody holds a slot that is being claimed. -/
theorem no_holders {b : A} (hb : W.running (N.inst b)) (hp : (phase b).Claiming) :
    s.holders = [] := by
  obtain ⟨hlen, -⟩ := (h.owned _ ((h.knows b hb).claiming hp).1).2
  exact List.length_eq_zero_iff.mp hlen

theorem reclaim (hdead : ∀ i, s.inst = some i → ¬ W.running i) :
    Inv W s.reclaim (Function.update phase a .away) where
  free _ := rfl
  owned _ hw := by simp [Slot.reclaim] at hw
  completed := h.completed
  holders _ hb := by simp [Slot.reclaim] at hb
  spawned := h.spawned
  knows := by
    refine knows_update trivial fun b _ hb => ?_
    have hk := h.knows b hb
    rcases (phase b).trichotomy with hobs | hclaim | hhold
    · exact hk.observing hobs rfl rfl id
    · exact absurd hb (hdead _ (hk.claiming hclaim).2.1)
    · rw [hhold] at hk
      exact absurd hb (hdead _ (h.holders b hk))

theorem claim (ha : W.running (N.inst a)) (hw : s.word = none) :
    Inv W (s.claim N a) (Function.update phase a .claiming) where
  free hn := by simp [Slot.claim] at hn
  owned w hw' := by
    obtain rfl := Option.some.inj hw'
    exact ⟨⟨_, rfl, rfl⟩, rfl, fun hpos => absurd hpos (Nat.lt_irrefl 0)⟩
  completed hc := by simp [Slot.claim] at hc
  holders _ hb := by simp [Slot.claim] at hb
  spawned i hi := by
    obtain rfl := Option.some.inj hi
    exact W.running_spawned _ ha
  knows := by
    refine knows_update ⟨rfl, rfl, rfl, rfl⟩ fun b _ hb => ?_
    have hk := h.knows b hb
    rcases (phase b).trichotomy with hobs | hclaim | hhold
    · exact hk.overtaken hobs ha hb
    · simp [(hk.claiming hclaim).1] at hw
    · rw [hhold] at hk
      have hmem : b ∈ s.holders := hk
      simp [h.free hw] at hmem

theorem stamp (ha : W.running (N.inst a)) (hp : phase a = .claiming) :
    Inv W (s.stamp N a) (Function.update phase a .stamped) := by
  have hself := h.knows a ha
  rw [hp] at hself
  obtain ⟨hword, hinst, hclaimant, hcomp⟩ := hself
  refine ⟨h.free, h.owned, fun hc => ?_, h.holders, h.spawned,
    knows_update ⟨hword, hinst, hclaimant, hcomp, rfl⟩ fun b hba hb => ?_⟩
  · simp [Slot.stamp, hcomp] at hc
  · have hk := h.knows b hb
    rcases (phase b).trichotomy with hobs | hclaim | hhold
    · exact hk.observing hobs rfl rfl id
    · exact absurd (Option.some.inj ((hk.claiming hclaim).2.2.1.symm.trans hclaimant)) hba
    · rw [hhold] at hk ⊢
      exact hk

theorem complete (ha : W.running (N.inst a)) (hp : phase a = .stamped) :
    Inv W (s.complete N a) (Function.update phase a .holding) := by
  have hself := h.knows a ha
  rw [hp] at hself
  obtain ⟨hword, hinst, hclaimant, hcomp, hstart⟩ := hself
  have hnone : s.holders = [] := h.no_holders ha (by rw [hp]; trivial)
  refine ⟨fun hn => ?_, fun w hw => ?_, fun _ i hi => ?_, fun b hb => ?_, h.spawned,
    knows_update (List.mem_singleton.mpr rfl) fun b hba hb => ?_⟩
  · simp [Slot.complete] at hn
  · obtain rfl := Option.some.inj hw
    exact ⟨⟨_, hinst, rfl⟩, rfl, fun _ => rfl⟩
  · obtain rfl := Option.some.inj (hinst.symm.trans hi)
    exact hstart
  · obtain rfl := List.mem_singleton.mp hb
    exact hinst
  · have hk := h.knows b hb
    rcases (phase b).trichotomy with hobs | hclaim | hhold
    · exact hk.observing hobs rfl rfl fun _ => rfl
    · exact absurd (Option.some.inj ((hk.claiming hclaim).2.2.1.symm.trans hclaimant)) hba
    · rw [hhold] at hk
      have hmem : b ∈ s.holders := hk
      simp [hnone] at hmem

theorem join {w : P × ℕ} {e : ℕ} (ha : W.running (N.inst a)) (hp : phase a = .joining w e)
    (hw : s.word = some w) : Inv W (s.join a w) (Function.update phase a .holding) := by
  have hself := h.knows a ha
  rw [hp] at hself
  obtain ⟨hle, hpid, hpos, hsame, hlater⟩ := hself
  obtain ⟨⟨i, hi, hipid⟩, hlen, hcomp⟩ := h.owned w hw
  have hinst : s.inst = some (N.inst a) := by
    rcases Nat.eq_or_lt_of_le hle with heq | hlt
    · exact hsame heq.symm
    · rw [hi, hlater hlt i hi (hipid.trans hpid)]
  refine ⟨fun hn => ?_, fun w' hw' => ?_, h.completed, fun b hb => ?_, h.spawned,
    knows_update List.mem_cons_self fun b hba hb => ?_⟩
  · simp [Slot.join] at hn
  · obtain rfl := Option.some.inj hw'
    exact ⟨⟨i, hi, hipid⟩, by simp [Slot.join, hlen], fun _ => hcomp hpos⟩
  · rcases List.mem_cons.mp hb with rfl | hb
    · exact hinst
    · exact h.holders b hb
  · have hk := h.knows b hb
    rcases (phase b).trichotomy with hobs | hclaim | hhold
    · exact hk.observing hobs rfl rfl id
    · have hzero := Option.some.inj (hw.symm.trans (hk.claiming hclaim).1)
      simp [hzero] at hpos
    · rw [hhold] at hk ⊢
      exact List.mem_cons_of_mem _ hk

theorem release {w : P × ℕ} (ha : W.running (N.inst a)) (hp : phase a = .holding)
    (hw : s.word = some w) : Inv W (s.release a w) (Function.update phase a .away) := by
  have hself := h.knows a ha
  rw [hp] at hself
  have hmem : a ∈ s.holders := hself
  obtain ⟨hinst, hlen, hcomp⟩ := h.owned w hw
  have hlen' := List.length_erase_of_mem hmem
  have hpos := List.length_pos_of_mem hmem
  refine ⟨fun hn => ?_, fun w' hw' => ?_, h.completed, fun b hb => ?_, h.spawned,
    knows_update trivial fun b hba hb => ?_⟩
  · simp only [Slot.release, Slot.released] at hn ⊢
    split_ifs at hn with hone
    exact List.length_eq_zero_iff.mp (by omega)
  · simp only [Slot.release, Slot.released] at hw' ⊢
    split_ifs at hw' with hone
    obtain rfl := Option.some.inj hw'
    exact ⟨hinst, by simp only; omega, fun _ => hcomp (by omega)⟩
  · exact h.holders b (List.mem_of_mem_erase hb)
  · have hk := h.knows b hb
    rcases (phase b).trichotomy with hobs | hclaim | hhold
    · exact hk.observing hobs rfl rfl id
    · simp [h.no_holders hb hclaim] at hmem
    · rw [hhold] at hk ⊢
      exact (List.mem_erase_of_ne hba).mpr hk

end Inv

omit [DecidableEq A] in
theorem Dead.not_running {w : P × ℕ} {st : Option T} (hdead : Dead W w st) {i : I}
    (hpid : N.pid i = w.1) (hst : ∀ t, st = some t → 0 < w.2 → t = N.born i) :
    ¬ W.running i := by
  intro hi
  obtain ⟨hpos, t, ht, hne⟩ := hdead i hi hpid
  exact hne (hst t ht hpos).symm

/-- Every access of a running thread keeps the invariant. -/
theorem Inv.move (h : Inv W s phase) (ha : W.running (N.inst a))
    (hm : Move W a s (phase a) s' p) : Inv W s' (Function.update phase a p) := by
  generalize hp : phase a = q at hm
  have hself := h.knows a ha
  rw [hp] at hself
  cases hm with
  | stay => exact h.of_slot_eq hself
  | see hw =>
      exact h.of_slot_eq ⟨Nat.le_refl _, fun _ => ⟨(h.owned _ hw).1, (h.owned _ hw).2.2⟩,
        fun hlt => absurd hlt (Nat.lt_irrefl _)⟩
  | measure w e =>
      refine h.of_slot_eq ⟨hself.1, fun he => ?_, hself.2.2⟩
      obtain ⟨⟨i, hi, hpid⟩, hcomp⟩ := hself.2.1 he
      exact ⟨i, hi, hpid, fun hpos => h.completed (hcomp hpos) i hi⟩
  | condemn hdead =>
      refine h.of_slot_eq ⟨hself.1, fun he i hi => ?_⟩
      obtain ⟨⟨j, hj, hpid⟩, -⟩ := hself.2.1 he
      obtain rfl := Option.some.inj (hi.symm.trans hj)
      exact hdead.not_running hpid fun t ht => absurd ht (by simp)
  | condemnMeasured hdead =>
      refine h.of_slot_eq ⟨hself.1, fun he i hi => ?_⟩
      obtain ⟨j, hj, hpid, hst⟩ := hself.2.1 he
      obtain rfl := Option.some.inj (hi.symm.trans hj)
      refine hdead.not_running hpid fun t ht hpos => ?_
      obtain rfl := Option.some.inj ht
      exact hst hpos
  | leaveSeen | leaveMeasured | leaveCondemned | leaveJoining => exact h.of_slot_eq trivial
  | reclaim hw haba => exact h.reclaim (haba.elim (fun he => hself.2 he) id)
  | claim hw => exact h.claim ha hw
  | stamp => exact h.stamp ha hp
  | complete hw => exact h.complete ha hp
  | recognise hpid hpos hst =>
      refine h.of_slot_eq ⟨hself.1, hpid, hpos, fun he => ?_, hself.2.2⟩
      obtain ⟨i, hi, hipid, hborn⟩ := hself.2.1 he
      rw [hi, N.born_ne i _ (hipid.trans hpid) ((hborn hpos).symm.trans hst)]
  | join hw => exact h.join ha hp hw
  | release hw => exact h.release ha hp hw

omit [DecidableEq A] in
/-- Processes start and die without disturbing a slot. -/
theorem Inv.world {W' : World N} (h : Inv W s phase)
    (hspawned : ∀ i, W.spawned i → W'.spawned i)
    (hrunning : ∀ i, W.spawned i → W'.running i → W.running i)
    (hphase : ∀ b, W'.running (N.inst b) → ¬ W.running (N.inst b) → phase b = .away) :
    Inv W' s phase := by
  refine { h with
    spawned := fun i hi => hspawned i (h.spawned i hi)
    knows := fun b hb => ?_ }
  by_cases hold : W.running (N.inst b)
  · have hk := h.knows b hold
    cases hp : phase b with
    | condemned w e =>
        rw [hp] at hk
        exact ⟨hk.1, fun he i hi hi' => hk.2 he i hi (hrunning i (h.spawned i hi) hi')⟩
    | _ => rw [hp] at hk; exact hk
  · rw [hphase b hb hold]
    trivial

omit [DecidableEq A] in
/-- A running holder's process owns the slot, with a positive count. -/
theorem Inv.holding (h : Inv W s phase) (ha : W.running (N.inst a)) (hp : phase a = .holding) :
    ∃ w, s.word = some w ∧ w.1 = N.pid (N.inst a) ∧ 0 < w.2 ∧ a ∈ s.holders := by
  have hk := h.knows a ha
  rw [hp] at hk
  have hmem : a ∈ s.holders := hk
  cases hw : s.word with
  | none => simp [h.free hw] at hmem
  | some w =>
      obtain ⟨⟨i, hi, hpid⟩, hlen, -⟩ := h.owned w hw
      obtain rfl := Option.some.inj (hi.symm.trans (h.holders a hmem))
      exact ⟨w, rfl, hpid.symm, hlen ▸ List.length_pos_of_mem hmem, hmem⟩

end Probing.Core.LeaseSlot
