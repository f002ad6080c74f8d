import Mathlib.Data.Fintype.Basic
import Probing.Memh.SlotOwnership
import Probing.Memh.SlotRecovery

/-!
# What readers see of a slot

A read is safe when the words it has loaded are still those of the slot whenever
the slot's control word equals the one the read started from. Only a store that
publishes an even control word can break this: the rollback, which brings an old
control word back, and a commit whose generation has wrapped around.

Every tuple `read_slot` returns is a committed image of its slot, and so is
every slot once a recovery is over, in all runs that are orderly: a step that
publishes an even control word finds the slot's last word restored and no read
it could deceive. The rollback of the code is not always orderly.
-/

namespace Probing.Memh

open Store

variable {G : Geometry} {st st' : Store} {idx : ℕ}

/-- If the read started from control word `c`, what it has loaded since is what
the slot holds. -/
def ReadPc.Matches (st : Store) (off : ℕ) (c : UInt64) : ReadPc → Prop
  | .control | .word0 _ => True
  | .hash before w0 => before = c → w0 = st.load off 0
  | .value before w0 h => before = c → w0 = st.load off 0 ∧ h = st.load off 1
  | .check before w0 h v => before = c →
      w0 = st.load off 0 ∧ h = st.load off 1 ∧ v = st.load off 3

/-- The control word a read starts from is even. -/
def ReadPc.Even : ReadPc → Prop
  | control => True
  | word0 c | hash c _ | value c _ _ | check c _ _ _ => isOdd c = false

/-- A read inside the slot at `off` matches it at control word `c`. -/
def Pc.Matches (st : Store) (off : ℕ) (c : UInt64) : Pc → Prop
  | reading idx _ r => slotOffset idx = off → r.Matches st off c
  | _ => True

/-- What an owner's step does to slot `idx`: nothing, keep or make it odd, or
publish an even control word over the words already there. -/
theorem transact_slot {p : TxPc} (hp : p.Knows G st) (idx : ℕ) :
    (∀ w, (transact G st p).1.load (slotOffset idx) w = st.load (slotOffset idx) w) ∨
      (transact G st p).1.Busy idx ∨
      ∃ c, p.publishes = some (slotOffset idx, c) ∧
        (transact G st p).1.load (slotOffset idx) 2 = c ∧
        ∀ w ≠ 2, (transact G st p).1.load (slotOffset idx) w = st.load (slotOffset idx) w := by
  cases p with
  | journalStore off w v =>
      obtain ⟨j, hj, rfl, hjournals, hbusy, hrestored, hlast, rfl⟩ := hp
      by_cases hne : idx = j
      · subst hne
        by_cases hw3 : w = 3
        · subst hw3
          have hword : st.journalWords 3 = st.load (slotOffset idx) 3 :=
            congrArg Image.value (hlast rfl).1.symm
          have hsame := st.store_load_self (slotOffset idx) hword
          exact .inl fun w => by simp only [transact, hsame]
        by_cases hw2 : w = 2
        · subst hw2
          exact .inr (.inr ⟨_, rfl, load_store_self _, fun w hw => load_store_word _ hw⟩)
        · exact .inr (.inl ((busy_store_payload hw2).mpr (hbusy (by omega))))
      · exact .inl fun w => load_store_slot hne
  | beginOdd j u headOff generation =>
      by_cases hne : idx = j
      · subst hne
        exact .inr (.inl (busy_store_control.mpr (isOdd_oddGeneration _ _)))
      · exact .inl fun w => load_store_slot hne
  | body j headOff odd ops =>
      obtain ⟨hj, hbusy⟩ := hp
      by_cases hne : idx = j
      · subst hne
        cases ops with
        | nil => exact .inr (.inr ⟨_, rfl, load_store_self _, fun w hw => load_store_word _ hw⟩)
        | cons op rest =>
            cases op with
            | word0 v | hash v | value v =>
                exact .inr (.inl ((busy_store_payload (by decide)).mpr hbusy))
            | patchWord0 tag valDtype => exact .inl fun w => rfl
      · cases ops with
        | nil => exact .inl fun w => load_store_slot hne
        | cons op rest =>
            cases op with
            | word0 v | hash v | value v => exact .inl fun w => load_store_slot hne
            | patchWord0 tag valDtype => exact .inl fun w => rfl
  | _ => exact .inl fun w => rfl

/-- Committed images are never forgotten. -/
theorem transact_committed {p : TxPc} {i : Image} (hi : i ∈ st.committed idx) :
    i ∈ (transact G st p).1.committed idx := by
  cases p with
  | body j headOff odd ops =>
      cases ops with
      | nil =>
          simp only [transact, Function.update_apply]
          split_ifs with hj
          · exact List.mem_cons_of_mem _ (hj ▸ hi)
          · exact hi
      | cons op rest => cases op <;> exact hi
  | _ => exact hi

/-- What a read knows of the slot it reads. -/
def ReadPc.Knows (st : Store) (off : ℕ) (r : ReadPc) : Prop :=
  r.Even ∧ r.Matches st off (st.load off 2)

theorem ReadPc.Matches.congr {off : ℕ} {c : UInt64} {r : ReadPc} (h : r.Matches st off c)
    (hw : ∀ w ≠ 2, st'.load off w = st.load off w) : r.Matches st' off c := by
  have h0 := hw 0 (by decide)
  have h1 := hw 1 (by decide)
  have h3 := hw 3 (by decide)
  cases r with
  | control | word0 _ => trivial
  | hash _ _ | value _ _ _ | check _ _ _ _ => simpa only [Matches, h0, h1, h3] using h

theorem ReadPc.Even.matches_odd {off : ℕ} {c : UInt64} {r : ReadPc} (h : r.Even)
    (hc : isOdd c = true) : r.Matches st off c := by
  cases r with
  | control | word0 _ => trivial
  | hash _ _ | value _ _ _ | check _ _ _ _ =>
      rintro rfl
      exact absurd h (by simp [Even, hc])

/-- An orderly owner's step deceives no read. -/
theorem ReadPc.Knows.transact {p : TxPc} {r : ReadPc} (hr : r.Knows st (slotOffset idx))
    (hp : p.Knows G st)
    (hfresh : ∀ c, p.publishes = some (slotOffset idx, c) → r.Matches st (slotOffset idx) c) :
    r.Knows (transact G st p).1 (slotOffset idx) := by
  refine ⟨hr.1, ?_⟩
  obtain hsame | hbusy | ⟨c, hpub, hc, hsame⟩ := transact_slot hp idx
  · rw [hsame 2]
    exact hr.2.congr fun w _ => hsame w
  · exact hr.1.matches_odd hbusy
  · rw [hc]
    exact (hfresh c hpub).congr hsame

open Probing.Core (exec Meets exec_invariant)

section Safety

variable {A : Type*} [DecidableEq A] (S : Setting A)

/-- No live read that started from control word `c` has loaded a word the slot
at `off` does not hold. -/
def State.ReadsFresh (s : State A) (off : ℕ) (c : UInt64) : Prop :=
  ∀ b, s.alive (S.pid b) → (s.pc b).Matches s.store off c

/-- A step that publishes an even control word finds the slot's last word
restored, if it is a rollback, and no read it could deceive. -/
def TxPc.Orderly (s : State A) (p : TxPc) : Prop :=
  p.InOrder s.store ∧ ∀ x ∈ p.publishes, s.ReadsFresh S x.1 x.2

def Pc.Orderly (s : State A) : Pc → Prop
  | owning _ (.tx p) => p.Orderly S s
  | _ => True

def Orderly (s : State A) : Action A → Prop
  | .step a => (s.pc a).Orderly S s
  | _ => True

section Decidable

instance (st : Store) (off : ℕ) (c : UInt64) : ∀ r : ReadPc, Decidable (r.Matches st off c)
  | .control | .word0 _ => inferInstanceAs (Decidable True)
  | .hash before w0 => inferInstanceAs (Decidable (before = c → w0 = st.load off 0))
  | .value before w0 h =>
      inferInstanceAs (Decidable (before = c → w0 = st.load off 0 ∧ h = st.load off 1))
  | .check before w0 h v => inferInstanceAs (Decidable (before = c →
      w0 = st.load off 0 ∧ h = st.load off 1 ∧ v = st.load off 3))

instance (st : Store) (off : ℕ) (c : UInt64) : ∀ p : Pc, Decidable (p.Matches st off c)
  | .idle | .claiming _ _ | .owning _ _ => inferInstanceAs (Decidable True)
  | .reading idx _ r =>
      inferInstanceAs (Decidable (slotOffset idx = off → r.Matches st off c))

instance (st : Store) (p : TxPc) : Decidable (p.InOrder st) := by
  unfold TxPc.InOrder
  split <;> infer_instance

variable [Fintype A]

instance (s : State A) (off : ℕ) (c : UInt64) : Decidable (s.ReadsFresh S off c) :=
  inferInstanceAs (Decidable (∀ b, s.alive (S.pid b) → (s.pc b).Matches s.store off c))

instance (s : State A) (p : TxPc) : Decidable (p.Orderly S s) :=
  inferInstanceAs (Decidable (_ ∧ ∀ x ∈ p.publishes, s.ReadsFresh S x.1 x.2))

instance (s : State A) : ∀ p : Pc, Decidable (p.Orderly S s)
  | .idle | .reading _ _ _ | .claiming _ _ | .owning _ .claimRelease | .owning _ .dropStart
  | .owning _ .dropPid => inferInstanceAs (Decidable True)
  | .owning _ (.tx p) => inferInstanceAs (Decidable (p.Orderly S s))

instance (s : State A) : ∀ act : Action A, Decidable (Orderly S s act)
  | .read _ _ | .acquire _ | .update _ _ _ | .release _ | .die _ =>
      inferInstanceAs (Decidable True)
  | .step a => inferInstanceAs (Decidable ((s.pc a).Orderly S s))

end Decidable

/-- Recovery is over and the lock not yet given back. -/
def Pc.recovered : Pc → Bool
  | owning _ (.tx .held) | owning _ .dropStart => true
  | _ => false

/-- Everything `read_slot` has returned is a committed image of its slot, and
so is every slot whenever a recovery is over. -/
structure State.SlotSafe (s : State A) : Prop where
  returned : ∀ r ∈ s.returned, r.2 ∈ s.store.committed r.1
  recovered : ∀ a, s.alive (S.pid a) → (s.pc a).recovered →
    ∀ idx < S.numBuckets, s.store.image (slotOffset idx) ∈ s.store.committed idx

end Safety

open Store

variable {G : Geometry} {st : Store}

/-- The slot a reader will return to exists. -/
def Caller.Valid (G : Geometry) : Caller → Prop
  | writer => True
  | reader idx _ => idx < G.numBuckets

def OwnerPc.Knows (G : Geometry) (st : Store) : OwnerPc → Prop
  | claimRelease | dropPid => True
  | tx p => p.Knows G st
  | dropStart => st.Quiet G

/-- What a thread knows of the store. -/
def Pc.Knows (G : Geometry) (st : Store) : Pc → Prop
  | idle => True
  | reading idx _ r => idx < G.numBuckets ∧ r.Knows st (slotOffset idx)
  | claiming caller _ => caller.Valid G
  | owning caller p => caller.Valid G ∧ p.Knows G st

theorem Caller.Valid.resume {c : Caller} (h : c.Valid G) : c.resume.Knows G st := by
  cases c with
  | writer => trivial
  | reader idx retries => exact ⟨h, trivial, trivial⟩

theorem Caller.Valid.after {c : Caller} {p : TxPc} (h : c.Valid G) (hp : p.Knows G st) :
    (Pc.owning c (c.after p)).Knows G st := by
  refine ⟨h, ?_⟩
  cases p with
  | refused => exact hp.elim
  | held => cases c with
    | writer => exact hp
    | reader idx retries => exact hp.1
  | _ => cases c <;> exact hp

section Invariant

variable {A : Type*} [DecidableEq A] {S : Setting A} {s t : State A} {a : A}

/-- The invariant of the slot protocol. -/
structure State.Inv (S : Setting A) (s : State A) : Prop where
  lock : s.LockExclusive S
  consistent : s.store.Consistent S.toGeometry
  knows : ∀ a, s.alive (S.pid a) → (s.pc a).Knows S.toGeometry s.store
  returned : ∀ r ∈ s.returned, r.2 ∈ s.store.committed r.1

/-- A step of `read_slot` loads at most one word, and returns only what is in
the slot. -/
theorem readStep_sound {idx : ℕ} {r : ReadPc} (h : s.Inv S) (retries : ℕ)
    (hidx : idx < S.numBuckets) (hr : r.Knows s.store (slotOffset idx)) :
    (readStep s a idx retries r).store = s.store ∧
      ((readStep s a idx retries r).pc a).Knows S.toGeometry s.store ∧
      ∀ r' ∈ (readStep s a idx retries r).returned, r'.2 ∈ s.store.committed r'.1 := by
  have hret := h.returned
  obtain ⟨heven, hmatch⟩ := hr
  cases r with
  | control =>
      simp only [readStep]
      split_ifs with hodd hspin
      · exact ⟨rfl, (s.gotoPc_self a _).symm ▸ hidx, hret⟩
      · exact ⟨rfl, (s.gotoPc_self a _).symm ▸ ⟨hidx, trivial, trivial⟩, hret⟩
      · have heven' : isOdd (s.store.load (slotOffset idx) 2) = false := by simpa using hodd
        exact ⟨rfl, (s.gotoPc_self a _).symm ▸ ⟨hidx, heven', trivial⟩, hret⟩
  | word0 c =>
      exact ⟨rfl, (s.gotoPc_self a _).symm ▸ ⟨hidx, heven, fun _ => rfl⟩, hret⟩
  | hash c w0 =>
      exact ⟨rfl, (s.gotoPc_self a _).symm ▸ ⟨hidx, heven, fun e => ⟨hmatch e, rfl⟩⟩, hret⟩
  | value c w0 v1 =>
      have hknown : c = s.store.load (slotOffset idx) 2 → w0 = s.store.load (slotOffset idx) 0 ∧
          v1 = s.store.load (slotOffset idx) 1 ∧
          s.store.load (slotOffset idx) 3 = s.store.load (slotOffset idx) 3 :=
        fun e => ⟨(hmatch e).1, (hmatch e).2, rfl⟩
      exact ⟨rfl, (s.gotoPc_self a _).symm ▸ ⟨hidx, heven, hknown⟩, hret⟩
  | check c w0 v1 v3 =>
      simp only [readStep]
      split_ifs with hc
      · refine ⟨rfl, (s.gotoPc_self a _).symm ▸ trivial, ?_⟩
        obtain ⟨h0, h1, h3⟩ := hmatch hc
        have himage : (⟨w0, v1, c, v3⟩ : Image) = s.store.image (slotOffset idx) := by
          rw [h0, h1, h3, hc]
          rfl
        have hidle : ¬ s.store.Busy idx := by
          have heven' : isOdd c = false := heven
          simp [Busy, ← hc, heven']
        intro r' hr'
        rcases List.mem_cons.mp hr' with rfl | hr'
        · simpa only [himage] using h.consistent.even idx hidx hidle
        · exact hret r' hr'
      · exact ⟨rfl, (s.gotoPc_self a _).symm ▸ ⟨hidx, trivial, trivial⟩, hret⟩

/-- A step of `acquire_writer` before the lock is owned leaves the store alone. -/
theorem claimStep_sound {caller : Caller} (p : ClaimPc) (hcaller : caller.Valid S.toGeometry) :
    (claimStep S s a caller p).store = s.store ∧
      (claimStep S s a caller p).returned = s.returned ∧
      ((claimStep S s a caller p).pc a).Knows S.toGeometry s.store := by
  have hresume : caller.resume.Knows S.toGeometry s.store := hcaller.resume
  cases p <;> simp only [claimStep] <;> (try split_ifs) <;>
    refine ⟨rfl, rfl, ?_⟩ <;> simp <;>
      first | exact hresume | exact hcaller | exact ⟨hcaller, trivial⟩

/-- A step that leaves the store alone keeps what the other threads know. -/
theorem State.Inv.of_store_eq (h : s.Inv S) (hlock : t.LockExclusive S)
    (hstore : t.store = s.store) (halive : t.alive = s.alive)
    (hother : ∀ b, b ≠ a → t.pc b = s.pc b)
    (hself : (t.pc a).Knows S.toGeometry s.store)
    (hret : ∀ r ∈ t.returned, r.2 ∈ s.store.committed r.1) : t.Inv S := by
  refine ⟨hlock, hstore ▸ h.consistent, fun b hb => ?_, hstore ▸ hret⟩
  rw [hstore]
  by_cases hba : b = a
  · exact hba ▸ hself
  · rw [hother b hba]
    exact h.knows b (halive ▸ hb)

theorem not_busy_initial (idx : ℕ) : ¬ Store.initial.Busy idx := by
  have hzero : isOdd 0 = false := by decide
  simpa [Busy, Store.initial, load] using hzero

omit [DecidableEq A] in
theorem inv_initial : (State.initial : State A).Inv S where
  lock := lockExclusive_initial
  consistent := ⟨fun _ _ _ => List.mem_singleton.mpr rfl,
    fun idx _ hb => absurd hb (not_busy_initial idx), fun h => absurd rfl h⟩
  knows _ _ := trivial
  returned _ h := absurd h List.not_mem_nil

omit [DecidableEq A] in
theorem Enters.knows {p : Pc} (hp : Enters S s a p)
    (ha : (s.pc a).Knows S.toGeometry s.store) : p.Knows S.toGeometry s.store := by
  cases hp with
  | read _ hidx => exact ⟨hidx, trivial, trivial⟩
  | acquire _ => trivial
  | update hpc hidx =>
      rw [hpc] at ha
      exact ⟨trivial, hidx, ha.2.1, ha.2.2, fun v hv => absurd hv (Fin.not_lt_zero v)⟩
  | release hpc =>
      rw [hpc] at ha
      exact ⟨trivial, ha.2.1⟩

/-- An orderly access of a transaction keeps the invariant: the owner is alone,
and every other live thread is at most reading. -/
theorem tx_inv {caller : Caller} {p : TxPc} (h : s.Inv S) (ha : s.alive (S.pid a))
    (hpc : s.pc a = .owning caller (.tx p)) (hok : Orderly S s (.step a))
    (hlock : (advance S s a).LockExclusive S) : (advance S s a).Inv S := by
  have hself := h.knows a ha
  rw [hpc] at hself
  obtain ⟨hcaller, hp⟩ := hself
  simp only [Orderly, hpc] at hok
  obtain ⟨horder, hfresh⟩ : p.Orderly S s := hok
  obtain ⟨hcons, hnext⟩ := transact_sound h.consistent hp horder
  have hstore : (advance S s a).store = (transact S.toGeometry s.store p).1 := by
    simp only [advance, hpc, ownerStep]
  refine ⟨hlock, hstore ▸ hcons, fun b hb => ?_, ?_⟩
  · rw [advance_alive] at hb
    rw [hstore]
    by_cases hba : b = a
    · subst hba
      simp only [advance, hpc, ownerStep, State.gotoPc, Function.update_self]
      exact hcaller.after hnext
    · rw [advance_pc_other hba]
      have hkb := h.knows b hb
      cases hpb : s.pc b with
      | idle => trivial
      | reading idx retries r =>
          rw [hpb] at hkb
          refine ⟨hkb.1, hkb.2.transact hp fun c hpub => ?_⟩
          have hmatch := hfresh _ hpub b hb
          rw [hpb] at hmatch
          exact hmatch rfl
      | claiming c q =>
          rw [hpb] at hkb
          exact hkb
      | owning c q => exact absurd (owner_unique h.lock hb ha hpb hpc) hba
  · have hret : (advance S s a).returned = s.returned := by
      simp only [advance, hpc, ownerStep, State.goto_returned]
    rw [hret, hstore]
    exact fun r hr => transact_committed (h.returned r hr)

theorem advance_inv (h : s.Inv S) (ha : s.alive (S.pid a)) (hok : Orderly S s (.step a))
    (hlock : (advance S s a).LockExclusive S) : (advance S s a).Inv S := by
  have hself := h.knows a ha
  have hother : ∀ b, b ≠ a → (advance S s a).pc b = s.pc b := fun b => advance_pc_other
  cases hpc : s.pc a with
  | idle =>
      have hsame : advance S s a = s := by simp only [advance, hpc]
      exact hsame.symm ▸ h
  | reading idx retries r =>
      rw [hpc] at hself
      have hstep : advance S s a = readStep s a idx retries r := by simp only [advance, hpc]
      obtain ⟨hstore, hknows, hret⟩ := readStep_sound (a := a) h retries hself.1
        hself.2
      rw [← hstep] at hstore hknows hret
      exact h.of_store_eq hlock hstore (advance_alive s a) hother hknows hret
  | claiming caller p =>
      rw [hpc] at hself
      have hstep : advance S s a = claimStep S s a caller p := by simp only [advance, hpc]
      obtain ⟨hstore, hret, hknows⟩ := claimStep_sound (s := s) (a := a) p hself
      rw [← hstep] at hstore hret hknows
      exact h.of_store_eq hlock hstore (advance_alive s a) hother hknows (hret ▸ h.returned)
  | owning caller p =>
      rw [hpc] at hself
      cases p with
      | tx p => exact tx_inv h ha hpc hok hlock
      | claimRelease =>
          refine h.of_store_eq hlock ?_ (advance_alive s a) hother ?_ ?_ <;>
            simp only [advance, hpc, ownerStep, State.goto_store, State.goto_returned,
              State.gotoPc, Function.update_self]
          · exact ⟨hself.1, trivial⟩
          · exact h.returned
      | dropStart =>
          refine h.of_store_eq hlock ?_ (advance_alive s a) hother ?_ ?_ <;>
            simp only [advance, hpc, ownerStep, State.goto_store, State.goto_returned,
              State.gotoPc, Function.update_self]
          · exact ⟨hself.1, trivial⟩
          · exact h.returned
      | dropPid =>
          refine h.of_store_eq hlock ?_ (advance_alive s a) hother ?_ ?_ <;>
            simp only [advance, hpc, ownerStep, State.goto_store, State.goto_returned,
              State.gotoPc, Function.update_self]
          · exact hself.1.resume
          · exact h.returned

theorem step_inv {act : Action A} (h : s.Inv S) (hok : Orderly S s act)
    (hstep : step S s act = some t) : t.Inv S := by
  have hlock := step_lockExclusive h.lock hstep
  obtain ⟨b, p, halive, hp, rfl⟩ | ⟨b, rfl, halive, rfl⟩ | ⟨q, rfl⟩ := step_cases hstep
  · refine h.of_store_eq (a := b) hlock rfl rfl (fun c hc => by simp [hc]) ?_ h.returned
    exact (s.gotoPc_self b p).symm ▸ hp.knows (h.knows b halive)
  · exact advance_inv h halive hok hlock
  · refine ⟨hlock, h.consistent, fun b hb => h.knows b ?_, h.returned⟩
    simp only [Function.update_apply] at hb
    by_cases hbq : S.pid b = q
    · simp [hbq] at hb
    · simpa [hbq] using hb

omit [DecidableEq A] in
theorem State.Inv.slotSafe (h : s.Inv S) : s.SlotSafe S := by
  refine ⟨h.returned, fun a ha hrec idx hidx => ?_⟩
  have hknows := h.knows a ha
  have hquiet : s.store.Quiet S.toGeometry := by
    revert hrec hknows
    cases s.pc a with
    | owning caller p => cases p with
      | tx p => cases p with
        | held => exact fun _ hk => hk.2.1
        | _ => intro hrec; simp [Pc.recovered] at hrec
      | dropStart => exact fun _ hk => hk.2
      | _ => intro hrec; simp [Pc.recovered] at hrec
    | _ => intro hrec; simp [Pc.recovered] at hrec
  exact h.consistent.even idx hidx (hquiet idx hidx)

/-- In every orderly run of readers, writers and recoverers, with any process
dying between any two steps, no read returns a mixture and no recovery leaves
one behind. -/
theorem slot_protocol_safe (S : Setting A) {acts : List (Action A)}
    (hok : Meets (step S) (Orderly S) .initial acts)
    (hrun : exec (step S) .initial acts = some t) : t.SlotSafe S :=
  (exec_invariant (fun _ _ _ => step_inv) inv_initial hok hrun).slotSafe

end Invariant

section Runs

/-- Three processes of one thread each, on a table of one slot. -/
def threeProcesses : Setting (Fin 3) where
  numBuckets := 1
  fits := one_bucket_fits
  pid a := .ofNat (a + 1)
  pid_ne_zero := by decide
  processStartTime _ := 7

def steps (a : Fin 3) (n : ℕ) : List (Action (Fin 3)) := List.replicate n (.step a)

/-- Thread 0 commits value 42, then dies `n` steps into its update to 43. -/
def interruptedUpdate (n : ℕ) : List (Action (Fin 3)) :=
  .acquire 0 :: steps 0 7 ++
    .update 0 0 (.commitSlot slotInline 2 3 11 224 42) :: steps 0 17 ++
    .update 0 0 (.updateSlotInlineValue 2 43) :: steps 0 n ++ [Action.die 1]

/-- A full recovery before the value was touched, then a read. -/
def orderlyRun : List (Action (Fin 3)) :=
  interruptedUpdate 14 ++ .acquire 1 :: steps 1 20 ++ .read 2 0 :: steps 2 5

theorem slot_protocol_safe_orderlyRun :
    ∃ t, exec (step threeProcesses) .initial orderlyRun = some t ∧
      t.returned.map (fun r => r.2.value) = [42] ∧ t.SlotSafe threeProcesses := by
  have hrun : (exec (step threeProcesses) .initial orderlyRun).any
      (fun t => t.returned.map (fun r => r.2.value) = [42]) = true := by decide
  have hok : Meets (step threeProcesses) (Orderly threeProcesses) .initial orderlyRun := by
    decide +kernel
  obtain ⟨t, ht, hret⟩ := (Option.any_eq_true _ _).mp hrun
  exact ⟨t, ht, of_decide_eq_true hret, slot_protocol_safe threeProcesses hok ht⟩

/-- A tuple was returned that no committed image of its slot decodes to. -/
def torn (t : State (Fin 3)) : Bool :=
  t.returned.any fun r => (t.store.committed r.1).all fun i => r.2.tuple != i.tuple

/-- The writer dies after storing the new value; the rollback has restored the
control word but not yet the value when the read begins. -/
def tornRun : List (Action (Fin 3)) :=
  interruptedUpdate 15 ++ .acquire 1 :: steps 1 17 ++ .read 2 0 :: steps 2 5

/-- A rollback publishes the old control word over the dead writer's value. -/
theorem slot_protocol_torn :
    ∃ t, exec (step threeProcesses) .initial tornRun = some t ∧
      ¬ t.SlotSafe threeProcesses ∧ torn t := by
  have hrun : (exec (step threeProcesses) .initial tornRun).any torn = true := by
    decide
  obtain ⟨t, ht, htorn⟩ := (Option.any_eq_true _ _).mp hrun
  refine ⟨t, ht, fun hsafe => ?_, htorn⟩
  obtain ⟨r, hr, hall⟩ := List.any_eq_true.mp htorn
  have hmixed := List.all_eq_true.mp hall r.2 (hsafe.returned r hr)
  simp at hmixed

end Runs

end Probing.Memh
