import Probing.Memh.WriterLockInvariant

/-!
# The writer lock is exclusive and can be taken again

Exclusion is read off the invariant. For the rest, a state without a live owner is driven by
the calls of one live thread to a call that succeeds.
-/

namespace Probing.Memh.WriterLock

open Probing.Core (exec Meets exec_invariant)
open Probing.Core.ClaimLock (Words Phase)

variable {A P : Type*} [DecidableEq A] [DecidableEq P] {S : Setting A P} {s t : State A P} {a : A}
variable {w : Words P UInt64} {phase : A → Phase P UInt64}

/-- Calls alone lead to one that succeeds. -/
def State.CanSucceed (S : Setting A P) (s : State A P) : Prop :=
  ∃ acts t b, (∀ act ∈ acts, act.call) ∧ exec (step S) s acts = some t ∧ t.Live S b ∧
    t.pc b = .held

theorem State.CanSucceed.of_held (hlive : s.Live S a) (hpc : s.pc a = .held) : s.CanSucceed S :=
  ⟨[], s, a, by simp, rfl, hlive, hpc⟩

theorem State.CanSucceed.of_call {act : Action A P} (hcall : act.call)
    (hs : step S s act = some t) (h : t.CanSucceed S) : s.CanSucceed S := by
  obtain ⟨acts, u, b, hcalls, hrun, hb⟩ := h
  refine ⟨act :: acts, u, b, ?_, ?_, hb⟩
  · simpa [hcall] using hcalls
  · simpa [hs] using hrun

theorem State.CanSucceed.of_advance (hlive : s.Live S a) (h : (advance S s a).CanSucceed S) :
    s.CanSucceed S :=
  have hs : step S s (.step a) = some (advance S s a) := by simp [step, hlive]
  h.of_call rfl hs

/-- A state the invariant holds in, with no live owner. -/
structure State.Unowned (S : Setting A P) (s : State A P) : Prop where
  inv : ∃ w phase, s.Inv S w phase
  unowned : ∀ a, s.Live S a → ¬ (s.pc a).inside

/-- A thread that is not inside after its step leaves the lock unowned. -/
theorem State.Unowned.advance (h : s.Unowned S) (hlive : s.Live S a)
    (hout : ¬ ((WriterLock.advance S s a).pc a).inside) :
    (WriterLock.advance S s a).Unowned S where
  inv := by
    obtain ⟨w, phase, hinv⟩ := h.inv
    exact hinv.advance hlive
  unowned b hb := by
    have hframe := framed_advance (S := S) s a
    by_cases hba : b = a
    · subst hba; exact hout
    · rw [hframe.pc b hba]
      exact h.unowned b ((hframe.live b).mp hb)

omit [DecidableEq P] in
theorem live_advance (hlive : s.Live S a) : (advance S s a).Live S a :=
  ((framed_advance s a).live a).mpr hlive

omit [DecidableEq P] in
theorem advance_claiming {p : ClaimPc} (hpc : s.pc a = .claiming p) :
    advance S s a = claimStep S s a p := by
  rw [advance, hpc]

omit [DecidableEq P] in
theorem advance_owning {p : OwnerPc} (hpc : s.pc a = .owning p) :
    advance S s a = ownerStep S s a p := by
  rw [advance, hpc]

section Recovery

omit [DecidableEq P] in
theorem advance_tx {p : TxPc} (hpc : s.pc a = .owning (.tx p)) :
    (advance S s a).pc a = .owning (afterTx (transact S.toGeometry s.store p).2) := by
  simp [advance_owning hpc, ownerStep]

theorem clear_succeeds (hlive : s.Live S a) (hpc : s.pc a = .owning (.tx .journalClear)) :
    s.CanSucceed S :=
  .of_advance hlive (.of_held (live_advance hlive) (advance_tx hpc))

/-- One word of the rollback is loaded and stored. -/
theorem load_succeeds {off : ℕ} {word : Fin 4}
    (hnext : ∀ s : State A P, s.Live S a → s.pc a =
      .owning (.tx (((nextWord word).map (.journalLoad off)).getD .journalClear)) →
        s.CanSucceed S)
    (s : State A P) (hlive : s.Live S a) (hpc : s.pc a = .owning (.tx (.journalLoad off word))) :
    s.CanSucceed S := by
  have hstore := advance_tx (S := S) hpc
  have hlive' := live_advance hlive
  refine .of_advance hlive (.of_advance hlive' (hnext _ (live_advance hlive') ?_))
  rw [advance_tx hstore]
  cases hword : nextWord word <;> simp [transact, hword, afterTx]

/-- The four words in turn, and then the end of the journal. -/
theorem loads_succeed (off : ℕ) (s : State A P) (hlive : s.Live S a)
    (hpc : s.pc a = .owning (.tx (.journalLoad off 0))) : s.CanSucceed S := by
  have h3 : ∀ s : State A P, s.Live S a → s.pc a = .owning (.tx (.journalLoad off 3)) →
      s.CanSucceed S := load_succeeds fun u hu hpu => clear_succeeds hu hpu
  have h2 : ∀ s : State A P, s.Live S a → s.pc a = .owning (.tx (.journalLoad off 2)) →
      s.CanSucceed S := load_succeeds h3
  have h1 : ∀ s : State A P, s.Live S a → s.pc a = .owning (.tx (.journalLoad off 1)) →
      s.CanSucceed S := load_succeeds h2
  exact load_succeeds h1 s hlive hpc

theorem recovery_succeeds (hlive : s.Live S a) (hj : s.Journalled S)
    (hpc : s.pc a = .owning (.tx .journalState)) : s.CanSucceed S := by
  have hlive1 := live_advance hlive
  have hpc1 := advance_tx (S := S) hpc
  refine .of_advance hlive ?_
  by_cases hzero : s.store.journalState = 0
  · simp only [transact, hzero, if_true] at hpc1
    exact .of_held hlive1 hpc1
  · simp only [transact, hzero, if_false] at hpc1
    have hknown : (advance S s a).store.Named S.toGeometry := by
      have := (hj.advance (a := a)).known a
      rwa [hpc1] at this
    have hlive2 := live_advance hlive1
    have hpc2 := advance_tx (S := S) hpc1
    refine .of_advance hlive1 ?_
    simp only [transact, if_neg hknown.bound] at hpc2
    have hlive3 := live_advance hlive2
    have hpc3 := advance_tx (S := S) hpc2
    refine .of_advance hlive2 ?_
    simp only [transact] at hpc3
    split_ifs at hpc3
    · exact loads_succeed _ _ hlive3 hpc3
    · exact clear_succeeds hlive3 hpc3

end Recovery

section Claiming

theorem pid_succeeds (h : s.Unowned S) (hlive : s.Live S a)
    (hpc : s.pc a = .claiming .pidStore) : s.CanSucceed S := by
  obtain ⟨w, phase, hinv⟩ := h.inv
  have hlive1 := live_advance hlive
  have hpc1 : (advance S s a).pc a = .owning .claimRelease := by
    simp [advance_claiming hpc, claimStep]
  have hpc2 : (advance S (advance S s a) a).pc a = .owning (.tx .journalState) := by
    simp [advance_owning hpc1, ownerStep]
  exact .of_advance hlive (.of_advance hlive1 (recovery_succeeds (live_advance hlive1)
    hinv.journalled.advance.advance hpc2))

theorem start_succeeds (h : s.Unowned S) (hlive : s.Live S a)
    (hpc : s.pc a = .claiming .startStore) : s.CanSucceed S := by
  have hpc1 : (advance S s a).pc a = .claiming .pidStore := by
    simp [advance_claiming hpc, claimStep]
  exact .of_advance hlive (pid_succeeds (h.advance hlive (by simp [hpc1, Pc.inside]))
    (live_advance hlive) hpc1)

omit [DecidableEq A] [DecidableEq P] in
/-- A thread that holds the claim finds the last owner dead. -/
theorem owner_dead (h : s.Unowned S) (hlive : s.Live S a) (hclaims : (s.pc a).claims)
    (hpc : s.pc a ≠ .claiming .pidStore) :
    s.processInstanceAlive S s.lock.writerPid s.lock.writerStartTime = false := by
  obtain ⟨w, phase, hinv⟩ := h.inv
  rw [hinv.shows.owner]
  cases ho : w.owner with
  | none => simp [State.processInstanceAlive, State.processExists]
  | some o =>
      rw [Setting.word_some]
      cases hq : s.running (S.pid o) with
      | none => simp [State.processInstanceAlive, State.processExists, hq]
      | some q =>
          obtain rfl | ⟨hstored, hactual, hne⟩ | ⟨b, hb, hbs⟩ := hinv.owner_known o q ho hq
          · -- the owner would be alive, and inside
            obtain ⟨b, rfl, hb⟩ := hinv.attended.owner q ho hq
            exact absurd ((hinv.shows.phase b).inside.mpr hb) (h.unowned b hq)
          · simp [State.processInstanceAlive, State.processStartTime, hq, hstored, hactual,
              Ne.symm hne]
          · -- nobody but the claimant can be about to publish
            have hbc : (phase b).Claims := by simp [hbs, Phase.Claims]
            obtain rfl := hinv.exclusive.claim_unique a b hlive hb
              ((hinv.shows.phase a).claims.mp hclaims) hbc
            exact absurd ((hinv.shows.phase a).stamped.mpr hbs) hpc

theorem owner_succeeds (h : s.Unowned S) (hlive : s.Live S a)
    (hpc : s.pc a = .claiming .ownerLoad) : s.CanSucceed S := by
  have hlive1 := live_advance hlive
  by_cases hzero : s.lock.writerPid = 0
  · have hpc1 : (advance S s a).pc a = .claiming .startStore := by
      simp [advance_claiming hpc, claimStep, hzero]
    exact .of_advance hlive (start_succeeds (h.advance hlive (by simp [hpc1, Pc.inside]))
      hlive1 hpc1)
  · have hs1 : advance S s a = s.goto a (.claiming (.startLoad s.lock.writerPid)) := by
      simp [advance_claiming hpc, claimStep, hzero]
    have hpc1 : (advance S s a).pc a = .claiming (.startLoad s.lock.writerPid) := by simp [hs1]
    have h1 := h.advance hlive (by simp [hpc1, Pc.inside])
    have hs2 : advance S (advance S s a) a = (advance S s a).goto a
        (.claiming (.ownerAlive s.lock.writerPid (advance S s a).lock.writerStartTime)) := by
      rw [advance_claiming hpc1]
      rfl
    have hpc2 : (advance S (advance S s a) a).pc a = .claiming (.ownerAlive
        (advance S (advance S s a) a).lock.writerPid
        (advance S (advance S s a) a).lock.writerStartTime) := by
      rw [hs2, hs1]
      simp
    have h2 := h1.advance hlive1 (by simp [hpc2, Pc.inside])
    have hlive2 := live_advance hlive1
    have hdead := owner_dead h2 hlive2 (by simp [hpc2, Pc.claims]) (by simp [hpc2])
    have hpc3 : (advance S (advance S (advance S s a) a) a).pc a = .claiming .startStore := by
      rw [advance_claiming hpc2]
      simp [claimStep, hdead]
    exact .of_advance hlive (.of_advance hlive1 (.of_advance hlive2 (start_succeeds
      (h2.advance hlive2 (by simp [hpc3, Pc.inside])) (live_advance hlive2) hpc3)))

/-- With the claim word free, a thread about to set it succeeds. -/
theorem set_succeeds (h : s.Unowned S) (hlive : s.Live S a) (hfree : s.lock.writerClaim = 0)
    {k : ℕ} (hpc : s.pc a = .claiming (.claimSet k)) : s.CanSucceed S := by
  have hpc1 : (advance S s a).pc a = .claiming .ownerLoad := by
    simp [advance_claiming hpc, claimStep, hfree]
  exact .of_advance hlive (owner_succeeds (h.advance hlive (by simp [hpc1, Pc.inside]))
    (live_advance hlive) hpc1)

omit [DecidableEq A] [DecidableEq P] in
/-- Without a live claimant, the id in the claim word names no process. -/
theorem claimant_dead (h : s.Unowned S) (hclaims : ∀ b, s.Live S b → ¬ (s.pc b).claims) :
    s.processExists s.lock.writerClaim = false := by
  obtain ⟨w, phase, hinv⟩ := h.inv
  rw [hinv.shows.claim]
  cases hc : w.claim with
  | none => rfl
  | some c =>
      rw [Setting.word_some, Bool.eq_false_iff]
      intro hexists
      obtain ⟨q, hq⟩ := (exists_iff_running (S.pid_ne_zero c)).mp hexists
      obtain rfl := hinv.claim_known c q hc hq
      obtain ⟨b, rfl, hb⟩ := hinv.attended.claim q hc hq
      exact hclaims b hq ((hinv.shows.phase b).claims.mpr hb)

/-- A state in which nobody alive holds the claim either. -/
structure State.Unclaimed (S : Setting A P) (s : State A P) : Prop extends s.Unowned S where
  unclaimed : ∀ b, s.Live S b → ¬ (s.pc b).claims

theorem State.Unclaimed.advance (h : s.Unclaimed S) (hlive : s.Live S a)
    (hout : ¬ ((WriterLock.advance S s a).pc a).inside)
    (hclaims : ¬ ((WriterLock.advance S s a).pc a).claims) :
    (WriterLock.advance S s a).Unclaimed S where
  toUnowned := h.toUnowned.advance hlive hout
  unclaimed b hb := by
    have hframe := framed_advance (S := S) s a
    by_cases hba : b = a
    · subst hba; exact hclaims
    · rw [hframe.pc b hba]
      exact h.unclaimed b ((hframe.live b).mp hb)

/-- With the claim word free, a thread at the start of a round succeeds. -/
theorem free_load_succeeds (h : s.Unclaimed S) (hlive : s.Live S a)
    (hfree : s.lock.writerClaim = 0) {k : ℕ} (hk : k ≠ 64)
    (hpc : s.pc a = .claiming (.claimLoad k)) : s.CanSucceed S := by
  have hs1 : advance S s a = s.goto a (.claiming (.claimSet k)) := by
    simp [advance_claiming hpc, claimStep, hfree, hk]
  have hpc1 : (advance S s a).pc a = .claiming (.claimSet k) := by simp [hs1]
  exact .of_advance hlive (set_succeeds (h.advance hlive (by simp [hpc1, Pc.inside])
    (by simp [hpc1, Pc.claims])).toUnowned (live_advance hlive) (by simpa [hs1] using hfree) hpc1)

theorem acquire_step (hlive : s.Live S a) (hpc : s.pc a = .idle) :
    step S s (.acquire a) = some (s.goto a (.claiming (.claimLoad 0))) := by
  simp [step, hlive, hpc]

/-- A call that starts leaves the lock as it is. -/
theorem State.Unclaimed.acquire (h : s.Unclaimed S) (hlive : s.Live S a) (hpc : s.pc a = .idle) :
    (s.goto a (.claiming (.claimLoad 0))).Unclaimed S where
  inv := by
    obtain ⟨w, phase, hinv⟩ := h.inv
    have hphase := hinv.shows.phase a
    rw [hpc] at hphase
    exact ⟨w, phase, hinv.goto hlive hphase rfl trivial⟩
  unowned b hb := by
    by_cases hba : b = a
    · subst hba; simp [Pc.inside]
    · simpa [hba] using h.unowned b hb
  unclaimed b hb := by
    by_cases hba : b = a
    · subst hba; simp [Pc.claims]
    · simpa [hba] using h.unclaimed b hb

theorem free_idle_succeeds (h : s.Unclaimed S) (hlive : s.Live S a)
    (hfree : s.lock.writerClaim = 0) (hpc : s.pc a = .idle) : s.CanSucceed S :=
  .of_call rfl (acquire_step hlive hpc) (free_load_succeeds (k := 0) (h.acquire hlive hpc) hlive
    (by simpa using hfree) (by simp) (by simp))

/-- A thread about to clear a dead claim clears it and succeeds in a later round. -/
theorem clear_claim_succeeds (h : s.Unclaimed S) (hlive : s.Live S a) {k : ℕ}
    (hpc : s.pc a = .claiming (.claimClear k s.lock.writerClaim)) : s.CanSucceed S := by
  have hs1 : advance S s a = { s.goto a (.claiming (.claimLoad (k + 1))) with
      lock := { s.lock with writerClaim := 0 } } := by
    simp [advance_claiming hpc, claimStep]
  have hpc1 : (advance S s a).pc a = .claiming (.claimLoad (k + 1)) := by simp [hs1]
  have hfree1 : (advance S s a).lock.writerClaim = 0 := by simp [hs1]
  have hlive1 := live_advance hlive
  have h1 := h.advance hlive (by simp [hpc1, Pc.inside]) (by simp [hpc1, Pc.claims])
  refine .of_advance hlive ?_
  by_cases hk : k + 1 = 64
  · -- the call gives up, and the next one finds the word free
    have hs2 : advance S (advance S s a) a = (advance S s a).goto a .idle := by
      simp [advance_claiming hpc1, claimStep, hk]
    have hpc2 : (advance S (advance S s a) a).pc a = .idle := by simp [hs2]
    exact .of_advance hlive1 (free_idle_succeeds
      (h1.advance hlive1 (by simp [hpc2, Pc.inside]) (by simp [hpc2, Pc.claims]))
      (live_advance hlive1) (by simpa [hs2] using hfree1) hpc2)
  · exact free_load_succeeds h1 hlive1 hfree1 hk hpc1

/-- A thread at the start of a round succeeds. -/
theorem load_claim_succeeds (h : s.Unclaimed S) (hlive : s.Live S a) {k : ℕ} (hk : k ≠ 64)
    (hpc : s.pc a = .claiming (.claimLoad k)) : s.CanSucceed S := by
  by_cases hfree : s.lock.writerClaim = 0
  · exact free_load_succeeds h hlive hfree hk hpc
  · have hdead := claimant_dead h.toUnowned h.unclaimed
    have hs1 : advance S s a = s.goto a (.claiming (.claimantExists k s.lock.writerClaim)) := by
      simp [advance_claiming hpc, claimStep, hfree, hk]
    have hpc1 : (advance S s a).pc a = .claiming (.claimantExists k s.lock.writerClaim) := by
      simp [hs1]
    have hlive1 := live_advance hlive
    have h1 := h.advance hlive (by simp [hpc1, Pc.inside]) (by simp [hpc1, Pc.claims])
    have hdead1 : (advance S s a).processExists s.lock.writerClaim = false := by
      rw [hs1]
      exact hdead
    have hs2 : advance S (advance S s a) a =
        (advance S s a).goto a (.claiming (.claimClear k s.lock.writerClaim)) := by
      rw [advance_claiming hpc1]
      simp [claimStep, hdead1]
    have hpc2 : (advance S (advance S s a) a).pc a =
        .claiming (.claimClear k (advance S (advance S s a) a).lock.writerClaim) := by
      rw [hs2, hs1]
      simp
    exact .of_advance hlive (.of_advance hlive1 (clear_claim_succeeds
      (h1.advance hlive1 (by simp [hpc2, Pc.inside]) (by simp [hpc2, Pc.claims]))
      (live_advance hlive1) hpc2))

theorem idle_succeeds (h : s.Unclaimed S) (hlive : s.Live S a) (hpc : s.pc a = .idle) :
    s.CanSucceed S :=
  .of_call rfl (acquire_step hlive hpc)
    (load_claim_succeeds (k := 0) (h.acquire hlive hpc) hlive (by simp) (by simp))

/-- A step that takes a thread out of the claim loop, or around it. -/
theorem loop_succeeds (h : s.Unclaimed S) (hlive : s.Live S a)
    (hnext : (advance S s a).pc a = .idle ∨
      ∃ k ≠ 64, (advance S s a).pc a = .claiming (.claimLoad k)) : s.CanSucceed S := by
  refine .of_advance hlive ?_
  obtain hidle | ⟨k, hk, hload⟩ := hnext
  · exact idle_succeeds (h.advance hlive (by simp [hidle, Pc.inside])
      (by simp [hidle, Pc.claims])) (live_advance hlive) hidle
  · exact load_claim_succeeds (h.advance hlive (by simp [hload, Pc.inside])
      (by simp [hload, Pc.claims])) (live_advance hlive) hk hload

theorem any_load_succeeds (h : s.Unclaimed S) (hlive : s.Live S a) {k : ℕ}
    (hpc : s.pc a = .claiming (.claimLoad k)) : s.CanSucceed S := by
  by_cases hk : k = 64
  · refine loop_succeeds h hlive (.inl ?_)
    simp [advance_claiming hpc, claimStep, hk]
  · exact load_claim_succeeds h hlive hk hpc

/-- A step from the claim loop to the start of a round. -/
theorem round_succeeds (h : s.Unclaimed S) (hlive : s.Live S a)
    {k : ℕ} (hnext : (advance S s a).pc a = .claiming (.claimLoad k)) : s.CanSucceed S :=
  .of_advance hlive (any_load_succeeds (h.advance hlive (by simp [hnext, Pc.inside])
    (by simp [hnext, Pc.claims])) (live_advance hlive) hnext)

theorem any_clear_succeeds (h : s.Unclaimed S) (hlive : s.Live S a) {k : ℕ} {c : UInt32}
    (hpc : s.pc a = .claiming (.claimClear k c)) : s.CanSucceed S := by
  by_cases hword : s.lock.writerClaim = c
  · exact clear_claim_succeeds h hlive (hword ▸ hpc)
  · exact round_succeeds (k := k + 1) h hlive (by simp [advance_claiming hpc, claimStep, hword])

/-- Whatever a live thread outside the guarded section is doing, with no live claimant. -/
theorem unclaimed_succeeds (h : s.Unclaimed S) (hlive : s.Live S a) : s.CanSucceed S := by
  cases hpc : s.pc a with
  | idle => exact idle_succeeds h hlive hpc
  | owning p => exact absurd (by simp [hpc, Pc.inside]) (h.unowned a hlive)
  | claiming p =>
      have hclaims := h.unclaimed a hlive
      rw [hpc] at hclaims
      cases p with
      | claimLoad k => exact any_load_succeeds h hlive hpc
      | claimClear k c => exact any_clear_succeeds h hlive hpc
      | claimSet k =>
          by_cases hfree : s.lock.writerClaim = 0
          · exact set_succeeds h.toUnowned hlive hfree hpc
          · exact round_succeeds (k := k + 1) h hlive
              (by simp [advance_claiming hpc, claimStep, hfree])
      | claimantExists k c =>
          cases hexists : s.processExists c with
          | true =>
              exact loop_succeeds h hlive
                (.inl (by simp [advance_claiming hpc, claimStep, hexists]))
          | false =>
              have hpc1 : (advance S s a).pc a = .claiming (.claimClear k c) := by
                simp [advance_claiming hpc, claimStep, hexists]
              exact .of_advance hlive (any_clear_succeeds (h.advance hlive
                (by simp [hpc1, Pc.inside]) (by simp [hpc1, Pc.claims])) (live_advance hlive) hpc1)
      | _ => exact absurd (by simp [Pc.claims]) hclaims

/-- A claimant that gives up leaves the claim to the next call. -/
theorem drop_succeeds (h : s.Unowned S) (hlive : s.Live S a)
    (hpc : s.pc a = .claiming .claimDrop) : s.CanSucceed S := by
  have hpc1 : (advance S s a).pc a = .idle := by simp [advance_claiming hpc, claimStep]
  refine .of_advance hlive (idle_succeeds ⟨h.advance hlive (by simp [hpc1, Pc.inside]), ?_⟩
    (live_advance hlive) hpc1)
  intro b hb hclaims
  have hframe := framed_advance (S := S) s a
  by_cases hba : b = a
  · subst hba
    simp [hpc1, Pc.claims] at hclaims
  · rw [hframe.pc b hba] at hclaims
    obtain ⟨w, phase, hinv⟩ := h.inv
    exact hba (hinv.exclusive.claim_unique b a ((hframe.live b).mp hb) hlive
      ((hinv.shows.phase b).claims.mp hclaims)
      ((hinv.shows.phase a).claims.mp (by simp [hpc, Pc.claims])))

theorem judge_succeeds (h : s.Unowned S) (hlive : s.Live S a) {owner : UInt32} {start : UInt64}
    (hpc : s.pc a = .claiming (.ownerAlive owner start)) : s.CanSucceed S := by
  refine .of_advance hlive ?_
  cases halive : s.processInstanceAlive S owner start with
  | true =>
      have hpc1 : (advance S s a).pc a = .claiming .claimDrop := by
        simp [advance_claiming hpc, claimStep, halive]
      exact drop_succeeds (h.advance hlive (by simp [hpc1, Pc.inside])) (live_advance hlive)
        hpc1
  | false =>
      have hpc1 : (advance S s a).pc a = .claiming .startStore := by
        simp [advance_claiming hpc, claimStep, halive]
      exact start_succeeds (h.advance hlive (by simp [hpc1, Pc.inside])) (live_advance hlive)
        hpc1

/-- A live claimant drives its own call, or the next one, to success. -/
theorem claimed_succeeds (h : s.Unowned S) (hlive : s.Live S a) (hclaims : (s.pc a).claims) :
    s.CanSucceed S := by
  cases hpc : s.pc a with
  | idle => simp [hpc, Pc.claims] at hclaims
  | owning p => exact absurd (by simp [hpc, Pc.inside]) (h.unowned a hlive)
  | claiming p =>
      cases p with
      | ownerLoad => exact owner_succeeds h hlive hpc
      | startLoad owner =>
          have hpc1 : (advance S s a).pc a =
              .claiming (.ownerAlive owner s.lock.writerStartTime) := by
            simp [advance_claiming hpc, claimStep]
          exact .of_advance hlive (judge_succeeds (h.advance hlive
            (by simp [hpc1, Pc.inside]))
            (live_advance hlive) hpc1)
      | ownerAlive owner start => exact judge_succeeds h hlive hpc
      | claimDrop => exact drop_succeeds h hlive hpc
      | startStore => exact start_succeeds h hlive hpc
      | pidStore => exact pid_succeeds h hlive hpc
      | _ => simp [hpc, Pc.claims] at hclaims

end Claiming

/-- The invariant gives all that the lock promises. -/
theorem State.Inv.safe (h : s.Inv S w phase) : s.Safe S where
  exclusive a b ha hb hia hib := h.exclusive.owner_unique a b ha hb
    ((h.shows.phase a).inside.mp hia) ((h.shows.phase b).inside.mp hib)
  claim_kept a ha hc := by
    rw [h.shows.claim, h.exclusive.claim_word a ha ((h.shows.phase a).claims.mp hc)]
    rfl
  owner_kept a ha hi := by
    rw [h.shows.owner, h.exclusive.owner_word a ha ((h.shows.phase a).inside.mp hi)]
    rfl
  acquirable hunowned := by
    rintro ⟨a, ha⟩
    have hs : s.Unowned S := ⟨⟨w, phase, h⟩, hunowned⟩
    by_cases hclaimant : ∃ b, s.Live S b ∧ (s.pc b).claims
    · obtain ⟨b, hb, hclaims⟩ := hclaimant
      exact claimed_succeeds hs hb hclaims
    · exact unclaimed_succeeds ⟨hs, fun b hb hclaims => hclaimant ⟨b, hb, hclaims⟩⟩ ha

/-- The claim word holds `c`, which names a running process, and no live thread is past the
claim. -/
structure State.Wedged (S : Setting A P) (s : State A P) (c : UInt32) : Prop where
  claim : s.lock.writerClaim = c
  running : c ≠ 0 ∧ s.processExists c = true
  waiting : ∀ a, s.Live S a → s.pc a = .idle ∨ (∃ k, s.pc a = .claiming (.claimLoad k)) ∨
    ∃ k, s.pc a = .claiming (.claimantExists k c)

omit [DecidableEq A] [DecidableEq P] in
theorem State.Wedged.not_held {c : UInt32} (h : s.Wedged S c) (hlive : s.Live S a) :
    s.pc a ≠ .held := by
  obtain hpc | ⟨k, hpc⟩ | ⟨k, hpc⟩ := h.waiting a hlive <;> simp [hpc, Pc.held]

omit [DecidableEq P] in
theorem State.Wedged.goto {c : UInt32} (h : s.Wedged S c) {p : Pc}
    (hp : p = .idle ∨ (∃ k, p = .claiming (.claimLoad k)) ∨
      ∃ k, p = .claiming (.claimantExists k c)) : (s.goto a p).Wedged S c where
  claim := h.claim
  running := h.running
  waiting b hlive := by
    by_cases hb : b = a
    · subst hb; simpa using hp
    · simpa [hb] using h.waiting b hlive

/-- A call finds the claimant running and gives up. -/
theorem State.Wedged.call {c : UInt32} {act : Action A P} (h : s.Wedged S c) (hcall : act.call)
    (hs : step S s act = some t) : t.Wedged S c := by
  obtain ⟨a, p, hlive, rfl, ⟨rfl, -, rfl⟩ | ⟨hpc, -⟩⟩ | ⟨a, rfl, hlive, rfl⟩ | ⟨p, rfl, -⟩ |
    ⟨p, rfl, -⟩ := step_cases hs
  · exact h.goto (.inr (.inl ⟨0, rfl⟩))
  · exact absurd hpc (h.not_held hlive)
  · obtain hpc | ⟨k, hpc⟩ | ⟨k, hpc⟩ := h.waiting a hlive
    · rwa [advance, hpc]
    · have hne : s.lock.writerClaim ≠ 0 := h.claim ▸ h.running.1
      rw [advance_claiming hpc, claimStep, if_neg hne, h.claim]
      split_ifs
      · exact h.goto (.inl rfl)
      · exact h.goto (.inr (.inr ⟨k, rfl⟩))
    · rw [advance_claiming hpc, claimStep, if_pos h.running.2]
      exact h.goto (.inl rfl)
  · cases hcall
  · cases hcall

/-- No sequence of calls takes the lock. -/
theorem wedged_run {c : UInt32} {acts : List (Action A P)} (h : s.Wedged S c)
    (hcalls : ∀ act ∈ acts, act.call) (hrun : exec (step S) s acts = some t) : t.Wedged S c := by
  induction acts generalizing s with
  | nil =>
      obtain rfl : s = t := by simpa using hrun
      exact h
  | cons act rest ih =>
      obtain ⟨u, hu, hrest⟩ := Option.bind_eq_some_iff.mp hrun
      exact ih (h.call (hcalls act (by simp)) hu) (fun b hb => hcalls b (by simp [hb])) hrest

variable (S)

/-- In every run whose steps take no process for another one, at most one live thread is inside
the guarded section, no live thread's claim or ownership is taken away, and without a live
owner the lock can be acquired. -/
theorem writer_lock_safe {acts : List (Action A P)} {s : State A P}
    (hok : Meets (step S) (Distinct S) .initial acts)
    (hrun : exec (step S) .initial acts = some s) : s.Safe S := by
  have hstep (s : State A P) (act : Action A P) (t : State A P)
      (h : ∃ w phase, s.Inv S w phase) (hok : Distinct S s act) (hs : step S s act = some t) :
      ∃ w phase, t.Inv S w phase := by
    obtain ⟨w, phase, h⟩ := h
    exact h.step hok hs
  obtain ⟨w, phase, h⟩ := exec_invariant hstep ⟨_, _, initial_inv⟩ hok hrun
  exact h.safe

/-- Process 2 gets the id of process 0, with another start time. -/
def threads : Setting (Fin 4) (Fin 4) where
  numBuckets := 1
  fits := one_bucket_fits
  proc := id
  pid p := if p = 1 then 8 else if p = 3 then 9 else 7
  pid_ne_zero := by decide
  startTime p := .ofNat (p + 1)

/-- Thread `a` takes `n` steps. -/
def steps (a : Fin 4) (n : ℕ) : List (Action (Fin 4) (Fin 4)) := List.replicate n (.step a)

/-- A claimant dies, thread 1 clears its claim and takes the lock, and the id goes to process 2.
Then the owner dies, and thread 2 takes the lock over. -/
def takeover : List (Action (Fin 4) (Fin 4)) :=
  [Action.start 0, .start 1, .acquire 0] ++ steps 0 2 ++ [Action.die 0, .acquire 1] ++
    steps 1 10 ++ [Action.start 2, .die 1, .acquire 2] ++ steps 2 9

theorem takeover_safe : ∃ s, exec (step threads) .initial takeover = some s ∧ s.pc 2 = .held ∧
    s.Safe threads :=
  ⟨_, rfl, by decide, writer_lock_safe threads
    (by decide : Meets (step threads) (Distinct threads) .initial takeover) rfl⟩

/-- A claimant dies and thread 1 finds it dead. Before thread 1 clears the claim, another thread
clears it and a process that has got the id claims. -/
def staleClear : List (Action (Fin 4) (Fin 4)) :=
  [Action.start 0, .start 1, .start 3, .acquire 0] ++ steps 0 2 ++
    [Action.die 0, .acquire 1] ++ steps 1 2 ++ [Action.acquire 3] ++ steps 3 3 ++
      [Action.start 2, .acquire 2] ++ steps 2 3 ++
    -- the compare-and-swap of thread 1 clears the claim of thread 2
    steps 1 6 ++ steps 2 2

/-- A claimant dies, and its id goes to a process that never claims. -/
def reusedClaimant : List (Action (Fin 4) (Fin 4)) :=
  [Action.start 0, .start 1, .acquire 0] ++ steps 0 2 ++ [Action.die 0, .start 2]

/-- Two threads inside at once, and a lock that no call can take while a process lives that has
nothing to do with it. -/
theorem unsafe_runs :
    (∃ s, exec (step threads) .initial staleClear = some s ∧ ¬ s.Safe threads) ∧
    ∃ s, exec (step threads) .initial reusedClaimant = some s ∧ ¬ s.Safe threads := by
  refine ⟨⟨_, rfl, fun h => ?_⟩, ⟨_, rfl, fun h => ?_⟩⟩
  · exact absurd (h.exclusive 1 2 (by decide) (by decide) (by decide)
      (by decide)) (by decide)
  · obtain ⟨acts, t, b, hcalls, hrun, hlive, hheld⟩ :=
      h.acquirable (by decide) ⟨1, by decide⟩
    refine (wedged_run (c := 7) ?_ hcalls hrun).not_held hlive hheld
    refine ⟨by decide, by decide, fun b hb => .inl ?_⟩
    -- the threads of the running processes have not called anything
    revert b
    decide

end Probing.Memh.WriterLock
