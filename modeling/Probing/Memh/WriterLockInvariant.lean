import Probing.Memh.SlotRecovery
import Probing.Memh.WriterLockState

/-!
# The invariant of the writer lock

What holds between any two steps of a run that takes no process for another one.
-/

namespace Probing.Memh

/-- The journal names a slot of the table. -/
def Store.Named (G : Geometry) (st : Store) : Prop :=
  ∃ idx < G.numBuckets, st.journalSlotOff.toNat = slotOffset idx

/-- What an owner knows of the slot the journal names, or will name. -/
def TxPc.Journalled (G : Geometry) (st : Store) : TxPc → Prop
  | journalOff | beginValid _ _ => st.Named G
  | refused => False
  | beginLoad idx _ _ | beginSave idx _ _ _ | beginOff idx _ => idx < G.numBuckets
  | _ => True

theorem Store.Named.bound {G : Geometry} {st : Store} (h : st.Named G) :
    ¬ (st.journalSlotOff.toNat < computeDataOffset ∨
      G.slotsEnd < st.journalSlotOff.toNat + sizeOfSlot ∨
      st.journalSlotOff.toNat % 8 ≠ 0) := by
  obtain ⟨idx, hidx, hoff⟩ := h
  simp only [hoff, slotOffset, slotOff, Geometry.slotsEnd, arenaStartAbs, sizeOfSlot,
    computeDataOffset, align64, metaOffset]
  omega

/-- A step of an owner leaves a named slot named, and its own knowledge true. -/
theorem transact_journalled {G : Geometry} {st : Store} {p : TxPc}
    (hst : st.journalState ≠ 0 → st.Named G) (hp : p.Journalled G st) :
    ((transact G st p).1.journalState ≠ 0 → (transact G st p).1.Named G) ∧
      (transact G st p).2.Journalled G (transact G st p).1 ∧
      (st.Named G → (transact G st p).1.Named G) := by
  cases p with
  | journalState =>
      refine ⟨hst, ?_, id⟩
      simp only [transact]
      split_ifs with hzero
      · trivial
      · exact hst hzero
  | journalOff =>
      refine ⟨hst, ?_, id⟩
      simp only [transact, if_neg (Store.Named.bound hp)]
      trivial
  | journalGen off =>
      refine ⟨hst, ?_, id⟩
      simp only [transact]
      split_ifs <;> trivial
  | journalLoad off w => exact ⟨hst, trivial, id⟩
  | journalStore off w v =>
      refine ⟨hst, ?_, id⟩
      simp only [transact]
      cases nextWord w <;> trivial
  | journalClear => exact ⟨fun h => absurd rfl h, trivial, id⟩
  | refused => exact hp.elim
  | held => exact ⟨hst, trivial, id⟩
  | beginLoad idx u w => exact ⟨hst, hp, id⟩
  | beginSave idx u w v =>
      refine ⟨hst, ?_, id⟩
      simp only [transact]
      cases nextWord w <;> exact hp
  | beginOff idx u =>
      have hnamed : (transact G st (.beginOff idx u)).1.Named G :=
        ⟨idx, hp, slotOffset_toNat hp⟩
      exact ⟨fun _ => hnamed, hnamed, fun _ => hnamed⟩
  | beginValid idx u => exact ⟨fun _ => hp, trivial, id⟩
  | beginControl idx u => exact ⟨hst, trivial, id⟩
  | beginOdd idx u headOff generation => exact ⟨hst, trivial, id⟩
  | body idx headOff odd ops =>
      cases ops with
      | nil => exact ⟨hst, trivial, id⟩
      | cons op rest => cases op <;> exact ⟨hst, trivial, id⟩
  | finishClear idx => exact ⟨fun h => absurd rfl h, trivial, id⟩

namespace WriterLock

open Probing.Core.ClaimLock (Words Phase Move Exclusive Attended)

variable {A P : Type*} [DecidableEq A] [DecidableEq P] {S : Setting A P} {s t : State A P} {a : A}
variable {w w' : Words P UInt64} {phase : A → Phase P UInt64} {ph : Phase P UInt64}

/-- What a thread knows of the journal. -/
def Pc.Journalled (G : Geometry) (st : Store) : Pc → Prop
  | owning (.tx p) => p.Journalled G st
  | _ => True

/-- Every thread's knowledge of the journal is true. -/
structure State.Journalled (S : Setting A P) (s : State A P) : Prop where
  named : s.store.journalState ≠ 0 → s.store.Named S.toGeometry
  known : ∀ a, (s.pc a).Journalled S.toGeometry s.store

theorem Pc.Journalled.mono {G : Geometry} {st st' : Store} {p : Pc}
    (hnamed : st.Named G → st'.Named G) (h : p.Journalled G st) : p.Journalled G st' := by
  cases p with
  | owning p =>
      cases p with
      | tx p => cases p <;> first | exact hnamed h | exact h
      | _ => trivial
  | _ => trivial

omit [DecidableEq P] in
theorem State.Journalled.moved (h : s.Journalled S) (hframe : Framed s t a)
    (hstore : t.store = s.store) (hp : (t.pc a).Journalled S.toGeometry s.store) :
    t.Journalled S where
  named := by rw [hstore]; exact h.named
  known b := by
    rw [hstore]
    by_cases hb : b = a
    · subst hb; exact hp
    · rw [hframe.pc b hb]; exact h.known b

omit [DecidableEq P] in
theorem State.Journalled.advance (h : s.Journalled S) : (advance S s a).Journalled S := by
  have hframe := framed_advance (S := S) s a
  have hself := h.known a
  revert hframe
  unfold WriterLock.advance
  split
  · exact fun _ => h
  case h_2 p _ =>
    intro hframe
    apply h.moved hframe <;> cases p <;> simp only [claimStep] <;> (try split_ifs) <;>
      simp [Pc.Journalled]
  case h_3 p hpc =>
    intro hframe
    rw [hpc] at hself
    cases p with
    | tx p =>
        obtain ⟨hnamed, hknown, hmono⟩ := transact_journalled h.named hself
        refine ⟨hnamed, fun b => ?_⟩
        by_cases hb : b = a
        · subst hb
          simp only [ownerStep, State.gotoPc, Function.update_self]
          cases hnext : (transact S.toGeometry s.store p).2 with
          | refused => rw [hnext] at hknown; exact hknown.elim
          | _ => rw [hnext] at hknown; exact hknown
        · simpa [ownerStep, hb] using (h.known b).mono hmono
    | _ => exact h.moved hframe rfl (by simp [ownerStep, Pc.Journalled, TxPc.Journalled])

/-- The invariant, over the processes behind the lock words. -/
structure State.Inv (S : Setting A P) (s : State A P) (w : Words P UInt64)
    (phase : A → Phase P UInt64) : Prop where
  shows : s.Shows S w phase
  exclusive : Exclusive S.proc S.born (s.Runs S) w phase
  attended : Attended S.proc (s.Runs S) w phase
  pids : ∀ n p, s.running n = some p → S.pid p = n ∧ s.started p = true
  unborn : ∀ a, s.started (S.proc a) = false → s.pc a = .idle
  /-- What a live thread is about to clear names no process. -/
  clearing_dead : ∀ a, s.Live S a → ∀ c, (s.pc a).clearing = some c → s.processExists c = false
  owner_started : ∀ o, w.owner = some o → s.started o = true
  /-- The id of a claim names no process but the claimant. -/
  claim_known : ∀ c q, w.claim = some c → s.running (S.pid c) = some q → q = c
  /-- The id of the owner names no process but the owner, or one the start time tells apart, or
  a new owner is about to store its own id. -/
  owner_known : ∀ o q, w.owner = some o → s.running (S.pid o) = some q →
    q = o ∨ TellsApart s.lock.writerStartTime (S.startTime q) ∨
      ∃ a, s.Live S a ∧ phase a = .stamped
  journalled : s.Journalled S

omit [DecidableEq A] [DecidableEq P] in
theorem initial_inv : (State.initial : State A P).Inv S ⟨none, none, none⟩ fun _ => .out where
  shows := ⟨rfl, rfl, rfl, fun _ => rfl⟩
  exclusive := Exclusive.initial
  attended := ⟨fun _ h => (nomatch h), fun _ h => (nomatch h)⟩
  pids _ _ h := (nomatch h)
  unborn _ _ := rfl
  clearing_dead _ h := (nomatch h)
  owner_started _ h := (nomatch h)
  claim_known _ _ h := (nomatch h)
  owner_known _ _ h := (nomatch h)
  journalled := ⟨fun h => absurd rfl h, fun _ => trivial⟩

theorem Acts.exclusive (h : Acts S s a w (phase a) w' ph) (hlive : s.Live S a)
    (he : Exclusive S.proc S.born (s.Runs S) w phase) :
    Exclusive S.proc S.born (s.Runs S) w' (Function.update phase a ph) := by
  obtain hmove | ⟨hout, rfl, rfl, hdead⟩ := h
  · exact he.move hlive hmove
  · rw [← hout, Function.update_eq_self]
    exact he.reclaim hlive hout hdead

theorem Acts.attended (h : Acts S s a w (phase a) w' ph) (hlive : s.Live S a)
    (he : Exclusive S.proc S.born (s.Runs S) w phase)
    (ha : Attended S.proc (s.Runs S) w phase) :
    Attended S.proc (s.Runs S) w' (Function.update phase a ph) := by
  obtain hmove | ⟨hout, rfl, rfl, hdead⟩ := h
  · exact ha.move he hlive hmove
  · rw [← hout, Function.update_eq_self]
    exact ⟨fun _ hc => (nomatch hc), ha.owner⟩

omit [DecidableEq A] in
/-- The claim word an access leaves was there, or is the thread's own. -/
theorem Acts.claim {p : Phase P UInt64} (h : Acts S s a w p w' ph) {c : P}
    (hc : w'.claim = some c) : c = S.proc a ∨ w.claim = some c := by
  obtain hmove | ⟨-, -, rfl, -⟩ := h
  · cases hmove <;> simp_all
  · exact (nomatch hc)

omit [DecidableEq A] in
/-- The owner word an access leaves is the thread's own, or it was there and the start time did
not change, unless the thread has just stored its own or gives the lock back. -/
theorem Acts.owner {p : Phase P UInt64} (h : Acts S s a w p w' ph) {o : P}
    (ho : w'.owner = some o) : o = S.proc a ∨ (w.owner = some o ∧
      (ph = .stamped ∨ (p ≠ .stamped ∧ (w'.stamp = w.stamp ∨ p = .owning)))) := by
  obtain hmove | ⟨rfl, -, rfl, -⟩ := h
  · cases hmove <;> simp_all
    -- a thread that stays may be about to publish
    exact .inr (em _)
  · exact .inr ⟨ho, .inr ⟨by simp, .inl rfl⟩⟩

/-- An access of a thread keeps the invariant. -/
theorem State.Inv.follows (h : s.Inv S w phase) (hlive : s.Live S a) (hframe : Framed s t a)
    (hacts : Acts S s a w (phase a) w' ph) (hshows : t.Shows S w' (Function.update phase a ph))
    (hclearing : ∀ c, (t.pc a).clearing = some c → s.processExists c = false)
    (hjournal : t.Journalled S) : t.Inv S w' (Function.update phase a ph) := by
  have hruns : t.Runs S = s.Runs S := by
    funext p
    rw [State.Runs, State.Runs, hframe.running]
  have hmine : ∀ q, s.running (S.pid (S.proc a)) = some q → q = S.proc a := fun q hq =>
    Option.some.inj (hq.symm.trans hlive)
  constructor
  · exact hshows
  · rw [hruns]
    exact hacts.exclusive hlive h.exclusive
  · rw [hruns]
    exact hacts.attended hlive h.exclusive h.attended
  · rw [hframe.running, hframe.started]
    exact h.pids
  · intro b hb
    rw [hframe.started] at hb
    have hne : b ≠ a := by
      rintro rfl
      exact absurd (h.pids _ _ hlive).2 (by simp [hb])
    rw [hframe.pc b hne]
    exact h.unborn b hb
  · intro b hb c hc
    rw [State.processExists, hframe.running]
    by_cases hba : b = a
    · subst hba
      exact hclearing c hc
    · rw [hframe.pc b hba] at hc
      exact h.clearing_dead b ((hframe.live b).mp hb) c hc
  · intro o ho
    rw [hframe.started]
    obtain rfl | ⟨hold, -⟩ := hacts.owner ho
    · exact (h.pids _ _ hlive).2
    · exact h.owner_started o hold
  · intro c q hc hq
    rw [hframe.running] at hq
    obtain rfl | hold := hacts.claim hc
    · exact hmine q hq
    · exact h.claim_known c q hold hq
  · intro o q ho hq
    rw [hframe.running] at hq
    obtain rfl | ⟨hold, hstamped | ⟨hphase, hstamp | howning⟩⟩ := hacts.owner ho
    · exact .inl (hmine q hq)
    · exact .inr (.inr ⟨a, (hframe.live a).mpr hlive, by simpa using hstamped⟩)
    · obtain heq | happart | ⟨b, hb, hbs⟩ := h.owner_known o q hold hq
      · exact .inl heq
      · refine .inr (.inl ?_)
        have hsame : t.lock.writerStartTime = s.lock.writerStartTime := by
          rw [← nonzero_inj, ← hshows.stamp, hstamp, h.shows.stamp]
        rwa [hsame]
      · have hne : b ≠ a := by
          rintro rfl
          exact hphase hbs
        exact .inr (.inr ⟨b, (hframe.live b).mpr hb, by simpa [hne] using hbs⟩)
    · -- the thread gives the lock back, so the word is its own
      have hown := h.exclusive.owner_word a hlive (by simp [howning, Phase.Owns])
      obtain rfl : o = S.proc a := Option.some.inj (hold.symm.trans hown)
      exact .inl (hmine q hq)
  · exact hjournal

theorem State.Inv.advance (h : s.Inv S w phase) (hlive : s.Live S a) :
    ∃ w' phase', (WriterLock.advance S s a).Inv S w' phase' := by
  obtain ⟨w', ph, hacts, hshows⟩ := advance_follows h.shows hlive (h.clearing_dead a hlive)
  exact ⟨w', _, h.follows hlive (framed_advance s a) hacts hshows (fun _ => clearing_advance)
    h.journalled.advance⟩

/-- A call that starts takes no access to the lock. -/
theorem State.Inv.goto (h : s.Inv S w phase) (hlive : s.Live S a) {p : Pc}
    (hp : p.Shows S (phase a)) (hclearing : p.clearing = none)
    (hjournal : p.Journalled S.toGeometry s.store) : (s.goto a p).Inv S w phase := by
  have hinv := h.follows hlive (framed_goto s a p) (.inl (.stay w _))
    (h.shows.stays (framed_goto s a p) rfl (by simpa using hp))
    (fun c hc => by simp [hclearing] at hc)
    (h.journalled.moved (framed_goto s a p) rfl (by simpa using hjournal))
  rwa [Function.update_eq_self] at hinv

omit [DecidableEq A] in
/-- A process starts under an id no lock word mistakes for it. -/
theorem State.Inv.start (h : s.Inv S w phase) {p : P} (hfree : s.running (S.pid p) = none)
    (hnew : s.started p = false) (hok : Distinct S s (.start p)) :
    State.Inv S { s with
      running := Function.update s.running (S.pid p) (some p)
      started := Function.update s.started p true } w phase := by
  have hlive : ∀ b, s.Live S b → Function.update s.running (S.pid p) (some p)
      (S.pid (S.proc b)) = some (S.proc b) := by
    intro b hb
    have hne : S.pid (S.proc b) ≠ S.pid p := by
      intro heq
      rw [State.Live, heq, hfree] at hb
      cases hb
    rw [Function.update_of_ne hne]
    exact hb
  constructor
  · exact ⟨h.shows.claim, h.shows.owner, h.shows.stamp, h.shows.phase⟩
  · refine h.exclusive.birth (q := p) (fun r hr => ?_) (fun b hb => ?_)
      fun b c => (h.shows.phase b).not_clearing c
    · simp only [State.Runs, Function.update_apply] at hr
      split_ifs at hr
      · exact .inr (Option.some.inj hr).symm
      · exact .inl hr
    · have hidle := h.unborn b (hb ▸ hnew)
      have := h.shows.phase b
      rwa [hidle] at this
  · constructor
    · intro c hc hr
      refine h.attended.claim c hc ?_
      simp only [State.Runs, Function.update_apply] at hr
      split_ifs at hr with heq
      · exact absurd (h.shows.claim.trans (by rw [hc]; exact heq)) hok.2.1
      · exact hr
    · intro o ho hr
      refine h.attended.owner o ho ?_
      simp only [State.Runs, Function.update_apply] at hr
      split_ifs at hr with heq
      · -- a process that is started has owned nothing yet
        have hstarted := h.owner_started o ho
        rw [← Option.some.inj hr, hnew] at hstarted
        cases hstarted
      · exact hr
  · intro n q hq
    simp only [Function.update_apply] at hq
    split_ifs at hq with hn
    · obtain rfl := Option.some.inj hq
      exact ⟨hn.symm, by simp⟩
    · obtain ⟨hpid, hstarted⟩ := h.pids n q hq
      refine ⟨hpid, ?_⟩
      by_cases hqp : q = p <;> simp [hqp, hstarted]
  · intro b hb
    refine h.unborn b ?_
    simp only [Function.update_apply] at hb
    split_ifs at hb
    exact hb
  · intro b hb c hc
    -- a thread of the new process has not called anything
    have hbp : S.proc b ≠ p := by
      intro heq
      rw [h.unborn b (heq ▸ hnew)] at hc
      cases hc
    have hblive : s.Live S b := by
      have hrun : Function.update s.running (S.pid p) (some p) (S.pid (S.proc b)) =
          some (S.proc b) := hb
      rw [Function.update_apply] at hrun
      split_ifs at hrun
      · exact absurd (Option.some.inj hrun).symm hbp
      · exact hrun
    have hcp : c ≠ S.pid p := fun heq => hok.1 b hblive (heq ▸ hc)
    have hsame : Function.update s.running (S.pid p) (some p) c = s.running c :=
      Function.update_of_ne hcp ..
    simpa only [State.processExists, hsame] using h.clearing_dead b hblive c hc
  · intro o ho
    have hstarted := h.owner_started o ho
    by_cases hop : o = p <;> simp [hop, hstarted]
  · intro c q hc hq
    simp only [Function.update_apply] at hq
    split_ifs at hq with heq
    · exact absurd (h.shows.claim.trans (by rw [hc]; exact heq)) hok.2.1
    · exact h.claim_known c q hc hq
  · intro o q ho hq
    simp only [Function.update_apply] at hq
    split_ifs at hq with heq
    · obtain rfl := Option.some.inj hq
      have hword : s.lock.writerPid = S.pid p := h.shows.owner.trans (by rw [ho]; exact heq)
      obtain happart | ⟨b, hb, hbs⟩ := hok.2.2 hword
      · exact .inr (.inl happart)
      · exact .inr (.inr ⟨b, hlive b hb, (h.shows.phase b).stamped.mp hbs⟩)
    · obtain hsame | happart | ⟨b, hb, hbs⟩ := h.owner_known o q ho hq
      · exact .inl hsame
      · exact .inr (.inl happart)
      · exact .inr (.inr ⟨b, hlive b hb, hbs⟩)
  · exact ⟨h.journalled.named, h.journalled.known⟩

omit [DecidableEq A] [DecidableEq P] in
/-- A process dies; if a thread of it dies between its two stores, the start time it left tells
it from the process that has the id of the last owner. -/
theorem State.Inv.die (h : s.Inv S w phase) {p : P} (hrun : s.running (S.pid p) = some p)
    (hok : Distinct S s (.die p)) :
    State.Inv S { s with running := Function.update s.running (S.pid p) none } w phase := by
  have hold : ∀ n q, Function.update s.running (S.pid p) none n = some q →
      s.running n = some q ∧ n ≠ S.pid p := by
    intro n q hq
    simp only [Function.update_apply] at hq
    split_ifs at hq with hn
    exact ⟨hq, hn⟩
  constructor
  · exact ⟨h.shows.claim, h.shows.owner, h.shows.stamp, h.shows.phase⟩
  · exact h.exclusive.mono fun q hq => (hold _ q hq).1
  · exact h.attended.mono fun q hq => (hold _ q hq).1
  · exact fun n q hq => h.pids n q (hold n q hq).1
  · exact h.unborn
  · intro b hb c hc
    have hexists := h.clearing_dead b (hold _ _ hb).1 c hc
    by_cases hcp : c = S.pid p
    · simp [State.processExists, hcp]
    · simpa only [State.processExists, Function.update_of_ne hcp] using hexists
  · exact h.owner_started
  · exact fun c q hc hq => h.claim_known c q hc (hold _ q hq).1
  · intro o q ho hq
    obtain ⟨hrunq, hne⟩ := hold _ q hq
    obtain hsame | happart | ⟨b, hb, hbs⟩ := h.owner_known o q ho hrunq
    · exact .inl hsame
    · exact .inr (.inl happart)
    · by_cases hbp : S.pid (S.proc b) = S.pid p
      · -- the thread that was about to publish dies with `p`
        obtain rfl : S.proc b = p := Option.some.inj (hb.symm.trans (hbp ▸ hrun))
        have hword : s.lock.writerPid = S.pid o := by rw [h.shows.owner, ho]; rfl
        obtain rfl | happart := hok ⟨b, rfl, (h.shows.phase b).stamped.mpr hbs⟩ q (hword ▸ hrunq)
        · exact absurd (h.pids _ _ hrunq).1.symm hne
        · refine .inr (.inl ?_)
          have hstamp := h.exclusive.stamped_stamp b hb hbs
          rw [h.shows.stamp, Setting.born, nonzero_inj] at hstamp
          rwa [hstamp]
      · refine .inr (.inr ⟨b, ?_, hbs⟩)
        exact (Function.update_of_ne hbp _ _).trans hb
  · exact ⟨h.journalled.named, h.journalled.known⟩

/-- Every step that takes no process for another one keeps the invariant. -/
theorem State.Inv.step {act : Action A P} (h : s.Inv S w phase) (hok : Distinct S s act)
    (hs : step S s act = some t) : ∃ w' phase', t.Inv S w' phase' := by
  obtain ⟨a, p, hlive, rfl, hcall⟩ | ⟨a, rfl, hlive, rfl⟩ | ⟨p, rfl, hfree, hnew, rfl⟩ |
    ⟨p, rfl, hrun, rfl⟩ := step_cases hs
  · have hphase := h.shows.phase a
    obtain ⟨-, hpc, rfl⟩ | ⟨hpc, ⟨idx, u, hidx, -, rfl⟩ | ⟨-, rfl⟩⟩ := hcall <;> rw [hpc] at hphase
    · exact ⟨w, phase, h.goto hlive hphase rfl trivial⟩
    · exact ⟨w, phase, h.goto hlive hphase rfl hidx⟩
    · exact ⟨w, phase, h.goto hlive hphase rfl trivial⟩
  · exact h.advance hlive
  · exact ⟨w, phase, h.start hfree hnew hok⟩
  · exact ⟨w, phase, h.die hrun hok⟩

end WriterLock

end Probing.Memh
