import Probing.Memh.SlotOwnership
import Probing.Memh.WriterLock

/-!
# The words of the writer lock name processes

Behind every id in a lock word stands the process that stored it. Over these processes the
threads make the moves of the claim lock; what a run has to add is that no running process has
the id of another one that a word stands for.
-/

namespace Probing.Memh.WriterLock

open Probing.Core.ClaimLock (Words Phase Move Exclusive Attended)

variable {A P : Type*} [DecidableEq A] [DecidableEq P] {S : Setting A P} {s t : State A P} {a : A}

section Frame

omit [DecidableEq P]

@[simp] theorem State.gotoPc (s : State A P) (a : A) (p : Pc) :
    (s.goto a p).pc = Function.update s.pc a p := rfl
@[simp] theorem State.goto_lock (s : State A P) (a : A) (p : Pc) : (s.goto a p).lock = s.lock := rfl
@[simp] theorem State.goto_store (s : State A P) (a : A) (p : Pc) :
    (s.goto a p).store = s.store := rfl
@[simp] theorem State.goto_running (s : State A P) (a : A) (p : Pc) :
    (s.goto a p).running = s.running := rfl
@[simp] theorem State.goto_started (s : State A P) (a : A) (p : Pc) :
    (s.goto a p).started = s.started := rfl

/-- A step of a thread starts and ends no process and moves no other thread. -/
structure Framed (s t : State A P) (a : A) : Prop where
  running : t.running = s.running
  started : t.started = s.started
  pc : ∀ b, b ≠ a → t.pc b = s.pc b

theorem framed_goto (s : State A P) (a : A) (p : Pc) : Framed s (s.goto a p) a :=
  ⟨rfl, rfl, fun b hb => by simp [hb]⟩

theorem framed_advance (s : State A P) (a : A) : Framed s (advance S s a) a := by
  unfold advance
  split
  · exact ⟨rfl, rfl, fun _ _ => rfl⟩
  case h_2 p _ =>
    constructor <;> cases p <;> simp only [claimStep] <;> (try split_ifs) <;> simp +contextual
  case h_3 p _ => constructor <;> cases p <;> simp +contextual [ownerStep]

omit [DecidableEq A] in
theorem Framed.live (h : Framed s t a) (b : A) : t.Live S b ↔ s.Live S b := by
  rw [State.Live, State.Live, h.running]

end Frame

/-- Everything a step can be. -/
theorem step_cases {act : Action A P} (h : step S s act = some t) :
    (∃ a p, s.Live S a ∧ t = s.goto a p ∧
      ((act = .acquire a ∧ s.pc a = .idle ∧ p = .claiming (.claimLoad 0)) ∨
        (s.pc a = .held ∧ ((∃ idx u, idx < S.numBuckets ∧ act = .update a idx u ∧
          p = .owning (.tx (.beginLoad idx u 0))) ∨ (act = .release a ∧
          p = .owning .dropStart))))) ∨
      (∃ a, act = .step a ∧ s.Live S a ∧ t = advance S s a) ∨
      (∃ p, act = .start p ∧ s.running (S.pid p) = none ∧ s.started p = false ∧
        t = { s with
          running := Function.update s.running (S.pid p) (some p)
          started := Function.update s.started p true }) ∨
      ∃ p, act = .die p ∧ s.running (S.pid p) = some p ∧
        t = { s with running := Function.update s.running (S.pid p) none } := by
  cases act with
  | acquire a =>
      obtain ⟨⟨hlive, hpc⟩, ⟨⟩⟩ := Option.ite_none_right_eq_some.mp h
      exact .inl ⟨a, _, hlive, rfl, .inl ⟨rfl, hpc, rfl⟩⟩
  | update a idx u =>
      obtain ⟨⟨hlive, hpc, hidx⟩, ⟨⟩⟩ := Option.ite_none_right_eq_some.mp h
      exact .inl ⟨a, _, hlive, rfl, .inr ⟨hpc, .inl ⟨idx, u, hidx, rfl, rfl⟩⟩⟩
  | release a =>
      obtain ⟨⟨hlive, hpc⟩, ⟨⟩⟩ := Option.ite_none_right_eq_some.mp h
      exact .inl ⟨a, _, hlive, rfl, .inr ⟨hpc, .inr ⟨rfl, rfl⟩⟩⟩
  | step a =>
      obtain ⟨hlive, ⟨⟩⟩ := Option.ite_none_right_eq_some.mp h
      exact .inr (.inl ⟨a, rfl, hlive, rfl⟩)
  | start p =>
      obtain ⟨⟨hrunning, hstarted⟩, ⟨⟩⟩ := Option.ite_none_right_eq_some.mp h
      exact .inr (.inr (.inl ⟨p, rfl, hrunning, hstarted, rfl⟩))
  | die p =>
      obtain ⟨hrunning, ⟨⟩⟩ := Option.ite_none_right_eq_some.mp h
      exact .inr (.inr (.inr ⟨p, rfl, hrunning, rfl⟩))

variable (S)

/-- The process runs. -/
def State.Runs (s : State A P) (p : P) : Prop := s.running (S.pid p) = some p

/-- The start time of a process, unless the platform does not tell it. -/
def Setting.born (p : P) : Option UInt64 := nonzero (S.startTime p)

/-- The word that stands for a process, or for none. -/
def Setting.word (o : Option P) : UInt32 := (o.map S.pid).getD 0

/-- What a thread inside `acquire_writer` knows of the lock. -/
def claimShows : ClaimPc → Phase P UInt64 → Prop
  | .claimLoad _, ph | .claimantExists _ _, ph | .claimClear _ _, ph | .claimSet _, ph => ph = .out
  | .ownerLoad, ph | .claimDrop, ph => ph = .claimed
  | .startLoad owner, ph => ∃ o, S.pid o = owner ∧ ph = .sawOwner o
  | .ownerAlive owner start, ph => ∃ o, S.pid o = owner ∧ ph = .sawStamp o (nonzero start)
  | .startStore, ph => ph = .free
  | .pidStore, ph => ph = .stamped

def Pc.Shows : Pc → Phase P UInt64 → Prop
  | idle, ph => ph = .out
  | claiming p, ph => claimShows S p ph
  | owning .claimRelease, ph => ph = .publishing
  | owning _, ph => ph = .owning

/-- The words of the lock and the threads, as moves of the claim lock see them. -/
structure State.Shows (s : State A P) (w : Words P UInt64) (phase : A → Phase P UInt64) :
    Prop where
  claim : s.lock.writerClaim = S.word w.claim
  owner : s.lock.writerPid = S.word w.owner
  stamp : w.stamp = nonzero s.lock.writerStartTime
  phase : ∀ a, (s.pc a).Shows S (phase a)

variable {S}

section Shown

omit [DecidableEq A] [DecidableEq P]

@[simp] theorem Setting.word_none : S.word none = 0 := rfl
@[simp] theorem Setting.word_some (p : P) : S.word (some p) = S.pid p := rfl

theorem Setting.word_eq_zero {o : Option P} : S.word o = 0 ↔ o = none := by
  cases o with
  | none => simp
  | some p => simpa using S.pid_ne_zero p

theorem exists_iff_running {n : UInt32} (hn : n ≠ 0) :
    s.processExists n = true ↔ ∃ p, s.running n = some p := by
  simp [State.processExists, hn, Option.isSome_iff_exists]

/-- A program counter and the phase it shows agree on what the thread holds, and no shown phase
is about to clear a claim. -/
theorem Pc.Shows.agrees {p : Pc} {ph : Phase P UInt64} (h : p.Shows S ph) :
    (p.claims = true ↔ ph.Claims) ∧ (p.inside = true ↔ ph.Owns) ∧
      (p = .claiming .pidStore ↔ ph = .stamped) ∧ ∀ c, ph ≠ .clearing c := by
  cases p with
  | idle => obtain rfl := h; simp [Pc.claims, Pc.inside, Phase.Claims, Phase.Owns]
  | claiming p =>
      cases p with
      | startLoad owner =>
          obtain ⟨o, -, rfl⟩ := h
          simp [Pc.claims, Pc.inside, Phase.Claims, Phase.Owns]
      | ownerAlive owner start =>
          obtain ⟨o, -, rfl⟩ := h
          simp [Pc.claims, Pc.inside, Phase.Claims, Phase.Owns]
      | _ => obtain rfl := h; simp [Pc.claims, Pc.inside, Phase.Claims, Phase.Owns]
  | owning p =>
      cases p <;> obtain rfl := h <;> simp [Pc.claims, Pc.inside, Phase.Claims, Phase.Owns]

theorem Pc.Shows.claims {p : Pc} {ph : Phase P UInt64} (h : p.Shows S ph) :
    p.claims = true ↔ ph.Claims :=
  h.agrees.1

theorem Pc.Shows.inside {p : Pc} {ph : Phase P UInt64} (h : p.Shows S ph) :
    p.inside = true ↔ ph.Owns :=
  h.agrees.2.1

theorem Pc.Shows.stamped {p : Pc} {ph : Phase P UInt64} (h : p.Shows S ph) :
    p = .claiming .pidStore ↔ ph = .stamped :=
  h.agrees.2.2.1

theorem Pc.Shows.not_clearing {p : Pc} {ph : Phase P UInt64} (h : p.Shows S ph) (c : P) :
    ph ≠ .clearing c :=
  h.agrees.2.2.2 c

end Shown

variable {w w' : Words P UInt64} {phase : A → Phase P UInt64} {ph : Phase P UInt64}

omit [DecidableEq P] in
/-- The threads other than the one that moves show what they showed. -/
theorem State.Shows.moved (h : s.Shows S w phase) (hframe : Framed s t a)
    (hclaim : t.lock.writerClaim = S.word w'.claim) (howner : t.lock.writerPid = S.word w'.owner)
    (hstamp : w'.stamp = nonzero t.lock.writerStartTime) (hpc : (t.pc a).Shows S ph) :
    t.Shows S w' (Function.update phase a ph) where
  claim := hclaim
  owner := howner
  stamp := hstamp
  phase b := by
    by_cases hb : b = a
    · subst hb
      simpa using hpc
    · simpa [hb, hframe.pc b hb] using h.phase b

omit [DecidableEq P] in
/-- The same, where no word of the lock changes. -/
theorem State.Shows.stays (h : s.Shows S w phase) (hframe : Framed s t a)
    (hlock : t.lock = s.lock) (hpc : (t.pc a).Shows S ph) :
    t.Shows S w (Function.update phase a ph) :=
  h.moved hframe (hlock ▸ h.claim) (hlock ▸ h.owner) (hlock ▸ h.stamp) hpc

/-- What an access of a thread is for the claim lock: a move, or the clearing of a claim whose
holder does not run. -/
def Acts (S : Setting A P) (s : State A P) (a : A) (w : Words P UInt64) (ph : Phase P UInt64)
    (w' : Words P UInt64) (ph' : Phase P UInt64) : Prop :=
  Move S.proc S.born (s.Runs S) a w ph w' ph' ∨
    (ph = .out ∧ ph' = .out ∧ w' = { w with claim := none } ∧
      ∀ c, w.claim = some c → ¬ s.Runs S c)

/-- The access of a thread and what it leads to. -/
def Follows (S : Setting A P) (s : State A P) (a : A) (w : Words P UInt64)
    (phase : A → Phase P UInt64) (t : State A P) : Prop :=
  ∃ w' ph, Acts S s a w (phase a) w' ph ∧ t.Shows S w' (Function.update phase a ph)

omit [DecidableEq A] [DecidableEq P] in
/-- The answer `dead` is right for the process the id was stored for. -/
theorem judged_dead {o : P} {start : UInt64}
    (h : s.processInstanceAlive S (S.pid o) start = false) :
    ¬ s.Runs S o ∨ nonzero start ≠ none ∧ S.born o ≠ none ∧ nonzero start ≠ S.born o := by
  by_cases hruns : s.Runs S o
  · have hrun : s.running (S.pid o) = some o := hruns
    simp only [State.processInstanceAlive, State.processExists, State.processStartTime, hrun,
      Option.isSome_some, Option.map_some, Option.getD_some, Bool.and_true, Bool.and_eq_false_iff,
      bne_eq_false_iff_eq, S.pid_ne_zero o, false_or, Bool.or_eq_false_iff,
      beq_eq_false_iff_ne] at h
    obtain ⟨⟨hstart, hborn⟩, hne⟩ := h
    refine .inr ⟨by simp [nonzero, hstart], by simp [Setting.born, nonzero, hborn], ?_⟩
    rw [Setting.born, Ne, nonzero_inj]
    exact fun e => hne e.symm
  · exact .inl hruns

omit [DecidableEq P] in
/-- A thread is about to clear the ids that it has just found dead. -/
theorem clearing_advance {c : UInt32}
    (hc : ((advance S s a).pc a).clearing = some c) : s.processExists c = false := by
  unfold advance at hc
  split at hc
  case h_1 hpc =>
    rw [hpc] at hc
    cases hc
  case h_2 p hpc =>
    cases p with
    | claimantExists k claimant =>
        cases hexists : s.processExists claimant with
        | true => simp [claimStep, hexists, Pc.clearing] at hc
        | false =>
            obtain rfl : claimant = c := by simpa [claimStep, hexists, Pc.clearing] using hc
            exact hexists
    | _ =>
        simp only [claimStep] at hc
        (try split_ifs at hc) <;> simp [Pc.clearing] at hc
  case h_3 p hpc => cases p <;> simp [ownerStep, Pc.clearing] at hc

theorem claimStep_follows {p : ClaimPc} (h : s.Shows S w phase) (hlive : s.Live S a)
    (hdead : ∀ c, (s.pc a).clearing = some c → s.processExists c = false)
    (hpc : s.pc a = .claiming p) :
    Follows S s a w phase (claimStep S s a p) := by
  have hframe : Framed s (claimStep S s a p) a := by
    have := framed_advance (S := S) s a
    rwa [advance, hpc] at this
  have hshows : claimShows S p (phase a) := by
    have := h.phase a
    rwa [hpc] at this
  have hout : phase a = .out → Acts S s a w (phase a) w .out := fun hp =>
    .inl (by rw [hp]; exact .stay w .out)
  cases p with
  | claimLoad k =>
      refine ⟨w, .out, hout hshows, h.stays hframe ?_ ?_⟩ <;> simp only [claimStep] <;>
        split_ifs <;> simp [Pc.Shows, claimShows]
  | claimantExists k claimant =>
      refine ⟨w, .out, hout hshows, h.stays hframe ?_ ?_⟩ <;> simp only [claimStep] <;>
        split_ifs <;> simp [Pc.Shows, claimShows]
  | claimClear k claimant =>
      by_cases hword : s.lock.writerClaim = claimant
      · -- whoever holds the claim does not run
        refine ⟨{ w with claim := none }, .out, .inr ⟨hshows, rfl, rfl, fun c hc hruns => ?_⟩,
          h.moved hframe ?_ ?_ ?_ ?_⟩
        · have hpid : s.lock.writerClaim = S.pid c := by rw [h.claim, hc]; rfl
          have hexists : s.processExists (S.pid c) = true :=
            (exists_iff_running (S.pid_ne_zero c)).mpr ⟨c, hruns⟩
          rw [← hpid, hword, hdead claimant (by simp [hpc, Pc.clearing])] at hexists
          cases hexists
        · simp [claimStep, hword]
        · simpa [claimStep, hword] using h.owner
        · simpa [claimStep, hword] using h.stamp
        · simp [claimStep, hword, Pc.Shows, claimShows]
      · exact ⟨w, .out, hout hshows, h.stays hframe (by simp [claimStep, hword])
          (by simp [claimStep, hword, Pc.Shows, claimShows])⟩
  | claimSet k =>
      by_cases hword : s.lock.writerClaim = 0
      · have hfree : w.claim = none := S.word_eq_zero.mp (h.claim ▸ hword)
        refine ⟨{ w with claim := some (S.proc a) }, .claimed, .inl ?_,
          h.moved hframe ?_ ?_ ?_ ?_⟩
        · rw [show phase a = .out from hshows]
          exact .claim w hfree
        · simp [claimStep, hword]
        · simpa [claimStep, hword] using h.owner
        · simpa [claimStep, hword] using h.stamp
        · simp [claimStep, hword, Pc.Shows, claimShows]
      · exact ⟨w, .out, hout hshows, h.stays hframe (by simp [claimStep, hword])
          (by simp [claimStep, hword, Pc.Shows, claimShows])⟩
  | ownerLoad =>
      have hclaimed : phase a = .claimed := hshows
      cases ho : w.owner with
      | none =>
          have hzero : s.lock.writerPid = 0 := by rw [h.owner, ho]; rfl
          refine ⟨w, .free, .inl (hclaimed ▸ .seeNobody w ho), h.stays hframe ?_ ?_⟩ <;>
            simp [claimStep, hzero, Pc.Shows, claimShows]
      | some o =>
          have hpid : s.lock.writerPid = S.pid o := by rw [h.owner, ho]; rfl
          have hne : s.lock.writerPid ≠ 0 := hpid ▸ S.pid_ne_zero o
          refine ⟨w, .sawOwner o, .inl (hclaimed ▸ .seeOwner w ho), h.stays hframe ?_ ?_⟩
          · simp [claimStep, hne]
          · simpa [claimStep, hne, Pc.Shows, claimShows] using hpid.symm
  | startLoad owner =>
      obtain ⟨o, ho, hsaw⟩ := hshows
      refine ⟨w, .sawStamp o w.stamp, .inl (hsaw ▸ .seeStamp w o), h.stays hframe ?_ ?_⟩
      · simp [claimStep]
      · simpa [claimStep, Pc.Shows, claimShows, h.stamp] using ho
  | ownerAlive owner start =>
      obtain ⟨o, rfl, hsaw⟩ := hshows
      cases halive : s.processInstanceAlive S (S.pid o) start with
      | true =>
          refine ⟨w, .claimed, .inl (hsaw ▸ .judgeAlive w o _), h.stays hframe ?_ ?_⟩ <;>
            simp [claimStep, halive, Pc.Shows, claimShows]
      | false =>
          refine ⟨w, .free, .inl (hsaw ▸ .judgeDead w (judged_dead halive)),
            h.stays hframe ?_ ?_⟩ <;> simp [claimStep, halive, Pc.Shows, claimShows]
  | claimDrop =>
      refine ⟨{ w with claim := none }, .out, .inl ?_, h.moved hframe ?_ ?_ ?_ ?_⟩
      · rw [show phase a = .claimed from hshows]
        exact .abandon w
      · simp [claimStep]
      · simpa [claimStep] using h.owner
      · simpa [claimStep] using h.stamp
      · simp [claimStep, Pc.Shows]
  | startStore =>
      refine ⟨{ w with stamp := S.born (S.proc a) }, .stamped, .inl ?_, h.moved hframe ?_ ?_ ?_ ?_⟩
      · rw [show phase a = .free from hshows]
        exact .stamp w
      · simpa [claimStep] using h.claim
      · simpa [claimStep] using h.owner
      · have hrun : s.running (S.pid (S.proc a)) = some (S.proc a) := hlive
        simp [claimStep, State.processStartTime, hrun, Setting.born]
      · simp [claimStep, Pc.Shows, claimShows]
  | pidStore =>
      refine ⟨{ w with owner := some (S.proc a) }, .publishing, .inl ?_,
        h.moved hframe ?_ ?_ ?_ ?_⟩
      · rw [show phase a = .stamped from hshows]
        exact .publish w
      · simpa [claimStep] using h.claim
      · simp [claimStep]
      · simpa [claimStep] using h.stamp
      · simp [claimStep, Pc.Shows]

omit [DecidableEq A] [DecidableEq P] in
theorem afterTx_shows (p : TxPc) : (Pc.owning (afterTx p)).Shows S .owning := by
  cases p <;> simp [afterTx, Pc.Shows]

theorem ownerStep_follows {p : OwnerPc} (h : s.Shows S w phase) (hpc : s.pc a = .owning p) :
    Follows S s a w phase (ownerStep S s a p) := by
  have hframe : Framed s (ownerStep S s a p) a := by
    have := framed_advance (S := S) s a
    rwa [advance, hpc] at this
  have hshows : (Pc.owning p).Shows S (phase a) := by
    have := h.phase a
    rwa [hpc] at this
  cases p with
  | claimRelease =>
      refine ⟨{ w with claim := none }, .owning, .inl ?_, h.moved hframe ?_ ?_ ?_ ?_⟩
      · rw [show phase a = .publishing from hshows]
        exact .unclaim w
      · simp [ownerStep]
      · simpa [ownerStep] using h.owner
      · simpa [ownerStep] using h.stamp
      · simp [ownerStep, Pc.Shows]
  | tx p =>
      refine ⟨w, .owning, .inl ?_, h.stays hframe rfl ?_⟩
      · rw [show phase a = .owning from hshows]
        exact .stay w .owning
      · simpa [ownerStep] using afterTx_shows _
  | dropStart =>
      refine ⟨{ w with stamp := none }, .owning, .inl ?_, h.moved hframe ?_ ?_ ?_ ?_⟩
      · rw [show phase a = .owning from hshows]
        exact .unstamp w
      · simpa [ownerStep] using h.claim
      · simpa [ownerStep] using h.owner
      · simp [ownerStep]
      · simp [ownerStep, Pc.Shows]
  | dropPid =>
      refine ⟨{ w with owner := none }, .out, .inl ?_, h.moved hframe ?_ ?_ ?_ ?_⟩
      · rw [show phase a = .owning from hshows]
        exact .disown w
      · simpa [ownerStep] using h.claim
      · simp [ownerStep]
      · simpa [ownerStep] using h.stamp
      · simp [ownerStep, Pc.Shows]

theorem advance_follows (h : s.Shows S w phase) (hlive : s.Live S a)
    (hdead : ∀ c, (s.pc a).clearing = some c → s.processExists c = false) :
    Follows S s a w phase (advance S s a) := by
  unfold advance
  split
  case h_1 hpc => exact ⟨w, phase a, .inl (.stay w _), by rwa [Function.update_eq_self]⟩
  case h_2 p hpc => exact claimStep_follows h hlive hdead hpc
  case h_3 p hpc => exact ownerStep_follows h hpc

end Probing.Memh.WriterLock
