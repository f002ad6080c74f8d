import Mathlib.Data.Fintype.Basic
import Probing.Core.Run
import Probing.Stacktrace.Sigusr2

/-!
# A call takes the answer to its own request

The sequence number is shared, so a call for one thread is woken by the handler of another one
that is late. Where no such handler advances it while a call waits, the reply slot that the call
reads was filled by a handler that was still running when the request was armed.
-/

namespace Probing.Stacktrace.Sigusr2

open Probing.Core (exec exec_invariant Meets)

/-- The thread whose answer the call waits for, from its load of the sequence number on until that
number has advanced. -/
def Call.waitsFor (current : UInt64) : Call → Option ℕ
  | .kill tid _ seq | .wait tid _ seq => if current = seq then some tid else none
  | _ => none

namespace State

variable {A : Type}

/-- The snapshot was filled on the thread that was asked for, by a handler that had not ended when
the request was armed. -/
def Good (s : State A) : Prop :=
  ∀ r ∈ s.returned, r.snapshot.tid = r.tid ∧ r.ended ≤ r.snapshot.execution

/-- A handler advances the sequence number when no call waits for another thread. -/
def Undisturbed (s : State A) : Action A → Prop
  | .handle tid _ _ => s.handlers tid = .advance → ∀ a, (s.calls a).waitsFor s.seq = none ∨
      (s.calls a).waitsFor s.seq = some tid
  | _ => True

instance [Fintype A] (s : State A) : ∀ act, Decidable (s.Undisturbed act)
  | .handle tid _ _ => inferInstanceAs (Decidable (s.handlers tid = .advance → ∀ a,
      (s.calls a).waitsFor s.seq = none ∨ (s.calls a).waitsFor s.seq = some tid))
  | .captureThreadSnapshotSignal _ _ | .step _ _ | .timeout _ | .signal _ | .deliver _ =>
      .isTrue trivial

/-- The reply slot was filled by an execution that had not ended. -/
def Fresh (s : State A) (tid ended : ℕ) : Prop :=
  ∃ snapshot, s.sigusr2Reply tid = some snapshot ∧ ended ≤ snapshot.execution

/-- What a call knows. -/
def Knows (s : State A) : Call → Prop
  | .generation tid ended => ended ≤ s.ended tid
  | .kill tid ended seq | .wait tid ended seq =>
      ended ≤ s.ended tid ∧ (s.seq = seq ∨ s.Fresh tid ended)
  | .take tid ended _ | .read tid ended _ _ => ended ≤ s.ended tid ∧ s.Fresh tid ended
  | _ => True

structure Inv (s : State A) : Prop where
  replies : ∀ tid snapshot, s.sigusr2Reply tid = some snapshot → snapshot.tid = tid
  writes : ∀ tid target, s.handlers tid = .write target → target = tid
  advances : ∀ tid, s.handlers tid = .advance →
    ∃ snapshot, s.sigusr2Reply tid = some snapshot ∧ snapshot.execution = s.ended tid
  knows : ∀ a, s.Knows (s.calls a)
  good : s.Good

/-- Handlers end, and reply slots are filled by handlers that have not ended. -/
structure Follows (s t : State A) : Prop where
  ended : ∀ tid, s.ended tid ≤ t.ended tid
  replies : ∀ tid, t.sigusr2Reply tid = s.sigusr2Reply tid ∨
    ∃ snapshot, t.sigusr2Reply tid = some snapshot ∧ s.ended tid ≤ snapshot.execution

variable {s t : State A} {tid ended : ℕ} {c : Call}

theorem Follows.of_eq (hended : t.ended = s.ended)
    (hreplies : t.sigusr2Reply = s.sigusr2Reply) : Follows s t where
  ended tid := Nat.le_of_eq (congrFun hended tid).symm
  replies tid := .inl (by rw [hreplies])

theorem Fresh.follows (h : s.Fresh tid ended) (hle : ended ≤ s.ended tid) (hst : Follows s t) :
    t.Fresh tid ended := by
  obtain hsame | ⟨snapshot, hreply, hexecution⟩ := hst.replies tid
  · rw [Fresh, hsame]
    exact h
  · exact ⟨snapshot, hreply, Nat.le_trans hle hexecution⟩

theorem Knows.follows (h : s.Knows c) (hst : Follows s t)
    (hseq : t.seq = s.seq ∨ ∀ tid ended, c.waitsFor s.seq = some tid → ended ≤ s.ended tid →
      t.Fresh tid ended) : t.Knows c := by
  have hwaits {tid ended : ℕ} {seq : UInt64} (hc : s.seq = seq → c.waitsFor s.seq = some tid)
      (hknows : ended ≤ s.ended tid ∧ (s.seq = seq ∨ s.Fresh tid ended)) :
      ended ≤ t.ended tid ∧ (t.seq = seq ∨ t.Fresh tid ended) := by
    obtain ⟨hle, hknown⟩ := hknows
    refine ⟨Nat.le_trans hle (hst.ended tid), ?_⟩
    obtain hwait | hfresh := hknown
    · obtain hsame | hfresh := hseq
      · exact .inl (hsame.trans hwait)
      · exact .inr (hfresh tid ended (hc hwait) hle)
    · exact .inr (hfresh.follows hle hst)
  cases c with
  | generation tid ended => exact Nat.le_trans h (hst.ended tid)
  | kill tid ended seq => exact hwaits (fun hseq => if_pos hseq) h
  | wait tid ended seq => exact hwaits (fun hseq => if_pos hseq) h
  | take tid ended seq => exact ⟨Nat.le_trans h.1 (hst.ended tid), h.2.follows h.1 hst⟩
  | read tid ended seq target => exact ⟨Nat.le_trans h.1 (hst.ended tid), h.2.follows h.1 hst⟩
  | _ => trivial

variable [DecidableEq A] {a : A}

/-- A call goes on, and no handler does. -/
theorem Inv.move (h : s.Inv) (hcalls : t.calls = Function.update s.calls a c)
    (hhandlers : t.handlers = s.handlers) (hreplies : t.sigusr2Reply = s.sigusr2Reply)
    (hended : t.ended = s.ended) (hseq : t.seq = s.seq) (hself : s.Knows c) (hgood : t.Good) :
    t.Inv where
  replies := by rw [hreplies]; exact h.replies
  writes := by rw [hhandlers]; exact h.writes
  advances := by rw [hhandlers, hreplies, hended]; exact h.advances
  knows := by
    have hfollows : Follows s t := .of_eq hended hreplies
    rw [hcalls]
    exact (Function.forall_update_iff s.calls fun _ c => t.Knows c).mpr
      ⟨hself.follows hfollows (.inl hseq), fun b _ => (h.knows b).follows hfollows (.inl hseq)⟩
  good := hgood

theorem accepts_tid {target : ℕ} {snapshot : StackSnapshot}
    (h : accepts tid target snapshot = true) : snapshot.tid = tid := by
  simp only [accepts, sigusr2SnapshotMatchesTarget, Bool.and_eq_true, decide_eq_true_eq] at h
  exact h.2.2

/-- A snapshot that is accepted answers the request. -/
theorem Inv.reads (h : s.Inv) {seq : UInt64} {target : ℕ} {ok : Bool}
    (hcall : s.calls a = .read tid ended seq target) :
    (s.reads a tid ended seq
      (if ok then (s.sigusr2Reply target).filter (accepts tid target) else none)).Inv := by
  have hknows := h.knows a
  rw [hcall] at hknows
  obtain ⟨hle, hfresh⟩ := hknows
  cases hread : (if ok then (s.sigusr2Reply target).filter (accepts tid target) else none) with
  | none => exact h.move rfl rfl rfl rfl rfl ⟨hle, .inr hfresh⟩ h.good
  | some snapshot =>
      refine h.move rfl rfl rfl rfl rfl trivial fun r hr => ?_
      obtain hold | hnew := List.mem_append.mp hr
      · exact h.good r hold
      · obtain rfl := List.mem_singleton.mp hnew
        split at hread
        · obtain ⟨hreply, haccepts⟩ := Option.filter_eq_some_iff.mp hread
          have htid := accepts_tid haccepts
          obtain ⟨snapshot', hreply', hexecution⟩ := hfresh
          rw [← htid, h.replies target snapshot hreply, hreply] at hreply'
          obtain rfl := Option.some.inj hreply'
          exact ⟨htid, hexecution⟩
        · exact (nomatch hread)

theorem Inv.advance (h : s.Inv) {ok : Bool} (hstep : s.advance a ok (s.calls a) = some t) :
    t.Inv := by
  have hknows := h.knows a
  cases hcall : s.calls a with
  | idle =>
      rw [hcall] at hstep
      exact (nomatch hstep)
  | read tid ended seq target =>
      rw [hcall] at hstep
      obtain rfl := Option.some.inj hstep
      exact h.reads hcall
  | wait tid ended seq =>
      rw [hcall] at hstep hknows
      obtain rfl := Option.some.inj hstep
      split
      · exact h
      next hadvanced =>
        obtain ⟨hle, hsame | hfresh⟩ := hknows
        · exact (hadvanced (hsame ▸ UInt64.le_refl _)).elim
        · exact h.move rfl rfl rfl rfl rfl ⟨hle, hfresh⟩ h.good
  | kill tid ended seq =>
      rw [hcall] at hstep hknows
      obtain rfl := Option.some.inj hstep
      split
      · exact h.move rfl rfl rfl rfl rfl hknows h.good
      · exact h.move rfl rfl rfl rfl rfl trivial h.good
  | generation tid ended =>
      rw [hcall] at hstep hknows
      obtain rfl := Option.some.inj hstep
      exact h.move rfl rfl rfl rfl rfl ⟨hknows, .inl rfl⟩ h.good
  | take tid ended seq =>
      rw [hcall] at hstep hknows
      obtain rfl := Option.some.inj hstep
      exact h.move rfl rfl rfl rfl rfl hknows h.good
  | arm tid =>
      rw [hcall] at hstep
      obtain rfl := Option.some.inj hstep
      exact h.move rfl rfl rfl rfl rfl (Nat.le_refl _) h.good
  | _ =>
      rw [hcall] at hstep
      obtain rfl := Option.some.inj hstep
      exact h.move rfl rfl rfl rfl rfl trivial h.good

omit [DecidableEq A] in
/-- The handler of one thread goes on. -/
theorem Inv.handles (h : s.Inv) {p : Handler}
    (hhandlers : t.handlers = Function.update s.handlers tid p)
    (hcalls : t.calls = s.calls) (hreturned : t.returned = s.returned) (hfollows : Follows s t)
    (hothers : ∀ tid' ≠ tid, t.sigusr2Reply tid' = s.sigusr2Reply tid' ∧
      t.ended tid' = s.ended tid')
    (hreply : ∀ snapshot, t.sigusr2Reply tid = some snapshot → snapshot.tid = tid)
    (hwrites : ∀ target, p = .write target → target = tid)
    (hadvances : p = .advance → ∃ snapshot, t.sigusr2Reply tid = some snapshot ∧
      snapshot.execution = t.ended tid)
    (hseq : t.seq = s.seq ∨ ∀ a tid' ended, (s.calls a).waitsFor s.seq = some tid' →
      ended ≤ s.ended tid' → t.Fresh tid' ended) : t.Inv where
  replies tid' snapshot hsnapshot := by
    by_cases htid : tid' = tid
    · subst htid
      exact hreply snapshot hsnapshot
    · rw [(hothers tid' htid).1] at hsnapshot
      exact h.replies tid' snapshot hsnapshot
  writes tid' target htarget := by
    by_cases htid : tid' = tid
    · subst htid
      rw [hhandlers, Function.update_self] at htarget
      exact hwrites target htarget
    · rw [hhandlers, Function.update_of_ne htid] at htarget
      exact h.writes tid' target htarget
  advances tid' hadvance := by
    by_cases htid : tid' = tid
    · subst htid
      rw [hhandlers, Function.update_self] at hadvance
      exact hadvances hadvance
    · rw [hhandlers, Function.update_of_ne htid] at hadvance
      rw [(hothers tid' htid).1, (hothers tid' htid).2]
      exact h.advances tid' hadvance
  knows a := by
    rw [hcalls]
    refine (h.knows a).follows hfollows (hseq.imp id fun hfresh => ?_)
    exact hfresh a
  good := by
    rw [Good, hreturned]
    exact h.good

omit [DecidableEq A] in
/-- A handler returns. -/
theorem Inv.ends (h : s.Inv) {seq : UInt64}
    (hseq : seq = s.seq ∨ ∀ a tid' ended, (s.calls a).waitsFor s.seq = some tid' →
      ended ≤ s.ended tid' → s.Fresh tid' ended) : State.Inv { s.ends tid with seq := seq } := by
  have hfollows : Follows s { s.ends tid with seq := seq } := by
    refine ⟨fun tid' => ?_, fun _ => .inl rfl⟩
    by_cases htid : tid' = tid
    · subst htid
      change _ ≤ Function.update s.ended tid' (s.ended tid' + 1) tid'
      rw [Function.update_self]
      exact Nat.le_succ _
    · change _ ≤ Function.update s.ended tid (s.ended tid + 1) tid'
      rw [Function.update_of_ne htid]
  exact h.handles rfl rfl rfl hfollows
    (fun tid' htid => ⟨rfl, Function.update_of_ne htid _ _⟩) (h.replies tid)
    (fun target htarget => (nomatch htarget)) (fun hadvance => (nomatch hadvance)) hseq

omit [DecidableEq A] in
theorem Inv.goes (h : s.Inv) {p : Handler} (hwrites : ∀ target, p = .write target → target = tid)
    (hadvances : p ≠ .advance) : (s.goes tid p).Inv :=
  h.handles rfl rfl rfl (.of_eq rfl rfl) (fun _ _ => ⟨rfl, rfl⟩) (h.replies tid) hwrites
    (fun hadvance => (hadvances hadvance).elim) (.inl rfl)

omit [DecidableEq A] in
/-- A handler fills the reply slot of its thread. -/
theorem Inv.write (h : s.Inv) {frames : Frames} :
    State.Inv { s.goes tid .advance with
      sigusr2Reply := Function.update s.sigusr2Reply tid (s.fill tid frames) } := by
  have hself : Function.update s.sigusr2Reply tid (some (s.fill tid frames)) tid =
      some (s.fill tid frames) := Function.update_self _ _ _
  refine h.handles rfl rfl rfl ⟨fun _ => Nat.le_refl _, fun tid' => ?_⟩
    (fun tid' htid => ⟨Function.update_of_ne htid _ _, rfl⟩) (fun snapshot hsnapshot => ?_)
    (fun target htarget => (nomatch htarget)) (fun _ => ⟨_, hself, rfl⟩) (.inl rfl)
  · by_cases htid : tid' = tid
    · subst htid
      exact .inr ⟨_, hself, Nat.le_refl _⟩
    · exact .inl (Function.update_of_ne htid _ _)
  · obtain rfl := Option.some.inj (hself.symm.trans hsnapshot)
    rfl

omit [DecidableEq A] in
theorem Inv.handle (h : s.Inv) {ok : Bool} {filled : Option Frames}
    (hok : s.Undisturbed (.handle tid ok filled))
    (hstep : s.handle tid ok filled (s.handlers tid) = some t) : t.Inv := by
  cases hhandler : s.handlers tid with
  | none =>
      rw [hhandler] at hstep
      exact (nomatch hstep)
  | armed =>
      rw [hhandler] at hstep
      obtain rfl := Option.some.inj hstep
      split
      · exact h.goes (fun target htarget => (nomatch htarget)) (by simp)
      · exact h.ends (.inl rfl)
  | target =>
      rw [hhandler] at hstep
      obtain rfl := Option.some.inj hstep
      split
      · exact h.ends (.inl rfl)
      next hmatches =>
        refine h.goes (fun target htarget => ?_) (by simp)
        obtain rfl := Handler.write.inj htarget
        exact (not_not.mp fun hne => hmatches (.inr hne)).symm
  | write target =>
      obtain rfl := h.writes tid target hhandler
      rw [hhandler] at hstep
      cases filled with
      | none =>
          obtain rfl := Option.some.inj hstep
          exact h.ends (.inl rfl)
      | some frames =>
          obtain rfl := Option.some.inj hstep
          split
          · exact h.write
          · exact h.ends (.inl rfl)
  | advance =>
      -- a call that waits for this thread reads what this handler has just written
      obtain ⟨snapshot, hreply, hexecution⟩ := h.advances tid hhandler
      rw [hhandler] at hstep
      obtain rfl := Option.some.inj hstep
      refine h.ends (.inr fun a tid' ended hwaits hle => ?_)
      obtain hnone | hsome := hok hhandler a
      · rw [hnone] at hwaits
        exact (nomatch hwaits)
      · obtain rfl := Option.some.inj (hsome.symm.trans hwaits)
        exact ⟨snapshot, hreply, hexecution ▸ hle⟩

omit [DecidableEq A] in
theorem inv_new : (new : State A).Inv where
  replies _ _ h := (nomatch h)
  writes _ _ h := (nomatch h)
  advances _ h := (nomatch h)
  knows _ := trivial
  good _ hr := (nomatch hr)

theorem Inv.step (h : s.Inv) {act : Action A} (hok : s.Undisturbed act)
    (hstep : s.step act = some t) : t.Inv := by
  cases act with
  | captureThreadSnapshotSignal a tid =>
      simp only [State.step] at hstep
      split at hstep
      · exact (nomatch hstep)
      split at hstep
      · obtain rfl := Option.some.inj hstep
        exact h
      · obtain rfl := Option.some.inj hstep
        exact h.move rfl rfl rfl rfl rfl trivial h.good
  | step a ok => exact h.advance hstep
  | timeout a =>
      cases hcall : s.calls a with
      | wait tid ended seq =>
          simp only [State.step, hcall] at hstep
          obtain rfl := Option.some.inj hstep
          exact h.move rfl rfl rfl rfl rfl trivial h.good
      | _ => simp [State.step, hcall] at hstep
  | signal tid =>
      obtain rfl := Option.some.inj hstep
      exact ⟨h.replies, h.writes, h.advances, h.knows, h.good⟩
  | deliver tid =>
      simp only [State.step] at hstep
      split at hstep
      · obtain rfl := Option.some.inj hstep
        exact h.handles rfl rfl rfl (.of_eq rfl rfl) (fun _ _ => ⟨rfl, rfl⟩) (h.replies tid)
          (fun target htarget => (nomatch htarget)) (fun hadvance => (nomatch hadvance)) (.inl rfl)
      · exact (nomatch hstep)
  | handle tid ok filled => exact h.handle hok hstep

/-- In every run in which no handler advances the sequence number while a call waits for another
thread, every snapshot that a call returned was filled on its thread, by a handler that had not
ended when the request was armed. -/
theorem capture_run (acts : List (Action A)) (s : State A)
    (hok : Meets State.step Undisturbed new acts)
    (hrun : exec State.step new acts = some s) : s.Good :=
  (exec_invariant (fun _ _ _ hs hok hstep => hs.step hok hstep) inv_new hok hrun).good

/-- The request of a call, up to the signal. -/
def request (tid : ℕ) : List (Action Unit) :=
  .captureThreadSnapshotSignal () tid :: List.replicate 4 (.step () true)

/-- A handler goes as far as its fill. -/
def answer (tid : ℕ) : List (Action Unit) :=
  [.deliver tid, .handle tid true none, .handle tid true none]

/-- A handler fills the slot and returns. -/
def fills (tid : ℕ) : List (Action Unit) :=
  List.replicate 2 (.handle tid true (some ⟨[5], []⟩))

/-- A call finds the sequence number advanced, takes the reply and returns it. -/
def takes : List (Action Unit) := List.replicate 6 (.step () true)

def answered (tid : ℕ) : List (Action Unit) := request tid ++ answer tid ++ fills tid ++ takes

/-- The call returns while the handler is about to fill its slot. -/
def timesOut (tid : ℕ) : List (Action Unit) :=
  request tid ++ answer tid ++ [Action.timeout ()] ++ List.replicate 3 (Action.step () true)

/-- The handler of a call that timed out returns before the next call. -/
theorem capture_run_requests : ∃ s : State Unit,
    exec State.step new (answered 1 ++ timesOut 2 ++ fills 2 ++ answered 1) = some s ∧
      s.returned.map (·.tid) = [1, 1] ∧ s.Good :=
  ⟨_, rfl, rfl, capture_run (answered 1 ++ timesOut 2 ++ fills 2 ++ answered 1) _ (by decide) rfl⟩

/-- A call for thread 1 is answered; one for thread 2 times out, with its handler about to fill
its slot; the next call for thread 1 is woken by that handler and returns the old reply. -/
theorem capture_stale : ∃ s : State Unit,
    exec State.step new (answered 1 ++ timesOut 2 ++ request 1 ++ fills 2 ++ takes) = some s ∧
      ¬ s.Good :=
  ⟨_, rfl, fun hgood => absurd (hgood ⟨1, 1, ⟨1, .Sigusr2, ⟨[5], []⟩, 0⟩⟩ (by decide)).2
    (by decide)⟩

end State

end Probing.Stacktrace.Sigusr2
