import Probing.Stacktrace.LatestReads

/-!
# Runs of the latest snapshot

Whatever the order of the accesses, a snapshot that is returned is the content of one write. The
generation that comes with it counts writes in 63 bits.
-/

namespace Probing.Stacktrace

open Probing.Core (exec exec_trans exec_preserves Meets)

namespace State

variable {A W : Type} [DecidableEq A] {s t : State A W} {a b : A}

theorem Inv.fills (h : s.Inv) {ok : Bool} {current : UInt64} {index : ℕ}
    {content : List W} (hpc : s.pc a = .filling [] ok current index content) :
    (s.advance a).Inv := by
  have hsees := h.sees a
  rw [hpc] at hsees
  rw [advance, hpc]
  cases ok with
  | false =>
      exact h.stays (fun i => by rw [hpc]; exact Iff.rfl) (fun _ => by rw [hpc]; trivial)
        (fun i hi => hi.elim) (fun i hi => hi.elim) trivial
  | true =>
      refine h.stays (fun i => by rw [hpc]; exact Iff.rfl) (fun _ => by rw [hpc]; trivial)
        (fun i hi b => ?_) (fun i hi => hi.elim) hsees
      exact h.guarded a b i (by rw [hpc]; exact hi)

omit [DecidableEq A] in
/-- Before the first write no reader gets as far as a buffer. -/
theorem Inv.readers_zero (h : s.Inv) (hzero : s.writes.length = 0) (i : ℕ) : s.readers i = 0 := by
  obtain ⟨calls, hcard, hmem⟩ := h.pinned i
  rw [← hcard, Finset.card_eq_zero, Finset.eq_empty_iff_forall_notMem]
  intro a ha
  have hpins := (hmem a).mp ha
  have hsees := h.sees a
  cases hpc : s.pc a with
  | copy tries token write copied =>
      rw [hpc] at hsees
      obtain ⟨content, hreads, -⟩ := hsees
      have hwrite := (List.getElem?_eq_some_iff.mp hreads.written).1
      omega
  | recheck tries token =>
      rw [hpc] at hsees
      exact Nat.ne_of_gt hsees hzero
  | retreat tries token =>
      rw [hpc] at hsees
      exact Nat.ne_of_gt hsees hzero
  | _ =>
      rw [hpc] at hpins
      exact hpins.elim

/-- The writer looks at the reader count of a buffer. -/
theorem Inv.tries (h : s.Inv) {fill : Fill W} {current : UInt64} {index : ℕ}
    (hpc : s.pc a = .readers fill current index) : (s.advance a).Inv := by
  have hsees := h.sees a
  rw [hpc] at hsees
  obtain ⟨rfl, rfl⟩ := hsees
  rw [advance, hpc]
  simp only
  split
  next hzero =>
    refine h.stays (fun i => by rw [hpc]; exact Iff.rfl) (fun _ => by rw [hpc]; trivial)
      (fun i hi b hcopies => ?_) (fun i hi => hi.elim) ⟨rfl, rfl, rfl⟩
    obtain rfl : s.writes.length % 2 = i := hi
    exact h.pinned.not_pins hzero b (Pc.pins_of_copies hcopies)
  next hbusy =>
    refine h.triesBuffer (fun i => by rw [hpc]; exact not_false) (by rw [hpc]; trivial) ?_
    intro index hindex
    obtain hzero | hpos := Nat.eq_zero_or_pos s.writes.length
    · exact (hbusy (h.readers_zero hzero _)).elim
    · rw [h.published.no_candidate hpos] at hindex
      cases hindex

/-- Every access keeps the invariant. -/
theorem Inv.advance (h : s.Inv) (a : A) : (s.advance a).Inv := by
  cases hpc : s.pc a with
  | idle => rw [State.advance, hpc]; exact h
  | acquire fill => exact h.acquire hpc
  | current fill =>
      rw [State.advance, hpc]
      refine h.triesBuffer (fun i => by rw [hpc]; exact not_false) (by rw [hpc]; trivial) ?_
      intro index hindex
      rw [h.published.candidate] at hindex
      exact (Option.some.inj hindex).symm
  | readers fill current index => exact h.tries hpc
  | filling stores ok current index content =>
      cases stores with
      | nil => exact h.fills hpc
      | cons store stores => exact h.store hpc
  | publish current index content => exact h.publish hpc
  | release => exact h.release hpc
  | load tries => exact h.load hpc
  | pin tries token => exact h.pin hpc
  | recheck tries token => exact h.recheck hpc
  | retreat tries token => exact h.retreat hpc
  | copy tries token write copied => exact h.copy hpc
  | confirm tries token write copied => exact h.confirm hpc

theorem Inv.step (h : s.Inv) {act : Action A W} (hstep : s.step act = some t) : t.Inv := by
  cases act with
  | tryWriteWith a _ | read a =>
      cases hpc : s.pc a with
      | idle =>
          simp only [State.step, hpc] at hstep
          obtain rfl := Option.some.inj hstep
          exact h.stays (fun i => by rw [hpc]; exact Iff.rfl) (fun hp => hp.elim)
            (fun i hi => hi.elim) (fun i hi => hi.elim) trivial
      | _ => simp [State.step, hpc] at hstep
  | step a =>
      cases hpc : s.pc a with
      | idle => simp [State.step, hpc] at hstep
      | _ =>
          simp only [State.step, hpc] at hstep
          obtain rfl := Option.some.inj hstep
          exact h.advance a

theorem Inv.exec (h : s.Inv) {acts : List (Action A W)} (hrun : exec State.step s acts = some t) :
    t.Inv :=
  exec_preserves (fun _ _ _ hs hstep => hs.step hstep) h hrun

/-- A bound for the accesses that a call still makes, with buffers of that length. -/
def work (len : ℕ) : Pc W → ℕ
  | .idle => 0
  | .acquire fill => fill.stores.length + 7
  | .current fill => fill.stores.length + 6
  | .readers fill _ index => fill.stores.length + 4 + (1 - index)
  | .filling stores _ _ _ _ => stores.length + 3
  | .publish _ _ _ => 2
  | .release => 1
  | .load tries => tries * (len + 5) + len + 5
  | .pin tries _ => tries * (len + 5) + len + 4
  | .recheck tries _ => tries * (len + 5) + len + 3
  | .retreat tries _ => tries * (len + 5) + 1
  | .copy tries _ _ copied => tries * (len + 5) + (len - copied.length) + 2
  | .confirm tries _ _ _ => tries * (len + 5) + 1

theorem candidate_bounds {current : UInt64} {start index : ℕ}
    (h : candidate current start = some index) : start ≤ index ∧ index < 2 := by
  have hmem := List.mem_of_find?_eq_some h
  have hfound := List.find?_some h
  simp only [decide_eq_true_eq] at hfound
  exact ⟨hfound.1, List.mem_range.mp hmem⟩

omit [DecidableEq A] in
theorem work_retries (len tries : ℕ) : work len (retries tries : Pc W) = tries * (len + 5) := by
  cases tries with
  | zero => rw [Nat.zero_mul]; rfl
  | succ tries =>
      rw [Nat.succ_mul]
      rfl

omit [DecidableEq A] in
theorem work_triesBuffer_le (len : ℕ) (fill : Fill W) (current : UInt64) (start : ℕ) :
    work len (triesBuffer fill current (candidate current start)) ≤
      fill.stores.length + 4 + (1 - start) := by
  cases hcandidate : candidate current start with
  | none =>
      change 1 ≤ _
      omega
  | some index =>
      have hbounds := candidate_bounds hcandidate
      change fill.stores.length + 4 + (1 - index) ≤ _
      omega

/-- The buffers keep their length. -/
theorem length_advance {len : ℕ} (h : ∀ i, (s.buffers i).length = len) (b : A) (i : ℕ) :
    ((s.advance b).buffers i).length = len := by
  rw [State.advance]
  split
  any_goals exact h i
  any_goals split <;> exact h i
  next offset word stores ok current index content hpc =>
    refine (Function.forall_update_iff s.buffers fun _ b => b.length = len).mpr
      ⟨?_, fun j _ => h j⟩ i
    exact List.length_set.trans (h index)

theorem advance_pc_of_ne (h : a ≠ b) : (s.advance b).pc a = s.pc a := by
  rw [State.advance]
  split
  any_goals exact Function.update_of_ne h _ _
  any_goals split <;> exact Function.update_of_ne h _ _
  rfl

/-- Every access of a call brings it closer to its end. -/
theorem work_advance_lt {len : ℕ} (hlength : ∀ i, (s.buffers i).length = len)
    (h : s.pc a ≠ .idle) : work len ((s.advance a).pc a) < work len (s.pc a) := by
  have hgoto (p : Pc W) : (s.goto a p).pc a = p := by rw [gotoPc, Function.update_self]
  cases hpc : s.pc a with
  | idle => exact (h hpc).elim
  | acquire fill =>
      simp only [advance, hpc]
      split
      · rw [hgoto]
        exact Nat.succ_pos _
      · change work len ((s.goto a (.current fill)).pc a) < _
        rw [hgoto]
        exact Nat.lt_succ_self _
  | current fill =>
      simp only [advance, hpc, hgoto]
      have hle := work_triesBuffer_le len fill s.published 0
      change _ < fill.stores.length + 6
      omega
  | readers fill current index =>
      simp only [advance, hpc]
      split
      · rw [hgoto]
        change fill.stores.length + 3 < fill.stores.length + 4 + (1 - index)
        omega
      · rw [hgoto]
        cases hcandidate : candidate current (index + 1) with
        | none =>
            change 1 < fill.stores.length + 4 + (1 - index)
            omega
        | some other =>
            have hbounds := candidate_bounds hcandidate
            change fill.stores.length + 4 + (1 - other) < fill.stores.length + 4 + (1 - index)
            omega
  | filling stores ok current index content =>
      cases stores with
      | nil =>
          simp only [advance, hpc, hgoto]
          cases ok with
          | false => exact (by decide : (1 : ℕ) < 3)
          | true => exact (by decide : (2 : ℕ) < 3)
      | cons store stores =>
          simp only [advance, hpc]
          change work len ((s.goto a (.filling stores ok current index _)).pc a) < _
          rw [hgoto]
          change stores.length + 3 < (store :: stores).length + 3
          rw [List.length_cons]
          omega
  | publish current index content =>
      simp only [advance, hpc]
      change work len ((s.goto a .release).pc a) < _
      rw [hgoto]
      exact (by decide : (1 : ℕ) < 2)
  | release =>
      simp only [advance, hpc]
      change work len ((s.goto a .idle).pc a) < _
      rw [hgoto]
      exact Nat.zero_lt_one
  | load tries =>
      simp only [advance, hpc, hgoto]
      split
      · exact Nat.succ_pos _
      · exact Nat.lt_succ_self _
  | pin tries token =>
      simp only [advance, hpc]
      change work len ((s.goto a (.recheck tries token)).pc a) < _
      rw [hgoto]
      exact Nat.lt_succ_self _
  | recheck tries token =>
      simp only [advance, hpc, hgoto]
      split
      · change tries * (len + 5) + (len - 0) + 2 < tries * (len + 5) + len + 3
        omega
      · change tries * (len + 5) + 1 < tries * (len + 5) + len + 3
        omega
  | retreat tries token =>
      simp only [advance, hpc]
      change work len ((s.goto a (retries tries)).pc a) < _
      rw [hgoto, work_retries]
      exact Nat.lt_succ_self _
  | copy tries token write copied =>
      simp only [advance, hpc]
      cases hword : (s.buffers (tokenIndex token))[copied.length]? with
      | some word =>
          have hlt := (List.getElem?_eq_some_iff.mp hword).1
          rw [hlength] at hlt
          simp only [hgoto]
          change tries * (len + 5) + (len - (copied ++ [word]).length) + 2 <
            tries * (len + 5) + (len - copied.length) + 2
          rw [List.length_append, List.length_singleton]
          omega
      | none =>
          simp only
          change work len ((s.goto a (.confirm tries token write copied)).pc a) < _
          rw [hgoto]
          change tries * (len + 5) + 1 < tries * (len + 5) + (len - copied.length) + 2
          omega
  | confirm tries token write copied =>
      simp only [advance, hpc]
      split
      · change work len ((s.goto a .idle).pc a) < _
        rw [hgoto]
        exact Nat.succ_pos _
      · rw [hgoto, work_retries]
        exact Nat.lt_succ_self _

omit [DecidableEq A] in
theorem step_some (h : s.pc a ≠ .idle) [DecidableEq A] :
    s.step (.step a) = some (s.advance a) := by
  cases hpc : s.pc a with
  | idle => exact (h hpc).elim
  | _ => simp only [step, hpc]

/-- An action starts a call of an idle agent, or is an access of a call. -/
theorem step_cases {act : Action A W} (hstep : s.step act = some t) :
    (∃ b p, (∀ a, Action.advances a act = false) ∧ s.pc b = .idle ∧ t = s.goto b p) ∨
      ∃ b, act = .step b ∧ s.pc b ≠ .idle ∧ t = s.advance b := by
  cases act with
  | tryWriteWith b fill =>
      cases hpc : s.pc b with
      | idle =>
          simp only [step, hpc] at hstep
          exact .inl ⟨b, _, fun _ => rfl, hpc, (Option.some.inj hstep).symm⟩
      | _ => simp [step, hpc] at hstep
  | read b =>
      cases hpc : s.pc b with
      | idle =>
          simp only [step, hpc] at hstep
          exact .inl ⟨b, _, fun _ => rfl, hpc, (Option.some.inj hstep).symm⟩
      | _ => simp [step, hpc] at hstep
  | step b =>
      by_cases hidle : s.pc b = .idle
      · simp [step, hidle] at hstep
      · rw [step_some hidle] at hstep
        exact .inr ⟨b, rfl, hidle, (Option.some.inj hstep).symm⟩

theorem length_step {len : ℕ} {act : Action A W} (h : ∀ i, (s.buffers i).length = len)
    (hstep : s.step act = some t) : ∀ i, (t.buffers i).length = len := by
  obtain ⟨b, p, -, -, rfl⟩ | ⟨b, -, -, rfl⟩ := step_cases hstep
  · exact h
  · exact length_advance h b

/-- A call makes no more accesses than that before it ends, whatever the others do. -/
theorem exec_work_le {len : ℕ} {acts : List (Action A W)}
    (hlength : ∀ i, (s.buffers i).length = len)
    (hbusy : Meets State.step (fun s _ => s.pc a ≠ .idle) s acts)
    (hrun : exec State.step s acts = some t) :
    acts.countP (Action.advances a) + work len (t.pc a) ≤ work len (s.pc a) := by
  induction acts generalizing s with
  | nil =>
      obtain rfl := Option.some.inj hrun
      rw [List.countP_nil, Nat.zero_add]
  | cons act rest ih =>
      obtain ⟨u, hu, hrest⟩ := Option.bind_eq_some_iff.mp hrun
      obtain ⟨hidle, hmeets⟩ := hbusy
      rw [List.countP_cons]
      obtain ⟨b, p, hstart, hb, rfl⟩ | ⟨b, rfl, hb, rfl⟩ := step_cases hu
      · have hne : a ≠ b := by
          rintro rfl
          exact hidle hb
        have hle := ih (s := s.goto b p) hlength (hmeets _ hu) hrest
        rw [gotoPc, Function.update_of_ne hne] at hle
        rw [hstart a]
        exact hle
      · have hle := ih (length_advance hlength b) (hmeets (s.advance b) hu) hrest
        by_cases hab : b = a
        · subst hab
          have hlt := work_advance_lt hlength hb
          simp only [Action.advances, decide_true, if_true]
          omega
        · rw [advance_pc_of_ne (Ne.symm hab)] at hle
          simp only [Action.advances, hab, decide_false, if_false, Bool.false_eq_true]
          exact hle

/-- In every run, a snapshot that is returned is exactly the content that one write published, and
its generation is the number of that write modulo 2^63. While there are fewer writes than that,
the generation tells the write and does not decrease from one read of a reader to its next. A call
is never blocked, and the number of its accesses is bounded, whatever the others do. -/
theorem snapshots_run (zeroed : List W) (acts : List (Action A W)) (s : State A W)
    (hrun : exec State.step (new zeroed) acts = some s) :
    (∀ r ∈ s.returned, s.writes[r.write]? = some r.snapshot ∧
      r.generation.toNat = (r.write + 1) % 2 ^ 63) ∧
    (s.writes.length < 2 ^ 63 →
      (∀ r ∈ s.returned, ∀ r' ∈ s.returned, r.generation = r'.generation → r.write = r'.write) ∧
      s.returned.Pairwise fun r r' => r.reader = r'.reader → r.generation ≤ r'.generation) ∧
    ∀ a, s.pc a ≠ .idle → (∃ t, s.step (.step a) = some t) ∧
      ∃ bound, ∀ later t, Meets State.step (fun s _ => s.pc a ≠ .idle) s later →
        exec State.step s later = some t → later.countP (Action.advances a) ≤ bound := by
  have hinv := (inv_new zeroed).exec hrun
  have hlength : ∀ i, (s.buffers i).length = zeroed.length := by
    refine exec_preserves (fun _ _ _ hs hstep => length_step hs hstep) ?_ hrun
    exact fun i => rfl
  refine ⟨hinv.returned, fun hfew => ?_, fun a hbusy => ⟨⟨_, step_some hbusy⟩, work zeroed.length
    (s.pc a), fun later t hmeets hlater => ?_⟩⟩
  · have hnumber {r : Returned A W} (hr : r ∈ s.returned) : r.generation.toNat = r.write + 1 := by
      obtain ⟨hwritten, hgeneration⟩ := hinv.returned r hr
      have hwrite := (List.getElem?_eq_some_iff.mp hwritten).1
      rw [hgeneration, Nat.mod_eq_of_lt (by omega)]
    constructor
    · intro r hr r' hr' heq
      have hsame := congrArg UInt64.toNat heq
      rw [hnumber hr, hnumber hr'] at hsame
      omega
    · refine hinv.ordered.imp_of_mem fun hr hr' hle hreader => ?_
      rw [UInt64.le_iff_toNat_le, hnumber hr, hnumber hr']
      exact Nat.succ_le_succ (hle hreader)
  · have hle := exec_work_le hlength hmeets hlater
    omega

/-- A write with this fill, and so many of its accesses. -/
def aWrite (a : Bool) (fill : Fill ℕ) (n : ℕ) : List (Action Bool ℕ) :=
  .tryWriteWith a fill :: List.replicate n (.step a)

def aRead (n : ℕ) : List (Action Bool ℕ) := .read false :: List.replicate n (.step false)

/-- A read that a second write overtakes reads again. The next write is not published, and one that
meets it does nothing; another one has come to its fill. -/
def overlapping : List (Action Bool ℕ) :=
  aWrite true ⟨[(0, 1), (1, 2)], true⟩ 8 ++ aRead 4 ++ aWrite true ⟨[(0, 3), (1, 4)], true⟩ 8 ++
    List.replicate 10 (.step false) ++ aWrite true ⟨[(0, 5)], false⟩ 5 ++
    aWrite false ⟨[], true⟩ 1 ++ .step true :: aRead 7 ++ aWrite true ⟨[(1, 6)], true⟩ 3

theorem snapshots_run_overlapping : ∃ s : State Bool ℕ,
    exec State.step (new [0, 0]) overlapping = some s ∧
      s.returned.map Returned.snapshot = [[3, 4], [3, 4]] ∧
      (∀ r ∈ s.returned, s.writes[r.write]? = some r.snapshot ∧
        r.generation.toNat = (r.write + 1) % 2 ^ 63) ∧
      (s.returned.Pairwise fun r r' => r.reader = r'.reader → r.generation ≤ r'.generation) ∧
      ∃ t, s.step (.step true) = some t :=
  have h := snapshots_run [0, 0] overlapping _ rfl
  ⟨_, rfl, rfl, h.1, (h.2.1 (by decide)).2, (h.2.2 true fun hpc => nomatch hpc).1⟩

/-- One agent, no words, and no call under way. -/
def quiet (published : UInt64) (writes : List (List Unit)) (returned : List (Returned Unit Unit)) :
    State Unit Unit where
  buffers := fun _ => []
  readers := fun _ => 0
  published := published
  writer := false
  pc := fun _ => .idle
  writes := writes
  returned := returned

variable {published : UInt64} {writes : List (List Unit)} (returned : List (Returned Unit Unit))

theorem exec_quiet_write (h : Published writes.length published) :
    exec State.step (quiet published writes returned)
      (Action.tryWriteWith () ⟨[], true⟩ :: List.replicate 6 (Action.step ())) =
    some (quiet (tokenOf (nextGeneration published) (writes.length % 2)) (writes ++ [[]])
      returned) := by
  have hcandidate := h.candidate
  simp only [exec, step, quiet, goto, List.replicate, Core.exec_cons, advance, triesBuffer,
    Option.bind_fun_some, Option.bind_some, Function.update_self, Bool.false_eq_true, ↓reduceIte,
    Function.update_idem, hcandidate, Function.update_eq_self]

/-- A reader alone gets the last write in its first try. -/
theorem exec_quiet_read (h : Published writes.length published) (hpos : 0 < writes.length) :
    exec State.step (quiet published writes returned)
      (.read () :: List.replicate 5 (.step ())) =
    some (quiet published writes
      (returned ++ [⟨(), [], published >>> 1, writes.length - 1⟩])) := by
  have hne : published ≠ noLatest := fun htoken =>
    Nat.ne_of_gt hpos (h.eq_no_latest_iff.mp htoken)
  simp only [exec, step, quiet, goto, List.replicate, Core.exec_cons, advance,
    Option.bind_fun_some, Option.bind_some, Function.update_self, hne, ↓reduceIte,
    Function.update_idem, zero_add, List.length_nil, lt_self_iff_false, not_false_eq_true,
    getElem?_neg, Nat.sub_self, Function.update_eq_self]

/-- Any number of writes, one after the other. -/
theorem exec_quiet_writes (n : ℕ) (h : Published writes.length published) :
    ∃ acts published' writes', exec State.step (quiet published writes returned) acts =
        some (quiet published' writes' returned) ∧
      writes'.length = writes.length + n ∧ Published writes'.length published' := by
  induction n with
  | zero => exact ⟨[], published, writes, rfl, rfl, h⟩
  | succ n ih =>
      obtain ⟨acts, published', writes', hrun, hlength, hpublished⟩ := ih
      refine ⟨acts ++ Action.tryWriteWith () ⟨[], true⟩ :: List.replicate 6 (Action.step ()),
        tokenOf (nextGeneration published') (writes'.length % 2), writes' ++ [[]], ?_, ?_, ?_⟩
      · exact exec_trans hrun (exec_quiet_write returned hpublished)
      · rw [List.length_append, hlength]
        rfl
      · rw [List.length_append]
        exact hpublished.next

theorem exec_quiet_writes_read (n : ℕ) (h : Published writes.length published)
    (hpos : 0 < writes.length + n) :
    ∃ acts published' writes', exec State.step (quiet published writes returned) acts =
        some (quiet published' writes'
          (returned ++ [⟨(), [], published' >>> 1, writes'.length - 1⟩])) ∧
      writes'.length = writes.length + n ∧ Published writes'.length published' ∧
      (published' >>> 1).toNat = (writes.length + n) % 2 ^ 63 := by
  obtain ⟨acts, published', writes', hrun, hlength, hpublished⟩ :=
    exec_quiet_writes returned n h
  have hread := exec_quiet_read returned hpublished (hlength ▸ hpos)
  refine ⟨acts ++ Action.read () :: List.replicate 5 (Action.step ()), published', writes',
    exec_trans hrun hread, hlength, hpublished, ?_⟩
  rw [hpublished.generation (hlength ▸ hpos), hlength]

/-- A write with generation 1 is read; so is the write 2^63 - 1 later, with generation 0, and the
write after that, with generation 1 again. -/
theorem generations_wrap : ∃ acts, ∃ s : State Unit Unit, exec State.step (new []) acts = some s ∧
    (∃ r ∈ s.returned, ∃ r' ∈ s.returned,
      r.generation = r'.generation ∧ r.write ≠ r'.write) ∧
    ¬ s.returned.Pairwise fun r r' => r.reader = r'.reader → r.generation ≤ r'.generation := by
  have hempty : Published ([] : List (List Unit)).length noLatest := published_zero
  obtain ⟨first, token₁, writes₁, hrun₁, hlength₁, hpublished₁, hgeneration₁⟩ :=
    exec_quiet_writes_read [] 1 hempty (by decide)
  obtain ⟨second, token₂, writes₂, hrun₂, hlength₂, hpublished₂, hgeneration₂⟩ :=
    exec_quiet_writes_read ([] ++ [⟨(), [], token₁ >>> 1, writes₁.length - 1⟩])
      (2 ^ 63 - 1) hpublished₁ (by omega)
  obtain ⟨third, token₃, writes₃, hrun₃, hlength₃, -, hgeneration₃⟩ :=
    exec_quiet_writes_read ([] ++ [⟨(), [], token₁ >>> 1, writes₁.length - 1⟩] ++
      [⟨(), [], token₂ >>> 1, writes₂.length - 1⟩]) 1 hpublished₂ (by omega)
  simp only [List.length_nil] at hlength₁ hgeneration₁
  rw [hlength₁] at hlength₂ hgeneration₂
  rw [hlength₂] at hlength₃ hgeneration₃
  have hrun := exec_trans hrun₁ (exec_trans hrun₂ hrun₃)
  refine ⟨_, _, hrun, ⟨⟨(), [], token₁ >>> 1, writes₁.length - 1⟩, ?_,
    ⟨(), [], token₃ >>> 1, writes₃.length - 1⟩, ?_, ?_, ?_⟩, fun hordered => ?_⟩
  · simp [quiet]
  · simp [quiet]
  · apply UInt64.toNat_inj.mp
    rw [hgeneration₁, hgeneration₃]
    decide
  · simp only
    omega
  · simp only [quiet, List.nil_append, List.cons_append, List.pairwise_cons] at hordered
    have hle := hordered.1 _ List.mem_cons_self trivial
    rw [UInt64.le_iff_toNat_le, hgeneration₁, hgeneration₂] at hle
    exact absurd hle (by decide)

end State

end Probing.Stacktrace
