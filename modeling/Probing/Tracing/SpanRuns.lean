import Probing.Tracing.SpanSteps

/-!
# Runs of spans

A span is entered, events find it, and it is exited once. Where every span is exited on the thread
that entered it and no two calls write its start row, parents are innermost spans, every stack is
emptied, and every span has one start row and one end row.
-/

namespace Probing.Tracing

open Probing.Core (exec exec_invariant Meets)

namespace State

variable {T : Type} [DecidableEq T] {s t : State T} {a : T} {span : ℕ}

omit [DecidableEq T] in
theorem live_concat {r : RecordedSpan} (hhandles : t.handles = s.handles ++ [r]) (j : ℕ) :
    t.Live j span ↔ s.Live j span ∨ j = s.handles.length ∧ r = ⟨span, false, false⟩ := by
  rw [Live, Live, hhandles, List.getElem?_append]
  split
  next hlt =>
    have hne : j ≠ s.handles.length := Nat.ne_of_lt hlt
    simp [hne]
  next hle =>
    have hnone : s.handles[j]? = none := List.getElem?_eq_none (Nat.not_lt.mp hle)
    rw [hnone, List.getElem?_singleton]
    split
    next hzero =>
      have hj : j = s.handles.length := by omega
      simp [hj]
    next hpos =>
      have hj : j ≠ s.handles.length := by omega
      simp [hj]

omit [DecidableEq T] in
theorem live_set {k : ℕ} {r : RecordedSpan} (hexited : r.exited = true)
    (hhandles : t.handles = s.handles.set k r) (j : ℕ) :
    t.Live j span ↔ j ≠ k ∧ s.Live j span := by
  rw [Live, Live, hhandles, List.getElem?_set]
  split
  next heq =>
    subst heq
    refine ⟨fun hlive => ?_, fun hne => (hne.1 rfl).elim⟩
    split at hlive
    · obtain rfl := Option.some.inj hlive
      cases hexited
    · cases hlive
  next hne =>
    exact ⟨fun hlive => ⟨fun heq => hne heq.symm, hlive⟩, fun hlive => hlive.2⟩

omit [DecidableEq T] in
theorem Inv.lt_of_live (h : s.Inv) {k : ℕ} (hlive : s.Live k span) : span < s.next :=
  Nat.lt_of_not_le fun hle => (h.fresh span hle).live k hlive

omit [DecidableEq T] in
/-- Every span but a new one is framed. -/
theorem Inv.frames_new (h : s.Inv) (hstacks : t.Stacks) (henabled : t.enabled = s.enabled)
    (hnext : t.next = s.next + 1) (hstage : t.enabled = true → t.Stage s.next)
    (hf : ∀ other ≠ s.next, Frames s t other) : t.Inv where
  stacked := hstacks
  stage ht other hother := by
    by_cases heq : other = s.next
    · subst heq
      exact hstage ht
    · have hold : other < s.next := by omega
      exact (h.stage (henabled ▸ ht) other hold).frames (hf other heq)
  fresh other hother := by
    have hne : other ≠ s.next := by omega
    exact (h.fresh other (by omega)).frames (hf other hne)

omit [DecidableEq T] in
theorem Inv.new (enabled : Bool) : (new enabled : State T).Inv where
  stacked :=
    { spans := fun _ => rfl
      hints := fun _ => rfl
      nodup := fun _ => List.nodup_nil
      disjoint := fun _ _ _ hspan => (nomatch hspan)
      bound := fun _ _ hspan => (nomatch hspan)
      fresh := fun _ _ => rfl
      live := fun _ _ hspan => (nomatch hspan)
      created := fun _ hc => (nomatch hc) }
  stage _ span hspan := (Nat.not_lt_zero span hspan).elim
  fresh _ _ :=
    { live := fun _ hlive => (nomatch hlive)
      deferred := rfl
      persisted := rfl
      closers := fun _ => id
      starters := fun _ => id
      ends := rfl
      starts := rfl }

omit [DecidableEq T] in
/-- An optimizer span inside another one opens none of its own. -/
theorem Inv.enter_reentrant (h : s.Inv) (existing : ℕ) :
    ({ s with handles := s.handles ++ [⟨existing, true, false⟩] } : State T).Inv := by
  have hlive (j other : ℕ) :
      ({ s with handles := s.handles ++ [⟨existing, true, false⟩] } : State T).Live j other ↔
        s.Live j other := by
    rw [live_concat (s := s) (r := ⟨existing, true, false⟩) rfl]
    simp
  refine h.frames (h.stacked.of_same rfl rfl rfl rfl (Nat.le_refl _)
    (fun j other => (hlive j other).mpr) h.stacked.created) rfl rfl fun other => ?_
  exact .of_handles rfl (fun j => hlive j other) rfl rfl rfl

/-- A span is spawned, pushed and put on the table. -/
theorem Inv.enter_spawned (h : s.Inv) (phase : Option Phase) :
    ((s.spawnSpan a phase).enters a s.next).Inv := by
  have hfresh := h.fresh s.next (Nat.le_refl _)
  have hnew (b : T) : s.next ∉ s.entered b :=
    fun hmem => Nat.lt_irrefl _ (h.stacked.bound b s.next hmem)
  have hlive (j other : ℕ) : ((s.spawnSpan a phase).enters a s.next).Live j other ↔
      s.Live j other ∨ j = s.handles.length ∧ other = s.next := by
    rw [live_concat (s := s) rfl]
    simp [eq_comm]
  refine h.frames_new ((h.stacked.spawned phase).enters (Nat.lt_succ_self _)
    (h.stacked.fresh s.next (Nat.le_refl _)) hnew) rfl rfl (fun henabled =>
    ?_) fun other hother => ?_
  · refine .live s.handles.length ((hlive _ _).mpr (.inr ⟨rfl, rfl⟩)) (fun j hj => ?_)
      ((Function.update_self s.next _ _).trans henabled) hfresh.closers hfresh.ends
      (.settled hfresh.starters ?_)
    · obtain hold | ⟨hlength, -⟩ := (hlive j s.next).mp hj
      · exact (hfresh.live j hold).elim
      · exact hlength
    · change s.rows.count _ = if s.startPersisted s.next then 1 else 0
      rw [hfresh.persisted]
      exact hfresh.starts
  · refine ⟨fun j => ?_, Function.update_of_ne hother _ _, rfl, fun b => .inl rfl, rfl, rfl⟩
    rw [hlive]
    simp [hother]

/-- `_RecordedSpan.__enter__` keeps what holds. -/
theorem Inv.enter (h : s.Inv) (phase : Option Phase) : (s.enter a phase).Inv := by
  rw [State.enter]
  split
  next existing _ => exact h.enter_reentrant existing
  · exact h.enter_spawned phase

omit [DecidableEq T] in
/-- Exiting a handle ends what it keeps live and nothing else. -/
theorem live_exit {k : ℕ} {r : RecordedSpan} (hk : s.handles[k]? = some r)
    (hhandles : t.handles = s.handles.set k { r with exited := true })
    (hother : r.reentrant = true ∨ span ≠ r.span) (j : ℕ) : t.Live j span ↔ s.Live j span := by
  rw [live_set rfl hhandles]
  refine ⟨fun hj => hj.2, fun hj => ⟨fun heq => ?_, hj⟩⟩
  subst heq
  obtain rfl := Option.some.inj (hk.symm.trans hj)
  obtain hreentrant | hne := hother
  · exact (nomatch hreentrant)
  · exact hne rfl

/-- `_RecordedSpan.__exit__` of a span that a handle owns, on the thread that entered it. -/
theorem Inv.exit_owned (h : s.Inv) {k : ℕ} (hidle : s.calls a = .idle) (hlive : s.Live k span)
    (howner : span ∈ s.entered a)
    (hspans : t = (({ s with handles := s.handles.set k ⟨span, false, true⟩ } : State T).exits a
      span).goto a (.popState span)) : t.Inv := by
  have hhandles : t.handles = s.handles.set k ⟨span, false, true⟩ := by rw [hspans]; rfl
  have hcalls : t.calls = Function.update s.calls a (.popState span) := by rw [hspans]; rfl
  have hlt := h.lt_of_live hlive
  have hother {other : ℕ} (hne : other ≠ span) (j : ℕ) : t.Live j other ↔ s.Live j other :=
    live_exit hlive hhandles (.inr hne) j
  have hstacks : t.Stacks := by
    refine h.stacked.exits howner (fun j other hj hne => (hother hne j).mpr hj) ?_
      ?_ ?_ ?_ ?_ ?_ <;>
      rw [hspans] <;> rfl
  have hrows : t.rows = s.rows := by rw [hspans]; rfl
  have hdeferred : t.deferred = s.deferred := by rw [hspans]; rfl
  have hpersisted : t.startPersisted = s.startPersisted := by rw [hspans]; rfl
  refine h.frames_but hstacks (by rw [hspans]; rfl) (by rw [hspans]; rfl) hlt (fun henabled => ?_)
    fun other hne => ?_
  · have henabled : s.enabled = true := by rw [hspans] at henabled; exact henabled
    cases h.stage henabled span hlt with
    | live j hj hone hd hclosers hends hstarted =>
        obtain rfl := hone k hlive
        refine .popping a (by rw [hcalls, Function.update_self]) (fun j hj => ?_)
          (by rw [hdeferred, hd]) (fun b hb => ?_) (by rw [hrows, hends]) ?_
        · obtain ⟨hne, hj⟩ := (live_set rfl hhandles j).mp hj
          exact hne (hone j hj)
        · obtain ⟨heq, -⟩ | ⟨-, hsame⟩ := call_of_update hcalls b
          · exact heq
          · exact (hclosers b (hsame ▸ hb)).elim
        · refine hstarted.moves (fun b => ?_) (congrFun hdeferred span) (congrFun hpersisted span)
            (congrArg (List.count _) hrows)
          obtain ⟨rfl, hnew⟩ | ⟨-, hsame⟩ := call_of_update hcalls b
          · exact .inr ⟨hnew ▸ id, hidle ▸ id⟩
          · exact .inl hsame
    | popping _ _ hnone => exact (hnone k hlive).elim
    | closing _ _ hnone => exact (hnone k hlive).elim
    | closed hnone => exact (hnone k hlive).elim
  · exact .of_goto _ hcalls ⟨fun heq => hne heq.symm, id⟩ (hidle ▸ ⟨id, id⟩) (hother hne)
      (by rw [hdeferred]) (by rw [hpersisted]) (by rw [hrows]) (by rw [hrows])

/-- `_RecordedSpan.__exit__` on the thread that entered the span. -/
theorem Inv.exit (h : s.Inv) {k : ℕ} {r : RecordedSpan} (hidle : s.calls a = .idle)
    (hk : s.handles[k]? = some r) (hexited : r.exited = false)
    (howner : r.reentrant = false → r.span ∈ s.entered a) : (s.exit a k r).Inv := by
  rw [State.exit]
  by_cases hr : r.reentrant = true
  · have hlive {t : State T} (ht : t.handles = s.handles.set k { r with exited := true })
        (other j : ℕ) : t.Live j other ↔ s.Live j other := live_exit hk ht (.inl hr) j
    rw [if_pos hr]
    refine h.frames (h.stacked.of_same rfl rfl rfl rfl (Nat.le_refl _)
      (fun j other => (hlive rfl other j).mpr) h.stacked.created) rfl rfl fun other => ?_
    exact .of_handles rfl (hlive rfl other) rfl rfl rfl
  · have hr : r.reentrant = false := by simpa using hr
    obtain ⟨span, reentrant, exited⟩ := r
    obtain rfl : reentrant = false := hr
    obtain rfl : exited = false := hexited
    exact h.exit_owned hidle hk (howner rfl) rfl

omit [DecidableEq T] in
/-- `record_span` writes both rows of a span that no stack holds. -/
theorem Inv.recordSpan (h : s.Inv) : (s.recordSpan a).Inv := by
  rw [State.recordSpan]
  split
  next henabled =>
    have hfresh := h.fresh s.next (Nat.le_refl _)
    have hstacks := h.stacked.spawned (a := a) none
    refine h.frames_new (hstacks.of_same rfl rfl rfl rfl (Nat.le_refl _) (fun _ _ hk => hk)
      hstacks.created) rfl rfl (fun _ => ?_) fun other hother => ?_
    · refine .closed hfresh.live hfresh.deferred hfresh.closers hfresh.starters ?_ ?_
      · simp [hfresh.ends]
      · simp [hfresh.starts]
    · have hne : s.next ≠ other := hother.symm
      exact ⟨fun _ => Iff.rfl, rfl, rfl, fun _ => .inl rfl, by simp [hne],
        by simp [hne]⟩
  · exact h

theorem Inv.step (h : s.Inv) {act : Action T} (hok : s.Undisturbed act)
    (hstep : s.step act = some t) : t.Inv := by
  have hevent {a : T} (span : ℕ) (hidle : s.calls a = .idle) : (s.goto a (.addEvent span)).Inv :=
    h.frames (h.stacksOf_calls rfl rfl rfl rfl rfl rfl rfl) rfl rfl fun other =>
      .goto _ ⟨id, id⟩ (hidle ▸ ⟨id, id⟩)
  cases act with
  | enter a phase =>
      rw [State.step] at hstep
      split at hstep
      · obtain rfl := Option.some.inj hstep
        exact h.enter phase
      · exact (nomatch hstep)
  | exit a k =>
      rw [State.step] at hstep
      split at hstep
      next r hk =>
        split at hstep
        next hready =>
          obtain rfl := Option.some.inj hstep
          exact h.exit hready.1 hk hready.2 (hok r hk)
        · exact (nomatch hstep)
      · exact (nomatch hstep)
  | event a =>
      rw [State.step] at hstep
      split at hstep
      next hidle =>
        split at hstep
        next span _ =>
          obtain rfl := Option.some.inj hstep
          split
          · exact h
          · exact hevent span hidle
        · obtain rfl := Option.some.inj hstep
          exact h
      · exact (nomatch hstep)
  | addEvent a span =>
      rw [State.step] at hstep
      split at hstep
      next hready =>
        obtain rfl := Option.some.inj hstep
        exact hevent span hready.1
      · exact (nomatch hstep)
  | recordSpan a =>
      rw [State.step] at hstep
      split at hstep
      · obtain rfl := Option.some.inj hstep
        exact h.recordSpan
      · exact (nomatch hstep)
  | step a => exact h.advance hok hstep

/-- Spans keep their promises in every run in which each is exited where it was entered and no two
calls write its start row. -/
theorem spans_run (enabled : Bool) (acts : List (Action T)) (s : State T)
    (hok : Meets State.step Undisturbed (new enabled) acts)
    (hrun : exec State.step (new enabled) acts = some s) : s.Good := by
  have hinv : s.Inv :=
    exec_invariant (fun _ _ _ hs hok hstep => hs.step hok hstep) (Inv.new enabled) hok hrun
  exact hinv.good

/-- A span inside another one, each with an event, and a recorded span between the two. -/
def nests : List (Action Bool) :=
  [.enter true none, .event true, .step true, .step true, .step true, .step true, .step true,
    .step true, .recordSpan true, .enter true (some .backward), .exit true 0, .step true,
    .step true, .addEvent false 2, .exit true 1, .step true, .step true, .step false]

theorem spans_run_nests : ∃ s : State Bool, exec State.step (new true) nests = some s ∧
    s.rows = [.start 0, .event 0, .start 1, .end 1, .end 0, .start 2, .end 2] ∧ s.Good :=
  ⟨_, rfl, rfl, spans_run true nests _ (by decide) rfl⟩

/-- A span that one thread enters and another one exits. -/
def crosses : List (Action Bool) := [.enter true none, .exit false 0, .step false, .step false]

/-- Two threads add the first event of a span at once. -/
def races : List (Action Bool) :=
  [Action.enter true none, .event true, .addEvent false 0, .step true, .step false, .step true,
    .step false] ++ List.replicate 4 (Action.step true) ++ List.replicate 4 (Action.step false) ++
    [Action.exit true 0, .step true, .step true]

/-- The stack of the thread that entered a span keeps it after its exit, and gives it as the parent
of the next span; and two events at once write two start rows. -/
theorem spans_broken :
    (∃ s : State Bool, exec State.step (new true) crosses = some s ∧
      (∀ r ∈ s.handles, r.exited = true) ∧ s.spans true = [0] ∧ s.hints true = [0]) ∧
    (∃ s : State Bool, exec State.step (new true) (crosses ++ [Action.enter true none]) = some s ∧
      s.created[1]? = some ⟨some 0, none⟩) ∧
    ∃ s : State Bool, exec State.step (new true) races = some s ∧
      (∀ r ∈ s.handles, r.exited = true) ∧ (∀ a, s.calls a = .idle) ∧
      s.rows.count (.start 0) = 2 :=
  ⟨⟨_, rfl, by decide, rfl, rfl⟩, ⟨_, rfl, rfl⟩, ⟨_, rfl, by decide, by decide, by decide⟩⟩

end State

end Probing.Tracing
