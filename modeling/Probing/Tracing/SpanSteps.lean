import Probing.Tracing.SpanRows

/-!
# The steps of spans

Entering and exiting concern one span, and so does every access of an event or of a close.
-/

namespace Probing.Tracing

namespace State

variable {T : Type} [DecidableEq T] {s t : State T} {a : T} {span : ℕ}

theorem goto_calls (s : State T) (a : T) (c : Call) :
    (s.goto a c).calls = Function.update s.calls a c := rfl

theorem call_of_update {c : Call} (hcalls : t.calls = Function.update s.calls a c) (b : T) :
    b = a ∧ t.calls b = c ∨ b ≠ a ∧ t.calls b = s.calls b := by
  rw [hcalls]
  by_cases hb : b = a
  · exact .inl ⟨hb, hb ▸ Function.update_self _ _ _⟩
  · exact .inr ⟨hb, Function.update_of_ne hb _ _⟩

/-- Only the thread that moves may be about the start row. -/
theorem starts_of_update {c : Call} (hcalls : t.calls = Function.update s.calls a c)
    (hone : ∀ b, (s.calls b).starts span → b = a) (b : T) (hb : (t.calls b).starts span) :
    b = a := by
  obtain ⟨heq, -⟩ | ⟨-, hsame⟩ := call_of_update hcalls b
  · exact heq
  · exact hone b (hsame ▸ hb)

/-- A thread does not come to close the span, nor was it closing it. -/
theorem closes_of_update {c : Call} (hcalls : t.calls = Function.update s.calls a c)
    (hnew : ¬ c.closes span) (hold : ¬ (s.calls a).closes span) (b : T) :
    t.calls b = s.calls b ∨ ¬ (t.calls b).closes span ∧ ¬ (s.calls b).closes span := by
  obtain ⟨rfl, hb⟩ | ⟨-, hb⟩ := call_of_update hcalls b
  · exact .inr ⟨hb ▸ hnew, hold⟩
  · exact .inl hb

/-- A thread moves between calls that neither start nor close the span. -/
theorem Frames.of_goto (c : Call) (hcalls : t.calls = Function.update s.calls a c)
    (hnew : ¬ c.closes span ∧ ¬ c.starts span)
    (hold : ¬ (s.calls a).closes span ∧ ¬ (s.calls a).starts span)
    (hlive : ∀ j, t.Live j span ↔ s.Live j span) (hdeferred : t.deferred span = s.deferred span)
    (hpersisted : t.startPersisted span = s.startPersisted span)
    (hends : t.rows.count (.end span) = s.rows.count (.end span))
    (hstarts : t.rows.count (.start span) = s.rows.count (.start span)) : Frames s t span where
  live := hlive
  deferred := hdeferred
  persisted := hpersisted
  calls b := by
    obtain ⟨rfl, hb⟩ | ⟨-, hb⟩ := call_of_update hcalls b
    · exact .inr ⟨hb ▸ hnew.1, hb ▸ hnew.2, hold⟩
    · exact .inl hb
  ends := hends
  starts := hstarts

/-- Only calls change. -/
theorem Frames.goto (c : Call) (hnew : ¬ c.closes span ∧ ¬ c.starts span)
    (hold : ¬ (s.calls a).closes span ∧ ¬ (s.calls a).starts span) :
    Frames s (s.goto a c) span :=
  .of_goto c rfl hnew hold (fun _ => Iff.rfl) rfl rfl rfl rfl

omit [DecidableEq T] in
/-- Only handles change, and none that is live. -/
theorem Frames.of_handles (hcalls : t.calls = s.calls)
    (hlive : ∀ j, t.Live j span ↔ s.Live j span) (hdeferred : t.deferred = s.deferred)
    (hpersisted : t.startPersisted = s.startPersisted) (hrows : t.rows = s.rows) :
    Frames s t span where
  live := hlive
  deferred := congrFun hdeferred span
  persisted := congrFun hpersisted span
  calls b := .inl (congrFun hcalls b)
  ends := congrArg (List.count _) hrows
  starts := congrArg (List.count _) hrows

omit [DecidableEq T] in
/-- A span that is not closed keeps its stage when only its start row moves on. -/
theorem Stage.started (h : s.Stage span)
    (hopen : s.deferred span = true ∨ ∃ b, (s.calls b).starts span)
    (hlive : ∀ j, t.Live j span ↔ s.Live j span) (hdeferred : t.deferred span = s.deferred span)
    (hcalls : ∀ b, t.calls b = s.calls b ∨
      ¬ (t.calls b).closes span ∧ ¬ (s.calls b).closes span)
    (hends : t.rows.count (.end span) = s.rows.count (.end span))
    (hstarted : s.Started span → t.Started span) : t.Stage span := by
  refine h.moves hlive hdeferred hcalls hends hstarted fun hfalse hstarters => ?_
  obtain htrue | ⟨b, hb⟩ := hopen
  · rw [hfalse] at htrue
    exact (nomatch htrue)
  · exact (hstarters b hb).elim

omit [DecidableEq T] in
/-- The stage of a span whose start row a call is about. -/
theorem Stage.started_of_starts (h : s.Stage span) {b : T} (hb : (s.calls b).starts span) :
    s.Started span := by
  cases h with
  | live k _ _ _ _ _ hstarted => exact hstarted
  | popping b _ _ _ _ _ hstarted => exact hstarted
  | closing b _ _ _ _ _ hstarted => exact hstarted
  | closed _ _ _ hstarters _ _ => exact (hstarters b hb).elim

omit [DecidableEq T] in
theorem Inv.lt_of_starts (h : s.Inv) {b : T} (hb : (s.calls b).starts span) : span < s.next :=
  Nat.lt_of_not_le fun hle => (h.fresh span hle).starters b hb

omit [DecidableEq T] in
theorem Inv.lt_of_closes (h : s.Inv) {b : T} (hb : (s.calls b).closes span) : span < s.next :=
  Nat.lt_of_not_le fun hle => (h.fresh span hle).closers b hb

omit [DecidableEq T] in
theorem Inv.lt_of_deferred (h : s.Inv) (hspan : s.deferred span = true) : span < s.next := by
  refine Nat.lt_of_not_le fun hle => ?_
  rw [(h.fresh span hle).deferred] at hspan
  exact (nomatch hspan)

omit [DecidableEq T] in
/-- A step that leaves the stacks, the parents and the handles. -/
theorem Inv.stacksOf_calls (h : s.Inv) (hspans : t.spans = s.spans) (hhints : t.hints = s.hints)
    (hentered : t.entered = s.entered) (hended : t.ended = s.ended) (hnext : t.next = s.next)
    (hhandles : t.handles = s.handles) (hcreated : t.created = s.created) : t.Stacks :=
  h.stacked.of_same hspans hhints hentered hended (Nat.le_of_eq hnext.symm)
    (fun k span hk => by rw [Live, hhandles]; exact hk) (hcreated ▸ h.stacked.created)

/-- A call that is about one span moves on. -/
theorem Frames.of_other {other : ℕ} (hother : other ≠ span) (c : Call)
    (hcalls : t.calls = Function.update s.calls a c)
    (hnew : ¬ c.closes other ∧ ¬ c.starts other)
    (hold : ¬ (s.calls a).closes other ∧ ¬ (s.calls a).starts other)
    (hhandles : t.handles = s.handles)
    (hdeferred : t.deferred = s.deferred ∨ ∃ d, t.deferred = Function.update s.deferred span d)
    (hpersisted : t.startPersisted = s.startPersisted ∨
      ∃ d, t.startPersisted = Function.update s.startPersisted span d)
    (hends : t.rows.count (.end other) = s.rows.count (.end other))
    (hstarts : t.rows.count (.start other) = s.rows.count (.start other)) : Frames s t other := by
  have hfield {f g : ℕ → Bool} (hfg : g = f ∨ ∃ d, g = Function.update f span d) :
      g other = f other := by
    obtain rfl | ⟨d, rfl⟩ := hfg
    · rfl
    · exact Function.update_of_ne hother _ _
  exact .of_goto c hcalls hnew hold (fun j => by rw [Live, Live, hhandles]) (hfield hdeferred)
    (hfield hpersisted) hends hstarts

/-- An event looks for the start row of its span. -/
theorem Inv.persistEvent (h : s.Inv) (hcall : s.calls a = .persistEvent span)
    (hallows : s.Allows (.persistEvent span))
    (hadvance : s.advance a (.persistEvent span) = some t) :
    t.Inv := by
  obtain rfl := Option.some.inj hadvance
  have hstacks (c : Call) : (s.goto a c).Stacks := h.stacksOf_calls rfl rfl rfl rfl rfl rfl rfl
  have hold (other : ℕ) : ¬ (s.calls a).closes other ∧ ¬ (s.calls a).starts other := by
    rw [hcall]
    exact ⟨id, id⟩
  split
  · exact h.frames (hstacks _) rfl rfl fun other => .goto _ ⟨id, id⟩ (hold other)
  next henabled =>
    have henabled : s.enabled = true := by simpa using henabled
    split
    next hmissing =>
      obtain ⟨hdeferred, hclear⟩ := hmissing
      have hclear : s.startPersisted span = false := by simpa using hclear
      have hnone := hallows henabled hdeferred hclear
      have hlt := h.lt_of_deferred hdeferred
      refine h.frames_but (hstacks _) rfl rfl hlt (fun _ => ?_)
        fun other hother => .goto _ ⟨id, fun heq => hother heq.symm⟩ (hold other)
      refine (h.stage henabled span hlt).started (.inl hdeferred) (fun _ => Iff.rfl) rfl
        (closes_of_update (goto_calls s a _) id (hold span).1) rfl fun hstarted => ?_
      have hcount : s.rows.count (.start span) = 0 := by
        cases hstarted with
        | settled _ hcount =>
            rw [hclear] at hcount
            exact hcount
        | writing _ _ _ _ _ hcount => exact hcount
        | looking b hb => exact (hnone b (hb ▸ rfl)).elim
        | noting b hb => exact (hnone b (hb ▸ rfl)).elim
      exact .writing a (Function.update_self a _ _)
        (starts_of_update (goto_calls s a _) fun b hb => (hnone b hb).elim) hdeferred hclear hcount
    · exact h.frames (hstacks _) rfl rfl fun other => .goto _ ⟨id, id⟩ (hold other)

omit [DecidableEq T] in
/-- The start row that an event found missing. -/
theorem Inv.starting (h : s.Inv) (henabled : s.enabled = true) {c : Call} (hcall : s.calls a = c)
    (hstarts : c.starts span) :
    s.Started span ∧ (∀ b, (s.calls b).starts span → b = a) ∧
      s.startPersisted span = false ∧
      s.rows.count (.start span) = if c = .recordSpanStart span then 0 else 1 := by
  subst hcall
  have hstarted := (h.stage henabled span (h.lt_of_starts hstarts)).started_of_starts hstarts
  refine ⟨hstarted, ?_⟩
  cases hstarted with
  | settled hnone => exact (hnone a hstarts).elim
  | writing b hb hone _ hclear hcount =>
      obtain rfl := hone a hstarts
      exact ⟨hone, hclear, by rw [hb, if_pos rfl, hcount]⟩
  | looking b hb hone _ hclear hcount =>
      obtain rfl := hone a hstarts
      exact ⟨hone, hclear, by rw [hb, if_neg (by simp), hcount]⟩
  | noting b hb hone hclear hcount =>
      obtain rfl := hone a hstarts
      exact ⟨hone, hclear, by rw [hb, if_neg (by simp), hcount]⟩

omit [DecidableEq T] in
/-- The span is still on the table when an event writes its start row. -/
theorem Inv.starting_deferred (h : s.Inv) (henabled : s.enabled = true)
    (hcall : s.calls a = .recordSpanStart span ∨ s.calls a = .getState span) :
    s.deferred span = true := by
  have hstarts : (s.calls a).starts span := by
    obtain hcall | hcall := hcall <;> rw [hcall] <;> rfl
  have hstarted := (h.stage henabled span (h.lt_of_starts hstarts)).started_of_starts hstarts
  cases hstarted with
  | settled hnone => exact (hnone a hstarts).elim
  | writing b _ _ hdeferred => exact hdeferred
  | looking b _ _ hdeferred => exact hdeferred
  | noting b hb hone =>
      obtain rfl := hone a hstarts
      rw [hb] at hcall
      simp at hcall

theorem Inv.recordSpanStart (h : s.Inv) (hcall : s.calls a = .recordSpanStart span)
    (hadvance : s.advance a (.recordSpanStart span) = some t) : t.Inv := by
  obtain rfl := Option.some.inj hadvance
  have hstarts : (s.calls a).starts span := hcall ▸ rfl
  have hlt := h.lt_of_starts hstarts
  have hends (other : ℕ) : (s.rows ++ [Row.start span]).count (Row.end other) =
      s.rows.count (Row.end other) := by simp
  refine h.frames_but (h.stacksOf_calls rfl rfl rfl rfl rfl rfl rfl) rfl rfl hlt
    (fun henabled => ?_) fun other hother => ?_
  · obtain ⟨-, hone, hclear, hcount⟩ := h.starting henabled hcall rfl
    refine (h.stage henabled span hlt).started (.inr ⟨a, hstarts⟩) (fun _ => Iff.rfl) rfl
      (closes_of_update (goto_calls s a _) id (hcall ▸ id)) (hends span) fun _ => ?_
    refine .looking a (Function.update_self a _ _) (starts_of_update (goto_calls s a _) hone)
      (h.starting_deferred henabled (.inl hcall)) hclear ?_
    rw [if_pos rfl] at hcount
    simp [hcount]
  · refine .of_other hother _ (goto_calls s a _) ⟨id, fun heq => hother heq.symm⟩
      (hcall ▸ ⟨id, fun heq => hother heq.symm⟩) rfl (.inl rfl) (.inl rfl) (hends other) ?_
    simp [hother.symm]

theorem Inv.getState (h : s.Inv) (hcall : s.calls a = .getState span)
    (hadvance : s.advance a (.getState span) = some t) : t.Inv := by
  obtain rfl := Option.some.inj hadvance
  have hstarts : (s.calls a).starts span := hcall ▸ rfl
  have hlt := h.lt_of_starts hstarts
  refine h.frames_but (h.stacksOf_calls rfl rfl rfl rfl rfl rfl rfl) rfl rfl hlt
    (fun henabled => ?_) fun other hother => ?_
  · obtain ⟨-, hone, hclear, hcount⟩ := h.starting henabled hcall rfl
    have hdeferred := h.starting_deferred henabled (.inr hcall)
    rw [if_pos hdeferred]
    refine (h.stage henabled span hlt).started (.inr ⟨a, hstarts⟩) (fun _ => Iff.rfl) rfl
      (closes_of_update (goto_calls s a _) id (hcall ▸ id)) rfl fun _ => ?_
    exact .noting a (Function.update_self a _ _) (starts_of_update (goto_calls s a _) hone) hclear
      hcount
  · refine .of_other hother _ (goto_calls s a _) ?_ (hcall ▸ ⟨id, fun heq => hother heq.symm⟩) rfl
      (.inl rfl) (.inl rfl) rfl rfl
    split
    · exact ⟨id, fun heq => hother heq.symm⟩
    · exact ⟨id, id⟩

theorem Inv.setPersisted (h : s.Inv) (hcall : s.calls a = .setPersisted span)
    (hadvance : s.advance a (.setPersisted span) = some t) : t.Inv := by
  obtain rfl := Option.some.inj hadvance
  have hstarts : (s.calls a).starts span := hcall ▸ rfl
  have hlt := h.lt_of_starts hstarts
  refine h.frames_but (h.stacksOf_calls rfl rfl rfl rfl rfl rfl rfl) rfl rfl hlt
    (fun henabled => ?_) fun other hother => ?_
  · obtain ⟨-, hone, -, hcount⟩ := h.starting henabled hcall rfl
    refine (h.stage henabled span hlt).started (.inr ⟨a, hstarts⟩) (fun _ => Iff.rfl) rfl
      (closes_of_update (goto_calls s a _) id (hcall ▸ id)) rfl fun _ => ?_
    refine .settled (fun b hb => ?_) ?_
    · obtain ⟨-, hnew⟩ | ⟨hne, hsame⟩ := call_of_update (goto_calls s a (.recordEvent span)) b
      · exact (hnew ▸ hb : Call.starts span (.recordEvent span)).elim
      · exact hne (hone b (hsame ▸ hb))
    · change _ = if Function.update s.startPersisted span true span then 1 else 0
      rw [Function.update_self]
      exact hcount
  · exact .of_other hother _ (goto_calls s a _) ⟨id, id⟩ (hcall ▸ ⟨id, fun heq => hother heq.symm⟩)
      rfl (.inl rfl) (.inr ⟨true, rfl⟩) rfl rfl

/-- The state of the span is taken off the table, and no event is about to look for it. -/
theorem Inv.popState (h : s.Inv) (hcall : s.calls a = .popState span)
    (hallows : s.Allows (.popState span)) (hadvance : s.advance a (.popState span) = some t) :
    t.Inv := by
  have hcloses : (s.calls a).closes span := hcall ▸ rfl
  have hlt := h.lt_of_closes hcloses
  have hold {other : ℕ} (hother : other ≠ span) :
      ¬ (s.calls a).closes other ∧ ¬ (s.calls a).starts other :=
    hcall ▸ ⟨fun heq => hother heq.symm, id⟩
  rw [State.advance] at hadvance
  obtain rfl := Option.some.inj hadvance
  split
  next hdeferred =>
    refine h.frames_but (h.stacksOf_calls rfl rfl rfl rfl rfl rfl rfl) rfl rfl hlt
      (fun henabled => ?_) fun other hother => .of_other hother _ (goto_calls s a _)
        ⟨fun heq => hother heq.symm, id⟩ (hold hother) rfl (.inr ⟨false, rfl⟩) (.inl rfl) rfl rfl
    have hnone (b : T) := hallows henabled b
    obtain ⟨hlive, hone, hends, hstarted⟩ : (∀ j, ¬ s.Live j span) ∧
        (∀ b, (s.calls b).closes span → b = a) ∧ s.rows.count (.end span) = 0 ∧
          s.Started span := by
      cases h.stage henabled span hlt with
      | live k _ _ _ hclosers => exact (hclosers a hcloses).elim
      | popping b hb hlive _ hone hends hstarted =>
          obtain rfl := hone a hcloses
          exact ⟨hlive, hone, hends, hstarted⟩
      | closing b hb hlive _ hone hends hstarted =>
          obtain rfl := hone a hcloses
          exact ⟨hlive, hone, hends, hstarted⟩
      | closed _ _ hclosers => exact (hclosers a hcloses).elim
    have honly (b : T)
      (hb : Call.closes span (Function.update s.calls a (.persistOnClose span) b)) :
        b = a := by
      by_contra hne
      rw [Function.update_of_ne hne] at hb
      exact hne (hone b hb)
    refine .closing a (Function.update_self a _ _) hlive (Function.update_self span _ _) honly
      hends ?_
    have hstarts (b : T)
      (hb : Call.starts span (Function.update s.calls a (.persistOnClose span) b)) :
        (s.calls b).starts span := by
      by_cases heq : b = a
      · subst heq
        rw [Function.update_self] at hb
        exact hb.elim
      · rw [Function.update_of_ne heq] at hb
        exact hb
    cases hstarted with
    | settled hsettled hcount => exact .settled (fun b hb => hsettled b (hstarts b hb)) hcount
    | writing b hb => exact ((hnone b).1 hb).elim
    | looking b hb => exact ((hnone b).2 hb).elim
    | noting b hb honly' hclear hcount =>
        have hne : b ≠ a := by
          rintro rfl
          exact (nomatch hb.symm.trans hcall)
        exact .noting b ((Function.update_of_ne hne _ _).trans hb)
          (fun c hc => honly' c (hstarts c hc)) hclear hcount
  next hpopped =>
    refine h.frames_but (h.stacksOf_calls rfl rfl rfl rfl rfl rfl rfl) rfl rfl hlt
      (fun henabled => ?_) fun other hother => .goto _ ⟨id, id⟩ (hold hother)
    have henabled : s.enabled = true := henabled
    cases h.stage henabled span hlt with
    | live k _ _ hdeferred => exact (hpopped hdeferred).elim
    | popping b _ _ hdeferred => exact (hpopped hdeferred).elim
    | closing b hb _ _ hone =>
        obtain rfl := hone a hcloses
        exact (nomatch hb.symm.trans hcall)
    | closed _ _ hclosers => exact (hclosers a hcloses).elim

/-- A span whose state was taken off the table is closed, and no event is about to note that it
has written the start row. -/
theorem Inv.persistOnClose (h : s.Inv) (hcall : s.calls a = .persistOnClose span)
    (hallows : s.Allows (.persistOnClose span))
    (hadvance : s.advance a (.persistOnClose span) = some t) : t.Inv := by
  have hcloses : (s.calls a).closes span := hcall ▸ rfl
  have hlt := h.lt_of_closes hcloses
  obtain rfl := Option.some.inj hadvance
  refine h.frames_but (h.stacksOf_calls rfl rfl rfl rfl rfl rfl rfl) rfl rfl hlt
    (fun henabled => ?_) fun other hother => ?_
  · have henabled : s.enabled = true := henabled
    obtain ⟨hlive, hdeferred, hone, hends, hstarted⟩ : (∀ j, ¬ s.Live j span) ∧
        s.deferred span = false ∧ (∀ b, (s.calls b).closes span → b = a) ∧
          s.rows.count (.end span) = 0 ∧ s.Started span := by
      cases h.stage henabled span hlt with
      | live k _ _ _ hclosers => exact (hclosers a hcloses).elim
      | popping b hb _ _ hone =>
          obtain rfl := hone a hcloses
          exact (nomatch hb.symm.trans hcall)
      | closing b hb hlive hdeferred hone hends hstarted =>
          obtain rfl := hone a hcloses
          exact ⟨hlive, hdeferred, hone, hends, hstarted⟩
      | closed _ _ hclosers => exact (hclosers a hcloses).elim
    obtain ⟨hnone, hcount⟩ : (∀ b, ¬ (s.calls b).starts span) ∧
        s.rows.count (.start span) = if s.startPersisted span then 1 else 0 := by
      cases hstarted with
      | settled hnone hcount => exact ⟨hnone, hcount⟩
      | writing b _ _ htrue =>
          rw [hdeferred] at htrue
          exact (nomatch htrue)
      | looking b _ _ htrue =>
          rw [hdeferred] at htrue
          exact (nomatch htrue)
      | noting b hb _ hclear => exact (hallows henabled hclear b hb).elim
    refine .closed hlive hdeferred (fun b hb => ?_) (fun b hb => ?_) ?_ ?_
    · obtain ⟨-, hnew⟩ | ⟨hne, hsame⟩ := call_of_update (goto_calls s a .idle) b
      · exact (hnew ▸ hb : Call.closes span .idle).elim
      · exact hne (hone b (hsame ▸ hb))
    · obtain ⟨-, hnew⟩ | ⟨-, hsame⟩ := call_of_update (goto_calls s a .idle) b
      · exact (hnew ▸ hb : Call.starts span .idle).elim
      · exact hnone b (hsame ▸ hb)
    · cases hstart : s.startPersisted span <;> simp [henabled, hends]
    · cases hstart : s.startPersisted span <;> simp [henabled, hcount, hstart]
  · have hne : span ≠ other := hother.symm
    refine .of_other hother _ (goto_calls s a _) ⟨id, id⟩
      (hcall ▸ ⟨fun heq => hne heq, id⟩) rfl (.inl rfl) (.inl rfl) ?_ ?_
    · cases s.enabled <;> cases s.startPersisted span <;> simp [hne]
    · cases s.enabled <;> cases s.startPersisted span <;> simp [hne]

/-- A call goes on. -/
theorem Inv.advance (h : s.Inv) (hallows : s.Allows (s.calls a))
    (hadvance : s.advance a (s.calls a) = some t) : t.Inv := by
  cases hcall : s.calls a with
  | idle =>
      rw [hcall] at hadvance
      exact (nomatch hadvance)
  | addEvent span =>
      rw [hcall] at hadvance
      obtain rfl := Option.some.inj hadvance
      refine h.frames (h.stacksOf_calls rfl rfl rfl rfl rfl rfl rfl) rfl rfl fun other =>
        .goto _ ?_ (hcall ▸ ⟨id, id⟩)
      split <;> exact ⟨id, id⟩
  | persistEvent span => exact h.persistEvent hcall (hcall ▸ hallows) (hcall ▸ hadvance)
  | recordSpanStart span => exact h.recordSpanStart hcall (hcall ▸ hadvance)
  | getState span => exact h.getState hcall (hcall ▸ hadvance)
  | setPersisted span => exact h.setPersisted hcall (hcall ▸ hadvance)
  | recordEvent span =>
      rw [hcall] at hadvance
      obtain rfl := Option.some.inj hadvance
      exact h.frames (h.stacksOf_calls rfl rfl rfl rfl rfl rfl rfl) rfl rfl fun other =>
        .of_goto _ (goto_calls s a _) ⟨id, id⟩ (hcall ▸ ⟨id, id⟩) (fun _ => Iff.rfl) rfl rfl
          (by simp) (by simp)
  | popState span => exact h.popState hcall (hcall ▸ hallows) (hcall ▸ hadvance)
  | persistOnClose span => exact h.persistOnClose hcall (hcall ▸ hallows) (hcall ▸ hadvance)

end State

end Probing.Tracing
