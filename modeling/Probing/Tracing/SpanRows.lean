import Mathlib.Data.Fintype.Basic
import Probing.Core.Run
import Probing.Tracing.SpanStacks

/-!
# The rows of a span

The start row of a span is written by its first event or when the span is closed. Two events that
both find it missing write it twice, and so do an event and a close that do not see each other.
-/

namespace Probing.Tracing

open Probing.Core (exec exec_invariant Meets)

namespace Call

/-- An event is about to write the start row of the span, or to note that it has. -/
def starts (span : ℕ) : Call → Prop
  | recordSpanStart i | getState i | setPersisted i => i = span
  | _ => False

/-- The span is being closed. -/
def closes (span : ℕ) : Call → Prop
  | popState i | persistOnClose i => i = span
  | _ => False

instance (span : ℕ) : DecidablePred (starts span)
  | recordSpanStart i | getState i | setPersisted i => inferInstanceAs (Decidable (i = span))
  | idle | addEvent _ | persistEvent _ | recordEvent _ | popState _ | persistOnClose _ =>
      .isFalse not_false

end Call

namespace State

variable {T : Type}

/-- No two calls write the start row of one span. -/
def Allows (s : State T) : Call → Prop
  | .persistEvent span => s.enabled = true → s.deferred span = true →
      s.startPersisted span = false → ∀ b, ¬ (s.calls b).starts span
  | .popState span => s.enabled = true →
      ∀ b, s.calls b ≠ .recordSpanStart span ∧ s.calls b ≠ .getState span
  | .persistOnClose span => s.enabled = true → s.startPersisted span = false →
      ∀ b, s.calls b ≠ .setPersisted span
  | _ => True

/-- A span is exited on the thread that entered it, and no two calls write its start row. -/
def Undisturbed (s : State T) : Action T → Prop
  | .exit a handle => ∀ r ∈ s.handles[handle]?, r.reentrant = false → r.span ∈ s.entered a
  | .step a => s.Allows (s.calls a)
  | _ => True

instance [Fintype T] (s : State T) : DecidablePred s.Allows
  | .persistEvent span => inferInstanceAs (Decidable (s.enabled = true → s.deferred span = true →
      s.startPersisted span = false → ∀ b, ¬ (s.calls b).starts span))
  | .popState span => inferInstanceAs (Decidable (s.enabled = true →
      ∀ b, s.calls b ≠ .recordSpanStart span ∧ s.calls b ≠ .getState span))
  | .persistOnClose span => inferInstanceAs (Decidable (s.enabled = true →
      s.startPersisted span = false → ∀ b, s.calls b ≠ .setPersisted span))
  | .idle | .addEvent _ | .recordSpanStart _ | .getState _ | .setPersisted _
  | .recordEvent _ => .isTrue trivial

instance [Fintype T] (s : State T) : ∀ act, Decidable (s.Undisturbed act)
  | .exit a handle => inferInstanceAs
      (Decidable (∀ r ∈ s.handles[handle]?, r.reentrant = false → r.span ∈ s.entered a))
  | .step a => inferInstanceAs (Decidable (s.Allows (s.calls a)))
  | .enter _ _ | .event _ | .addEvent _ _ | .recordSpan _ => .isTrue trivial

/-- What span stacks promise. -/
structure Good (s : State T) : Prop where
  parents : ∀ c ∈ s.created, c.parent = c.innermost
  emptied : (∀ r ∈ s.handles, r.exited = true) → ∀ a, s.spans a = [] ∧ s.hints a = []
  rows : s.enabled = true → (∀ r ∈ s.handles, r.exited = true) →
    (∀ a span, ¬ (s.calls a).closes span) → ∀ span < s.next,
      s.rows.count (.start span) = 1 ∧ s.rows.count (.end span) = 1

/-- The start row of a span that is not closed: at most one event is about it. -/
inductive Started (s : State T) (span : ℕ) : Prop
  | settled (hnone : ∀ b, ¬ (s.calls b).starts span)
      (hcount : s.rows.count (.start span) = if s.startPersisted span then 1 else 0)
  | writing (a : T) (hcall : s.calls a = .recordSpanStart span)
      (hone : ∀ b, (s.calls b).starts span → b = a) (hdeferred : s.deferred span = true)
      (hclear : s.startPersisted span = false) (hcount : s.rows.count (.start span) = 0)
  | looking (a : T) (hcall : s.calls a = .getState span)
      (hone : ∀ b, (s.calls b).starts span → b = a) (hdeferred : s.deferred span = true)
      (hclear : s.startPersisted span = false) (hcount : s.rows.count (.start span) = 1)
  | noting (a : T) (hcall : s.calls a = .setPersisted span)
      (hone : ∀ b, (s.calls b).starts span → b = a)
      (hclear : s.startPersisted span = false) (hcount : s.rows.count (.start span) = 1)

/-- How far a span is: entered, about to be taken off the table, taken off, or closed. -/
inductive Stage (s : State T) (span : ℕ) : Prop
  | live (k : ℕ) (hlive : s.Live k span) (hone : ∀ j, s.Live j span → j = k)
      (hdeferred : s.deferred span = true) (hclosers : ∀ b, ¬ (s.calls b).closes span)
      (hends : s.rows.count (.end span) = 0) (hstarted : s.Started span)
  | popping (a : T) (hcall : s.calls a = .popState span) (hnone : ∀ j, ¬ s.Live j span)
      (hdeferred : s.deferred span = true) (hclosers : ∀ b, (s.calls b).closes span → b = a)
      (hends : s.rows.count (.end span) = 0) (hstarted : s.Started span)
  | closing (a : T) (hcall : s.calls a = .persistOnClose span) (hnone : ∀ j, ¬ s.Live j span)
      (hdeferred : s.deferred span = false) (hclosers : ∀ b, (s.calls b).closes span → b = a)
      (hends : s.rows.count (.end span) = 0) (hstarted : s.Started span)
  | closed (hnone : ∀ j, ¬ s.Live j span) (hdeferred : s.deferred span = false)
      (hclosers : ∀ b, ¬ (s.calls b).closes span) (hstarters : ∀ b, ¬ (s.calls b).starts span)
      (hends : s.rows.count (.end span) = 1) (hstarts : s.rows.count (.start span) = 1)

/-- A number that no span has yet. -/
structure Fresh (s : State T) (span : ℕ) : Prop where
  live : ∀ j, ¬ s.Live j span
  deferred : s.deferred span = false
  persisted : s.startPersisted span = false
  closers : ∀ b, ¬ (s.calls b).closes span
  starters : ∀ b, ¬ (s.calls b).starts span
  ends : s.rows.count (.end span) = 0
  starts : s.rows.count (.start span) = 0

/-- Nothing that concerns the rows of the span changes. -/
structure Frames (s t : State T) (span : ℕ) : Prop where
  live : ∀ j, t.Live j span ↔ s.Live j span
  deferred : t.deferred span = s.deferred span
  persisted : t.startPersisted span = s.startPersisted span
  calls : ∀ b, t.calls b = s.calls b ∨ ¬ (t.calls b).closes span ∧ ¬ (t.calls b).starts span ∧
    ¬ (s.calls b).closes span ∧ ¬ (s.calls b).starts span
  ends : t.rows.count (.end span) = s.rows.count (.end span)
  starts : t.rows.count (.start span) = s.rows.count (.start span)

variable {s t : State T} {span : ℕ}

theorem Frames.closes_iff (h : Frames s t span) (b : T) :
    (t.calls b).closes span ↔ (s.calls b).closes span := by
  obtain hsame | ⟨ht, -, hs, -⟩ := h.calls b
  · rw [hsame]
  · exact ⟨fun hb => (ht hb).elim, fun hb => (hs hb).elim⟩

theorem Frames.starts_iff (h : Frames s t span) (b : T) :
    (t.calls b).starts span ↔ (s.calls b).starts span := by
  obtain hsame | ⟨-, ht, -, hs⟩ := h.calls b
  · rw [hsame]
  · exact ⟨fun hb => (ht hb).elim, fun hb => (hs hb).elim⟩

/-- The start row stays as it is while the table and the calls that are about it do. -/
theorem Started.moves (h : s.Started span)
    (hcalls : ∀ b, t.calls b = s.calls b ∨ ¬ (t.calls b).starts span ∧ ¬ (s.calls b).starts span)
    (hdeferred : t.deferred span = s.deferred span)
    (hpersisted : t.startPersisted span = s.startPersisted span)
    (hstarts : t.rows.count (.start span) = s.rows.count (.start span)) : t.Started span := by
  have hold {b : T} (hb : (t.calls b).starts span) : (s.calls b).starts span := by
    obtain hsame | ⟨ht, -⟩ := hcalls b
    · exact hsame ▸ hb
    · exact (ht hb).elim
  have hcall {b : T} {c : Call} (hb : s.calls b = c) (hc : c.starts span) : t.calls b = c := by
    obtain hsame | ⟨-, hs⟩ := hcalls b
    · exact hsame.trans hb
    · exact (hs (hb ▸ hc)).elim
  cases h with
  | settled hnone hcount =>
      refine .settled (fun b hb => hnone b (hold hb)) ?_
      rw [hstarts, hpersisted]
      exact hcount
  | writing a ha hone hd hclear hcount =>
      exact .writing a (hcall ha rfl) (fun b hb => hone b (hold hb)) (hdeferred.trans hd)
        (hpersisted.trans hclear) (hstarts.trans hcount)
  | looking a ha hone hd hclear hcount =>
      exact .looking a (hcall ha rfl) (fun b hb => hone b (hold hb)) (hdeferred.trans hd)
        (hpersisted.trans hclear) (hstarts.trans hcount)
  | noting a ha hone hclear hcount =>
      exact .noting a (hcall ha rfl) (fun b hb => hone b (hold hb)) (hpersisted.trans hclear)
        (hstarts.trans hcount)

theorem Started.frames (h : s.Started span) (hf : Frames s t span) : t.Started span :=
  h.moves (fun b => (hf.calls b).imp_right fun ⟨_, ht, _, hs⟩ => ⟨ht, hs⟩) hf.deferred hf.persisted
    hf.starts

/-- The stage stays while the handles, the table and the closing calls of the span do. -/
theorem Stage.moves (h : s.Stage span) (hlive : ∀ j, t.Live j span ↔ s.Live j span)
    (hdeferred : t.deferred span = s.deferred span)
    (hcalls : ∀ b, t.calls b = s.calls b ∨
      ¬ (t.calls b).closes span ∧ ¬ (s.calls b).closes span)
    (hends : t.rows.count (.end span) = s.rows.count (.end span))
    (hstarted : s.Started span → t.Started span)
    (hclosed : s.deferred span = false → (∀ b, ¬ (s.calls b).starts span) →
      (∀ b, ¬ (t.calls b).starts span) ∧
        t.rows.count (.start span) = s.rows.count (.start span)) : t.Stage span := by
  have hcloses (b : T) : (t.calls b).closes span ↔ (s.calls b).closes span := by
    obtain hsame | ⟨ht, hs⟩ := hcalls b
    · rw [hsame]
    · exact ⟨fun hb => (ht hb).elim, fun hb => (hs hb).elim⟩
  have hcall {b : T} {c : Call} (hb : s.calls b = c) (hc : c.closes span) : t.calls b = c := by
    obtain hsame | ⟨-, hs⟩ := hcalls b
    · exact hsame.trans hb
    · exact (hs (hb ▸ hc)).elim
  have hnone (hs : ∀ j, ¬ s.Live j span) : ∀ j, ¬ t.Live j span :=
    fun j hj => hs j ((hlive j).mp hj)
  have hone {a : T} (hs : ∀ b, (s.calls b).closes span → b = a) :
      ∀ b, (t.calls b).closes span → b = a := fun b hb => hs b ((hcloses b).mp hb)
  cases h with
  | live k hk hj hs hclosers hzero hstart =>
      exact .live k ((hlive k).mpr hk) (fun j h => hj j ((hlive j).mp h)) (hdeferred.trans hs)
        (fun b hb => hclosers b ((hcloses b).mp hb)) (hends.trans hzero) (hstarted hstart)
  | popping b hb hs hd hclosers hzero hstart =>
      exact .popping b (hcall hb rfl) (hnone hs) (hdeferred.trans hd) (hone hclosers)
        (hends.trans hzero) (hstarted hstart)
  | closing b hb hs hd hclosers hzero hstart =>
      exact .closing b (hcall hb rfl) (hnone hs) (hdeferred.trans hd) (hone hclosers)
        (hends.trans hzero) (hstarted hstart)
  | closed hs hd hclosers hstarters hend hstart =>
      obtain ⟨hstarters', hcount⟩ := hclosed hd hstarters
      exact .closed (hnone hs) (hdeferred.trans hd)
        (fun b hb => hclosers b ((hcloses b).mp hb)) hstarters' (hends.trans hend)
        (hcount.trans hstart)

theorem Stage.frames (h : s.Stage span) (hf : Frames s t span) : t.Stage span :=
  h.moves hf.live hf.deferred
    (fun b => (hf.calls b).imp_right fun ⟨ht, _, hs, _⟩ => ⟨ht, hs⟩) hf.ends
    (fun hstarted => hstarted.frames hf)
    fun _ hstarters => ⟨fun b hb => hstarters b ((hf.starts_iff b).mp hb), hf.starts⟩

theorem Fresh.frames (h : s.Fresh span) (hf : Frames s t span) : t.Fresh span where
  live j hj := h.live j ((hf.live j).mp hj)
  deferred := hf.deferred.trans h.deferred
  persisted := hf.persisted.trans h.persisted
  closers b hb := h.closers b ((hf.closes_iff b).mp hb)
  starters b hb := h.starters b ((hf.starts_iff b).mp hb)
  ends := hf.ends.trans h.ends
  starts := hf.starts.trans h.starts

/-- What holds of every run so far. -/
structure Inv (s : State T) : Prop where
  stacked : s.Stacks
  stage : s.enabled = true → ∀ span < s.next, s.Stage span
  fresh : ∀ span, s.next ≤ span → s.Fresh span

theorem Inv.good (h : s.Inv) : s.Good where
  parents := h.stacked.created
  emptied := h.stacked.eq_nil
  rows henabled hexited hclosers span hspan := by
    cases h.stage henabled span hspan with
    | live k hlive =>
        have hfalse := hexited _ (List.mem_of_getElem? hlive)
        exact (nomatch hfalse)
    | popping a hcall => exact (hclosers a span (hcall ▸ rfl)).elim
    | closing a hcall => exact (hclosers a span (hcall ▸ rfl)).elim
    | closed _ _ _ _ hends hstarts => exact ⟨hstarts, hends⟩

/-- Every span is framed. -/
theorem Inv.frames (h : s.Inv) (hstacks : t.Stacks) (henabled : t.enabled = s.enabled)
    (hnext : t.next = s.next) (hf : ∀ span, Frames s t span) : t.Inv where
  stacked := hstacks
  stage ht span hspan := (h.stage (henabled ▸ ht) span (hnext ▸ hspan)).frames (hf span)
  fresh span hspan := (h.fresh span (hnext ▸ hspan)).frames (hf span)

/-- Every span but one is framed. -/
theorem Inv.frames_but (h : s.Inv) (hstacks : t.Stacks) (henabled : t.enabled = s.enabled)
    (hnext : t.next = s.next) {span : ℕ} (hlt : span < s.next)
    (hstage : t.enabled = true → t.Stage span)
    (hf : ∀ other ≠ span, Frames s t other) : t.Inv where
  stacked := hstacks
  stage ht other hother := by
    by_cases heq : other = span
    · subst heq
      exact hstage ht
    · exact (h.stage (henabled ▸ ht) other (hnext ▸ hother)).frames (hf other heq)
  fresh other hother := by
    rw [hnext] at hother
    exact (h.fresh other hother).frames (hf other (by omega))

end State

end Probing.Tracing
