import Mathlib.Data.List.Nodup
import Probing.Tracing.Spans

/-!
# The stacks of a thread

When every span is exited on the thread that entered it, the stacks of a thread hold the spans
that it has entered and that have not ended, and nothing else.
-/

namespace Probing.Tracing

theorem popSpan_eq_erase (stack : List ℕ) (span : ℕ) : popSpan stack span = stack.erase span := by
  rw [popSpan]
  split
  next htop =>
    cases stack with
    | nil => rfl
    | cons top rest =>
        obtain rfl := Option.some.inj htop
        exact (List.erase_cons_head _ _).symm
  · rfl

namespace State

variable {T : Type}

/-- A handle that was entered with a span of its own, and was not exited. -/
def Live (s : State T) (k span : ℕ) : Prop := s.handles[k]? = some ⟨span, false, false⟩

structure Stacks (s : State T) : Prop where
  spans : ∀ a, s.spans a = (s.entered a).filter fun span => !s.ended span
  hints : ∀ a, s.hints a = (s.entered a).filter fun span => !s.ended span
  nodup : ∀ a, (s.entered a).Nodup
  disjoint : ∀ a b span, span ∈ s.entered a → span ∈ s.entered b → a = b
  bound : ∀ a, ∀ span ∈ s.entered a, span < s.next
  fresh : ∀ span, s.next ≤ span → s.ended span = false
  live : ∀ a, ∀ span ∈ s.entered a, s.ended span = false → ∃ k, s.Live k span
  created : ∀ c ∈ s.created, c.parent = c.innermost

/-- The top of the stack is the innermost span that has not ended. -/
theorem Stacks.currentSpan_eq {s : State T} (h : s.Stacks) (a : T) :
    s.currentSpan a = s.innermost a := by
  rw [currentSpan, innermost, h.spans, List.head?_filter]

/-- Once every handle was exited, the stacks are empty. -/
theorem Stacks.eq_nil {s : State T} (h : s.Stacks) (hexited : ∀ r ∈ s.handles, r.exited = true)
    (a : T) : s.spans a = [] ∧ s.hints a = [] := by
  have hnone : ((s.entered a).filter fun span => !s.ended span) = [] := by
    refine List.filter_eq_nil_iff.mpr fun span hspan hactive => ?_
    have hactive : s.ended span = false := by simpa using hactive
    obtain ⟨k, hk⟩ := h.live a span hspan hactive
    have hfalse := hexited _ (List.mem_of_getElem? hk)
    exact (nomatch hfalse)
  exact ⟨(h.spans a).trans hnone, (h.hints a).trans hnone⟩

variable [DecidableEq T] {s t : State T} {a : T}

omit [DecidableEq T] in
/-- Nothing that concerns the stacks changes. -/
theorem Stacks.of_same (h : s.Stacks) (hspans : t.spans = s.spans) (hhints : t.hints = s.hints)
    (hentered : t.entered = s.entered) (hended : t.ended = s.ended) (hnext : s.next ≤ t.next)
    (hlive : ∀ k span, s.Live k span → t.Live k span)
    (hcreated : ∀ c ∈ t.created, c.parent = c.innermost) : t.Stacks where
  spans := by rw [hspans, hentered, hended]; exact h.spans
  hints := by rw [hhints, hentered, hended]; exact h.hints
  nodup := by rw [hentered]; exact h.nodup
  disjoint := by rw [hentered]; exact h.disjoint
  bound := by
    rw [hentered]
    exact fun a span hspan => Nat.lt_of_lt_of_le (h.bound a span hspan) hnext
  fresh span hspan := by
    rw [hended]
    exact h.fresh span (Nat.le_trans hnext hspan)
  live a span hspan hactive := by
    rw [hentered] at hspan
    rw [hended] at hactive
    obtain ⟨k, hk⟩ := h.live a span hspan hactive
    exact ⟨k, hlive k span hk⟩
  created := hcreated

omit [DecidableEq T] in
/-- A span is spawned from the innermost one. -/
theorem Stacks.spawned (h : s.Stacks) (phase : Option Phase) :
    (s.spawnSpan a phase).Stacks := by
  refine h.of_same rfl rfl rfl rfl (Nat.le_succ _) (fun k span hk => hk) fun c hc => ?_
  obtain hold | hnew := List.mem_append.mp hc
  · exact h.created c hold
  · obtain rfl := List.mem_singleton.mp hnew
    exact h.currentSpan_eq a

/-- A new span is pushed. -/
theorem Stacks.enters (h : s.Stacks) {span : ℕ} (hlt : span < s.next)
    (hactive : s.ended span = false) (hnew : ∀ b, span ∉ s.entered b) :
    (s.enters a span).Stacks := by
  have hpush (kept : T → List ℕ) (hkept : ∀ b, kept b =
      (s.entered b).filter fun span => !s.ended span) (b : T) :
      Function.update kept a (span :: kept a) b =
        (Function.update s.entered a (span :: s.entered a) b).filter fun span => !s.ended span := by
    by_cases hb : b = a
    · subst hb
      rw [Function.update_self, Function.update_self, List.filter_cons_of_pos (by simp [hactive]),
        hkept]
    · rw [Function.update_of_ne hb, Function.update_of_ne hb, hkept]
  have hmem {b : T} {other : ℕ} (hother : other ∈ (s.enters a span).entered b) :
      b = a ∧ other = span ∨ other ∈ s.entered b := by
    change other ∈ Function.update s.entered a (span :: s.entered a) b at hother
    by_cases hb : b = a
    · subst hb
      rw [Function.update_self] at hother
      obtain rfl | hold := List.mem_cons.mp hother
      · exact .inl ⟨rfl, rfl⟩
      · exact .inr hold
    · rw [Function.update_of_ne hb] at hother
      exact .inr hother
  refine ⟨hpush s.spans h.spans, hpush s.hints h.hints, fun b => ?_, fun b c other hb hc => ?_,
    fun b other hother => ?_, h.fresh, fun b other hother hother' => ?_, h.created⟩
  · change (Function.update s.entered a (span :: s.entered a) b).Nodup
    exact (Function.forall_update_iff s.entered fun _ spans => spans.Nodup).mpr
      ⟨List.nodup_cons.mpr ⟨hnew a, h.nodup a⟩, fun b _ => h.nodup b⟩ b
  · obtain ⟨rfl, rfl⟩ | hold := hmem hb
    · obtain ⟨rfl, -⟩ | hold := hmem hc
      · rfl
      · exact (hnew c hold).elim
    · obtain ⟨rfl, rfl⟩ | hold' := hmem hc
      · exact (hnew b hold).elim
      · exact h.disjoint b c other hold hold'
  · obtain ⟨-, rfl⟩ | hold := hmem hother
    · exact hlt
    · exact h.bound b other hold
  · obtain ⟨-, rfl⟩ | hold := hmem hother
    · exact ⟨s.handles.length, List.getElem?_concat_length⟩
    · obtain ⟨k, hk⟩ := h.live b other hold hother'
      have hlength := (List.getElem?_eq_some_iff.mp hk).1
      refine ⟨k, ?_⟩
      change (s.handles ++ [_])[k]? = _
      rw [List.getElem?_append_left hlength]
      exact hk

/-- A span is ended and popped on the thread that entered it. -/
theorem Stacks.exits (h : s.Stacks) {span : ℕ} (hspan : span ∈ s.entered a)
    (hlive : ∀ k other, s.Live k other → other ≠ span → t.Live k other)
    (hspans : t.spans = Function.update s.spans a (popSpan (s.spans a) span))
    (hhints : t.hints = Function.update s.hints a (popSpan (s.hints a) span))
    (hentered : t.entered = s.entered) (hended : t.ended = Function.update s.ended span true)
    (hnext : t.next = s.next) (hcreated : t.created = s.created) : t.Stacks := by
  have hpop (kept : T → List ℕ) (hkept : ∀ b, kept b =
      (s.entered b).filter fun span => !s.ended span) (b : T) :
      Function.update kept a (popSpan (kept a) span) b =
        (s.entered b).filter fun other => !Function.update s.ended span true other := by
    by_cases hb : b = a
    · subst hb
      rw [Function.update_self, popSpan_eq_erase, hkept,
        ((h.nodup b).filter _).erase_eq_filter, List.filter_filter]
      refine List.filter_congr fun other _ => ?_
      by_cases hother : other = span
      · subst hother
        simp
      · rw [Function.update_of_ne hother]
        simp [hother]
    · rw [Function.update_of_ne hb, hkept]
      refine List.filter_congr fun other hother => ?_
      have hne : other ≠ span := by
        rintro rfl
        exact hb (h.disjoint b a other hother hspan)
      rw [Function.update_of_ne hne]
  refine ⟨?_, ?_, ?_, ?_, ?_, fun other hother => ?_, fun b other hother hactive => ?_, ?_⟩
  · rw [hspans, hentered, hended]
    exact hpop s.spans h.spans
  · rw [hhints, hentered, hended]
    exact hpop s.hints h.hints
  · rw [hentered]
    exact h.nodup
  · rw [hentered]
    exact h.disjoint
  · rw [hentered, hnext]
    exact h.bound
  · rw [hnext] at hother
    have hne : other ≠ span := fun heq => Nat.not_lt.mpr hother (heq ▸ h.bound a span hspan)
    rw [hended, Function.update_of_ne hne]
    exact h.fresh other hother
  · rw [hentered] at hother
    rw [hended] at hactive
    have hne : other ≠ span := by
      rintro rfl
      rw [Function.update_self] at hactive
      exact (nomatch hactive)
    rw [Function.update_of_ne hne] at hactive
    obtain ⟨k, hk⟩ := h.live b other hother hactive
    exact ⟨k, hlive k other hk hne⟩
  · rw [hcreated]
    exact h.created

end State

end Probing.Tracing
