import Probing.Registry.Replication

/-!
# Replication converges in orderly runs

The invariant of replication is kept by every step. With no report in flight it
says that the reporters that remember the current version agree with the
coordinator.
-/

namespace Probing.Registry

open Probing.Core

theorem mem_removedKeys {replaced expired : List String} {key : String} :
    key ∈ removedKeys replaced expired ↔ key ∈ replaced ∨ key ∈ expired := by
  rw [removedKeys, List.mem_dedup, List.mem_insertionSort, List.mem_append]

theorem not_changed {incoming : List Node} {newly_dead removed : List String}
    (h : ¬ changed incoming newly_dead removed = true) :
    incoming = [] ∧ newly_dead = [] ∧ removed = [] := by
  simpa [changed, and_assoc] using h

/-- Nothing is asked of a report with an older version. -/
theorem Report.pending_of_lt {rep : Report} {version : ℕ} {c d : Cluster}
    (h : rep.phase.counted < version) : rep.Pending version c d := by
  unfold Report.Pending
  cases hphase : rep.phase with
  | bumped vb newly_dead removed counted =>
      rw [hphase] at h
      exact fun hnow => absurd hnow h.ne
  | answered resp =>
      rw [hphase] at h
      exact fun hnow => absurd hnow h.ne
  | sent | read | merged | swept => trivial

theorem Report.staged_of_lt {rep : Report} {version : ℕ} {c d : Cluster}
    (h : rep.phase.counted < version) : rep.Staged version c d := by
  unfold Report.Staged
  cases hphase : rep.phase with
  | merged vb replaced =>
      rw [hphase] at h
      exact fun hnow => absurd hnow h.ne
  | swept vb newly_dead removed =>
      rw [hphase] at h
      exact fun hnow => absurd hnow h.ne
  | sent | read | bumped | answered => trivial

namespace State

variable {s s' : State} {t r : ℕ} {rep : Report}

theorem read_inv (h : s.Inv) (ht : s.reports.lookup t = some rep) (hphase : rep.phase = .sent) :
    (s.after t rep (.read s.version) s.coordinator s.version).Inv := by
  apply h.clean ht
  · simp [Report.Dirty, hphase]
  · exact le_refl s.version
  · exact fun _ _ => trivial
  · exact fun _ _ => trivial

theorem merge_inv (h : s.Inv) (ht : s.reports.lookup t = some rep) {version_before now : ℕ}
    (hphase : rep.phase = .read version_before)
    (hok : s.Live t rep → Coherent s.coordinator rep.incoming) :
    (s.after t rep (.merged version_before (replacedNodeKeys s.coordinator rep.incoming))
      (updateNodes now s.coordinator rep.incoming) s.version).Inv := by
  have hclean : ¬ rep.Dirty := by simp [Report.Dirty, hphase]
  have hcounted : version_before ≤ s.version := by
    simpa [hphase, Phase.counted] using h.counted t rep ht
  have hstaged (hlive : s.Live t rep) (hquiet : s.Quiet) (hseen : rep.seenVersion = s.version) :
      Merged (updateNodes now s.coordinator rep.incoming) (s.reporters rep.reporter).registry
        rep.incoming (replacedNodeKeys s.coordinator rep.incoming) :=
    ⟨s.coordinator, now, h.coordinator,
      h.settled hquiet rep.reporter ((h.live_seen ht hlive).symm.trans hseen), hok hlive, rfl, rfl⟩
  by_cases hempty : rep.incoming = []
  · have hsame : updateNodes now s.coordinator rep.incoming = s.coordinator := by
      rw [hempty]
      rfl
    have hkeep := h.clean (p := .merged version_before
      (replacedNodeKeys s.coordinator rep.incoming)) ht hclean hcounted
      (fun _ _ => trivial) (fun hlive hquiet _ hseen => by
        have hmerged := hstaged hlive hquiet hseen
        rwa [hsame] at hmerged)
    rwa [hsame]
  · apply h.dirty ht (updateNodes_indexed h.coordinator _)
    · exact .inl hempty
    · exact hcounted
    · exact fun hlive hquiet _ hseen => hstaged hlive (hquiet.quiet ht hclean) hseen

/-- The sweep of a report that is the only dirty one, or of a clean report, leaves
the answer that makes its reporter agree. -/
theorem swept_of_sweep (h : s.Inv) (ht : s.reports.lookup t = some rep) (hlive : s.Live t rep)
    (hquiet : s.QuietBut t) {version_before threshold now : ℕ}
    {replaced newly_dead expired : List String} {swept : Cluster}
    (hphase : rep.phase = .merged version_before replaced)
    (hversion : version_before = s.version) (hseen : rep.seenVersion = s.version)
    (hsweep : sweepStaleNodes threshold now s.coordinator = (swept, newly_dead, expired)) :
    Swept swept (s.reporters rep.reporter).registry rep.incoming newly_dead
      (removedKeys replaced expired) := by
  have hstaged := h.staged t rep ht hlive hquiet
  unfold Report.Staged at hstaged
  rw [hphase] at hstaged
  obtain ⟨c₀, now_merge, hc₀, hagree, hcoherent, rfl, hmerge⟩ := hstaged hversion hseen
  rw [hmerge] at hsweep
  intro now_apply
  exact answer_agrees hc₀ (h.registry _) hagree hcoherent hsweep fun key => mem_removedKeys

theorem sweep_inv (h : s.Inv) (ht : s.reports.lookup t = some rep)
    {version_before threshold now : ℕ} {replaced newly_dead expired : List String} {swept : Cluster}
    (hphase : rep.phase = .merged version_before replaced)
    (hsweep : sweepStaleNodes threshold now s.coordinator = (swept, newly_dead, expired)) :
    (s.after t rep (.swept version_before newly_dead (removedKeys replaced expired)) swept
      s.version).Inv := by
  have hcounted : version_before ≤ s.version := by
    simpa [hphase, Phase.counted] using h.counted t rep ht
  by_cases hchanged : changed rep.incoming newly_dead (removedKeys replaced expired) = true
  · apply h.dirty ht (sweep_spec h.coordinator hsweep).1
    · exact hchanged
    · exact hcounted
    · exact fun hlive hquiet hversion hseen =>
        swept_of_sweep h ht hlive hquiet hphase hversion hseen hsweep
  · -- nothing was stale, so the sweep leaves the registry as it is
    obtain ⟨hempty, hnewly, hremoved⟩ := not_changed hchanged
    have hnone (key : String) : key ∉ replaced ∧ key ∉ expired := by
      rw [← not_or, ← mem_removedKeys, hremoved]
      exact List.not_mem_nil
    have hexpired : expired = [] := List.eq_nil_iff_forall_not_mem.mpr fun key => (hnone key).2
    have hclean : ¬ rep.Dirty := by
      have hreplaced : replaced = [] := List.eq_nil_iff_forall_not_mem.mpr fun key => (hnone key).1
      simp [Report.Dirty, hphase, hempty, hreplaced]
    have hsame : swept = s.coordinator := by
      subst hnewly hexpired
      simp only [sweepStaleNodes, Prod.mk.injEq] at hsweep
      obtain ⟨hswept, hnewly, hexpired⟩ := hsweep
      rw [hnewly, List.foldl_nil] at hexpired hswept
      rw [hexpired, List.foldl_nil] at hswept
      exact hswept.symm
    have hkeep := h.clean (p := .swept version_before newly_dead (removedKeys replaced expired))
      ht hclean hcounted (fun _ _ => trivial) fun hlive hquiet hversion hseen =>
        hsame ▸ swept_of_sweep h ht hlive (hquiet.quietBut t) hphase hversion hseen hsweep
    rwa [hsame]

/-- A bump that counts no change keeps the version that was read. -/
theorem bump_unchanged_inv (h : s.Inv) (ht : s.reports.lookup t = some rep) {version_before : ℕ}
    {newly_dead removed : List String}
    (hphase : rep.phase = .swept version_before newly_dead removed)
    (hchanged : ¬ changed rep.incoming newly_dead removed = true)
    (hok : s.Live t rep → rep.seenVersion = version_before) :
    (s.after t rep (.bumped version_before newly_dead removed version_before) s.coordinator
      s.version).Inv := by
  apply h.clean ht
  · simpa [Report.Dirty, hphase] using hchanged
  · simpa [hphase, Phase.counted] using h.counted t rep ht
  · intro _ hlive hversion
    exact ⟨hok hlive, by rwa [if_neg hchanged]⟩
  · exact fun _ _ => trivial

/-- A bump that counts a change leaves every other version behind. -/
theorem bump_changed_inv (h : s.Inv) (ht : s.reports.lookup t = some rep) {version_before : ℕ}
    {newly_dead removed : List String}
    (hphase : rep.phase = .swept version_before newly_dead removed)
    (hchanged : changed rep.incoming newly_dead removed = true)
    (hok : s.Live t rep → rep.seenVersion = version_before ∧ s.version = version_before) :
    (s.after t rep (.bumped version_before newly_dead removed (s.version + 1)) s.coordinator
      (s.version + 1)).Inv := by
  refine ⟨h.coordinator, h.registry, fun r => (h.seen r).trans (Nat.le_succ _), ?_,
    fun r u => waiting_after h ht, ?_, ?_, ?_⟩
  · intro u other hu
    rcases lookup_after hu with ⟨-, rfl⟩ | ⟨-, hold⟩
    · exact le_refl _
    · exact (h.counted u other hold).trans (Nat.le_succ _)
  · intro _ r hseen
    have hle := h.seen r
    have hnow : (s.reporters r).seen = s.version + 1 := hseen
    omega
  · intro hq u other hu hlive
    rcases lookup_after hu with ⟨rfl, rfl⟩ | ⟨-, hold⟩
    · obtain ⟨hseen, hversion⟩ := hok hlive
      have hstaged := h.staged u rep ht hlive (quietBut_after.mp (hq.quietBut u))
      unfold Report.Staged at hstaged
      rw [hphase] at hstaged
      intro _
      refine ⟨hseen, ?_⟩
      rw [if_pos hchanged]
      exact hstaged hversion.symm (hseen.trans hversion.symm)
    · exact Report.pending_of_lt (Nat.lt_succ_of_le (h.counted u other hold))
  · intro u other hu _ _
    rcases lookup_after hu with ⟨rfl, rfl⟩ | ⟨-, hold⟩
    · trivial
    · exact Report.staged_of_lt (Nat.lt_succ_of_le (h.counted u other hold))

/-- An answer without changes is applied as an empty delta. -/
theorem applyGlobalSnapshot_eq (now : ℕ) (c : Cluster) (resp : NodeReportResponse) :
    applyGlobalSnapshot now c resp = applySnapshotDelta now c resp.nodes resp.removed := by
  unfold applyGlobalSnapshot
  split_ifs with hempty
  · rw [hempty.1, hempty.2]
    rfl
  · rfl

theorem answer_inv (h : s.Inv) (ht : s.reports.lookup t = some rep) {version_before version : ℕ}
    {newly_dead removed : List String}
    (hphase : rep.phase = .bumped version_before newly_dead removed version) :
    (s.after t rep (.answered ⟨version, s.answerNodes rep version_before newly_dead removed,
      removed⟩) s.coordinator s.version).Inv := by
  apply h.clean ht
  · simp [Report.Dirty, hphase]
  · simpa [hphase, Phase.counted] using h.counted t rep ht
  · intro hquiet hlive hversion now
    have hpending := h.pending hquiet t rep ht hlive
    unfold Report.Pending at hpending
    rw [hphase] at hpending
    obtain ⟨hseen, hdelta⟩ := hpending hversion
    rw [applyGlobalSnapshot_eq]
    by_cases hchanged : changed rep.incoming newly_dead removed = true
    · rw [if_pos hchanged] at hdelta
      have hnodes : s.answerNodes rep version_before newly_dead removed =
          deltaNodes s.coordinator rep.incoming newly_dead := by
        simp [answerNodes, hseen, hchanged]
      simpa only [hnodes] using hdelta now
    · obtain ⟨hempty, hnewly, hremoved⟩ := not_changed hchanged
      rw [if_neg hchanged] at hdelta
      have hnodes : s.answerNodes rep version_before newly_dead removed = [] := by
        simp [answerNodes, deltaNodes, hempty, hnewly]
      rw [hremoved] at hnodes
      simp only [hremoved, hnodes]
      exact h.settled hquiet _ ((h.live_seen ht hlive).symm.trans (hseen.trans hdelta))
  · exact fun _ _ => trivial

theorem setReporter_self (s : State) (r : ℕ) (x : Reporter) :
    (s.setReporter r x).reporters r = x := by
  unfold setReporter
  exact Function.update_self _ _ _

theorem setReporter_ne (s : State) {r r' : ℕ} (x : Reporter) (hr : r' ≠ r) :
    (s.setReporter r x).reporters r' = s.reporters r' := by
  unfold setReporter
  exact Function.update_of_ne hr _ _

/-- A reporter that stops waiting, with a registry that is settled. -/
theorem Inv.reporter (h : s.Inv) {x : Reporter} (hx : x.registry.Indexed)
    (hseen : x.seen ≤ s.version) (hwaiting : x.waiting = none)
    (hsettled : s.Quiet → x.seen = s.version → Agree s.coordinator x.registry) :
    (s.setReporter r x).Inv := by
  have hreporter (u : ℕ) (other : Report) (hlive : (s.setReporter r x).Live u other) :
      (s.setReporter r x).reporters other.reporter = s.reporters other.reporter := by
    apply setReporter_ne
    rintro hr
    rw [Live, hr, setReporter_self, hwaiting] at hlive
    cases hlive
  refine ⟨h.coordinator, ?_, ?_, h.counted, ?_, ?_, ?_, ?_⟩
  · intro r'
    by_cases hr : r' = r
    · rwa [hr, setReporter_self]
    · rw [setReporter_ne s x hr]
      exact h.registry r'
  · intro r'
    by_cases hr : r' = r
    · rwa [hr, setReporter_self]
    · rw [setReporter_ne s x hr]
      exact h.seen r'
  · intro r' u hu
    by_cases hr : r' = r
    · rw [hr, setReporter_self, hwaiting] at hu
      cases hu
    · rw [setReporter_ne s x hr] at hu ⊢
      exact h.waiting r' u hu
  · intro hq r' hnow
    by_cases hr : r' = r
    · rw [hr, setReporter_self] at hnow ⊢
      exact hsettled hq hnow
    · rw [setReporter_ne s x hr] at hnow ⊢
      exact h.settled hq r' hnow
  · intro hq u other hu hlive
    have hsame := hreporter u other hlive
    rw [Live, hsame] at hlive
    rw [hsame]
    exact h.pending hq u other hu hlive
  · intro u other hu hlive hq
    have hsame := hreporter u other hlive
    rw [Live, hsame] at hlive
    rw [hsame]
    exact h.staged u other hu hlive hq

/-- Dropping a clean report that nobody waits for. -/
theorem Inv.erase (h : s.Inv) (ht : s.reports.lookup t = some rep) (hclean : ¬ rep.Dirty)
    (hlive : ¬ s.Live t rep) : ({ s with reports := s.reports.erase t } : State).Inv := by
  have hlookup (u : ℕ) (other : Report) (hu : (s.reports.erase t).lookup u = some other) :
      s.reports.lookup u = some other := by
    by_cases hut : u = t
    · subst hut
      rw [AList.lookup_erase] at hu
      cases hu
    · rwa [AList.lookup_erase_ne hut] at hu
  have hquietBut (w : ℕ) (hq : ({ s with reports := s.reports.erase t } : State).QuietBut w) :
      s.QuietBut w := by
    intro u other huw hu
    by_cases hut : u = t
    · subst hut
      rw [ht] at hu
      exact Option.some.inj hu ▸ hclean
    · exact hq u other huw ((AList.lookup_erase_ne hut).trans hu)
  have hquiet (hq : ({ s with reports := s.reports.erase t } : State).Quiet) : s.Quiet :=
    (hquietBut t (hq.quietBut t)).quiet ht hclean
  refine ⟨h.coordinator, h.registry, h.seen,
    fun u other hu => h.counted u other (hlookup u other hu), ?_, fun hq => h.settled (hquiet hq),
    fun hq u other hu => h.pending (hquiet hq) u other (hlookup u other hu),
    fun u other hu hwait hq => h.staged u other (hlookup u other hu) hwait (hquietBut u hq)⟩
  intro r u hu
  obtain ⟨other, hother, hr, hseen⟩ := h.waiting r u hu
  refine ⟨other, ?_, hr, hseen⟩
  rw [AList.lookup_erase_ne, hother]
  rintro rfl
  rw [ht] at hother
  obtain rfl := Option.some.inj hother
  exact hlive (by rwa [Live, hr])

theorem receive_inv (h : s.Inv) (ht : s.reports.lookup t = some rep) {now : ℕ}
    {resp : NodeReportResponse} (hphase : rep.phase = .answered resp) (hlive : s.Live t rep) :
    ({ s.setReporter rep.reporter
      ⟨applyGlobalSnapshot now (s.reporters rep.reporter).registry resp, resp.version, none⟩ with
      reports := s.reports.erase t } : State).Inv := by
  have hset := h.reporter (r := rep.reporter)
    (x := ⟨applyGlobalSnapshot now (s.reporters rep.reporter).registry resp, resp.version, none⟩)
    (by
      rw [applyGlobalSnapshot_eq]
      exact (remove_splits (updateNodes_indexed (h.registry _) _) _).1)
    (by simpa [hphase, Phase.counted] using h.counted t rep ht) rfl
    (by
      intro hquiet hnow
      have hpending := h.pending hquiet t rep ht hlive
      unfold Report.Pending at hpending
      rw [hphase] at hpending
      exact hpending hnow now)
  apply hset.erase ht
  · simp [Report.Dirty, hphase]
  · rw [Live, setReporter_self]
    simp

theorem giveUp_inv (h : s.Inv) (r : ℕ) :
    (s.setReporter r { s.reporters r with waiting := none }).Inv :=
  h.reporter (h.registry r) (h.seen r) rfl fun hquiet => h.settled hquiet r

theorem send_inv (h : s.Inv) (incoming : List Node) (ht : t ∉ s.reports) :
    ({ s.setReporter r { s.reporters r with waiting := some t } with
      reports := s.reports.insert t ⟨r, incoming, (s.reporters r).seen, .sent⟩ } : State).Inv := by
  have hkeep (r' : ℕ) :
      ((s.setReporter r { s.reporters r with waiting := some t }).reporters r').registry =
          (s.reporters r').registry ∧
        ((s.setReporter r { s.reporters r with waiting := some t }).reporters r').seen =
          (s.reporters r').seen := by
    by_cases hr : r' = r
    · rw [hr, setReporter_self]
      exact ⟨rfl, rfl⟩
    · rw [setReporter_ne s _ hr]
      exact ⟨rfl, rfl⟩
  have hlookup (u : ℕ) (other : Report)
      (hu : (s.reports.insert t ⟨r, incoming, (s.reporters r).seen, .sent⟩).lookup u = some other) :
      other.phase = .sent ∨ u ≠ t ∧ s.reports.lookup u = some other := by
    by_cases hut : u = t
    · subst hut
      rw [AList.lookup_insert] at hu
      exact .inl (Option.some.inj hu ▸ rfl)
    · rw [AList.lookup_insert_ne hut] at hu
      exact .inr ⟨hut, hu⟩
  have hold (u : ℕ) (other : Report) (hu : s.reports.lookup u = some other) :
      (s.reports.insert t ⟨r, incoming, (s.reporters r).seen, .sent⟩).lookup u = some other := by
    rw [AList.lookup_insert_ne, hu]
    rintro rfl
    rw [AList.lookup_eq_none.mpr ht] at hu
    cases hu
  have hlive (u : ℕ) (other : Report) (hut : u ≠ t)
      (hwait : (s.setReporter r { s.reporters r with waiting := some t }).Live u other) :
      s.Live u other := by
    by_cases hr : other.reporter = r
    · rw [Live, hr, setReporter_self] at hwait
      exact absurd (Option.some.inj hwait).symm hut
    · rwa [Live, setReporter_ne s _ hr] at hwait
  refine ⟨h.coordinator, fun r' => (hkeep r').1 ▸ h.registry r', fun r' => (hkeep r').2 ▸ h.seen r',
    ?_, ?_, ?_, ?_, ?_⟩
  · intro u other hu
    rcases hlookup u other hu with hsent | ⟨-, hu⟩
    · simp [hsent, Phase.counted]
    · exact h.counted u other hu
  · intro r' u hu
    by_cases hr : r' = r
    · subst hr
      rw [setReporter_self] at hu ⊢
      obtain rfl := Option.some.inj hu
      exact ⟨_, AList.lookup_insert s.reports, rfl, rfl⟩
    · rw [setReporter_ne s _ hr] at hu ⊢
      obtain ⟨other, hother, hrest⟩ := h.waiting r' u hu
      exact ⟨other, hold u other hother, hrest⟩
  · intro hq r' hnow
    rw [(hkeep r').1]
    exact h.settled (fun u other hu => hq u other (hold u other hu)) r' ((hkeep r').2 ▸ hnow)
  · intro hq u other hu hwait
    rcases hlookup u other hu with hsent | ⟨hut, hu⟩
    · simp [Report.Pending, hsent]
    · rw [(hkeep _).1]
      exact h.pending (fun u other hu => hq u other (hold u other hu)) u other hu
        (hlive u other hut hwait)
  · intro u other hu hwait hq
    rcases hlookup u other hu with hsent | ⟨hut, hu⟩
    · simp [Report.Staged, hsent]
    · rw [(hkeep _).1]
      exact h.staged u other hu (hlive u other hut hwait)
        fun w x hwu hw => hq w x hwu (hold w x hw)

theorem step_inv (h : s.Inv) {e : Event} (hok : s.Orderly e) (hstep : s.step e = some s') :
    s'.Inv := by
  cases e with
  | send r t incoming =>
      simp only [step] at hstep
      obtain ⟨⟨-, ht⟩, ⟨⟩⟩ := Option.ite_none_right_eq_some.mp hstep
      exact send_inv h incoming ht
  | read t =>
      simp only [step] at hstep
      split at hstep
      · next rep ht =>
          split at hstep
          · next hphase =>
              cases hstep
              exact read_inv h ht hphase
          · cases hstep
      · cases hstep
  | merge t now =>
      simp only [step] at hstep
      split at hstep
      · next rep ht =>
          split at hstep
          · next vb hphase =>
              cases hstep
              exact merge_inv h ht hphase (hok rep ht)
          · cases hstep
      · cases hstep
  | sweep t threshold now =>
      simp only [step] at hstep
      split at hstep
      · next rep ht =>
          split at hstep
          · next vb replaced hphase =>
              cases hstep
              exact sweep_inv h ht hphase rfl
          · cases hstep
      · cases hstep
  | bump t =>
      simp only [step] at hstep
      split at hstep
      · next rep ht =>
          have hrep := hok rep ht
          split at hstep
          · next vb newly removed hphase =>
              rw [hphase] at hrep
              split at hstep
              · next hchanged =>
                  cases hstep
                  exact bump_changed_inv h ht hphase hchanged fun hlive =>
                    ⟨(hrep hlive).1, (hrep hlive).2 hchanged⟩
              · next hchanged =>
                  cases hstep
                  exact bump_unchanged_inv h ht hphase hchanged fun hlive => (hrep hlive).1
          · cases hstep
      · cases hstep
  | answer t =>
      simp only [step] at hstep
      split at hstep
      · next rep ht =>
          split at hstep
          · next vb newly removed version hphase =>
              cases hstep
              exact answer_inv h ht hphase
          · cases hstep
      · cases hstep
  | receive t now =>
      simp only [step] at hstep
      split at hstep
      · next rep ht =>
          split at hstep
          · next resp hphase =>
              obtain ⟨hlive, ⟨⟩⟩ := Option.ite_none_right_eq_some.mp hstep
              exact receive_inv h ht hphase hlive
          · cases hstep
      · cases hstep
  | giveUp r =>
      cases hstep
      exact giveUp_inv h r
  | drop t =>
      simp only [step] at hstep
      split at hstep
      · next rep ht =>
          split at hstep
          · next hphase =>
              obtain ⟨hlive, ⟨⟩⟩ := Option.ite_none_left_eq_some.mp hstep
              exact h.erase ht (by simp [Report.Dirty, hphase]) hlive
          · next resp hphase =>
              obtain ⟨hlive, ⟨⟩⟩ := Option.ite_none_left_eq_some.mp hstep
              exact h.erase ht (by simp [Report.Dirty, hphase]) hlive
          · cases hstep
      · cases hstep

/-- The invariant is about more than idle states; this is what it says of those. -/
theorem Inv.converged (h : s.Inv) : s.Converged := by
  intro hidle
  apply h.settled
  intro u other hu
  have hmem : u ∈ s.reports := AList.lookup_isSome.mp (by rw [hu]; rfl)
  rw [AList.mem_keys, hidle] at hmem
  cases hmem

end State

theorem initial_inv : initial.Inv where
  coordinator := Cluster.empty_indexed
  registry _ := Cluster.empty_indexed
  seen _ := le_refl 0
  counted _ _ h := by simp [initial] at h
  waiting _ _ h := by simp [initial] at h
  settled _ _ _ := .refl .empty
  pending _ _ _ h := by simp [initial] at h
  staged _ _ h := by simp [initial] at h

/-- Replication converges in every run whose awaited reports are coherent and are
counted from the version that they read and their reporter had seen. -/
theorem replication_converges {events : List Event} {s : State}
    (hok : Meets State.step State.Orderly initial events)
    (hrun : exec State.step initial events = some s) : s.Converged :=
  (exec_invariant (fun _ _ _ hinv hstep_ok hstep => State.step_inv hinv hstep_ok hstep) initial_inv
    hok hrun).converged

section Runs

/-- One complete report. -/
def heartbeat (r t : ℕ) (incoming : List Node) : List Event :=
  [.send r t incoming, .read t, .merge t 10, .sweep t 25 10, .bump t, .answer t, .receive t 10]

def local0 (host addr : String) (rank : Int32) : Node :=
  ⟨host, addr, some 0, some rank, some rank, none, 0⟩

/-- Two reports of one reporter, the second one with a new address. -/
def movedRun : List Event :=
  heartbeat 1 0 [local0 "b" "10.0.0.2:8080" 8] ++ heartbeat 1 1 [local0 "b" "10.0.0.2:9090" 8]

/-- The reporter has seen the current version and has the new address only. -/
theorem replication_converges_moved :
    ∃ s, exec State.step initial movedRun = some s ∧
      (s.reports.keys = [] ∧ (s.reporters 1).seen = s.version ∧
        (s.reporters 1).registry.nodes.keys = ["b:10.0.0.2:9090"]) ∧ s.Converged := by
  have hrun : (exec State.step initial movedRun).any (fun s =>
      s.reports.keys = [] ∧ (s.reporters 1).seen = s.version ∧
        (s.reporters 1).registry.nodes.keys = ["b:10.0.0.2:9090"]) = true := by
    decide
  have hok : Meets State.step State.Orderly initial movedRun := by decide
  obtain ⟨s, hs, hstate⟩ := (Option.any_eq_true _ _).mp hrun
  exact ⟨s, hs, of_decide_eq_true hstate, replication_converges hok hs⟩

/-- One report each of two reporters. -/
def latecomerRun : List Event :=
  heartbeat 1 0 [local0 "b" "10.0.0.2:8080" 8] ++ heartbeat 2 1 [local0 "c" "10.0.0.3:8080" 16]

/-- The second reporter gets the current version and none of the nodes, not even its
own. -/
theorem replication_diverges :
    ∃ s, exec State.step initial latecomerRun = some s ∧
      s.reports.keys = [] ∧ (s.reporters 2).seen = s.version ∧
      (view s.coordinator "b:10.0.0.2:8080").isSome ∧
      view (s.reporters 2).registry "b:10.0.0.2:8080" = none ∧ ¬ s.Converged := by
  have hrun : (exec State.step initial latecomerRun).any (fun s =>
      s.reports.keys = [] ∧ (s.reporters 2).seen = s.version ∧
        (view s.coordinator "b:10.0.0.2:8080").isSome ∧
        view (s.reporters 2).registry "b:10.0.0.2:8080" = none) = true := by
    decide
  obtain ⟨s, hs, hstate⟩ := (Option.any_eq_true _ _).mp hrun
  obtain ⟨hidle, hseen, hcoordinator, hreporter⟩ := of_decide_eq_true hstate
  refine ⟨s, hs, hidle, hseen, hcoordinator, hreporter, fun h => ?_⟩
  have hview := h hidle 2 hseen "b:10.0.0.2:8080"
  rw [hreporter] at hview
  rw [hview] at hcoordinator
  cases hcoordinator

end Runs

end Probing.Registry
