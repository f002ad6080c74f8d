import Mathlib.Data.List.Dedup
import Mathlib.Data.List.Sort
import Probing.Core.Run
import Probing.Registry.Agreement

/-!
# Replication by heartbeats

Any number of reporters send reports to one coordinator. A report is processed in
separate steps (read the version, merge, sweep, bump, answer) that interleave with
those of other reports. A reporter may give up waiting; the coordinator then still
processes the report, and the answer is dropped.
-/

namespace Probing.Registry

open Probing.Core

/-- Where a report is, with the locals of `apply_node_report`. -/
inductive Phase
  | sent
  | read (version_before : ℕ)
  | merged (version_before : ℕ) (replaced : List String)
  | swept (version_before : ℕ) (newly_dead removed : List String)
  | bumped (version_before : ℕ) (newly_dead removed : List String) (version : ℕ)
  | answered (resp : NodeReportResponse)

structure Report where
  reporter : ℕ
  incoming : List Node
  seenVersion : ℕ
  phase : Phase

/-- A reporter's registry, the version it remembers and the report it waits for. -/
structure Reporter where
  registry : Cluster
  seen : ℕ
  waiting : Option ℕ

structure State where
  coordinator : Cluster
  version : ℕ
  reporters : ℕ → Reporter
  reports : AList fun _ : ℕ => Report

inductive Event
  | send (r t : ℕ) (incoming : List Node)
  | read (t : ℕ)
  | merge (t now : ℕ)
  | sweep (t threshold now : ℕ)
  | bump (t : ℕ)
  | answer (t : ℕ)
  | receive (t now : ℕ)
  | giveUp (r : ℕ)
  | drop (t : ℕ)

def initial : State where
  coordinator := .empty
  version := 0
  reporters _ := ⟨.empty, 0, none⟩
  reports := ∅

/-- `removed` after `extend`, `sort` and `dedup`. -/
def removedKeys (replaced expired : List String) : List String :=
  ((replaced ++ expired).insertionSort (· ≤ ·)).dedup

def changed (incoming : List Node) (newly_dead removed : List String) : Bool :=
  !incoming.isEmpty || !newly_dead.isEmpty || !removed.isEmpty

namespace State

variable (s : State)

def setPhase (t : ℕ) (rep : Report) (p : Phase) : State :=
  { s with reports := s.reports.insert t { rep with phase := p } }

def setReporter (r : ℕ) (x : Reporter) : State :=
  { s with reporters := Function.update s.reporters r x }

/-- The reporter still waits for report `t`. -/
def Live (t : ℕ) (rep : Report) : Prop := (s.reporters rep.reporter).waiting = some t

instance (t : ℕ) (rep : Report) : Decidable (s.Live t rep) :=
  inferInstanceAs (Decidable (_ = _))

def answerNodes (rep : Report) (version_before : ℕ) (newly_dead removed : List String) :
    List Node :=
  if version_before ≤ rep.seenVersion ∧ 0 < rep.seenVersion then
    deltaNodes s.coordinator rep.incoming newly_dead
  else if version_before ≤ rep.seenVersion then
    if changed rep.incoming newly_dead removed then
      deltaNodes s.coordinator rep.incoming newly_dead
    else []
  else []

/-- One step of the system. -/
def step : Event → Option State
  | .send r t incoming =>
      let x := s.reporters r
      if x.waiting = none ∧ t ∉ s.reports then
        some { s.setReporter r { x with waiting := some t } with
          reports := s.reports.insert t ⟨r, incoming, x.seen, .sent⟩ }
      else none
  | .read t =>
      match s.reports.lookup t with
      | some rep => match rep.phase with
        | .sent => some (s.setPhase t rep (.read s.version))
        | _ => none
      | none => none
  | .merge t now =>
      match s.reports.lookup t with
      | some rep => match rep.phase with
        | .read version_before =>
            some { s.setPhase t rep (.merged version_before
                (replacedNodeKeys s.coordinator rep.incoming)) with
              coordinator := updateNodes now s.coordinator rep.incoming }
        | _ => none
      | none => none
  | .sweep t threshold now =>
      match s.reports.lookup t with
      | some rep => match rep.phase with
        | .merged version_before replaced =>
            let (swept, newly_dead, expired) := sweepStaleNodes threshold now s.coordinator
            some { s.setPhase t rep (.swept version_before newly_dead
                (removedKeys replaced expired)) with coordinator := swept }
        | _ => none
      | none => none
  | .bump t =>
      match s.reports.lookup t with
      | some rep => match rep.phase with
        | .swept version_before newly_dead removed =>
            if changed rep.incoming newly_dead removed then
              some { s.setPhase t rep (.bumped version_before newly_dead removed
                (s.version + 1)) with version := s.version + 1 }
            else some (s.setPhase t rep (.bumped version_before newly_dead removed version_before))
        | _ => none
      | none => none
  | .answer t =>
      match s.reports.lookup t with
      | some rep => match rep.phase with
        | .bumped version_before newly_dead removed version =>
            some (s.setPhase t rep (.answered
              ⟨version, s.answerNodes rep version_before newly_dead removed, removed⟩))
        | _ => none
      | none => none
  | .receive t now =>
      match s.reports.lookup t with
      | some rep => match rep.phase with
        | .answered resp =>
            if s.Live t rep then
              some { s.setReporter rep.reporter
                ⟨applyGlobalSnapshot now (s.reporters rep.reporter).registry resp,
                  resp.version, none⟩ with reports := s.reports.erase t }
            else none
        | _ => none
      | none => none
  | .giveUp r => some (s.setReporter r { s.reporters r with waiting := none })
  | .drop t =>
      match s.reports.lookup t with
      | some rep => match rep.phase with
        | .sent | .answered _ =>
            if s.Live t rep then none else some { s with reports := s.reports.erase t }
        | _ => none
      | none => none

/-- With no report in flight, a reporter that remembers the coordinator's version has
the coordinator's keys, ranks and statuses. -/
def Converged : Prop :=
  s.reports.keys = [] → ∀ r, (s.reporters r).seen = s.version →
    Agree s.coordinator (s.reporters r).registry

/-- A report that is waited for is coherent, its reporter had seen the version it
read, and a change is counted from that version. -/
def Orderly : Event → Prop
  | .merge t _ => ∀ rep ∈ s.reports.lookup t, s.Live t rep →
      Coherent s.coordinator rep.incoming
  | .bump t => ∀ rep ∈ s.reports.lookup t, s.Live t rep →
      match rep.phase with
      | .swept version_before newly_dead removed => rep.seenVersion = version_before ∧
          (changed rep.incoming newly_dead removed → s.version = version_before)
      | _ => True
  | _ => True

instance : ∀ e, Decidable (s.Orderly e)
  | .merge _ _ => inferInstanceAs (Decidable (∀ rep ∈ _, _))
  | .bump t =>
      have (rep : Report) : Decidable (match rep.phase with
          | .swept version_before newly_dead removed => rep.seenVersion = version_before ∧
              (changed rep.incoming newly_dead removed → s.version = version_before)
          | _ => True) := by
        cases rep.phase <;> infer_instance
      inferInstanceAs (Decidable (∀ rep ∈ s.reports.lookup t, s.Live t rep → _))
  | .send _ _ _ | .read _ | .sweep _ _ _ | .answer _ | .receive _ _ | .giveUp _ | .drop _ =>
      inferInstanceAs (Decidable True)

end State

/-- The coordinator may differ from every reporter because of this report, whose
version is not counted yet. -/
def Report.Dirty (rep : Report) : Prop :=
  match rep.phase with
  | .merged _ replaced => rep.incoming ≠ [] ∨ replaced ≠ []
  | .swept _ newly_dead removed => changed rep.incoming newly_dead removed
  | _ => False

def Phase.counted : Phase → ℕ
  | .sent => 0
  | .read version_before | .merged version_before _ | .swept version_before _ _ => version_before
  | .bumped _ _ _ version => version
  | .answered resp => resp.version

/-- The coordinator `c` has just merged the report of a reporter that agreed. -/
def Merged (c d : Cluster) (incoming : List Node) (replaced : List String) : Prop :=
  ∃ c₀ now, c₀.Indexed ∧ Agree c₀ d ∧ Coherent c₀ incoming ∧
    replaced = replacedNodeKeys c₀ incoming ∧ c = updateNodes now c₀ incoming

def Swept (c d : Cluster) (incoming : List Node) (newly_dead removed : List String) : Prop :=
  ∀ now, Agree c (applySnapshotDelta now d (deltaNodes c incoming newly_dead) removed)

/-- What holds of a report that is the only dirty one. -/
def Report.Staged (version : ℕ) (c d : Cluster) (rep : Report) : Prop :=
  match rep.phase with
  | .merged version_before replaced =>
      version_before = version → rep.seenVersion = version → Merged c d rep.incoming replaced
  | .swept version_before newly_dead removed =>
      version_before = version → rep.seenVersion = version →
        Swept c d rep.incoming newly_dead removed
  | _ => True

/-- What holds of a report with the current version when none is dirty. -/
def Report.Pending (version : ℕ) (c d : Cluster) (rep : Report) : Prop :=
  match rep.phase with
  | .bumped version_before newly_dead removed counted => counted = version →
      rep.seenVersion = version_before ∧
        if changed rep.incoming newly_dead removed then Swept c d rep.incoming newly_dead removed
        else version_before = version
  | .answered resp => resp.version = version → ∀ now, Agree c (applyGlobalSnapshot now d resp)
  | _ => True

namespace State

variable {s : State} {t r : ℕ} {rep : Report}

/-- No report but possibly `t` is dirty. -/
def QuietBut (s : State) (t : ℕ) : Prop :=
  ∀ u other, u ≠ t → s.reports.lookup u = some other → ¬ other.Dirty

def Quiet (s : State) : Prop := ∀ u other, s.reports.lookup u = some other → ¬ other.Dirty

structure Inv (s : State) : Prop where
  coordinator : s.coordinator.Indexed
  registry : ∀ r, (s.reporters r).registry.Indexed
  seen : ∀ r, (s.reporters r).seen ≤ s.version
  counted : ∀ t rep, s.reports.lookup t = some rep → rep.phase.counted ≤ s.version
  waiting : ∀ r t, (s.reporters r).waiting = some t → ∃ rep, s.reports.lookup t = some rep ∧
    rep.reporter = r ∧ rep.seenVersion = (s.reporters r).seen
  settled : s.Quiet → ∀ r, (s.reporters r).seen = s.version →
    Agree s.coordinator (s.reporters r).registry
  pending : s.Quiet → ∀ t rep, s.reports.lookup t = some rep → s.Live t rep →
    rep.Pending s.version s.coordinator (s.reporters rep.reporter).registry
  staged : ∀ t rep, s.reports.lookup t = some rep → s.Live t rep → s.QuietBut t →
    rep.Staged s.version s.coordinator (s.reporters rep.reporter).registry

/-- A report that is waited for carries the version its reporter remembers. -/
theorem Inv.live_seen (h : s.Inv) (ht : s.reports.lookup t = some rep) (hlive : s.Live t rep) :
    rep.seenVersion = (s.reporters rep.reporter).seen := by
  obtain ⟨other, hother, -, hseen⟩ := h.waiting _ _ hlive
  rw [ht] at hother
  rw [Option.some.inj hother]
  exact Option.some.inj hother ▸ hseen

/-- With a clean report, quiet but for it is quiet. -/
theorem QuietBut.quiet (h : s.QuietBut t) (ht : s.reports.lookup t = some rep)
    (hclean : ¬ rep.Dirty) : s.Quiet := by
  intro u other hu
  by_cases hut : u = t
  · subst hut
    rw [ht] at hu
    exact Option.some.inj hu ▸ hclean
  · exact h u other hut hu

theorem Quiet.quietBut (h : s.Quiet) (t : ℕ) : s.QuietBut t := fun u other _ hu => h u other hu

section SetPhase

variable {p : Phase} {c : Cluster} {v u : ℕ} {other : Report}

/-- The state after a step of the coordinator on report `t`. -/
def after (s : State) (t : ℕ) (rep : Report) (p : Phase) (c : Cluster) (v : ℕ) : State :=
  { s.setPhase t rep p with coordinator := c, version := v }

theorem lookup_after (hu : (s.after t rep p c v).reports.lookup u = some other) :
    u = t ∧ other = { rep with phase := p } ∨ u ≠ t ∧ s.reports.lookup u = some other := by
  by_cases hut : u = t
  · subst hut
    rw [show (s.after u rep p c v).reports = s.reports.insert u { rep with phase := p } from rfl,
      AList.lookup_insert] at hu
    exact .inl ⟨rfl, (Option.some.inj hu).symm⟩
  · rw [show (s.after t rep p c v).reports = s.reports.insert t { rep with phase := p } from rfl,
      AList.lookup_insert_ne hut] at hu
    exact .inr ⟨hut, hu⟩

theorem lookup_after_self :
    (s.after t rep p c v).reports.lookup t = some { rep with phase := p } :=
  AList.lookup_insert s.reports

theorem lookup_after_ne (hut : u ≠ t) :
    (s.after t rep p c v).reports.lookup u = s.reports.lookup u :=
  AList.lookup_insert_ne hut

theorem waiting_after (h : s.Inv) (ht : s.reports.lookup t = some rep) {r : ℕ}
    (hu : (s.reporters r).waiting = some u) :
    ∃ other, (s.after t rep p c v).reports.lookup u = some other ∧ other.reporter = r ∧
      other.seenVersion = (s.reporters r).seen := by
  obtain ⟨other, hother, hr, hseen⟩ := h.waiting r u hu
  by_cases hut : u = t
  · subst hut
    rw [ht] at hother
    obtain rfl := Option.some.inj hother
    exact ⟨_, lookup_after_self, hr, hseen⟩
  · exact ⟨other, (lookup_after_ne hut).trans hother, hr, hseen⟩

/-- Quiet but for the report, before and after its step. -/
theorem quietBut_after : (s.after t rep p c v).QuietBut t ↔ s.QuietBut t := by
  constructor
  · intro h u other hut hu
    exact h u other hut ((lookup_after_ne hut).trans hu)
  · intro h u other hut hu
    exact h u other hut ((lookup_after_ne hut).symm.trans hu)

/-- A step of a report that is clean before and after it, and changes nothing. -/
theorem Inv.clean (h : s.Inv) (ht : s.reports.lookup t = some rep) (hbefore : ¬ rep.Dirty)
    (hcounted : p.counted ≤ s.version)
    (hpending : s.Quiet → s.Live t rep → ({ rep with phase := p } : Report).Pending s.version
      s.coordinator (s.reporters rep.reporter).registry)
    (hstaged : s.Live t rep → s.Quiet → ({ rep with phase := p } : Report).Staged s.version
      s.coordinator (s.reporters rep.reporter).registry) :
    (s.after t rep p s.coordinator s.version).Inv := by
  have hquiet : (s.after t rep p s.coordinator s.version).Quiet → s.Quiet := by
    intro hq
    exact (quietBut_after.1 (hq.quietBut t)).quiet ht hbefore
  refine ⟨h.coordinator, h.registry, h.seen, ?_, fun r u => waiting_after h ht,
    fun hq => h.settled (hquiet hq), ?_, ?_⟩
  · intro u other hu
    rcases lookup_after hu with ⟨-, rfl⟩ | ⟨-, hold⟩
    · exact hcounted
    · exact h.counted u other hold
  · intro hq u other hu hlive
    rcases lookup_after hu with ⟨rfl, rfl⟩ | ⟨-, hold⟩
    · exact hpending (hquiet hq) hlive
    · exact h.pending (hquiet hq) u other hold hlive
  · intro u other hu hlive hq
    rcases lookup_after hu with ⟨rfl, rfl⟩ | ⟨hut, hold⟩
    · exact hstaged hlive ((quietBut_after.1 hq).quiet ht hbefore)
    · refine h.staged u other hold hlive fun w x hwu hw => ?_
      by_cases hwt : w = t
      · subst hwt
        rw [ht] at hw
        exact Option.some.inj hw ▸ hbefore
      · exact hq w x hwu ((lookup_after_ne hwt).trans hw)

/-- A step that leaves the report dirty says nothing about the others. -/
theorem Inv.dirty (h : s.Inv) (ht : s.reports.lookup t = some rep) (hc : c.Indexed)
    (hafter : ({ rep with phase := p } : Report).Dirty) (hcounted : p.counted ≤ s.version)
    (hstaged : s.Live t rep → s.QuietBut t → ({ rep with phase := p } : Report).Staged s.version
      c (s.reporters rep.reporter).registry) : (s.after t rep p c s.version).Inv := by
  have hnot : ¬ (s.after t rep p c s.version).Quiet :=
    fun hq => hq t _ lookup_after_self hafter
  refine ⟨hc, h.registry, h.seen, ?_, fun r u => waiting_after h ht,
    fun hq => absurd hq hnot, fun hq => absurd hq hnot, ?_⟩
  · intro u other hu
    rcases lookup_after hu with ⟨-, rfl⟩ | ⟨-, hold⟩
    · exact hcounted
    · exact h.counted u other hold
  · intro u other hu hlive hq
    rcases lookup_after hu with ⟨rfl, rfl⟩ | ⟨hut, hold⟩
    · exact hstaged hlive (quietBut_after.1 hq)
    · exact absurd hafter (hq t _ (Ne.symm hut) lookup_after_self)

end SetPhase

end State

end Probing.Registry
