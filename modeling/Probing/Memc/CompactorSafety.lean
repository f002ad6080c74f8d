import Mathlib.Data.Fintype.Basic
import Probing.Memc.CompactorProtocol

/-!
# Compaction is lossless

A store to `drained_gen` is covered by a page with all rows of the generation in
every run in which the store follows a lease that was granted after the
generation had been sealed. A generation is recorded as drained with no page, or
with the first of its rows, when the lease was refused or the chunk not sealed.
-/

namespace Probing.Memc.Compactor

open Probing.Core (exec Meets exec_invariant)
open Probing.Memt (ChunkState HotRing)

variable {Name Value : Type*} {S : Setting Name Value}

/-- The pages of the open segment with the tag of a store to `drained_gen`. -/
def Drained.tagged (sourceInstance : UInt64) (e : Drained Value) : List (Page Value) :=
  e.pages.filter fun p =>
    p.sourceInstance = sourceInstance ∧ p.sourceChunk = e.chunk ∧ p.sourceGen = e.gen

/-- A row iterator whose generation is still current when it is re-checked had
its lease granted, at a moment when the generation had been sealed, with at
least one row. -/
def DrainPc.Timely (r : HotRing (Fin S.cols → Value)) : DrainPc S.cols Value → Prop
  | .genAfter chunk _ gen wasSealed _ => r.generation chunk = gen →
      wasSealed ∧ 0 < S.cols ∧ ∀ rows ∈ r.sealedRows chunk gen, rows ≠ []
  | _ => True

instance (r : HotRing (Fin S.cols → Value)) : ∀ p : DrainPc S.cols Value, Decidable (p.Timely r)
  | .genAfter .. => inferInstanceAs (Decidable (_ → _ ∧ _ ∧ _))
  | .logicalGen .. | .logicalRows .. | .next _ | .genLoad .. | .genBefore .. | .pin ..
  | .usedLoad .. | .readRow .. | .append .. => inferInstanceAs (Decidable True)

namespace State

/-- Whenever `drained_gen[chunk]` was set to `gen`, that generation was sealed,
and the open segment held one page with its tag, which has all of its rows. -/
def Lossless (s : State S) : Prop :=
  ∀ e ∈ s.log, ∃ rows, s.ring.sealedRows e.chunk e.gen = some rows ∧
    (e.tagged S.sourceInstance).map Page.columns = [transpose rows]

/-- The condition on one step. A name new to the table is the only one in use,
and the open segment has no page above the watermarks of its seed. -/
def Orderly (s : State S) : Action S → Prop
  | .drain name => s.tables name = none → (∀ other, s.tables other = none) ∧
      ∀ p ∈ s.pages, p.sourceInstance = S.sourceInstance →
        p.sourceGen ≤ S.seed name p.sourceChunk
  | .compact _ => ∀ d ∈ s.drain, d.2.Timely s.ring
  | _ => True

end State

/-- What a counter of `drain_view` knows about the ring and the watermarks. -/
def DrainPc.Sound (r : HotRing (Fin S.cols → Value)) (drained_gen : Option (ℕ → ℕ)) :
    DrainPc S.cols Value → Prop
  | .genBefore c _ => ∃ w ∈ drained_gen, w c < r.generation c
  | .pin c _ g | .usedLoad c _ g => (∃ w ∈ drained_gen, w c < g) ∧ g ≤ r.generation c
  | .readRow c _ g n wasSealed rows => (∃ w ∈ drained_gen, w c < g) ∧ g ≤ r.generation c ∧
      (r.generation c = g → wasSealed → ∃ all, r.sealedRows c g = some all ∧
        n = all.length ∧ rows <+: all)
  | .genAfter c _ g wasSealed rows => (∃ w ∈ drained_gen, w c < g) ∧ g ≤ r.generation c ∧
      (r.generation c = g → wasSealed → r.sealedRows c g = some rows)
  | .append c _ g rows => (∃ w ∈ drained_gen, w c < g) ∧ r.sealedRows c g = some rows
  | _ => True

/-- Steps of the writer do not disturb the compactor. -/
theorem DrainPc.Sound.later {r t : HotRing (Fin S.cols → Value)} {drained_gen : Option (ℕ → ℕ)}
    {p : DrainPc S.cols Value} (h : p.Sound r drained_gen) (hlater : r.Later t) :
    p.Sound t drained_gen := by
  have back {c g : ℕ} (hle : g ≤ r.generation c) (hg : t.generation c = g) :
      r.generation c = g :=
    le_antisymm (hg ▸ hlater.generation_le c) hle
  cases p with
  | logicalGen _ _ | logicalRows _ _ _ | next _ | genLoad _ _ => trivial
  | genBefore c todo =>
      obtain ⟨w, hw, hlt⟩ := h
      exact ⟨w, hw, hlt.trans_le (hlater.generation_le c)⟩
  | pin c todo g | usedLoad c todo g => exact ⟨h.1, h.2.trans (hlater.generation_le c)⟩
  | readRow c todo g n wasSealed rows =>
      refine ⟨h.1, h.2.1.trans (hlater.generation_le c), fun hg hs => ?_⟩
      obtain ⟨all, hall, hrest⟩ := h.2.2 (back h.2.1 hg) hs
      exact ⟨all, hlater.sealed_kept c g all hall, hrest⟩
  | genAfter c todo g wasSealed rows =>
      refine ⟨h.1, h.2.1.trans (hlater.generation_le c), fun hg hs => ?_⟩
      exact hlater.sealed_kept c g rows (h.2.2 (back h.2.1 hg) hs)
  | append c todo g rows => exact ⟨h.1, hlater.sealed_kept c g rows h.2⟩

namespace State

structure Inv (s : State S) : Prop where
  ring : s.ring.Inv
  one_name : ∀ name other w v, s.tables name = some w → s.tables other = some v → name = other
  pages : ∀ name w, s.tables name = some w → ∀ p ∈ s.pages,
    p.sourceInstance = S.sourceInstance → p.sourceGen ≤ w p.sourceChunk
  drain : ∀ name p, s.drain = some (name, p) → p.Sound s.ring (s.tables name)
  log : s.Lossless

variable {s t : State S} {name : Name} {p : DrainPc S.cols Value}

theorem Inv.later (h : s.Inv) {r : HotRing (Fin S.cols → Value)} (hr : r.Inv)
    (hlater : s.ring.Later r) : ({ s with ring := r } : State S).Inv where
  ring := hr
  one_name := h.one_name
  pages := h.pages
  drain name p hp := (h.drain name p hp).later hlater
  log e he := by
    obtain ⟨rows, hrows, htagged⟩ := h.log e he
    exact ⟨rows, hlater.sealed_kept _ _ rows hrows, htagged⟩

theorem Inv.stop (h : s.Inv) : ({ s with drain := none } : State S).Inv :=
  ⟨h.ring, h.one_name, h.pages, fun _ _ heq => by simp at heq, h.log⟩

theorem Inv.goto (h : ({ s with drain := none } : State S).Inv)
    (hp : p.Sound s.ring (s.tables name)) : (s.goto name p).Inv where
  ring := h.ring
  one_name := h.one_name
  pages := h.pages
  drain other q heq := by
    obtain ⟨rfl, rfl⟩ : name = other ∧ p = q := by simpa [State.goto] using heq
    exact hp
  log := h.log

theorem Inv.setPinned (h : s.Inv) (pinned : Option ℕ) : ({ s with pinned } : State S).Inv :=
  ⟨h.ring, h.one_name, h.pages, h.drain, h.log⟩

theorem isPrefix_concat {α : Type*} {xs all : List α} {x : α} (h : xs <+: all)
    (hx : all[xs.length]? = some x) : xs ++ [x] <+: all := by
  obtain ⟨rest, rfl⟩ := h
  rw [List.getElem?_append_right le_rfl, Nat.sub_self] at hx
  cases rest with
  | nil => cases hx
  | cons y rest =>
      obtain rfl : y = x := by simpa using hx
      exact ⟨rest, by simp⟩

/-- A row read from a chunk whose generation is sealed continues the rows the
generation was sealed with. -/
theorem Inv.readRow (h : s.Inv) {c g n : ℕ} {todo : List ℕ} {wasSealed : Bool}
    {rows : List (Fin S.cols → Value)} {row : Fin S.cols → Value}
    (hp : (DrainPc.readRow c todo g n wasSealed rows).Sound s.ring (s.tables name))
    (hrow : (s.ring.chunk c).rows[rows.length]? = some row) :
    (s.goto name (.readRow c todo g n wasSealed (rows ++ [row]))).Inv := by
  apply h.stop.goto
  refine ⟨hp.1, hp.2.1, fun hg hs => ?_⟩
  obtain ⟨all, hall, hn, hstart⟩ := hp.2.2 hg hs
  have hcurrent : (s.ring.chunk c).rows = all := h.ring.current c all (by rw [hg]; exact hall)
  exact ⟨all, hall, hn, isPrefix_concat hstart (by rw [← hcurrent]; exact hrow)⟩

variable [DecidableEq Name]

/-- Appending the page of a sealed generation above the watermark, and setting
the watermark. -/
theorem Inv.append (h : s.Inv) {c g : ℕ} {todo : List ℕ} {rows : List (Fin S.cols → Value)}
    {w : ℕ → ℕ} (hw : s.tables name = some w)
    (hp : (DrainPc.append c todo g rows).Sound s.ring (s.tables name)) :
    ((({ s with pages := s.pages ++ [⟨S.sourceInstance, c, g, transpose rows⟩] } :
      State S).setDrained name w c g).goto name (.next todo)).Inv := by
  have hlt : w c < g := by
    obtain ⟨v, hv, hlt⟩ := hp.1
    obtain rfl : w = v := Option.some.inj (hw.symm.trans hv)
    exact hlt
  refine Inv.goto ⟨h.ring, ?_, ?_, fun _ _ heq => by simp at heq, ?_⟩ trivial
  · intro other other' v v' hv hv'
    have known (n : Name) {v : ℕ → ℕ} (hv : (if n = name then
        some fun c' => if c' = c then g else w c' else s.tables n) = some v) : n = name := by
      by_cases hn : n = name
      · exact hn
      · rw [if_neg hn] at hv
        exact h.one_name n name v w hv hw
    rw [known other hv, known other' hv']
  · intro other v hv q hq hinst
    replace hv : (if other = name then some fun c' => if c' = c then g else w c'
      else s.tables other) = some v := hv
    replace hq : q ∈ s.pages ++ [⟨S.sourceInstance, c, g, transpose rows⟩] := hq
    have hother : other = name := by
      by_contra hne
      rw [if_neg hne] at hv
      exact hne (h.one_name other name v w hv hw)
    rw [if_pos hother, Option.some.injEq] at hv
    subst hv
    rcases List.mem_append.mp hq with hold | hnew
    · have hle := h.pages name w hw q hold hinst
      dsimp only
      split_ifs with hc
      · rw [hc] at hle
        exact hle.trans hlt.le
      · exact hle
    · obtain rfl := List.mem_singleton.mp hnew
      simp
  · intro e he
    rcases List.mem_append.mp he with hold | hnew
    · exact h.log e hold
    · obtain rfl := List.mem_singleton.mp hnew
      refine ⟨rows, hp.2, ?_⟩
      have hnone : s.pages.filter (fun q => q.sourceInstance = S.sourceInstance ∧
          q.sourceChunk = c ∧ q.sourceGen = g) = [] := by
        rw [List.filter_eq_nil_iff]
        intro q hq htag
        obtain ⟨hinst, hc, hg⟩ := of_decide_eq_true htag
        have hle := h.pages name w hw q hq hinst
        rw [hc, hg] at hle
        omega
      simp only [Drained.tagged, List.filter_append, hnone]
      simp

/-- A step of the compactor under the condition keeps the invariant. -/
theorem drainStep_inv (h : s.Inv) (granted : Bool) (hdrain : s.drain = some (name, p))
    (hok : s.Orderly (.compact granted)) : (s.drainStep granted name p).Inv := by
  have hp := h.drain name p hdrain
  have goto {q : DrainPc S.cols Value} (hq : q.Sound s.ring (s.tables name)) :
      (s.goto name q).Inv := h.stop.goto hq
  cases p with
  | logicalGen i order =>
      simp only [drainStep]
      split_ifs <;> exact goto trivial
  | logicalRows i g order => exact goto trivial
  | next todo =>
      cases todo with
      | nil => exact h.stop
      | cons c todo =>
          simp only [drainStep]
          split_ifs <;> exact goto trivial
  | genLoad c todo =>
      simp only [drainStep]
      cases hw : s.tables name with
      | none => exact h.stop
      | some w =>
          dsimp only
          split_ifs with hg
          · exact goto trivial
          · apply goto
            exact ⟨w, hw, by omega⟩
  | genBefore c todo =>
      simp only [drainStep]
      split_ifs
      · exact goto trivial
      · exact goto ⟨hp, le_rfl⟩
  | pin c todo g =>
      simp only [drainStep]
      split_ifs
      · exact (h.setPinned (some c)).stop.goto hp
      · apply goto
        exact ⟨hp.1, hp.2, fun _ hs => by simp at hs⟩
  | usedLoad c todo g =>
      apply h.stop.goto
      refine ⟨hp.1, hp.2, fun hg hs => ?_⟩
      obtain ⟨all, hall⟩ := Option.isSome_iff_exists.mp hs
      have hcurrent := h.ring.current c all (by rw [hg]; exact hall)
      exact ⟨all, hall, by rw [hcurrent], List.nil_prefix⟩
  | readRow c todo g n wasSealed rows =>
      simp only [drainStep]
      split_ifs with hlt
      · cases hrow : (s.ring.chunk c).rows[rows.length]? with
        | none => exact h
        | some row => exact h.readRow hp hrow
      · refine (h.setPinned none).stop.goto ⟨hp.1, hp.2.1, fun hg hs => ?_⟩
        obtain ⟨all, hall, hn, hstart⟩ := hp.2.2 hg hs
        have hrows : rows = all := hstart.eq_of_length_le (by omega)
        rw [hrows]
        exact hall
  | genAfter c todo g wasSealed rows =>
      simp only [drainStep]
      by_cases hg : s.ring.generation c = g
      · obtain ⟨hsealed, hcols, hrows⟩ := hok _ hdrain hg
        have hall := hp.2.2 hg hsealed
        rw [if_neg (by simpa using hg), if_neg]
        · exact goto ⟨hp.1, hall⟩
        · rintro (hzero | hnil)
          · omega
          · exact hrows rows hall hnil
      · rw [if_pos hg]
        exact goto trivial
  | append c todo g rows =>
      simp only [drainStep]
      obtain ⟨w, hw, -⟩ := hp.1
      replace hw : s.tables name = some w := hw
      split_ifs
      · rw [hw]
        exact h.append hw hp
      · exact h.stop

/-- The start of a drain: a name new to the table takes over the watermarks of
its seed. -/
theorem start_inv (h : s.Inv) (hok : s.Orderly (.drain name)) :
    ((s.setTable name (some ((s.tables name).getD (S.seed name)))).goto name
      (.logicalGen 0 [])).Inv := by
  have hold {other : Name} {w : ℕ → ℕ} (hw : (if other = name then
      some ((s.tables name).getD (S.seed name)) else s.tables other) = some w) :
      s.tables other = some w ∨
        (∀ n, s.tables n = none) ∧ other = name ∧ w = S.seed name := by
    by_cases hother : other = name
    · subst hother
      rw [if_pos rfl, Option.some.injEq] at hw
      cases hcur : s.tables other with
      | some v => exact .inl (by rw [← hw, hcur]; rfl)
      | none => exact .inr ⟨(hok hcur).1, rfl, by rw [← hw, hcur]; rfl⟩
    · exact .inl (by rwa [if_neg hother] at hw)
  refine Inv.goto ⟨h.ring, ?_, ?_, fun _ _ heq => by simp at heq, h.log⟩ trivial
  · intro n m w v hw hv
    rcases hold hw with hwn | ⟨hnone, hn, -⟩
    · rcases hold hv with hvm | ⟨hnone, -, -⟩
      · exact h.one_name n m w v hwn hvm
      · rw [hnone] at hwn
        cases hwn
    · rcases hold hv with hvm | ⟨-, hm, -⟩
      · rw [hnone] at hvm
        cases hvm
      · rw [hn, hm]
  · intro n w hw q hq hinst
    rcases hold hw with hw | ⟨hnone, rfl, rfl⟩
    · exact h.pages n w hw q hq hinst
    · exact (hok (hnone n)).2 q hq hinst

theorem foreign_inv (h : s.Inv) (hidle : s.drain = none) {pages : List (Page Value)}
    (hpages : ∀ p ∈ pages, p.sourceInstance ≠ S.sourceInstance) :
    ({ s.setTable name none with pages := s.pages ++ pages } : State S).Inv := by
  have hold {other : Name} {w : ℕ → ℕ}
      (hw : (if other = name then none else s.tables other) = some w) :
      s.tables other = some w := by
    by_cases hother : other = name
    · rw [if_pos hother] at hw
      cases hw
    · rwa [if_neg hother] at hw
  refine ⟨h.ring, fun n m w v hw hv => ?_, fun n w hw q hq hinst => ?_, ?_, h.log⟩
  · exact h.one_name n m w v (hold hw) (hold hv)
  · rcases List.mem_append.mp hq with hq | hq
    · exact h.pages n w (hold hw) q hq hinst
    · exact absurd hinst (hpages q hq)
  · intro n p hp
    rw [show s.drain = some (n, p) from hp] at hidle
    cases hidle

omit [DecidableEq Name] in
theorem roll_inv (h : s.Inv) : ({ s with pages := [] } : State S).Inv :=
  ⟨h.ring, h.one_name, fun _ _ _ q hq => by simp at hq, h.drain, h.log⟩

theorem step_inv {a : Action S} (h : s.Inv) (hok : s.Orderly a) (hstep : s.step a = some t) :
    t.Inv := by
  cases a with
  | push row =>
      simp only [step] at hstep
      split at hstep
      · next hidle =>
          cases hstep
          exact h.later (HotRing.append_inv h.ring hidle row) (HotRing.append_later _ row)
      · cases hstep
  | advance =>
      simp only [step] at hstep
      split at hstep
      · next hidle =>
          cases hstep
          refine h.later (h.ring.gotoPc fun c hc => ?_) ⟨fun _ => le_rfl, fun _ _ _ hs => hs⟩
          simpa [HotRing.filling, hidle] using hc
      · cases hstep
  | writer otherPin =>
      cases hstep
      exact h.later (HotRing.writerStep_inv h.ring _) (HotRing.writerStep_later h.ring _)
  | drain name =>
      simp only [step] at hstep
      split at hstep
      · cases hstep
        exact start_inv h hok
      · cases hstep
  | compact granted =>
      simp only [step] at hstep
      split at hstep
      · next name p hdrain =>
          cases hstep
          exact drainStep_inv h granted hdrain hok
      · cases hstep
  | roll sealed_ =>
      simp only [step] at hstep
      split at hstep
      · cases hstep
        exact roll_inv h
      · next name todo _ =>
          cases hstep
          cases sealed_ with
          | true => exact (roll_inv h).stop.goto trivial
          | false => exact (roll_inv h).stop
      · cases hstep
  | foreign name pages =>
      simp only [step] at hstep
      split at hstep
      · next hidle =>
          obtain ⟨hpages, ⟨⟩⟩ := Option.ite_none_right_eq_some.mp hstep
          exact foreign_inv h hidle hpages
      · cases hstep

end State

theorem inv_initial (S : Setting Name Value) : (State.initial S).Inv where
  ring := HotRing.initial_inv S.numChunks
  one_name _ _ _ _ hw := by simp [State.initial] at hw
  pages _ _ hw := by simp [State.initial] at hw
  drain _ _ hp := by simp [State.initial] at hp
  log _ he := by simp [State.initial] at he

/-- Compaction loses nothing and repeats nothing in every run in which the
watermark of a chunk is set only after a lease that was granted while the
generation was sealed. -/
theorem compaction_lossless [DecidableEq Name] (S : Setting Name Value) {acts : List (Action S)}
    {t : State S} (hok : Meets State.step State.Orderly (State.initial S) acts)
    (hrun : exec State.step (State.initial S) acts = some t) : t.Lossless :=
  (exec_invariant (fun _ _ _ => State.step_inv) (inv_initial S) hok hrun).log

section Runs

/-- Two chunks, one column, no cold segment on disk. -/
def twoChunks : Setting Unit ℕ where
  numChunks := 2
  cols := 1
  sourceInstance := 7
  seed _ _ := 0

/-- Two rows fill chunk 0, and the writer advances. -/
def fillChunk : List (Action twoChunks) :=
  [Action.push fun _ => 5, .writer false, .push fun _ => 6, .writer false, .advance] ++
    List.replicate 9 (Action.writer false)

/-- A drain up to the store to `drained_gen`, with the outcome of the lease of
its row iterator. -/
def drainOnce (granted : Bool) : List (Action twoChunks) :=
  Action.drain () :: List.replicate 9 (Action.compact granted) ++
    List.replicate (if granted then 6 else 1) (.compact true)

instance (s : State twoChunks) : ∀ a, Decidable (s.Orderly a)
  | .drain name => inferInstanceAs (Decidable (s.tables name = none →
      (∀ other, s.tables other = none) ∧ ∀ p ∈ s.pages, p.sourceInstance = 7 →
        p.sourceGen ≤ 0))
  | .compact _ => inferInstanceAs (Decidable (∀ d ∈ s.drain, _))
  | .push _ | .advance | .writer _ | .roll _ | .foreign _ _ => inferInstanceAs (Decidable True)

/-- The stores to `drained_gen`, each with the tagged pages. -/
def State.drained (t : State twoChunks) : List (ℕ × ℕ × List (List (List ℕ))) :=
  t.log.map fun e => (e.chunk, e.gen, (e.tagged 7).map Page.columns)

/-- With the lease granted, generation 1 of chunk 0 is drained with its page. -/
theorem compaction_lossless_granted :
    ∃ t, exec State.step (State.initial twoChunks) (fillChunk ++ drainOnce true) = some t ∧
      t.drained = [(0, 1, [[[5, 6]]])] ∧ t.Lossless := by
  have hrun : (exec State.step (State.initial twoChunks) (fillChunk ++ drainOnce true)).any
      (fun t => t.drained = [(0, 1, [[[5, 6]]])]) = true := by
    decide
  have hok : Meets State.step State.Orderly (State.initial twoChunks)
      (fillChunk ++ drainOnce true) := by
    decide
  obtain ⟨t, ht, hdrained⟩ := (Option.any_eq_true _ _).mp hrun
  exact ⟨t, ht, of_decide_eq_true hdrained, compaction_lossless twoChunks hok ht⟩

/-- With the lease refused, the rows of generation 1 of chunk 0 count as drained
and no page has them. -/
theorem compaction_loses_chunk :
    ∃ t, exec State.step (State.initial twoChunks) (fillChunk ++ drainOnce false) = some t ∧
      t.drained = [(0, 1, [])] ∧ (t.ring.sealedRows 0 1).isSome ∧ ¬ t.Lossless := by
  have hrun : (exec State.step (State.initial twoChunks) (fillChunk ++ drainOnce false)).any
      (fun t => t.drained = [(0, 1, [])] ∧ (t.ring.sealedRows 0 1).isSome) = true := by
    decide
  obtain ⟨t, ht, hboth⟩ := (Option.any_eq_true _ _).mp hrun
  obtain ⟨hdrained, hsealed⟩ := of_decide_eq_true hboth
  refine ⟨t, ht, hdrained, hsealed, fun h => ?_⟩
  obtain ⟨e, he, htag⟩ := List.map_eq_singleton_iff.mp hdrained
  obtain ⟨rows, -, hpages⟩ := h e (by simp [he])
  have hnil : (e.tagged 7).map Page.columns = [] := (Prod.mk.inj (Prod.mk.inj htag).2).2
  rw [show (e.tagged twoChunks.sourceInstance).map Page.columns = [] from hnil] at hpages
  cases hpages

end Runs

end Probing.Memc.Compactor
