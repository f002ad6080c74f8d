import Mathlib.Algebra.Order.Ring.Int
import Mathlib.Data.List.Nodup

/-!
# The ring of samples

Signal handlers and cooperative samplers claim a cell of the ring and fill it in place;
consumers claim and copy the filled cells. Calls move one atomic access at a time, and cells
are written and copied word by word. A call that interrupts another one is an agent of its
own.
-/

namespace Probing.Stacktrace.Pprof

def ringSize : ℕ := 512

def ringMask : ℕ := ringSize - 1

/-- The cell of a position. -/
def cellOf (pos : ℕ) : ℕ := pos &&& ringMask

/-- What `fill` does: word stores into the cell, in any order, and then its result. -/
structure Fill (W : Type) where
  stores : List (ℕ × W)
  keep : Bool

structure Cell (W : Type) where
  seq : ℕ
  data : List W

/-- A cell that a producer has published; `keep` is the result of its fill. -/
structure Accepted (W : Type) where
  pos : ℕ
  content : List W
  keep : Bool

/-- A cell that a consumer has copied. -/
structure Delivered (W : Type) where
  pos : ℕ
  copied : List W

/-- The positions never wrap; the two histories are not read by any branch. -/
structure Ring (W : Type) where
  cells : ℕ → Cell W
  enqueuePos : ℕ
  dequeuePos : ℕ
  accepted : List (Accepted W)
  delivered : List (Delivered W)

/-- Where a call is: the next access it makes. No branch reads `content`, which is what the fill
makes of the words that it found. -/
inductive Pc (W : Type) where
  | idle
  | enqueueLoad (fill : Fill W)
  | enqueueSeq (fill : Fill W) (pos : ℕ)
  | enqueueClaim (fill : Fill W) (pos : ℕ)
  | filling (stores : List (ℕ × W)) (keep : Bool) (pos : ℕ) (content : List W)
  | clearing (pos : ℕ)
  | publish (pos : ℕ) (content : List W) (keep : Bool)
  | dequeueLoad
  | dequeueSeq (pos : ℕ)
  | dequeueClaim (pos : ℕ)
  | copy (pos : ℕ) (copied : List W)
  | release (pos : ℕ) (copied : List W)

namespace Ring

variable {W : Type}

/-- `Ring::new`. -/
def new (zeroed : List W) : Ring W where
  cells i := ⟨i, zeroed⟩
  enqueuePos := 0
  dequeuePos := 0
  accepted := []
  delivered := []

def cell (r : Ring W) (pos : ℕ) : Cell W := r.cells (cellOf pos)

def setCell (r : Ring W) (pos : ℕ) (c : Cell W) : Ring W :=
  { r with cells := Function.update r.cells (cellOf pos) c }

end Ring

structure State (A W : Type) where
  ring : Ring W
  pc : A → Pc W

/-- A call begins, or makes its next access; a weak exchange may fail without a cause. -/
inductive Action (A W : Type) where
  | enqueueWith (a : A) (fill : Fill W)
  | dequeue (a : A)
  | step (a : A) (spurious : Bool)

namespace State

variable {A W : Type} [DecidableEq A] (zeroed : List W)

def new : State A W := ⟨.new zeroed, fun _ => .idle⟩

def goto (s : State A W) (a : A) (r : Ring W) (p : Pc W) : State A W :=
  ⟨r, Function.update s.pc a p⟩

/-- One access of a call. -/
def advance (s : State A W) (a : A) (spurious : Bool) : State A W :=
  let r := s.ring
  match s.pc a with
  | .idle => s
  | .enqueueLoad fill => s.goto a r (.enqueueSeq fill r.enqueuePos)
  | .enqueueSeq fill pos =>
      let seq := (r.cell pos).seq
      s.goto a r (if seq = pos then .enqueueClaim fill pos else if seq <
        pos then .idle else .enqueueLoad fill)
  | .enqueueClaim fill pos =>
      if r.enqueuePos = pos ∧ spurious = false then
        s.goto a { r with enqueuePos := pos + 1 }
          (.filling fill.stores fill.keep pos (r.cell pos).data)
      else s.goto a r (.enqueueSeq fill pos)
  | .filling ((offset, word) :: stores) keep pos content =>
      s.goto a (r.setCell pos ⟨(r.cell pos).seq, (r.cell pos).data.set offset word⟩)
        (.filling stores keep pos (content.set offset word))
  | .filling [] keep pos content =>
      s.goto a r (if keep then .publish pos content true else .clearing pos)
  | .clearing pos => s.goto a (r.setCell pos ⟨(r.cell pos).seq, zeroed⟩) (.publish pos zeroed false)
  | .publish pos content keep =>
      s.goto a
        { r.setCell pos ⟨pos + 1, (r.cell pos).data⟩ with accepted := r.accepted ++
          [⟨pos, content, keep⟩] } .idle
  | .dequeueLoad => s.goto a r (.dequeueSeq r.dequeuePos)
  | .dequeueSeq pos =>
      let seq := (r.cell pos).seq
      s.goto a r (if seq = pos + 1 then .dequeueClaim pos else if seq <
        pos + 1 then .idle else .dequeueLoad)
  | .dequeueClaim pos =>
      if r.dequeuePos = pos ∧ spurious = false then
        s.goto a { r with dequeuePos := pos + 1 } (.copy pos [])
      else s.goto a r (.dequeueSeq pos)
  | .copy pos copied =>
      match (r.cell pos).data[copied.length]? with
      | some word => s.goto a r (.copy pos (copied ++ [word]))
      | none => s.goto a r (.release pos copied)
  | .release pos copied =>
      s.goto a
        { r.setCell pos ⟨pos + ringSize, (r.cell pos).data⟩ with delivered := r.delivered ++
          [⟨pos, copied⟩] } .idle

/-- An agent begins a call when it is in none. -/
def act (s : State A W) : Action A W → State A W
  | .enqueueWith a fill =>
      match s.pc a with
      | .idle => s.goto a s.ring (.enqueueLoad fill)
      | _ => s
  | .dequeue a =>
      match s.pc a with
      | .idle => s.goto a s.ring .dequeueLoad
      | _ => s
  | .step a spurious => s.advance zeroed a spurious

def run (s : State A W) (acts : List (Action A W)) : State A W := acts.foldl (act zeroed) s

end State

section Cells

variable {W : Type} {p q : ℕ}

theorem cellOf_eq (pos : ℕ) : cellOf pos = pos % 512 := Nat.and_two_pow_sub_one_eq_mod pos 9

/-- Positions less than a lap apart have different cells. -/
theorem eq_of_cell (h : cellOf p = cellOf q) (hpq : p < q + ringSize) (hqp : q < p + ringSize) :
    p = q := by
  rw [cellOf_eq, cellOf_eq] at h
  unfold ringSize at hpq hqp
  omega

theorem cellOf_add (pos : ℕ) : cellOf (pos + ringSize) = cellOf pos := by
  rw [cellOf_eq, cellOf_eq]
  exact Nat.add_mod_right pos 512

theorem cellOf_succ_ne (pos : ℕ) : cellOf (pos + 1) ≠ cellOf pos := by
  rw [cellOf_eq, cellOf_eq]
  omega

variable {r : Ring W} {c : Cell W}

theorem Ring.cell_congr (h : cellOf p = cellOf q) : r.cell p = r.cell q := congrArg r.cells h

@[simp] theorem Ring.cell_set (h : cellOf q = cellOf p) : (r.setCell p c).cell q = c := by
  unfold Ring.cell Ring.setCell
  rw [h]
  exact Function.update_self _ _ _

@[simp] theorem Ring.cell_set_of_ne (h : cellOf q ≠ cellOf p) : (r.setCell p c).cell q = r.cell q :=
  Function.update_of_ne h _ _

end Cells

/-- Which positions are claimed, by which calls, and what the cells and the histories then hold:
`F` fill a position, `T` copy one, and `M` tells which contents a result comes with. -/
structure Places {A W : Type} (M : Bool → List W → Prop) (F T : A → Option ℕ)
    (r : Ring W) : Prop where
  order : r.dequeuePos ≤ r.enqueuePos
  bound : r.enqueuePos ≤ r.dequeuePos + ringSize
  filler : ∀ {a p}, F a = some p → r.dequeuePos ≤ p ∧ p < r.enqueuePos ∧ (r.cell p).seq = p
  taker : ∀ {a q}, T a = some q → q < r.dequeuePos ∧ r.enqueuePos ≤ q + ringSize ∧
    (r.cell q).seq = q + 1
  one_filler : ∀ {a b p}, F a = some p → F b = some p → a = b
  one_taker : ∀ {a b q}, T a = some q → T b = some q → a = b
  full : ∀ p, r.dequeuePos ≤ p → p < r.enqueuePos → (∃ a, F a = some p) ∨
    (r.cell p).seq = p + 1 ∧ ∃ x ∈ r.accepted, x.pos = p ∧ x.content = (r.cell p).data
  free : ∀ p, r.enqueuePos ≤ p → p < r.dequeuePos + ringSize →
    (r.cell p).seq = p ∨ ∃ a q, T a = some q ∧ q + ringSize = p
  accepted_once : (r.accepted.map (·.pos)).Nodup
  accepted_iff : ∀ p, p < r.enqueuePos ↔ (∃ x ∈ r.accepted, x.pos = p) ∨ ∃ a, F a = some p
  unaccepted : ∀ {a p}, F a = some p → ∀ x ∈ r.accepted, x.pos ≠ p
  made : ∀ x ∈ r.accepted, M x.keep x.content
  delivered_once : (r.delivered.map (·.pos)).Nodup
  delivered_iff : ∀ p, p < r.dequeuePos ↔ (∃ y ∈ r.delivered, y.pos = p) ∨ ∃ a, T a = some p
  undelivered : ∀ {a q}, T a = some q → ∀ y ∈ r.delivered, y.pos ≠ q
  faithful : ∀ y ∈ r.delivered, ∃ x ∈ r.accepted, x.pos = y.pos ∧ x.content = y.copied

namespace Places

variable {A W : Type} {M : Bool → List W → Prop} {F T : A → Option ℕ} {r : Ring W}
    {a b : A} {p q : ℕ}

theorem new (zeroed : List W) : Places M (fun _ : A => none) (fun _ => none) (.new zeroed) where
  order := Nat.le_refl _
  bound := Nat.zero_le _
  filler h := nomatch h
  taker h := nomatch h
  one_filler h := nomatch h
  one_taker h := nomatch h
  full p _ h := (Nat.not_lt_zero p h).elim
  free p _ h := by
    change p < 0 + ringSize at h
    refine .inl ?_
    change cellOf p = p
    rw [cellOf_eq]
    unfold ringSize at h
    omega
  accepted_once := List.nodup_nil
  accepted_iff p := iff_of_false (Nat.not_lt_zero p) fun h =>
    h.elim (fun ⟨_, h, _⟩ => List.not_mem_nil h) fun ⟨_, h⟩ => nomatch h
  unaccepted h := nomatch h
  made x h := (List.not_mem_nil h).elim
  delivered_once := List.nodup_nil
  delivered_iff p := iff_of_false (Nat.not_lt_zero p) fun h =>
    h.elim (fun ⟨_, h, _⟩ => List.not_mem_nil h) fun ⟨_, h⟩ => nomatch h
  undelivered h := nomatch h
  faithful y h := (List.not_mem_nil h).elim

/-- No two calls are inside one cell. -/
theorem exclusive (h : Places M F T r) (ha : F a = some p ∨ T a = some p)
    (hb : F b = some q ∨ T b = some q) (hcell : cellOf p = cellOf q) :
    p = q ∧ (F a = some p ∧ F b = some p ∨ T a = some p ∧ T b = some p) := by
  have horder := h.order
  have hbound := h.bound
  rcases ha with ha | ha
  · obtain ⟨hlow, hhigh, hseq⟩ := h.filler ha
    rcases hb with hb | hb
    · obtain ⟨hlow', hhigh', -⟩ := h.filler hb
      obtain rfl := eq_of_cell hcell (by omega) (by omega)
      exact ⟨rfl, .inl ⟨ha, hb⟩⟩
    · obtain ⟨hlow', hhigh', hseq'⟩ := h.taker hb
      rw [Ring.cell_congr hcell, hseq'] at hseq
      subst hseq
      exact absurd hcell (cellOf_succ_ne q)
  · obtain ⟨hlow, hhigh, hseq⟩ := h.taker ha
    rcases hb with hb | hb
    · obtain ⟨hlow', hhigh', hseq'⟩ := h.filler hb
      rw [Ring.cell_congr hcell, hseq'] at hseq
      subst hseq
      exact absurd hcell.symm (cellOf_succ_ne p)
    · obtain ⟨hlow', hhigh', -⟩ := h.taker hb
      obtain rfl := eq_of_cell hcell (by omega) (by omega)
      exact ⟨rfl, .inr ⟨ha, hb⟩⟩

/-- A producer stores a word into its cell. -/
theorem store (h : Places M F T r) (hF : F a = some p) (data : List W) :
    Places M F T (r.setCell p ⟨(r.cell p).seq, data⟩) := by
  have hbound := h.bound
  obtain ⟨hlow, hhigh, -⟩ := h.filler hF
  have hseq (q : ℕ) : ((r.setCell p ⟨(r.cell p).seq, data⟩).cell q).seq = (r.cell q).seq := by
    by_cases hcell : cellOf q = cellOf p
    · rw [Ring.cell_set hcell, Ring.cell_congr hcell]
    · rw [Ring.cell_set_of_ne hcell]
  refine ⟨h.order, hbound, ?_, ?_, h.one_filler, h.one_taker, ?_, ?_, h.accepted_once,
    h.accepted_iff, h.unaccepted, h.made, h.delivered_once, h.delivered_iff,
    h.undelivered, h.faithful⟩
  · intro b q hb
    rw [hseq]
    exact h.filler hb
  · intro b q hb
    rw [hseq]
    exact h.taker hb
  · intro q hq hq'
    by_cases hqp : q = p
    · exact .inl ⟨a, hqp ▸ hF⟩
    · have hcell : cellOf q ≠ cellOf p := fun hcell =>
        hqp
          (eq_of_cell hcell
          (by change r.dequeuePos ≤ q at hq; change q < r.enqueuePos at hq'; omega)
          (by change r.dequeuePos ≤ q at hq; omega))
      rw [Ring.cell_set_of_ne hcell]
      exact h.full q hq hq'
  · intro q hq hq'
    rw [hseq]
    exact h.free q hq hq'

section Claims

variable [DecidableEq A]

theorem update_some_cases {e : ℕ} (h : Function.update F a (some e) b = some p) :
    b = a ∧ p = e ∨ b ≠ a ∧ F b = some p := by
  by_cases hb : b = a
  · rw [hb, Function.update_self] at h
    exact .inl ⟨hb, (Option.some.inj h).symm⟩
  · rw [Function.update_of_ne hb] at h
    exact .inr ⟨hb, h⟩

theorem update_none_cases (h : Function.update F a none b = some p) : b ≠ a ∧ F b = some p := by
  by_cases hb : b = a
  · rw [hb, Function.update_self] at h
    cases h
  · rw [Function.update_of_ne hb] at h
    exact ⟨hb, h⟩

theorem exists_update_some {e : ℕ} (hF : F a = none) :
    (∃ b, Function.update F a (some e) b = some p) ↔ p = e ∨ ∃ b, F b = some p := by
  constructor
  · rintro ⟨b, hb⟩
    rcases update_some_cases hb with ⟨-, rfl⟩ | ⟨-, hb⟩
    · exact .inl rfl
    · exact .inr ⟨b, hb⟩
  · rintro (rfl | ⟨b, hb⟩)
    · exact ⟨a, Function.update_self _ _ _⟩
    · have hba : b ≠ a := by
        rintro rfl
        cases hF.symm.trans hb
      exact ⟨b, by rwa [Function.update_of_ne hba]⟩

theorem exists_update_none {e : ℕ} (hF : F a = some e)
    (hone : ∀ {b c}, F b = some e → F c = some e → b = c) :
    (∃ b, Function.update F a none b = some p) ↔ p ≠ e ∧ ∃ b, F b = some p := by
  constructor
  · rintro ⟨b, hb⟩
    obtain ⟨hba, hb⟩ := update_none_cases hb
    refine ⟨?_, b, hb⟩
    rintro rfl
    exact hba (hone hb hF)
  · rintro ⟨hne, b, hb⟩
    have hba : b ≠ a := by
      rintro rfl
      exact hne (Option.some.inj (hb.symm.trans hF))
    exact ⟨b, by rwa [Function.update_of_ne hba]⟩

/-- A producer claims the next position, whose cell is free. -/
theorem claim_fill (h : Places M F T r) (hF : F a = none)
    (hseq : (r.cell r.enqueuePos).seq = r.enqueuePos) :
    Places M (Function.update F a (some r.enqueuePos)) T
    { r with enqueuePos := r.enqueuePos + 1 } := by
  have horder := h.order
  have hbound := h.bound
  have hroom : r.enqueuePos < r.dequeuePos + ringSize := by
    by_contra hfull
    have he : r.enqueuePos = r.dequeuePos + ringSize := by omega
    have hcell : r.cell r.enqueuePos = r.cell r.dequeuePos := by
      rw [he]
      exact Ring.cell_congr (cellOf_add _)
    unfold ringSize at he hfull
    rw [hcell] at hseq
    rcases h.full r.dequeuePos (Nat.le_refl _) (by omega) with ⟨b, hb⟩ | ⟨hready, -⟩
    · have := (h.filler hb).2.2
      omega
    · omega
  refine ⟨Nat.le_succ_of_le horder, hroom, ?_, ?_, ?_, h.one_taker, ?_, ?_,
    h.accepted_once, ?_, ?_, h.made, h.delivered_once, h.delivered_iff, h.undelivered, h.faithful⟩
  · intro b p hb
    rcases update_some_cases hb with ⟨-, rfl⟩ | ⟨-, hb⟩
    · exact ⟨horder, Nat.lt_succ_self _, hseq⟩
    · obtain ⟨hlow, hhigh, hp⟩ := h.filler hb
      exact ⟨hlow, Nat.lt_succ_of_lt hhigh, hp⟩
  · intro b q hb
    obtain ⟨hlow, hhigh, hq⟩ := h.taker hb
    refine ⟨hlow, ?_, hq⟩
    have hne : r.enqueuePos ≠ q + ringSize := by
      intro he
      have hcell : r.cell r.enqueuePos = r.cell q := by
        rw [he]
        exact Ring.cell_congr (cellOf_add _)
      rw [hcell, hq] at hseq
      unfold ringSize at he
      omega
    dsimp only
    omega
  · intro b c p hb hc
    rcases update_some_cases hb with ⟨rfl, rfl⟩ | ⟨hba, hb⟩
    · rcases update_some_cases hc with ⟨rfl, -⟩ | ⟨-, hc⟩
      · rfl
      · exact absurd (h.filler hc).2.1 (Nat.lt_irrefl _)
    · rcases update_some_cases hc with ⟨-, rfl⟩ | ⟨-, hc⟩
      · exact absurd (h.filler hb).2.1 (Nat.lt_irrefl _)
      · exact h.one_filler hb hc
  · intro p hlow hhigh
    change p < r.enqueuePos + 1 at hhigh
    rw [exists_update_some hF]
    by_cases hp : p = r.enqueuePos
    · exact .inl (.inl hp)
    · exact (h.full p hlow (by omega)).imp_left .inr
  · intro p hlow hhigh
    exact h.free p (by dsimp only at hlow; omega) hhigh
  · intro p
    change p < r.enqueuePos + 1 ↔ _
    have hiff := h.accepted_iff p
    rw [exists_update_some hF]
    constructor
    · intro hp
      by_cases he : p = r.enqueuePos
      · exact .inr (.inl he)
      · exact (hiff.mp (by omega)).imp_right .inr
    · rintro (hx | rfl | hb)
      · exact Nat.lt_succ_of_lt (hiff.mpr (.inl hx))
      · exact Nat.lt_succ_self _
      · exact Nat.lt_succ_of_lt (hiff.mpr (.inr hb))
  · intro b p hb x hx
    rcases update_some_cases hb with ⟨-, rfl⟩ | ⟨-, hb⟩
    · exact Nat.ne_of_lt ((h.accepted_iff x.pos).mpr (.inl ⟨x, hx, rfl⟩))
    · exact h.unaccepted hb x hx

/-- A producer publishes its cell. -/
theorem publish {content : List W} {keep : Bool} (h : Places M F T r) (hF : F a = some p)
    (hdata : (r.cell p).data = content) (hmade : M keep content) :
    Places M (Function.update F a none) T
      { r.setCell p ⟨p + 1, (r.cell p).data⟩ with accepted := r.accepted ++
          [⟨p, content, keep⟩] } := by
  have hbound := h.bound
  obtain ⟨hlow, hhigh, hseq⟩ := h.filler hF
  have hother {q : ℕ} (hne : q ≠ p) (hq : q < p + ringSize) (hp : p < q + ringSize) :
      (r.setCell p ⟨p + 1, (r.cell p).data⟩).cell q = r.cell q :=
    Ring.cell_set_of_ne fun hcell => hne (eq_of_cell hcell hq hp)
  have hnew : ∀ x ∈ r.accepted, x.pos ≠ p := h.unaccepted hF
  have hmem {q : ℕ} : (∃ x ∈ r.accepted ++ [(⟨p, content, keep⟩ : Accepted W)], x.pos = q) ↔
      (∃ x ∈ r.accepted, x.pos = q) ∨ p = q := by
    simp only [List.mem_append, List.mem_singleton, or_and_right, exists_or, exists_eq_left]
  refine ⟨h.order, hbound, ?_, ?_, ?_, h.one_taker, ?_, ?_, ?_, ?_, ?_, ?_, h.delivered_once,
    h.delivered_iff, h.undelivered, ?_⟩
  · intro b q hb
    obtain ⟨hba, hb⟩ := update_none_cases hb
    obtain ⟨hlow', hhigh', hseq'⟩ := h.filler hb
    have hne : q ≠ p := by
      rintro rfl
      exact hba (h.one_filler hb hF)
    refine ⟨hlow', hhigh', ?_⟩
    change ((r.setCell p _).cell q).seq = q
    rw [hother hne (by omega) (by omega), hseq']
  · intro b q hb
    obtain ⟨hlow', hhigh', hseq'⟩ := h.taker hb
    refine ⟨hlow', hhigh', ?_⟩
    change ((r.setCell p _).cell q).seq = q + 1
    rw [hother (by omega) (by omega) (by omega), hseq']
  · intro b c q hb hc
    exact h.one_filler (update_none_cases hb).2 (update_none_cases hc).2
  · intro q hq hq'
    change r.dequeuePos ≤ q at hq
    change q < r.enqueuePos at hq'
    rw [exists_update_none hF h.one_filler]
    change _ ∨ ((r.setCell p _).cell q).seq = q + 1 ∧
      ∃ x ∈ r.accepted ++ [_], x.pos = q ∧ x.content = ((r.setCell p _).cell q).data
    by_cases hqp : q = p
    · subst hqp
      rw [Ring.cell_set rfl]
      exact .inr ⟨rfl, _, List.mem_append_right _ List.mem_cons_self, rfl, hdata.symm⟩
    · rw [hother hqp (by omega) (by omega)]
      refine (h.full q hq hq').imp (fun hfill => ⟨hqp, hfill⟩)
          fun ⟨hready, x, hx, hpos, hcontent⟩ =>
        ⟨hready, x, List.mem_append_left _ hx, hpos, hcontent⟩
  · intro q hq hq'
    change r.enqueuePos ≤ q at hq
    change q < r.dequeuePos + ringSize at hq'
    change ((r.setCell p _).cell q).seq = q ∨ _
    rw [hother (by omega) (by omega) (by omega)]
    exact h.free q hq hq'
  · rw [List.map_append, List.nodup_append]
    refine ⟨h.accepted_once, List.nodup_singleton _, ?_⟩
    rintro _ hx _ hp rfl
    obtain ⟨x, hx, hpos⟩ := List.mem_map.mp hx
    exact hnew x hx (hpos.trans (List.mem_singleton.mp hp))
  · intro q
    change q < r.enqueuePos ↔ (∃ x ∈ r.accepted ++ [_], x.pos = q) ∨ _
    rw [hmem, exists_update_none hF h.one_filler, h.accepted_iff]
    by_cases hqp : q = p
    · subst hqp
      exact iff_of_true (.inr ⟨a, hF⟩) (.inl (.inr rfl))
    · constructor
      · rintro (hx | hb)
        · exact .inl (.inl hx)
        · exact .inr ⟨hqp, hb⟩
      · rintro ((hx | hp) | ⟨-, hb⟩)
        · exact .inl hx
        · exact absurd hp.symm hqp
        · exact .inr hb
  · intro b q hb x hx
    obtain ⟨hba, hb⟩ := update_none_cases hb
    rcases List.mem_append.mp hx with hx | hx
    · exact h.unaccepted hb x hx
    · rw [List.mem_singleton.mp hx]
      rintro rfl
      exact hba (h.one_filler hb hF)
  · intro x hx
    rcases List.mem_append.mp hx with hx | hx
    · exact h.made x hx
    · rw [List.mem_singleton.mp hx]
      exact hmade
  · intro y hy
    obtain ⟨x, hx, hpos, hcontent⟩ := h.faithful y hy
    exact ⟨x, List.mem_append_left _ hx, hpos, hcontent⟩

/-- A consumer claims the next position, whose cell is published. -/
theorem claim_take (h : Places M F T r) (hT : T a = none)
    (hseq : (r.cell r.dequeuePos).seq = r.dequeuePos + 1) :
    Places M F (Function.update T a (some r.dequeuePos)) { r with dequeuePos := r.dequeuePos + 1 } ∧
      ∃ x ∈ r.accepted, x.pos = r.dequeuePos ∧ x.content = (r.cell r.dequeuePos).data := by
  have horder := h.order
  have hbound := h.bound
  have hnone : ∀ b, F b ≠ some r.dequeuePos := by
    intro b hb
    have := (h.filler hb).2.2
    omega
  have hready : r.dequeuePos < r.enqueuePos := by
    by_contra hempty
    rcases h.free r.dequeuePos (by omega) (by unfold ringSize; omega) with hfree | ⟨b, q, hb, hq⟩
    · omega
    · have hcell : r.cell r.dequeuePos = r.cell q := by
        rw [← hq]
        exact Ring.cell_congr (cellOf_add _)
      rw [hcell, (h.taker hb).2.2] at hseq
      unfold ringSize at hq
      omega
  constructor
  swap
  · rcases h.full r.dequeuePos (Nat.le_refl _) hready with ⟨b, hb⟩ | ⟨-, hx⟩
    · exact absurd hb (hnone b)
    · exact hx
  refine ⟨hready, by dsimp only; omega, ?_, ?_, h.one_filler, ?_, ?_, ?_, h.accepted_once,
    h.accepted_iff, h.unaccepted, h.made, h.delivered_once, ?_, ?_, h.faithful⟩
  · intro b p hb
    obtain ⟨hlow, hhigh, hp⟩ := h.filler hb
    have hne : p ≠ r.dequeuePos := by
      rintro rfl
      exact hnone b hb
    exact ⟨by dsimp only; omega, hhigh, hp⟩
  · intro b q hb
    rcases update_some_cases hb with ⟨-, rfl⟩ | ⟨-, hb⟩
    · exact ⟨Nat.lt_succ_self _, hbound, hseq⟩
    · obtain ⟨hlow, hhigh, hq⟩ := h.taker hb
      exact ⟨Nat.lt_succ_of_lt hlow, hhigh, hq⟩
  · intro b c q hb hc
    rcases update_some_cases hb with ⟨rfl, rfl⟩ | ⟨hba, hb⟩
    · rcases update_some_cases hc with ⟨rfl, -⟩ | ⟨-, hc⟩
      · rfl
      · exact absurd (h.taker hc).1 (Nat.lt_irrefl _)
    · rcases update_some_cases hc with ⟨-, rfl⟩ | ⟨-, hc⟩
      · exact absurd (h.taker hb).1 (Nat.lt_irrefl _)
      · exact h.one_taker hb hc
  · intro p hlow hhigh
    exact h.full p (by dsimp only at hlow; omega) hhigh
  · intro p hlow hhigh
    change p < r.dequeuePos + 1 + ringSize at hhigh
    by_cases hp : p = r.dequeuePos + ringSize
    · exact .inr ⟨a, _, Function.update_self _ _ _, hp.symm⟩
    · refine (h.free p hlow (by omega)).imp_right fun ⟨b, q, hb, hq⟩ => ⟨b, q, ?_, hq⟩
      have hba : b ≠ a := by
        rintro rfl
        cases hT.symm.trans hb
      rwa [Function.update_of_ne hba]
  · intro p
    change p < r.dequeuePos + 1 ↔ _
    have hiff := h.delivered_iff p
    rw [exists_update_some hT]
    constructor
    · intro hp
      by_cases he : p = r.dequeuePos
      · exact .inr (.inl he)
      · exact (hiff.mp (by omega)).imp_right .inr
    · rintro (hy | rfl | hb)
      · exact Nat.lt_succ_of_lt (hiff.mpr (.inl hy))
      · exact Nat.lt_succ_self _
      · exact Nat.lt_succ_of_lt (hiff.mpr (.inr hb))
  · intro b q hb y hy
    rcases update_some_cases hb with ⟨-, rfl⟩ | ⟨-, hb⟩
    · exact Nat.ne_of_lt ((h.delivered_iff y.pos).mpr (.inl ⟨y, hy, rfl⟩))
    · exact h.undelivered hb y hy

/-- A consumer gives its cell back for the next lap. -/
theorem release {copied : List W} (h : Places M F T r) (hT : T a = some q)
    (hcopied : ∃ x ∈ r.accepted, x.pos = q ∧ x.content = copied) :
    Places M F (Function.update T a none)
      { r.setCell q ⟨q + ringSize, (r.cell q).data⟩ with delivered := r.delivered ++
          [⟨q, copied⟩] } := by
  have horder := h.order
  have hbound := h.bound
  obtain ⟨hlow, hhigh, hseq⟩ := h.taker hT
  have hother {p : ℕ} (hne : p ≠ q) (hq : q < p + ringSize) (hp : p < q + ringSize) :
      (r.setCell q ⟨q + ringSize, (r.cell q).data⟩).cell p = r.cell p :=
    Ring.cell_set_of_ne fun hcell => hne (eq_of_cell hcell hp hq)
  have hnew : ∀ y ∈ r.delivered, y.pos ≠ q := h.undelivered hT
  have hmem {p : ℕ} : (∃ y ∈ r.delivered ++ [(⟨q, copied⟩ : Delivered W)], y.pos = p) ↔
      (∃ y ∈ r.delivered, y.pos = p) ∨ q = p := by
    simp only [List.mem_append, List.mem_singleton, or_and_right, exists_or, exists_eq_left]
  refine ⟨horder, hbound, ?_, ?_, h.one_filler, ?_, ?_, ?_, h.accepted_once, h.accepted_iff,
    h.unaccepted, h.made, ?_, ?_, ?_, ?_⟩
  · intro b p hb
    obtain ⟨hlow', hhigh', hseq'⟩ := h.filler hb
    refine ⟨hlow', hhigh', ?_⟩
    change ((r.setCell q _).cell p).seq = p
    rw [hother (by omega) (by omega) (by omega), hseq']
  · intro b p hb
    obtain ⟨hba, hb⟩ := update_none_cases hb
    obtain ⟨hlow', hhigh', hseq'⟩ := h.taker hb
    have hne : p ≠ q := by
      rintro rfl
      exact hba (h.one_taker hb hT)
    refine ⟨hlow', hhigh', ?_⟩
    change ((r.setCell q _).cell p).seq = p + 1
    rw [hother hne (by omega) (by omega), hseq']
  · intro b c p hb hc
    exact h.one_taker (update_none_cases hb).2 (update_none_cases hc).2
  · intro p hp hp'
    change r.dequeuePos ≤ p at hp
    change p < r.enqueuePos at hp'
    change _ ∨ ((r.setCell q _).cell p).seq = p + 1 ∧
      ∃ x ∈ r.accepted, x.pos = p ∧ x.content = ((r.setCell q _).cell p).data
    rw [hother (by omega) (by omega) (by omega)]
    exact h.full p hp hp'
  · intro p hp hp'
    change r.enqueuePos ≤ p at hp
    change p < r.dequeuePos + ringSize at hp'
    change ((r.setCell q _).cell p).seq = p ∨ _
    by_cases hpq : p = q + ringSize
    · rw [Ring.cell_set (hpq ▸ cellOf_add q)]
      exact .inl hpq.symm
    · have hcell : cellOf p ≠ cellOf q := by
        intro hcell
        rw [← cellOf_add q] at hcell
        exact hpq (eq_of_cell hcell (by omega) (by omega))
      rw [Ring.cell_set_of_ne hcell]
      refine (h.free p hp hp').imp_right fun ⟨b, q', hb, hq'⟩ => ⟨b, q', ?_, hq'⟩
      have hba : b ≠ a := by
        rintro rfl
        exact hpq (by rw [← hq', Option.some.inj (hb.symm.trans hT)])
      rwa [Function.update_of_ne hba]
  · rw [List.map_append, List.nodup_append]
    refine ⟨h.delivered_once, List.nodup_singleton _, ?_⟩
    rintro _ hy _ hq rfl
    obtain ⟨y, hy, hpos⟩ := List.mem_map.mp hy
    exact hnew y hy (hpos.trans (List.mem_singleton.mp hq))
  · intro p
    change p < r.dequeuePos ↔ (∃ y ∈ r.delivered ++ [_], y.pos = p) ∨ _
    rw [hmem, exists_update_none hT h.one_taker, h.delivered_iff]
    by_cases hpq : p = q
    · subst hpq
      exact iff_of_true (.inr ⟨a, hT⟩) (.inl (.inr rfl))
    · constructor
      · rintro (hy | hb)
        · exact .inl (.inl hy)
        · exact .inr ⟨hpq, hb⟩
      · rintro ((hy | hq) | ⟨-, hb⟩)
        · exact .inl hy
        · exact absurd hq.symm hpq
        · exact .inr hb
  · intro b p hb y hy
    obtain ⟨hba, hb⟩ := update_none_cases hb
    rcases List.mem_append.mp hy with hy | hy
    · exact h.undelivered hb y hy
    · rw [List.mem_singleton.mp hy]
      rintro rfl
      exact hba (h.one_taker hb hT)
  · intro y hy
    rcases List.mem_append.mp hy with hy | hy
    · exact h.faithful y hy
    · rw [List.mem_singleton.mp hy]
      exact hcopied

end Claims

end Places

namespace Pc

variable {W : Type}

/-- The position that a producer has claimed. -/
def fills : Pc W → Option ℕ
  | filling _ _ pos _ | clearing pos | publish pos _ _ => some pos
  | _ => none

/-- The position that a consumer has claimed. -/
def takes : Pc W → Option ℕ
  | copy pos _ | release pos _ => some pos
  | _ => none

end Pc

namespace State

variable {A W : Type} {zeroed : List W} {asked : Fill W → Prop}

/-- The words after some stores. -/
def stored (stores : List (ℕ × W)) (words : List W) : List W :=
  stores.foldl (fun words store => words.set store.1 store.2) words

/-- A kept content is what one of the fills has made of the words that it found. -/
def Made (zeroed : List W) (asked : Fill W → Prop) : Bool → List W → Prop
  | true, content => ∃ fill found, asked fill ∧ fill.keep = true ∧
      content = stored fill.stores found
  | false, content => content = zeroed

/-- What a call knows. -/
def Sees (zeroed : List W) (asked : Fill W → Prop) (r : Ring W) : Pc W → Prop
  | .enqueueLoad fill => asked fill
  | .enqueueSeq fill pos => asked fill ∧ pos ≤ r.enqueuePos
  | .enqueueClaim fill pos => asked fill ∧ pos ≤ r.enqueuePos ∧
      ((r.cell pos).seq = pos ∨ pos < r.enqueuePos)
  | .dequeueClaim pos => (r.cell pos).seq = pos + 1 ∨ pos < r.dequeuePos
  | .filling stores keep pos content => (r.cell pos).data = content ∧
      ∃ fill found, asked fill ∧ fill.keep = keep ∧ stored stores content = stored fill.stores found
  | .publish pos content keep => (r.cell pos).data = content ∧ Made zeroed asked keep content
  | .copy pos copied => (∃ x ∈ r.accepted, x.pos = pos ∧ x.content = (r.cell pos).data) ∧
      copied = (r.cell pos).data.take copied.length
  | .release pos copied => ∃ x ∈ r.accepted, x.pos = pos ∧ x.content = copied
  | _ => True

/-- A call knows the same of a ring that has moved on, if its cell was left alone. -/
theorem Sees.frame {r r' : Ring W} {p : Pc W} (h : Sees zeroed asked r p)
    (henq : r.enqueuePos ≤ r'.enqueuePos)
    (hdeq : r.dequeuePos ≤ r'.dequeuePos) (hacc : ∀ x ∈ r.accepted, x ∈ r'.accepted)
    (hcell : ∀ pos, p.fills = some pos ∨ p.takes = some pos → r'.cell pos = r.cell pos)
    (hfree : ∀ pos, (r.cell pos).seq = pos → (r'.cell pos).seq = pos ∨ pos < r'.enqueuePos)
    (hready : ∀ pos, (r.cell pos).seq = pos + 1 → (r'.cell pos).seq = pos + 1 ∨
      pos < r'.dequeuePos) :
    Sees zeroed asked r' p := by
  cases p with
  | enqueueLoad fill => exact h
  | enqueueSeq fill pos => exact ⟨h.1, h.2.trans henq⟩
  | enqueueClaim fill pos =>
      exact ⟨h.1, h.2.1.trans henq, h.2.2.elim (hfree pos) fun hlt => .inr (hlt.trans_le henq)⟩
  | dequeueClaim pos => exact h.elim (hready pos) fun hlt => .inr (hlt.trans_le hdeq)
  | filling stores keep pos content =>
      change (r'.cell pos).data = content ∧ _
      rw [hcell pos (.inl rfl)]
      exact h
  | publish pos content keep =>
      change (r'.cell pos).data = content ∧ _
      rw [hcell pos (.inl rfl)]
      exact h
  | copy pos copied =>
      change (∃ x ∈ r'.accepted, x.pos = pos ∧ x.content = (r'.cell pos).data) ∧
        copied = (r'.cell pos).data.take _
      rw [hcell pos (.inr rfl)]
      obtain ⟨⟨x, hx, hpos, hcontent⟩, hcopied⟩ := h
      exact ⟨⟨x, hacc x hx, hpos, hcontent⟩, hcopied⟩
  | release pos copied =>
      obtain ⟨x, hx, hpos, hcontent⟩ := h
      exact ⟨x, hacc x hx, hpos, hcontent⟩
  | _ => trivial

structure Inv (zeroed : List W) (asked : Fill W → Prop) (s : State A W) : Prop where
  places : Places (Made zeroed asked) (fun a => (s.pc a).fills) (fun a => (s.pc a).takes) s.ring
  sees : ∀ a, Sees zeroed asked s.ring (s.pc a)

variable {s : State A W} {a : A} {r : Ring W} {p : Pc W}

theorem Inv.new (zeroed : List W) (asked : Fill W → Prop) :
    Inv zeroed asked (State.new zeroed : State A W) where
  places := Places.new zeroed
  sees _ := trivial

/-- A store to the cell of one call leaves the cells of the others. -/
theorem Inv.apart {pos : ℕ} {c : Cell W} (h : Inv zeroed asked s)
    (ha : (s.pc a).fills = some pos ∨ (s.pc a).takes = some pos) {b : A} (hb : b ≠ a) :
    ∀ q, (s.pc b).fills = some q ∨ (s.pc b).takes = some q → (s.ring.setCell pos c).cell q =
      s.ring.cell q := by
  intro q hq
  refine Ring.cell_set_of_ne fun hcell => hb ?_
  obtain ⟨rfl, hfills | htakes⟩ := h.places.exclusive hq ha hcell
  · exact h.places.one_filler hfills.1 hfills.2
  · exact h.places.one_taker htakes.1 htakes.2

variable [DecidableEq A]

theorem Inv.goto (h : Inv zeroed asked s)
    (hplaces : Places (Made zeroed asked) (Function.update (fun b => (s.pc b).fills) a p.fills)
      (Function.update (fun b => (s.pc b).takes) a p.takes) r)
    (hsee : Sees zeroed asked r p)
    (hothers : ∀ b ≠ a, Sees zeroed asked s.ring (s.pc b) → Sees zeroed asked r (s.pc b)) :
    Inv zeroed asked (s.goto a r p) where
  places := by
    have hfills : (fun b => ((s.goto a r p).pc b).fills) =
        Function.update (fun b => (s.pc b).fills) a p.fills := by
      funext b
      exact Function.apply_update (fun _ => Pc.fills) s.pc a p b
    have htakes : (fun b => ((s.goto a r p).pc b).takes) =
        Function.update (fun b => (s.pc b).takes) a p.takes := by
      funext b
      exact Function.apply_update (fun _ => Pc.takes) s.pc a p b
    rw [hfills, htakes]
    exact hplaces
  sees := (Function.forall_update_iff s.pc fun _ p => Sees zeroed asked r p).mpr
    ⟨hsee, fun b hb => hothers b hb (h.sees b)⟩

/-- An access that claims, stores and gives back nothing. -/
theorem Inv.quiet (h : Inv zeroed asked s) (hfills : p.fills = (s.pc a).fills)
    (htakes : p.takes = (s.pc a).takes)
    (hsee : Sees zeroed asked s.ring p) : Inv zeroed asked (s.goto a s.ring p) := by
  refine h.goto ?_ hsee fun _ _ hb => hb
  rw [hfills, htakes, Function.update_eq_self, Function.update_eq_self]
  exact h.places

theorem Inv.store {pos : ℕ} (h : Inv zeroed asked s) (hfills : (s.pc a).fills = some pos)
    (htakes : (s.pc a).takes = none)
    (data : List W) (hp : p.fills = some pos) (hp' : p.takes = none)
    (hsee : Sees zeroed asked (s.ring.setCell pos ⟨(s.ring.cell pos).seq, data⟩) p) :
    Inv zeroed asked (s.goto a (s.ring.setCell pos ⟨(s.ring.cell pos).seq, data⟩) p) := by
  have hseq (q : ℕ) : ((s.ring.setCell pos ⟨(s.ring.cell pos).seq, data⟩).cell q).seq =
      (s.ring.cell q).seq := by
    by_cases hcell : cellOf q = cellOf pos
    · rw [Ring.cell_set hcell, Ring.cell_congr hcell]
    · rw [Ring.cell_set_of_ne hcell]
  refine h.goto ?_ hsee fun b hb hold => hold.frame (Nat.le_refl _) (Nat.le_refl _) (fun _ hx => hx)
    (h.apart (.inl hfills) hb) (fun q hq => .inl ((hseq q).trans hq)) fun q hq =>
      .inl ((hseq q).trans hq)
  rw [hp, hp', ← hfills, ← htakes, Function.update_eq_self, Function.update_eq_self]
  exact h.places.store hfills data

theorem Inv.advance (h : Inv zeroed asked s) (a : A) (spurious : Bool) :
    Inv zeroed asked (s.advance zeroed a spurious) := by
  have hsees := h.sees a
  unfold State.advance
  cases hpc : s.pc a with
  | idle => exact h
  | enqueueLoad fill =>
      rw [hpc] at hsees
      exact h.quiet (by rw [hpc]; rfl) (by rw [hpc]; rfl) ⟨hsees, Nat.le_refl _⟩
  | enqueueSeq fill pos =>
      rw [hpc] at hsees
      dsimp only
      split_ifs with hfree hbusy
      · exact h.quiet (by rw [hpc]; rfl) (by rw [hpc]; rfl) ⟨hsees.1, hsees.2, .inl hfree⟩
      · exact h.quiet (by rw [hpc]; rfl) (by rw [hpc]; rfl) trivial
      · exact h.quiet (by rw [hpc]; rfl) (by rw [hpc]; rfl) hsees.1
  | enqueueClaim fill pos =>
      rw [hpc] at hsees
      dsimp only
      split_ifs with hclaim
      · obtain ⟨rfl, -⟩ := hclaim
        have hseq := hsees.2.2.resolve_right (Nat.lt_irrefl _)
        have hplaces := h.places.claim_fill (a := a) (by rw [hpc]; rfl) hseq
        refine h.goto ?_ ⟨rfl, fill, _, hsees.1, rfl, rfl⟩ fun b _ hold =>
          hold.frame (Nat.le_succ _) (Nat.le_refl _) (fun _ hx => hx)
          (fun _ _ => rfl) (fun _ hq => .inl hq) fun _ hq => .inl hq
        have htakes : (Pc.filling fill.stores fill.keep s.ring.enqueuePos
            (s.ring.cell s.ring.enqueuePos).data).takes = (s.pc a).takes := by rw [hpc]; rfl
        rw [htakes, Function.update_eq_self]
        exact hplaces
      · exact h.quiet (by rw [hpc]; rfl) (by rw [hpc]; rfl) ⟨hsees.1, hsees.2.1⟩
  | filling stores keep pos content =>
      rw [hpc] at hsees
      obtain ⟨hdata, fill, found, hasked, rfl, hstored⟩ := hsees
      cases stores with
      | nil =>
          cases hkeep : fill.keep with
          | true =>
              exact h.quiet (by rw [hpc]; rfl) (by rw [hpc]; rfl)
                ⟨hdata, fill, found, hasked, hkeep, hstored⟩
          | false => exact h.quiet (by rw [hpc]; rfl) (by rw [hpc]; rfl) trivial
      | cons store stores =>
          obtain ⟨offset, word⟩ := store
          refine h.store (by rw [hpc]; rfl) (by rw [hpc]; rfl) _ rfl rfl ?_
          change ((s.ring.setCell pos _).cell pos).data = _ ∧ _
          rw [Ring.cell_set rfl, hdata]
          exact ⟨rfl, fill, found, hasked, rfl, hstored⟩
  | clearing pos =>
      refine h.store (by rw [hpc]; rfl) (by rw [hpc]; rfl) _ rfl rfl ?_
      change ((s.ring.setCell pos _).cell pos).data = _ ∧ _
      rw [Ring.cell_set rfl]
      exact ⟨rfl, rfl⟩
  | publish pos content keep =>
      rw [hpc] at hsees
      obtain ⟨hdata, hkeep⟩ := hsees
      have hfills : (s.pc a).fills = some pos := by rw [hpc]; rfl
      obtain ⟨-, hhigh, hseq⟩ := h.places.filler hfills
      have hplaces := h.places.publish hfills hdata hkeep
      refine h.goto ?_ trivial fun b hb hold => hold.frame (Nat.le_refl _) (Nat.le_refl _)
        (fun _ hx => List.mem_append_left _ hx) (h.apart (.inl hfills) hb)
          (fun q hq => ?_) fun q hq => ?_
      · have htakes : (Pc.idle : Pc W).takes = (s.pc a).takes := by rw [hpc]; rfl
        rw [htakes, Function.update_eq_self]
        exact hplaces
      · change ((s.ring.setCell pos _).cell q).seq = q ∨ q < s.ring.enqueuePos
        by_cases hcell : cellOf q = cellOf pos
        · rw [Ring.cell_congr hcell, hseq] at hq
          exact .inr (hq ▸ hhigh)
        · rw [Ring.cell_set_of_ne hcell]
          exact .inl hq
      · change ((s.ring.setCell pos _).cell q).seq = q + 1 ∨ _
        by_cases hcell : cellOf q = cellOf pos
        · rw [Ring.cell_congr hcell, hseq] at hq
          subst hq
          exact absurd hcell.symm (cellOf_succ_ne q)
        · rw [Ring.cell_set_of_ne hcell]
          exact .inl hq
  | dequeueLoad => exact h.quiet (by rw [hpc]; rfl) (by rw [hpc]; rfl) trivial
  | dequeueSeq pos =>
      dsimp only
      split_ifs with hready hempty
      · exact h.quiet (by rw [hpc]; rfl) (by rw [hpc]; rfl) (.inl hready)
      · exact h.quiet (by rw [hpc]; rfl) (by rw [hpc]; rfl) trivial
      · exact h.quiet (by rw [hpc]; rfl) (by rw [hpc]; rfl) trivial
  | dequeueClaim pos =>
      rw [hpc] at hsees
      dsimp only
      split_ifs with hclaim
      · obtain ⟨rfl, -⟩ := hclaim
        have hseq := hsees.resolve_right (Nat.lt_irrefl _)
        obtain ⟨hplaces, hcontent⟩ := h.places.claim_take (a := a) (by rw [hpc]; rfl) hseq
        refine h.goto ?_ ⟨hcontent, rfl⟩ fun b _ hold =>
          hold.frame (Nat.le_refl _) (Nat.le_succ _) (fun _ hx => hx)
          (fun _ _ => rfl) (fun _ hq => .inl hq) fun _ hq => .inl hq
        have hfills : (Pc.copy s.ring.dequeuePos ([] : List W)).fills = (s.pc a).fills := by
          rw [hpc]; rfl
        rw [hfills, Function.update_eq_self]
        exact hplaces
      · exact h.quiet (by rw [hpc]; rfl) (by rw [hpc]; rfl) trivial
  | copy pos copied =>
      rw [hpc] at hsees
      obtain ⟨hcontent, hcopied⟩ := hsees
      dsimp only
      cases hword : (s.ring.cell pos).data[copied.length]? with
      | some word =>
          refine h.quiet (by rw [hpc]; rfl) (by rw [hpc]; rfl) ⟨hcontent, ?_⟩
          rw [List.length_append, List.length_singleton, List.take_add_one, hword, ← hcopied]
          rfl
      | none =>
          refine h.quiet (by rw [hpc]; rfl) (by rw [hpc]; rfl) ?_
          rw [List.take_of_length_le (List.getElem?_eq_none_iff.mp hword)] at hcopied
          rw [hcopied]
          exact hcontent
  | release pos copied =>
      rw [hpc] at hsees
      have htakes : (s.pc a).takes = some pos := by rw [hpc]; rfl
      obtain ⟨hlow, -, hseq⟩ := h.places.taker htakes
      have hplaces := h.places.release htakes hsees
      refine h.goto ?_ trivial fun b hb hold =>
        hold.frame (Nat.le_refl _) (Nat.le_refl _) (fun _ hx => hx)
        (h.apart (.inr htakes) hb) (fun q hq => ?_) fun q hq => ?_
      · have hfills : (Pc.idle : Pc W).fills = (s.pc a).fills := by rw [hpc]; rfl
        rw [hfills, Function.update_eq_self]
        exact hplaces
      · change ((s.ring.setCell pos _).cell q).seq = q ∨ _
        by_cases hcell : cellOf q = cellOf pos
        · rw [Ring.cell_congr hcell, hseq] at hq
          subst hq
          exact absurd hcell (cellOf_succ_ne pos)
        · rw [Ring.cell_set_of_ne hcell]
          exact .inl hq
      · change ((s.ring.setCell pos _).cell q).seq = q + 1 ∨ q < s.ring.dequeuePos
        by_cases hcell : cellOf q = cellOf pos
        · rw [Ring.cell_congr hcell, hseq] at hq
          exact .inr (Nat.succ.inj hq ▸ hlow)
        · rw [Ring.cell_set_of_ne hcell]
          exact .inl hq

theorem Inv.act (h : Inv zeroed asked s) (action : Action A W)
    (hasked : ∀ a fill, action = .enqueueWith a fill → asked fill) :
    Inv zeroed asked (s.act zeroed action) := by
  cases action with
  | enqueueWith a fill =>
      unfold State.act
      dsimp only
      cases hpc : s.pc a with
      | idle => exact h.quiet (by rw [hpc]; rfl) (by rw [hpc]; rfl) (hasked a fill rfl)
      | _ => exact h
  | dequeue a =>
      unfold State.act
      dsimp only
      cases hpc : s.pc a with
      | idle => exact h.quiet (by rw [hpc]; rfl) (by rw [hpc]; rfl) trivial
      | _ => exact h
  | step a spurious => exact h.advance a spurious

theorem Inv.run (h : Inv zeroed asked s) (acts : List (Action A W))
    (hasked : ∀ a fill, .enqueueWith a fill ∈ acts → asked fill) :
    Inv zeroed asked (s.run zeroed acts) := by
  induction acts generalizing s with
  | nil => exact h
  | cons action acts ih =>
      refine ih (h.act action fun a fill haction => hasked a fill ?_) fun a fill hmem =>
        hasked a fill (List.mem_cons_of_mem _ hmem)
      rw [haction]
      exact List.mem_cons_self

/-- What the ring promises. -/
structure Delivers (zeroed : List W) (asked : Fill W → Prop) (s : State A W) : Prop where
  /-- Each position is published at most once and copied at most once. -/
  once : (s.ring.accepted.map (·.pos)).Nodup ∧ (s.ring.delivered.map (·.pos)).Nodup
  /-- A consumer copies exactly what one fill has made of the cell, or zeroes where the fill was
  aborted. -/
  unmixed : ∀ y ∈ s.ring.delivered, ∃ x ∈ s.ring.accepted, x.pos = y.pos ∧ x.content = y.copied ∧
    Made zeroed asked x.keep y.copied
  /-- Positions are claimed in order on both sides, and every claim is published or copied in the
  end. -/
  in_order : (∀ p, p < s.ring.enqueuePos ↔ (∃ x ∈ s.ring.accepted, x.pos = p) ∨ ∃ a,
    (s.pc a).fills = some p) ∧ ∀ p, p < s.ring.dequeuePos ↔ (∃ y ∈ s.ring.delivered, y.pos = p) ∨
    ∃ a, (s.pc a).takes = some p
  /-- What no consumer has claimed stays in its cell. -/
  kept : ∀ x ∈ s.ring.accepted, s.ring.dequeuePos ≤ x.pos →
    (s.ring.cell x.pos).seq = x.pos + 1 ∧ (s.ring.cell x.pos).data = x.content
  /-- No two calls are inside one cell. -/
  alone : ∀ a b p q, (s.pc a).fills = some p ∨ (s.pc a).takes = some p →
    (s.pc b).fills = some q ∨ (s.pc b).takes = some q → cellOf p = cellOf q → a = b
  /-- A producer gives up only while the position one lap before it has not been given back. -/
  dropped : ∀ a fill pos, s.pc a = .enqueueSeq fill pos → (s.ring.cell pos).seq < pos →
    ∃ q, q + ringSize = pos ∧ (s.ring.dequeuePos ≤ q ∨ ∃ b, (s.pc b).takes = some q)

omit [DecidableEq A] in
theorem Inv.kept (h : Inv zeroed asked s) {x : Accepted W} (hx : x ∈ s.ring.accepted)
    (hlow : s.ring.dequeuePos ≤ x.pos) :
    (s.ring.cell x.pos).seq = x.pos + 1 ∧ (s.ring.cell x.pos).data = x.content := by
  have hhigh := (h.places.accepted_iff x.pos).mpr (.inl ⟨x, hx, rfl⟩)
  rcases h.places.full x.pos hlow hhigh with ⟨a, ha⟩ | ⟨hready, x', hx', hpos, hcontent⟩
  · exact absurd rfl (h.places.unaccepted ha x hx)
  · rw [List.inj_on_of_nodup_map h.places.accepted_once hx' hx hpos] at hcontent
    exact ⟨hready, hcontent.symm⟩

omit [DecidableEq A] in
theorem Inv.dropped (h : Inv zeroed asked s) {fill : Fill W} {pos : ℕ}
    (hpc : s.pc a = .enqueueSeq fill pos) (hbusy : (s.ring.cell pos).seq < pos) :
    ∃ q, q + ringSize = pos ∧ (s.ring.dequeuePos ≤ q ∨ ∃ b, (s.pc b).takes = some q) := by
  have hsees := h.sees a
  rw [hpc] at hsees
  replace hsees : pos ≤ s.ring.enqueuePos := hsees.2
  have hbound := h.places.bound
  unfold ringSize at hbound
  -- the position of the present lap that has the same cell
  obtain ⟨w, hw, hw', hcell⟩ : ∃ w, s.ring.dequeuePos ≤ w ∧ w < s.ring.dequeuePos + 512 ∧
      cellOf w = cellOf pos := by
    refine ⟨s.ring.dequeuePos + (pos % 512 + 512 - s.ring.dequeuePos % 512) % 512, ?_, ?_, ?_⟩
    · omega
    · omega
    · rw [cellOf_eq, cellOf_eq]
      omega
  rw [← Ring.cell_congr hcell] at hbusy
  rw [cellOf_eq, cellOf_eq] at hcell
  by_cases hin : w < s.ring.enqueuePos
  · have hseq : w ≤ (s.ring.cell w).seq := by
      rcases h.places.full w hw hin with ⟨b, hb⟩ | ⟨hready, -⟩
      · exact (h.places.filler hb).2.2.ge
      · omega
    exact ⟨w, by unfold ringSize; omega, .inl hw⟩
  · rcases h.places.free w (by omega) hw' with hfree | ⟨b, q, hb, rfl⟩
    · omega
    · have hseq : (s.ring.cell (q + ringSize)).seq = q + 1 := by
        rw [Ring.cell_congr (cellOf_add q)]
        exact (h.places.taker hb).2.2
      unfold ringSize at *
      exact ⟨q, by omega, .inr ⟨b, hb⟩⟩

/-- Whatever producers and consumers do, the ring delivers each snapshot at most once, unmixed and
in the order of the claims. -/
theorem ring_delivers (zeroed : List W) (acts : List (Action A W)) :
    Delivers zeroed (fun fill => ∃ a, .enqueueWith a fill ∈ acts)
    ((new zeroed).run zeroed acts) := by
  have h := (Inv.new (A := A) zeroed fun fill => ∃ a, .enqueueWith a fill ∈ acts).run acts
    fun a _ hmem => ⟨a, hmem⟩
  refine ⟨⟨h.places.accepted_once, h.places.delivered_once⟩, fun y hy => ?_,
    ⟨h.places.accepted_iff, h.places.delivered_iff⟩, fun x hx hlow => h.kept hx hlow,
    fun a b p q ha hb hcell => ?_, fun a fill pos hpc hbusy => h.dropped hpc hbusy⟩
  · obtain ⟨x, hx, hpos, hcontent⟩ := h.places.faithful y hy
    exact ⟨x, hx, hpos, hcontent, hcontent ▸ h.places.made x hx⟩
  · obtain ⟨rfl, hfills | htakes⟩ := h.places.exclusive ha hb hcell
    · exact h.places.one_filler hfills.1 hfills.2
    · exact h.places.one_taker htakes.1 htakes.2

end State

end Probing.Stacktrace.Pprof
