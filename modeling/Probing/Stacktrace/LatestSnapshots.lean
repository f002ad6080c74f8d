import Mathlib.Data.List.Basic
import Mathlib.Data.Nat.Bitwise

/-!
# The latest snapshot of a thread

Two buffers, a reader count for each, and one published word that tells which buffer is current
and which write filled it. Calls move one atomic access at a time, and buffers are written and
copied word by word. A call that interrupts another one is an agent of its own.

The buffers take turns, so the number of writes tells the published word: the generation is that
number without its high bits, and the current buffer is its parity.
-/

namespace Probing.Stacktrace

/-- Nothing has been published. -/
def noLatest : UInt64 := 0xFFFFFFFFFFFFFFFF

/-- The buffer that a token names. -/
def tokenIndex (token : UInt64) : ℕ := (token &&& 1).toNat

/-- The word that is published for a generation and a buffer. -/
def tokenOf (generation : UInt64) (index : ℕ) : UInt64 :=
  (generation <<< 1) ||| UInt64.ofNat index

def nextGeneration (current : UInt64) : UInt64 :=
  if current = noLatest then 1 else (current >>> 1) + 1

def currentIndex (current : UInt64) : Option ℕ :=
  if current = noLatest then none else some (tokenIndex current)

/-- The first buffer from the given one on that is not current. -/
def candidate (current : UInt64) (start : ℕ) : Option ℕ :=
  (List.range 2).find? fun index => start ≤ index ∧ some index ≠ currentIndex current

/-- What `fill` does: word stores into the buffer, in any order, and then its result. -/
structure Fill (W : Type) where
  stores : List (ℕ × W)
  ok : Bool

/-- Where a call is: the next access it makes. In `read` the tries are those left after the one
under way. No branch reads `content`, which is what the fill makes of the buffer that it found,
or `write`, the number of the write that was validated. -/
inductive Pc (W : Type) where
  | idle
  | acquire (fill : Fill W)
  | current (fill : Fill W)
  | readers (fill : Fill W) (current : UInt64) (index : ℕ)
  | filling (stores : List (ℕ × W)) (ok : Bool) (current : UInt64) (index : ℕ) (content : List W)
  | publish (current : UInt64) (index : ℕ) (content : List W)
  | release
  | load (tries : ℕ)
  | pin (tries : ℕ) (token : UInt64)
  | recheck (tries : ℕ) (token : UInt64)
  | retreat (tries : ℕ) (token : UInt64)
  | copy (tries : ℕ) (token : UInt64) (write : ℕ) (copied : List W)
  | confirm (tries : ℕ) (token : UInt64) (write : ℕ) (copied : List W)

/-- A snapshot that `read` returned. -/
structure Returned (A W : Type) where
  reader : A
  snapshot : List W
  generation : UInt64
  write : ℕ

/-- One `LatestSnapshots`; `writes` are the contents that were published, in their order, and
`returned` the snapshots. -/
structure State (A W : Type) where
  buffers : ℕ → List W
  readers : ℕ → ℕ
  published : UInt64
  writer : Bool
  pc : A → Pc W
  writes : List (List W)
  returned : List (Returned A W)

inductive Action (A W : Type) where
  | tryWriteWith (a : A) (fill : Fill W)
  | read (a : A)
  | step (a : A)

/-- An access of a call of that agent. -/
def Action.advances {A W : Type} [DecidableEq A] (a : A) : Action A W → Bool
  | .step b => b = a
  | _ => false

namespace State

variable {A W : Type} [DecidableEq A]

/-- `LatestSnapshots::new`, with zeroed buffers. -/
def new (zeroed : List W) : State A W where
  buffers := fun _ => zeroed
  readers := fun _ => 0
  published := noLatest
  writer := false
  pc := fun _ => .idle
  writes := []
  returned := []

def goto (s : State A W) (a : A) (p : Pc W) : State A W :=
  { s with pc := Function.update s.pc a p }

/-- The buffer that is tried next, or the end of the call without one. -/
def triesBuffer (fill : Fill W) (current : UInt64) : Option ℕ → Pc W
  | some index => .readers fill current index
  | none => .release

/-- The next try of `read`, if there is one. -/
def retries (tries : ℕ) : Pc W := if tries = 0 then .idle else .load (tries - 1)

/-- One access of a call. -/
def advance (s : State A W) (a : A) : State A W :=
  match s.pc a with
  | .idle => s
  | .acquire fill =>
      if s.writer then s.goto a .idle else { s.goto a (.current fill) with writer := true }
  | .current fill => s.goto a (triesBuffer fill s.published (candidate s.published 0))
  | .readers fill current index =>
      if s.readers index = 0 then
        s.goto a (.filling fill.stores fill.ok current index (s.buffers index))
      else s.goto a (triesBuffer fill current (candidate current (index + 1)))
  | .filling ((offset, word) :: stores) ok current index content =>
      { s.goto a (.filling stores ok current index (content.set offset word)) with
        buffers := Function.update s.buffers index ((s.buffers index).set offset word) }
  | .filling [] ok current index content =>
      s.goto a (if ok then .publish current index content else .release)
  | .publish current index content =>
      { s.goto a .release with
        published := tokenOf (nextGeneration current) index
        writes := s.writes ++ [content] }
  | .release => { s.goto a .idle with writer := false }
  | .load tries =>
      s.goto a (if s.published = noLatest then .idle else .pin tries s.published)
  | .pin tries token =>
      { s.goto a (.recheck tries token) with
        readers := Function.update s.readers (tokenIndex token)
          (s.readers (tokenIndex token) + 1) }
  | .recheck tries token =>
      s.goto a (if s.published = token then .copy tries token (s.writes.length - 1) []
        else .retreat tries token)
  | .retreat tries token =>
      { s.goto a (retries tries) with
        readers := Function.update s.readers (tokenIndex token)
          (s.readers (tokenIndex token) - 1) }
  | .copy tries token write copied =>
      match (s.buffers (tokenIndex token))[copied.length]? with
      | some word => s.goto a (.copy tries token write (copied ++ [word]))
      | none =>
          { s.goto a (.confirm tries token write copied) with
            readers := Function.update s.readers (tokenIndex token)
              (s.readers (tokenIndex token) - 1) }
  | .confirm tries token write copied =>
      if s.published = token then
        { s.goto a .idle with
          returned := s.returned ++ [⟨a, copied, token >>> 1, write⟩] }
      else s.goto a (retries tries)

/-- A call starts, or goes on; no call waits. -/
def step (s : State A W) : Action A W → Option (State A W)
  | .tryWriteWith a fill =>
      match s.pc a with
      | .idle => some (s.goto a (.acquire fill))
      | _ => none
  | .read a =>
      match s.pc a with
      | .idle => some (s.goto a (.load 3))
      | _ => none
  | .step a =>
      match s.pc a with
      | .idle => none
      | _ => some (s.advance a)

end State

theorem toNat_tokenOf (generation : UInt64) {index : ℕ} (h : index < 2) :
    (tokenOf generation index).toNat = 2 * (generation.toNat % 2 ^ 63) + index := by
  have hshift : (generation <<< 1).toNat = 2 * (generation.toNat % 2 ^ 63) := by
    rw [UInt64.toNat_shiftLeft, Nat.shiftLeft_eq]
    change generation.toNat * 2 % 2 ^ 64 = _
    omega
  have hindex : (UInt64.ofNat index).toNat = index := by
    rw [UInt64.toNat_ofNat']
    omega
  have hor := Nat.two_pow_add_eq_or_of_lt (i := 1) h (generation.toNat % 2 ^ 63)
  rw [tokenOf, UInt64.toNat_or, hshift, hindex]
  exact hor.symm

theorem tokenIndex_eq (token : UInt64) : tokenIndex token = token.toNat % 2 := by
  rw [tokenIndex, UInt64.toNat_and]
  exact Nat.and_one_is_mod token.toNat

theorem toNat_generation (token : UInt64) : (token >>> 1).toNat = token.toNat / 2 := by
  rw [UInt64.toNat_shiftRight]
  simp [Nat.shiftRight_eq_div_pow]

/-- The published word after so many writes. -/
def Published (writes : ℕ) (token : UInt64) : Prop :=
  if writes = 0 then token = noLatest
  else token.toNat = 2 * (writes % 2 ^ 63) + (writes + 1) % 2

variable {writes : ℕ} {token : UInt64}

theorem published_zero : Published 0 noLatest := rfl

theorem Published.toNat (h : Published writes token) (hpos : 0 < writes) :
    token.toNat = 2 * (writes % 2 ^ 63) + (writes + 1) % 2 := by
  rw [Published, if_neg (by omega)] at h
  exact h

/-- The two words with all bits set are not tokens: the last generation has buffer 0. -/
theorem Published.eq_no_latest_iff (h : Published writes token) :
    token = noLatest ↔ writes = 0 := by
  constructor
  · intro htoken
    by_contra hne
    have hnat := h.toNat (by omega)
    have hmax : token.toNat = 2 ^ 64 - 1 := by rw [htoken]; rfl
    omega
  · rintro rfl
    exact h

theorem Published.index (h : Published writes token) (hpos : 0 < writes) :
    tokenIndex token = (writes + 1) % 2 := by
  rw [tokenIndex_eq, h.toNat hpos]
  omega

theorem Published.generation (h : Published writes token) (hpos : 0 < writes) :
    (token >>> 1).toNat = writes % 2 ^ 63 := by
  rw [toNat_generation, h.toNat hpos]
  omega

/-- The buffers take turns. -/
theorem Published.candidate (h : Published writes token) :
    candidate token 0 = some (writes % 2) := by
  obtain rfl | hpos := Nat.eq_zero_or_pos writes
  · rw [show token = noLatest from h]
    rfl
  have hcurrent : currentIndex token = some ((writes + 1) % 2) := by
    have hne : token ≠ noLatest := fun htoken =>
      Nat.ne_of_gt hpos (h.eq_no_latest_iff.mp htoken)
    rw [currentIndex, if_neg hne, h.index hpos]
  rw [Stacktrace.candidate, hcurrent]
  obtain heven | hodd := Nat.mod_two_eq_zero_or_one writes
  · have hodd : (writes + 1) % 2 = 1 := by omega
    rw [heven, hodd]
    rfl
  · have heven : (writes + 1) % 2 = 0 := by omega
    rw [hodd, heven]
    rfl

/-- There is no other buffer, once there is a current one. -/
theorem Published.no_candidate (h : Published writes token) (hpos : 0 < writes) :
    Stacktrace.candidate token (writes % 2 + 1) = none := by
  have hne : token ≠ noLatest := fun htoken =>
    Nat.ne_of_gt hpos (h.eq_no_latest_iff.mp htoken)
  rw [Stacktrace.candidate, currentIndex, if_neg hne, h.index hpos]
  obtain heven | hodd := Nat.mod_two_eq_zero_or_one writes
  · have hodd : (writes + 1) % 2 = 1 := by omega
    rw [heven, hodd]
    rfl
  · have heven : (writes + 1) % 2 = 0 := by omega
    rw [hodd, heven]
    rfl

theorem Published.next (h : Published writes token) :
    Published (writes + 1) (tokenOf (nextGeneration token) (writes % 2)) := by
  rw [Published, if_neg (by omega), toNat_tokenOf _ (by omega)]
  have hgen : (nextGeneration token).toNat % 2 ^ 63 = (writes + 1) % 2 ^ 63 := by
    rw [nextGeneration]
    split
    next htoken =>
      rw [(h.eq_no_latest_iff).mp htoken]
      rfl
    next htoken =>
      have hpos : 0 < writes := Nat.pos_of_ne_zero fun hzero =>
        htoken ((h.eq_no_latest_iff).mpr hzero)
      rw [UInt64.toNat_add, h.generation hpos]
      simp only [UInt64.toNat_one]
      omega
  omega

end Probing.Stacktrace
