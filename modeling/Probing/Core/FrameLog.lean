import Probing.Core.Bytes

/-!
# Logs of self-delimiting frames

A log is a concatenation of encoded frames. A scan takes the frame at its head
as long as there is a complete one, stops at an incomplete one, and fails at a
corrupt one. Cutting the log anywhere loses the frames that are not complete.
-/

namespace Probing.Core

/-- What is found at the head of a log. -/
inductive Head (β ε : Type*) where
  | frame (b : β) (len : ℕ)
  | stop
  | corrupt (e : ε)

variable {β γ ε : Type*}

/-- The frames with their offsets, and the offset where the scan stops. -/
def scan (parse : Bytes → Head β ε) (off : ℕ) (log : Bytes) : Except ε (List (ℕ × β) × ℕ) :=
  match parse log with
  | .stop => .ok ([], off)
  | .corrupt e => .error e
  | .frame b len =>
      if 0 < len ∧ len ≤ log.length then
        (scan parse (off + len) (log.drop len)).map fun r => ((off, b) :: r.1, r.2)
      else .ok ([], off)
termination_by log.length
decreasing_by
  rw [List.length_drop]
  omega

/-- The head that a frame with this reading puts on a log. -/
def Head.of (len : ℕ) : Except ε β → Head β ε
  | .ok b => .frame b len
  | .error e => .corrupt e

section Encoded

variable (encode : γ → Bytes) (read : γ → Except ε β)

/-- The readings of frames that lie one after the other from `off` on. -/
def readings (off : ℕ) : List γ → Except ε (List (ℕ × β))
  | [] => .ok []
  | g :: gs =>
      match read g with
      | .error e => .error e
      | .ok b => (readings (off + (encode g).length) gs).map ((off, b) :: ·)

/-- The frames that end within the first `k` bytes. -/
def complete : List γ → ℕ → List γ
  | [], _ => []
  | g :: gs, k =>
      if (encode g).length ≤ k then g :: complete gs (k - (encode g).length) else []

variable {encode read} {parse : Bytes → Head β ε}

theorem complete_subset {gs : List γ} {k : ℕ} {g : γ} (h : g ∈ complete encode gs k) : g ∈ gs := by
  induction gs generalizing k with
  | nil => cases h
  | cons x gs ih =>
      rw [complete] at h
      split_ifs at h
      · rcases List.mem_cons.mp h with rfl | hg
        · simp
        · exact List.mem_cons_of_mem x (ih hg)
      · cases h

theorem complete_prefix (encode : γ → Bytes) (gs : List γ) (k : ℕ) :
    ∃ rest, gs = complete encode gs k ++ rest := by
  induction gs generalizing k with
  | nil => exact ⟨[], rfl⟩
  | cons g gs ih =>
      rw [complete]
      split_ifs
      · obtain ⟨rest, hrest⟩ := ih (k - (encode g).length)
        exact ⟨rest, congrArg (g :: ·) hrest⟩
      · exact ⟨g :: gs, rfl⟩

theorem complete_of_length_le {gs : List γ} {k : ℕ} (h : (gs.flatMap encode).length ≤ k) :
    complete encode gs k = gs := by
  induction gs generalizing k with
  | nil => rfl
  | cons g gs ih =>
      rw [List.flatMap_cons, List.length_append] at h
      rw [complete, if_pos (by omega), ih (by omega)]

/-- A cut log is the complete frames and at most the first bytes of one more. -/
theorem take_flatMap (encode : γ → Bytes) (gs : List γ) (k : ℕ) :
    ∃ tail, (gs.flatMap encode).take k = (complete encode gs k).flatMap encode ++ tail ∧
      (tail = [] ∨ ∃ g ∈ gs, ∃ j < (encode g).length, tail = (encode g).take j) := by
  induction gs generalizing k with
  | nil => exact ⟨[], by simp [complete], .inl rfl⟩
  | cons g gs ih =>
      rw [List.flatMap_cons, complete]
      by_cases hk : (encode g).length ≤ k
      · obtain ⟨tail, htake, htail⟩ := ih (k - (encode g).length)
        refine ⟨tail, ?_, htail.imp_right fun ⟨x, hx, hj⟩ => ⟨x, List.mem_cons_of_mem g hx, hj⟩⟩
        rw [if_pos hk, List.take_append, List.take_of_length_le hk, htake, List.flatMap_cons,
          List.append_assoc]
      · refine ⟨(encode g).take k, ?_, .inr ⟨g, by simp, k, by omega, rfl⟩⟩
        rw [if_neg hk, List.take_append_of_le_length (by omega)]
        rfl

/-- The parser recognises the frame whatever follows it. -/
def Recognises (parse : Bytes → Head β ε) (encode : γ → Bytes) (read : γ → Except ε β)
    (g : γ) : Prop :=
  0 < (encode g).length ∧
    ∀ rest, parse (encode g ++ rest) = Head.of (encode g).length (read g)

/-- Scanning a log of recognised frames and something after them. -/
theorem scan_flatMap {gs : List γ} (h : ∀ g ∈ gs, Recognises parse encode read g) (off : ℕ)
    (rest : Bytes) : scan parse off (gs.flatMap encode ++ rest) =
      match readings encode read off gs with
      | .error e => .error e
      | .ok frames => (scan parse (off + (gs.flatMap encode).length) rest).map fun r =>
          (frames ++ r.1, r.2) := by
  induction gs generalizing off with
  | nil =>
      simp only [List.flatMap_nil, List.nil_append, List.length_nil, Nat.add_zero, readings]
      cases scan parse off rest <;> rfl
  | cons g gs ih =>
      obtain ⟨hpos, hparse⟩ := h g (by simp)
      have hih := ih (fun x hx => h x (List.mem_cons_of_mem g hx)) (off + (encode g).length)
      rw [List.flatMap_cons, List.append_assoc, scan, hparse, readings]
      cases hread : read g with
      | error e => rfl
      | ok b =>
          simp only [Head.of]
          rw [if_pos ⟨hpos, by simp⟩, List.drop_left, hih]
          cases readings encode read (off + (encode g).length) gs with
          | error e => rfl
          | ok frames =>
              rw [List.length_append, ← Nat.add_assoc]
              cases scan parse (off + (encode g).length + (gs.flatMap encode).length) rest <;> rfl

/-- A scan that does not fail has stopped behind the recognised frames. -/
theorem stop_of_scan {gs : List γ} (h : ∀ g ∈ gs, Recognises parse encode read g) {off : ℕ}
    {rest : Bytes} (hrest : parse rest = .stop ∨ ∃ e, parse rest = .corrupt e)
    {frames : List (ℕ × β)} {stop : ℕ}
    (hscan : scan parse off (gs.flatMap encode ++ rest) = .ok (frames, stop)) :
    parse rest = .stop ∧ stop = off + (gs.flatMap encode).length := by
  rw [scan_flatMap h] at hscan
  cases hreadings : readings encode read off gs with
  | error e => simp [hreadings] at hscan
  | ok found =>
      rw [hreadings] at hscan
      rcases hrest with hstop | ⟨e, hcorrupt⟩
      · rw [scan, hstop] at hscan
        simp only [Except.map, Except.ok.injEq, Prod.mk.injEq] at hscan
        exact ⟨hstop, hscan.2.symm⟩
      · rw [scan, hcorrupt] at hscan
        cases hscan

end Encoded

end Probing.Core
