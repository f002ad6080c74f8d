import Mathlib.Tactic.Common

/-!
# A lock stolen only from the dead

Ownership of a lock is an owner word and a stamp that tells one process instance
from another. Publishing a new owner is serialised by a claim word. An owner or
a claimant may die at any point; a thread that finds one dead takes the word
over. Liveness answers are truthful and process names are not reused.
-/

namespace Probing.Core.ClaimLock

/-- The words of the lock; `none` is the value that names nobody. -/
structure Words (P T : Type*) where
  claim : Option P
  owner : Option P
  stamp : Option T

/-- What a thread knows about the lock. -/
inductive Phase (P T : Type*) where
  | out
  /-- Found the claimant dead and is about to clear its claim. -/
  | clearing (claimant : P)
  | claimed
  | sawOwner (owner : P)
  | sawStamp (owner : P) (stamp : Option T)
  /-- Holds the claim and found no live owner. -/
  | free
  | stamped
  /-- Is the owner and still holds the claim. -/
  | publishing
  | owning

namespace Phase

variable {P T : Type*}

/-- The thread holds the claim word. -/
def Claims : Phase P T → Prop
  | out | clearing _ | owning => False
  | _ => True

/-- The thread is the owner. -/
def Owns : Phase P T → Prop
  | publishing | owning => True
  | _ => False

/-- The thread may make itself the owner. -/
def Entitled : Phase P T → Prop
  | free | stamped => True
  | _ => False

theorem Entitled.claims {p : Phase P T} (h : p.Entitled) : p.Claims := by
  cases p <;> simp_all [Entitled, Claims]

theorem Entitled.not_owns {p : Phase P T} (h : p.Entitled) : ¬ p.Owns := by
  cases p <;> simp_all [Entitled, Owns]

end Phase

variable {A P T : Type*}

section Move

variable [DecidableEq P]

/-- One access of thread `a` to the words of the lock. -/
inductive Move (pid : A → P) (born : P → Option T) (alive : P → Prop) (a : A) :
    Words P T → Phase P T → Words P T → Phase P T → Prop where
  | stay (w p) : Move pid born alive a w p w p
  | suspect (w) {c} (hdead : ¬ alive c) : Move pid born alive a w .out w (.clearing c)
  | clear (w c) : Move pid born alive a w (.clearing c)
      { w with claim := if w.claim = some c then none else w.claim } .out
  | claim (w) (hfree : w.claim = none) :
      Move pid born alive a w .out { w with claim := some (pid a) } .claimed
  | seeOwner (w) {o} (ho : w.owner = some o) :
      Move pid born alive a w .claimed w (.sawOwner o)
  | seeNobody (w) (ho : w.owner = none) : Move pid born alive a w .claimed w .free
  | seeStamp (w o) : Move pid born alive a w (.sawOwner o) w (.sawStamp o w.stamp)
  | judgeAlive (w o st) : Move pid born alive a w (.sawStamp o st) w .claimed
  | judgeDead (w) {o st}
      (hdead : ¬ alive o ∨ st ≠ none ∧ born o ≠ none ∧ st ≠ born o) :
      Move pid born alive a w (.sawStamp o st) w .free
  | abandon (w) : Move pid born alive a w .claimed { w with claim := none } .out
  | stamp (w) : Move pid born alive a w .free { w with stamp := born (pid a) } .stamped
  | publish (w) : Move pid born alive a w .stamped { w with owner := some (pid a) } .publishing
  | unclaim (w) : Move pid born alive a w .publishing { w with claim := none } .owning
  | unstamp (w) : Move pid born alive a w .owning { w with stamp := none } .owning
  | disown (w) : Move pid born alive a w .owning { w with owner := none } .out

end Move

/-- At most one live thread claims, at most one owns, and the words of the lock
name them. -/
structure Exclusive (pid : A → P) (born : P → Option T) (alive : P → Prop)
    (w : Words P T) (phase : A → Phase P T) : Prop where
  claim_word : ∀ a, alive (pid a) → (phase a).Claims → w.claim = some (pid a)
  claim_unique : ∀ a b, alive (pid a) → alive (pid b) → (phase a).Claims → (phase b).Claims →
    a = b
  owner_word : ∀ a, alive (pid a) → (phase a).Owns → w.owner = some (pid a)
  owner_stamp : ∀ a, alive (pid a) → (phase a).Owns → w.stamp = none ∨ w.stamp = born (pid a)
  owner_unique : ∀ a b, alive (pid a) → alive (pid b) → (phase a).Owns → (phase b).Owns → a = b
  clearing_dead : ∀ a c, alive (pid a) → phase a = .clearing c → ¬ alive c
  saw_owner : ∀ a b o, alive (pid a) → alive (pid b) → phase a = .sawOwner o → (phase b).Owns →
    o = pid b
  saw_stamp : ∀ a b o st, alive (pid a) → alive (pid b) → phase a = .sawStamp o st →
    (phase b).Owns → o = pid b ∧ (st = none ∨ st = born (pid b))
  entitled : ∀ a b, alive (pid a) → alive (pid b) → (phase a).Entitled → ¬ (phase b).Owns
  stamped_stamp : ∀ a, alive (pid a) → phase a = .stamped → w.stamp = born (pid a)

variable {pid : A → P} {born : P → Option T} {alive : P → Prop}
variable {w w' : Words P T} {phase : A → Phase P T}

theorem Exclusive.initial : Exclusive pid born alive ⟨none, none, none⟩ fun _ => .out := by
  constructor <;> simp [Phase.Claims, Phase.Owns, Phase.Entitled]

/-- Deaths only remove obligations. -/
theorem Exclusive.mono {alive' : P → Prop} (hle : ∀ p, alive' p → alive p)
    (h : Exclusive pid born alive w phase) : Exclusive pid born alive' w phase where
  claim_word a ha := h.claim_word a (hle _ ha)
  claim_unique a b ha hb := h.claim_unique a b (hle _ ha) (hle _ hb)
  owner_word a ha := h.owner_word a (hle _ ha)
  owner_stamp a ha := h.owner_stamp a (hle _ ha)
  owner_unique a b ha hb := h.owner_unique a b (hle _ ha) (hle _ hb)
  clearing_dead a c ha hp := fun hc => h.clearing_dead a c (hle _ ha) hp (hle _ hc)
  saw_owner a b o ha hb := h.saw_owner a b o (hle _ ha) (hle _ hb)
  saw_stamp a b o st ha hb := h.saw_stamp a b o st (hle _ ha) (hle _ hb)
  entitled a b ha hb := h.entitled a b (hle _ ha) (hle _ hb)
  stamped_stamp a ha := h.stamped_stamp a (hle _ ha)

section Threads

/-- What the phase of one thread says about the words. -/
structure Phase.Fits (born : P → Option T) (alive : P → Prop) (w : Words P T) (me : P)
    (p : Phase P T) : Prop where
  claim : p.Claims → w.claim = some me
  owner : p.Owns → w.owner = some me
  stamp : p.Owns → w.stamp = none ∨ w.stamp = born me
  dead : ∀ c, p = .clearing c → ¬ alive c
  stamped : p = .stamped → w.stamp = born me

/-- What the phase of one thread says about the phase of another. -/
structure Phase.Apart (born : P → Option T) (p : Phase P T) (other : P) (q : Phase P T) :
    Prop where
  claims : p.Claims → ¬ q.Claims
  owns : p.Owns → ¬ q.Owns
  saw_owner : ∀ o, p = .sawOwner o → q.Owns → o = other
  saw_stamp : ∀ o st, p = .sawStamp o st → q.Owns → o = other ∧ (st = none ∨ st = born other)
  entitled : p.Entitled → ¬ q.Owns

theorem exclusive_iff : Exclusive pid born alive w phase ↔
    (∀ a, alive (pid a) → (phase a).Fits born alive w (pid a)) ∧
      ∀ a b, a ≠ b → alive (pid a) → alive (pid b) → (phase a).Apart born (pid b) (phase b) := by
  constructor
  · intro h
    refine ⟨fun a ha => ⟨h.claim_word a ha, h.owner_word a ha, h.owner_stamp a ha,
      fun c => h.clearing_dead a c ha, h.stamped_stamp a ha⟩, fun a b hne ha hb => ?_⟩
    exact ⟨fun hp hq => hne (h.claim_unique a b ha hb hp hq),
      fun hp hq => hne (h.owner_unique a b ha hb hp hq), fun o => h.saw_owner a b o ha hb,
      fun o st => h.saw_stamp a b o st ha hb, h.entitled a b ha hb⟩
  · rintro ⟨hfits, hapart⟩
    -- what two threads say about each other holds of one thread since its phases exclude each other
    have hboth : ∀ a b, alive (pid a) → alive (pid b) → a = b ∨
        (phase a).Apart born (pid b) (phase b) := fun a b ha hb =>
      (eq_or_ne a b).imp id fun hne => hapart a b hne ha hb
    constructor
    case claim_word => exact fun a ha => (hfits a ha).claim
    case claim_unique =>
      exact fun a b ha hb hp hq => (hboth a b ha hb).resolve_right fun h => h.claims hp hq
    case owner_word => exact fun a ha => (hfits a ha).owner
    case owner_stamp => exact fun a ha => (hfits a ha).stamp
    case owner_unique =>
      exact fun a b ha hb hp hq => (hboth a b ha hb).resolve_right fun h => h.owns hp hq
    case clearing_dead => exact fun a c ha => (hfits a ha).dead c
    case saw_owner =>
      intro a b o ha hb hp hq
      rcases hboth a b ha hb with rfl | h
      · rw [hp] at hq
        exact hq.elim
      · exact h.saw_owner o hp hq
    case saw_stamp =>
      intro a b o st ha hb hp hq
      rcases hboth a b ha hb with rfl | h
      · rw [hp] at hq
        exact hq.elim
      · exact h.saw_stamp o st hp hq
    case entitled =>
      intro a b ha hb hp hq
      rcases hboth a b ha hb with rfl | h
      · exact hp.not_owns hq
      · exact h.entitled hp hq
    case stamped_stamp => exact fun a ha => (hfits a ha).stamped

variable [DecidableEq P] {a : A} {p q r : Phase P T} {other : P}

theorem Move.fits (hm : Move pid born alive a w q w' p) (h : q.Fits born alive w (pid a)) :
    p.Fits born alive w' (pid a) := by
  obtain ⟨hclaim, howner, hstamp, hdead, hstamped⟩ := h
  cases hm <;> constructor <;> grind [Phase.Claims, Phase.Owns]

/-- The words of another live thread stay as they are. -/
theorem Move.fits_other (hm : Move pid born alive a w q w' p) (h : q.Fits born alive w (pid a))
    (hother : r.Fits born alive w other) (halive : alive other) (hqr : q.Apart born other r)
    (hrq : r.Apart born (pid a) q) : r.Fits born alive w' other := by
  obtain ⟨hclaim, howner, hstamp, hdead, hstamped⟩ := hother
  have hdying := h.dead
  obtain ⟨hclaims, howns, -, -, hentitled⟩ := hqr
  have hstays := hrq.entitled
  cases hm <;> constructor <;> grind [Phase.Claims, Phase.Owns, Phase.Entitled]

theorem Move.apart (hm : Move pid born alive a w q w' p)
    (hother : r.Fits born alive w other) (halive : alive other) (hqr : q.Apart born other r) :
    p.Apart born other r := by
  obtain ⟨hclaim, howner, hstamp, hdead, hstamped⟩ := hother
  obtain ⟨hclaims, howns, hsaw, hsawStamp, hentitled⟩ := hqr
  cases hm <;> constructor <;> grind [Phase.Claims, Phase.Owns, Phase.Entitled]

theorem Move.apart_other (hm : Move pid born alive a w q w' p)
    (hother : r.Fits born alive w other) (hqr : q.Apart born other r)
    (hrq : r.Apart born (pid a) q) : r.Apart born (pid a) p := by
  have hclaim := hother.claim
  obtain ⟨hclaims, howns, hsaw, hsawStamp, hentitled⟩ := hrq
  have hentitled' := hqr.entitled
  have hentClaims := Phase.Entitled.claims (p := r)
  cases hm <;> constructor <;> grind [Phase.Claims, Phase.Owns, Phase.Entitled]

/-- Every access of a live thread keeps the lock exclusive. -/
theorem Exclusive.move [DecidableEq A] (h : Exclusive pid born alive w phase)
    (ha : alive (pid a)) (hm : Move pid born alive a w (phase a) w' p) :
    Exclusive pid born alive w' (Function.update phase a p) := by
  obtain ⟨hfits, hapart⟩ := exclusive_iff.1 h
  refine exclusive_iff.2 ⟨fun b hb => ?_, fun b c hne hb hc => ?_⟩
  · by_cases hba : b = a
    · subst hba
      rw [Function.update_self]
      exact hm.fits (hfits b hb)
    · rw [Function.update_of_ne hba]
      exact hm.fits_other (hfits a ha) (hfits b hb) hb (hapart a b (Ne.symm hba) ha hb)
        (hapart b a hba hb ha)
  · by_cases hba : b = a
    · subst hba
      rw [Function.update_self, Function.update_of_ne (Ne.symm hne)]
      exact hm.apart (hfits c hc) hc (hapart b c hne hb hc)
    · rw [Function.update_of_ne hba]
      by_cases hca : c = a
      · subst hca
        rw [Function.update_self]
        exact hm.apart_other (hfits b hb) (hapart c b (Ne.symm hne) hc hb) (hapart b c hne hb hc)
      · rw [Function.update_of_ne hca]
        exact hapart b c hne hb hc

end Threads

/-- A claim whose holder is dead is cleared by a thread that is out. -/
theorem Exclusive.reclaim [DecidableEq A] [DecidableEq P] {a : A}
    (h : Exclusive pid born alive w phase) (ha : alive (pid a)) (hout : phase a = .out)
    (hdead : ∀ c, w.claim = some c → ¬ alive c) :
    Exclusive pid born alive { w with claim := none } phase := by
  cases hc : w.claim with
  | none =>
      obtain ⟨claim, owner, stamp⟩ := w
      obtain rfl : claim = none := hc
      exact h
  | some c =>
      have hsuspect : Exclusive pid born alive w (Function.update phase a (.clearing c)) :=
        h.move ha (by rw [hout]; exact .suspect w (hdead c hc))
      have hclear := hsuspect.move (p := .out) ha
        (by rw [Function.update_self]; exact .clear w c)
      rwa [if_pos hc, Function.update_idem, ← hout, Function.update_eq_self] at hclear

/-- A process is born, and none of its threads uses the lock. -/
theorem Exclusive.birth {alive' : P → Prop} {q : P} (h : Exclusive pid born alive w phase)
    (hborn : ∀ p, alive' p → alive p ∨ p = q) (hout : ∀ a, pid a = q → phase a = .out)
    (hclearing : ∀ a c, phase a ≠ .clearing c) : Exclusive pid born alive' w phase := by
  have hlive : ∀ a, alive' (pid a) → phase a ≠ .out → alive (pid a) := fun a ha hne =>
    (hborn _ ha).resolve_right fun hq => hne (hout a hq)
  have hclaims : ∀ a, (phase a).Claims → phase a ≠ .out := fun a hp e => by
    simp [e, Phase.Claims] at hp
  have howns : ∀ a, (phase a).Owns → phase a ≠ .out := fun a hp e => by
    simp [e, Phase.Owns] at hp
  constructor
  · exact fun a ha hp => h.claim_word a (hlive a ha (hclaims a hp)) hp
  · exact fun a b ha hb hpa hpb => h.claim_unique a b (hlive a ha (hclaims a hpa))
      (hlive b hb (hclaims b hpb)) hpa hpb
  · exact fun a ha hp => h.owner_word a (hlive a ha (howns a hp)) hp
  · exact fun a ha hp => h.owner_stamp a (hlive a ha (howns a hp)) hp
  · exact fun a b ha hb hpa hpb => h.owner_unique a b (hlive a ha (howns a hpa))
      (hlive b hb (howns b hpb)) hpa hpb
  · exact fun a c _ hp => absurd hp (hclearing a c)
  · exact fun a b o ha hb hp hpb => h.saw_owner a b o (hlive a ha (by simp [hp]))
      (hlive b hb (howns b hpb)) hp hpb
  · exact fun a b o st ha hb hp hpb => h.saw_stamp a b o st (hlive a ha (by simp [hp]))
      (hlive b hb (howns b hpb)) hp hpb
  · exact fun a b ha hb hp hpb => h.entitled a b (hlive a ha (hclaims a hp.claims))
      (hlive b hb (howns b hpb)) hp hpb
  · exact fun a ha hp => h.stamped_stamp a (hlive a ha (by simp [hp])) hp

/-- The words name no living process without a thread of it behind them. -/
structure Attended (pid : A → P) (alive : P → Prop) (w : Words P T) (phase : A → Phase P T) :
    Prop where
  claim : ∀ c, w.claim = some c → alive c → ∃ a, pid a = c ∧ (phase a).Claims
  owner : ∀ o, w.owner = some o → alive o → ∃ a, pid a = o ∧ (phase a).Owns

theorem Attended.mono {alive' : P → Prop} (hle : ∀ p, alive' p → alive p)
    (h : Attended pid alive w phase) : Attended pid alive' w phase where
  claim c hc ha := h.claim c hc (hle c ha)
  owner o ho ha := h.owner o ho (hle o ha)

/-- A thread that changes its phase keeps the words attended, if it still stands behind those
that name its own process. -/
theorem Attended.update [DecidableEq A] {a : A} {p : Phase P T} (h : Attended pid alive w phase)
    (hclaim : ∀ c, w'.claim = some c → alive c →
      (p.Claims ∧ c = pid a) ∨ (w.claim = some c ∧ ((phase a).Claims → p.Claims)))
    (howner : ∀ o, w'.owner = some o → alive o →
      (p.Owns ∧ o = pid a) ∨ (w.owner = some o ∧ ((phase a).Owns → p.Owns))) :
    Attended pid alive w' (Function.update phase a p) := by
  constructor
  · intro c hc ha
    obtain ⟨hp, rfl⟩ | ⟨hold, hkeep⟩ := hclaim c hc ha
    · exact ⟨a, rfl, by simpa using hp⟩
    · obtain ⟨b, hb, hbc⟩ := h.claim c hold ha
      refine ⟨b, hb, ?_⟩
      by_cases hba : b = a
      · subst hba; simpa using hkeep hbc
      · simpa [hba] using hbc
  · intro o ho ha
    obtain ⟨hp, rfl⟩ | ⟨hold, hkeep⟩ := howner o ho ha
    · exact ⟨a, rfl, by simpa using hp⟩
    · obtain ⟨b, hb, hbo⟩ := h.owner o hold ha
      refine ⟨b, hb, ?_⟩
      by_cases hba : b = a
      · subst hba; simpa using hkeep hbo
      · simpa [hba] using hbo

/-- Every access of a live thread keeps the words attended. -/
theorem Attended.move [DecidableEq A] [DecidableEq P] {a : A} {p : Phase P T}
    (h : Attended pid alive w phase) (he : Exclusive pid born alive w phase)
    (ha : alive (pid a)) (hm : Move pid born alive a w (phase a) w' p) :
    Attended pid alive w' (Function.update phase a p) := by
  have hclaim := he.claim_word a ha
  have howner := he.owner_word a ha
  apply h.update <;> generalize phase a = q at hm hclaim howner <;> cases hm <;>
    simp_all [Phase.Claims, Phase.Owns]

end Probing.Core.ClaimLock
