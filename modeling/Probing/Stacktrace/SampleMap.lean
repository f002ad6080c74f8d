import Probing.Stacktrace.Fold

/-!
# The samples of the sampler

The consumer folds the samples it takes from the ring into a map of bounded size with one entry for
each fingerprint, and counts what the map does not take.
-/

namespace Probing.Stacktrace.Sampler

open Core.Keyed (update get)

def maxNative : ℕ := 48

def maxPy : ℕ := 128

def maxFoldedStacks : ℕ := 1 <<< 17

namespace StackFlags

def nativeTruncated : UInt16 := 1

def pyTruncated : UInt16 := 2

def pyTorn : UInt16 := 4

def pyAbsent : UInt16 := 8

def contains (flags other : UInt16) : Bool := flags &&& other == other

end StackFlags

/-- A snapshot of fixed size. Every writer keeps the lengths within the arrays. -/
structure StackSnapshot where
  tid : UInt64
  source : StackSource
  flags : UInt16
  nativeLen : ℕ
  pyLen : ℕ
  native : Vector UInt64 maxNative
  py : Vector UInt64 maxPy
  native_le : nativeLen ≤ maxNative
  py_le : pyLen ≤ maxPy

/-- Only the frames in use. -/
structure CompactStack where
  tid : UInt64
  source : StackSource
  flags : UInt16
  native : List UInt64
  py : List UInt64
  deriving DecidableEq

namespace StackSnapshot

def isEmpty (s : StackSnapshot) : Bool := s.nativeLen == 0 && s.pyLen == 0

/-- The first words of an array of zeros. -/
def filled (n : ℕ) (words : List UInt64) : Vector UInt64 n := .ofFn fun i => words.getD i 0

def fromParts (tid : UInt64) (source : StackSource)
    (native_leaf_to_root py_outer_to_inner : List UInt64) (flags : UInt16) : StackSnapshot :=
  let nlen := min native_leaf_to_root.length maxNative
  let flags := if maxNative < native_leaf_to_root.length then
    flags ||| StackFlags.nativeTruncated else flags
  let plen := min py_outer_to_inner.length maxPy
  let flags := if maxPy < py_outer_to_inner.length then flags ||| StackFlags.pyTruncated else flags
  { tid, source
    flags := if plen = 0 then flags ||| StackFlags.pyAbsent else flags
    nativeLen := nlen
    pyLen := plen
    native := filled maxNative (native_leaf_to_root.take nlen)
    py := filled maxPy (py_outer_to_inner.take plen)
    native_le := Nat.min_le_right _ _
    py_le := Nat.min_le_right _ _ }

end StackSnapshot

namespace CompactStack

def fromSnapshot (s : StackSnapshot) : CompactStack where
  tid := s.tid
  source := s.source
  flags := s.flags
  native := s.native.toList.take (min s.nativeLen maxNative)
  py := s.py.toList.take (min s.pyLen maxPy)

def toSnapshot (c : CompactStack) : StackSnapshot := .fromParts c.tid c.source c.native c.py c.flags

end CompactStack

/-- The closure `mix`. -/
def mix (h v : UInt64) : UInt64 := (h ^^^ v) * 0x100000001b3

def fingerprintParts (tid : UInt64) (flags : UInt16) (native py : List UInt64) : UInt64 :=
  let h := mix 0xcbf29ce484222325 tid
  let h := mix h (.ofNat native.length)
  let h := mix h (.ofNat py.length)
  let h := mix h flags.toUInt64
  py.foldl mix (native.foldl mix h)

def fingerprint (s : StackSnapshot) : UInt64 :=
  fingerprintParts s.tid s.flags (s.native.toList.take s.nativeLen) (s.py.toList.take s.pyLen)

def fingerprintCompact (c : CompactStack) : UInt64 := fingerprintParts c.tid c.flags c.native c.py

structure AggregatedSample where
  count : UInt64
  representative : CompactStack

/-- The map of the sampler and the counters that its consumer moves. -/
structure SamplerState where
  samples : List (UInt64 × AggregatedSample)
  droppedTorn : UInt64
  droppedNotMain : UInt64
  droppedCapacity : UInt64
  fingerprintHits : UInt64
  fingerprintMisses : UInt64

/-- `u64::saturating_add(1)`. -/
def saturatingSucc (n : UInt64) : UInt64 := if n = 0xffffffffffffffff then n else n + 1

def acceptsMainThreadSample (sample_tid : UInt64) (main_tid : Option UInt64) : Bool :=
  match main_tid with
  | some main => sample_tid == main
  | none => false

namespace SamplerState

/-- What `setup` leaves. -/
def cleared : SamplerState := ⟨[], 0, 0, 0, 0, 0⟩

/-- A sample is counted, while the map is locked. -/
def add (st : SamplerState) (s : StackSnapshot) : SamplerState :=
  let fp := fingerprint s
  match get st.samples fp with
  | some entry =>
      { st with
        samples :=
      update (fun _ => { entry with count := saturatingSucc entry.count }) st.samples fp
        fingerprintHits := st.fingerprintHits + 1 }
  | none =>
      if st.samples.length < maxFoldedStacks then
        { st with
          samples := update (fun _ => ⟨1, .fromSnapshot s⟩) st.samples fp
          fingerprintMisses := st.fingerprintMisses + 1 }
      else { st with droppedCapacity := st.droppedCapacity + 1 }

/-- `main` is `python_main_os_tid()` at the call. -/
def processSample (st : SamplerState) (main : Option UInt64) (s : StackSnapshot) : SamplerState :=
  if StackFlags.contains s.flags StackFlags.pyTorn then
    { st with droppedTorn := st.droppedTorn + 1 }
  else if !acceptsMainThreadSample s.tid main then
    { st with droppedNotMain := st.droppedNotMain + 1 }
  else if s.isEmpty then st
  else st.add s

def run (st : SamplerState) (xs : List (Option UInt64 × StackSnapshot)) : SamplerState :=
  xs.foldl (fun st x => st.processSample x.1 x.2) st

end SamplerState

section Samples

variable {s : StackSnapshot} {st : SamplerState} {R : List StackSnapshot}
  {xs : List (Option UInt64 × StackSnapshot)}

theorem fingerprint_fromSnapshot (s : StackSnapshot) :
    fingerprintCompact (.fromSnapshot s) = fingerprint s := by
  unfold fingerprintCompact fingerprint CompactStack.fromSnapshot
  rw [Nat.min_eq_left s.native_le, Nat.min_eq_left s.py_le]

theorem take_filled {n : ℕ} {words : List UInt64} (h : words.length ≤ n) :
    (StackSnapshot.filled n words).toList.take words.length = words := by
  unfold StackSnapshot.filled
  apply List.ext_getElem
  · simp [h]
  · intro i hi hi'
    simp [hi']

/-- The frames come back, and a stack without Python frames is flagged. -/
theorem CompactStack.round_trip (s : StackSnapshot) :
    fromSnapshot (fromSnapshot s).toSnapshot =
      { fromSnapshot s with
        flags := if s.pyLen = 0 then s.flags ||| StackFlags.pyAbsent else s.flags } := by
  have hnative : (fromSnapshot s).native.length = s.nativeLen := by
    simp [fromSnapshot, s.native_le]
  have hpy : (fromSnapshot s).py.length = s.pyLen := by
    simp [fromSnapshot, s.py_le]
  have hback : fromSnapshot (fromSnapshot s).toSnapshot =
    ⟨s.tid, s.source, (fromSnapshot s).toSnapshot.flags,
      (fromSnapshot s).native, (fromSnapshot s).py⟩ := by
    unfold toSnapshot StackSnapshot.fromParts
    rw [fromSnapshot]
    simp only [Nat.min_eq_left, hnative, hpy, s.native_le, s.py_le,
      List.take_of_length_le, Nat.le_refl]
    congr 1
    · exact hnative ▸ take_filled (hnative ▸ s.native_le)
    · exact hpy ▸ take_filled (hpy ▸ s.py_le)
  have hflags : (fromSnapshot s).toSnapshot.flags =
      if s.pyLen = 0 then s.flags ||| StackFlags.pyAbsent else s.flags := by
    unfold toSnapshot StackSnapshot.fromParts
    simp only [hnative, hpy, Nat.not_lt.2 s.native_le, Nat.not_lt.2 s.py_le, if_false,
      Nat.min_eq_left s.py_le]
    rfl
  rw [hback, hflags]
  rfl

theorem countP_concat {α : Type} (p : α → Bool) (l : List α) (x : α) :
    (l ++ [x]).countP p = l.countP p + if p x then 1 else 0 := by
  rw [List.countP_append, List.countP_singleton]

/-- What the map and its counters say about the samples that have reached it. -/
structure Tally (R : List StackSnapshot) (st : SamplerState) : Prop where
  nodup : (st.samples.map Prod.fst).Nodup
  bound : st.samples.length ≤ maxFoldedStacks
  full : ∀ s ∈ R, get st.samples (fingerprint s) = none → st.samples.length = maxFoldedStacks
  entry : ∀ {k e}, get st.samples k = some e →
    e.count.toNat = min (R.countP fun s => fingerprint s = k) (2 ^ 64 - 1) ∧
      (R.find? fun s => fingerprint s = k).map .fromSnapshot = some e.representative
  misses : st.fingerprintMisses = .ofNat st.samples.length
  capacity : st.droppedCapacity = .ofNat (R.countP fun s => (get st.samples (fingerprint s)).isNone)
  total : st.fingerprintHits + st.fingerprintMisses + st.droppedCapacity = .ofNat R.length

theorem SamplerState.add_drops (st : SamplerState) (s : StackSnapshot) :
    (st.add s).droppedTorn = st.droppedTorn ∧ (st.add s).droppedNotMain = st.droppedNotMain := by
  unfold SamplerState.add
  dsimp only
  split
  · exact ⟨rfl, rfl⟩
  · split <;> exact ⟨rfl, rfl⟩

theorem saturatingSucc_toNat {n : UInt64} {m : ℕ} (h : n.toNat = min m (2 ^ 64 - 1)) :
    (saturatingSucc n).toNat = min (m + 1) (2 ^ 64 - 1) := by
  unfold saturatingSucc
  split
  next hmax =>
    have hn : n.toNat = 2 ^ 64 - 1 := by rw [hmax]; rfl
    omega
  next hmax =>
    have hn : n.toNat ≠ 2 ^ 64 - 1 := fun hn => hmax (UInt64.toNat_inj.1 hn)
    have hlt := n.toNat_lt
    rw [UInt64.toNat_add]
    change (n.toNat + 1) % 2 ^ 64 = _
    omega

namespace Tally

theorem cleared : Tally [] .cleared where
  nodup := List.nodup_nil
  bound := Nat.zero_le _
  full _ h := nomatch h
  entry h := nomatch h
  misses := rfl
  capacity := rfl
  total := rfl

/-- A fingerprint that is new, while the map has room, is that of no earlier sample. -/
theorem unseen (h : Tally R st) {k : UInt64} (hk : get st.samples k = none)
    (hroom : st.samples.length < maxFoldedStacks) : ∀ r ∈ R, fingerprint r ≠ k := by
  rintro r hr rfl
  have := h.full r hr hk
  omega

/-- A sample that is not in the map came before the one that is entered. -/
theorem earlier (h : Tally R st) {e : AggregatedSample} {r : StackSnapshot} (hr : r ∈ R ++ [s])
    (hnone : get (update (fun _ => e) st.samples (fingerprint s)) (fingerprint r) = none) :
    r ∈ R ∧ get st.samples (fingerprint r) = none := by
  by_cases hk : fingerprint r = fingerprint s
  · rw [hk, Core.Keyed.get_update_self h.nodup] at hnone
    cases hnone
  · rw [Core.Keyed.get_update_of_ne h.nodup hk] at hnone
    refine ⟨(List.mem_append.1 hr).elim id fun hr => ?_, hnone⟩
    exact absurd (congrArg _ (List.mem_singleton.1 hr)) hk

theorem entry_of_ne (h : Tally R st) {k : UInt64} {e : AggregatedSample} (hne : fingerprint s ≠ k)
    (he : get st.samples k = some e) :
    e.count.toNat = min ((R ++ [s]).countP fun r => fingerprint r = k) (2 ^ 64 - 1) ∧
      ((R ++ [s]).find? fun r => fingerprint r = k).map .fromSnapshot = some e.representative := by
  obtain ⟨hcount, hfirst⟩ := h.entry he
  obtain ⟨r, hr, hrep⟩ := Option.map_eq_some_iff.1 hfirst
  refine ⟨?_, ?_⟩
  · simpa [countP_concat, hne] using hcount
  · rw [List.find?_append, hr, ← hrep]
    rfl

theorem hit (h : Tally R st) {e : AggregatedSample}
    (hget : get st.samples (fingerprint s) = some e) :
    Tally (R ++ [s])
      { st with
        samples :=
      update (fun _ => { e with count := saturatingSucc e.count }) st.samples (fingerprint s)
        fingerprintHits := st.fingerprintHits + 1 } where
  nodup := by
    dsimp only
    exact Core.Keyed.nodup_update h.nodup
  bound := by
    rw [Core.Keyed.length_update_of_some hget]
    exact h.bound
  full r hr hnone := by
    obtain ⟨hr', hnone'⟩ := h.earlier hr hnone
    rw [Core.Keyed.length_update_of_some hget]
    exact h.full r hr' hnone'
  entry {k e'} he := by
    by_cases hk : fingerprint s = k
    · subst hk
      rw [Core.Keyed.get_update_self h.nodup] at he
      obtain rfl := Option.some.inj he
      obtain ⟨hcount, hfirst⟩ := h.entry hget
      obtain ⟨r, hr, hrep⟩ := Option.map_eq_some_iff.1 hfirst
      refine ⟨?_, ?_⟩
      · rw [countP_concat, if_pos (decide_eq_true rfl)]
        exact saturatingSucc_toNat hcount
      · rw [List.find?_append, hr]
        exact congrArg some hrep
    · rw [Core.Keyed.get_update_of_ne h.nodup (Ne.symm hk)] at he
      exact h.entry_of_ne hk he
  misses := by
    rw [Core.Keyed.length_update_of_some hget]
    exact h.misses
  capacity := by
    have hkeys (r : StackSnapshot) :
        (get (update (fun _ => { e with count := saturatingSucc e.count }) st.samples
        (fingerprint s)) (fingerprint r)).isNone = (get st.samples (fingerprint r)).isNone := by
      by_cases hk : fingerprint r = fingerprint s
      · rw [hk, Core.Keyed.get_update_self h.nodup, hget]
        rfl
      · rw [Core.Keyed.get_update_of_ne h.nodup hk]
    simp only [hkeys, countP_concat, hget]
    exact h.capacity
  total := by
    calc
      st.fingerprintHits + 1 + st.fingerprintMisses + st.droppedCapacity
          = st.fingerprintHits + st.fingerprintMisses + st.droppedCapacity + 1 := by ac_rfl
      _ = .ofNat (R ++ [s]).length := by rw [h.total, List.length_append, UInt64.ofNat_add]; rfl

theorem miss (h : Tally R st) (hget : get st.samples (fingerprint s) = none)
    (hroom : st.samples.length < maxFoldedStacks) :
    Tally (R ++ [s])
      { st with
        samples := update (fun _ => ⟨1, .fromSnapshot s⟩) st.samples (fingerprint s)
        fingerprintMisses := st.fingerprintMisses + 1 } where
  nodup := by
    dsimp only
    exact Core.Keyed.nodup_update h.nodup
  bound := by
    rw [Core.Keyed.length_update_of_none hget]
    exact hroom
  full r hr hnone := by
    obtain ⟨hr', hnone'⟩ := h.earlier hr hnone
    have := h.full r hr' hnone'
    omega
  entry {k e'} he := by
    by_cases hk : fingerprint s = k
    · subst hk
      rw [Core.Keyed.get_update_self h.nodup] at he
      obtain rfl := Option.some.inj he
      have hunseen := h.unseen hget hroom
      refine ⟨?_, ?_⟩
      · rw [countP_concat, if_pos (decide_eq_true rfl),
          List.countP_eq_zero.2 (by simpa using hunseen)]
        rfl
      · rw [List.find?_append, List.find?_eq_none.2 (by simpa using hunseen)]
        simp
    · rw [Core.Keyed.get_update_of_ne h.nodup (Ne.symm hk)] at he
      exact h.entry_of_ne hk he
  misses := by
    rw [Core.Keyed.length_update_of_none hget, UInt64.ofNat_add, ← h.misses]
    rfl
  capacity := by
    have hself :
      (get (update (fun _ => (⟨1, .fromSnapshot s⟩ : AggregatedSample)) st.samples (fingerprint s))
        (fingerprint s)).isNone = false := by
      rw [Core.Keyed.get_update_self h.nodup]
      rfl
    simp only [countP_concat, hself]
    refine h.capacity.trans (congrArg UInt64.ofNat ?_)
    refine List.countP_congr fun r hr => ?_
    rw [Core.Keyed.get_update_of_ne h.nodup (h.unseen hget hroom r hr)]
  total := by
    calc
      st.fingerprintHits + (st.fingerprintMisses + 1) + st.droppedCapacity
          = st.fingerprintHits + st.fingerprintMisses + st.droppedCapacity + 1 := by ac_rfl
      _ = .ofNat (R ++ [s]).length := by rw [h.total, List.length_append, UInt64.ofNat_add]; rfl

theorem drop (h : Tally R st) (hget : get st.samples (fingerprint s) = none)
    (hfull : ¬st.samples.length < maxFoldedStacks) :
    Tally (R ++ [s]) { st with droppedCapacity := st.droppedCapacity + 1 } where
  nodup := h.nodup
  bound := h.bound
  full _ _ _ := Nat.le_antisymm h.bound (Nat.not_lt.1 hfull)
  entry {k e} he := by
    refine h.entry_of_ne ?_ he
    rintro rfl
    cases hget.symm.trans he
  misses := h.misses
  capacity := by
    simp only [countP_concat, hget, Option.isNone_none, if_true]
    rw [UInt64.ofNat_add, ← h.capacity]
    rfl
  total := by
    rw [List.length_append, UInt64.ofNat_add, ← h.total]
    exact (UInt64.add_assoc _ _ _).symm

theorem add (h : Tally R st) (s : StackSnapshot) : Tally (R ++ [s]) (st.add s) := by
  cases hget : get st.samples (fingerprint s) with
  | some e =>
      simp only [SamplerState.add, hget]
      exact h.hit hget
  | none =>
      by_cases hroom : st.samples.length < maxFoldedStacks
      · simp only [SamplerState.add, hget, if_pos hroom]
        exact h.miss hget hroom
      · simp only [SamplerState.add, hget, if_neg hroom]
        exact h.drop hget hroom

theorem keyed (h : Tally R st) {k : UInt64} {e : AggregatedSample}
    (he : get st.samples k = some e) :
    fingerprintCompact e.representative = k := by
  obtain ⟨r, hr, hrep⟩ := Option.map_eq_some_iff.1 (h.entry he).2
  have hk : fingerprint r = k := by simpa using List.find?_some hr
  rw [← hrep, fingerprint_fromSnapshot, hk]

end Tally

def torn (x : Option UInt64 × StackSnapshot) : Bool :=
  StackFlags.contains x.2.flags StackFlags.pyTorn

def ofMain (x : Option UInt64 × StackSnapshot) : Bool := acceptsMainThreadSample x.2.tid x.1

/-- The samples that reach the map. -/
def admitted (x : Option UInt64 × StackSnapshot) : Bool := !torn x && ofMain x && !x.2.isEmpty

/-- The samples of a run, in the map and in the counters: the map has the fingerprints of the first
samples that are admitted, as many as it has room for, each with the number of its samples and the
frames of the first one, under their fingerprint. -/
structure Accounts (xs : List (Option UInt64 × StackSnapshot)) (st : SamplerState) : Prop where
  tally : Tally ((xs.filter admitted).map Prod.snd) st
  droppedTorn : st.droppedTorn = .ofNat (xs.countP torn)
  droppedNotMain : st.droppedNotMain = .ofNat (xs.countP fun x => !torn x && !ofMain x)
  keyed : ∀ {k e}, get st.samples k = some e → fingerprintCompact e.representative = k :=
    fun he => tally.keyed he

namespace Accounts

theorem cleared : Accounts [] .cleared := ⟨Tally.cleared, rfl, rfl, Tally.cleared.keyed⟩

theorem process (h : Accounts xs st) (x : Option UInt64 × StackSnapshot) :
    Accounts (xs ++ [x]) (st.processSample x.1 x.2) := by
  obtain ⟨htally, hdropped, hmain, -⟩ := h
  have hmap : ((xs ++ [x]).filter admitted).map Prod.snd =
      (xs.filter admitted).map Prod.snd ++ if admitted x then [x.2] else [] := by
    rw [List.filter_append, List.map_append]
    cases hx : admitted x <;> simp [hx]
  cases htorn : torn x with
  | true =>
      have hst : st.processSample x.1 x.2 = { st with droppedTorn := st.droppedTorn + 1 } :=
        if_pos htorn
      have hadmitted : admitted x = false := by simp [admitted, htorn]
      rw [hst]
      refine { tally := ?_, droppedTorn := ?_, droppedNotMain := ?_ }
      · rw [hmap, hadmitted]
        simpa using ⟨htally.nodup, htally.bound, htally.full, htally.entry, htally.misses,
          htally.capacity, htally.total⟩
      · rw [countP_concat, htorn, UInt64.ofNat_add, ← hdropped]
        rfl
      · simpa [countP_concat, htorn] using hmain
  | false =>
      cases hof : ofMain x with
      | false =>
          have hst : st.processSample x.1 x.2 =
              { st with droppedNotMain := st.droppedNotMain + 1 } := by
            unfold torn at htorn
            unfold ofMain at hof
            simp [SamplerState.processSample, htorn, hof]
          have hadmitted : admitted x = false := by simp [admitted, hof]
          rw [hst]
          refine { tally := ?_, droppedTorn := ?_, droppedNotMain := ?_ }
          · rw [hmap, hadmitted]
            simpa using
              ⟨htally.nodup, htally.bound, htally.full, htally.entry, htally.misses,
                htally.capacity, htally.total⟩
          · simpa [countP_concat, htorn] using hdropped
          · rw [countP_concat, htorn, hof, UInt64.ofNat_add, ← hmain]
            rfl
      | true =>
          have hst : st.processSample x.1 x.2 = if x.2.isEmpty then st else st.add x.2 := by
            unfold torn at htorn
            unfold ofMain at hof
            simp [SamplerState.processSample, htorn, hof]
          have hadmitted : admitted x = !x.2.isEmpty := by simp [admitted, htorn, hof]
          rw [hst]
          refine { tally := ?_, droppedTorn := ?_, droppedNotMain := ?_ }
          · rw [hmap, hadmitted]
            cases x.2.isEmpty with
            | true => simpa using htally
            | false => exact htally.add x.2
          · have hdropped' : (if x.2.isEmpty then st else st.add x.2).droppedTorn =
                st.droppedTorn := by
              cases x.2.isEmpty with
              | true => rfl
              | false => exact (SamplerState.add_drops st x.2).1
            rw [hdropped']
            simpa [countP_concat, htorn] using hdropped
          · have hmain' : (if x.2.isEmpty then st else st.add x.2).droppedNotMain =
                st.droppedNotMain := by
              cases x.2.isEmpty with
              | true => rfl
              | false => exact (SamplerState.add_drops st x.2).2
            rw [hmain']
            simpa [countP_concat, hof] using hmain

theorem run (h : Accounts xs st) (ys : List (Option UInt64 × StackSnapshot)) :
    Accounts (xs ++ ys) (st.run ys) := by
  induction ys generalizing xs st with
  | nil => rwa [List.append_nil]
  | cons y ys ih =>
      rw [List.append_cons]
      exact ih (h.process y)

end Accounts

theorem SamplerState.samples_accounted (xs : List (Option UInt64 × StackSnapshot)) :
    Accounts xs (SamplerState.cleared.run xs) := by
  simpa using Accounts.cleared.run xs

end Samples

end Probing.Stacktrace.Sampler
