import Probing.Core.Text

/-!
# Crash events

A crash is recorded with its texts cut to a limit and with a fingerprint of the exception, the top
frame and the first bytes of the message. The cuts are at fixed byte offsets: the message is cut
for storage, and what was stored is trimmed and cut again for the fingerprint.
-/

namespace Probing.Crash

open Probing.Core

structure CrashInput where
  kind : List Char
  exceptionType : List Char
  message : List Char
  topFrame : List Char
  traceback : List Char
  nativeBacktrace : List Char
  crashThread : List Char
  threadStacks : List Char

structure TrainingContext where
  globalStep : ℤ
  localStep : ℤ
  microStep : ℤ
  trainingPhase : List Char
  activeSpan : List Char
  lastCommOp : List Char

/-- What `record` reads of the process: its place in the job, the training step and the memory. -/
structure Surroundings (M : Type) where
  eventId : List Char
  timestampNs : ℤ
  rank : ℤ
  localRank : ℤ
  worldSize : ℤ
  host : List Char
  pid : ℤ
  training : TrainingContext
  memory : M

structure CrashEvent (M : Type) where
  eventId : List Char
  timestampNs : ℤ
  kind : List Char
  rank : ℤ
  localRank : ℤ
  worldSize : ℤ
  host : List Char
  pid : ℤ
  exceptionType : List Char
  message : List Char
  topFrame : List Char
  traceback : List Char
  nativeBacktrace : List Char
  crashThread : List Char
  threadStacks : List Char
  fingerprint : List Char
  training : TrainingContext
  memory : M

def ellipsis : List Char := ['.', '.', '.']

/-- None is the panic of a cut inside a character. -/
def truncate (text : List Char) (limit : ℕ) : Option (List Char) :=
  if byteLen text ≤ limit then some text
  else (sliceTo text (limit - 3)).map (· ++ ellipsis)

/-- `str::replace('\n', " ")`. -/
def oneLine (msg : List Char) : List Char := msg.map fun c => if c = '\n' then ' ' else c

/-- A byte as two hexadecimal digits. -/
def hex (b : UInt8) : List Char := [Nat.digitChar (b.toNat / 16), Nat.digitChar (b.toNat % 16)]

def headOf (msg : List Char) : Option (List Char) :=
  if byteLen msg ≤ 120 then some msg else sliceTo msg 120

variable (sha256 : List UInt8 → List UInt8)

def fingerprint (exceptionType message topFrame : List Char) : Option (List Char) := do
  let msg ← headOf (oneLine (trim message))
  let payload := exceptionType ++ '|' :: topFrame ++ '|' :: msg
  some (((sha256 (bytes payload)).take 8).flatMap hex)

variable {M : Type}

/-- The event that `record` builds when crashes are recorded. -/
def crashEvent (env : Surroundings M) (input : CrashInput) : Option (CrashEvent M) := do
  let message ← truncate input.message 2000
  let fp ← fingerprint sha256 input.exceptionType message input.topFrame
  let traceback ← truncate input.traceback 64000
  let nativeBacktrace ← truncate input.nativeBacktrace 64000
  let threadStacks ← truncate input.threadStacks 64000
  some {
    eventId := env.eventId, timestampNs := env.timestampNs, kind := input.kind,
    rank := env.rank, localRank := env.localRank, worldSize := env.worldSize,
    host := env.host, pid := env.pid,
    exceptionType := input.exceptionType, message, topFrame := input.topFrame, traceback,
    nativeBacktrace, crashThread := input.crashThread, threadStacks, fingerprint := fp,
    training := env.training, memory := env.memory }

/-- A stored text is the text itself if it fits, or the first part of it and an ellipsis. -/
def Stored (limit : ℕ) (text stored : List Char) : Prop :=
  if byteLen text ≤ limit then stored = text
  else ∃ p, p <+: text ∧ stored = p ++ ellipsis ∧ byteLen stored ≤ limit

structure Keeps (input : CrashInput) (event : CrashEvent M) : Prop where
  kind : event.kind = input.kind
  exceptionType : event.exceptionType = input.exceptionType
  message : Stored 2000 input.message event.message
  topFrame : event.topFrame = input.topFrame
  traceback : Stored 64000 input.traceback event.traceback
  nativeBacktrace : Stored 64000 input.nativeBacktrace event.nativeBacktrace
  crashThread : event.crashThread = input.crashThread
  threadStacks : Stored 64000 input.threadStacks event.threadStacks

/-- The crashes have one type and frame, and messages that agree on their first 120 bytes. -/
structure Alike (x y : CrashInput) : Prop where
  exceptionType : x.exceptionType = y.exceptionType
  topFrame : x.topFrame = y.topFrame
  message : (bytes (oneLine (trim x.message))).take 120 =
    (bytes (oneLine (trim y.message))).take 120

/-- Both crashes are recorded, and with one fingerprint if they are alike. -/
def Recorded (env env' : Surroundings M) (x y : CrashInput) : Prop :=
  ∀ sha256 : List UInt8 → List UInt8, ∃ e e' : CrashEvent M,
    crashEvent sha256 env x = some e ∧ crashEvent sha256 env' y = some e' ∧
      Keeps x e ∧ Keeps y e' ∧ (Alike x y → e.fingerprint = e'.fingerprint)

/-- The text fits the limit, or its character ends at the offset. -/
def Cuts (limit offset : ℕ) (text : List Char) : Prop :=
  byteLen text ≤ limit ∨ ∃ p, p <+: text ∧ byteLen p = offset

/-- The first bytes of a message that are stored when it does not fit, without leading white
space. -/
def kept (message : List Char) : List Char :=
  ((sliceTo message 1997).getD []).dropWhile isWhitespace

/-- What the fingerprint sees of a message. -/
def opening (message : List Char) : List Char :=
  if byteLen message ≤ 2000 then trim message else kept message ++ ellipsis

/-- No cut of the crash is inside a character. -/
structure Whole (x : CrashInput) : Prop where
  message : Cuts 2000 1997 x.message
  traceback : Cuts 64000 63997 x.traceback
  nativeBacktrace : Cuts 64000 63997 x.nativeBacktrace
  threadStacks : Cuts 64000 63997 x.threadStacks
  opening : Cuts 120 120 (opening x.message)

/-- The openings of the two messages agree on their first 120 bytes. -/
def SameOpening (x y : CrashInput) : Prop :=
  (bytes (oneLine (opening x.message))).take 120 = (bytes (oneLine (opening y.message))).take 120

/-- The message fits, or the part that is stored and the trimmed message have 120 bytes to show. -/
def Shown (message : List Char) : Prop :=
  byteLen message ≤ 2000 ∨ 120 ≤ byteLen (kept message) ∧ 120 ≤ byteLen (trim message)

section Cutting

variable {text stored message msg msg' : List Char} {limit offset : ℕ}

@[simp] theorem byteLen_ellipsis : byteLen ellipsis = 3 := by decide

/-- A text is stored, and as it should be, if and only if its cut is not inside a character. -/
theorem truncate_iff (hlimit : 3 ≤ limit) :
    (∃ stored, truncate text limit = some stored ∧ Stored limit text stored) ↔
      Cuts limit (limit - 3) text := by
  by_cases hfits : byteLen text ≤ limit
  · simp only [truncate, Stored, Cuts, hfits, true_or, iff_true]
    exact ⟨text, rfl, rfl⟩
  · simp only [truncate, Stored, Cuts, hfits, false_or]
    constructor
    · rintro ⟨stored, hstored, -⟩
      obtain ⟨p, hp, -⟩ := Option.map_eq_some_iff.mp hstored
      exact ⟨p, sliceTo_eq_some.mp hp⟩
    · rintro ⟨p, hp⟩
      refine ⟨p ++ ellipsis, ?_, p, hp.1, rfl, ?_⟩
      · rw [sliceTo_eq_some.mpr hp]
        rfl
      · rw [byteLen_append, byteLen_ellipsis]
        omega

/-- What `truncate` returns is what should be stored. -/
theorem stored_of_truncate (hlimit : 3 ≤ limit) (h : truncate text limit = some stored) :
    Stored limit text stored := by
  have hcuts : Cuts limit (limit - 3) text := by
    by_cases hfits : byteLen text ≤ limit
    · exact .inl hfits
    · rw [truncate, if_neg hfits] at h
      obtain ⟨p, hp, -⟩ := Option.map_eq_some_iff.mp h
      exact .inr ⟨p, sliceTo_eq_some.mp hp⟩
  obtain ⟨stored', hstored', hgood⟩ := (truncate_iff hlimit).mpr hcuts
  rw [h] at hstored'
  cases hstored'
  exact hgood

theorem byteLen_oneLine (msg : List Char) : byteLen (oneLine msg) = byteLen msg := by
  induction msg with
  | nil => rfl
  | cons c rest ih =>
      have hc : (if c = '\n' then ' ' else c).utf8Size = c.utf8Size := by
        split
        · rename_i hnl
          subst hnl
          decide
        · rfl
      change byteLen ((if c = '\n' then ' ' else c) :: oneLine rest) = _
      rw [byteLen_cons, byteLen_cons, hc, ih]

theorem trim_append_ellipsis (p : List Char) :
    trim (p ++ ellipsis) = p.dropWhile isWhitespace ++ ellipsis := by
  have hstart :
      (p ++ ellipsis).dropWhile isWhitespace = p.dropWhile isWhitespace ++ ellipsis := by
    rw [List.dropWhile_append]
    split
    · rename_i hempty
      rw [List.isEmpty_iff.mp hempty]
      decide
    · rfl
  rw [trim, hstart, List.reverse_append]
  have hend : (ellipsis.reverse ++ (p.dropWhile isWhitespace).reverse).dropWhile isWhitespace =
      ellipsis.reverse ++ (p.dropWhile isWhitespace).reverse :=
    List.dropWhile_cons_of_neg (by decide)
  rw [hend, List.reverse_append, List.reverse_reverse, List.reverse_reverse]

/-- The fingerprint sees the opening of the message. -/
theorem trim_of_truncate (h : truncate message 2000 = some stored) :
    trim stored = opening message := by
  rw [truncate] at h
  rw [opening]
  split at h
  · rename_i hfits
    cases h
    rw [if_pos hfits]
  · rename_i hfits
    obtain ⟨p, hp, rfl⟩ := Option.map_eq_some_iff.mp h
    rw [if_neg hfits, trim_append_ellipsis, kept, hp]
    rfl

/-- The new lines do not move the boundaries of the characters. -/
theorem headOf_oneLine : (∃ msg', headOf (oneLine msg) = some msg') ↔ Cuts 120 120 msg := by
  rw [headOf, Cuts, byteLen_oneLine]
  by_cases hfits : byteLen msg ≤ 120
  · simp [hfits]
  · simp only [hfits, if_false, false_or]
    constructor
    · rintro ⟨p, hp⟩
      obtain ⟨hprefix', hlen⟩ := sliceTo_eq_some.mp hp
      have hp : p = oneLine (msg.take p.length) := by
        rw [oneLine, List.map_take]
        exact List.prefix_iff_eq_take.mp hprefix'
      refine ⟨msg.take p.length, List.take_prefix _ msg, ?_⟩
      rw [← byteLen_oneLine, ← hp]
      exact hlen
    · rintro ⟨q, hq, hlen⟩
      refine ⟨oneLine q, sliceTo_eq_some.mpr ⟨hq.map _, ?_⟩⟩
      rw [byteLen_oneLine]
      exact hlen

theorem bytesOf_head (h : headOf msg = some msg') : bytes msg' = (bytes msg).take 120 := by
  rw [headOf] at h
  split at h
  · rename_i hfits
    cases h
    exact (List.take_of_length_le hfits).symm
  · obtain ⟨hp, hlen⟩ := sliceTo_eq_some.mp h
    exact (take_bytes hp hlen).symm

/-- What is kept of a message is the beginning of it without leading white space. -/
theorem kept_starts (hne : kept message ≠ []) :
    kept message <+: message.dropWhile isWhitespace := by
  cases hp : sliceTo message 1997 with
  | none => simp [kept, hp] at hne
  | some p =>
      have hkept : kept message = p.dropWhile isWhitespace := by rw [kept, hp, Option.getD_some]
      obtain ⟨rest, hrest⟩ := (sliceTo_eq_some.mp hp).1
      rw [hkept] at hne ⊢
      rw [← hrest, List.dropWhile_append, if_neg (by simpa using hne)]
      exact List.prefix_append _ rest

/-- The opening of a message that is shown has the first bytes of the trimmed message. -/
theorem opening_of_shown (h : Shown message) :
    (bytes (oneLine (opening message))).take 120 = (bytes (oneLine (trim message))).take 120 := by
  by_cases hfits : byteLen message ≤ 2000
  · rw [opening, if_pos hfits]
  · obtain ⟨hkept, htrim⟩ := h.resolve_left hfits
    have hne : kept message ≠ [] := by
      rintro hempty
      rw [hempty] at hkept
      exact absurd hkept (by decide)
    have hfirst {p s : List Char} (hp : p <+: s) (hlen : 120 ≤ byteLen p) :
        (bytes (oneLine p)).take 120 = (bytes (oneLine s)).take 120 :=
      take_bytesOf_prefix (hp.map _) ((byteLen_oneLine p).symm ▸ hlen)
    rw [opening, if_neg hfits]
    calc
      (bytes (oneLine (kept message ++ ellipsis))).take 120 =
          (bytes (oneLine (kept message))).take 120 := (hfirst (List.prefix_append _ _) hkept).symm
      _ = (bytes (oneLine (message.dropWhile isWhitespace))).take 120 :=
          hfirst (kept_starts hne) hkept
      _ = (bytes (oneLine (trim message))).take 120 := (hfirst (trim_starts message) htrim).symm

end Cutting

section Events

variable {sha256} {env env' : Surroundings M} {x y : CrashInput}

/-- The text that is digested for a crash with this head of its message. -/
def payload (x : CrashInput) (msg : List Char) : List Char :=
  x.exceptionType ++ '|' :: x.topFrame ++ '|' :: msg

/-- A crash is recorded if no cut is inside a character, and its fingerprint is that of the first
bytes of the opening. -/
theorem crashEvent_of_whole (hx : Whole x) (sha256 : List UInt8 → List UInt8)
    (env : Surroundings M) : ∃ e msg, crashEvent sha256 env x = some e ∧ Keeps x e ∧
      headOf (oneLine (opening x.message)) = some msg ∧
      e.fingerprint = ((sha256 (bytes (payload x msg))).take 8).flatMap hex := by
  obtain ⟨message, hmessage, hmessage'⟩ := (truncate_iff (by decide)).mpr hx.message
  obtain ⟨traceback, htraceback, htraceback'⟩ := (truncate_iff (by decide)).mpr hx.traceback
  obtain ⟨native, hnative, hnative'⟩ := (truncate_iff (by decide)).mpr hx.nativeBacktrace
  obtain ⟨stacks', hstacks, hstacks'⟩ := (truncate_iff (by decide)).mpr hx.threadStacks
  obtain ⟨msg, hmsg⟩ := headOf_oneLine.2 hx.opening
  have hfp : fingerprint sha256 x.exceptionType message x.topFrame =
      some (((sha256 (bytes (payload x msg))).take 8).flatMap hex) := by
    rw [fingerprint, trim_of_truncate hmessage, hmsg]
    rfl
  have hevent : ∃ e, crashEvent sha256 env x = some e ∧ Keeps x e ∧
      e.fingerprint = ((sha256 (bytes (payload x msg))).take 8).flatMap hex := by
    rw [crashEvent, hmessage, htraceback, hnative, hstacks]
    simp only [Option.bind_eq_bind, Option.bind_some, hfp]
    exact ⟨_, rfl, ⟨rfl, rfl, hmessage', rfl, htraceback', hnative', rfl, hstacks'⟩, rfl⟩
  obtain ⟨e, he, hkeeps, hprint⟩ := hevent
  exact ⟨e, msg, he, hkeeps, hmsg, hprint⟩

/-- A crash that is recorded has no cut inside a character. -/
theorem whole_of_crashEvent {e : CrashEvent M} (h : crashEvent sha256 env x = some e) :
    Whole x := by
  simp only [crashEvent, Option.bind_eq_bind, Option.bind_eq_some_iff] at h
  obtain ⟨message, hmessage, fp, hfp, traceback, htraceback, native, hnative, stacks', hstacks,
    -⟩ := h
  have hcuts {text stored : List Char} {limit : ℕ} (hlimit : 3 ≤ limit)
      (h : truncate text limit = some stored) : Cuts limit (limit - 3) text :=
    (truncate_iff hlimit).mp ⟨stored, h, stored_of_truncate hlimit h⟩
  refine ⟨hcuts (by decide) hmessage, hcuts (by decide) htraceback, hcuts (by decide) hnative,
    hcuts (by decide) hstacks, ?_⟩
  rw [fingerprint, trim_of_truncate hmessage] at hfp
  simp only [Option.bind_eq_bind, Option.bind_eq_some_iff] at hfp
  obtain ⟨msg, hmsg, -⟩ := hfp
  exact headOf_oneLine.1 ⟨msg, hmsg⟩

/-- Whatever the digest, equal fingerprints come from equal texts. -/
theorem eq_of_digests {s t : List Char} (h : ∀ sha256 : List UInt8 → List UInt8,
    ((sha256 (bytes s)).take 8).flatMap hex = ((sha256 (bytes t)).take 8).flatMap hex) : s = t := by
  by_contra hne
  have hbytes : bytes t ≠ bytes s := fun hb => hne (bytes_injective hb).symm
  have htell := h fun bs => if bs = bytes s then [1] else [0]
  rw [if_pos rfl, if_neg hbytes] at htell
  exact absurd htell (by decide)

/-- The openings of two alike crashes that are shown agree. -/
theorem Alike.same_opening (h : Alike x y) (hx : Shown x.message) (hy : Shown y.message) :
    SameOpening x y := by
  calc
    (bytes (oneLine (opening x.message))).take 120 =
        (bytes (oneLine (trim x.message))).take 120 := opening_of_shown hx
    _ = (bytes (oneLine (trim y.message))).take 120 := h.message
    _ = (bytes (oneLine (opening y.message))).take 120 := (opening_of_shown hy).symm

/-- Two crashes are recorded, and with one fingerprint if they are alike, if and only if no cut of
either is inside a character and the cut for storage leaves the openings of alike crashes alike. It
does if it is not made, or if 120 bytes stand before it and in the trimmed message. -/
theorem recorded_iff (env env' : Surroundings M) (x y : CrashInput) :
    (Recorded env env' x y ↔ Whole x ∧ Whole y ∧ (Alike x y → SameOpening x y)) ∧
      (Shown x.message → Shown y.message → Alike x y → SameOpening x y) := by
  refine ⟨⟨fun h => ?_, fun ⟨hx, hy, hsame⟩ sha256 => ?_⟩, fun hx hy h => h.same_opening hx hy⟩
  · obtain ⟨e, e', he, he', -⟩ := h id
    have hx := whole_of_crashEvent he
    have hy := whole_of_crashEvent he'
    refine ⟨hx, hy, fun halike => ?_⟩
    obtain ⟨-, msg, -, -, hmsg, -⟩ := crashEvent_of_whole hx id env
    obtain ⟨-, msg', -, -, hmsg', -⟩ := crashEvent_of_whole hy id env'
    have hpayload : payload x msg = payload y msg' := by
      apply eq_of_digests
      intro sha256
      obtain ⟨e, e', he, he', -, -, hsame⟩ := h sha256
      obtain ⟨d, m, hd, -, hm, hprint⟩ := crashEvent_of_whole hx sha256 env
      obtain ⟨d', m', hd', -, hm', hprint'⟩ := crashEvent_of_whole hy sha256 env'
      obtain rfl := Option.some.inj (he.symm.trans hd)
      obtain rfl := Option.some.inj (he'.symm.trans hd')
      obtain rfl := Option.some.inj (hmsg.symm.trans hm)
      obtain rfl := Option.some.inj (hmsg'.symm.trans hm')
      calc
        ((sha256 (bytes (payload x msg))).take 8).flatMap hex = e.fingerprint := hprint.symm
        _ = e'.fingerprint := hsame halike
        _ = ((sha256 (bytes (payload y msg'))).take 8).flatMap hex := hprint'
    rw [payload, payload, halike.exceptionType, halike.topFrame] at hpayload
    obtain rfl : msg = msg' := by simpa using hpayload
    rw [SameOpening, ← bytesOf_head hmsg, ← bytesOf_head hmsg']
  · obtain ⟨e, msg, he, hkeeps, hmsg, hprint⟩ := crashEvent_of_whole hx sha256 env
    obtain ⟨e', msg', he', hkeeps', hmsg', hprint'⟩ := crashEvent_of_whole hy sha256 env'
    refine ⟨e, e', he, he', hkeeps, hkeeps', fun halike => ?_⟩
    have hmsgs : msg = msg' := by
      apply bytes_injective
      rw [bytesOf_head hmsg, bytesOf_head hmsg']
      exact hsame halike
    rw [hprint, hprint', payload, payload, halike.exceptionType, halike.topFrame, hmsgs]

end Events

def firstRank : Surroundings Unit where
  eventId := []
  timestampNs := 0
  rank := 0
  localRank := 0
  worldSize := 1
  host := []
  pid := 1
  training := ⟨0, 0, 0, [], [], []⟩
  memory := ()

/-- A crash with a message of 119 letters and an accented one. -/
def accented : CrashInput where
  kind := []
  exceptionType := []
  message := List.replicate 119 'a' ++ ['é']
  topFrame := []
  traceback := []
  nativeBacktrace := []
  crashThread := []
  threadStacks := []

set_option maxRecDepth 8000 in
/-- The cut for the fingerprint falls inside the accented letter. -/
theorem accented_not_recorded : ¬ Recorded firstRank firstRank accented accented := by
  rintro h
  obtain ⟨e, -, he, -⟩ := h id
  have hpanic : crashEvent id firstRank accented = none := by decide
  rw [hpanic] at he
  cases he

end Probing.Crash
