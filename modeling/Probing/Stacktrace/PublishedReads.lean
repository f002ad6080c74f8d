import Probing.Core.Run
import Probing.Stacktrace.PublishedInvariant

/-!
# Copies of the published stack

A copy that finds the version unchanged has read what the slot held all the time, and the slot
held the tracked stack of some instant of the copy.
-/

namespace Probing.Stacktrace.Published

open Probing.Core (exec exec_invariant Meets)

/-- A stable copy is the tracked stack of one instant, cut at `MAX_PY`. -/
def Report.Truthful (report : Report) : Prop :=
  report.stable = true → ∃ stack ∈ report.during,
    report.keys = stack.take maxPy ∧ report.truncated = decide (maxPy < stack.length)

instance : DecidablePred Report.Truthful := fun report => inferInstanceAs
  (Decidable (report.stable = true → ∃ stack ∈ report.during,
    report.keys = stack.take maxPy ∧ report.truncated = decide (maxPy < stack.length)))

namespace Thread

variable {S : Type} [DecidableEq S] {t u : Thread S} {x : S}

/-- What a step of the thread leaves of the slot that is found: where the version is the same, and
even, so is all. -/
structure Keeps (t u : Thread S) (x : S) : Prop where
  found : u.found = some x
  le : (t.slots x).version ≤ (u.slots x).version
  same : (u.slots x).version = (t.slots x).version → (u.slots x).version % 2 = 0 →
    u.slots x = t.slots x

omit [DecidableEq S] in
theorem Keeps.of_slots (hfound : u.found = some x) (hslots : u.slots = t.slots) : Keeps t u x where
  found := hfound
  le := Nat.le_of_eq (by rw [hslots])
  same _ _ := by rw [hslots]

theorem Inv.keeps (h : t.Inv) {event : Event S} (hfound : t.found = some x)
    (hfork : ∀ registry, event ≠ .fork registry) (hstep : t.step event = some u) : Keeps t u x := by
  cases event with
  | call callee =>
      rw [Thread.step] at hstep
      split at hstep
      · obtain rfl := Option.some.inj hstep
        rw [Thread.call]
        split <;> exact .of_slots hfound rfl
      · cases hstep
  | ret =>
      rw [Thread.step, Thread.ret] at hstep
      split at hstep
      · split at hstep
        · cases hstep
        · obtain rfl := Option.some.inj hstep
          exact .of_slots hfound rfl
        · obtain rfl := Option.some.inj hstep
          exact .of_slots hfound rfl
      · cases hstep
  | enableTracer =>
      rw [Thread.step] at hstep
      split at hstep
      · obtain rfl := Option.some.inj hstep
        exact .of_slots hfound rfl
      · cases hstep
  | disableTracer own =>
      rw [Thread.step] at hstep
      split at hstep
      · obtain rfl := Option.some.inj hstep
        rw [Thread.disableTracer]
        split
        · exact .of_slots hfound rfl
        · split <;> exact .of_slots hfound rfl
      · cases hstep
  | fork registry => exact (hfork registry rfl).elim
  | step =>
      rw [Thread.step, Thread.advance] at hstep
      split at hstep
      · cases hstep
      next callee hpc => cases (h.register callee hpc).symm.trans hfound
      · obtain rfl := Option.some.inj hstep
        exact .of_slots hfound rfl
      next slot method store rest hpc =>
        obtain rfl := Option.some.inj hstep
        by_cases hx : x = slot
        · subst hx
          have hself : (t.store x method store rest).slots x = (t.slots x).perform store :=
            Function.update_self _ _ _
          obtain ⟨hle, hodd⟩ := (h.stage x method _ hpc).version_perform
          refine ⟨hfound, hself ▸ hle, fun hsame heven => ?_⟩
          rw [hself] at hsame heven
          have hone := hodd hsame
          omega
        · have hother : (t.store slot method store rest).slots x = t.slots x :=
            Function.update_of_ne hx _ _
          exact ⟨hfound, Nat.le_of_eq (by rw [hother]), fun _ _ => hother⟩
      · cases hstep
      · obtain rfl := Option.some.inj hstep
        exact .of_slots hfound rfl

end Thread

variable {S : Type} {t u : Thread S} {c : Copy S}

/-- What a copy knows of the slot, if the version is still the one that it loaded. -/
structure Copy.Knows (c : Copy S) (t : Thread S) : Prop where
  depth : ∀ depth, c.depth = some depth → (t.slots c.slot).depth = depth
  frames : ∀ i key, c.out[i]? = some key → (t.slots c.slot).frames i = key
  settled : c.settled = true → ∃ stack ∈ c.during, (t.slots c.slot).Mirrors stack
  unsettled : c.settled = false → t.synced = false

structure Copy.Inv (c : Copy S) (t : Thread S) : Prop where
  found : t.found = some c.slot
  version : c.version = c.start % 2 ^ 64
  even : c.start % 2 = 0
  le : c.start ≤ (t.slots c.slot).version
  now : t.stack ∈ c.during
  empty : c.depth = none → c.out = []
  length : ∀ depth, c.depth = some depth → c.out.length ≤ min depth maxPy
  knows : (t.slots c.slot).version = c.start → c.Knows t

/-- A copy sees the next instant of the thread. -/
def Copy.observe (c : Copy S) (u : Thread S) : Copy S :=
  { c with during := c.during ++ [u.stack], settled := c.settled || u.synced }

theorem Copy.Inv.observe (h : c.Inv t) (hu : u.Inv) (hkeeps : t.Keeps u c.slot) :
    (c.observe u).Inv u where
  found := hkeeps.found
  version := h.version
  even := h.even
  le := Nat.le_trans h.le hkeeps.le
  now := List.mem_append_right _ (List.mem_singleton_self _)
  empty := h.empty
  length := h.length
  knows hstart := by
    have hstart : (u.slots c.slot).version = c.start := hstart
    have hversion : (u.slots c.slot).version = (t.slots c.slot).version := by
      have hle := h.le
      have hle' := hkeeps.le
      omega
    have heven : (u.slots c.slot).version % 2 = 0 := hstart ▸ h.even
    have hsame := hkeeps.same hversion heven
    have hknows := h.knows (hversion.symm.trans hstart)
    refine ⟨fun depth hdepth => ?_, fun i key hkey => ?_, fun hsettled => ?_, fun hunsettled => ?_⟩
    · exact hsame ▸ hknows.depth depth hdepth
    · exact hsame ▸ hknows.frames i key hkey
    · obtain hsettled | hsynced := Bool.or_eq_true_iff.mp hsettled
      · obtain ⟨stack, hstack, hmirrors⟩ := hknows.settled hsettled
        exact ⟨stack, List.mem_append_left _ hstack, hsame ▸ hmirrors⟩
      · have hmirrors := (hu.publishes c.slot hkeeps.found).mirrors (hu.stage c.slot) heven hsynced
        exact ⟨u.stack, List.mem_append_right _ (List.mem_singleton_self _), hmirrors⟩
    · exact (Bool.or_eq_false_iff.mp hunsettled).2

/-- A copy starts at an even version. -/
theorem Copy.Inv.start (ht : t.Inv) {slot : S} (hfound : t.found = some slot)
    (heven : (t.slots slot).loadVersion % 2 = 0) :
    Copy.Inv ⟨slot, (t.slots slot).loadVersion, none, [], (t.slots slot).version, [t.stack],
      t.synced⟩ t where
  found := hfound
  version := rfl
  even := by
    rw [PublishedPyStack.loadVersion] at heven
    change (t.slots slot).version % 2 = 0
    omega
  le := Nat.le_refl _
  now := List.mem_singleton_self _
  empty _ := rfl
  length _ hdepth := (nomatch hdepth)
  knows _ := by
    have heven : (t.slots slot).version % 2 = 0 := by
      rw [PublishedPyStack.loadVersion] at heven
      omega
    refine ⟨fun _ hdepth => (nomatch hdepth), fun _ _ hkey => (nomatch hkey), fun hsynced => ?_,
      fun hunsynced => hunsynced⟩
    exact ⟨t.stack, List.mem_singleton_self _,
      (ht.publishes slot hfound).mirrors (ht.stage slot) heven hsynced⟩

/-- The depth is loaded. -/
theorem Copy.Inv.load_depth (h : c.Inv t) (hdepth : c.depth = none) :
    Copy.Inv { c with depth := some (t.slots c.slot).depth } t where
  found := h.found
  version := h.version
  even := h.even
  le := h.le
  now := h.now
  empty hnone := (nomatch hnone)
  length depth _ := by
    rw [h.empty hdepth]
    exact Nat.zero_le _
  knows hstart := by
    have hknows := h.knows hstart
    exact ⟨fun depth hsome => Option.some.inj hsome, hknows.frames, hknows.settled,
      hknows.unsettled⟩

/-- One more frame is loaded. -/
theorem Copy.Inv.load_frame (h : c.Inv t) {depth : ℕ} (hdepth : c.depth = some depth)
    (hlt : c.out.length < min depth maxPy) :
    Copy.Inv { c with out := c.out ++ [(t.slots c.slot).frames c.out.length] } t where
  found := h.found
  version := h.version
  even := h.even
  le := h.le
  now := h.now
  empty hnone := (nomatch hnone.symm.trans hdepth)
  length other hother := by
    obtain rfl := Option.some.inj (hdepth.symm.trans hother)
    rw [List.length_append]
    exact hlt
  knows hstart := by
    have hknows := h.knows hstart
    refine ⟨hknows.depth, fun i key hkey => ?_, hknows.settled, hknows.unsettled⟩
    rw [List.getElem?_append] at hkey
    split at hkey
    · exact hknows.frames i key hkey
    next hge =>
      rw [List.getElem?_singleton] at hkey
      split at hkey
      next hzero =>
        have hi : i = c.out.length := by omega
        subst hi
        exact Option.some.inj hkey
      · exact (nomatch hkey)

/-- What was copied of a slot that mirrors a stack is the outer part of that stack. -/
theorem Copy.Knows.out_eq (h : c.Knows t) {stack : List ℕ}
    (hmirrors : (t.slots c.slot).Mirrors stack) {depth : ℕ} (hdepth : c.depth = some depth)
    (hlength : c.out.length = min depth maxPy) : c.out = stack.take maxPy := by
  have hstack : depth = stack.length := (h.depth depth hdepth).symm.trans hmirrors.depth
  refine List.ext_getElem? fun i => ?_
  rw [List.getElem?_take]
  split
  next hi =>
    cases hkey : stack[i]? with
    | none =>
        have hge := List.getElem?_eq_none_iff.mp hkey
        exact List.getElem?_eq_none (by omega)
    | some key =>
        obtain ⟨hlt, -⟩ := List.getElem?_eq_some_iff.mp hkey
        have hout : i < c.out.length := by omega
        have hframe := h.frames i _ (List.getElem?_eq_getElem hout)
        rw [List.getElem?_eq_getElem hout, ← hframe, hmirrors.frames i hi key hkey]
  next hge => exact List.getElem?_eq_none (by omega)

/-- The last load of a copy, where the version did not come round and the copy was not made as a
whole while the tracked stack and the published one differed. -/
theorem Copy.Inv.truthful (h : c.Inv t) (ht : t.Inv) {depth : ℕ} (hdepth : c.depth = some depth)
    (hlast : ¬ c.out.length < min depth maxPy)
    (hround : (t.slots c.slot).loadVersion = c.version →
      (t.slots c.slot).version < c.start + 2 ^ 64 ∧
        (c.settled = true ∨ t.lagging = false ∧ maxPy + 1 < t.stack.length)) :
    Report.Truthful ⟨c.out, maxPy < depth, (t.slots c.slot).loadVersion = c.version,
      c.during⟩ := by
  intro hstable
  have hstable : (t.slots c.slot).loadVersion = c.version := of_decide_eq_true hstable
  obtain ⟨hlt, hsettled⟩ := hround hstable
  have hstart : (t.slots c.slot).version = c.start := by
    have hmod := hstable.trans h.version
    rw [PublishedPyStack.loadVersion] at hmod
    have hle := h.le
    omega
  have hknows := h.knows hstart
  have hlength : c.out.length = min depth maxPy :=
    Nat.le_antisymm (h.length depth hdepth) (Nat.not_lt.mp hlast)
  have hout {stack : List ℕ} (hmirrors : (t.slots c.slot).Mirrors stack) :
      c.out = stack.take maxPy ∧ depth = stack.length :=
    ⟨hknows.out_eq hmirrors hdepth hlength,
      (hknows.depth depth hdepth).symm.trans hmirrors.depth⟩
  cases hc : c.settled with
  | true =>
      obtain ⟨stack, hstack, hmirrors⟩ := hknows.settled hc
      obtain ⟨hkeys, hdeep⟩ := hout hmirrors
      exact ⟨stack, hstack, hkeys, by rw [hdeep]⟩
  | false =>
      obtain hsettled | ⟨hlagging, hdeep⟩ := hsettled
      · exact (nomatch hc.symm.trans hsettled)
      have hbetween : t.pc.between = true := by
        have hunsynced := hknows.unsettled hc
        rw [Thread.synced, hlagging] at hunsynced
        simpa using hunsynced
      obtain ⟨hkeys, hdrop⟩ :=
        hout ((ht.publishes c.slot h.found).mirrors_between hlagging hbetween)
      rw [List.length_dropLast] at hdrop
      refine ⟨t.stack, h.now, ?_, ?_⟩
      · rw [hkeys, List.dropLast_eq_take, List.take_take, Nat.min_eq_left (by omega)]
      · have hboth : maxPy < depth ∧ maxPy < t.stack.length := by omega
        simp [hboth]

namespace State

variable {S R : Type} [DecidableEq S] [DecidableEq R] {s s' : State S R}

/-- Neither does a thread register a slot over tracked frames, nor is a copy made as a whole
between a push and the entry of its frame, between the end of a frame and its pop, or between the
drop of tracked frames and the next method; and the version does not come round during a copy. -/
def Undisturbed (s : State S R) : Action S R → Prop
  | .thread event => s.thread.Undisturbed event
  | .copy _ => True
  | .read r => ∀ c ∈ s.copies r, c.isLast = true →
      (s.thread.slots c.slot).loadVersion = c.version →
        (s.thread.slots c.slot).version < c.start + 2 ^ 64 ∧
          (c.settled = true ∨ s.thread.lagging = false ∧ maxPy + 1 < s.thread.stack.length)

instance (s : State S R) : DecidablePred s.Undisturbed
  | .thread .step => (instDecidableForall : Decidable (_ → _))
  | .thread (.call _) | .thread .ret | .thread .enableTracer | .thread (.disableTracer _)
  | .thread (.fork _) | .copy _ => .isTrue trivial
  | .read r => inferInstanceAs (Decidable (∀ c ∈ s.copies r, c.isLast = true →
      (s.thread.slots c.slot).loadVersion = c.version →
        (s.thread.slots c.slot).version < c.start + 2 ^ 64 ∧
          (c.settled = true ∨ s.thread.lagging = false ∧ maxPy + 1 < s.thread.stack.length)))

structure Inv (s : State S R) : Prop where
  thread : s.thread.Inv
  copies : ∀ r c, s.copies r = some c → c.Inv s.thread
  reports : ∀ report ∈ s.reports, report.Truthful

omit [DecidableEq R] in
theorem Inv.happens (h : s.Inv) {event : Event S} {t : Thread S}
    (hok : s.thread.Undisturbed event) (hstep : s.thread.step event = some t) :
    (s.happens event t).Inv where
  thread := h.thread.step hok hstep
  copies r c hc := by
    have hkept (hfork : ∀ registry, event ≠ .fork registry)
        (hc : (s.copies r).map (·.observe t) = some c) : c.Inv t := by
      obtain ⟨old, hold, rfl⟩ := Option.map_eq_some_iff.mp hc
      have hinv := h.copies r old hold
      exact hinv.observe (h.thread.step hok hstep) (h.thread.keeps hinv.found hfork hstep)
    cases event with
    | fork registry => exact (nomatch hc)
    | call _ => exact hkept (fun _ heq => (nomatch heq)) hc
    | ret => exact hkept (fun _ heq => (nomatch heq)) hc
    | enableTracer => exact hkept (fun _ heq => (nomatch heq)) hc
    | disableTracer _ => exact hkept (fun _ heq => (nomatch heq)) hc
    | step => exact hkept (fun _ heq => (nomatch heq)) hc
  reports := h.reports

omit [DecidableEq S] in
/-- One copy changes, and the thread does not. -/
theorem Inv.of_copy (h : s.Inv) {r : R} {c : Option (Copy S)} (hthread : s'.thread = s.thread)
    (hcopies : s'.copies = Function.update s.copies r c)
    (hc : ∀ d, c = some d → d.Inv s.thread)
    (hreports : ∀ report ∈ s'.reports, report.Truthful) : s'.Inv where
  thread := hthread ▸ h.thread
  copies := by
    rw [hthread, hcopies]
    exact (Function.forall_update_iff s.copies fun _ c => ∀ d, c = some d → d.Inv s.thread).mpr
      ⟨hc, fun q _ => h.copies q⟩
  reports := hreports

omit [DecidableEq S] in
theorem Inv.copy (h : s.Inv) {r : R} {slot : S} (hfound : s.thread.found = some slot) :
    (s.copy r slot).Inv := by
  rw [State.copy]
  split
  next hodd =>
    refine ⟨h.thread, h.copies, fun report hreport => ?_⟩
    obtain hold | hnew := List.mem_append.mp hreport
    · exact h.reports report hold
    · obtain rfl := List.mem_singleton.mp hnew
      exact fun hstable => (nomatch hstable)
  next heven =>
    refine h.of_copy rfl rfl (fun d hd => ?_) h.reports
    obtain rfl := Option.some.inj hd
    exact .start h.thread hfound (Decidable.not_not.mp heven)

omit [DecidableEq S] in
theorem Inv.read (h : s.Inv) {r : R} {c : Copy S} (hc : s.copies r = some c)
    (hok : c.isLast = true → (s.thread.slots c.slot).loadVersion = c.version →
      (s.thread.slots c.slot).version < c.start + 2 ^ 64 ∧
        (c.settled = true ∨ s.thread.lagging = false ∧ maxPy + 1 < s.thread.stack.length)) :
    (s.read r c).Inv := by
  have hinv := h.copies r c hc
  rw [State.read]
  split
  next hdepth =>
    refine h.of_copy rfl rfl (fun d hd => ?_) h.reports
    obtain rfl := Option.some.inj hd
    exact hinv.load_depth hdepth
  next depth hdepth =>
    split
    next hlt =>
      refine h.of_copy rfl rfl (fun d hd => ?_) h.reports
      obtain rfl := Option.some.inj hd
      exact hinv.load_frame hdepth hlt
    next hlast =>
      refine h.of_copy rfl rfl (fun d hd => (nomatch hd)) fun report hreport => ?_
      obtain hold | hnew := List.mem_append.mp hreport
      · exact h.reports report hold
      · obtain rfl := List.mem_singleton.mp hnew
        refine hinv.truthful h.thread hdepth hlast (hok ?_)
        rw [Copy.isLast, hdepth]
        exact decide_eq_true (Nat.not_lt.mp hlast)

theorem Inv.step (h : s.Inv) {act : Action S R} (hok : s.Undisturbed act)
    (hstep : s.step act = some s') : s'.Inv := by
  cases act with
  | thread event =>
      obtain ⟨t, ht, rfl⟩ := Option.map_eq_some_iff.mp hstep
      exact h.happens hok ht
  | copy r =>
      rw [State.step] at hstep
      split at hstep
      next slot _ hfound =>
        obtain rfl := Option.some.inj hstep
        exact h.copy hfound
      · exact (nomatch hstep)
  | read r =>
      obtain ⟨c, hc, rfl⟩ := Option.map_eq_some_iff.mp hstep
      exact h.read hc (hok c hc)

omit [DecidableEq S] [DecidableEq R] in
theorem Inv.new (registry : Option S) : (new registry : State S R).Inv where
  thread :=
    { ready := fun hready => (nomatch hready)
      register := fun _ hpc => (nomatch hpc)
      found := fun _ hfound => (nomatch hfound)
      owners := fun _ hfound => (nomatch hfound)
      even := fun _ _ => rfl
      stage := fun _ _ _ hpc => (nomatch hpc)
      publishes := fun _ hfound => (nomatch hfound) }
  copies _ _ hc := (nomatch hc)
  reports _ hreport := (nomatch hreport)

/-- Every stable copy of a run is the tracked stack of one of its instants. -/
theorem publish_run (registry : Option S) (acts : List (Action S R)) (s : State S R)
    (hok : Meets State.step Undisturbed (new registry) acts)
    (hrun : exec State.step (new registry) acts = some s) :
    ∀ report ∈ s.reports, report.Truthful := by
  have hinv : s.Inv :=
    exec_invariant (fun _ _ _ hs hok hstep => hs.step hok hstep) (Inv.new registry) hok hrun
  exact hinv.reports

/-- The thread makes so many accesses. -/
def steps (n : ℕ) : List (Action Unit Unit) := List.replicate n (.thread .step)

/-- A frame is entered in a new slot: it is registered and cleared, pushed, and entered. -/
def enters (callee : ℕ) : List (Action Unit Unit) := .thread (.call callee) :: steps 137

/-- A copy of one or two frames is made as a whole. -/
def copiesOf (frames : ℕ) : List (Action Unit Unit) :=
  .copy () :: List.replicate (frames + 2) (.read ())

/-- Both frames are copied. The inner one returns during the next copy, which is not stable, and the
outer one is copied alone. -/
def nested : List (Action Unit Unit) :=
  .thread .enableTracer :: enters 7 ++ .thread (.call 9) :: steps 5 ++ copiesOf 2 ++
    [.copy (), .read ()] ++ .thread .ret :: steps 4 ++ List.replicate 3 (.read ()) ++ copiesOf 1

theorem publish_run_nested : ∃ s : State Unit Unit,
    exec State.step (new (some ())) nested = some s ∧
      s.reports.map (fun r => (r.keys, r.stable)) =
        [([7, 9], true), ([7, 9], false), ([7], true)] ∧ ∀ report ∈ s.reports, report.Truthful :=
  have hreports : ((exec State.step (new (some ())) nested).map fun s =>
      s.reports.map fun r => (r.keys, r.stable)) =
        some [([7, 9], true), ([7, 9], false), ([7], true)] := by decide +kernel
  have ⟨s, hs, hr⟩ := Option.map_eq_some_iff.mp hreports
  ⟨s, hs, hr, publish_run (some ()) nested s (by decide +kernel) hs⟩

/-- A run makes a copy that is no tracked stack of its time. -/
def Breaks (acts : List (Action Unit Unit)) (report : Report) : Prop :=
  (exec State.step (new (some ())) (Action.thread .enableTracer :: acts)).map (·.reports) =
    some [report] ∧ ¬ report.Truthful

/-- A stack that was dropped is still published; in the child of a fork the inherited frames are
published as zeros; and a frame that is pushed is not published at once. -/
theorem publish_broken :
    Breaks (enters 7 ++ [Action.thread (.disableTracer true)] ++ copiesOf 1)
      ⟨[7], false, true, [[]]⟩ ∧
    Breaks (enters 7 ++ [Action.thread (.fork (some ()))] ++ enters 9 ++ copiesOf 2)
      ⟨[0, 9], false, true, [[7, 9]]⟩ ∧
    Breaks (.thread (.call 7) :: steps 133 ++ copiesOf 0) ⟨[], false, true, [[7]]⟩ :=
  ⟨⟨by decide +kernel, by decide⟩, ⟨by decide +kernel, by decide⟩,
    ⟨by decide +kernel, by decide⟩⟩

end State

end Probing.Stacktrace.Published
