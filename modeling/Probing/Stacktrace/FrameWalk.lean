import Probing.Stacktrace.PythonFrames

/-!
# What the frame walk returns

The walk of a chain of frames ends with every frame that can be resolved, the trampoline apart, when
the records of the running Python name the callers, every frame resolves, and no frame has just one
of the two marks of the trampoline. A frame that does not resolve is never left.
-/

namespace Probing.Stacktrace

/-- The trampoline of the interpreter, as it is recognised at the innermost frame. -/
def Symbol.isTrampoline (s : Symbol) : Bool :=
  s.file = "<shim>" && s.name = "<interpreter trampoline>"

/-- The test that the frames behind have to pass. -/
def Symbol.unmarked (s : Symbol) : Bool :=
  s.file ≠ "<shim>" && s.name ≠ "<interpreter trampoline>"

/-- The file and the name of the symbols that pass a test. -/
def shown (test : Symbol → Bool) (symbols : List Symbol) : List (String × String) :=
  (symbols.filter test).map fun s => (s.file, s.name)

def CallFrame.fileFunc {Value : Type*} : CallFrame Value → String × String
  | CFrame _ file func _ _ => (file, func)
  | PyFrame file func _ _ => (file, func)

theorem Symbol.not_trampoline_of_unmarked {s : Symbol} (h : s.unmarked = true) :
    (!s.isTrampoline) = true := by
  unfold unmarked at h
  unfold isTrampoline
  simp only [ne_eq, decide_not, Bool.and_eq_true, Bool.not_eq_true', decide_eq_false_iff_not] at h
  simp [h.1]

/-- The two tests differ at the symbols with just one of the two marks. -/
theorem Symbol.unmarked_iff {s : Symbol} : ((!s.isTrampoline) = true → s.unmarked = true) ↔
    (s.file = "<shim>" ↔ s.name = "<interpreter trampoline>") := by
  unfold unmarked isTrampoline
  by_cases hfile : s.file = "<shim>" <;>
    by_cases hname : s.name = "<interpreter trampoline>" <;> simp [hfile, hname]

theorem shown_append (p : Symbol → Bool) (l m : List Symbol) :
    shown p (l ++ m) = shown p l ++ shown p m := by
  unfold shown
  rw [List.filter_append, List.map_append]

/-- A stricter test shows the same only if the symbols that pass the other one pass it. -/
theorem shown_eq_iff {p q : Symbol → Bool} (h : ∀ s, p s = true → q s = true)
    {symbols : List Symbol} :
    shown p symbols = shown q symbols ↔ ∀ s ∈ symbols, q s = true → p s = true := by
  constructor
  · intro heq s hs hq
    have hlength : (symbols.filter p).length = (symbols.filter q).length := by
      simpa only [shown, List.length_map] using congrArg List.length heq
    have hsame := (List.monotone_filter_right symbols h).eq_of_length hlength
    exact (List.mem_filter.mp (hsame.symm ▸ List.mem_filter.mpr ⟨hs, hq⟩)).2
  · intro hall
    exact congrArg (List.map _) (List.filter_congr fun s hs =>
      Bool.eq_iff_iff.mpr ⟨h s, hall s hs⟩)

namespace Interpreter

variable (I : Interpreter)

/-- The frames in memory, innermost first, up to a null pointer to the frame behind. -/
structure Chain (cursor : Option ℕ) (chain : List ℕ) : Prop where
  visits : Core.Visits (fun addr => nonNull (I.frames addr).back) cursor chain
  frames : ∀ addr ∈ chain, plausibleFrame addr = some addr

/-- The symbol of a frame that can be resolved. -/
def symbolAt (addr : ℕ) : Option Symbol :=
  (I.resolve (I.rawCallLocation addr none)).toOption.map CallLocation.callee

/-- The walk ends, and returns every frame of the chain that can be resolved and is not the
trampoline once, innermost first. -/
def Walks (Value : Type*) (currentFrame : Option ℕ) (chain : List ℕ) : Prop :=
  ∃ fuel, ∃ frames : List (CallFrame Value),
    I.getPythonFramesRaw fuel currentFrame = some frames ∧
      frames.map CallFrame.fileFunc =
        shown (fun s => !s.isTrampoline) (chain.filterMap I.symbolAt)

/-- The innermost frame resolves. Behind it, the frames are read as the version of Python allows:
every frame of Python 3.10 resolves and has both marks of the trampoline or none, every frame of
Python 3.11 and 3.12 is the trampoline, and from 3.13 on every frame that resolves is. -/
def Walkable : List ℕ → Prop
  | [] => True
  | addr :: outer => (I.symbolAt addr).isSome ∧
      match I.bindings with
      | some .v3100 => ∀ a ∈ outer, ∃ s, I.symbolAt a = some s ∧
          (s.file = "<shim>" ↔ s.name = "<interpreter trampoline>")
      | some .v3110 | some .v3120 => ∀ a ∈ outer, ∃ s, I.symbolAt a = some s ∧
          s.isTrampoline = true
      | _ => ∀ a ∈ outer, ∀ s, I.symbolAt a = some s → s.isTrampoline = true

variable {I} {Value : Type*} {addr : ℕ} {s : Symbol} {currentFrame cursor : Option ℕ}
variable {chain as : List ℕ}

theorem nextFrame_of_symbol (h : (I.symbolAt addr).isSome) :
    I.nextFrame addr = I.getPrevFrame addr := by
  unfold symbolAt at h
  unfold nextFrame
  cases hr : I.resolve (I.rawCallLocation addr none) with
  | ok _ => rfl
  | error _ => rw [hr] at h; exact (nomatch h)

theorem symbol_of_nextFrame (h : I.nextFrame addr ≠ some addr) : (I.symbolAt addr).isSome := by
  unfold nextFrame at h
  unfold symbolAt
  cases hr : I.resolve (I.rawCallLocation addr none) with
  | ok _ => rfl
  | error _ => rw [hr] at h; exact absurd rfl h

/-- Every frame that a walk with an end stands on resolves. -/
theorem symbols_of_visits (h : Core.Visits I.nextFrame cursor as) :
    ∀ a ∈ as, (I.symbolAt a).isSome :=
  fun _ ha => symbol_of_nextFrame (h.next_ne ha)

theorem innermostFrame_eq : (I.innermostFrame addr : List (CallFrame Value)).map
    CallFrame.fileFunc = shown (fun s => !s.isTrampoline) (I.symbolAt addr).toList := by
  unfold innermostFrame symbolAt shown Symbol.isTrampoline
  cases I.resolve (I.rawCallLocation addr none) with
  | ok location =>
      by_cases hfile : location.callee.file = "<shim>" <;>
        by_cases hname : location.callee.name = "<interpreter trampoline>" <;>
        simp [hfile, hname, CallFrame.fileFunc, Except.toOption]
  | error _ => rfl

theorem callerFrame_eq (location : CallLocation) :
    (callerFrame location : List (CallFrame Value)).map CallFrame.fileFunc =
      shown Symbol.unmarked location.caller.toList := by
  unfold callerFrame shown Symbol.unmarked
  cases location.caller with
  | none => rfl
  | some caller =>
      by_cases hfile : caller.file = "<shim>" <;>
        by_cases hname : caller.name = "<interpreter trampoline>" <;>
        simp [hfile, hname, CallFrame.fileFunc]

/-- The walk in terms of the frames it stands on. -/
theorem walks_iff_visits : I.Walks Value currentFrame chain ↔
    ∃ as, Core.Visits I.nextFrame (I.start currentFrame) as ∧
      (((I.start currentFrame).toList.flatMap I.innermostFrame ++
        as.flatMap I.frameOutput : List (CallFrame Value))).map CallFrame.fileFunc =
          shown (fun s => !s.isTrampoline) (chain.filterMap I.symbolAt) := by
  have hruns (frames : List (CallFrame Value)) :
      (∃ fuel, I.getPythonFramesRaw fuel currentFrame = some frames) ↔
        ∃ as, Core.Visits I.nextFrame (I.start currentFrame) as ∧
          frames = (I.start currentFrame).toList.flatMap I.innermostFrame ++
            as.flatMap I.frameOutput := by
    rw [← Core.collect_eq_some_iff]
    apply exists_congr
    intro fuel
    rw [← walk_eq_collect]
    unfold getPythonFramesRaw
    cases I.start currentFrame with
    | none => rfl
    | some addr =>
        change I.walk fuel (some addr) (I.innermostFrame addr) = _ ↔
          I.walk fuel (some addr) (I.innermostFrame addr ++ []) = _
        rw [List.append_nil]
  constructor
  · rintro ⟨fuel, frames, hrun, heq⟩
    obtain ⟨as, has, rfl⟩ := (hruns frames).mp ⟨fuel, hrun⟩
    exact ⟨as, has, heq⟩
  · rintro ⟨as, has, heq⟩
    obtain ⟨fuel, hrun⟩ := (hruns _).mpr ⟨as, has, rfl⟩
    exact ⟨fuel, _, hrun, heq⟩

namespace Chain

theorem tail (h : I.Chain (some addr) (addr :: as)) :
    I.Chain (nonNull (I.frames addr).back) as := by
  obtain ⟨rest, heq, hvisits⟩ := h.visits.tail
  obtain ⟨-, rfl⟩ := List.cons.inj heq
  exact ⟨hvisits, fun a ha => h.frames a (List.mem_cons_of_mem addr ha)⟩

/-- The frame behind a frame of the chain is one. -/
theorem plausible_back (h : I.Chain (some addr) (addr :: as)) :
    plausibleFrame (I.frames addr).back = nonNull (I.frames addr).back := by
  have htail := h.tail
  by_cases hnull : (I.frames addr).back = 0
  · rw [hnull]
    rfl
  · rw [nonNull, if_neg hnull] at htail ⊢
    cases as with
    | nil => exact (nomatch htail.visits)
    | cons b rest =>
        obtain ⟨_, heq, -⟩ := htail.visits.tail
        obtain ⟨rfl, -⟩ := List.cons.inj heq
        exact htail.frames _ List.mem_cons_self

theorem eq_nil (h : I.Chain none chain) : chain = [] := by
  cases h.visits
  rfl

theorem cursor_eq (h : I.Chain cursor (addr :: as)) : cursor = some addr := by
  cases h.visits
  rfl

theorem exists_tail (h : I.Chain (some addr) chain) : ∃ outer, chain = addr :: outer := by
  obtain ⟨outer, heq, -⟩ := h.visits.tail
  exact ⟨outer, heq⟩

section Back

variable (hback : ∀ a, I.getPrevFrame a = plausibleFrame (I.frames a).back)

include hback

/-- Where the frames behind are followed, a walk with an end stands on the whole chain. -/
theorem eq_of_visits (h : I.Chain cursor chain) (has : Core.Visits I.nextFrame cursor as) :
    as = chain := by
  induction has generalizing chain with
  | done => exact h.eq_nil.symm
  | @move a rest tail ih =>
      have hsymbol := symbol_of_nextFrame ((Core.Visits.move tail).next_ne List.mem_cons_self)
      obtain ⟨outer, rfl⟩ := h.exists_tail
      apply congrArg (List.cons a) (ih _)
      rw [nextFrame_of_symbol hsymbol, hback, h.plausible_back]
      exact h.tail

theorem visits_of_symbols (h : I.Chain cursor chain) (hall : ∀ a ∈ chain, (I.symbolAt a).isSome) :
    Core.Visits I.nextFrame cursor chain := by
  induction chain generalizing cursor with
  | nil =>
      cases cursor with
      | none => exact .done
      | some addr => exact (nomatch h.visits)
  | cons a outer ih =>
      cases cursor with
      | none => exact (nomatch h.eq_nil)
      | some addr =>
          obtain ⟨_, heq⟩ := h.exists_tail
          obtain ⟨rfl, rfl⟩ := List.cons.inj heq
          apply Core.Visits.move
          rw [nextFrame_of_symbol (hall _ List.mem_cons_self), hback, h.plausible_back]
          exact ih h.tail fun b hb => hall b (List.mem_cons_of_mem _ hb)

theorem exists_visits_iff (h : I.Chain cursor chain) {p : List ℕ → Prop} :
    (∃ as, Core.Visits I.nextFrame cursor as ∧ p as) ↔
      (∀ a ∈ chain, (I.symbolAt a).isSome) ∧ p chain := by
  constructor
  · rintro ⟨as, has, hp⟩
    obtain rfl := h.eq_of_visits hback has
    exact ⟨symbols_of_visits has, hp⟩
  · exact fun ⟨hall, hp⟩ => ⟨chain, h.visits_of_symbols hback hall, hp⟩

end Back

end Chain

/-- Where no frame behind is found, a walk stands on one frame. -/
theorem exists_visits_iff_of_none (hback : ∀ a, I.getPrevFrame a = none) {p : List ℕ → Prop} :
    (∃ as, Core.Visits I.nextFrame (some addr) as ∧ p as) ↔
      (I.symbolAt addr).isSome ∧ p [addr] := by
  constructor
  · rintro ⟨as, has, hp⟩
    obtain ⟨rest, rfl, hrest⟩ := has.tail
    have hsymbol := symbols_of_visits has addr List.mem_cons_self
    rw [nextFrame_of_symbol hsymbol, hback] at hrest
    cases hrest
    exact ⟨hsymbol, hp⟩
  · rintro ⟨hsymbol, hp⟩
    refine ⟨[addr], .move ?_, hp⟩
    rw [nextFrame_of_symbol hsymbol, hback]
    exact .done

section Records

theorem bindings_eq (h : I.version = (3, 10)) : I.bindings = some .v3100 := by
  unfold bindings
  rw [h]
  rfl

theorem resolve_eq (h : I.bindings ≠ none) (value : RawCallLocation) :
    I.resolve value = (I.codeSymbol value.callee).map fun callee =>
      ⟨callee, value.caller.bind fun c => (I.codeSymbol c).toOption,
        (value.caller.map fun c => I.parseLineno c value.offset).getD 0⟩ := by
  unfold resolve
  cases hb : I.bindings with
  | none => exact absurd hb h
  | some _ => cases I.codeSymbol value.callee <;> rfl

theorem callee_of_version (h : I.version = (3, 10)) :
    (I.rawCallLocation addr none).callee = (I.frames addr).fCode := by
  unfold rawCallLocation
  rw [bindings_eq h, h]
  by_cases hnull : (I.frames addr).back = 0 <;> simp [hnull]

theorem caller_of_version (h : I.version = (3, 10)) : (I.rawCallLocation addr none).caller =
    (nonNull (I.frames addr).back).map fun prev => (I.frames prev).fCode := by
  unfold rawCallLocation nonNull
  rw [bindings_eq h, h]
  by_cases hnull : (I.frames addr).back = 0 <;> simp [hnull]

theorem symbolAt_eq (h : I.version = (3, 10)) :
    I.symbolAt addr = (I.codeSymbol (I.frames addr).fCode).toOption := by
  unfold symbolAt
  rw [resolve_eq (by rw [bindings_eq h]; exact Option.some_ne_none _), callee_of_version h]
  cases I.codeSymbol (I.frames addr).fCode <;> rfl

/-- The records of Python 3.10 name the caller, which is the frame behind. -/
theorem frameOutput_back (h : I.version = (3, 10)) (hsymbol : (I.symbolAt addr).isSome) :
    (I.frameOutput addr : List (CallFrame Value)).map CallFrame.fileFunc =
      shown Symbol.unmarked ((nonNull (I.frames addr).back).bind I.symbolAt).toList := by
  unfold frameOutput
  rw [resolve_eq (by rw [bindings_eq h]; exact Option.some_ne_none _), callee_of_version h,
    caller_of_version h]
  rw [symbolAt_eq h] at hsymbol
  cases hcode : I.codeSymbol (I.frames addr).fCode with
  | error _ =>
      rw [hcode] at hsymbol
      exact (nomatch hsymbol)
  | ok callee =>
      apply (callerFrame_eq _).trans
      cases nonNull (I.frames addr).back with
      | none => rfl
      | some prev => exact congrArg (fun o => shown _ (Option.toList o)) (symbolAt_eq h).symm

/-- The records of the later versions name no caller. -/
theorem frameOutput_nil (h : I.bindings ≠ some .v3100) :
    (I.frameOutput addr : List (CallFrame Value)) = [] := by
  have hcaller : (I.rawCallLocation addr none).caller = none := by
    unfold rawCallLocation
    cases hb : I.bindings with
    | none => rfl
    | some b =>
        cases b with
        | v3100 => exact absurd hb h
        | _ => rfl
  unfold frameOutput
  cases hb : I.bindings with
  | none =>
      unfold resolve
      rw [hb]
  | some _ =>
      rw [resolve_eq (by rw [hb]; exact Option.some_ne_none _), hcaller]
      cases I.codeSymbol (I.rawCallLocation addr none).callee <;> rfl

/-- Before Python 3.10 no frame resolves. -/
theorem symbolAt_of_old (h : I.bindings = some .v3100) (hversion : I.version ≠ (3, 10)) :
    I.symbolAt addr = none := by
  have hminor : I.version.2 ≠ 10 := by
    intro hminor
    apply hversion
    unfold bindings at h
    by_cases hmajor : I.version.1 ≠ 3
    · rw [if_pos hmajor] at h
      exact (nomatch h)
    · exact Prod.ext (not_not.mp hmajor) hminor
  unfold symbolAt rawCallLocation
  rw [h]
  simp only [if_neg hminor]
  rw [resolve_eq (by rw [h]; exact Option.some_ne_none _)]
  rfl

theorem filterMap_symbols (as : List ℕ) : (addr :: as).filterMap I.symbolAt =
    (I.symbolAt addr).toList ++ as.filterMap I.symbolAt := by
  rw [List.filterMap_cons]
  cases I.symbolAt addr <;> rfl

/-- Together the frames of a chain behind the first one. -/
theorem flatMap_frameOutput (hversion : I.version = (3, 10)) (h : I.Chain (some addr) (addr :: as))
    (hall : ∀ a ∈ addr :: as, (I.symbolAt a).isSome) :
    ((addr :: as).flatMap I.frameOutput : List (CallFrame Value)).map CallFrame.fileFunc =
      shown Symbol.unmarked (as.filterMap I.symbolAt) := by
  induction as generalizing addr with
  | nil =>
      have hnone : nonNull (I.frames addr).back = none := by
        cases hback : nonNull (I.frames addr).back with
        | none => rfl
        | some b => exact (nomatch hback ▸ h.tail.visits)
      rw [List.flatMap_cons, List.flatMap_nil, List.append_nil,
        frameOutput_back hversion (hall _ List.mem_cons_self), hnone]
      rfl
  | cons b rest ih =>
      have hcursor : nonNull (I.frames addr).back = some b := h.tail.cursor_eq
      have hrest := ih (hcursor ▸ h.tail) fun a ha => hall a (List.mem_cons_of_mem addr ha)
      rw [List.flatMap_cons, List.map_append, hrest, filterMap_symbols, shown_append,
        frameOutput_back hversion (hall _ List.mem_cons_self), hcursor]
      rfl

end Records

section Shown

/-- What a walk shows beyond the innermost frame is what is expected of the frames behind. -/
theorem map_walk_eq {frames : List (CallFrame Value)} :
    ([addr].flatMap I.innermostFrame ++ frames).map CallFrame.fileFunc =
        shown (fun s => !s.isTrampoline) ((addr :: as).filterMap I.symbolAt) ↔
      frames.map CallFrame.fileFunc =
        shown (fun s => !s.isTrampoline) (as.filterMap I.symbolAt) := by
  rw [List.map_append, List.flatMap_cons, List.flatMap_nil, List.append_nil, innermostFrame_eq,
    filterMap_symbols, shown_append]
  exact List.append_right_inj _

theorem shown_nil_iff : [] = shown (fun s => !s.isTrampoline) (as.filterMap I.symbolAt) ↔
    ∀ a ∈ as, ∀ s, I.symbolAt a = some s → s.isTrampoline = true := by
  unfold shown
  rw [eq_comm, List.map_eq_nil_iff, List.filter_eq_nil_iff]
  constructor
  · intro h a ha s hs
    simpa using h s (List.mem_filterMap.mpr ⟨a, ha, hs⟩)
  · intro h s hmem
    obtain ⟨a, ha, hs⟩ := List.mem_filterMap.mp hmem
    simpa using h a ha s hs

theorem shown_unmarked_iff : shown Symbol.unmarked (as.filterMap I.symbolAt) =
      shown (fun s => !s.isTrampoline) (as.filterMap I.symbolAt) ↔
    ∀ a ∈ as, ∀ s, I.symbolAt a = some s →
      (s.file = "<shim>" ↔ s.name = "<interpreter trampoline>") := by
  rw [shown_eq_iff fun s => Symbol.not_trampoline_of_unmarked]
  constructor
  · intro h a ha s hs
    exact Symbol.unmarked_iff.1 (h s (List.mem_filterMap.mpr ⟨a, ha, hs⟩))
  · intro h s hmem
    obtain ⟨a, ha, hs⟩ := List.mem_filterMap.mp hmem
    exact Symbol.unmarked_iff.2 (h a ha s hs)

/-- A frame that resolves, with a fact about its symbol. -/
theorem forall_symbol_iff {p : Symbol → Prop} :
    ((∀ a ∈ addr :: as, (I.symbolAt a).isSome) ∧ ∀ a ∈ as, ∀ s, I.symbolAt a = some s → p s) ↔
      (I.symbolAt addr).isSome ∧ ∀ a ∈ as, ∃ s, I.symbolAt a = some s ∧ p s := by
  rw [List.forall_mem_cons, and_assoc]
  apply and_congr_right'
  constructor
  · rintro ⟨hsome, hp⟩ a ha
    obtain ⟨s, hs⟩ := Option.isSome_iff_exists.mp (hsome a ha)
    exact ⟨s, hs, hp a ha s hs⟩
  · intro h
    refine ⟨fun a ha => ?_, fun a ha s hs => ?_⟩
    · obtain ⟨s, hs, -⟩ := h a ha
      exact Option.isSome_iff_exists.mpr ⟨s, hs⟩
    · obtain ⟨t, ht, hp⟩ := h a ha
      rw [ht] at hs
      exact Option.some.inj hs ▸ hp

end Shown

section Versions

variable {frames : List ℕ → List (CallFrame Value)}

/-- The walk of a whole chain, where the records name no caller. -/
theorem walks_iff_of_no_caller (h : I.Chain (some addr) (addr :: as))
    (hback : ∀ a, I.getPrevFrame a = plausibleFrame (I.frames a).back)
    (hrecords : I.bindings ≠ some .v3100) :
    (∃ visited, Core.Visits I.nextFrame (some addr) visited ∧
      (([addr].flatMap I.innermostFrame ++ visited.flatMap I.frameOutput :
        List (CallFrame Value))).map CallFrame.fileFunc =
          shown (fun s => !s.isTrampoline) ((addr :: as).filterMap I.symbolAt)) ↔
      (I.symbolAt addr).isSome ∧
        ∀ a ∈ as, ∃ s, I.symbolAt a = some s ∧ s.isTrampoline = true := by
  have hnil : ((addr :: as).flatMap I.frameOutput : List (CallFrame Value)) = [] :=
    List.flatMap_eq_nil_iff.mpr fun a _ => frameOutput_nil hrecords
  rw [h.exists_visits_iff hback, map_walk_eq, hnil, List.map_nil, shown_nil_iff, forall_symbol_iff]

/-- The walk of the innermost frame alone. -/
theorem walks_iff_of_no_back (hback : ∀ a, I.getPrevFrame a = none)
    (hrecords : I.bindings ≠ some .v3100) :
    (∃ visited, Core.Visits I.nextFrame (some addr) visited ∧
      (([addr].flatMap I.innermostFrame ++ visited.flatMap I.frameOutput :
        List (CallFrame Value))).map CallFrame.fileFunc =
          shown (fun s => !s.isTrampoline) ((addr :: as).filterMap I.symbolAt)) ↔
      (I.symbolAt addr).isSome ∧
        ∀ a ∈ as, ∀ s, I.symbolAt a = some s → s.isTrampoline = true := by
  have hnil : ([addr].flatMap I.frameOutput : List (CallFrame Value)) = [] :=
    List.flatMap_eq_nil_iff.mpr fun a _ => frameOutput_nil hrecords
  rw [exists_visits_iff_of_none hback, map_walk_eq, hnil, List.map_nil, shown_nil_iff]

/-- The walk of a whole chain, where the records name the callers. -/
theorem walks_iff_of_caller (h : I.Chain (some addr) (addr :: as))
    (hversion : I.version = (3, 10)) :
    (∃ visited, Core.Visits I.nextFrame (some addr) visited ∧
      (([addr].flatMap I.innermostFrame ++ visited.flatMap I.frameOutput :
        List (CallFrame Value))).map CallFrame.fileFunc =
          shown (fun s => !s.isTrampoline) ((addr :: as).filterMap I.symbolAt)) ↔
      (I.symbolAt addr).isSome ∧ ∀ a ∈ as, ∃ s, I.symbolAt a = some s ∧
        (s.file = "<shim>" ↔ s.name = "<interpreter trampoline>") := by
  have hback (a : ℕ) : I.getPrevFrame a = plausibleFrame (I.frames a).back := by
    unfold getPrevFrame
    rw [bindings_eq hversion]
  rw [h.exists_visits_iff hback, ← forall_symbol_iff]
  apply and_congr_right
  intro hall
  rw [map_walk_eq, flatMap_frameOutput hversion h hall, shown_unmarked_iff]

end Versions

/-- The walk returns the frames of the chain exactly on the chains it can walk. -/
theorem walks_iff (h : I.Chain (I.start currentFrame) chain) :
    I.Walks Value currentFrame chain ↔ I.Walkable chain := by
  rw [walks_iff_visits]
  cases hstart : I.start currentFrame with
  | none =>
      rw [hstart] at h
      obtain rfl := h.eq_nil
      exact iff_of_true ⟨[], .done, rfl⟩ trivial
  | some addr =>
      rw [hstart] at h
      obtain ⟨outer, rfl⟩ := h.exists_tail
      unfold Walkable
      cases hb : I.bindings with
      | none =>
          apply walks_iff_of_no_back
          · intro a
            rw [getPrevFrame, hb]
          · rw [hb]
            exact fun heq => nomatch heq
      | some b =>
          cases b with
          | v3100 =>
              by_cases hversion : I.version = (3, 10)
              case pos => exact walks_iff_of_caller h hversion
              case neg =>
                have hnone (a : ℕ) : I.symbolAt a = none := symbolAt_of_old hb hversion
                apply iff_of_false
                · rintro ⟨as, has, -⟩
                  obtain ⟨rest, rfl, -⟩ := has.tail
                  have hsome := symbols_of_visits has addr List.mem_cons_self
                  rw [hnone] at hsome
                  exact (nomatch hsome)
                · rintro ⟨hsome, -⟩
                  rw [hnone] at hsome
                  exact (nomatch hsome)
          | v3130 =>
              apply walks_iff_of_no_back
              · intro a
                rw [getPrevFrame, hb]
              · rw [hb]
                exact fun heq => nomatch heq
          | _ =>
              apply walks_iff_of_no_caller h
              · intro a
                rw [getPrevFrame, hb]
              · rw [hb]
                exact fun heq => nomatch heq

/-- A function called from a module, in a version of Python, with the code of the module. -/
def oneCall (version : ℕ × ℕ) (module_code : ℕ) : Interpreter where
  version := version
  threadstate := some ⟨0x2000000, some 0x2000000, 0x2000000⟩
  frames addr := if addr = 0x2000000 then ⟨0x3000000, 4, 0x2000100⟩ else ⟨module_code, 8, 0⟩
  codes code :=
    if code = 0x3000000 then ⟨"train_step", "train.py", 40, 0, fun _ => 40⟩
    else ⟨"<module>", "train.py", 1, 0, fun _ => 1⟩

theorem oneCall_chain (module_code : ℕ) :
    (oneCall (3, 10) module_code).Chain ((oneCall (3, 10) module_code).start none)
      [0x2000000, 0x2000100] :=
  ⟨.move (.move .done), fun addr ha => by
    rcases List.mem_pair.mp ha with rfl | rfl <;> rfl⟩

theorem walks_one_call : (oneCall (3, 10) 0x3000100).Walks Unit none [0x2000000, 0x2000100] :=
  (walks_iff (oneCall_chain _)).mpr ⟨rfl, fun a ha => by
    obtain rfl := List.mem_singleton.mp ha
    exact ⟨⟨"<module>", "train.py", 1⟩, rfl, by decide⟩⟩

/-- A frame without code is never left, and Python 3.12 shows the innermost frame only. -/
theorem walk_stuck_or_short :
    ((oneCall (3, 10) 0).Chain ((oneCall (3, 10) 0).start none) [0x2000000, 0x2000100] ∧
      ¬ (oneCall (3, 10) 0).Walks Unit none [0x2000000, 0x2000100]) ∧
    ((oneCall (3, 12) 0x3000100).Chain ((oneCall (3, 12) 0x3000100).start none)
        [0x2000000, 0x2000100] ∧
      ¬ (oneCall (3, 12) 0x3000100).Walks Unit none [0x2000000, 0x2000100]) := by
  have hlong : (oneCall (3, 12) 0x3000100).Chain ((oneCall (3, 12) 0x3000100).start none)
      [0x2000000, 0x2000100] :=
    ⟨.move (.move .done), fun addr ha => by
      rcases List.mem_pair.mp ha with rfl | rfl <;> rfl⟩
  refine ⟨⟨oneCall_chain 0, fun h => ?_⟩, hlong, fun h => ?_⟩
  · obtain ⟨as, has, -⟩ := walks_iff_visits.1 h
    obtain rfl := (oneCall_chain 0).eq_of_visits (fun _ => rfl) has
    exact absurd (symbols_of_visits has 0x2000100 (by decide)) (by decide)
  · obtain ⟨as, has, heq⟩ := walks_iff_visits.1 h
    obtain rfl := hlong.eq_of_visits (fun _ => rfl) has
    exact absurd heq (by decide)

end Interpreter

end Probing.Stacktrace
