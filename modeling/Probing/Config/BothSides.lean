import Probing.Config.Extensions

/-!
# What the extensions and the store hold

An extension is in the state that its own `set` made of the values it was given, in the order
of the calls and under whatever spelling. The store holds under a key what was last stored under
that very key. A call that changes both sides leaves the entry, and the extension as it left itself
on accepting the value, unless another call gets at either of them meanwhile.
-/

namespace Probing.Config

open Probing.Core

variable {σ : Type*} {m : ProbeExtensionManager σ}

/-- An extension that holds what it accepts, and is left alone by what it refuses. -/
structure Extension.Plain (e : Extension σ) : Prop where
  accepted : ∀ spec ∈ e.configSpecs, ∀ d value old, (e.set d spec.key value).1 = .ok old →
    ∀ other ∈ e.configSpecs, e.get (e.set d spec.key value).2 other.key =
      if other.key = spec.key then .ok value else e.get d other.key
  refused : ∀ spec ∈ e.configSpecs, ∀ d value err, (e.set d spec.key value).1 = .error err →
    (e.set d spec.key value).2 = d

/-- What the extension of a name makes of the values that it was given. -/
def replay (m : ProbeExtensionManager σ) (name : String) (d : σ) : List Event → σ
  | [] => d
  | .reached _ key value _ :: log =>
      match m.resolve key with
      | some (e, canonical) =>
          if e.name = name then (e.set (replay m name d log) canonical value).2
          else replay m name d log
      | none => replay m name d log
  | _ :: log => replay m name d log

/-- The value that was last accepted for an option. -/
def lastAccepted (m : ProbeExtensionManager σ) (o : Opt) : List Event → Option String
  | [] => none
  | .reached _ key value (.ok ()) :: log =>
      if m.names key = some o then some value else lastAccepted m o log
  | _ :: log => lastAccepted m o log

/-- The value that was last stored under a key. -/
def lastStored (k : String) : List Event → Option String
  | [] => none
  | .stored _ key value :: log => if key = k then some value else lastStored k log
  | _ :: log => lastStored k log

/-- Every answer is that of the extension in the state it was in. -/
def Answered (m : ProbeExtensionManager σ) (held : Held σ) (log : List Event) : Prop :=
  ∀ after before id key value answer, log = after ++ .reached id key value answer :: before →
    ∃ e canonical, m.resolve key = some (e, canonical) ∧
      answer = (e.set (replay m e.name (held e.name) before) canonical value).1.map fun _ => ()

/-- The events of a call. -/
def trace (id : ℕ) (log : List Event) : List Event := log.filter fun e => e.byId = id

/-- What a call that returned `Ok` has changed, newest event first. A write is stored only if it
has no prefix or names no option, and also if its extension answers that it does not support it. -/
def Call.Changed (m : ProbeExtensionManager σ) (id : ℕ) : Call → List Event → Prop
  | .write key value, events =>
      events = [.stored id key value] ∧
        (startsWithProbing key = true → m.names (extensionKey key) = none) ∨
      startsWithProbing key = true ∧ ∃ answer,
        events = [.stored id key value, .reached id (extensionKey key) value answer] ∧
          (answer = .ok () ∨ ∃ k, answer = .error (.UnsupportedOption k))
  | .setOptionWithStoreUpdate key value, events =>
      events = [.stored id key value, .reached id key value (.ok ())]
  | .set key value, events => events = [.reached id key value (.ok ())]

/-- What a call that returned an error has done: its extension refused, or there is none. -/
def Call.Refused (m : ProbeExtensionManager σ) (id : ℕ) (err : EngineError) :
    Call → List Event → Prop
  | .write key value, events => events = [.reached id (extensionKey key) value (.error err)]
  | .setOptionWithStoreUpdate key value, events | .set key value, events =>
      events = [.reached id key value (.error err)] ∨
        events = [] ∧ m.names key = none ∧ err = .UnsupportedOption key

/-- What the events of a call say about where it is. -/
def Traced (m : ProbeExtensionManager σ) (id : ℕ) : Option Progress → List Event → Prop
  | none, events => events = []
  | some (.called c), events => events = [.began id c]
  | some (.storing key value), events => ∃ c before, events = before ++ [.began id c] ∧
      c.Changed m id (.stored id key value :: before)
  | some (.returned (.ok ())), events => ∃ c changes,
      events = .returned id (.ok ()) :: (changes ++ [.began id c]) ∧ c.Changed m id changes
  | some (.returned (.error err)), events => ∃ c reached,
      events = .returned id (.error err) :: (reached ++ [.began id c]) ∧
        c.Refused m id err reached

/-- The state of a run, from the values at its start. -/
structure Inv (m : ProbeExtensionManager σ) (held : Held σ) (store : String → Option String)
    (s : State σ) : Prop where
  answered : Answered m held s.log
  held : ∀ name, s.held name = replay m name (held name) s.log
  store : ∀ k, s.store k = (lastStored k s.log).or (store k)
  traced : ∀ id, Traced m id (s.calls id) (trace id s.log)

section Steps

variable {held : Held σ} {store : String → Option String} {s t : State σ}

/-- Events that say nothing of the extensions. -/
def Event.distant : Event → Prop
  | .reached _ _ _ _ => False
  | .began _ _ | .returned _ _ | .stored _ _ _ => True

theorem replay_distant {e : Event} (h : e.distant) (name : String) (d : σ) (log : List Event) :
    replay m name d (e :: log) = replay m name d log := by
  cases e with
  | reached id key value answer => exact h.elim
  | began id c => rfl
  | returned id r => rfl
  | stored id key value => rfl

theorem Answered.distant {e : Event} {log : List Event} (h : Answered m held log)
    (he : e.distant) : Answered m held (e :: log) := by
  intro after before id key value answer hlog
  cases after with
  | nil =>
      injection hlog with hevent _
      rw [hevent] at he
      exact he.elim
  | cons x after =>
      injection hlog with _ hrest
      exact h after before id key value answer hrest

theorem Answered.tail {e : Event} {log : List Event} (h : Answered m held (e :: log)) :
    Answered m held log := by
  intro after before id key value answer hlog
  apply h (e :: after) before id key value answer
  rw [hlog, List.cons_append]

theorem names_of_resolve {key canonical : String} {e : Extension σ}
    (h : m.resolve key = some (e, canonical)) : m.names key = some (e.name, canonical) := by
  unfold ProbeExtensionManager.names
  rw [h]
  rfl

theorem names_eq_none {key : String} : m.names key = none ↔ m.resolve key = none := by
  unfold ProbeExtensionManager.names
  exact Option.map_eq_none_iff

/-- The extensions after a call of `set_option`, and what is said of them. -/
theorem optionSet_replay (hheld : ∀ name, s.held name = replay m name (held name) s.log)
    (hanswered : Answered m held s.log) (id : ℕ) (key value : String) :
    (∀ name, (m.optionSet s.held key value).2 name =
        replay m name (held name) (s.reaching id m key value ++ s.log)) ∧
      Answered m held (s.reaching id m key value ++ s.log) := by
  unfold State.reaching ProbeExtensionManager.optionSet
  cases hresolve : m.resolve key with
  | none => exact ⟨hheld, hanswered⟩
  | some r =>
      obtain ⟨e, canonical⟩ := r
      dsimp only
      constructor
      · intro name
        rw [List.singleton_append, replay, hresolve]
        dsimp only
        by_cases hname : e.name = name
        · subst hname
          rw [Function.update_self, if_pos rfl, ← hheld]
        · rw [Function.update_of_ne (Ne.symm hname), if_neg hname, hheld]
      · intro after before i key' value' answer hlog
        cases after with
        | nil =>
            injection hlog with hevent hbefore
            injection hevent with _ hkey hvalue hanswer
            obtain rfl : s.log = before := hbefore
            subst hkey hvalue hanswer
            refine ⟨e, canonical, hresolve, ?_⟩
            rw [hheld]
        | cons x after =>
            injection hlog with _ hrest
            exact hanswered after before i key' value' answer hrest

theorem reaching_own (id : ℕ) (key value : String) :
    ∀ e ∈ s.reaching id m key value, e.byId = id := by
  intro e he
  unfold State.reaching at he
  split at he
  · cases he
  · rw [List.mem_singleton.mp he]
    rfl

theorem lastStored_reaching (id : ℕ) (key value k : String) (log : List Event) :
    lastStored k (s.reaching id m key value ++ log) = lastStored k log := by
  unfold State.reaching
  split
  · rfl
  · rfl

/-- A call of `set_option` tells nothing exactly if the spelling names no option, which is its
answer then. -/
theorem reaching_cases (id : ℕ) (key value : String) :
    s.reaching id m key value = [.reached id key value (m.optionSet s.held key value).1] ∨
      s.reaching id m key value = [] ∧ m.names key = none ∧
        (m.optionSet s.held key value).1 = .error (.UnsupportedOption key) := by
  unfold State.reaching
  cases hresolve : m.resolve key with
  | none =>
      refine .inr ⟨rfl, names_eq_none.mpr hresolve, ?_⟩
      unfold ProbeExtensionManager.optionSet
      rw [hresolve]
  | some r => exact .inl rfl

theorem reaching_ok {id : ℕ} {key value : String}
    (hset : (m.optionSet s.held key value).1 = .ok ()) :
    s.reaching id m key value = [.reached id key value (.ok ())] := by
  rcases reaching_cases (m := m) (s := s) id key value with hreach | ⟨-, -, hunsupported⟩
  · rw [hreach, hset]
  · rw [hset] at hunsupported
    cases hunsupported

theorem reaching_error (id : ℕ) {key value : String} {err : EngineError}
    (hset : (m.optionSet s.held key value).1 = .error err) :
    s.reaching id m key value = [.reached id key value (.error err)] ∨
      s.reaching id m key value = [] ∧ m.names key = none ∧ err = .UnsupportedOption key := by
  rcases reaching_cases (m := m) (s := s) id key value with
    hreach | ⟨hnothing, hnames, hunsupported⟩
  · rw [hreach, hset]
    exact .inl rfl
  · rw [hset] at hunsupported
    injection hunsupported with herr
    exact .inr ⟨hnothing, hnames, herr⟩

theorem trace_append (id : ℕ) (events log : List Event) :
    trace id (events ++ log) = trace id events ++ trace id log :=
  List.filter_append _ _

theorem trace_own {id : ℕ} {events : List Event} (h : ∀ e ∈ events, e.byId = id) :
    trace id events = events :=
  List.filter_eq_self.mpr fun e he => by simpa using h e he

theorem trace_other {id j : ℕ} {events : List Event} (h : ∀ e ∈ events, e.byId = id)
    (hne : j ≠ id) : trace j events = [] :=
  List.filter_eq_nil_iff.mpr fun e he => by
    rw [h e he]
    simpa using hne.symm

/-- A step of one call leaves the traces of the others. -/
theorem traced_step {id : ℕ} {events : List Event} {p : Progress}
    (hi : ∀ j, Traced m j (s.calls j) (trace j s.log)) (hown : ∀ e ∈ events, e.byId = id)
    (h : Traced m id (some p) (events ++ trace id s.log)) (j : ℕ) :
    Traced m j (Function.update s.calls id (some p) j) (trace j (events ++ s.log)) := by
  rw [trace_append]
  by_cases hj : j = id
  · subst hj
    rw [Function.update_self, trace_own hown]
    exact h
  · rw [Function.update_of_ne hj, trace_other hown hj]
    exact hi j

theorem store_stored (id : ℕ) {key value : String} {log : List Event}
    (hi : ∀ k, s.store k = (lastStored k log).or (store k)) (k : String) :
    Function.update s.store key (some value) k =
      (lastStored k (.stored id key value :: log)).or (store k) := by
  rw [lastStored]
  by_cases hk : key = k
  · subst hk
    rw [Function.update_self, if_pos rfl]
    rfl
  · rw [Function.update_of_ne (Ne.symm hk), if_neg hk]
    exact hi k

theorem Inv.trace_called (hi : Inv m held store s) {id : ℕ} {c : Call}
    (hcalled : s.calls id = some (.called c)) : trace id s.log = [.began id c] := by
  have h := hi.traced id
  rw [hcalled] at h
  exact h

theorem Inv.begin (hi : Inv m held store s) {id : ℕ} (hnone : s.calls id = none) (c : Call) :
    Inv m held store (s.progress id (.called c) [.began id c]) := by
  have htrace : trace id s.log = [] := by
    have h := hi.traced id
    rw [hnone] at h
    exact h
  refine ⟨hi.answered.distant (e := .began id c) trivial, hi.held, hi.store,
    traced_step hi.traced (fun e he => ?_) ?_⟩
  · rw [List.mem_singleton.mp he]
    rfl
  · rw [htrace]
    rfl

theorem Inv.configSet (hi : Inv m held store s) {id : ℕ} {key value : String} {c : Call}
    {before : List Event} (htrace : trace id s.log = before ++ [.began id c])
    (hchanged : c.Changed m id (.stored id key value :: before)) :
    Inv m held store (s.configSet id key value) := by
  have hanswered : Answered m held (.returned id (.ok ()) :: .stored id key value :: s.log) :=
    Answered.distant (Answered.distant hi.answered trivial) trivial
  refine ⟨hanswered, hi.held, store_stored id hi.store,
    traced_step hi.traced (fun e he => ?_) ?_⟩
  · rcases List.mem_pair.mp he with rfl | rfl
    · rfl
    · rfl
  · rw [htrace]
    exact ⟨c, .stored id key value :: before, rfl, hchanged⟩

/-- After `set_option` the call goes on, or returns. -/
theorem Inv.reached (hi : Inv m held store s) (id : ℕ) (key value : String) {t : State σ}
    {p : Progress} {events : List Event} (hheld : t.held = (m.optionSet s.held key value).2)
    (hstore : t.store = s.store) (hcalls : t.calls = Function.update s.calls id (some p))
    (hlog : t.log = events ++ (s.reaching id m key value ++ s.log))
    (hevents : events = [] ∨ ∃ r, events = [.returned id r])
    (htraced : Traced m id (some p) (events ++ (s.reaching id m key value ++ trace id s.log))) :
    Inv m held store t := by
  obtain ⟨hreplay, hanswered⟩ := optionSet_replay hi.held hi.answered id key value
  have hown : ∀ e ∈ events ++ s.reaching id m key value, e.byId = id := by
    intro e he
    rcases List.mem_append.mp he with hnew | hreach
    · rcases hevents with rfl | ⟨r, rfl⟩
      · cases hnew
      · rw [List.mem_singleton.mp hnew]
        rfl
    · exact reaching_own id key value e hreach
  refine ⟨?_, ?_, ?_, ?_⟩
  · rw [hlog]
    rcases hevents with rfl | ⟨r, rfl⟩
    · exact hanswered
    · exact hanswered.distant (e := .returned id r) trivial
  · intro name
    rw [hheld, hlog, hreplay]
    rcases hevents with rfl | ⟨r, rfl⟩
    · rfl
    · exact (replay_distant (e := .returned id r) trivial _ _ _).symm
  · intro k
    have hsame : lastStored k t.log = lastStored k s.log := by
      rw [hlog, ← lastStored_reaching (m := m) (s := s) id key value k s.log]
      rcases hevents with rfl | ⟨r, rfl⟩
      · rfl
      · rfl
    rw [hstore, hsame]
    exact hi.store k
  · rw [hcalls, hlog, ← List.append_assoc]
    refine traced_step hi.traced hown ?_
    rw [List.append_assoc]
    exact htraced

theorem Inv.extension (hi : Inv m held store s) {id : ℕ} {c : Call}
    (hcalled : s.calls id = some (.called c)) (hstep : s.setExtension id m c = some t) :
    Inv m held store t := by
  have htrace := hi.trace_called hcalled
  cases c with
  | write key value =>
      dsimp only [State.setExtension] at hstep
      by_cases hprobing : startsWithProbing key = true
      swap
      · rw [if_neg hprobing] at hstep
        cases hstep
      by_cases hengine : s.engine.isSome = true
      · rw [if_pos hprobing, if_pos hengine] at hstep
        cases hstep
      rw [if_pos hprobing, if_neg hengine] at hstep
      cases hset : (m.optionSet s.held (extensionKey key) value).1 with
      | ok _ =>
          rw [hset] at hstep
          obtain rfl := Option.some.inj hstep
          refine hi.reached id _ _ rfl rfl rfl rfl (.inl rfl) ?_
          rw [htrace, reaching_ok hset]
          exact ⟨.write key value, _, rfl, .inr ⟨hprobing, .ok (), rfl, .inl rfl⟩⟩
      | error err =>
          rw [hset] at hstep
          have hreach := reaching_error id hset
          cases err with
          | UnsupportedOption k =>
              obtain rfl := Option.some.inj hstep
              refine hi.reached id _ _ rfl rfl rfl rfl (.inl rfl) ?_
              rw [htrace]
              refine ⟨.write key value, s.reaching id m (extensionKey key) value, rfl, ?_⟩
              rcases hreach with hreach | ⟨hnothing, hnames, -⟩
              · rw [hreach]
                exact .inr ⟨hprobing, _, rfl, .inr ⟨k, rfl⟩⟩
              · rw [hnothing]
                exact .inl ⟨rfl, fun _ => hnames⟩
          | _ =>
              obtain rfl := Option.some.inj hstep
              refine hi.reached id _ _ rfl rfl rfl rfl (.inr ⟨_, rfl⟩) ?_
              rw [htrace]
              refine ⟨.write key value, s.reaching id m (extensionKey key) value, rfl, ?_⟩
              rcases hreach with hreach | ⟨-, -, hunsupported⟩
              · exact hreach
              · cases hunsupported
  | setOptionWithStoreUpdate key value =>
      dsimp only [State.setExtension] at hstep
      cases hset : (m.optionSet s.held key value).1 with
      | ok _ =>
          rw [hset] at hstep
          obtain rfl := Option.some.inj hstep
          refine hi.reached id _ _ rfl rfl rfl rfl (.inl rfl) ?_
          rw [htrace, reaching_ok hset]
          exact ⟨.setOptionWithStoreUpdate key value, _, rfl, rfl⟩
      | error err =>
          rw [hset] at hstep
          obtain rfl := Option.some.inj hstep
          refine hi.reached id _ _ rfl rfl rfl rfl (.inr ⟨_, rfl⟩) ?_
          rw [htrace]
          exact ⟨.setOptionWithStoreUpdate key value, _, rfl, reaching_error id hset⟩
  | set key value =>
      dsimp only [State.setExtension] at hstep
      obtain rfl := Option.some.inj hstep
      refine hi.reached id key value rfl rfl rfl rfl (.inr ⟨_, rfl⟩) ?_
      rw [htrace]
      cases hset : (m.optionSet s.held key value).1 with
      | ok _ =>
          rw [reaching_ok hset]
          exact ⟨.set key value, _, rfl, rfl⟩
      | error err => exact ⟨.set key value, _, rfl, reaching_error id hset⟩

theorem Inv.step (hi : Inv m held store s) {a : Action} (hstep : step m s a = some t) :
    Inv m held store t := by
  cases a with
  | begin id c =>
      dsimp only [Config.step] at hstep
      cases hcall : s.calls id with
      | none =>
          rw [hcall] at hstep
          obtain rfl := Option.some.inj hstep
          exact hi.begin hcall c
      | some p =>
          rw [hcall] at hstep
          cases hstep
  | extension id =>
      dsimp only [Config.step] at hstep
      split at hstep
      next c hcall => exact hi.extension hcall hstep
      next => cases hstep
  | store id =>
      have htrace := hi.traced id
      dsimp only [Config.step] at hstep
      split at hstep
      next key value hcall =>
        rw [hcall] at htrace
        split_ifs at hstep with hprobing
        obtain rfl := Option.some.inj hstep
        exact hi.configSet (htrace.trans (List.nil_append _).symm)
          (.inl ⟨rfl, fun h => absurd h hprobing⟩)
      next key value hcall =>
        rw [hcall] at htrace
        obtain ⟨c, before, hevents, hchanged⟩ := htrace
        obtain rfl := Option.some.inj hstep
        exact hi.configSet hevents hchanged
      next => cases hstep

theorem Inv.start (m : ProbeExtensionManager σ) (held : Held σ)
    (store : String → Option String) : Inv m held store (State.start held store) where
  held _ := rfl
  answered after before id key value answer hlog := by
    have hlength := congrArg List.length hlog
    simp [State.start] at hlength
  store _ := rfl
  traced _ := rfl

theorem Inv.run (hi : Inv m held store s) {acts : List Action}
    (hrun : exec (Config.step m) s acts = some t) : Inv m held store t := by
  induction acts generalizing s with
  | nil =>
      obtain rfl := Option.some.inj hrun
      exact hi
  | cons a acts ih =>
      obtain ⟨u, hu, hrest⟩ := Option.bind_eq_some_iff.mp hrun
      exact ih (hi.step hu) hrest

end Steps

section Plain

variable {held : Held σ} {e : Extension σ}

/-- A plain extension holds for each option the value that was last accepted. -/
theorem Extension.Plain.get_replay (hm : m.Registered) (he : e ∈ m.extensions) (hplain : e.Plain)
    {log : List Event} (hanswered : Answered m held log) {spec : ExtensionConfigSpec}
    (hspec : spec ∈ e.configSpecs) :
    e.get (replay m e.name (held e.name) log) spec.key =
      (lastAccepted m (e.name, spec.key) log).elim (e.get (held e.name) spec.key) .ok := by
  induction log with
  | nil => rfl
  | cons event log ih =>
      have hrest := ih hanswered.tail
      cases event with
      | began id c => exact hrest
      | returned id r => exact hrest
      | stored id key value => exact hrest
      | reached id key value answer =>
          obtain ⟨e', canonical, hresolve, hanswer⟩ := hanswered [] log id key value answer rfl
          obtain ⟨he', spec', hspec', hcanonical⟩ := resolve_spec hm hresolve
          have hnames := names_of_resolve hresolve
          rw [replay, hresolve]
          dsimp only
          by_cases hname : e'.name = e.name
          · -- the value is for this extension
            obtain rfl := (Indexed.of_registered hm).unique e' he' e he hname
            rw [if_pos rfl]
            subst hcanonical
            cases hset : (e'.set (replay m e'.name (held e'.name) log) spec'.key value).1 with
            | ok old =>
                rw [hset] at hanswer
                subst hanswer
                rw [hplain.accepted spec' hspec' _ _ _ hset spec hspec]
                change _ = (if m.names key = some (e'.name, spec.key) then some value
                  else lastAccepted m (e'.name, spec.key) log).elim _ _
                by_cases hkey : spec.key = spec'.key
                · rw [if_pos hkey, hnames, hkey, if_pos rfl, Option.elim_some]
                · rw [if_neg hkey, hnames, if_neg, hrest]
                  exact fun h => hkey (Prod.ext_iff.mp (Option.some.inj h)).2.symm
            | error err =>
                rw [hset] at hanswer
                subst hanswer
                rw [hplain.refused spec' hspec' _ _ _ hset]
                exact hrest
          · rw [if_neg hname, hrest]
            cases answer with
            | error err => rfl
            | ok _ =>
                change _ = (if m.names key = some (e.name, spec.key) then some value
                  else lastAccepted m (e.name, spec.key) log).elim _ _
                rw [hnames, if_neg]
                exact fun h => hname (Prod.ext_iff.mp (Option.some.inj h)).1

end Plain

section Agree

variable {o : Opt} {k : String} {id : ℕ} {key value : String}

/-- A change of the option by a value that is accepted, or of the entry under the key. -/
def Event.touches (m : ProbeExtensionManager σ) (o : Opt) (k : String) : Event → Prop
  | .reached _ key _ answer => m.names key = some o ∧ answer = .ok ()
  | .stored _ key _ => key = k
  | _ => False

/-- A value given to the extension, or a change of the entry under the key. -/
def Event.disturbs (m : ProbeExtensionManager σ) (name : String) (k : String) : Event → Prop
  | .reached _ key _ _ => ∃ canonical, m.names key = some (name, canonical)
  | .stored _ key _ => key = k
  | _ => False

/-- The last value that was accepted is that of the only call that changed the option since. -/
theorem lastAccepted_of_only {after log : List Event} (hnames : m.names key = some o)
    (hmem : .reached id key value (.ok ()) ∈ after)
    (honly : ∀ i key' value', .reached i key' value' (.ok ()) ∈ after → m.names key' = some o →
      value' = value) :
    lastAccepted m o (after ++ log) = some value := by
  induction after with
  | nil => exact (List.not_mem_nil hmem).elim
  | cons e after ih =>
      have hrest : .reached id key value (.ok ()) ∈ after →
          lastAccepted m o (after ++ log) = some value :=
        fun h => ih h fun i key' value' h' => honly i key' value' (List.mem_cons_of_mem _ h')
      cases e with
      | reached i key' value' answer =>
          cases answer with
          | error err =>
              exact hrest
                ((List.mem_cons.mp hmem).resolve_left fun h => by injection h; contradiction)
          | ok _ =>
              rw [List.cons_append, lastAccepted]
              by_cases hkey : m.names key' = some o
              · rw [if_pos hkey, honly i key' value' List.mem_cons_self hkey]
              · rw [if_neg hkey]
                apply hrest
                rcases List.mem_cons.mp hmem with heq | h
                · injection heq with _ hkeys _
                  exact absurd (hkeys ▸ hnames) hkey
                · exact h
      | began i c => exact hrest ((List.mem_cons.mp hmem).resolve_left fun h => nomatch h)
      | stored i key' value' =>
          exact hrest ((List.mem_cons.mp hmem).resolve_left fun h => nomatch h)
      | returned i r => exact hrest ((List.mem_cons.mp hmem).resolve_left fun h => nomatch h)

theorem lastStored_of_only {after log : List Event} (hmem : .stored id k value ∈ after)
    (honly : ∀ i value', .stored i k value' ∈ after → value' = value) :
    lastStored k (after ++ log) = some value := by
  induction after with
  | nil => exact (List.not_mem_nil hmem).elim
  | cons e after ih =>
      have hrest : .stored id k value ∈ after → lastStored k (after ++ log) = some value :=
        fun h => ih h fun i value' h' => honly i value' (List.mem_cons_of_mem _ h')
      cases e with
      | stored i key' value' =>
          rw [List.cons_append, lastStored]
          by_cases hkey : key' = k
          · subst hkey
            rw [if_pos rfl, honly i value' List.mem_cons_self]
          · rw [if_neg hkey]
            apply hrest
            rcases List.mem_cons.mp hmem with heq | h
            · injection heq with _ hkeys _
              exact absurd hkeys.symm hkey
            · exact h
      | began i c => exact hrest ((List.mem_cons.mp hmem).resolve_left fun h => nomatch h)
      | reached i key' value' answer =>
          exact hrest ((List.mem_cons.mp hmem).resolve_left fun h => nomatch h)
      | returned i r => exact hrest ((List.mem_cons.mp hmem).resolve_left fun h => nomatch h)

/-- Events that give the extension nothing leave it. -/
theorem replay_undisturbed {name : String} (d : σ) {after log : List Event}
    (h : ∀ e ∈ after, ∀ i key value answer, e = .reached i key value answer →
      ¬ ∃ canonical, m.names key = some (name, canonical)) :
    replay m name d (after ++ log) = replay m name d log := by
  induction after with
  | nil => rfl
  | cons e after ih =>
      have hrest := ih fun e' he' => h e' (List.mem_cons_of_mem e he')
      rw [List.cons_append]
      cases e with
      | began i c => exact hrest
      | stored i key value => exact hrest
      | returned i r => exact hrest
      | reached i key value answer =>
          rw [replay]
          cases hresolve : m.resolve key with
          | none => exact hrest
          | some r =>
              obtain ⟨e', canonical⟩ := r
              dsimp only
              rw [if_neg, hrest]
              rintro rfl
              exact h _ List.mem_cons_self i key value answer rfl
                ⟨canonical, names_of_resolve hresolve⟩

/-- What a call has changed since it began. -/
theorem trace_since {after before changes : List Event} {c c' : Call} {r : Except EngineError Unit}
    (h : trace id (after ++ .began id c :: before) = .returned id r :: (changes ++ [.began id c']))
    (hchanges : ∀ i x, .began i x ∉ changes) :
    trace id after = .returned id r :: changes ∧ c' = c := by
  have hcons : trace id (.began id c :: before) = .began id c :: trace id before :=
    List.filter_cons_of_pos (by simp [Event.byId])
  rw [trace_append, hcons, ← List.cons_append] at h
  rcases List.append_eq_append_iff.mp h with ⟨rest, hall, hbegan⟩ | ⟨rest, hafter, hlast⟩
  · cases rest with
    | nil =>
        rw [List.append_nil] at hall
        rw [List.nil_append] at hbegan
        injection hbegan with hevent _
        injection hevent with _ hcall
        exact ⟨hall.symm, hcall.symm⟩
    | cons x rest =>
        rw [List.cons_append] at hbegan
        injection hbegan with hevent _
        have hmem : Event.began id c ∈ Event.returned id r :: changes := by
          rw [hall, hevent]
          exact List.mem_append_right _ List.mem_cons_self
        exact absurd ((List.mem_cons.mp hmem).resolve_left fun h => nomatch h) (hchanges _ _)
  · cases rest with
    | nil =>
        rw [List.append_nil] at hafter
        rw [List.nil_append] at hlast
        injection hlast with hevent _
        injection hevent with _ hcall
        exact ⟨hafter, hcall⟩
    | cons x rest =>
        have hlen := congrArg List.length hlast
        simp at hlen

/-- A call that changes an option and the entry under a key. -/
def Call.Both (m : ProbeExtensionManager σ) (o : Opt) (k value : String) : Call → Prop
  | .write key v =>
      key = k ∧ v = value ∧ startsWithProbing key = true ∧ m.names (extensionKey key) = some o
  | .setOptionWithStoreUpdate key v => key = k ∧ v = value ∧ m.names key = some o
  | .set _ _ => False

/-- The changes of such a call, once its extension has accepted the value. -/
theorem Call.Both.changes {c : Call} {changes : List Event} (h : c.Both m o k value)
    (hchanged : c.Changed m id changes)
    (haccepted : ∃ key value, .reached id key value (.ok ()) ∈ changes) :
    ∃ key, m.names key = some o ∧
      changes = [.stored id k value, .reached id key value (.ok ())] := by
  cases c with
  | write key v =>
      obtain ⟨rfl, rfl, hprobing, hnames⟩ := h
      obtain ⟨key', value', hmem⟩ := haccepted
      rcases hchanged with ⟨rfl, -⟩ | ⟨-, answer, rfl, -⟩
      · exact absurd (List.mem_singleton.mp hmem) fun h => nomatch h
      · obtain heq | heq := List.mem_pair.mp hmem
        · cases heq
        · injection heq with _ _ _ hanswer
          subst hanswer
          exact ⟨_, hnames, rfl⟩
  | setOptionWithStoreUpdate key v =>
      obtain ⟨rfl, rfl, hnames⟩ := h
      exact ⟨key, hnames, hchanged⟩
  | set key v => exact h.elim

/-- The events since a call that changed both sides began. -/
theorem Inv.since {held : Held σ} {store : String → Option String} {s : State σ}
    (hi : Inv m held store s) {c : Call} {after before : List Event}
    (hlog : s.log = after ++ .began id c :: before)
    (hreturned : s.calls id = some (.returned (.ok ()))) (hboth : c.Both m o k value)
    (haccepted : ∃ key value, .reached id key value (.ok ()) ∈ s.log) :
    ∃ key, m.names key = some o ∧ trace id after =
      [.returned id (.ok ()), .stored id k value, .reached id key value (.ok ())] := by
  have htrace := hi.traced id
  rw [hreturned] at htrace
  obtain ⟨c', changes, hevents, hchanged⟩ := htrace
  have hbegan : ∀ i x, Event.began i x ∉ changes := by
    intro i x hmem
    cases c' with
    | write key v =>
        rcases hchanged with ⟨rfl, -⟩ | ⟨-, answer, rfl, -⟩
        · simp at hmem
        · simp at hmem
    | setOptionWithStoreUpdate key v =>
        rw [show changes = _ from hchanged] at hmem
        simp at hmem
    | set key v =>
        rw [show changes = _ from hchanged] at hmem
        simp at hmem
  have hown : ∃ key value, Event.reached id key value (.ok ()) ∈ changes := by
    obtain ⟨key, v, hmem⟩ := haccepted
    have hin : Event.reached id key v (.ok ()) ∈ trace id s.log :=
      List.mem_filter.mpr ⟨hmem, by simp [Event.byId]⟩
    rw [hevents] at hin
    exact ⟨key, v, by simpa using hin⟩
  rw [hlog] at hevents
  obtain ⟨hsince, rfl⟩ := trace_since hevents hbegan
  obtain ⟨key, hnames, rfl⟩ := hboth.changes hchanged hown
  exact ⟨key, hnames, hsince⟩

/-- The option and the entry have the value of the only call that changed them since it began. -/
theorem last_of_alone {after : List Event} (before : List Event) (hnames : m.names key = some o)
    (hsince : trace id after =
      [.returned id (.ok ()), .stored id k value, .reached id key value (.ok ())])
    (halone : ∀ e ∈ after, e.byId ≠ id → ¬ e.touches m o k) :
    lastAccepted m o (after ++ before) = some value ∧
      lastStored k (after ++ before) = some value := by
  have hmem {e : Event} (he : e ∈ trace id after) : e ∈ after := (List.mem_filter.mp he).1
  have htraced {e : Event} (he : e ∈ after) (hid : e.byId = id) : e ∈
      [Event.returned id (.ok ()), .stored id k value, .reached id key value (.ok ())] := by
    rw [← hsince]
    exact List.mem_filter.mpr ⟨he, by simpa using hid⟩
  have hset : Event.reached id key value (.ok ()) ∈ after := hmem (by rw [hsince]; simp)
  have hput : Event.stored id k value ∈ after := hmem (by rw [hsince]; simp)
  constructor
  · apply lastAccepted_of_only hnames hset
    intro i key' value' he hkey
    by_cases hid : i = id
    · subst hid
      have hmine := htraced he rfl
      simp only [List.mem_cons, List.not_mem_nil, or_false, reduceCtorEq, false_or,
        Event.reached.injEq, true_and, and_true] at hmine
      exact hmine.2
    · exact absurd ⟨hkey, rfl⟩ (halone _ he hid)
  · apply lastStored_of_only hput
    intro i value' he
    by_cases hid : i = id
    · subst hid
      have hmine := htraced he rfl
      simpa only [List.mem_cons, List.not_mem_nil, or_false, reduceCtorEq, false_or,
        Event.stored.injEq, true_and] using hmine
    · exact absurd rfl (halone _ he hid)

/-- The extension is as it left itself on accepting the value of the only call since. -/
theorem replay_of_alone {held : Held σ} {after before : List Event}
    (hanswered : Answered m held (after ++ before)) (hnames : m.names key = some o)
    (hsince : trace id after =
      [.returned id (.ok ()), .stored id k value, .reached id key value (.ok ())])
    (halone : ∀ e ∈ after, e.byId ≠ id → ¬ e.disturbs m o.1 k) :
    ∃ e canonical, m.resolve key = some (e, canonical) ∧ ∃ d old, e.set d canonical value =
      (.ok old, replay m o.1 (held o.1) (after ++ before)) := by
  have hset : Event.reached id key value (.ok ()) ∈ after := by
    have hin : Event.reached id key value (.ok ()) ∈ trace id after := by
      rw [hsince]
      simp
    exact (List.mem_filter.mp hin).1
  obtain ⟨newer, older, rfl⟩ := List.append_of_mem hset
  -- the call itself has only stored and returned since
  have hnewer : trace id newer = [.returned id (.ok ()), .stored id k value] := by
    have hone : trace id (.reached id key value (.ok ()) :: older) =
        .reached id key value (.ok ()) :: trace id older :=
      List.filter_cons_of_pos (by simp [Event.byId])
    rw [trace_append, hone] at hsince
    match hn : trace id newer with
    | [] =>
        rw [hn] at hsince
        injection hsince with h _
        cases h
    | [x] =>
        rw [hn] at hsince
        injection hsince with _ h
        injection h with h _
        cases h
    | [x, y] =>
        rw [hn] at hsince
        injection hsince with hx h
        injection h with hy _
        rw [hx, hy]
    | x :: y :: z :: rest =>
        rw [hn] at hsince
        have hlength := congrArg List.length hsince
        simp at hlength
  have hquiet : ∀ e ∈ newer, ∀ i key' value' answer, e = .reached i key' value' answer →
      ¬ ∃ canonical, m.names key' = some (o.1, canonical) := by
    rintro e he i key' value' answer rfl ⟨canonical, hkey⟩
    by_cases hid : i = id
    · have hmine : Event.reached i key' value' answer ∈ trace id newer :=
        List.mem_filter.mpr ⟨he, decide_eq_true hid⟩
      rw [hnewer] at hmine
      simp at hmine
    · exact halone _ (List.mem_append_left _ he) hid ⟨canonical, hkey⟩
  rw [List.append_assoc] at hanswered ⊢
  obtain ⟨e, canonical, hresolve, hanswer⟩ :=
    hanswered newer (older ++ before) id key value (.ok ()) rfl
  have hown := names_of_resolve hresolve
  rw [hnames] at hown
  obtain rfl := Option.some.inj hown
  rw [replay_undisturbed _ hquiet, List.cons_append, replay, hresolve]
  dsimp only
  rw [if_pos rfl]
  refine ⟨e, canonical, rfl, replay m e.name (held e.name) (older ++ before), ?_⟩
  cases hold : (e.set (replay m e.name (held e.name) (older ++ before)) canonical value).1 with
  | error err =>
      rw [hold] at hanswer
      cases hanswer
  | ok old => exact ⟨old, Prod.ext hold rfl⟩

end Agree

/-- The value of an option under any of its spellings is that of the extension. -/
theorem getOption_eq (hm : m.Registered) {e : Extension σ} (he : e ∈ m.extensions)
    {key canonical : String} (hnames : m.names key = some (e.name, canonical)) (held : Held σ) :
    m.getOption held key = e.get (held e.name) canonical := by
  obtain ⟨⟨e', canonical'⟩, hresolve, heq⟩ := Option.map_eq_some_iff.mp hnames
  injection heq with hname hcanonical
  obtain ⟨he', -⟩ := resolve_spec hm hresolve
  obtain rfl := (Indexed.of_registered hm).unique e' he' e he hname
  unfold ProbeExtensionManager.getOption
  rw [hresolve, ← hcanonical]

/-- The extensions and the store after the steps of calls in any order. -/
theorem sides_follow_calls (hm : m.Registered) {held : Held σ} {store : String → Option String}
    {acts : List Action} {s : State σ}
    (hrun : exec (step m) (State.start held store) acts = some s) :
    (∀ e ∈ m.extensions, ∀ spec ∈ e.configSpecs, ∀ key ∈ spec.spellings,
      m.names (extractNamespace e.name ++ key) = some (e.name, spec.key)) ∧
    (∀ name, s.held name = replay m name (held name) s.log) ∧ Answered m held s.log ∧
    (∀ e ∈ m.extensions, e.Plain → ∀ spec ∈ e.configSpecs, ∀ key,
      m.names key = some (e.name, spec.key) → m.getOption s.held key =
        (lastAccepted m (e.name, spec.key) s.log).elim (m.getOption held key) .ok) ∧
    (∀ k, s.store k = (lastStored k s.log).or (store k)) ∧
    (∀ id, Traced m id (s.calls id) (trace id s.log)) ∧
    ∀ id c o k value after before, s.log = after ++ .began id c :: before →
      s.calls id = some (.returned (.ok ())) → c.Both m o k value →
      (∃ key v, .reached id key v (.ok ()) ∈ s.log) →
      ((∀ e ∈ after, e.byId ≠ id → ¬ e.touches m o k) → s.store k = some value ∧
        ∀ e ∈ m.extensions, e.Plain → e.name = o.1 → ∀ key, m.names key = some o →
          m.getOption s.held key = .ok value) ∧
      ((∀ e ∈ after, e.byId ≠ id → ¬ e.disturbs m o.1 k) → ∃ e ∈ m.extensions, e.name = o.1 ∧
        ∃ d old, e.set d o.2 value = (.ok old, s.held o.1)) := by
  have hi := (Inv.start m held store).run hrun
  have hplain : ∀ e ∈ m.extensions, e.Plain → ∀ spec ∈ e.configSpecs, ∀ key,
      m.names key = some (e.name, spec.key) → m.getOption s.held key =
        (lastAccepted m (e.name, spec.key) s.log).elim (m.getOption held key) .ok := by
    intro e he hplain spec hspec key hnames
    rw [getOption_eq hm he hnames, getOption_eq hm he hnames, hi.held,
      hplain.get_replay hm he hi.answered hspec]
  refine ⟨fun e he spec hspec key hkey => names_spelling hm he hspec hkey, hi.held, hi.answered,
    hplain, hi.store, hi.traced, ?_⟩
  intro id c o k value after before hlog hreturned hboth haccepted
  obtain ⟨key, hnames, hsince⟩ := hi.since hlog hreturned hboth haccepted
  constructor
  · intro halone
    obtain ⟨haccept, hstored⟩ :=
      last_of_alone (.began id c :: before) hnames hsince halone
    rw [← hlog] at haccept hstored
    constructor
    · rw [hi.store, hstored]
      rfl
    · intro e he hown hname key' hnames'
      -- the option is one of the extension
      obtain ⟨⟨e', canonical⟩, hresolve, heq⟩ := Option.map_eq_some_iff.mp hnames
      obtain ⟨he', spec, hspec, rfl⟩ := resolve_spec hm hresolve
      have hsame : e'.name = e.name := (congrArg Prod.fst heq).trans hname.symm
      obtain rfl := (Indexed.of_registered hm).unique e' he' e he hsame
      subst heq
      rw [hplain e' he hown spec hspec key' hnames', haccept]
      rfl
  · intro halone
    have hanswered := hi.answered
    rw [hlog] at hanswered
    obtain ⟨e, canonical, hresolve, d, old, hset⟩ :=
      replay_of_alone hanswered hnames hsince halone
    obtain ⟨he, -⟩ := resolve_spec hm hresolve
    have hown := names_of_resolve hresolve
    rw [hnames] at hown
    obtain rfl := Option.some.inj hown
    refine ⟨e, he, rfl, d, old, ?_⟩
    rw [hset, hi.held, hlog]

section Sampler

/-- An extension with one option and an alias of it. -/
def sampler : Extension (String → String) where
  name := "cpu"
  configSpecs := [⟨"interval", ["rate"]⟩]
  get d key := .ok (d key)
  set d key value := (.ok (d key), Function.update d key value)

def samplerManager : ProbeExtensionManager (String → String) :=
  ⟨[sampler], indexedConfigs sampler⟩

theorem sampler_registered : samplerManager.Registered := by
  refine @ProbeExtensionManager.Registered.next _ _ _ "cpu" sampler .none ?_
  have hname : validateExtensionName sampler.name = .ok () := by decide +kernel
  have hspecs : validateConfigSpecs sampler.name sampler.configSpecs = .ok () := by decide
  have hfresh : ((indexedConfigs sampler).find? fun c =>
      (Keyed.find Prod.fst
        (ProbeExtensionManager.default : ProbeExtensionManager (String → String)).configs
          c.1).isSome) = none := by
    apply List.find?_eq_none.mpr
    intro c _
    simp [ProbeExtensionManager.default]
  rw [ProbeExtensionManager.register, hname, hspecs, hfresh]
  rfl

theorem sampler_plain : sampler.Plain where
  accepted spec hspec d value old _ other hother := by
    rw [List.mem_singleton.mp hspec, List.mem_singleton.mp hother, if_pos rfl]
    have hupdate : Function.update d "interval" value "interval" = value :=
      Function.update_self _ _ _
    exact congrArg Except.ok hupdate
  refused spec hspec d value err herr := by cases herr

/-- A write of the option, then a `SET` of it by its alias. -/
def writeThenSet : List Action :=
  [.begin 0 (.write "probing.cpu.interval" "100"), .extension 0, .store 0,
    .begin 1 (.set "cpu.rate" "200"), .extension 1]

end Sampler

theorem sides_follow_write_then_set : ∃ s,
    exec (step samplerManager) (State.start (fun _ _ => "0") fun _ => none) writeThenSet =
        some s ∧
      samplerManager.getOption s.held "cpu.rate" =
        (lastAccepted samplerManager ("cpu", "interval") s.log).elim (.ok "0") .ok ∧
      ∀ k, s.store k = lastStored k s.log := by
  have hsome : (exec (step samplerManager) (State.start (fun _ _ => "0") fun _ => none)
      writeThenSet).isSome = true := by
    decide +kernel
  obtain ⟨s, hs⟩ := Option.isSome_iff_exists.mp hsome
  obtain ⟨-, -, -, hplain, hstore, -⟩ := sides_follow_calls sampler_registered hs
  refine ⟨s, hs, ?_, fun k => ?_⟩
  · have hstart : samplerManager.getOption (fun _ _ => "0") "cpu.rate" = .ok "0" := by
      decide +kernel
    rw [← hstart]
    exact hplain sampler (List.mem_singleton_self _) sampler_plain _ (List.mem_singleton_self _)
      "cpu.rate" (by decide +kernel)
  · rw [hstore, Option.or_none]

section Owned

/-- `Maybe::from_str` of a text. -/
def fromStr (value : String) : Option String := if value = "" then none else some value

/-- The option `monitoring` of the Python extension. -/
def setMonitoring (enable_monitoring : String → Bool) (held monitoring : Option String) :
    Except EngineError Unit × Option String :=
  match held, monitoring with
  | some _, _ => (.error (.ReadOnlyOption "pythonext.monitoring"), held)
  | none, none => (.error (.InvalidOptionValue "pythonext.monitoring" ""), held)
  | none, some handler =>
      if enable_monitoring handler then (.ok (), monitoring)
      else (.error (.InvalidOptionValue "pythonext.monitoring" handler), monitoring)

def monitored (enable_monitoring : String → Bool) : Extension (Option String) where
  name := "pythonext"
  configSpecs := [⟨"monitoring", []⟩]
  get d _ := .ok (d.getD "")
  set d _ value :=
    let answer := setMonitoring enable_monitoring d (fromStr value)
    (answer.1.map fun _ => d.getD "", answer.2)

def monitoredManager (enable_monitoring : String → Bool) :
    ProbeExtensionManager (Option String) :=
  ⟨[monitored enable_monitoring], indexedConfigs (monitored enable_monitoring)⟩

/-- The option `sample_freq` of the profiling extension. -/
def setSampleFreq (setup : Int → Except String Unit) (held sample_freq : Option Int) :
    Except EngineError Unit × Option Int :=
  match sample_freq with
  | none => (.ok (), none)
  | some freq =>
      if 1 ≤ freq then
        match setup freq with
        | .ok () => (.ok (), some freq)
        | .error e => (.error (.InvalidOptionValue "pprof.sample_freq" e), held)
      else (.ok (), none)

def profiled (parse : String → Option Int) (setup : Int → Except String Unit) :
    Extension (Option Int) where
  name := "pprofextension"
  configSpecs := [⟨"sample_freq", ["sample.freq"]⟩]
  get d _ := .ok ((d.map toString).getD "")
  set d _ value :=
    let answer := setSampleFreq setup d (parse value)
    (answer.1.map fun _ => (d.map toString).getD "", answer.2)

def profiledManager (parse : String → Option Int) (setup : Int → Except String Unit) :
    ProbeExtensionManager (Option Int) :=
  ⟨[profiled parse setup], indexedConfigs (profiled parse setup)⟩

end Owned

/-- The entry keeps the value that was written before the `SET`; the Python extension keeps a
handler that it refused; the profiling extension keeps no frequency below 1. -/
theorem sides_disagree :
    (∃ s, exec (step samplerManager) (State.start (fun _ _ => "0") fun _ => none)
          writeThenSet = some s ∧
        s.calls 0 = some (.returned (.ok ())) ∧ s.calls 1 = some (.returned (.ok ())) ∧
        s.held "cpu" "interval" = "200" ∧ s.store "probing.cpu.interval" = some "100") ∧
    (∃ s err, exec (step (monitoredManager fun _ => false))
          (State.start (fun _ => none) fun _ => none)
          [.begin 0 (.write "probing.pythonext.monitoring" "missing.py"), .extension 0] = some s ∧
        s.calls 0 = some (.returned (.error err)) ∧ s.held "pythonext" = some "missing.py") ∧
    ∃ s, exec (step (profiledManager (fun _ => some 0) fun _ => .ok ()))
          (State.start (fun _ => some 100) fun _ => none)
          [.begin 0 (.write "probing.pprof.sample_freq" "0"), .extension 0, .store 0] = some s ∧
        s.calls 0 = some (.returned (.ok ())) ∧ s.held "pprofextension" = none ∧
        s.store "probing.pprof.sample_freq" = some "0" := by
  refine ⟨?_, ?_, ?_⟩
  · have hrun : (exec (step samplerManager) (State.start (fun _ _ => "0") fun _ => none)
        writeThenSet).map (fun s => (s.calls 0, s.calls 1, s.held "cpu" "interval",
          s.store "probing.cpu.interval")) = some (some (.returned (.ok ())),
            some (.returned (.ok ())), "200", some "100") := by
      decide +kernel
    obtain ⟨s, hs, hseen⟩ := Option.map_eq_some_iff.mp hrun
    simp only [Prod.mk.injEq] at hseen
    exact ⟨s, hs, hseen⟩
  · have hrun : (exec (step (monitoredManager fun _ => false))
        (State.start (fun _ => none) fun _ => none)
        [.begin 0 (.write "probing.pythonext.monitoring" "missing.py"), .extension 0]).map
          (fun s => (s.calls 0, s.held "pythonext")) = some (some (.returned (.error
            (.InvalidOptionValue "pythonext.monitoring" "missing.py"))), some "missing.py") := by
      decide +kernel
    obtain ⟨s, hs, hseen⟩ := Option.map_eq_some_iff.mp hrun
    simp only [Prod.mk.injEq] at hseen
    exact ⟨s, _, hs, hseen⟩
  · have hrun : (exec (step (profiledManager (fun _ => some 0) fun _ => .ok ()))
        (State.start (fun _ => some 100) fun _ => none)
        [.begin 0 (.write "probing.pprof.sample_freq" "0"), .extension 0, .store 0]).map
          (fun s => (s.calls 0, s.held "pprofextension", s.store "probing.pprof.sample_freq")) =
            some (some (.returned (.ok ())), none, some "0") := by
      decide +kernel
    obtain ⟨s, hs, hseen⟩ := Option.map_eq_some_iff.mp hrun
    simp only [Prod.mk.injEq] at hseen
    exact ⟨s, hs, hseen⟩

end Probing.Config
