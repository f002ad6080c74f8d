import Probing.Core.Keyed
import Probing.Core.Run

/-!
# Registered extensions and their options

An extension declares its options with their aliases. A manager indexes every spelling of
an option under the namespace of its extension. Routes and help texts are left out.

A call that sets an option changes an extension in one step and the store in a later one. The
engine is initialised with the manager. An extension whose own `set` writes a key writes in a call
of its own. A history, newest event first, keeps what every call has done.
-/

namespace Probing.Config

open Probing.Core

variable {σ : Type*}

inductive EngineError where
  | ConfigError (message : String)
  | UnsupportedOption (key : String)
  | InvalidOptionValue (key value : String)
  | ReadOnlyOption (key : String)
  | Other (message : String)
  deriving DecidableEq

structure ExtensionConfigSpec where
  key : String
  aliases : List String

/-- The canonical key of a spec, then its aliases. -/
def ExtensionConfigSpec.spellings (spec : ExtensionConfigSpec) : List String :=
  spec.key :: spec.aliases

/-- An extension as the manager sees it, with data `σ` of its own. Its `get` and `set` take an
alias for the canonical key. A `set` answers with the old value or an error, and may change the
data in either case. -/
structure Extension (σ : Type*) where
  name : String
  configSpecs : List ExtensionConfigSpec
  get : σ → String → Except EngineError String
  set : σ → String → String → Except EngineError String × σ

/-- The canonical key of a spelling. -/
def Extension.canonical (e : Extension σ) (localKey : String) : Option String :=
  (e.configSpecs.find? fun spec => localKey ∈ spec.spellings).map (·.key)

structure RegisteredExtensionConfig (σ : Type*) where
  extension : Extension σ
  localKey : String

/-- The extensions by name, and the spellings with their namespace. -/
structure ProbeExtensionManager (σ : Type*) where
  extensions : List (Extension σ)
  configs : List (String × RegisteredExtensionConfig σ)

def ProbeExtensionManager.default : ProbeExtensionManager σ := ⟨[], []⟩

def validateExtensionName (name : String) : Except EngineError Unit :=
  if name = "" ∨ name ≠ name.toLower ∨
      ¬ name.toList.all fun c => c.isLower || c.isDigit || c == '_' then
    .error (.ConfigError ("invalid extension name '" ++ name ++
      "': use lowercase ASCII letters, digits, or '_'"))
  else .ok ()

/-- `key.contains("..")`. -/
def hasDots : List Char → Bool
  | [] => false
  | c :: rest => ['.', '.'].isPrefixOf (c :: rest) || hasDots rest

/-- The spellings of an extension, checked one after the other. -/
def validateConfigKeys (extension_name : String) : List String → List String →
    Except EngineError Unit
  | _, [] => .ok ()
  | keys, key :: rest =>
      if key = "" ∨ key.toList.head? = some '.' ∨ key.toList.getLast? = some '.' ∨
        hasDots key.toList then
        .error (.ConfigError
          ("invalid config key '" ++ key ++ "' declared by extension '" ++ extension_name ++ "'"))
      else if key ∈ keys then
        .error (.ConfigError
          ("duplicate config key or alias '" ++ key ++ "' in extension '" ++ extension_name ++ "'"))
      else validateConfigKeys extension_name (key :: keys) rest

def validateConfigSpecs (extension_name : String) (specs : List ExtensionConfigSpec) :
    Except EngineError Unit :=
  validateConfigKeys extension_name [] (specs.flatMap (·.spellings))

/-- Without an "extension" at the end, and with a dot. -/
def extractNamespace (extension_name : String) : String :=
  let space := extension_name.toLower.toList
  let suffix := "extension".toList
  String.ofList
    (if suffix.isSuffixOf space then space.take (space.length - suffix.length) else space) ++ "."

/-- The spellings of an extension with its namespace. -/
def indexedConfigs (e : Extension σ) : List (String × RegisteredExtensionConfig σ) :=
  (e.configSpecs.flatMap (·.spellings)).map fun key => (extractNamespace e.name ++ key, ⟨e, key⟩)

namespace ProbeExtensionManager

def register (m : ProbeExtensionManager σ) (name : String) (e : Extension σ) :
    Except EngineError (ProbeExtensionManager σ) :=
  (validateExtensionName e.name).bind fun _ =>
    if name ≠ e.name then
      .error (.ConfigError
        ("extension registration key '" ++ name ++ "' does not match declared name '" ++
        e.name ++ "'"))
    else
      (validateConfigSpecs e.name e.configSpecs).bind fun _ =>
        if (Keyed.find Extension.name m.extensions e.name).isSome then
          .error (.ConfigError ("duplicate extension name '" ++ e.name ++ "'"))
        else
          match (indexedConfigs e).find? fun c => (Keyed.find Prod.fst m.configs c.1).isSome with
          | some c =>
              .error (.ConfigError ("duplicate registered extension config key '" ++ c.1 ++ "'"))
          | none => .ok ⟨m.extensions ++ [e], m.configs ++ indexedConfigs e⟩

/-- A manager that has registered extensions, one after the other. -/
inductive Registered : ProbeExtensionManager σ → Prop where
  | none : Registered default
  | next {m m' : ProbeExtensionManager σ} {name : String} {e : Extension σ} :
      Registered m → m.register name e = .ok m' → Registered m'

end ProbeExtensionManager

/-- An option of an extension: the name of the extension and its canonical key. -/
abbrev Opt := String × String

/-- What the extensions hold, by their names. -/
abbrev Held (σ : Type*) := String → σ

namespace ProbeExtensionManager

variable (m : ProbeExtensionManager σ)

/-- The option that a spelling names. -/
def resolve (key : String) : Option (Extension σ × String) :=
  (Keyed.find Prod.fst m.configs key).bind fun c =>
    (c.2.extension.canonical c.2.localKey).map fun canonical => (c.2.extension, canonical)

def names (key : String) : Option Opt := (m.resolve key).map fun r => (r.1.name, r.2)

/-- `set_option`: its answer, and what the extensions hold then. The store is not updated. -/
def optionSet (held : Held σ) (key value : String) : Except EngineError Unit × Held σ :=
  match m.resolve key with
  | none => (.error (.UnsupportedOption key), held)
  | some (e, canonical) =>
      let answer := e.set (held e.name) canonical value
      (answer.1.map fun _ => (), Function.update held e.name answer.2)

def getOption (held : Held σ) (key : String) : Except EngineError String :=
  match m.resolve key with
  | none => .error (.UnsupportedOption key)
  | some (e, canonical) => e.get (held e.name) canonical

end ProbeExtensionManager

section Registered

variable {m m' : ProbeExtensionManager σ} {name : String} {e : Extension σ}

theorem validateConfigKeys_ok {extension_name : String} {keys rest : List String}
    (h : validateConfigKeys extension_name keys rest = .ok ()) :
    rest.Nodup ∧ ∀ key ∈ rest, key ∉ keys := by
  induction rest generalizing keys with
  | nil => exact ⟨List.nodup_nil, fun key hkey => (List.not_mem_nil hkey).elim⟩
  | cons key rest ih =>
      unfold validateConfigKeys at h
      split_ifs at h with hinvalid hdup
      obtain ⟨hnodup, hfresh⟩ := ih h
      constructor
      · refine List.nodup_cons.mpr ⟨fun hmem => ?_, hnodup⟩
        exact hfresh key hmem List.mem_cons_self
      · intro other hother
        rcases List.mem_cons.mp hother with rfl | hrest
        · exact hdup
        · exact fun hmem => hfresh other hrest (List.mem_cons_of_mem _ hmem)

/-- What a registration that succeeds has checked, and what it adds. -/
theorem register_ok (h : m.register name e = .ok m') :
    (e.configSpecs.flatMap (·.spellings)).Nodup ∧
      Keyed.find Extension.name m.extensions e.name = none ∧
      (∀ c ∈ indexedConfigs e, Keyed.find Prod.fst m.configs c.1 = none) ∧
      m' = ⟨m.extensions ++ [e], m.configs ++ indexedConfigs e⟩ := by
  unfold ProbeExtensionManager.register at h
  cases hname : validateExtensionName e.name with
  | error err =>
      rw [hname] at h
      cases h
  | ok _ =>
      rw [hname] at h
      dsimp only [Except.bind] at h
      by_cases hsame : name ≠ e.name
      · rw [if_pos hsame] at h
        cases h
      rw [if_neg hsame] at h
      cases hspecs : validateConfigSpecs e.name e.configSpecs with
      | error err =>
          rw [hspecs] at h
          cases h
      | ok _ =>
          rw [hspecs] at h
          dsimp only at h
          split_ifs at h with hdup
          cases hfound : (indexedConfigs e).find? fun c =>
              (Keyed.find Prod.fst m.configs c.1).isSome with
          | some c =>
              rw [hfound] at h
              cases h
          | none =>
              rw [hfound] at h
              refine ⟨(validateConfigKeys_ok hspecs).1, Option.not_isSome_iff_eq_none.mp hdup, ?_,
                (Except.ok.inj h).symm⟩
              intro c hc
              have hnone := List.find?_eq_none.mp hfound c hc
              exact Option.not_isSome_iff_eq_none.mp hnone

/-- Every spelling is indexed once, for the only extension of its name. -/
structure Indexed (m : ProbeExtensionManager σ) : Prop where
  nodup : (m.configs.map Prod.fst).Nodup
  indexed : ∀ e ∈ m.extensions, ∀ c ∈ indexedConfigs e, c ∈ m.configs
  spellings : ∀ e ∈ m.extensions, (e.configSpecs.flatMap (·.spellings)).Nodup
  own : ∀ c ∈ m.configs, c.2.extension ∈ m.extensions
  unique : ∀ e ∈ m.extensions, ∀ e' ∈ m.extensions, e.name = e'.name → e = e'

theorem indexed_keys (e : Extension σ) : (indexedConfigs e).map Prod.fst =
    (e.configSpecs.flatMap (·.spellings)).map (extractNamespace e.name ++ ·) := by
  rw [indexedConfigs, List.map_map]
  rfl

theorem indexed_extension {c : String × RegisteredExtensionConfig σ}
    (hc : c ∈ indexedConfigs e) : c.2.extension = e := by
  obtain ⟨key, -, rfl⟩ := List.mem_map.mp hc
  rfl

theorem Indexed.register (hm : Indexed m) (h : m.register name e = .ok m') : Indexed m' := by
  obtain ⟨hnodup, hname, hfresh, rfl⟩ := register_ok h
  refine ⟨?_, ?_, ?_, ?_, ?_⟩
  · rw [List.map_append]
    refine List.Nodup.append hm.nodup ?_ ?_
    · rw [indexed_keys]
      exact hnodup.map fun a b hab => (String.append_right_inj _).mp hab
    · intro key hold hnew
      obtain ⟨c, hc, rfl⟩ := List.mem_map.mp hnew
      obtain ⟨d, hd, hkey⟩ := List.mem_map.mp hold
      exact Keyed.find_eq_none.mp (hfresh c hc) d hd hkey
  · intro x hx c hc
    rcases List.mem_append.mp hx with hold | hnew
    · exact List.mem_append_left _ (hm.indexed x hold c hc)
    · rw [List.mem_singleton.mp hnew] at hc
      exact List.mem_append_right _ hc
  · intro x hx
    rcases List.mem_append.mp hx with hold | hnew
    · exact hm.spellings x hold
    · rw [List.mem_singleton.mp hnew]
      exact hnodup
  · intro c hc
    rcases List.mem_append.mp hc with hold | hnew
    · exact List.mem_append_left _ (hm.own c hold)
    · rw [indexed_extension hnew]
      exact List.mem_append_right _ (List.mem_singleton_self e)
  · have hother : ∀ x ∈ m.extensions, x.name ≠ e.name := Keyed.find_eq_none.mp hname
    intro x hx y hy hxy
    rcases List.mem_append.mp hx with hold | hnew
    · rcases List.mem_append.mp hy with hold' | hnew'
      · exact hm.unique x hold y hold' hxy
      · rw [List.mem_singleton.mp hnew'] at hxy
        exact absurd hxy (hother x hold)
    · rcases List.mem_append.mp hy with hold' | hnew'
      · rw [List.mem_singleton.mp hnew] at hxy
        exact absurd hxy.symm (hother y hold')
      · rw [List.mem_singleton.mp hnew, List.mem_singleton.mp hnew']

theorem Indexed.of_registered (h : m.Registered) : Indexed m := by
  induction h with
  | none =>
      exact ⟨List.nodup_nil, fun e he => (List.not_mem_nil he).elim,
        fun e he => (List.not_mem_nil he).elim, fun c hc => (List.not_mem_nil hc).elim,
        fun e he => (List.not_mem_nil he).elim⟩
  | next _ hregister ih => exact ih.register hregister

/-- A spelling belongs to one spec. -/
theorem canonical_of_mem {specs : List ExtensionConfigSpec} {spec : ExtensionConfigSpec}
    {key : String} (hnodup : (specs.flatMap (·.spellings)).Nodup) (hspec : spec ∈ specs)
    (hkey : key ∈ spec.spellings) :
    specs.find? (fun spec => key ∈ spec.spellings) = some spec := by
  induction specs with
  | nil => exact (List.not_mem_nil hspec).elim
  | cons s specs ih =>
      rw [List.flatMap_cons] at hnodup
      obtain ⟨-, hrest, hdisjoint⟩ := List.nodup_append.mp hnodup
      rw [List.find?_cons]
      rcases List.mem_cons.mp hspec with rfl | hspec
      · simp [hkey]
      · have hnot : key ∉ s.spellings := by
          intro hs
          exact hdisjoint key hs key (List.mem_flatMap.mpr ⟨spec, hspec, hkey⟩) rfl
        simp only [hnot, decide_false]
        exact ih hrest hspec

/-- Every spelling of a registered option, in the namespace of its extension, names that option. -/
theorem names_spelling (hm : m.Registered) (he : e ∈ m.extensions) {spec : ExtensionConfigSpec}
    (hspec : spec ∈ e.configSpecs) {key : String} (hkey : key ∈ spec.spellings) :
    m.names (extractNamespace e.name ++ key) = some (e.name, spec.key) := by
  have hindexed := Indexed.of_registered hm
  have hmem : (extractNamespace e.name ++ key, ⟨e, key⟩) ∈ m.configs :=
    hindexed.indexed e he _ (List.mem_map.mpr ⟨key, List.mem_flatMap.mpr ⟨spec, hspec, hkey⟩, rfl⟩)
  have hfind := Keyed.find_of_mem hindexed.nodup hmem
  have hcanonical : e.canonical key = some spec.key := by
    rw [Extension.canonical, canonical_of_mem (hindexed.spellings e he) hspec hkey]
    rfl
  dsimp only at hfind
  rw [ProbeExtensionManager.names, ProbeExtensionManager.resolve, hfind,
    Option.bind_some, hcanonical]
  rfl

/-- A spelling that is indexed names an option of a registered extension. -/
theorem resolve_spec (hm : m.Registered) {key canonical : String}
    (h : m.resolve key = some (e, canonical)) :
    e ∈ m.extensions ∧ ∃ spec ∈ e.configSpecs, spec.key = canonical := by
  unfold ProbeExtensionManager.resolve at h
  obtain ⟨c, hc, hsome⟩ := Option.bind_eq_some_iff.mp h
  obtain ⟨key', hkey, heq⟩ := Option.map_eq_some_iff.mp hsome
  injection heq with hextension hcanonical
  subst hextension hcanonical
  refine ⟨(Indexed.of_registered hm).own c (Keyed.mem_of_find hc).1, ?_⟩
  obtain ⟨spec, hspec, hown⟩ := Option.map_eq_some_iff.mp hkey
  exact ⟨spec, List.mem_of_find?_eq_some hspec, hown⟩

end Registered

/-- `config::write`, `set_option_with_store_update`, and `SET` through `ExtensionOptions::set`. -/
inductive Call where
  | write (key value : String)
  | setOptionWithStoreUpdate (key value : String)
  | set (key value : String)
  deriving DecidableEq

def startsWithProbing (key : String) : Bool := "probing".toList.isPrefixOf key.toList

/-- The key without "probing." in front of it. -/
def extensionKey (key : String) : String :=
  if "probing.".toList.isPrefixOf key.toList then
    String.ofList (key.toList.drop "probing.".toList.length) else key

inductive Progress where
  | called (c : Call)
  /-- The store is still to be updated. -/
  | storing (key value : String)
  | returned (result : Except EngineError Unit)
  deriving DecidableEq

inductive Event where
  | began (id : ℕ) (c : Call)
  /-- The extension of the option was given the value, and answered. -/
  | reached (id : ℕ) (key value : String) (answer : Except EngineError Unit)
  | stored (id : ℕ) (key value : String)
  | returned (id : ℕ) (result : Except EngineError Unit)

def Event.byId : Event → ℕ
  | began id _ | reached id _ _ _ | stored id _ _ | returned id _ => id

structure State (σ : Type*) where
  held : Held σ
  store : String → Option String
  /-- The write lock of `ENGINE`. -/
  engine : Option ℕ
  calls : ℕ → Option Progress
  log : List Event

/-- Before the calls. -/
def State.start (held : Held σ) (store : String → Option String) : State σ :=
  ⟨held, store, none, fun _ => none, []⟩

namespace State

variable (s : State σ) (id : ℕ)

def progress (p : Progress) (events : List Event) : State σ :=
  { s with calls := Function.update s.calls id (some p), log := events ++ s.log }

/-- A call that returns gives the write lock back. -/
def finish (result : Except EngineError Unit) (events : List Event) : State σ :=
  { s.progress id (.returned result) (.returned id result :: events) with
    engine := if s.engine = some id then none else s.engine }

/-- `config::set`, the last step of a call. -/
def configSet (key value : String) : State σ :=
  { s with store := Function.update s.store key (some value) }.finish id (.ok ())
    [.stored id key value]

variable (m : ProbeExtensionManager σ)

/-- What a call of `set_option` adds to the history. -/
def reaching (key value : String) : List Event :=
  match m.resolve key with
  | none => []
  | some _ => [.reached id key value (m.optionSet s.held key value).1]

/-- The call of `set_option`. A write with the prefix holds the write lock from here on. -/
def setExtension : Call → Option (State σ)
  | .write key value =>
      if startsWithProbing key then
        if s.engine.isSome then none
        else
          let events := s.reaching id m (extensionKey key) value
          let answer := m.optionSet s.held (extensionKey key) value
          match answer.1 with
          | .ok () | .error (.UnsupportedOption _) => some
              ({ s with held := answer.2, engine := some id }.progress id (.storing key value)
                events)
          | .error e => some ({ s with held := answer.2 }.finish id (.error e) events)
      else none
  | .setOptionWithStoreUpdate key value =>
      let events := s.reaching id m key value
      let answer := m.optionSet s.held key value
      match answer.1 with
      | .ok () => some ({ s with held := answer.2 }.progress id (.storing key value) events)
      | .error e => some ({ s with held := answer.2 }.finish id (.error e) events)
  | .set key value =>
      let answer := m.optionSet s.held key value
      some ({ s with held := answer.2 }.finish id answer.1 (s.reaching id m key value))

end State

inductive Action where
  | begin (id : ℕ) (c : Call)
  | extension (id : ℕ)
  | store (id : ℕ)
  deriving DecidableEq

def step (m : ProbeExtensionManager σ) (s : State σ) : Action → Option (State σ)
  | .begin id c =>
      match s.calls id with
      | none => some (s.progress id (.called c) [.began id c])
      | some _ => none
  | .extension id =>
      match s.calls id with
      | some (.called c) => s.setExtension id m c
      | _ => none
  | .store id =>
      match s.calls id with
      | some (.called (.write key value)) =>
          if startsWithProbing key then none else some (s.configSet id key value)
      | some (.storing key value) => some (s.configSet id key value)
      | _ => none

end Probing.Config
