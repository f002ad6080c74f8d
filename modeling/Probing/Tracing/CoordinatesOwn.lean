import Probing.Tracing.Coordinates

/-!
# Whose step fields a span gets

A span gets the fields of its own thread exactly when no call of `step` came to its end since the
cache was filled, and the thread that filled it had counted by then what the opening thread has
counted by now. Both are read off what has happened, not off the cache.
-/

namespace Probing.Tracing.Coordinates

def stepKeys : List String := rowDefaults.map Prod.fst

/-- The call returned, and the step fields in it are those of a table row that the thread would
write at that moment. -/
def Returned.Own {T : Type} (r : Returned T) : Prop :=
  ∃ attrs, r.attrs = some attrs ∧
    ∀ key ∈ stepKeys, attrs.lookup key = (rowFields (some r.own)).lookup key

section Fields

variable {c d : StepContext} {x : StepSnapshot} {env : Environment} {key : String}

theorem rowFields_some (x : StepSnapshot) : rowFields (some x) = stepFields (some x) := by
  simp [rowFields, stepFields, rowDefaults, List.lookup_cons]

/-- The step fields tell the context. -/
theorem stepFields_inj (h : ∀ key ∈ stepKeys, (stepFields (some c.snapshot)).lookup key =
    (stepFields (some d.snapshot)).lookup key) : c = d := by
  have hmicro := h "micro_step" (by decide)
  have hbatches := h "micro_batches" (by decide)
  have hrank := h "rank" (by decide)
  have hworld := h "world_size" (by decide)
  simp [stepFields, List.lookup_cons, StepContext.snapshot] at hmicro hbatches hrank hworld
  have hmicro' : c.microStep = d.microStep := by omega
  have hbatches' : c.microBatches = d.microBatches := by omega
  cases c
  cases d
  simp_all

theorem lookup_parallelFields (hkey : key ∈ stepKeys) :
    (parallelFields env).lookup key = none := by
  apply List.lookup_eq_none_iff.mpr
  intro p hp
  obtain ⟨q, hq, rfl⟩ := List.mem_map.mp hp
  have hname : q.1 ∈ ["tp_rank", "pp_rank", "dp_rank", "tp_size", "pp_size", "dp_size"] := by
    have hmem := (List.mem_filter.mp hq).1
    simp only [List.mem_cons, List.not_mem_nil, or_false] at hmem
    rcases hmem with rfl | rfl | rfl | rfl | rfl | rfl <;> simp
  simp only [stepKeys, rowDefaults, List.map_cons, List.map_nil, List.mem_cons,
    List.not_mem_nil, or_false] at hkey hname
  rcases hkey with rfl | rfl | rfl | rfl | rfl | rfl <;>
    rcases hname with h | h | h | h | h | h <;> simp [h]

theorem lookup_stepFields (hkey : key ∈ stepKeys) :
    ∃ v, (stepFields (some x)).lookup key = some v := by
  simp only [stepKeys, rowDefaults, List.map_cons, List.map_nil, List.mem_cons,
    List.not_mem_nil, or_false] at hkey
  apply Option.isSome_iff_exists.mp
  rcases hkey with rfl | rfl | rfl | rfl | rfl | rfl <;> simp [stepFields, List.lookup_cons]

/-- Neither the dimensions nor the attributes of the user hide the step fields. -/
theorem lookup_mergeAttrs (user : Attrs) (source : String) (hkey : key ∈ stepKeys) :
    (mergeAttrs user source (baseCoords env (stepFields (some x)))).lookup key =
      (stepFields (some x)).lookup key := by
  obtain ⟨v, hv⟩ := lookup_stepFields (x := x) hkey
  have hbase : (baseCoords env (stepFields (some x))).lookup key = some v := by
    rw [baseCoords, List.lookup_append, lookup_parallelFields hkey, hv]
    rfl
  unfold mergeAttrs
  split
  · have hsource : (key == "source") = false := by
      simp only [stepKeys, rowDefaults, List.map_cons, List.map_nil, List.mem_cons,
        List.not_mem_nil, or_false] at hkey
      rcases hkey with rfl | rfl | rfl | rfl | rfl | rfl <;> decide
    rw [List.lookup_cons, hsource, hbase, hv]
  · rw [List.lookup_append, hbase, hv]
    rfl

end Fields

section History

variable {T : Type} [DecidableEq T]

/-- What a thread has counted, if it has accessed its counters. -/
def counted (thread : T) : List (Event T) → Option StepContext
  | [] => none
  | .counted t env count :: past =>
      if t = thread then some (count.apply ((counted thread past).getD (.default env)))
      else counted thread past
  | _ :: past => counted thread past

/-- The thread that filled the cache after the last call of `step`, and what had happened before. -/
def lastFill : List (Event T) → Option (T × List (Event T))
  | [] => none
  | .filled t :: past => some (t, past)
  | .stepped _ :: _ => none
  | .counted _ _ _ :: past => lastFill past

/-- What the thread that filled the cache had counted by then. -/
def filled (history : List (Event T)) : Option StepContext :=
  (lastFill history).bind fun p => counted p.1 p.2

variable {thread t : T} {history past : List (Event T)} {env : Environment} {count : Count}

@[simp] theorem counted_counted_self : counted thread (.counted thread env count :: past) =
    some (count.apply ((counted thread past).getD (.default env))) := if_pos rfl

theorem counted_counted_of_ne (h : t ≠ thread) :
    counted t (.counted thread env count :: past) = counted t past := if_neg h.symm

end History

/-- The accesses of a call of `step` to the counters. -/
def Access.counts : Access → Bool
  | setMicroBatches _ | syncMicroStep _ | advanceMicroStep => true
  | _ => false

/-- A call of `step` ends by emptying the cache, which no other call does. -/
def Ends : Bool → List Access → Prop
  | true, todo => todo = [] ∨
      ∃ first, todo = first ++ [.invalidateCoordsCache] ∧ ∀ a ∈ first, a.counts = true
  | false, todo => Access.invalidateCoordsCache ∉ todo

/-- No store to the cache is still to come. -/
def Stored (todo : List Access) : Prop := ∀ fields, Access.keep fields ∉ todo

theorem ends_stepCall (value microBatches : Option ℤ) :
    Ends true (stepCall value microBatches) := by
  cases value with
  | some value =>
      exact .inr ⟨microBatches.toList.map .setMicroBatches ++ [.syncMicroStep value],
        by simp [stepCall], by cases microBatches <;> simp [Access.counts]⟩
  | none =>
      cases microBatches with
      | none => exact .inr ⟨[.advanceMicroStep], rfl, by simp [Access.counts]⟩
      | some n => exact .inr ⟨[.setMicroBatches n], rfl, by simp [Access.counts]⟩

/-- What is left of a call ends as the call does, and the last access of a call of `step` is the one
that empties the cache. -/
theorem Ends.next {stepping : Bool} {access : Access} {rest : List Access}
    (h : Ends stepping (access :: rest)) : Ends stepping rest ∧
      (access = .invalidateCoordsCache ↔ stepping = true ∧ rest = []) ∧
      (stepping = true → access.counts = true ∨ access = .invalidateCoordsCache) := by
  cases stepping with
  | false =>
      have hrest : Access.invalidateCoordsCache ∉ rest :=
        fun hmem => h (List.mem_cons_of_mem _ hmem)
      have hne : access ≠ .invalidateCoordsCache := fun heq => h (heq ▸ List.mem_cons_self)
      exact ⟨hrest, iff_of_false hne fun hbad => (nomatch hbad.1), fun hbad => nomatch hbad⟩
  | true =>
      obtain hnil | ⟨first, heq, hcounts⟩ := h
      · exact nomatch hnil
      cases first with
      | nil =>
          obtain ⟨rfl, rfl⟩ := List.cons.inj heq
          exact ⟨.inl rfl, iff_of_true rfl ⟨rfl, rfl⟩, fun _ => .inr rfl⟩
      | cons a first =>
          obtain ⟨rfl, rfl⟩ := List.cons.inj heq
          have hself := hcounts access List.mem_cons_self
          refine ⟨.inr ⟨first, rfl, fun a ha => hcounts a (List.mem_cons_of_mem _ ha)⟩, ?_,
            fun _ => .inl hself⟩
          refine iff_of_false ?_ fun hlast => ?_
          · rintro rfl
            exact nomatch hself
          · exact absurd hlast.2 (List.append_ne_nil_of_right_ne_nil _ (List.cons_ne_nil _ _))

namespace Process

variable {T : Type} [DecidableEq T]

/-- What a thread is about to keep are its own fields, and nothing else will be kept before that. -/
structure Keeps (s : Process T) (thread : T) (fields : Attrs) (rest : List Access) : Prop where
  own : ∃ c, s.contexts thread = some c ∧ fields = stepFields (some c.snapshot)
  stored : Stored rest

/-- The counters are what the threads have counted, and the cache holds the fields of what the
thread which filled it had counted then. -/
structure Inv (s : Process T) : Prop where
  contexts : ∀ t, s.contexts t = counted t s.history
  cached : s.cachedStepFields =
    (filled s.history).map fun c => stepFields (some c.snapshot)
  ends : ∀ t, Ends (s.stepping t) (s.todo t)
  keeping : ∀ t, Stored (s.todo t) ∨
    ∃ fields rest, s.todo t = .keep fields :: rest ∧ s.Keeps t fields rest

theorem inv_new (env : Environment) : (new env : Process T).Inv :=
  ⟨fun _ => rfl, rfl, fun _ => List.not_mem_nil, fun _ => .inl fun _ => List.not_mem_nil⟩

/-- Where a span gets its fields, no call of `step` came to its end since the cache was filled, and
the thread that filled it had counted by then what the opening thread has counted by now. -/
def Fresh (s : Process T) : Action T → Prop
  | .access thread =>
      match s.todo thread with
      | .merge _ _ :: _ =>
          filled s.history = some ((counted thread s.history).getD (.default s.env))
      | _ => True
  | _ => True

instance (s : Process T) : ∀ a, Decidable (s.Fresh a)
  | .access thread =>
      match h : s.todo thread with
      | .merge _ _ :: _ =>
          decidable_of_iff
            (filled s.history = some ((counted thread s.history).getD (.default s.env)))
            (by simp [Fresh, h])
      | [] | .setMicroBatches _ :: _ | .syncMicroStep _ :: _ | .advanceMicroStep :: _
      | .invalidateCoordsCache :: _ | .isNone _ _ :: _ | .snapshot :: _ | .keep _ :: _
      | .rowFields :: _ => .isTrue (by simp [Fresh, h])
  | .setenv _ | .step _ _ _ | .spanAttrs _ _ _ | .rowFields _ => .isTrue trivial

variable {s u : Process T} {thread t : T} {rest todo : List Access} {access : Access}
variable {a : Action T} {env : Environment} {acts : List (Action T)}

section Frame

/-- A call touches neither the context nor the rest of the call of another thread. -/
theorem perform_other (h : t ≠ thread) : (s.perform thread rest access).todo t = s.todo t ∧
    (s.perform thread rest access).contexts t = s.contexts t := by
  have htodo (todo : List Access) : Function.update s.todo thread todo t = s.todo t :=
    Function.update_of_ne h _ _
  have hcontext (c : Option StepContext) :
      Function.update s.contexts thread c t = s.contexts t := Function.update_of_ne h _ _
  cases access with
  | setMicroBatches n =>
      simp only [perform]
      cases asU64 n with
      | none => exact ⟨htodo _, rfl⟩
      | some _ => exact ⟨htodo _, hcontext _⟩
  | syncMicroStep v =>
      simp only [perform, count]
      cases asU64 v with
      | none => exact ⟨htodo _, rfl⟩
      | some _ => exact ⟨htodo _, hcontext _⟩
  | advanceMicroStep => exact ⟨htodo _, hcontext _⟩
  | invalidateCoordsCache => exact ⟨htodo _, rfl⟩
  | isNone user source => exact ⟨htodo _, rfl⟩
  | snapshot => exact ⟨htodo _, hcontext _⟩
  | keep fields => exact ⟨htodo _, rfl⟩
  | merge user source => exact ⟨htodo _, rfl⟩
  | rowFields => exact ⟨htodo _, hcontext _⟩

/-- Only the snapshot is followed by a store to the cache. -/
theorem perform_self (h : Stored rest) : Stored ((s.perform thread rest access).todo thread) ∨
    ∃ fields, (s.perform thread rest access).todo thread = .keep fields :: rest ∧
      (s.perform thread rest access).Keeps thread fields rest := by
  have hgoto (todo : List Access) (hstored : Stored todo) :
      Stored (Function.update s.todo thread todo thread) := by
    rw [Function.update_self]
    exact hstored
  cases access with
  | snapshot =>
      refine .inr ⟨stepFields (some (s.context thread).snapshot), ?_,
        ⟨s.context thread, Function.update_self .., rfl⟩, h⟩
      exact Function.update_self ..
  | isNone user source =>
      apply Or.inl
      apply hgoto
      split <;> intro fields hmem <;> simp at hmem
  | setMicroBatches n =>
      apply Or.inl
      simp only [perform]
      cases asU64 n with
      | none => exact hgoto _ fun _ => List.not_mem_nil
      | some _ => exact hgoto rest h
  | syncMicroStep v =>
      apply Or.inl
      simp only [perform, count]
      cases asU64 v with
      | none => exact hgoto _ fun _ => List.not_mem_nil
      | some _ => exact hgoto rest h
  | _ => exact .inl (hgoto rest h)

end Frame

section Invariant

omit [DecidableEq T] in
theorem context_of_contexts {c : StepContext} (h : s.contexts t = some c) : s.context t = c := by
  rw [context, h]
  rfl

theorem context_setContext (c : StepContext) : (s.setContext thread c).context thread = c :=
  context_of_contexts (Function.update_self ..)

theorem Inv.context_eq (h : s.Inv) (t : T) :
    s.context t = (counted t s.history).getD (.default s.env) := by
  rw [context, h.contexts t]

omit [DecidableEq T] in
/-- Only the access that empties the cache is the end of a call of `step`. -/
theorem events_eq (hends : Ends (s.stepping thread) (access :: rest)) :
    s.events thread rest access = match access with
      | .setMicroBatches microBatches =>
          (asU64 microBatches).toList.map fun n => .counted thread s.env (.setMicroBatches n)
      | .syncMicroStep step =>
          (asU64 step).toList.map fun n => .counted thread s.env (.syncMicroStep n)
      | .advanceMicroStep => [.counted thread s.env .advanceMicroStep]
      | .snapshot | .rowFields => [.counted thread s.env .read]
      | .keep _ => [.filled thread]
      | .invalidateCoordsCache => [.stepped thread]
      | .isNone _ _ | .merge _ _ => [] := by
  have hlast := hends.next.2.1
  unfold events
  cases access with
  | invalidateCoordsCache => rw [if_pos (hlast.mp rfl)]; rfl
  | _ => rw [if_neg fun hboth => nomatch hlast.mpr hboth]; rfl

/-- A count is what the history says of it. -/
theorem Inv.contexts_counted (h : s.Inv) (count : Count) (t : T) :
    Function.update s.contexts thread (some (count.apply (s.context thread))) t =
      counted t (.counted thread s.env count :: s.history) := by
  by_cases ht : t = thread
  · subst ht
    rw [Function.update_self, counted_counted_self, h.context_eq]
  · rw [Function.update_of_ne ht, counted_counted_of_ne ht]
    exact h.contexts t

theorem Inv.perform_contexts (h : s.Inv)
    (hends : Ends (s.stepping thread) (access :: rest)) (t : T) :
    (s.perform thread rest access).contexts t =
      counted t (s.events thread rest access ++ s.history) := by
  rw [events_eq hends]
  cases access with
  | setMicroBatches n =>
      simp only [perform]
      cases asU64 n with
      | none => exact h.contexts t
      | some m => exact h.contexts_counted (.setMicroBatches m) t
  | syncMicroStep v =>
      simp only [perform, count]
      cases asU64 v with
      | none => exact h.contexts t
      | some m => exact h.contexts_counted (.syncMicroStep m) t
  | advanceMicroStep => exact h.contexts_counted .advanceMicroStep t
  | snapshot => exact h.contexts_counted .read t
  | rowFields => exact h.contexts_counted .read t
  | _ => exact h.contexts t

theorem Inv.perform_cached (h : s.Inv) (hends : Ends (s.stepping thread) (access :: rest))
    (hkeep : ∀ fields, access = .keep fields →
      ∃ c, s.contexts thread = some c ∧ fields = stepFields (some c.snapshot)) :
    (s.perform thread rest access).cachedStepFields =
      (filled (s.events thread rest access ++ s.history)).map
        fun c => stepFields (some c.snapshot) := by
  rw [events_eq hends]
  cases access with
  | keep fields =>
      obtain ⟨c, hc, rfl⟩ := hkeep fields rfl
      have hfilled : filled (.filled thread :: s.history) = some c :=
        (h.contexts thread).symm.trans hc
      change some _ = (filled (.filled thread :: s.history)).map _
      rw [hfilled, Option.map_some]
  | setMicroBatches n =>
      simp only [perform]
      cases asU64 n <;> exact h.cached
  | syncMicroStep v =>
      simp only [perform, count]
      cases asU64 v <;> exact h.cached
  | invalidateCoordsCache => rfl
  | _ => exact h.cached

theorem perform_stepping : (s.perform thread rest access).stepping = s.stepping := by
  cases access with
  | setMicroBatches n =>
      simp only [perform]
      cases asU64 n <;> rfl
  | syncMicroStep v =>
      simp only [perform, count]
      cases asU64 v <;> rfl
  | _ => rfl

/-- What is left after an access ends as the call does. -/
theorem perform_ends (hends : Ends (s.stepping thread) (access :: rest)) :
    Ends (s.stepping thread) ((s.perform thread rest access).todo thread) := by
  obtain ⟨hrest, -, hcounts⟩ := hends.next
  have hgoto (todo : List Access) (htodo : Ends (s.stepping thread) todo) :
      Ends (s.stepping thread) (Function.update s.todo thread todo thread) := by
    rw [Function.update_self]
    exact htodo
  have hnil : Ends (s.stepping thread) [] := by
    cases s.stepping thread with
    | false => exact List.not_mem_nil
    | true => exact .inl rfl
  cases access with
  | setMicroBatches n =>
      simp only [perform]
      cases asU64 n <;> first | exact hgoto [] hnil | exact hgoto rest hrest
  | syncMicroStep v =>
      simp only [perform, count]
      cases asU64 v <;> first | exact hgoto [] hnil | exact hgoto rest hrest
  | isNone user source =>
      apply hgoto
      cases hstepping : s.stepping thread with
      | true => rcases hcounts hstepping with hbad | hbad <;> exact nomatch hbad
      | false => split <;> simp [Ends]
  | snapshot =>
      refine hgoto (.keep _ :: rest) ?_
      cases hstepping : s.stepping thread with
      | true => rcases hcounts hstepping with hbad | hbad <;> exact nomatch hbad
      | false =>
          rw [hstepping] at hrest
          exact List.not_mem_cons_of_ne_of_not_mem nofun hrest
  | _ => exact hgoto rest hrest

/-- The next access of a call keeps the invariant. -/
theorem Inv.perform (h : s.Inv) (htodo : s.todo thread = access :: rest) :
    Inv { s.perform thread rest access with
      history := s.events thread rest access ++ s.history } := by
  have hends : Ends (s.stepping thread) (access :: rest) := htodo ▸ h.ends thread
  have hrest : Stored rest ∧ ∀ fields, access = .keep fields →
      ∃ c, s.contexts thread = some c ∧ fields = stepFields (some c.snapshot) := by
    rcases h.keeping thread with hstored | ⟨fields, rest', heq, hown, hstored⟩
    · rw [htodo] at hstored
      exact ⟨fun fields hmem => hstored fields (List.mem_cons_of_mem _ hmem),
        fun fields heq => absurd (heq ▸ List.mem_cons_self) (hstored fields)⟩
    · obtain ⟨rfl, rfl⟩ := List.cons.inj (htodo.symm.trans heq)
      exact ⟨hstored, fun fields' heq' => Access.keep.inj heq' ▸ hown⟩
  refine ⟨h.perform_contexts hends, h.perform_cached hends hrest.2, fun t => ?_, fun t => ?_⟩
  · rw [show (s.perform thread rest access).stepping = s.stepping from perform_stepping]
    by_cases ht : t = thread
    · subst ht
      exact perform_ends hends
    · have hsame : (s.perform thread rest access).todo t = s.todo t := (perform_other ht).1
      change Ends (s.stepping t) ((s.perform thread rest access).todo t)
      rw [hsame]
      exact h.ends t
  · by_cases ht : t = thread
    · subst ht
      exact (perform_self hrest.1).imp id
        fun ⟨fields, heq, hkeeps⟩ => ⟨fields, _, heq, hkeeps.own, hkeeps.stored⟩
    · obtain ⟨hsame, hcontext⟩ : (s.perform thread rest access).todo t = s.todo t ∧ _ :=
        perform_other ht
      change Stored ((s.perform thread rest access).todo t) ∨
        ∃ fields rest', (s.perform thread rest access).todo t = .keep fields :: rest' ∧ _
      rw [hsame]
      refine (h.keeping t).imp id ?_
      rintro ⟨fields, rest', heq, ⟨c, hc, hfields⟩, hstored⟩
      exact ⟨fields, rest', heq, ⟨c, hcontext.trans hc, hfields⟩, hstored⟩

/-- A call begins with nothing to keep. -/
theorem Inv.call (h : s.Inv) {stepping : Bool} (hcall : s.call thread stepping todo = some u)
    (hends : Ends stepping todo) (hstored : Stored todo) : u.Inv := by
  unfold Process.call at hcall
  split at hcall
  case isFalse => exact (nomatch hcall)
  obtain rfl := Option.some.inj hcall
  refine ⟨h.contexts, h.cached, fun t => ?_, fun t => ?_⟩
  · change Ends (Function.update s.stepping thread stepping t)
      (Function.update s.todo thread todo t)
    by_cases ht : t = thread
    · subst ht
      rw [Function.update_self, Function.update_self]
      exact hends
    · rw [Function.update_of_ne ht, Function.update_of_ne ht]
      exact h.ends t
  · change Stored (Function.update s.todo thread todo t) ∨
      ∃ fields rest, Function.update s.todo thread todo t = .keep fields :: rest ∧ _
    by_cases ht : t = thread
    · subst ht
      rw [Function.update_self]
      exact .inl hstored
    · rw [Function.update_of_ne ht]
      refine (h.keeping t).imp id ?_
      rintro ⟨fields, rest, heq, hkeeps⟩
      exact ⟨fields, rest, heq, hkeeps.own, hkeeps.stored⟩

theorem stored_stepCall (value microBatches : Option ℤ) :
    Stored (stepCall value microBatches) := by
  intro fields hmem
  unfold stepCall at hmem
  cases value <;> cases microBatches <;> simp at hmem

theorem Inv.step (h : s.Inv) (hstep : s.step a = some u) : u.Inv := by
  cases a with
  | setenv env =>
      obtain rfl := Option.some.inj hstep
      exact ⟨h.contexts, h.cached, h.ends, fun t => (h.keeping t).imp id
        fun ⟨fields, rest, heq, hkeeps⟩ => ⟨fields, rest, heq, hkeeps.own, hkeeps.stored⟩⟩
  | step thread value microBatches =>
      exact h.call hstep (ends_stepCall value microBatches) (stored_stepCall value microBatches)
  | spanAttrs thread user source =>
      exact h.call hstep (by simp [Ends]) fun fields hmem => by simp at hmem
  | rowFields thread =>
      exact h.call hstep (by simp [Ends]) fun fields hmem => by simp at hmem
  | access thread =>
      simp only [Process.step] at hstep
      cases htodo : s.todo thread with
      | nil => rw [htodo] at hstep; exact (nomatch hstep)
      | cons access rest =>
          rw [htodo] at hstep
          obtain rfl := Option.some.inj hstep
          exact h.perform htodo

end Invariant

section Returns

omit [DecidableEq T] in
/-- A return that is not an exception. -/
theorem own_iff {attrs : Attrs} {own : StepSnapshot} :
    (⟨thread, some attrs, own⟩ : Returned T).Own ↔
      ∀ key ∈ stepKeys, attrs.lookup key = (stepFields (some own)).lookup key := by
  unfold Returned.Own
  rw [rowFields_some]
  exact ⟨fun ⟨_, heq, h⟩ => Option.some.inj heq ▸ h, fun h => ⟨attrs, rfl, h⟩⟩

/-- What a merge returns is the thread's own exactly when the cache is fresh. -/
theorem own_merge (h : s.Inv) (user : Attrs) (source : String) :
    (⟨thread, s.cachedStepFields.map fun cached =>
      mergeAttrs user source (baseCoords s.env cached), (s.context thread).snapshot⟩ :
        Returned T).Own ↔
      filled s.history = some ((counted thread s.history).getD (.default s.env)) := by
  rw [h.cached, ← h.context_eq]
  cases filled s.history with
  | none => exact iff_of_false (fun ⟨_, heq, _⟩ => nomatch heq) (fun heq => nomatch heq)
  | some c =>
      change (⟨thread, some _, _⟩ : Returned T).Own ↔ some c = some (s.context thread)
      rw [own_iff, Option.some_inj]
      constructor
      · intro hown
        apply stepFields_inj
        intro key hkey
        rw [← hown key hkey, lookup_mergeAttrs user source hkey]
      · intro heq key hkey
        rw [lookup_mergeAttrs user source hkey, heq]

omit [DecidableEq T] in
theorem forall_append_iff {l : List (Returned T)} {r : Returned T} :
    (∀ q ∈ l ++ [r], q.Own) ↔ (∀ q ∈ l, q.Own) ∧ r.Own := by
  simp only [List.mem_append, List.mem_singleton, or_imp, forall_and, forall_eq]

/-- After an access, all returns are the threads' own if they were before and the access is
fresh. -/
theorem perform_returned (h : s.Inv) (htodo : s.todo thread = access :: rest) :
    (∀ r ∈ (s.perform thread rest access).returned, r.Own) ↔
      (∀ r ∈ s.returned, r.Own) ∧ s.Fresh (.access thread) := by
  have hfresh (hsame : (s.perform thread rest access).returned = s.returned)
      (hnot : s.Fresh (.access thread)) :
      (∀ r ∈ (s.perform thread rest access).returned, r.Own) ↔
        (∀ r ∈ s.returned, r.Own) ∧ s.Fresh (.access thread) := by
    rw [hsame]
    exact (and_iff_left hnot).symm
  cases access with
  | merge user source =>
      have hmerge : s.Fresh (.access thread) ↔
          filled s.history = some ((counted thread s.history).getD (.default s.env)) := by
        simp only [Fresh, htodo]
      rw [hmerge, ← own_merge h user source]
      exact forall_append_iff
  | rowFields =>
      have htrue : s.Fresh (.access thread) := by simp only [Fresh, htodo]
      rw [and_iff_left htrue]
      apply forall_append_iff.trans
      apply and_iff_left
      rw [rowFields_some, own_iff]
      intro key _
      rw [context_setContext]
  | setMicroBatches n =>
      apply hfresh _ (by simp only [Fresh, htodo])
      simp only [perform]
      cases asU64 n <;> rfl
  | syncMicroStep v =>
      apply hfresh _ (by simp only [Fresh, htodo])
      simp only [perform, count]
      cases asU64 v <;> rfl
  | _ => exact hfresh rfl (by simp only [Fresh, htodo])

theorem returned_call {stepping : Bool} (hcall : s.call thread stepping todo = some u) :
    u.returned = s.returned := by
  unfold Process.call at hcall
  split at hcall
  case isFalse => exact (nomatch hcall)
  obtain rfl := Option.some.inj hcall
  rfl

theorem step_returned (h : s.Inv) (hstep : s.step a = some u) :
    (∀ r ∈ u.returned, r.Own) ↔ (∀ r ∈ s.returned, r.Own) ∧ s.Fresh a := by
  cases a with
  | setenv env =>
      obtain rfl := Option.some.inj hstep
      exact (and_iff_left trivial).symm
  | step thread value microBatches =>
      rw [returned_call hstep]
      exact (and_iff_left trivial).symm
  | spanAttrs thread user source =>
      rw [returned_call hstep]
      exact (and_iff_left trivial).symm
  | rowFields thread =>
      rw [returned_call hstep]
      exact (and_iff_left trivial).symm
  | access thread =>
      simp only [Process.step] at hstep
      cases htodo : s.todo thread with
      | nil => rw [htodo] at hstep; exact (nomatch hstep)
      | cons access rest =>
          rw [htodo] at hstep
          obtain rfl := Option.some.inj hstep
          exact perform_returned h htodo

end Returns

/-- In a run from the start of the process, every span and every row gets the step fields of its own
thread exactly when every merge finds the cache fresh. -/
theorem own_fields_iff (hrun : Core.exec Process.step (new env) acts = some s) :
    (∀ r ∈ s.returned, r.Own) ↔ Core.Meets Process.step Process.Fresh (new env) acts :=
  (Core.exec_meets_iff (fun _ _ _ h => h.step) (fun _ _ _ => step_returned)
    (inv_new env) hrun).trans (and_iff_right fun _ hr => absurd hr List.not_mem_nil)

/-- The variables of a process that sets none. -/
def noVariables : Environment :=
  ⟨none, none, none, none, none, ⟨none, none, none, none, none, none⟩⟩

/-- A call with all its accesses. -/
def whole {T : Type} (thread : T) (call : Action T) (accesses : ℕ) : List (Action T) :=
  call :: List.replicate accesses (Action.access thread)

/-- Both threads step and open a span, and the first one opens another span, with the fields that
the second one has kept. -/
def sameCounts : List (Action Bool) :=
  whole true (Action.step true none none) 2 ++ whole true (Action.spanAttrs true [] "manual") 4 ++
    whole false (Action.step false none none) 2 ++
    whole false (Action.spanAttrs false [("k", .int 1)] "manual") 4 ++
    whole true (Action.spanAttrs true [] "manual") 2

theorem own_fields_same_counts :
    ∃ s, Core.exec Process.step (new noVariables) sameCounts = some s ∧
      s.returned.length = 3 ∧ ∀ r ∈ s.returned, r.Own :=
  have hrun : Core.exec Process.step (new noVariables) sameCounts = some _ := rfl
  ⟨_, hrun, rfl, (own_fields_iff hrun).mpr (by decide)⟩

/-- One thread steps and opens a span, and another one, which has made no step, opens a span. -/
def twoThreads : List (Action Bool) :=
  whole true (Action.step true none none) 2 ++ whole true (Action.spanAttrs true [] "manual") 4 ++
    whole false (Action.spanAttrs false [] "manual") 2

/-- One thread steps between the test of the cache and its use in the other one. -/
def stepBetween : List (Action Bool) :=
  whole true (Action.spanAttrs true [] "manual") 4 ++
    whole true (Action.spanAttrs true [] "manual") 1 ++
    whole false (Action.step false none none) 2 ++ [Action.access true]

/-- The second span gets the step of the first thread; and a span can get an exception. -/
theorem other_threads_fields :
    (∃ s, Core.exec Process.step (new noVariables) twoThreads = some s ∧
      ∃ r ∈ s.returned, r.thread = false ∧ r.own.microStep = 0 ∧
        r.attrs.bind (·.lookup "micro_step") = some (.int 1)) ∧
    (∃ s, Core.exec Process.step (new noVariables) stepBetween = some s ∧
      ∃ r ∈ s.returned, r.thread = true ∧ r.attrs = none) := by
  refine ⟨⟨_, rfl, ?_⟩, _, rfl, ?_⟩
  · exact ⟨_, List.mem_cons_of_mem _ List.mem_cons_self, rfl, rfl, by decide⟩
  · exact ⟨_, List.mem_cons_of_mem _ List.mem_cons_self, rfl, rfl⟩

end Process

end Probing.Tracing.Coordinates
