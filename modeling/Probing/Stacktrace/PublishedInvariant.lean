import Probing.Stacktrace.PublishedStack

/-!
# What a slot mirrors

While no method is at work, the slot that a lookup of the thread finds mirrors the tracked stack,
but for the frame that is just pushed or about to be popped, and but for frames that were dropped
from the stack and are still published.
-/

namespace Probing.Stacktrace.Published

namespace PublishedPyStack

variable {slot : PublishedPyStack} {store : Store} {rest : List Store}

/-- After the last store of a method the version is even, before it the method goes on. -/
theorem Stage.perform (h : slot.Stage (store :: rest)) :
    rest = [] ∧ (slot.perform store).version % 2 = 0 ∨
      rest ≠ [] ∧ (slot.perform store).Stage rest ∧ rest.head? ≠ some .fetchAdd := by
  generalize hall : store :: rest = all at h
  have hhead {payload : List Store} (hpayload : ∀ w ∈ payload, w.isPayload = true) :
      (payload ++ [Store.version]).head? ≠ some .fetchAdd := by
    cases payload with
    | nil => simp
    | cons first _ =>
        intro heq
        obtain rfl := Option.some.inj heq
        exact (nomatch hpayload _ List.mem_cons_self)
  cases h with
  | waiting payload hpayload heven =>
      obtain ⟨rfl, rfl⟩ := List.cons.inj hall
      have hodd : (slot.perform .fetchAdd).version % 2 = 1 := by
        change (slot.version + 1) % 2 = 1
        omega
      exact .inr ⟨by simp, .storing payload hpayload hodd, hhead hpayload⟩
  | storing payload hpayload hodd =>
      cases payload with
      | nil =>
          obtain ⟨rfl, rfl⟩ := List.cons.inj hall
          refine .inl ⟨rfl, ?_⟩
          change (slot.version + 1) % 2 = 0
          omega
      | cons first payload =>
          obtain ⟨rfl, rfl⟩ := List.cons.inj hall
          have hfirst := hpayload store List.mem_cons_self
          have hpayload := fun w hw => hpayload w (List.mem_cons_of_mem store hw)
          refine .inr ⟨by simp, .storing payload hpayload ?_, hhead hpayload⟩
          rw [version_perform_of_payload hfirst]
          exact hodd

/-- A store that leaves an even version is one of the version. -/
theorem Stage.version_perform (h : slot.Stage (store :: rest)) :
    slot.version ≤ (slot.perform store).version ∧
      ((slot.perform store).version = slot.version → (slot.perform store).version % 2 = 1) := by
  by_cases hpayload : store.isPayload = true
  · rw [version_perform_of_payload hpayload]
    refine ⟨Nat.le_refl _, fun _ => ?_⟩
    generalize hall : store :: rest = all at h
    cases h with
    | waiting payload _ _ =>
        obtain ⟨rfl, -⟩ := List.cons.inj hall
        exact (nomatch hpayload)
    | storing _ _ hodd => exact hodd
  · have hsucc : (slot.perform store).version = slot.version + 1 := by
      cases store with
      | frame _ _ => exact (hpayload rfl).elim
      | depth _ => exact (hpayload rfl).elim
      | _ => rfl
    rw [hsucc]
    exact ⟨Nat.le_succ _, fun heq => by omega⟩

theorem Stage.even_of_waiting (h : slot.Stage rest) (heven : slot.version % 2 = 0) :
    rest.head? = some .fetchAdd := by
  cases h with
  | waiting => rfl
  | storing _ _ hodd => omega

theorem Stage.even_performs {stores : List Store} (h : slot.Stage stores) :
    (slot.performs stores).version % 2 = 0 := by
  induction stores generalizing slot with
  | nil =>
      generalize hall : ([] : List Store) = all at h
      cases h with
      | waiting => exact (nomatch hall)
      | storing payload => exact (by simp at hall)
  | cons store rest ih =>
      obtain ⟨rfl, heven⟩ | ⟨-, hstage, -⟩ := h.perform
      · exact heven
      · exact ih hstage

end PublishedPyStack

variable {S : Type}

def Frame.captured : Frame S → Option (Option S)
  | untracked => none
  | tracked published => some published

/-- The frame on top of the tracked stack is about to go. -/
def Pc.leaves : Pc S → Bool
  | writing _ .leave _ => true
  | pop => true
  | _ => false

/-- No method is at work on the slot. -/
def Pc.rests (pc : Pc S) (x : S) : Prop := ∀ method stores, pc ≠ .writing x method stores

namespace Thread

/-- Where the tracked frames end, the innermost first. -/
def owners (t : Thread S) : List (Option S) := t.frames.filterMap Frame.captured

/-- The tracked stack, once the frame on its top is gone. -/
def goal (t : Thread S) : List ℕ := if t.pc.leaves then t.stack.dropLast else t.stack

/-- What a method starts from. -/
def before (t : Thread S) (method : Method) : List ℕ :=
  if method = .enter then t.stack.dropLast else t.stack

/-- What a slot holds of a stack while no method is at work on it. -/
structure Holds (t : Thread S) (x : S) (stack : List ℕ) : Prop where
  frames : (t.slots x).Agrees stack
  mirrors : t.lagging = false → (t.slots x).Mirrors stack

/-- What the slot of the thread holds, and will hold. -/
inductive Publishes (t : Thread S) (x : S) : Prop
  | resting (hpc : ∀ y, t.pc.rests y) (hholds : t.Holds x t.goal)
  | elsewhere (y : S) (hy : y ≠ x) (stores : List Store) (hpc : t.pc = .writing y .leave stores)
      (hempty : t.stack = []) (hholds : t.Holds x [])
  | writing (method : Method) (stores : List Store) (hpc : t.pc = .writing x method stores)
      (hbefore : stores.head? = some .fetchAdd → t.lagging = false →
        (t.slots x).Mirrors (t.before method))
      (hfinal : ((t.slots x).performs stores).Mirrors t.goal)

structure Inv (t : Thread S) : Prop where
  ready : t.ready = true → t.found = t.registry
  register : ∀ callee, t.pc = .register callee → t.found = none
  found : ∀ x, t.found = some x → t.published = some x ∧ t.current = true
  owners : ∀ x, t.found = some x → ∀ p ∈ t.owners.take t.goal.length, p = some x
  even : ∀ y, t.pc.rests y → (t.slots y).version % 2 = 0
  stage : ∀ y method stores, t.pc = .writing y method stores → (t.slots y).Stage stores
  publishes : ∀ x, t.found = some x → t.Publishes x

/-- A thread does not register a slot while frames of it are tracked, as the child of a fork may. -/
def Undisturbed (t : Thread S) : Event S → Prop
  | .step => (match t.pc with | .register _ => t.registry.isSome | _ => false) = true → t.stack = []
  | _ => True

variable {t u : Thread S} {x : S}

/-- Where no method is at work, a published stack is the tracked one. -/
theorem Publishes.mirrors (h : t.Publishes x) (hstage : ∀ method stores,
      t.pc = .writing x method stores → (t.slots x).Stage stores)
    (heven : (t.slots x).version % 2 = 0) (hsynced : t.synced = true) :
    (t.slots x).Mirrors t.stack := by
  obtain ⟨hlagging, hbetween⟩ : t.lagging = false ∧ t.pc.between = false := by
    simpa [synced] using hsynced
  cases h with
  | resting hpc hholds =>
      have hgoal : t.goal = t.stack := by
        rw [goal]
        cases hp : t.pc with
        | pop =>
            rw [hp] at hbetween
            exact (nomatch hbetween)
        | writing y method stores => exact (hpc y method stores hp).elim
        | _ => rfl
      exact hgoal ▸ hholds.mirrors hlagging
  | elsewhere y _ _ _ hempty hholds => exact hempty ▸ hholds.mirrors hlagging
  | writing method stores hpc hbefore hfinal =>
      have hhead := (hstage method stores hpc).even_of_waiting heven
      have hmirrors := hbefore hhead hlagging
      rw [before] at hmirrors
      split at hmirrors
      next henter =>
        subst henter
        rw [hpc, Pc.between, hhead] at hbetween
        exact (nomatch hbetween)
      · exact hmirrors

/-- Between a push and the entry of its frame, or an end and its pop, one frame is not published. -/
theorem Publishes.mirrors_between (h : t.Publishes x) (hlagging : t.lagging = false)
    (hbetween : t.pc.between = true) : (t.slots x).Mirrors t.stack.dropLast := by
  cases h with
  | resting hpc hholds =>
      cases hp : t.pc with
      | pop =>
          have hmirrors := hholds.mirrors hlagging
          rw [goal, hp] at hmirrors
          exact hmirrors
      | writing y method stores => exact (hpc y method stores hp).elim
      | _ =>
          rw [hp] at hbetween
          exact (nomatch hbetween)
  | elsewhere y _ stores hpc =>
      rw [hpc] at hbetween
      exact (nomatch hbetween)
  | writing method stores hpc hbefore hfinal =>
      rw [hpc] at hbetween
      cases method with
      | enter => exact hbefore (by simpa [Pc.between] using hbetween) hlagging
      | clear callee => exact (nomatch hbetween)
      | leave => exact (nomatch hbetween)

theorem goal_of_running (hpc : t.pc = .running) : t.goal = t.stack := by rw [goal, hpc]; rfl

/-- A thread that evaluates a frame publishes no other stack than its own. -/
theorem Inv.holds (h : t.Inv) (hpc : t.pc = .running) (hfound : t.found = some x) :
    t.Holds x t.stack := by
  cases h.publishes x hfound with
  | resting _ hholds => exact goal_of_running hpc ▸ hholds
  | elsewhere y _ stores hwriting => exact (nomatch hpc.symm.trans hwriting)
  | writing method stores hwriting => exact (nomatch hpc.symm.trans hwriting)

/-- A thread that evaluates a frame goes on, and neither its slots nor its stack change. -/
theorem Inv.of_running (h : t.Inv) (hpc : t.pc = .running) (hready : u.ready = t.ready)
    (hregistry : u.registry = t.registry)
    (hregister : ∀ callee, u.pc = .register callee → t.found = none)
    (hfound : u.found = t.found) (hpublished : u.published = t.published)
    (hcurrent : u.current = t.current) (howners : u.owners = t.owners) (hstack : u.stack = t.stack)
    (hleaves : u.pc.leaves = false) (hwriting : ∀ y method stores, u.pc ≠ .writing y method stores)
    (hslots : u.slots = t.slots) (hlagging : u.lagging = t.lagging) : u.Inv where
  ready hu := by
    rw [hfound, hregistry]
    exact h.ready (hready ▸ hu)
  register callee hu := hfound.trans (hregister callee hu)
  found y hy := by
    rw [hpublished, hcurrent]
    exact h.found y (hfound ▸ hy)
  owners y hy := by
    have hgoal : u.goal = t.goal := by
      rw [goal_of_running hpc, goal, hleaves, hstack]
      rfl
    rw [howners, hgoal]
    exact h.owners y (hfound ▸ hy)
  even y _ := by
    rw [hslots]
    exact h.even y fun method stores hw => (nomatch hpc.symm.trans hw)
  stage y method stores hw := (hwriting y method stores hw).elim
  publishes y hy := by
    have hholds := h.holds hpc (hfound ▸ hy)
    refine .resting hwriting ?_
    rw [goal, hleaves, hstack]
    exact ⟨by rw [hslots]; exact hholds.frames, by rw [hslots, hlagging]; exact hholds.mirrors⟩

theorem Inv.call (h : t.Inv) (hpc : t.pc = .running) (callee : ℕ) : (t.call callee).Inv := by
  rw [Thread.call]
  split
  · exact h.of_running hpc rfl rfl (fun _ hu => (nomatch hpc.symm.trans hu)) rfl rfl rfl rfl rfl
      (by rw [hpc]; rfl) (fun y method stores hu => (nomatch hpc.symm.trans hu)) rfl rfl
  · by_cases hnew : t.published = none ∨ ¬ t.current = true
    · rw [if_pos hnew]
      refine h.of_running hpc rfl rfl (fun _ _ => ?_) rfl rfl rfl rfl rfl rfl
        (fun y method stores hu => (nomatch hu)) rfl rfl
      -- A slot that was found is the one of this process.
      cases hfound : t.found with
      | none => rfl
      | some x =>
          obtain ⟨hpublished, hcurrent⟩ := h.found x hfound
          obtain hnone | hold := hnew
          · exact (nomatch hnone.symm.trans hpublished)
          · exact (hold hcurrent).elim
    · rw [if_neg hnew]
      exact h.of_running hpc rfl rfl (fun _ hu => (nomatch hu)) rfl rfl rfl rfl rfl rfl
        (fun y method stores hu => (nomatch hu)) rfl rfl

/-- Frames that are dropped stay published. -/
theorem Inv.disableTracer (h : t.Inv) (hpc : t.pc = .running) (own : Bool) :
    (t.disableTracer own).Inv := by
  rw [Thread.disableTracer]
  split
  · exact h
  · split
    · have hgoal : goal { t with enabled := false, stack := [], lagging :=
          t.lagging || !t.stack.isEmpty } = [] := goal_of_running hpc
      refine ⟨h.ready, h.register, h.found, fun y hy p hp => ?_, h.even, h.stage, fun y hy => ?_⟩
      · rw [hgoal] at hp
        exact (nomatch hp)
      · have hholds := h.holds hpc hy
        refine .resting (fun y method stores hw => (nomatch hpc.symm.trans hw)) ?_
        rw [hgoal]
        refine ⟨PublishedPyStack.Agrees.nil, fun hlagging => ?_⟩
        obtain ⟨hkept, hempty⟩ : t.lagging = false ∧ t.stack = [] := by
          simpa [Bool.or_eq_false_iff] using hlagging
        exact hempty ▸ hholds.mirrors hkept
    · exact h.of_running hpc rfl rfl (fun _ hu => (nomatch hpc.symm.trans hu)) rfl rfl rfl rfl rfl
        (by rw [hpc]; rfl) (fun y method stores hu => (nomatch hpc.symm.trans hu)) rfl rfl

/-- No lookup finds a slot of the thread in the child of a fork. -/
theorem Inv.fork (h : t.Inv) (registry : Option S) :
    (t.fork registry).Inv where
  ready hready := (nomatch hready)
  register _ _ := rfl
  found _ hfound := (nomatch hfound)
  owners _ hfound := (nomatch hfound)
  even := h.even
  stage := h.stage
  publishes _ hfound := (nomatch hfound)

/-- What a tracked frame does when its evaluation ends. -/
def ending (stack : List ℕ) : Option S → Pc S
  | some slot => .writing slot .leave (PublishedPyStack.leave (stack.length - 1))
  | none => .pop

theorem leaves_ending (stack : List ℕ) (published : Option S) :
    (ending stack published).leaves = true := by cases published <;> rfl

/-- The innermost tracked frame ends in the slot of the thread, unless the stack was dropped. -/
theorem Publishes.ending (h : t.Inv) (hpc : t.pc = .running) (hfound : t.found = some x)
    {published : Option S} (hslot : t.stack ≠ [] → published = some x)
    (hu : u = { t with frames := u.frames, pc := ending t.stack published }) : u.Publishes x := by
  have hholds := h.holds hpc hfound
  have hslots : u.slots = t.slots := by rw [hu]
  have hstack : u.stack = t.stack := by rw [hu]
  have hlagging : u.lagging = t.lagging := by rw [hu]
  have hupc : u.pc = Thread.ending t.stack published := by rw [hu]
  have hgoal : u.goal = t.stack.dropLast := by
    rw [goal, hupc, leaves_ending, hstack]
    rfl
  have hdrop : u.Holds x t.stack → t.stack = [] → u.Holds x t.stack.dropLast := by
    intro hu hempty
    rw [hempty] at hu ⊢
    exact hu
  have hkept : u.Holds x t.stack := by
    refine ⟨?_, ?_⟩
    · rw [hslots]
      exact hholds.frames
    · rw [hslots, hlagging]
      exact hholds.mirrors
  cases published with
  | none =>
      have hempty : t.stack = [] := by
        by_contra hne
        exact (nomatch hslot hne)
      refine .resting (fun y method stores hw => (nomatch hupc.symm.trans hw)) ?_
      rw [hgoal]
      exact hdrop hkept hempty
  | some y =>
      by_cases hy : y = x
      · subst hy
        refine .writing .leave _ hupc (fun _ hclear => ?_) ?_
        · rw [before, if_neg (by simp), hstack]
          exact hkept.mirrors hclear
        rw [hgoal, hslots]
        exact PublishedPyStack.mirrors_leave hholds.frames
      · have hempty : t.stack = [] := by
          by_contra hne
          exact hy (Option.some.inj (hslot hne))
        exact .elsewhere y hy _ hupc (hstack.trans hempty) (hempty ▸ hkept)

theorem Inv.ret (h : t.Inv) (hpc : t.pc = .running) (hret : t.ret = some u) : u.Inv := by
  rw [Thread.ret] at hret
  split at hret
  · exact (nomatch hret)
  next rest hframes =>
    obtain rfl := Option.some.inj hret
    refine h.of_running hpc rfl rfl (fun _ hu => (nomatch hpc.symm.trans hu)) rfl rfl rfl ?_ rfl
      (by rw [hpc]; rfl) (fun y method stores hu => (nomatch hpc.symm.trans hu)) rfl rfl
    rw [Thread.owners, Thread.owners, hframes]
    rfl
  next published rest hframes =>
    have hu : u = { t with frames := rest, pc := ending t.stack published } := by
      rw [← Option.some.inj hret]
      cases published <;> rfl
    have howners : t.owners = published :: u.owners := by
      rw [Thread.owners, hframes, hu]
      rfl
    have hgoal : u.goal = t.stack.dropLast := by
      rw [goal, hu, leaves_ending]
      rfl
    have hall (y : S) (hy : t.found = some y) (hne : t.stack ≠ []) :
        ∀ p ∈ published :: u.owners.take u.goal.length, p = some y := by
      have hlength : t.stack.length = u.goal.length + 1 := by
        rw [hgoal, List.length_dropLast]
        have hpos := List.length_pos_of_ne_nil hne
        omega
      have hold := h.owners y hy
      rw [goal_of_running hpc, howners, hlength, List.take_succ_cons] at hold
      exact hold
    have heven (y : S) : (t.slots y).version % 2 = 0 :=
      h.even y fun method stores hw => (nomatch hpc.symm.trans hw)
    refine ⟨?_, fun callee hw => ?_, ?_, fun y hy p hp => ?_, fun y _ => ?_,
      fun y method stores hw => ?_, fun y hy => ?_⟩
    · rw [hu]
      exact h.ready
    · rw [hu] at hw
      cases published <;> exact (nomatch hw)
    · rw [hu]
      exact h.found
    · have hy : t.found = some y := by rw [hu] at hy; exact hy
      by_cases hne : t.stack = []
      · rw [hgoal, hne] at hp
        exact (nomatch hp)
      · exact hall y hy hne p (List.mem_cons_of_mem _ hp)
    · rw [hu]
      exact heven y
    · rw [hu] at hw ⊢
      cases published with
      | none => exact (nomatch hw)
      | some slot =>
          cases hw
          exact PublishedPyStack.stage_leave _ (heven y)
    · have hy : t.found = some y := by rw [hu] at hy; exact hy
      refine Publishes.ending h hpc hy (fun hne => hall y hy hne _ List.mem_cons_self) ?_
      rw [hu]

variable [DecidableEq S]

/-- The slot that is registered is clear, and so is the tracked stack. -/
theorem Inv.registerPythonThreadSlot (h : t.Inv) {callee : ℕ} (hpc : t.pc = .register callee)
    (hempty : t.registry.isSome = true → t.stack = []) :
    (t.registerPythonThreadSlot callee).Inv := by
  have hnone := h.register callee hpc
  have heven (y : S) : (t.slots y).version % 2 = 0 :=
    h.even y fun method stores hw => (nomatch hpc.symm.trans hw)
  have hcleared (y : S) : ((t.slots y).performs PublishedPyStack.clear).version % 2 = 0 :=
    (PublishedPyStack.stage_clear (heven y)).even_performs
  have hslots (y : S) : ((if t.ready then t.slots else
      fun slot => (t.slots slot).performs PublishedPyStack.clear) y).version % 2 = 0 := by
    split
    · exact heven y
    · exact hcleared y
  rw [Thread.registerPythonThreadSlot]
  cases hregistry : t.registry with
  | none =>
      have hfound : ∀ y, t.found ≠ some y := fun y hy => (nomatch hnone.symm.trans hy)
      exact ⟨fun _ => hnone, fun _ hw => (nomatch hw),
        fun y hy => (hfound y hy).elim, fun y hy => (hfound y hy).elim, fun y _ => hslots y,
        fun _ _ _ hw => (nomatch hw), fun y hy => (hfound y hy).elim⟩
  | some slot =>
      have hempty : t.stack = [] := hempty (by rw [hregistry]; rfl)
      have hready : t.ready = false := by
        cases hready : t.ready with
        | false => rfl
        | true => exact (nomatch hnone.symm.trans ((h.ready hready).trans hregistry))
      have hnew : ¬ t.found = some slot := fun hfound => (nomatch hnone.symm.trans hfound)
      dsimp only
      rw [if_neg hnew]
      refine ⟨fun _ => rfl, fun _ hw => (nomatch hw), fun y hy => ⟨hy, rfl⟩,
        fun y hy p hp => ?_, fun y _ => hslots y, fun y method stores hw => ?_, fun y hy => ?_⟩
      · change p ∈ List.take t.stack.length _ at hp
        rw [hempty] at hp
        exact (nomatch hp)
      · cases hw
        exact PublishedPyStack.stage_clear (hslots slot)
      · obtain rfl := Option.some.inj hy
        refine .writing (.clear callee) _ rfl (fun _ _ => ?_) ?_
        · change ((if t.ready then t.slots else _) slot).Mirrors t.stack
          rw [hready, hempty]
          exact PublishedPyStack.mirrors_clear
        · change PublishedPyStack.Mirrors _ t.stack
          rw [hempty]
          exact PublishedPyStack.mirrors_clear

omit [DecidableEq S] in
theorem Inv.push (h : t.Inv) {callee : ℕ} (hpc : t.pc = .push callee) : (t.push callee).Inv := by
  have heven (y : S) : (t.slots y).version % 2 = 0 :=
    h.even y fun method stores hw => (nomatch hpc.symm.trans hw)
  have hgoal : t.goal = t.stack := by rw [goal, hpc]; rfl
  have hleaves : (t.push callee).pc.leaves = false := by
    rw [Thread.push]
    cases t.published <;> rfl
  have hgoal' : (t.push callee).goal = t.stack ++ [callee] := by
    rw [goal, hleaves]
    rfl
  refine ⟨h.ready, fun other hw => ?_, h.found, fun y hy p hp => ?_, fun y _ => heven y,
    fun y method stores hw => ?_, fun y hy => ?_⟩
  · rw [Thread.push] at hw
    cases hpublished : t.published <;> rw [hpublished] at hw <;> exact (nomatch hw)
  · have howners : (t.push callee).owners = t.published :: t.owners := rfl
    rw [hgoal', List.length_append, howners] at hp
    obtain rfl | hold := List.mem_cons.mp hp
    · exact (h.found y hy).1
    · exact h.owners y hy p (hgoal ▸ hold)
  · rw [Thread.push] at hw
    cases hpublished : t.published with
    | none =>
        rw [hpublished] at hw
        exact (nomatch hw)
    | some slot =>
        rw [hpublished] at hw
        cases hw
        exact PublishedPyStack.stage_enter _ _ (heven y)
  · have hpublished := (h.found y hy).1
    have hupc : (t.push callee).pc =
        .writing y .enter (PublishedPyStack.enter (t.stack.length + 1) callee) := by
      rw [Thread.push, hpublished]
    have hholds : t.Holds y t.stack := by
      cases h.publishes y hy with
      | resting _ hholds => exact hgoal ▸ hholds
      | elsewhere _ _ _ hw => exact (nomatch hpc.symm.trans hw)
      | writing _ _ hw => exact (nomatch hpc.symm.trans hw)
    refine .writing .enter _ hupc (fun _ hlagging => ?_) ?_
    · change (t.slots y).Mirrors (t.stack ++ [callee]).dropLast
      rw [List.dropLast_concat]
      exact hholds.mirrors hlagging
    · rw [hgoal']
      exact PublishedPyStack.mirrors_enter hholds.frames callee

omit [DecidableEq S] in
theorem Inv.pop (h : t.Inv) (hpc : t.pc = .pop) :
    ({ t with stack := t.stack.dropLast, pc := .running } : Thread S).Inv := by
  have hgoal : t.goal = t.stack.dropLast := by rw [goal, hpc]; rfl
  refine ⟨h.ready, fun _ hw => (nomatch hw), h.found, fun y hy => ?_, fun y _ => ?_,
    fun _ _ _ hw => (nomatch hw), fun y hy => ?_⟩
  · have hold := h.owners y hy
    rw [hgoal] at hold
    exact hold
  · exact h.even y fun method stores hw => (nomatch hpc.symm.trans hw)
  · refine .resting (fun _ _ _ hw => (nomatch hw)) ?_
    cases h.publishes y hy with
    | resting _ hholds =>
        rw [hgoal] at hholds
        exact ⟨hholds.frames, hholds.mirrors⟩
    | elsewhere _ _ _ hw => exact (nomatch hpc.symm.trans hw)
    | writing _ _ hw => exact (nomatch hpc.symm.trans hw)

omit [DecidableEq S] in
theorem leaves_finish (slot : S) (method : Method) (stores : List Store) :
    (Pc.finish method : Pc S).leaves = (Pc.writing slot method stores).leaves := by
  cases method <;> rfl

/-- One store of a method, on the slot of the thread or on one that it had before a fork. -/
theorem Inv.store (h : t.Inv) {slot : S} {method : Method} {store : Store} {rest : List Store}
    (hpc : t.pc = .writing slot method (store :: rest)) : (t.store slot method store rest).Inv := by
  have hstage := h.stage slot method _ hpc
  have hfinished : rest = [] → (t.store slot method store rest).pc = .finish method :=
    fun hrest => if_pos hrest
  have hgoes : rest ≠ [] → (t.store slot method store rest).pc = .writing slot method rest :=
    fun hrest => if_neg hrest
  have hgoal : (t.store slot method store rest).goal = t.goal := by
    have hleaves : (t.store slot method store rest).pc.leaves = t.pc.leaves := by
      rw [hpc]
      by_cases hrest : rest = []
      · rw [hfinished hrest]
        exact leaves_finish slot method _
      · rw [hgoes hrest]
        cases method <;> rfl
    rw [goal, hleaves]
    rfl
  have hother (y : S) (hy : y ≠ slot) : (t.store slot method store rest).slots y = t.slots y :=
    Function.update_of_ne hy _ _
  have hself : (t.store slot method store rest).slots slot = (t.slots slot).perform store :=
    Function.update_self _ _ _
  refine ⟨h.ready, fun callee hw => ?_, h.found, fun y hy => ?_, fun y hrests => ?_,
    fun y m stores hw => ?_, fun y hy => ?_⟩
  · by_cases hrest : rest = []
    · rw [hfinished hrest] at hw
      cases method <;> exact (nomatch hw)
    · exact (nomatch (hgoes hrest).symm.trans hw)
  · rw [hgoal]
    exact h.owners y hy
  · by_cases hy : y = slot
    · subst hy
      rw [hself]
      obtain ⟨-, heven⟩ | ⟨hrest, -, -⟩ := hstage.perform
      · exact heven
      · exact (hrests method rest (hgoes hrest)).elim
    · rw [hother y hy]
      refine h.even y fun m stores hw => hy ?_
      rw [hpc] at hw
      cases hw
      rfl
  · obtain ⟨hrest, -⟩ | ⟨hrest, hnext, -⟩ := hstage.perform
    · rw [hfinished hrest] at hw
      cases method <;> exact (nomatch hw)
    · rw [hgoes hrest] at hw
      cases hw
      rw [hself]
      exact hnext
  · cases h.publishes y hy with
    | resting hrests => exact (hrests slot method _ hpc).elim
    | elsewhere z hz stores hw hempty hholds =>
        obtain ⟨rfl, rfl, rfl⟩ : slot = z ∧ method = .leave ∧ store :: rest = stores := by
          rw [hpc] at hw
          cases hw
          exact ⟨rfl, rfl, rfl⟩
        have hkept : (t.store slot .leave store rest).Holds y [] := by
          refine ⟨PublishedPyStack.Agrees.nil, fun hlagging => ?_⟩
          rw [hother y hz.symm]
          refine hholds.mirrors ?_
          have hne : ¬ t.found = some slot := fun heq => hz (Option.some.inj (heq.symm.trans hy))
          simpa [Thread.store, hne] using hlagging
        by_cases hrest : rest = []
        · refine .resting (fun x m stores hw => ?_) ?_
          · exact (nomatch (hfinished hrest).symm.trans hw)
          · have hnil : (t.store slot .leave store rest).goal = [] := by
              rw [hgoal, goal, hempty]
              split <;> rfl
            exact hnil ▸ hkept
        · exact .elsewhere slot hz rest (hgoes hrest) hempty hkept
    | writing m stores hw hbefore hfinal =>
        obtain ⟨rfl, rfl, rfl⟩ : slot = y ∧ method = m ∧ store :: rest = stores := by
          rw [hpc] at hw
          cases hw
          exact ⟨rfl, rfl, rfl⟩
        rw [PublishedPyStack.performs_cons] at hfinal
        obtain ⟨rfl, -⟩ | ⟨hrest, -, hhead⟩ := hstage.perform
        · refine .resting (fun x m stores hw => ?_) ⟨?_, fun _ => ?_⟩
          · rw [hfinished rfl] at hw
            cases method <;> exact (nomatch hw)
          · rw [hgoal, hself]
            exact hfinal.frames
          · rw [hgoal, hself]
            exact hfinal
        · refine .writing method rest (hgoes hrest) (fun heq => (hhead heq).elim) ?_
          rw [hgoal, hself]
          exact hfinal

theorem Inv.step (h : t.Inv) {event : Event S} (hok : t.Undisturbed event)
    (hstep : t.step event = some u) : u.Inv := by
  cases event with
  | call callee =>
      rw [Thread.step] at hstep
      split at hstep
      next hpc =>
        obtain rfl := Option.some.inj hstep
        exact h.call hpc callee
      · exact (nomatch hstep)
  | ret =>
      rw [Thread.step] at hstep
      split at hstep
      next hpc => exact h.ret hpc hstep
      · exact (nomatch hstep)
  | enableTracer =>
      rw [Thread.step] at hstep
      split at hstep
      next hpc =>
        obtain rfl := Option.some.inj hstep
        exact h.of_running hpc rfl rfl (fun _ hw => (nomatch hpc.symm.trans hw)) rfl rfl rfl rfl rfl
          (by rw [hpc]; rfl) (fun _ _ _ hw => (nomatch hpc.symm.trans hw)) rfl rfl
      · exact (nomatch hstep)
  | disableTracer own =>
      rw [Thread.step] at hstep
      split at hstep
      next hpc =>
        obtain rfl := Option.some.inj hstep
        exact h.disableTracer hpc own
      · exact (nomatch hstep)
  | fork registry =>
      rw [Thread.step] at hstep
      split at hstep
      · obtain rfl := Option.some.inj hstep
        exact h.fork registry
      · exact (nomatch hstep)
  | step =>
      rw [Thread.step, Thread.advance] at hstep
      split at hstep
      · exact (nomatch hstep)
      next callee hpc =>
        obtain rfl := Option.some.inj hstep
        refine h.registerPythonThreadSlot hpc fun hsome => hok ?_
        rw [hpc]
        exact hsome
      next callee hpc =>
        obtain rfl := Option.some.inj hstep
        exact h.push hpc
      next slot method store rest hpc =>
        obtain rfl := Option.some.inj hstep
        exact h.store hpc
      · exact (nomatch hstep)
      next hpc =>
        obtain rfl := Option.some.inj hstep
        exact h.pop hpc

end Thread

end Probing.Stacktrace.Published
