import Mathlib.Algebra.Order.Ring.Int
import Mathlib.Data.List.Basic

/-!
# The published Python stack

A thread mirrors its stack of eval-frames into a slot that others may copy at any time. Every
method of the slot is a list of stores, and a copy is a list of loads. The number of a version
is unbounded here; what a load of it returns wraps.

The eval-frame hook registers a slot once a process, pushes the frame, publishes it, evaluates it,
publishes its end and pops it. A frame that was entered without the hook returns without it, and a
frame ends in the slot that it began in.
-/

namespace Probing.Stacktrace.Published

def maxPy : ℕ := 128

structure PublishedPyStack where
  version : ℕ
  depth : ℕ
  frames : ℕ → ℕ

inductive Store where
  | fetchAdd
  | frame (index key : ℕ)
  | depth (depth : ℕ)
  | version
  deriving DecidableEq

/-- A store to what the version guards. -/
def Store.isPayload : Store → Bool
  | frame _ _ | depth _ => true
  | fetchAdd | version => false

namespace PublishedPyStack

def new : PublishedPyStack := ⟨0, 0, fun _ => 0⟩

def enter (depth callee : ℕ) : List Store :=
  Store.fetchAdd ::
    (if 0 < depth ∧ depth - 1 < maxPy then [Store.frame (depth - 1) callee] else []) ++
    [Store.depth depth, .version]

def leave (depth : ℕ) : List Store := [.fetchAdd, .depth depth, .version]

def clear : List Store :=
  Store.fetchAdd :: .depth 0 :: (List.range maxPy).map (fun index => Store.frame index 0) ++
    [Store.version]

/-- The last store of a method writes the version that `fetch_add` returned, plus two. -/
def perform (slot : PublishedPyStack) : Store → PublishedPyStack
  | .fetchAdd | .version => { slot with version := slot.version + 1 }
  | .frame index key => { slot with frames := Function.update slot.frames index key }
  | .depth depth => { slot with depth := depth }

def performs (slot : PublishedPyStack) (stores : List Store) : PublishedPyStack :=
  stores.foldl perform slot

def loadVersion (slot : PublishedPyStack) : ℕ := slot.version % 2 ^ 64

/-- The frames hold the outermost callees of a stack. -/
def Agrees (slot : PublishedPyStack) (stack : List ℕ) : Prop :=
  ∀ i < maxPy, ∀ key, stack[i]? = some key → slot.frames i = key

structure Mirrors (slot : PublishedPyStack) (stack : List ℕ) : Prop where
  depth : slot.depth = stack.length
  frames : slot.Agrees stack

variable {slot : PublishedPyStack} {stack : List ℕ} {stores : List Store}

theorem Agrees.of_frames {other : PublishedPyStack} (h : slot.Agrees stack)
    (hframes : other.frames = slot.frames) : other.Agrees stack := by
  intro i hi key hkey
  rw [hframes]
  exact h i hi key hkey

theorem Agrees.dropLast (h : slot.Agrees stack) : slot.Agrees stack.dropLast := by
  intro i hi key hkey
  rw [List.getElem?_dropLast] at hkey
  split at hkey
  · exact h i hi key hkey
  · exact (nomatch hkey)

theorem Agrees.nil : slot.Agrees [] := fun _ _ _ hkey => (nomatch hkey)

@[simp] theorem performs_nil : slot.performs [] = slot := rfl

@[simp] theorem performs_cons (store : Store) :
    slot.performs (store :: stores) = (slot.perform store).performs stores := rfl

theorem performs_append (others : List Store) :
    slot.performs (stores ++ others) = (slot.performs stores).performs others :=
  List.foldl_append

@[simp] theorem version_perform_of_payload {store : Store} (h : store.isPayload = true) :
    (slot.perform store).version = slot.version := by
  cases store with
  | frame _ _ => rfl
  | depth _ => rfl
  | _ => exact (nomatch h)

/-- The callee is stored at its depth and the depth after it. -/
theorem mirrors_enter (h : slot.Agrees stack) (callee : ℕ) :
    (slot.performs (enter (stack.length + 1) callee)).Mirrors (stack ++ [callee]) := by
  have hsmall : stack.length + 1 - 1 = stack.length := Nat.add_sub_cancel _ _
  rw [enter, hsmall]
  by_cases hlt : stack.length < maxPy
  · rw [if_pos ⟨Nat.succ_pos _, hlt⟩]
    refine ⟨by simp [perform], fun i hi key hkey => ?_⟩
    change Function.update slot.frames stack.length callee i = key
    by_cases heq : i = stack.length
    · subst heq
      rw [Function.update_self]
      simpa using hkey
    · rw [Function.update_of_ne heq]
      refine h i hi key ?_
      rw [List.getElem?_append] at hkey
      split at hkey
      · exact hkey
      next hge =>
        rw [List.getElem?_eq_none (by simp; omega)] at hkey
        exact (nomatch hkey)
  · rw [if_neg fun hboth => hlt hboth.2]
    refine ⟨by simp [perform], fun i hi key hkey => h i hi key ?_⟩
    rwa [List.getElem?_append_left (by omega)] at hkey

/-- The depth is stored, and the frames below it stay. -/
theorem mirrors_leave (h : slot.Agrees stack) :
    (slot.performs (leave (stack.length - 1))).Mirrors stack.dropLast where
  depth := by simp [leave, perform]
  frames := h.dropLast.of_frames rfl

theorem depth_version (slot : PublishedPyStack) :
    (slot.performs [.version]).depth = slot.depth := rfl

theorem depth_frames (indices : List ℕ) :
    (slot.performs (indices.map fun index => .frame index 0)).depth = slot.depth := by
  induction indices generalizing slot with
  | nil => rfl
  | cons i indices ih => exact ih

theorem mirrors_clear : (slot.performs clear).Mirrors [] where
  depth := by
    rw [clear, List.cons_append, List.cons_append, performs_cons, performs_cons, performs_append,
      depth_version, depth_frames]
    rfl
  frames := Agrees.nil

/-- What a method still has to store: it starts with the version and ends with it. -/
inductive Stage (slot : PublishedPyStack) : List Store → Prop
  | waiting (payload : List Store) (hpayload : ∀ store ∈ payload, store.isPayload = true)
      (heven : slot.version % 2 = 0) : slot.Stage (.fetchAdd :: payload ++ [.version])
  | storing (payload : List Store) (hpayload : ∀ store ∈ payload, store.isPayload = true)
      (hodd : slot.version % 2 = 1) : slot.Stage (payload ++ [.version])

theorem stage_enter (depth callee : ℕ) (heven : slot.version % 2 = 0) :
    slot.Stage (enter depth callee) := by
  rw [enter]
  split
  · exact .waiting [.frame (depth - 1) callee, .depth depth] (by simp [Store.isPayload]) heven
  · exact .waiting [.depth depth] (by simp [Store.isPayload]) heven

theorem stage_leave (depth : ℕ) (heven : slot.version % 2 = 0) : slot.Stage (leave depth) :=
  .waiting [.depth depth] (by simp [Store.isPayload]) heven

theorem stage_clear (heven : slot.version % 2 = 0) : slot.Stage clear :=
  .waiting (.depth 0 :: (List.range maxPy).map fun index => .frame index 0)
    (by simp [Store.isPayload]) heven

end PublishedPyStack

/-- A frame under evaluation; a tracked one knows the slot that it was published in, if any. -/
inductive Frame (S : Type) where
  | untracked
  | tracked (published : Option S)
  deriving DecidableEq

/-- The method of the slot that a thread performs. -/
inductive Method where
  | clear (callee : ℕ)
  | enter
  | leave
  deriving DecidableEq

inductive Pc (S : Type) where
  | running
  | register (callee : ℕ)
  | push (callee : ℕ)
  | writing (slot : S) (method : Method) (stores : List Store)
  | pop
  deriving DecidableEq

/-- What the thread does after the method. -/
def Pc.finish {S : Type} : Method → Pc S
  | .clear callee => push callee
  | .enter => running
  | .leave => pop

/-- The tracked stack and what is published of it differ by one frame. -/
def Pc.between {S : Type} : Pc S → Bool
  | writing _ .enter stores => stores.head? = some .fetchAdd
  | pop => true
  | _ => false

/-- `registry` is the slot that the registry of the process has for the thread, if it is not full;
`ready` tells whether that registry was built for the process, `found` what a lookup of the thread
finds in it, and `current` whether `published_pid` is the process. No branch reads `lagging`:
frames were dropped that are still published. -/
structure Thread (S : Type) where
  enabled : Bool
  ready : Bool
  registry : Option S
  found : Option S
  published : Option S
  current : Bool
  stack : List ℕ
  frames : List (Frame S)
  pc : Pc S
  slots : S → PublishedPyStack
  lagging : Bool

inductive Event (S : Type) where
  | call (callee : ℕ)
  | ret
  | enableTracer
  | disableTracer (own : Bool)
  | fork (registry : Option S)
  | step
  deriving DecidableEq

namespace Thread

variable {S : Type} [DecidableEq S]

def new (registry : Option S) : Thread S where
  enabled := false
  ready := false
  registry := registry
  found := none
  published := none
  current := false
  stack := []
  frames := []
  pc := .running
  slots := fun _ => .new
  lagging := false

/-- What is published is the tracked stack, unless a method is at work. -/
def synced (t : Thread S) : Bool := !t.lagging && !t.pc.between

/-- `ensure_registry_process` and the rest of `register_python_thread_slot`. -/
def registerPythonThreadSlot (t : Thread S) (callee : ℕ) : Thread S :=
  let u := { t with
    ready := true
    slots := if t.ready then t.slots else fun slot => (t.slots slot).performs PublishedPyStack.clear
    published := t.registry
    current := true
    pc := .push callee }
  match t.registry with
  | none => u
  | some slot =>
      if t.found = some slot then u
      else { u with
        found := some slot
        pc := .writing slot (.clear callee) PublishedPyStack.clear
        lagging := false }

/-- The frame is pushed, and about to be entered in the slot. -/
def push (t : Thread S) (callee : ℕ) : Thread S :=
  { t with
    stack := t.stack ++ [callee]
    frames := .tracked t.published :: t.frames
    pc := match t.published with
      | some slot => .writing slot .enter (PublishedPyStack.enter (t.stack.length + 1) callee)
      | none => .running }

/-- One store of a method. -/
def store (t : Thread S) (slot : S) (method : Method) (store : Store) (rest : List Store) :
    Thread S :=
  { t with
    slots := Function.update t.slots slot ((t.slots slot).perform store)
    pc := if rest = [] then .finish method else .writing slot method rest
    lagging := t.lagging && !(store = .fetchAdd ∧ t.found = some slot : Bool) }

/-- The next access of the thread. -/
def advance (t : Thread S) : Option (Thread S) :=
  match t.pc with
  | .running => none
  | .register callee => some (t.registerPythonThreadSlot callee)
  | .push callee => some (t.push callee)
  | .writing slot method (store :: rest) => some (t.store slot method store rest)
  | .writing _ _ [] => none
  | .pop => some { t with stack := t.stack.dropLast, pc := .running }

/-- `rust_eval_frame` up to its first access, or the evaluation of a frame without it. -/
def call (t : Thread S) (callee : ℕ) : Thread S :=
  if ¬ t.enabled then { t with frames := .untracked :: t.frames }
  else { t with pc := if t.published = none ∨ ¬ t.current then .register callee else .push callee }

/-- The end of an evaluation. -/
def ret (t : Thread S) : Option (Thread S) :=
  match t.frames with
  | [] => none
  | .untracked :: rest => some { t with frames := rest }
  | .tracked published :: rest => some { t with
      frames := rest
      pc := match published with
        | some slot => .writing slot .leave (PublishedPyStack.leave (t.stack.length - 1))
        | none => .pop }

/-- On the thread itself or on another one, which has a stack of its own. -/
def disableTracer (t : Thread S) (own : Bool) : Thread S :=
  if ¬ t.enabled then t
  else if own then
    { t with enabled := false, stack := [], lagging := t.lagging || !t.stack.isEmpty }
  else { t with enabled := false }

/-- The child of a fork, whose registry will have the given slot for the thread. -/
def fork (t : Thread S) (registry : Option S) : Thread S :=
  { t with ready := false, registry := registry, found := none, current := false }

/-- While it evaluates a frame, a thread may do anything but go on. -/
def step (t : Thread S) : Event S → Option (Thread S)
  | .call callee => if t.pc = .running then some (t.call callee) else none
  | .ret => if t.pc = .running then t.ret else none
  | .enableTracer => if t.pc = .running then some { t with enabled := true } else none
  | .disableTracer own => if t.pc = .running then some (t.disableTracer own) else none
  | .fork registry => if t.pc = .running then some (t.fork registry) else none
  | .step => t.advance

end Thread

/-- A copy under way. No branch reads the last three fields: the number of the version that was
loaded, the tracked stack at every instant since, and whether it was published at one of them. -/
structure Copy (S : Type) where
  slot : S
  version : ℕ
  depth : Option ℕ
  out : List ℕ
  start : ℕ
  during : List (List ℕ)
  settled : Bool

/-- What a copy returned, with the tracked stacks of its time. -/
structure Report where
  keys : List ℕ
  truncated : Bool
  stable : Bool
  during : List (List ℕ)
  deriving DecidableEq

/-- The last access of a copy is the second load of the version. -/
def Copy.isLast {S : Type} (c : Copy S) : Bool :=
  match c.depth with
  | none => false
  | some depth => min depth maxPy ≤ c.out.length

structure State (S R : Type) where
  thread : Thread S
  copies : R → Option (Copy S)
  reports : List Report

inductive Action (S R : Type) where
  | thread (event : Event S)
  | copy (r : R)
  | read (r : R)
  deriving DecidableEq

namespace State

variable {S R : Type} [DecidableEq S] [DecidableEq R]

def new (registry : Option S) : State S R := ⟨.new registry, fun _ => none, []⟩

/-- The first access of `copy_into`, on the slot that a lookup of the thread finds. -/
def copy (s : State S R) (r : R) (slot : S) : State S R :=
  let published := s.thread.slots slot
  if published.loadVersion % 2 ≠ 0 then
    { s with reports := s.reports ++ [⟨[], false, false, [s.thread.stack]⟩] }
  else { s with copies := Function.update s.copies r (some
    ⟨slot, published.loadVersion, none, [], published.version, [s.thread.stack],
      s.thread.synced⟩) }

/-- The next access of a copy. -/
def read (s : State S R) (r : R) (c : Copy S) : State S R :=
  let published := s.thread.slots c.slot
  match c.depth with
  | none => { s with copies := Function.update s.copies r (some
      { c with depth := some published.depth }) }
  | some depth =>
      if c.out.length < min depth maxPy then
        { s with copies := Function.update s.copies r (some
          { c with out := c.out ++ [published.frames c.out.length] }) }
      else
        { s with
          copies := Function.update s.copies r none
          reports := s.reports ++
            [⟨c.out, maxPy < depth, published.loadVersion = c.version, c.during⟩] }

/-- Every copy sees the tracked stack after an event of the thread. The readers of a process are not
in its child. -/
def happens (s : State S R) (event : Event S) (t : Thread S) : State S R :=
  { s with
    thread := t
    copies := fun r => match event with
      | .fork _ => none
      | _ => (s.copies r).map fun c =>
          { c with during := c.during ++ [t.stack], settled := c.settled || t.synced } }

def step (s : State S R) : Action S R → Option (State S R)
  | .thread event => (s.thread.step event).map (s.happens event)
  | .copy r =>
      match s.copies r, s.thread.found with
      | none, some slot => some (s.copy r slot)
      | _, _ => none
  | .read r => (s.copies r).map (s.read r)

end State

end Probing.Stacktrace.Published
