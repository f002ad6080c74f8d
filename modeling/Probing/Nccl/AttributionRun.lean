import Probing.Nccl.Attribution
import Probing.Nccl.RowConservation

/-!
# Attribution over a run

A run in which no parent's slot has been used again attributes every event to its parent. A
handle does not tell whose slot it points to, so a child that is started with the handle of an
earlier coll belongs to the coll that has the slot by then.
-/

namespace Probing.Nccl

open Probing.Core

variable {S : Setting}

namespace Run

variable {r r' : Run}

/-- The event that has just started. -/
theorem ownerOf_new (events : List Event) (event : Event) :
    ownerOf (events ++ [event]) events.length = some event.owner := by
  rw [ownerOf, List.getElem?_concat_length, Option.map_some]

theorem eventOf_new (events : List Event) (event : Event) :
    eventOf (events ++ [event]) events.length = some event.event := by
  rw [eventOf, List.getElem?_concat_length, Option.map_some]

/-- If the slot is still the parent's, then its event is the owner. -/
theorem filter_owner {T : Type} {number : T → ℕ} {parent : Option ℕ} {found : Option T}
    (h : ∀ v ∈ found, parent = some (number v)) :
    (parent.filter fun id => found.any (number · == id)) = found.map number := by
  cases found with
  | none => cases parent <;> rfl
  | some v =>
      rw [h v rfl, Option.filter_some]
      simp

theorem proxyAt_of_handle {parent : Option ℕ} {handle : Handle}
    (h : r.handleOf parent = some handle) :
    r.proxyAt parent = handle.asProxyOp.bind r.pools.proxyPool.get := by
  rw [proxyAt, h, Option.bind_some]

/-- An event starts, and is attributed to its parent. -/
theorem attributed_start (h : r.pools.Attributed r.events) (hsound : r.pools.Sound)
    {event : ParsedEvent (Option ℕ)} {now : ℤ} (hunreused : r.Unreused (.startEvent event now))
    {passed : ParsedEvent Handle} (hpassed : event.resolve r.handleOf = some passed)
    (handle : Handle) :
    (r.pools.startEvent S r.events.length passed now).1.Attributed
      (r.events ++ [⟨event, handle, r.owner event⟩]) := by
  have hnew : r.pools.Attributed (r.events ++ [⟨event, handle, r.owner event⟩]) := h.append
  have howner := ownerOf_new r.events ⟨event, handle, r.owner event⟩
  have hevent := eventOf_new r.events ⟨event, handle, r.owner event⟩
  cases event with
  | Coll ctx perfMeta =>
      cases hpassed
      exact hnew.startColl hsound hevent now
  | ProxyOp parent rank channelId peer nSteps isSend =>
      obtain ⟨passed, hparent, rfl⟩ := Option.map_eq_some_iff.mp hpassed
      refine hnew.startProxyOp hsound hevent ?_ now
      rw [howner, ← collAt_of_handle hparent]
      exact congrArg some (filter_owner hunreused)
  | ProxyStep parent step =>
      obtain ⟨passed, hparent, rfl⟩ := Option.map_eq_some_iff.mp hpassed
      refine hnew.startProxyStep hsound (fun hfree => ?_) step now
      rw [howner, ← proxyAt_of_handle hparent]
      exact congrArg some (filter_owner (hunreused hfree))
  | KernelCh parent channelId gpuStartPtimer =>
      obtain ⟨passed, hparent, rfl⟩ := Option.map_eq_some_iff.mp hpassed
      refine hnew.startKernelCh hsound ?_ channelId gpuStartPtimer now
      rw [howner, ← collAt_of_handle hparent]
      exact congrArg some (filter_owner hunreused)
  | NetPlugin rank qp =>
      cases hpassed
      exact hnew.startNetPlugin hsound r.events.length rank qp now
  | Group =>
      cases hpassed
      exact hnew
  | Ignored =>
      cases hpassed
      exact hnew

/-- Every event finds its parent, and the parent can count it. -/
def Orderly (r : Run) (call : Call) : Prop := r.Counted call ∧ r.Unreused call

theorem attributed_step (h : r.Inv ∧ r.pools.Attributed r.events) {call : Call}
    (hok : r.Orderly call) (hstep : r.step S call = some r') :
    r'.Inv ∧ r'.pools.Attributed r'.events := by
  refine ⟨inv_step h.1 hok.1 hstep, ?_⟩
  obtain ⟨⟨hsound, hlinked, -⟩, hown⟩ := h
  cases call with
  | startEvent event now =>
      obtain ⟨passed, hpassed, rfl⟩ := Option.map_eq_some_iff.mp hstep
      exact attributed_start hown hsound hok.2 hpassed _
  | recordState id state args now =>
      obtain ⟨handle, -, rfl⟩ := Option.map_eq_some_iff.mp hstep
      exact hown.recordState handle state args now
  | stopEvent id now =>
      obtain ⟨handle, hhandle, rfl⟩ := Option.map_eq_some_iff.mp hstep
      have hunreused := hok.2
      simp only [Unreused, stepAt, hhandle, Option.bind_some] at hunreused
      cases handle with
      | null => exact hown
      | group => exact hown
      | coll ptr => exact hown.stopColl ptr now
      | proxyOp ptr => exact hown.stopProxyOp hsound hlinked ptr now
      | proxyStep ptr => exact hown.stopProxyStep hsound hunreused now
      | kernelCh ptr => exact hown.stopKernelCh hlinked ptr now
      | net ptr => exact hown.stopNetPlugin ptr now
  | collectInflight min_age_ns now =>
      obtain rfl := Option.some.inj hstep
      exact hown.same (hown.toRowsOwn.drain _) (Pools.moves_drain _).toSameChildren
  | drainPending =>
      obtain rfl := Option.some.inj hstep
      exact hown.same (hown.toRowsOwn.drain _) (Pools.moves_drain _).toSameChildren

theorem attributed_new (limits : PoolLimits) : (Pools.new limits).Attributed [] where
  colls idx _ hv := (nomatch (SlotPool.get_withCapacity limits.coll idx).symm.trans hv)
  collRows _ hrow := (nomatch hrow)
  op_rows _ hrow := (nomatch hrow)
  ops idx _ hv := (nomatch (SlotPool.get_withCapacity limits.proxyOp idx).symm.trans hv)
  steps idx _ hv := (nomatch (SlotPool.get_withCapacity limits.proxyStep idx).symm.trans hv)
  kernels idx _ hv := (nomatch (SlotPool.get_withCapacity limits.kernelCh idx).symm.trans hv)

/-- As long as no slot of a parent is used again, everything belongs to its parent. -/
theorem attributed_run (S : Setting) (coll proxyOp proxyStep kernelCh net : Option ℕ)
    (shards : ℕ) {calls : List Call} {r : Run}
    (horderly : Meets (step S) Orderly
      (new (configured coll proxyOp proxyStep kernelCh net shards)) calls)
    (hrun : exec (step S) (new (configured coll proxyOp proxyStep kernelCh net shards)) calls =
      some r) : r.pools.Attributed r.events := by
  have hstart : (fun r : Run => r.Inv ∧ r.pools.Attributed r.events)
      (new (configured coll proxyOp proxyStep kernelCh net shards)) :=
    ⟨inv_configured coll proxyOp proxyStep kernelCh net shards, attributed_new _⟩
  exact (exec_invariant (fun r call r' hinv hok => attributed_step hinv hok) hstart horderly
    hrun).2

instance (r : Run) (call : Call) : Decidable (r.Unreused call) :=
  match call with
  | .startEvent (.ProxyOp _ _ _ _ _ _) _ => inferInstanceAs (Decidable (∀ coll ∈ _, _))
  | .startEvent (.KernelCh _ _ _) _ => inferInstanceAs (Decidable (∀ coll ∈ _, _))
  | .startEvent (.ProxyStep _ _) _ => inferInstanceAs (Decidable (_ → ∀ proxy ∈ _, _))
  | .startEvent (.Coll _ _) _ => .isTrue trivial
  | .startEvent (.NetPlugin _ _) _ => .isTrue trivial
  | .startEvent .Group _ => .isTrue trivial
  | .startEvent .Ignored _ => .isTrue trivial
  | .stopEvent _ _ => inferInstanceAs (Decidable (∀ slot ∈ _, ∀ proxy ∈ _, _))
  | .recordState _ _ _ _ => .isTrue trivial
  | .collectInflight _ _ => .isTrue trivial
  | .drainPending => .isTrue trivial

instance (r : Run) (call : Call) : Decidable (r.Orderly call) :=
  inferInstanceAs (Decidable (_ ∧ _))

theorem attributed_run_exchange :
    ∃ r, exec (step ⟨0, 0⟩) (new (configured none none none none none 64)) exchange = some r ∧
      r.pools.Attributed r.events := by
  have hrun : (exec (step ⟨0, 0⟩) (new (configured none none none none none 64))
      exchange).isSome = true := by decide +kernel
  obtain ⟨r, hr⟩ := Option.isSome_iff_exists.mp hrun
  exact ⟨r, hr, attributed_run ⟨0, 0⟩ none none none none none 64 (by decide +kernel) hr⟩

/-- Event 0 is a coll that is stopped, and event 1 gets its slot. A proxy op is started with the
handle of event 0 and belongs to event 1. -/
def succession : List Call :=
  [.startEvent (.Coll ⟨0, 1, 2, 0, []⟩ ⟨false, -1, 1024, 4096, [], [], [], 1⟩) 1,
    .stopEvent 0 2,
    .startEvent (.Coll ⟨0, 1, 2, 1, []⟩ ⟨false, -1, 1024, 4096, [], [], [], 1⟩) 3,
    .startEvent (.ProxyOp (some 0) 0 0 1 4 1) 4, .stopEvent 2 5, .stopEvent 1 6]

theorem succeeded_run :
    ∃ r, exec (step ⟨0, 0⟩) (new (configured none none none none none 64)) succession = some r ∧
      ¬ r.pools.Attributed r.events := by
  have hrun : (exec (step ⟨0, 0⟩) (new (configured none none none none none 64)) succession).map
      (fun r => (r.pools.batch.proxyOps.map fun row => (row.id, row.parent, row.seq),
        ownerOf r.events 2)) = some ([(2, some 1, 1)], some none) := by decide
  obtain ⟨r, hr, heq⟩ := Option.map_eq_some_iff.mp hrun
  obtain ⟨hrows, howner⟩ := Prod.mk.inj heq
  refine ⟨r, hr, fun hown => ?_⟩
  have hmem : (2, some 1, 1) ∈ r.pools.batch.proxyOps.map fun row =>
      (row.id, row.parent, row.seq) := by
    rw [hrows]
    exact List.mem_singleton_self _
  obtain ⟨row, hrow, hfields⟩ := List.mem_map.mp hmem
  obtain ⟨hid, hparent, -⟩ : row.id = 2 ∧ row.parent = some 1 ∧ row.seq = 1 := by
    simpa using hfields
  have hrow := (hown.op_rows row hrow).parent
  rw [hid, howner, hparent] at hrow
  exact (nomatch hrow)

end Run

end Probing.Nccl
