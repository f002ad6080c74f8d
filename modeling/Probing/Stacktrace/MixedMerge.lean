import Probing.Stacktrace.Frames

/-!
# One stack from a Python and a native one

The native walk starts at the leaf, the Python frames at the outermost one. The merge walks the
native frames and puts the innermost Python frame that is left in the place of every eval frame;
Python frames that are left at the end become the root of the result.
-/

namespace Probing.Stacktrace

open CallFrame

variable {Value : Type*}

/-- One frame of the walk: what is merged so far, and how many Python frames are placed. -/
def spliceStep (py_inner_to_outer : List (CallFrame Value)) (st : List (CallFrame Value) × ℕ)
    (frame : CallFrame Value) : List (CallFrame Value) × ℕ :=
  match frame.mergeAction with
  | .Drop => st
  | .SplicePython => (st.1 ++ [py_inner_to_outer[st.2]?.getD frame], st.2 + 1)
  | .KeepNative => (st.1 ++ [frame], st.2)

def mergePythonNativeStacks (python_outer_to_inner native_leaf_to_root : List (CallFrame Value)) :
    List (CallFrame Value) :=
  if native_leaf_to_root.isEmpty then python_outer_to_inner
  else if python_outer_to_inner.isEmpty then
    ((native_leaf_to_root.filter fun f => !f.isInterpShim).filter fun f =>
      !isInterpreterStartupNative f.frameSymbol).reverse
  else
    let py_inner_to_outer := python_outer_to_inner.reverse
    let eval_count := (native_leaf_to_root.filter isEvalFrame).length
    if 0 < eval_count then
      let (merged, pi) := native_leaf_to_root.foldl (spliceStep py_inner_to_outer) ([], 0)
      let merged :=
        if pi < py_inner_to_outer.length then merged ++ py_inner_to_outer.drop pi else merged
      merged.reverse
    else python_outer_to_inner

def mergePythonNativeStacksBestEffort
    (python_outer_to_inner native_leaf_to_root : List (CallFrame Value)) : List (CallFrame Value) :=
  if native_leaf_to_root.any isEvalFrame then
    mergePythonNativeStacks python_outer_to_inner native_leaf_to_root
  else
    python_outer_to_inner ++
      (native_leaf_to_root.filter fun f => f.mergeAction == .KeepNative).reverse

/-- The frames of the walk that a merge keeps or replaces. Without Python frames only the shim and
start-up frames are dropped. -/
def kept (python native : List (CallFrame Value)) : List (CallFrame Value) :=
  native.filter fun f =>
    if python.isEmpty then !f.isInterpShim && !f.isStartup else f.mergeAction != .Drop

/-- Frames with the `k`-th eval frame replaced by the `k`-th Python frame, as long as there is
one. -/
def splice (inner : List (CallFrame Value)) : ℕ → List (CallFrame Value) → List (CallFrame Value)
  | _, [] => []
  | k, f :: fs =>
      if f.isEvalFrame then inner[k]?.getD f :: splice inner (k + 1) fs
      else f :: splice inner k fs

section Splice

variable {python native inner fs : List (CallFrame Value)} {k : ℕ}

@[simp] theorem length_splice : (splice inner k fs).length = fs.length := by
  induction fs generalizing k with
  | nil => rfl
  | cons f fs ih =>
      unfold splice
      split_ifs <;> simp [ih]

/-- A frame that is no eval frame stays; an eval frame is replaced by the Python frame whose number
is the number of eval frames before it. -/
theorem getElem?_splice (i : ℕ) : (splice inner k fs)[i]? = fs[i]?.map fun f =>
    if f.isEvalFrame then inner[k + (fs.take i).countP isEvalFrame]?.getD f else f := by
  induction fs generalizing k i with
  | nil => simp [splice]
  | cons f fs ih =>
      unfold splice
      cases i with
      | zero => split_ifs with heval <;> simp [heval]
      | succ i =>
          split_ifs with heval
          · rw [List.getElem?_cons_succ, List.getElem?_cons_succ, ih]
            simp only [List.take_succ_cons, List.countP_cons, heval, if_true]
            congr 1
            funext g
            rw [Nat.add_assoc, Nat.add_comm 1]
          · rw [List.getElem?_cons_succ, List.getElem?_cons_succ, ih]
            simp only [List.take_succ_cons, List.countP_cons, heval, Bool.false_eq_true, if_false,
              Nat.add_zero]

/-- The Python frames of a splice are the next ones, one for every eval frame. -/
theorem filter_python_splice (hinner : ∀ f ∈ inner, f.isPython = true)
    (hfs : ∀ f ∈ fs, f.isPython = false) :
    (splice inner k fs).filter isPython = (inner.drop k).take (fs.countP isEvalFrame) := by
  induction fs generalizing k with
  | nil => simp [splice]
  | cons f fs ih =>
      obtain ⟨hf, hfs⟩ := List.forall_mem_cons.mp hfs
      unfold splice
      by_cases heval : f.isEvalFrame = true
      · rw [if_pos heval, List.countP_cons_of_pos heval]
        cases hget : inner[k]? with
        | none =>
            have hlen : inner.length ≤ k := List.getElem?_eq_none_iff.mp hget
            rw [Option.getD_none, List.filter_cons_of_neg (by simp [hf]), ih hfs,
              List.drop_eq_nil_of_le hlen, List.drop_eq_nil_of_le (Nat.le_succ_of_le hlen),
              List.take_nil, List.take_nil]
        | some py =>
            obtain ⟨hk, hpy⟩ := List.getElem?_eq_some_iff.mp hget
            have hpython : py.isPython = true := hinner py (hpy ▸ List.getElem_mem hk)
            rw [Option.getD_some, List.filter_cons_of_pos hpython, ih hfs,
              List.drop_eq_getElem_cons hk, hpy, List.take_succ_cons]
      · rw [if_neg heval, List.countP_cons_of_neg heval, List.filter_cons_of_neg (by simp [hf]),
          ih hfs]

theorem filter_cons_sublist {α : Type*} {p : α → Bool} {x : α} {xs ys : List α}
    (h : (xs.filter p).Sublist ys) : ((x :: xs).filter p).Sublist (x :: ys) := by
  rw [List.filter_cons]
  split_ifs
  · exact h.cons_cons x
  · exact h.cons x

/-- The native frames of a splice are frames of the walk, in its order. -/
theorem filter_native_splice (hinner : ∀ f ∈ inner, f.isPython = true) :
    ((splice inner k fs).filter fun f => !f.isPython).Sublist fs := by
  induction fs generalizing k with
  | nil => exact List.Sublist.refl []
  | cons f fs ih =>
      unfold splice
      split_ifs with heval
      · cases hget : inner[k]? with
        | none => exact filter_cons_sublist (ih (k := k + 1))
        | some py =>
            obtain ⟨hk, hpy⟩ := List.getElem?_eq_some_iff.mp hget
            have hpython : py.isPython = true := hinner py (hpy ▸ List.getElem_mem hk)
            rw [Option.getD_some, List.filter_cons_of_neg (by simp [hpython])]
            exact (ih (k := k + 1)).cons f
      · exact filter_cons_sublist (ih (k := k))

/-- The loop of the merge is a splice of the frames that are not dropped. -/
theorem foldl_spliceStep (merged : List (CallFrame Value)) :
    fs.foldl (spliceStep inner) (merged, k) =
      (merged ++ splice inner k (fs.filter fun f => f.mergeAction != .Drop),
        k + (fs.filter fun f => f.mergeAction != .Drop).countP isEvalFrame) := by
  induction fs generalizing merged k with
  | nil => simp [splice]
  | cons f fs ih =>
      have heval := eval_not_drop f
      rw [List.foldl_cons]
      cases haction : f.mergeAction with
      | Drop =>
          rw [List.filter_cons_of_neg (by simp [haction]), ← ih]
          simp only [spliceStep, haction]
      | KeepNative =>
          have hnot : f.isEvalFrame = false := by simpa [haction] using heval
          rw [List.filter_cons_of_pos (by simp [haction]),
            List.countP_cons_of_neg (by simp [hnot])]
          simp only [spliceStep, haction, splice, hnot, Bool.false_eq_true, if_false]
          rw [ih, List.append_assoc, List.singleton_append]
      | SplicePython =>
          have his : f.isEvalFrame = true := by simpa [haction] using heval
          rw [List.filter_cons_of_pos (by simp [haction]), List.countP_cons_of_pos his]
          simp only [spliceStep, haction, splice, his, if_true]
          rw [ih, List.append_assoc, List.singleton_append, Nat.add_assoc, Nat.add_comm 1]

end Splice

section Merge

variable {python native : List (CallFrame Value)}

theorem kept_sublist : (kept python native).Sublist native := List.filter_sublist

/-- No eval frame is lost but the dropped ones. -/
theorem kept_eval : (kept python native).filter isEvalFrame =
    native.filter fun f => f.isEvalFrame && f.mergeAction != .Drop := by
  unfold kept
  rw [List.filter_filter]
  apply List.filter_congr
  intro f _
  by_cases hempty : python.isEmpty = true
  · rw [if_pos hempty, eval_not_drop]
    have hsplice := @mergeAction_eq_splice _ f
    cases hs : f.isInterpShim <;> cases hu : f.isStartup <;> cases he : f.isEvalFrame <;>
      simp [hs, hu, he] at hsplice ⊢ <;> exact hsplice
  · rw [if_neg hempty]

/-- From the leaf, a merged walk with an eval frame is the splice of the kept frames and then the
Python frames that are left. -/
theorem merge_eq (heval : ∃ f ∈ native, f.isEvalFrame = true) :
    (mergePythonNativeStacks python native).reverse =
      splice python.reverse 0 (kept python native) ++
        python.reverse.drop ((kept python native).countP isEvalFrame) := by
  obtain ⟨f, hf, hfeval⟩ := heval
  unfold mergePythonNativeStacks kept
  have hnative : native.isEmpty = false := List.isEmpty_eq_false_iff.mpr (List.ne_nil_of_mem hf)
  rw [if_neg (by simp [hnative])]
  by_cases hpython : python.isEmpty = true
  · obtain rfl := List.isEmpty_iff.mp hpython
    have hnil : ∀ (k : ℕ) (fs : List (CallFrame Value)), splice [] k fs = fs := by
      intro k fs
      induction fs generalizing k with
      | nil => rfl
      | cons g fs ih => simp [splice, ih]
    simp only [List.isEmpty_nil, if_true, List.reverse_reverse, List.reverse_nil, List.drop_nil,
      List.append_nil, hnil, List.filter_filter]
    apply List.filter_congr
    intro g _
    rw [Bool.and_comm]
    rfl
  · have hcount : 0 < (native.filter isEvalFrame).length :=
      List.length_pos_of_mem (List.mem_filter.mpr ⟨hf, hfeval⟩)
    simp only [if_neg hpython, if_pos hcount]
    rw [foldl_spliceStep]
    simp only [List.nil_append, Nat.zero_add, List.reverse_reverse]
    split_ifs with hleft
    · rfl
    · rw [List.drop_eq_nil_of_le (Nat.le_of_not_lt hleft), List.append_nil]

/-- The promise about one merged stack. -/
structure Mixed (python native out : List (CallFrame Value)) : Prop where
  /-- The Python frames are the given ones in their order. -/
  python_exact : out.filter isPython = python
  /-- The native frames are frames of the walk, from the root to the leaf. -/
  native_order : (out.filter fun f => !f.isPython).Sublist native.reverse
  /-- In a walk with eval frames, seen from the leaf: the kept frames in their places, the eval
  frames among them replaced one by one from the innermost Python frame on. -/
  spliced : (∃ f ∈ native, f.isEvalFrame = true) → ∃ kept : List (CallFrame Value),
    kept.Sublist native ∧
    kept.filter isEvalFrame =
      (native.filter fun f => f.isEvalFrame && f.mergeAction != .Drop) ∧
    (∀ i, i < kept.length → out.reverse[i]? = kept[i]?.map fun f =>
      if f.isEvalFrame then python.reverse[(kept.take i).countP isEvalFrame]?.getD f else f) ∧
    out.reverse.drop kept.length = python.reverse.drop (kept.countP isEvalFrame)

/-- A merged stack is mixed if, with an eval frame in the walk, it is the splice. -/
theorem mixed_of_eval (hpython : ∀ f ∈ python, f.isPython = true)
    (hnative : ∀ f ∈ native, f.isPython = false)
    (heval : ∃ f ∈ native, f.isEvalFrame = true) :
    Mixed python native (mergePythonNativeStacks python native) := by
  have hout : (mergePythonNativeStacks python native).reverse = _ := merge_eq heval
  have hinner : ∀ f ∈ python.reverse, f.isPython = true :=
    fun f hf => hpython f (List.mem_reverse.mp hf)
  have hkept : ∀ f ∈ kept python native, f.isPython = false :=
    fun f hf => hnative f (kept_sublist.mem hf)
  have hrest : ∀ f ∈ python.reverse.drop ((kept python native).countP isEvalFrame),
      f.isPython = true := fun f hf => hinner f (List.mem_of_mem_drop hf)
  rw [List.reverse_eq_iff] at hout
  refine ⟨?_, ?_, fun _ => ⟨kept python native, kept_sublist, kept_eval, fun i hi => ?_, ?_⟩⟩
  · rw [hout, List.filter_reverse, List.filter_append, filter_python_splice hinner hkept,
      List.filter_eq_self.mpr hrest, List.drop_zero, List.take_append_drop, List.reverse_reverse]
  · have hnone : (python.reverse.drop ((kept python native).countP isEvalFrame)).filter
        (fun f => !f.isPython) = [] :=
      List.filter_eq_nil_iff.mpr fun f hf => by simp [hrest f hf]
    rw [hout, List.filter_reverse, List.filter_append, hnone, List.append_nil]
    exact ((filter_native_splice hinner).trans kept_sublist).reverse
  · rw [hout, List.reverse_reverse, List.getElem?_append_left (by simpa using hi),
      getElem?_splice]
    simp only [Nat.zero_add]
  · rw [hout, List.reverse_reverse, List.drop_append, length_splice, Nat.sub_self, List.drop_zero]
    simp

/-- Without an eval frame the plain merge keeps one of the two stacks. -/
theorem mixed_plain (hpython : ∀ f ∈ python, f.isPython = true)
    (hnative : ∀ f ∈ native, f.isPython = false)
    (heval : ¬ ∃ f ∈ native, f.isEvalFrame = true) :
    Mixed python native (mergePythonNativeStacks python native) := by
  have hself : Mixed python native python := by
    refine ⟨List.filter_eq_self.mpr hpython, ?_, fun h => absurd h heval⟩
    rw [List.filter_eq_nil_iff.mpr fun f hf => by simp [hpython f hf]]
    exact List.nil_sublist _
  unfold mergePythonNativeStacks
  by_cases hn : native.isEmpty = true
  · rw [if_pos hn]
    exact hself
  · rw [if_neg hn]
    by_cases hp : python.isEmpty = true
    · rw [if_pos hp]
      obtain rfl := List.isEmpty_iff.mp hp
      refine ⟨?_, ?_, fun h => absurd h heval⟩
      · rw [List.filter_eq_nil_iff]
        intro f hf
        have hmem := (List.mem_filter.mp (List.mem_filter.mp (List.mem_reverse.mp hf)).1).1
        simp [hnative f hmem]
      · exact List.filter_sublist.trans
          (List.filter_sublist.trans List.filter_sublist).reverse
    · rw [if_neg hp]
      have hcount : ¬ 0 < (native.filter isEvalFrame).length := by
        intro hpos
        obtain ⟨f, hf⟩ := List.exists_mem_of_length_pos hpos
        exact heval ⟨f, List.mem_filter.mp hf⟩
      simp only [if_neg hcount]
      exact hself

theorem best_effort_eq (heval : ¬ ∃ f ∈ native, f.isEvalFrame = true) :
    mergePythonNativeStacksBestEffort python native =
      python ++ (native.filter fun f => f.mergeAction != .Drop).reverse := by
  have hany : ¬ native.any isEvalFrame = true := by simpa using heval
  have hkeep : ∀ f ∈ native, (f.mergeAction == .KeepNative) = (f.mergeAction != .Drop) := by
    intro f hf
    cases haction : f.mergeAction with
    | SplicePython => exact absurd ⟨f, hf, (mergeAction_eq_splice.mp haction).2.2⟩ heval
    | _ => rfl
  unfold mergePythonNativeStacksBestEffort
  rw [if_neg hany, List.filter_congr hkeep]

theorem mixed_best_effort (hpython : ∀ f ∈ python, f.isPython = true)
    (hnative : ∀ f ∈ native, f.isPython = false)
    (heval : ¬ ∃ f ∈ native, f.isEvalFrame = true) :
    Mixed python native (mergePythonNativeStacksBestEffort python native) := by
  rw [best_effort_eq heval]
  have hleaf : ∀ f ∈ (native.filter fun f => f.mergeAction != .Drop).reverse,
      f.isPython = false :=
    fun f hf => hnative f (List.mem_filter.mp (List.mem_reverse.mp hf)).1
  refine ⟨?_, ?_, fun h => absurd h heval⟩
  · rw [List.filter_append, List.filter_eq_self.mpr hpython,
      List.filter_eq_nil_iff.mpr fun f hf => by simp [hleaf f hf], List.append_nil]
  · rw [List.filter_append, List.filter_eq_nil_iff.mpr fun f hf => by simp [hpython f hf],
      List.nil_append]
    exact List.filter_sublist.trans List.filter_sublist.reverse

end Merge

/-- Both merges lose and reorder nothing. They agree on walks with an eval frame; without one the
best-effort merge keeps all that is not dropped. -/
theorem mixed_merge (python native : List (CallFrame Value))
    (hpython : ∀ f ∈ python, f.isPython = true) (hnative : ∀ f ∈ native, f.isPython = false) :
    Mixed python native (mergePythonNativeStacks python native) ∧
      Mixed python native (mergePythonNativeStacksBestEffort python native) ∧
      ((∃ f ∈ native, f.isEvalFrame = true) →
        mergePythonNativeStacksBestEffort python native =
          mergePythonNativeStacks python native) ∧
      ((¬ ∃ f ∈ native, f.isEvalFrame = true) →
        mergePythonNativeStacksBestEffort python native =
          python ++ (native.filter fun f => f.mergeAction != .Drop).reverse) := by
  have hagree : (∃ f ∈ native, f.isEvalFrame = true) →
      mergePythonNativeStacksBestEffort python native =
        mergePythonNativeStacks python native := by
    intro heval
    have hany : native.any isEvalFrame = true := by simpa using heval
    unfold mergePythonNativeStacksBestEffort
    rw [if_pos hany]
  by_cases heval : ∃ f ∈ native, f.isEvalFrame = true
  · have hmixed := mixed_of_eval hpython hnative heval
    exact ⟨hmixed, by rw [hagree heval]; exact hmixed, hagree, best_effort_eq⟩
  · exact ⟨mixed_plain hpython hnative heval, mixed_best_effort hpython hnative heval, hagree,
      best_effort_eq⟩

def nativeFrame (func : String) : CallFrame Unit := .CFrame "0x1" "" func 0 (some "cpp")

def pythonFrame (file func : String) (lineno : ℤ) : CallFrame Unit := .PyFrame file func lineno []

/-- Two Python frames and one eval frame: the outer one becomes the root. -/
theorem mixed_merge_leftover :
    let python := [pythonFrame "outer.py" "outer" 1, pythonFrame "inner.py" "inner" 2]
    let native := [nativeFrame "leaf_native", nativeFrame "_PyEval_EvalFrameDefault",
      nativeFrame "caller_native"]
    Mixed python native (mergePythonNativeStacks python native) ∧
      mergePythonNativeStacks python native =
        [pythonFrame "outer.py" "outer" 1, nativeFrame "caller_native",
          pythonFrame "inner.py" "inner" 2, nativeFrame "leaf_native"] := by
  intro python native
  refine ⟨(mixed_merge python native (by decide) (by decide)).1, ?_⟩
  decide

end Probing.Stacktrace
