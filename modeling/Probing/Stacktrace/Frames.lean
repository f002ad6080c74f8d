import Probing.Core.Text

/-!
# Call frames and their symbols

A frame is a native one from a walk of the stack or a Python one from the eval-frame hook. The
merge of the two stacks looks at symbol names only: a name may say that the frame evaluates a Python
frame, or that it belongs to the interpreter and is noise.
-/

namespace Probing.Stacktrace

open Probing.Core (contains)

/-- `Value` is the type of the recorded local variables. -/
inductive CallFrame (Value : Type*) where
  | CFrame (ip file func : String) (lineno : ℤ) (lang : Option String)
  | PyFrame (file func : String) (lineno : ℤ) (locals : List (String × Value))
  deriving DecidableEq

inductive MergeAction where
  /-- Drop interpreter trampoline noise. -/
  | Drop
  /-- Keep the native frame as it is. -/
  | KeepNative
  /-- Replace with the next Python frame from the eval hook. -/
  | SplicePython
  deriving DecidableEq

def startsWith (name start : String) : Bool := start.toList.isPrefixOf name.toList

/-- The non-empty parts of a symbol between `_` and `.`. -/
def tokens (name : String) : List String :=
  ((name.toList.splitOnP fun c => c == '_' || c == '.').filter fun t => !t.isEmpty).map .ofList

def whitelistedPrefixes : List String :=
  ["time", "sys", "gc", "os", "unicode", "thread", "stringio", "sre", "PyGilState", "PyThread",
    "lock"]

/-- CPython eval splice point in a native stack. -/
def isEvalFrameName (name : String) : Bool :=
  (tokens name)[0]? == some "PyEval" &&
    ((tokens name)[1]? == some "EvalFrameDefault" || (tokens name)[1]? == some "EvalFrameEx")

/-- Call-protocol and extension-init noise between Python frames. -/
def isCpythonInterpreterNoise (name : String) : Bool :=
  if isEvalFrameName name then false
  else if contains name "PyInit_" || contains name "PyInit__" then true
  else contains name "vectorcall" || contains name "Vectorcall" ||
    startsWith name "_PyObject_" || startsWith name "PyObject_" ||
    startsWith name "slot_tp_" || startsWith name "_PyFunction_" ||
    startsWith name "cfunction_" || startsWith name "method_vectorcall" ||
    startsWith name "_method_vectorcall" || startsWith name "_PyEval_" ||
    startsWith name "PyEval_"

/-- CPython main and import bootstrap above user frames. -/
def isInterpreterStartupNative (name : String) : Bool :=
  startsWith name "_Py_RunMain" || startsWith name "pymain_" || startsWith name "_pymain_" ||
    startsWith name "_PyRun_" || startsWith name "PyRun_" || startsWith name "_run_mod" ||
    startsWith name "run_mod" || name == "Py_BytesMain" || name == "_Py_BytesMain"

namespace CallFrame

variable {Value : Type*}

def frameSymbol : CallFrame Value → String
  | CFrame _ _ func _ _ => func
  | PyFrame _ func _ _ => func

/-- A frame of the eval-frame hook. -/
def isPython : CallFrame Value → Bool
  | CFrame .. => false
  | PyFrame .. => true

def isEvalFrame (frame : CallFrame Value) : Bool := isEvalFrameName frame.frameSymbol

/-- The trampoline of the eval-frame hook itself. -/
def isInterpShim (frame : CallFrame Value) : Bool := contains frame.frameSymbol "rust_eval_frame"

def isStartup (frame : CallFrame Value) : Bool := isInterpreterStartupNative frame.frameSymbol

def mergeAction (frame : CallFrame Value) : MergeAction :=
  if frame.isInterpShim then .Drop
  else if isInterpreterStartupNative frame.frameSymbol then .Drop
  else if frame.isEvalFrame then .SplicePython
  else if isCpythonInterpreterNoise frame.frameSymbol then .Drop
  else match (tokens frame.frameSymbol)[0]? with
    | some "PyEval" => .Drop
    | some start => if start ∈ whitelistedPrefixes then .KeepNative else .KeepNative
    | none => .KeepNative

section Actions

variable {frame : CallFrame Value}

/-- A Python frame is spliced in at the eval frames that are neither a shim nor start-up. -/
theorem mergeAction_eq_splice : frame.mergeAction = .SplicePython ↔
    frame.isInterpShim = false ∧ frame.isStartup = false ∧ frame.isEvalFrame = true := by
  unfold mergeAction isStartup
  cases frame.isInterpShim with
  | true => simp
  | false =>
      cases isInterpreterStartupNative frame.frameSymbol with
      | true => simp
      | false =>
          cases frame.isEvalFrame with
          | true => simp
          | false =>
              simp only [Bool.false_eq_true, if_false, and_false, iff_false]
              split_ifs
              · simp
              · split <;> simp

/-- An eval frame that is not dropped is a splice point. -/
theorem eval_not_drop (frame : CallFrame Value) :
    (frame.isEvalFrame && frame.mergeAction != .Drop) =
    decide (frame.mergeAction = .SplicePython) := by
  cases heval : frame.isEvalFrame with
  | false =>
      have hnot : frame.mergeAction ≠ .SplicePython := fun h => by
        simp [heval, mergeAction_eq_splice] at h
      simp [hnot]
  | true =>
      cases haction : frame.mergeAction with
      | Drop => rfl
      | KeepNative =>
          unfold mergeAction at haction
          simp only [heval, if_true] at haction
          split_ifs at haction
      | SplicePython => rfl

end Actions

end CallFrame

end Probing.Stacktrace
