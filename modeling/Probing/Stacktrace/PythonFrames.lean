import Probing.Core.Visits
import Probing.Stacktrace.Frames

/-!
# The walk of the Python frames

A frame is read at its address, with the layout of the running Python. The walk takes the innermost
frame from its own record and every other one as the caller in the record of its callee, and goes on
to the frame behind only where the record could be resolved.
-/

namespace Probing.Stacktrace

/-- The bindings that the versions of Python are read with. -/
inductive Bindings where
  | v3100
  | v3110
  | v3120
  | v3130
  deriving DecidableEq

structure PyCodeObject where
  coName : String
  coFilename : String
  coFirstlineno : ℤ
  lineTable : ℕ
  /-- The line that the line table has for an instruction. -/
  getLineNumber : ℤ → ℤ

/-- The code is `f_executable` in Python 3.13, and the frame behind is `f_back` up to 3.10 and
`previous` from 3.11 on. -/
structure PyFrame where
  fCode : ℕ
  fLasti : ℤ
  back : ℕ

/-- The current frame of a thread: its `frame` up to Python 3.10, the frame of its `cframe` in 3.11
and 3.12, if there is one, and its `current_frame` in 3.13. -/
structure PyThreadState where
  frame : ℕ
  cframe : Option ℕ
  currentFrame : ℕ

/-- What the readers see of a process: the memory at the addresses of frames and of code. -/
structure Interpreter where
  /-- `PYVERSION.major` and `PYVERSION.minor`. -/
  version : ℕ × ℕ
  /-- `PyThreadState_Get`. -/
  threadstate : Option PyThreadState
  frames : ℕ → PyFrame
  codes : ℕ → PyCodeObject

structure RawCallLocation where
  callee : ℕ
  caller : Option ℕ
  offset : ℤ

structure Symbol where
  name : String
  file : String
  line : ℤ
  deriving DecidableEq

structure CallLocation where
  callee : Symbol
  caller : Option Symbol
  lineno : ℤ

namespace Interpreter

variable (I : Interpreter)

def bindings : Option Bindings :=
  if I.version.1 ≠ 3 then none
  else if 4 ≤ I.version.2 ∧ I.version.2 ≤ 10 then some .v3100
  else if I.version.2 = 11 then some .v3110
  else if I.version.2 = 12 then some .v3120
  else if I.version.2 = 13 then some .v3130
  else none

/-- A pointer, if it is not null. -/
def nonNull (addr : ℕ) : Option ℕ := if addr = 0 then none else some addr

/-- A pointer, if it looks like one to a frame. -/
def plausibleFrame (addr : ℕ) : Option ℕ :=
  if addr ≠ 0 ∧ addr % 8 = 0 ∧ 0xffffff < addr then some addr else none

def getCurrentFrame : Option ℕ :=
  I.threadstate.bind fun ts =>
    match I.bindings with
    | some .v3100 => nonNull ts.frame
    | some .v3110 | some .v3120 => ts.cframe.bind nonNull
    | some .v3130 => nonNull ts.currentFrame
    | none => none

def getPrevFrame (frame_addr : ℕ) : Option ℕ :=
  match I.bindings with
  | some .v3100 | some .v3110 | some .v3120 => plausibleFrame (I.frames frame_addr).back
  | _ => none

/-- `RawCallLocation::from`, at a frame of the thread `ts`. The caller is the frame behind in Python
3.10, and the current frame of the thread, if one is given, from 3.11 on. -/
def rawCallLocation (addr : ℕ) (ts : Option PyThreadState) : RawCallLocation :=
  let called_by (prev : ℕ) : RawCallLocation :=
    if prev = 0 then ⟨(I.frames addr).fCode, none, 0⟩
    else ⟨(I.frames addr).fCode, some (I.frames prev).fCode, (I.frames prev).fLasti⟩
  match I.bindings with
  | some .v3100 => if I.version.2 = 10 then called_by (I.frames addr).back else ⟨0, none, 0⟩
  | some .v3110 | some .v3120 => called_by ((ts.bind (·.cframe)).getD 0)
  | some .v3130 => called_by ((ts.map (·.currentFrame)).getD 0)
  | none => ⟨0, none, 0⟩

/-- The symbol of a code object. -/
def codeSymbol (code : ℕ) : Except String Symbol :=
  if code = 0 then .error "Null pointer cannot be converted to Symbol"
  else .ok ⟨(I.codes code).coName, (I.codes code).coFilename, (I.codes code).coFirstlineno⟩

def parseLineno (code : ℕ) (lasti : ℤ) : ℤ :=
  if code = 0 then 0
  else if (plausibleFrame (I.codes code).lineTable).isNone then 0
  else (I.codes code).getLineNumber lasti

/-- `CallLocation::try_from`. -/
def resolve (value : RawCallLocation) : Except String CallLocation :=
  match I.bindings with
  | none => .error "Unsupported Python version"
  | some _ => do
      let callee ← I.codeSymbol value.callee
      let caller := value.caller.bind fun c => (I.codeSymbol c).toOption
      let lineno := value.caller.map fun c => I.parseLineno c value.offset
      return ⟨callee, caller, lineno.getD 0⟩

variable {Value : Type*}

/-- The innermost frame, from its own record. -/
def innermostFrame (addr : ℕ) : List (CallFrame Value) :=
  match I.resolve (I.rawCallLocation addr none) with
  | .ok location =>
      let filename := location.callee.file
      let funcname := location.callee.name
      if filename ≠ "<shim>" ∨ funcname ≠ "<interpreter trampoline>" then
        [.PyFrame filename funcname location.callee.line []]
      else []
  | .error _ => []

/-- The frame behind one whose record is resolved. -/
def callerFrame (location : CallLocation) : List (CallFrame Value) :=
  match location.caller with
  | some caller =>
      if caller.file ≠ "<shim>" ∧ caller.name ≠ "<interpreter trampoline>" then
        [.PyFrame caller.file caller.name location.lineno []]
      else []
  | none => []

/-- The loop over the frames. Without a result it is still running when the fuel is used up. -/
def walk : ℕ → Option ℕ → List (CallFrame Value) → Option (List (CallFrame Value))
  | _, none, frames => some frames
  | 0, some _, _ => none
  | fuel + 1, some addr, frames =>
      match I.resolve (I.rawCallLocation addr none) with
      | .ok location => walk fuel (I.getPrevFrame addr) (frames ++ callerFrame location)
      | .error _ => walk fuel (some addr) frames

/-- Where the walk starts. -/
def start (currentFrame : Option ℕ) : Option ℕ :=
  match currentFrame with
  | some addr => some addr
  | none => I.getCurrentFrame

def getPythonFramesRaw (fuel : ℕ) (currentFrame : Option ℕ) : Option (List (CallFrame Value)) :=
  let current_frame_addr := I.start currentFrame
  let frames :=
    match current_frame_addr with
    | some addr => I.innermostFrame addr
    | none => []
  I.walk fuel current_frame_addr frames

/-- The frame that the walk goes on to. -/
def nextFrame (addr : ℕ) : Option ℕ :=
  match I.resolve (I.rawCallLocation addr none) with
  | .ok _ => I.getPrevFrame addr
  | .error _ => some addr

/-- What the walk takes from a frame that it stands on. -/
def frameOutput (addr : ℕ) : List (CallFrame Value) :=
  match I.resolve (I.rawCallLocation addr none) with
  | .ok location => callerFrame location
  | .error _ => []

theorem walk_eq_collect (fuel : ℕ) (cursor : Option ℕ) (frames : List (CallFrame Value)) :
    I.walk fuel cursor frames = Core.collect I.nextFrame I.frameOutput fuel cursor frames := by
  induction fuel generalizing cursor frames with
  | zero => cases cursor <;> rfl
  | succ fuel ih =>
      cases cursor with
      | none => rfl
      | some addr =>
          unfold walk Core.collect nextFrame frameOutput
          cases I.resolve (I.rawCallLocation addr none) with
          | ok location => exact ih _ _
          | error _ =>
              rw [List.append_nil]
              exact ih _ _

end Interpreter

end Probing.Stacktrace
