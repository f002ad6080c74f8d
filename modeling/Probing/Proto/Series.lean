import Probing.Proto.Compress

/-!
# Series

A series is a log of values in slices. A full slice is committed, compressed when the series is
large, and old slices are discarded over a budget of bytes or of elements.
-/

namespace Probing.Proto

inductive Page where
  | Raw (seq : Seq)
  | Compressed (dtype : EleType) (buffer : List UInt8) (codebook : CodeBook)
  | Ref
  deriving DecidableEq

structure Slice where
  offset : ℕ
  length : ℕ
  data : Page
  deriving DecidableEq

inductive DiscardStrategy where
  | BaseMemorySize (discard_threshold chunkSize : ℕ)
  | BaseElementCount (discard_threshold chunkSize : ℕ)
  | None
  deriving DecidableEq

structure SeriesConfig where
  dtype : EleType
  compressionThreshold : ℕ
  discardStrategy : DiscardStrategy
  deriving DecidableEq

/-- The slices are a map by offset, listed in the order of its keys. -/
structure Series where
  config : SeriesConfig
  offset : ℕ
  dropped : ℕ
  slices : List (ℕ × Slice)
  currentSlice : Option Slice
  commitNbytes : ℕ
  commitCounts : ℕ
  deriving DecidableEq

/-- `usize::MAX` and `isize::MAX`. -/
def usizeMax : ℕ := 2 ^ 64 - 1
def isizeMax : ℕ := 2 ^ 63 - 1

/-- The codec, and whether the build checks integer overflow. -/
structure Build extends Pco where
  overflowChecks : Bool

/-- What a call can do: return, panic, or run forever. -/
inductive Outcome (ε σ : Type) where
  | returns (result : Except ε Unit) (state : σ)
  | panics
  | diverges
  deriving DecidableEq

namespace DiscardStrategy

def getChunkSize : DiscardStrategy → Option ℕ
  | BaseMemorySize _ chunkSize => some chunkSize
  | BaseElementCount _ chunkSize => some chunkSize
  | None => none

def countsElements : DiscardStrategy → Bool
  | BaseElementCount _ _ => true
  | _ => false

end DiscardStrategy

namespace Page

variable (B : Build)

def nbytes : Page → ℕ
  | Raw array => array.nbytes
  | Compressed _ buffer _ => buffer.length
  | Ref => 0

/-- The sequence of a page. -/
def decompressed : Page → Option Seq
  | Raw array => some array
  | Compressed dtype buffer codebook => Seq.decompress B.toPco dtype buffer codebook
  | Ref => none

def getValue (page_offset : ℕ) : Page → Option Ele
  | Raw array => some (array.get page_offset)
  | Compressed dtype buffer codebook =>
      (Seq.decompress B.toPco dtype buffer codebook).map (·.get page_offset)
  | Ref => some .Nil

end Page

namespace Slice

def nbytes (slice : Slice) : ℕ := slice.data.nbytes

/-- A page the codec cannot compress stays as it is. -/
def compress (B : Build) (slice : Slice) : Slice :=
  match slice.data with
  | .Raw array =>
      match array.compress B.toPco with
      | some (dtype, buffer, codebook) =>
          { slice with data := .Compressed dtype buffer codebook }
      | none => slice
  | _ => slice

end Slice

/-- `ArrayType::create_array` for the types that have it. -/
def createArray : Ele → Option Seq
  | .I32 x => some (.SeqI32 [x])
  | .I64 x => some (.SeqI64 [x])
  | .F32 x => some (.SeqF32 [x])
  | .F64 x => some (.SeqF64 [x])
  | .Text x => some (.SeqText [x])
  | _ => none

/-- The size of an element in memory, of a text without its bytes. -/
def Ele.size : Ele → ℕ
  | .I32 _ | .F32 _ => 4
  | .Text _ => 24
  | _ => 8

def appendToArray (array : Seq) (data : Ele) : Except ProtoError Seq :=
  match array, data with
  | .SeqI32 arr, .I32 x => .ok (.SeqI32 (arr ++ [x]))
  | .SeqI64 arr, .I64 x => .ok (.SeqI64 (arr ++ [x]))
  | .SeqF32 arr, .F32 x => .ok (.SeqF32 (arr ++ [x]))
  | .SeqF64 arr, .F64 x => .ok (.SeqF64 (arr ++ [x]))
  | .SeqText arr, .Text x => .ok (.SeqText (arr ++ [x]))
  | _, data => .error (.TypeMismatch data.dtype .Nil)

/-- `BTreeMap::insert`. -/
def insertSlice (slices : List (ℕ × Slice)) (offset : ℕ) (slice : Slice) : List (ℕ × Slice) :=
  slices.filter (·.1 < offset) ++ (offset, slice) :: slices.filter (offset < ·.1)

/-- The last lines of a successful `append`. -/
def Outcome.appended : Outcome ProtoError Series → Outcome ProtoError Series
  | .returns _ s => .returns (.ok ()) { s with offset := min (s.offset + 1) usizeMax }
  | o => o

namespace Series

variable (B : Build) (s : Series)

def build (config : SeriesConfig) : Series := ⟨config, 0, 0, [], none, 0, 0⟩

def len : ℕ := s.offset

def nbytes : ℕ := s.commitNbytes + (s.currentSlice.map Slice.nbytes).getD 0

def ncounts : ℕ := s.commitCounts

/-- The current slice as it is committed, compressed if the series is large. -/
def committed (slice : Slice) : Slice :=
  if s.config.compressionThreshold < s.nbytes then slice.compress B else slice

/-- The commit without the discards. -/
def insertCurrent (slice : Slice) : Series :=
  let slice' := committed B s slice
  { s with
    currentSlice := none
    commitNbytes := s.commitNbytes + slice'.nbytes
    slices := insertSlice s.slices slice.offset slice' }

/-- `a + b` and `a - b` on `usize`; `none` is the panic of an overflow check. -/
def addUsize (a b : ℕ) : Option ℕ :=
  if a + b ≤ usizeMax then some (a + b)
  else if B.overflowChecks then none else some ((a + b) % 2 ^ 64)

def subUsize (a b : ℕ) : Option ℕ :=
  if b ≤ a then some (a - b)
  else if B.overflowChecks then none else some (2 ^ 64 + a - b)

/-- The loop that discards while the series holds more bytes than the threshold. -/
def discardBytes (discard_threshold : ℕ) (s : Series) : List (ℕ × Slice) → Outcome ProtoError Series
  | [] =>
      if discard_threshold < s.nbytes then .diverges
      else .returns (.ok ()) { s with slices := [] }
  | (offset, slice) :: rest =>
      if discard_threshold < s.nbytes then
        match addUsize B s.dropped (slice.offset + slice.length) with
        | none => .panics
        | some dropped =>
            discardBytes discard_threshold
              { s with dropped, commitNbytes := s.commitNbytes - slice.nbytes } rest
      else .returns (.ok ()) { s with slices := (offset, slice) :: rest }

/-- The loop that discards while as many elements as `limit` were counted. -/
def discardCounts (limit : ℕ) (s : Series) : List (ℕ × Slice) → Outcome ProtoError Series
  | [] =>
      if limit ≤ s.ncounts then .diverges
      else .returns (.ok ()) { s with slices := [] }
  | (offset, slice) :: rest =>
      if limit ≤ s.ncounts then
        match addUsize B s.dropped (slice.offset + slice.length) with
        | none => .panics
        | some dropped =>
            discardCounts limit
              { s with
                dropped
                commitNbytes := s.commitNbytes - slice.nbytes
                commitCounts := 0 } rest
      else .returns (.ok ()) { s with slices := (offset, slice) :: rest }

def discard : Outcome ProtoError Series :=
  match s.config.discardStrategy with
  | .BaseMemorySize discard_threshold _ => discardBytes B discard_threshold s s.slices
  | .BaseElementCount discard_threshold _ =>
      match subUsize B discard_threshold 1 with
      | none => .panics
      | some limit => discardCounts B limit s s.slices
  | .None => .returns (.ok ()) s

/-- The count of an element, where the strategy counts them. -/
def counted : ℕ :=
  if s.config.discardStrategy.countsElements then s.commitCounts + 1 else s.commitCounts

/-- `append` of one of the five element types, its array given by `array`. -/
def append (data : Ele) (array : Seq) : Outcome ProtoError Series :=
  if s.offset = usizeMax then .returns (.error .CapacityExceeded) s
  else match s.currentSlice with
    | some slice =>
        match slice.data with
        | .Raw current =>
            match appendToArray current data with
            | .error e => .returns (.error e) s
            | .ok current =>
                let slice := { slice with data := .Raw current, length := slice.length + 1 }
                let s := { s with currentSlice := some slice, commitCounts := s.counted }
                match s.config.discardStrategy.getChunkSize with
                | none => .panics
                | some chunkSize =>
                    if slice.length = chunkSize then
                      (discard B (insertCurrent B s slice)).appended
                    else (Outcome.returns (.ok ()) s).appended
        | _ => .returns (.error .RawPageTypeExpected) s
    | none =>
        match s.config.discardStrategy.getChunkSize with
        | none => .panics
        | some chunkSize =>
            -- `Vec::with_capacity`
            if isizeMax < chunkSize * data.size then .panics
            else
              (Outcome.returns (.ok ())
                { s with
                  config := { s.config with dtype := data.dtype }
                  currentSlice := some ⟨s.offset, 1, .Raw array⟩
                  commitCounts := s.counted }).appended

def appendValue (data : Ele) : Outcome ProtoError Series :=
  match createArray data with
  | some array => append B s data array
  | none => .returns (.error .InvalidValueDateType) s

def get (idx : ℕ) : Option Ele :=
  if s.offset ≤ idx ∨ idx < s.dropped then none
  else
    match s.currentSlice.filter fun slice =>
        slice.offset ≤ idx ∧ idx < slice.offset + slice.length with
    | some slice => slice.data.getValue B (idx - slice.offset)
    | none =>
        let start := idx - (s.config.discardStrategy.getChunkSize).getD 0
        match (s.slices.filter fun p => start ≤ p.1 ∧ p.1 ≤ idx).find? fun p =>
            p.1 ≤ idx ∧ idx < p.1 + p.2.length with
        | some (offset, slice) => slice.data.getValue B (idx - offset)
        | none => none

end Series

/-- The map iterator is the list of slices it has not reached. -/
structure SeriesIterator where
  currentBtreeIter : List Slice
  currentBtreeSlice : Option Slice
  currentSlice : Option Slice
  elemIdx : ℕ
  cache : Seq

namespace SeriesIterator

variable (B : Build)

def new (s : Series) : SeriesIterator where
  currentBtreeIter := (s.slices.map (·.2)).tail
  currentBtreeSlice := (s.slices.map (·.2)).head?
  currentSlice := s.currentSlice
  elemIdx := 0
  cache := .Nil

/-- `get_value_from_slice`: the value and the iterator after it. -/
def getValueFromSlice (it : SeriesIterator) (slice : Slice) :
    Option Ele × SeriesIterator :=
  if slice.length ≤ it.elemIdx then (none, it)
  else
    let it :=
      match it.elemIdx, slice.data with
      | 0, .Compressed dtype buffer codebook =>
          match Seq.decompress B.toPco dtype buffer codebook with
          | some array => { it with cache := array }
          | none => it
      | _, _ => it
    match slice.data with
    | .Raw array => (some (array.get it.elemIdx), { it with elemIdx := it.elemIdx + 1 })
    | .Compressed _ _ _ =>
        (some (it.cache.get it.elemIdx), { it with elemIdx := it.elemIdx + 1 })
    | .Ref => (some .Nil, it)

/-- The end of `next`: the current slice, once. -/
def nextCurrent (it : SeriesIterator) : Option Ele × SeriesIterator :=
  match it.currentSlice with
  | none => (none, it)
  | some slice =>
      match getValueFromSlice B it slice with
      | (some value, it) => (some value, it)
      | (none, it) => (none, { it with currentSlice := none, elemIdx := 0 })

/-- The loop of `next` over the committed slices. -/
def nextLoop (it : SeriesIterator) (slice : Slice) : List Slice → Option Ele × SeriesIterator
  | [] =>
      match getValueFromSlice B it slice with
      | (some value, it) => (some value, it)
      | (none, it) =>
          nextCurrent B { it with
            currentBtreeIter := []
            currentBtreeSlice := none
            elemIdx := 0 }
  | following :: rest =>
      match getValueFromSlice B it slice with
      | (some value, it) => (some value, it)
      | (none, it) =>
          nextLoop { it with
            currentBtreeIter := rest
            currentBtreeSlice := some following
            elemIdx := 0 } following rest

def next (it : SeriesIterator) : Option Ele × SeriesIterator :=
  match it.currentBtreeSlice with
  | some slice => nextLoop B it slice it.currentBtreeIter
  | none => nextCurrent B it

end SeriesIterator

end Probing.Proto
