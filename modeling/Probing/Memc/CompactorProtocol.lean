import Mathlib.Data.List.FinRange
import Mathlib.Data.List.Sort
import Probing.Core.Run
import Probing.Memt.RingHistory

/-!
# Draining a hot ring into the open segment

`Compactor::drain_view` inspects the chunks of one table instance with separate
loads while the writer appends rows and recycles chunks. The compactor drains
its tables one after the other, so the other tables only add pages of their own
instances between drains, and may take over a table name. The reader lease of
the row iterator is granted or not by the environment; a granted lease keeps the
writer from recycling the chunk.
-/

namespace Probing.Memc.Compactor

open Probing.Memt (ChunkState HotRing)

/-- The table instance, and the watermarks `prime_from_cold` has found for it
under each table name. -/
structure Setting (Name Value : Type*) where
  numChunks : ℕ
  cols : ℕ
  sourceInstance : UInt64
  seed : Name → ℕ → ℕ

variable {Name Value : Type*}

/-- A page of the open segment: its source tag and its columns. -/
structure Page (Value : Type*) where
  sourceInstance : UInt64
  sourceChunk : ℕ
  sourceGen : ℕ
  columns : List (List Value)
  deriving DecidableEq

/-- The columns `transpose_chunk` builds from rows. -/
def transpose {cols : ℕ} (rows : List (Fin cols → Value)) : List (List Value) :=
  (List.finRange cols).map fun j => rows.map fun row => row j

/-- Program counter of `drain_view`; `todo` are the chunks still to visit. A row
iterator carries its extent `n` and whether generation `gen` was sealed when the
extent was loaded. -/
inductive DrainPc (cols : ℕ) (Value : Type*) where
  | logicalGen (i : ℕ) (order : List (ℕ × ℕ))
  | logicalRows (i generation : ℕ) (order : List (ℕ × ℕ))
  | next (todo : List ℕ)
  | genLoad (chunk : ℕ) (todo : List ℕ)
  | genBefore (chunk : ℕ) (todo : List ℕ)
  | pin (chunk : ℕ) (todo : List ℕ) (gen : ℕ)
  | usedLoad (chunk : ℕ) (todo : List ℕ) (gen : ℕ)
  | readRow (chunk : ℕ) (todo : List ℕ) (gen n : ℕ) (wasSealed : Bool)
      (rows : List (Fin cols → Value))
  | genAfter (chunk : ℕ) (todo : List ℕ) (gen : ℕ) (wasSealed : Bool)
      (rows : List (Fin cols → Value))
  | append (chunk : ℕ) (todo : List ℕ) (gen : ℕ) (rows : List (Fin cols → Value))

/-- A store to `drained_gen`, with the pages of the open segment at that time. -/
structure Drained (Value : Type*) where
  chunk : ℕ
  gen : ℕ
  pages : List (Page Value)

structure State (S : Setting Name Value) where
  ring : HotRing (Fin S.cols → Value)
  /-- The chunk the row iterator has pinned. -/
  pinned : Option ℕ
  drain : Option (Name × DrainPc S.cols Value)
  /-- `drained_gen` of the names whose progress is for this instance. -/
  tables : Name → Option (ℕ → ℕ)
  /-- The pages of the open segment, none while there is no segment. -/
  pages : List (Page Value)
  /-- All stores to `drained_gen` of this instance; the code does not keep it. -/
  log : List (Drained Value)

/-- The outcome of a compactor step is a lease granted, or a page written. A roll
may fail after it has taken the open segment. -/
inductive Action (S : Setting Name Value) where
  | push (row : Fin S.cols → Value)
  | advance
  | writer (otherPin : Bool)
  | drain (name : Name)
  | compact (granted : Bool)
  | roll (sealed : Bool)
  /-- Another table is drained, under a name that may be one of ours. -/
  | foreign (name : Name) (pages : List (Page Value))

namespace State

variable {S : Setting Name Value} [DecidableEq Name] (s : State S)

def goto (name : Name) (p : DrainPc S.cols Value) : State S := { s with drain := some (name, p) }

def setTable (name : Name) (w : Option (ℕ → ℕ)) : State S :=
  { s with tables := fun other => if other = name then w else s.tables other }

/-- The store of `gen` to `drained_gen` of the chunk. -/
def setDrained (name : Name) (drained_gen : ℕ → ℕ) (chunk gen : ℕ) : State S :=
  { s.setTable name (some fun c => if c = chunk then gen else drained_gen c) with
    log := s.log ++ [⟨chunk, gen, s.pages⟩] }

/-- The order of `chunks_logical`. -/
def logicalLe (a b : ℕ × ℕ) : Prop := a.1 < b.1 ∨ a.1 = b.1 ∧ a.2 ≤ b.2

instance : DecidableRel logicalLe := fun _ _ => inferInstanceAs (Decidable (_ ∨ _))

/-- One step of `drain_view` under a name. -/
def drainStep (granted : Bool) (name : Name) : DrainPc S.cols Value → State S
  | .logicalGen i order =>
      if i = S.numChunks then
        s.goto name (.next ((order.insertionSort logicalLe).map Prod.snd))
      else if s.ring.generation i = 0 then s.goto name (.logicalGen (i + 1) order)
      else s.goto name (.logicalRows i (s.ring.generation i) order)
  | .logicalRows i generation order =>
      s.goto name (.logicalGen (i + 1)
        (if (s.ring.chunk i).rowCount = 0 then order else order ++ [(generation, i)]))
  | .next [] => { s with drain := none }
  | .next (chunk :: todo) =>
      if (s.ring.chunk chunk).state = .Sealed then s.goto name (.genLoad chunk todo)
      else s.goto name (.next todo)
  | .genLoad chunk todo =>
      let gen := s.ring.generation chunk
      match s.tables name with
      | none => { s with drain := none }
      | some drained_gen =>
          if gen = 0 ∨ gen ≤ drained_gen chunk then s.goto name (.next todo)
          else s.goto name (.genBefore chunk todo)
  | .genBefore chunk todo =>
      let gen_before := s.ring.generation chunk
      if gen_before = 0 then s.goto name (.next todo) else s.goto name (.pin chunk todo gen_before)
  | .pin chunk todo gen =>
      if granted ∧ (s.ring.chunk chunk).state ≠ .Empty then
        ({ s with pinned := some chunk } : State S).goto name (.usedLoad chunk todo gen)
      else s.goto name (.genAfter chunk todo gen false [])
  | .usedLoad chunk todo gen =>
      s.goto name (.readRow chunk todo gen (s.ring.chunk chunk).rows.length
        (s.ring.sealedRows chunk gen).isSome [])
  | .readRow chunk todo gen n wasSealed rows =>
      if rows.length < n then
        match (s.ring.chunk chunk).rows[rows.length]? with
        | some row => s.goto name (.readRow chunk todo gen n wasSealed (rows ++ [row]))
        | none => s
      else
        ({ s with pinned := none } : State S).goto name (.genAfter chunk todo gen wasSealed rows)
  | .genAfter chunk todo gen _ rows =>
      if s.ring.generation chunk ≠ gen then s.goto name (.next todo)
      else if S.cols = 0 ∨ rows = [] then
        match s.tables name with
        | none => { s with drain := none }
        | some drained_gen => (s.setDrained name drained_gen chunk gen).goto name (.next todo)
      else s.goto name (.append chunk todo gen rows)
  | .append chunk todo gen rows =>
      if granted then
        let page := ⟨S.sourceInstance, chunk, gen, transpose rows⟩
        let t : State S := { s with pages := s.pages ++ [page] }
        match s.tables name with
        | none => { t with drain := none }
        | some drained_gen => (t.setDrained name drained_gen chunk gen).goto name (.next todo)
      else { s with drain := none }

/-- One step of the system. -/
def step : Action S → Option (State S)
  | .push row =>
      match s.ring.writer with
      | .idle => some { s with ring := s.ring.append row }
      | _ => none
  | .advance =>
      match s.ring.writer with
      | .idle => some { s with ring := s.ring.gotoPc .previousState }
      | _ => none
  | .writer otherPin =>
      some { s with ring := s.ring.writerStep (otherPin || s.pinned = some s.ring.nextChunk) }
  | .drain name =>
      match s.drain with
      | none => some ((s.setTable name (some ((s.tables name).getD (S.seed name)))).goto name
          (.logicalGen 0 []))
      | some _ => none
  | .compact granted =>
      match s.drain with
      | some (name, p) => some (s.drainStep granted name p)
      | none => none
  | .roll sealed =>
      match s.drain with
      | none => some { s with pages := [] }
      | some (name, .next todo) =>
          some { s with pages := [], drain := if sealed then some (name, .next todo) else none }
      | some _ => none
  | .foreign name pages =>
      match s.drain with
      | none => if ∀ p ∈ pages, p.sourceInstance ≠ S.sourceInstance then
          some { s.setTable name none with pages := s.pages ++ pages } else none
      | some _ => none

end State

/-- The table as created, and a compactor that has seen no table yet. -/
def State.initial (S : Setting Name Value) : State S where
  ring := .initial S.numChunks
  pinned := none
  drain := none
  tables _ := none
  pages := []
  log := []

end Probing.Memc.Compactor
