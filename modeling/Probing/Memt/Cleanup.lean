import Mathlib.Data.List.Forall2
import Probing.Core.Text
import Probing.Memt.Layout

/-!
# Cleaning up after dead processes

Each process keeps its tables in a directory named by its pid. The cleanup takes the start time from
the first table it can read in a directory and removes the directory if no process with this pid
and this start time is alive.
-/

namespace Probing.Memt

open Probing.Core
open Layout (header magicMemt sizeOfHeader)

/-- What the system knows about processes: the start time of the process alive under a pid, and what
it answers when asked for it, which is 0 if it cannot tell. -/
structure Processes where
  live : ℕ → Option ℕ
  processStartTime : ℕ → ℕ
  truthful : ∀ pid start, live pid = some start →
    processStartTime pid = 0 ∨ processStartTime pid = start

namespace Processes

variable (P : Processes)

def processExists (pid : ℕ) : Bool := (P.live pid).isSome

def processInstanceAlive (pid expected_start_time : ℕ) : Bool :=
  if !P.processExists pid then false
  else if expected_start_time = 0 then true
  else
    let actual := P.processStartTime pid
    actual == 0 || actual == expected_start_time

end Processes

/-- A file in the directory of a pid. `creator` is the start time of the process with this pid that
created it, which only the header of a complete table records; `contents` is what mapping the file
gives. -/
structure TableFile where
  name : String
  creator : ℕ
  contents : Option Bytes
  deriving DecidableEq

/-- An entry of the base directory, with its files in the order of the listing. -/
structure BaseEntry where
  name : String
  isDir : Bool
  files : List TableFile
  deriving DecidableEq

/-- `str::parse::<u32>`. -/
def parseU32 (s : String) : Option ℕ := parseUnsigned 32 s.toList

/-- The start time in the header of a file that holds a table. -/
def TableFile.recorded (f : TableFile) : Option ℕ :=
  f.contents.bind fun mmap =>
    if sizeOfHeader ≤ mmap.length ∧ (header mmap).magic = magicMemt then
      some (header mmap).creatorStartTime.toNat
    else none

/-- The start time in the first file that holds a table, or 0. -/
def readAnyStartTime : List TableFile → ℕ
  | [] => 0
  | f :: rest =>
      match f.recorded with
      | some startTime => startTime
      | none => readAnyStartTime rest

/-- The entry is a pid directory and is removed. -/
def removes (P : Processes) (entry : BaseEntry) : Bool :=
  match parseU32 entry.name with
  | none => false
  | some pid =>
      if !entry.isDir then false
      else !P.processInstanceAlive pid (readAnyStartTime entry.files)

/-- The entries that are left, and the number of directories cleaned. -/
def cleanupIn (P : Processes) : List BaseEntry → List BaseEntry × ℕ
  | [] => ([], 0)
  | entry :: rest =>
      let (left, cleaned) := cleanupIn P rest
      if removes P entry then (left, cleaned + 1) else (entry :: left, cleaned)

/-- Some file of the entry was created by the process now alive under its pid. -/
def InUse (P : Processes) (entry : BaseEntry) : Prop :=
  ∃ pid start, parseU32 entry.name = some pid ∧ P.live pid = some start ∧
    ∃ f ∈ entry.files, f.creator = start

/-- A listing of the base directory: its entries in any order, each with its files in any order. -/
def Listing (base listing : List BaseEntry) : Prop :=
  ∃ l : List BaseEntry, l.Perm base ∧ List.Forall₂ (fun entry listed =>
    listed.name = entry.name ∧ listed.isDir = entry.isDir ∧ listed.files.Perm entry.files) l listing

/-- Every directory with a file of a live process is left. -/
def KeepsLive (P : Processes) (listing : List BaseEntry) : Prop :=
  ∀ entry ∈ listing, entry.isDir = true → InUse P entry → entry ∈ (cleanupIn P listing).1

/-- In a directory with a file of a live process every table records a start time that passes for
the start time of this process. -/
def OneGeneration (P : Processes) (entry : BaseEntry) : Prop :=
  InUse P entry → ∀ pid, parseU32 entry.name = some pid →
    ∀ f ∈ entry.files, ∀ t, f.recorded = some t → P.processInstanceAlive pid t = true

section Cleanup

variable {P : Processes} {base listing : List BaseEntry} {entry : BaseEntry}
  {files : List TableFile}

theorem mem_cleanupIn : entry ∈ (cleanupIn P listing).1 ↔
    entry ∈ listing ∧ removes P entry = false := by
  induction listing with
  | nil => simp [cleanupIn]
  | cons e rest ih =>
      unfold cleanupIn
      by_cases he : removes P e = true
      · simp only [if_pos he, ih, List.mem_cons]
        constructor
        · exact fun h => ⟨.inr h.1, h.2⟩
        · rintro ⟨rfl | hmem, hkeep⟩
          · rw [he] at hkeep
            cases hkeep
          · exact ⟨hmem, hkeep⟩
      · simp only [if_neg he, List.mem_cons, ih]
        constructor
        · rintro (rfl | h)
          · exact ⟨.inl rfl, by simpa using he⟩
          · exact ⟨.inr h.1, h.2⟩
        · rintro ⟨rfl | hmem, hkeep⟩
          · exact .inl rfl
          · exact .inr ⟨hmem, hkeep⟩

/-- The start time comes from one of the tables, or there is none. -/
theorem readAnyStartTime_cases (files : List TableFile) :
    (∃ f ∈ files, f.recorded = some (readAnyStartTime files)) ∨
      readAnyStartTime files = 0 := by
  induction files with
  | nil => exact .inr rfl
  | cons f rest ih =>
      unfold readAnyStartTime
      cases hf : f.recorded with
      | some t => exact .inl ⟨f, List.mem_cons_self, hf⟩
      | none =>
          rcases ih with ⟨g, hg, hgt⟩ | hzero
          · exact .inl ⟨g, List.mem_cons_of_mem f hg, hgt⟩
          · exact .inr hzero

/-- A live pid passes for alive when no start time is expected. -/
theorem processInstanceAlive_zero {pid start : ℕ} (h : P.live pid = some start) :
    P.processInstanceAlive pid 0 = true := by
  simp [Processes.processInstanceAlive, Processes.processExists, h]

/-- A directory with a file of a live process is left, in whatever order its files come, if its
tables are of one generation. -/
theorem OneGeneration.kept (h : OneGeneration P entry) (huse : InUse P entry) :
    removes P entry = false := by
  obtain ⟨pid, start, hpid, hlive, -⟩ := id huse
  unfold removes
  simp only [hpid]
  split_ifs
  · rfl
  · rw [Bool.not_eq_false']
    rcases readAnyStartTime_cases entry.files with ⟨f, hf, ht⟩ | hzero
    · exact h huse pid hpid f hf _ ht
    · rw [hzero]
      exact processInstanceAlive_zero hlive

theorem inUse_congr {listed : BaseEntry} (hname : listed.name = entry.name)
    (hfiles : listed.files.Perm entry.files) : InUse P listed ↔ InUse P entry := by
  unfold InUse
  rw [hname]
  simp only [hfiles.mem_iff]

theorem oneGeneration_congr {listed : BaseEntry} (hname : listed.name = entry.name)
    (hfiles : listed.files.Perm entry.files) : OneGeneration P listed ↔ OneGeneration P entry := by
  unfold OneGeneration
  rw [inUse_congr hname hfiles, hname]
  simp only [hfiles.mem_iff]

/-- The entry with one of its files listed first. -/
theorem exists_listing_first (hentry : entry ∈ base) {f : TableFile} (hf : f ∈ entry.files) :
    ∃ rest, (f :: rest).Perm entry.files ∧
      ∃ listing, Listing base listing ∧ { entry with files := f :: rest } ∈ listing := by
  obtain ⟨s, t, hst⟩ := List.append_of_mem hf
  obtain ⟨before, after, hbase⟩ := List.append_of_mem hentry
  have hrest : (f :: (s ++ t)).Perm entry.files := hst ▸ List.perm_middle.symm
  have hself : ∀ l : List BaseEntry, List.Forall₂ (fun entry listed : BaseEntry =>
      listed.name = entry.name ∧ listed.isDir = entry.isDir ∧
        listed.files.Perm entry.files) l l :=
    fun l => List.forall₂_same.mpr fun e _ => ⟨rfl, rfl, List.Perm.refl _⟩
  refine ⟨s ++ t, hrest, before ++ { entry with files := f :: (s ++ t) } :: after,
    ⟨before ++ entry :: after, by rw [hbase], ?_⟩, by simp⟩
  exact List.rel_append (hself before) (.cons ⟨rfl, rfl, hrest⟩ (hself after))

theorem exists_listed {R : BaseEntry → BaseEntry → Prop} {l : List BaseEntry} {listed : BaseEntry}
    (h : List.Forall₂ R l listing) (hlisted : listed ∈ listing) : ∃ entry ∈ l, R entry listed := by
  induction h with
  | nil => cases hlisted
  | cons hhead _ ih =>
      rcases List.mem_cons.mp hlisted with rfl | hmem
      · exact ⟨_, List.mem_cons_self, hhead⟩
      · obtain ⟨entry, hentry, hrel⟩ := ih hmem
        exact ⟨entry, List.mem_cons_of_mem _ hentry, hrel⟩

end Cleanup

/-- In every order of the listings the directories with a file of a live process are left exactly if
their tables are of one generation. -/
theorem cleanup_keeps_live_iff (P : Processes) (base : List BaseEntry) :
    (∀ listing, Listing base listing → KeepsLive P listing) ↔
      ∀ entry ∈ base, entry.isDir = true → OneGeneration P entry := by
  constructor
  · intro h entry hentry hdir huse pid hpid f hf t ht
    obtain ⟨rest, hperm, listing, hlisting, hmem⟩ := exists_listing_first hentry hf
    have huse' : InUse P { entry with files := f :: rest } :=
      (@inUse_congr P entry { entry with files := f :: rest } rfl hperm).mpr huse
    have hkept := h listing hlisting _ hmem hdir huse'
    have hkeep := (mem_cleanupIn.1 hkept).2
    simpa [removes, hpid, hdir, readAnyStartTime, ht] using hkeep
  · rintro h listing ⟨l, hl, hsame⟩ listed hlisted hdir huse
    obtain ⟨entry, hentry, hname, hisdir, hfiles⟩ := exists_listed hsame hlisted
    have hone := h entry (hl.mem_iff.mp hentry) (hisdir ▸ hdir)
    exact mem_cleanupIn.2 ⟨hlisted, ((oneGeneration_congr hname hfiles).mpr hone).kept huse⟩

/-- The header of a table created at a start time. -/
def tableBytes (startTime : UInt64) : Bytes :=
  Layout.Header.bytes ⟨magicMemt, Layout.layoutVersion, 128, Layout.byteOrderMark, 0, 0,
    0, 0, 0, 128, 0, 0, 7, 0, startTime, 0, 0, 0, 0, 0, 0, 0⟩

/-- Process 7, alive since 200. -/
def oneProcess : Processes where
  live pid := if pid = 7 then some 200 else none
  processStartTime pid := if pid = 7 then 200 else 0
  truthful pid start h := by
    by_cases hpid : pid = 7
    · simp only [if_pos hpid, Option.some.injEq] at h ⊢
      exact .inr h
    · simp [hpid] at h

/-- The directory of pid 7: a table of an earlier process and one of the live process. -/
def recycledDir : BaseEntry :=
  ⟨"7", true, [⟨"old", 100, some (tableBytes 100)⟩, ⟨"new", 200, some (tableBytes 200)⟩]⟩

/-- The table of the live process is deleted if the old one is listed first. -/
theorem recycled_pid_deleted :
    ¬ KeepsLive oneProcess [recycledDir] ∧ (cleanupIn oneProcess [recycledDir]).1 = [] ∧
      (cleanupIn oneProcess [{ recycledDir with files := recycledDir.files.reverse }]).1 =
        [{ recycledDir with files := recycledDir.files.reverse }] := by
  have hgone : (cleanupIn oneProcess [recycledDir]).1 = [] := by decide +kernel
  refine ⟨fun h => ?_, hgone, by decide +kernel⟩
  have huse : InUse oneProcess recycledDir := by
    refine ⟨7, 200, by decide, by decide, ⟨"new", 200, some (tableBytes 200)⟩, ?_, rfl⟩
    exact List.mem_cons_of_mem _ List.mem_cons_self
  have hkept := h recycledDir List.mem_cons_self rfl huse
  rw [hgone] at hkept
  cases hkept

end Probing.Memt
