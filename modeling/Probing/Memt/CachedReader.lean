import Probing.Memt.Row

/-!
# A cursor with a cache of references

A reader of many rows remembers where the values lie that references lead to, by offset
in the buffer and generation of the chunk. The oldest entry makes room for a new one, and
the last lookup is kept apart.
-/

namespace Probing.Memt

open Probing.Core

/-- Byte offset and chunk generation. -/
abbrev CacheKey := ℕ × ℕ

structure CachedRange where
  start : ℕ
  stop : ℕ
  deriving DecidableEq

structure CachedReader where
  lastKey : CacheKey
  lastRange : Option CachedRange
  cache : CacheKey → Option CachedRange
  order : List CacheKey
  writePos : ℕ
  maxEntries : ℕ

namespace CachedReader

def new (maxEntries : ℕ) : CachedReader where
  lastKey := (0, 0)
  lastRange := none
  cache := fun _ => none
  order := []
  writePos := 0
  maxEntries := max 4 (min maxEntries 256)

variable (r : CachedReader)

/-- `order[write_pos]` is overwritten once the list is full. -/
def makeRoom (key : CacheKey) : CachedReader :=
  if r.order.length < r.maxEntries then { r with order := r.order ++ [key] }
  else
    { r with
      cache := Function.update r.cache (r.order.getD r.writePos key) none
      order := r.order.set r.writePos key
      writePos := (r.writePos + 1) % r.maxEntries }

/-- Offsets into the payload of a chunk that starts at `chunk_start`. The cursor has found
that the value ends in the chunk, so it ends in the buffer. -/
def resolveSlow (payload : Bytes) (chunkStart : ℕ) (key : CacheKey) (dataOff : ℕ) :
    Option CachedRange × CachedReader :=
  let len := (getLe UInt32 payload (dataOff - (chunkStart + chunkHeaderSize))).toNat
  let range := ⟨dataOff + 4, dataOff + 4 + len⟩
  let made := r.makeRoom key
  (some range,
    { made with
      lastKey := key
      lastRange := some range
      cache := Function.update made.cache key (some range) })

def resolveRange (payload : Bytes) (chunkStart dataOff generation : ℕ) :
    Option CachedRange × CachedReader :=
  let key := (dataOff, generation)
  if key = r.lastKey then (r.lastRange, r)
  else
    match r.cache key with
    | some range => (some range, { r with lastKey := key, lastRange := some range })
    | none => r.resolveSlow payload chunkStart key dataOff

def resolveRef (payload : Bytes) (chunkStart dataOff generation : ℕ) : Bytes × CachedReader :=
  match r.resolveRange payload chunkStart dataOff generation with
  | (none, r') => ([], r')
  | (some range, r') =>
      (slice payload (range.start - (chunkStart + chunkHeaderSize)) (range.stop - range.start), r')

/-- Every entry satisfies `P`; nothing was looked up before the first entry. -/
structure Entries (P : CacheKey → CachedRange → Prop) : Prop where
  last : ∀ range, r.lastRange = some range → P r.lastKey range
  unset : r.lastRange = none → r.lastKey = (0, 0)
  cache : ∀ key range, r.cache key = some range → P key range

variable {r} {P Q : CacheKey → CachedRange → Prop} {key : CacheKey} {range : CachedRange}

theorem new_entries (maxEntries : ℕ) : (new maxEntries).Entries P :=
  ⟨fun _ h => (nomatch h), fun _ => rfl, fun _ _ h => (nomatch h)⟩

theorem Entries.imp (h : r.Entries P) (hPQ : ∀ key range, P key range → Q key range) :
    r.Entries Q where
  last range hlast := hPQ _ _ (h.last range hlast)
  unset := h.unset
  cache key range hcache := hPQ _ _ (h.cache key range hcache)

/-- Eviction only forgets. -/
theorem makeRoom_cache {added : CacheKey} (h : (r.makeRoom added).cache key = some range) :
    r.cache key = some range := by
  unfold makeRoom at h
  split_ifs at h
  · exact h
  · change Function.update _ _ _ key = _ at h
    rw [Function.update_apply] at h
    split_ifs at h
    exact h

section Resolve

variable {payload : Bytes} {chunkStart dataOff generation : ℕ}

/-- What the lookup of an offset yields while the chunk keeps its generation. -/
def rangeAt (payload : Bytes) (chunkStart dataOff : ℕ) : CachedRange :=
  ⟨dataOff + 4,
    dataOff + 4 + (getLe UInt32 payload (dataOff - (chunkStart + chunkHeaderSize))).toNat⟩

/-- A lookup yields the range there is now, from the cache or not, when the entries for the
key are this range. -/
theorem Entries.resolveRange (h : r.Entries P) (hkey : 0 < dataOff)
    (hnow : P (dataOff, generation) (rangeAt payload chunkStart dataOff))
    (honly : ∀ range, P (dataOff, generation) range → range = rangeAt payload chunkStart dataOff) :
    (r.resolveRange payload chunkStart dataOff generation).1 =
        some (rangeAt payload chunkStart dataOff) ∧
      (r.resolveRange payload chunkStart dataOff generation).2.Entries P := by
  unfold CachedReader.resolveRange
  dsimp only
  by_cases hlast : (dataOff, generation) = r.lastKey
  · rw [if_pos hlast]
    refine ⟨?_, h⟩
    cases hrange : r.lastRange with
    | none =>
        have hzero := hlast.trans (h.unset hrange)
        exact absurd (congrArg Prod.fst hzero) (Nat.ne_of_gt hkey)
    | some range => rw [honly range (hlast ▸ h.last range hrange)]
  · rw [if_neg hlast]
    cases hcache : r.cache (dataOff, generation) with
    | some range =>
        have hentry := h.cache _ _ hcache
        refine ⟨congrArg some (honly range hentry), ?_, fun hunset => (nomatch hunset), h.cache⟩
        intro range' hrange
        obtain rfl := Option.some.inj hrange
        exact hentry
    | none =>
        refine ⟨rfl, ?_, fun hunset => (nomatch hunset), ?_⟩
        · intro range hrange
          obtain rfl := Option.some.inj hrange
          exact hnow
        · intro key range hkey
          change Function.update _ _ _ key = _ at hkey
          rw [Function.update_apply] at hkey
          split_ifs at hkey with hsame
          · obtain rfl := Option.some.inj hkey
            rw [hsame]
            exact hnow
          · exact h.cache _ _ (makeRoom_cache hkey)

theorem Entries.resolveRef (h : r.Entries P) {delta : ℕ} (hdelta : chunkHeaderSize ≤ delta)
    (hnow : P (chunkStart + delta, generation) (rangeAt payload chunkStart (chunkStart + delta)))
    (honly : ∀ range, P (chunkStart + delta, generation) range →
      range = rangeAt payload chunkStart (chunkStart + delta)) :
    (r.resolveRef payload chunkStart (chunkStart + delta) generation).1 =
        slice payload (delta - chunkHeaderSize + 4)
          (getLe UInt32 payload (delta - chunkHeaderSize)).toNat ∧
      (r.resolveRef payload chunkStart (chunkStart + delta) generation).2.Entries P := by
  have hpos : 0 < chunkStart + delta := by
    unfold chunkHeaderSize at hdelta
    omega
  obtain ⟨hrange, hentries⟩ := h.resolveRange hpos hnow honly
  unfold CachedReader.resolveRef
  cases hresolve : r.resolveRange payload chunkStart (chunkStart + delta) generation with
  | mk found r' =>
      rw [hresolve] at hrange hentries
      obtain rfl := hrange
      refine ⟨?_, hentries⟩
      have hoff : chunkStart + delta - (chunkStart + chunkHeaderSize) =
          delta - chunkHeaderSize := by omega
      have hstart : chunkStart + delta + 4 - (chunkStart + chunkHeaderSize) =
          delta - chunkHeaderSize + 4 := by
        omega
      change slice _ _ _ = _
      unfold rangeAt
      dsimp only
      rw [hstart, hoff, Nat.add_sub_cancel_left]

end Resolve

end CachedReader

/-- A cursor over a row, with the payload of its chunk. The row holds a pin, which is
taken to protect the chunk: `generation_matches` is `true`. -/
structure CachedCursor where
  data : Bytes
  payload : Bytes
  pos : ℕ
  chunkStart : ℕ
  generation : ℕ
  cache : CachedReader
  stale : Bool

namespace CachedCursor

variable (c : CachedCursor)

def markStale : CachedCursor := { c with stale := true }

def readFixed (α : Type) [LeWord α] : α × CachedCursor :=
  if c.stale then (LeWord.ofNat 0, c.markStale)
  else
    match tryRead α c.data c.pos with
    | none => (LeWord.ofNat 0, c.markStale)
    | some v => (v, { c with pos := c.pos + LeWord.width α })

def readLpCached : Bytes × CachedCursor :=
  if c.stale then ([], c)
  else
    let (raw, c') := c.readFixed Int32
    if c'.stale then ([], c')
    else if raw < 0 then
      match refDelta raw with
      | none => ([], c'.markStale)
      | some delta =>
          let chunkSize := c.payload.length + chunkHeaderSize
          if delta < chunkHeaderSize ∨ chunkSize < delta + 4 then ([], c'.markStale)
          else
            let len := (getLe UInt32 c.payload (delta - chunkHeaderSize)).toNat
            if chunkSize < delta + 4 + len then ([], c'.markStale)
            else
              let (value, cache) :=
                c'.cache.resolveRef c.payload c.chunkStart (c.chunkStart + delta) c.generation
              (value, { c' with cache := cache })
    else
      let len := raw.toInt.toNat
      if c'.pos + len ≤ c.data.length then
        (slice c.data c'.pos len, { c' with pos := c'.pos + len })
      else ([], c'.markStale)

/-- `next_u8` and its siblings. -/
def next (dt : DType) : Value × CachedCursor :=
  match dt with
  | .U8 => let (v, c') := c.readFixed UInt8; (.U8 v, c')
  | .U32 => let (v, c') := c.readFixed UInt32; (.U32 v, c')
  | .I32 => let (v, c') := c.readFixed Int32; (.I32 v, c')
  | .I64 => let (v, c') := c.readFixed Int64; (.I64 v, c')
  | .F32 => let (v, c') := c.readFixed UInt32; (.F32 v, c')
  | .F64 => let (v, c') := c.readFixed UInt64; (.F64 v, c')
  | .U64 => let (v, c') := c.readFixed UInt64; (.U64 v, c')
  | .Str => let (b, c') := c.readLpCached; (.Str (Row.text b), c')
  | .Bytes => let (b, c') := c.readLpCached; (.Bytes b, c')

/-- The cursor without the cache. -/
def plain : RowCursor := ⟨c.data, c.pos, c.payload, c.stale⟩

/-- The cursor at the place of another one. -/
def moved (r : RowCursor) : CachedCursor := { c with pos := r.pos, stale := r.stale }

end CachedCursor

/-- The reference at the position of a cursor, as a text column is read. -/
def RowCursor.followed (c : RowCursor) : Option ℕ :=
  if c.stale then none
  else (tryRead Int32 c.data c.pos).bind fun raw => if raw < 0 then refDelta raw else none

namespace CachedCursor

variable {c : CachedCursor} {P : CacheKey → CachedRange → Prop}

theorem readFixed_eq (α : Type) [LeWord α] :
    c.readFixed α = ((c.plain.readFixed α).1, c.moved (c.plain.readFixed α).2) := by
  unfold readFixed RowCursor.readFixed
  change (if c.stale then _ else _) =
    (((if c.stale then _ else _ : α × RowCursor)).1,
      c.moved ((if c.stale then _ else _ : α × RowCursor)).2)
  by_cases hstale : c.stale = true
  · rw [if_pos hstale, if_pos hstale]
    rfl
  · rw [if_neg hstale, if_neg hstale]
    change (match tryRead α c.data c.pos with | none => _ | some v => _) =
      ((match tryRead α c.data c.pos with | none => _ | some v => _ : α × RowCursor).1,
        c.moved (match tryRead α c.data c.pos with | none => _ | some v => _ : α × RowCursor).2)
    cases tryRead α c.data c.pos <;> rfl

/-- The entries for the reference at the position are the range there is now. -/
def Serves (c : CachedCursor) (P : CacheKey → CachedRange → Prop) : Prop :=
  ∀ delta, c.plain.followed = some delta → chunkHeaderSize ≤ delta →
    delta + 4 ≤ c.payload.length + chunkHeaderSize →
    P (c.chunkStart + delta, c.generation)
      (CachedReader.rangeAt c.payload c.chunkStart (c.chunkStart + delta)) ∧
      ∀ range, P (c.chunkStart + delta, c.generation) range →
        range = CachedReader.rangeAt c.payload c.chunkStart (c.chunkStart + delta)

/-- The value of the other cursor, whose place is taken over. -/
def Agrees (c : CachedCursor) (P : CacheKey → CachedRange → Prop) {α : Type}
    (read : α × CachedCursor) (plain : α × RowCursor) : Prop :=
  read.1 = plain.1 ∧ ∃ cache : CachedReader, cache.Entries P ∧
    read.2 = { c.moved plain.2 with cache := cache }

theorem readFixed_agrees (hentries : c.cache.Entries P) (α : Type) [LeWord α] :
    c.Agrees P (c.readFixed α) (c.plain.readFixed α) := by
  rw [readFixed_eq]
  exact ⟨rfl, c.cache, hentries, rfl⟩

/-- A reference is resolved to the bytes that a plain cursor finds. -/
theorem readLpCached_agrees (hentries : c.cache.Entries P) (hserves : c.Serves P) :
    c.Agrees P c.readLpCached c.plain.readLp := by
  unfold Serves RowCursor.followed at hserves
  unfold readLpCached RowCursor.readLp
  rw [readFixed_eq]
  change c.Agrees P (if c.stale then _ else _) (if c.stale then _ else _)
  by_cases hstale : c.stale = true
  · rw [if_pos hstale, if_pos hstale]
    exact ⟨rfl, c.cache, hentries, rfl⟩
  · have hstale' : ¬ c.plain.stale = true := hstale
    rw [if_neg hstale'] at hserves
    rw [if_neg hstale, if_neg hstale]
    unfold RowCursor.readFixed
    rw [if_neg hstale']
    cases hraw : tryRead Int32 c.plain.data c.plain.pos with
    | none => exact ⟨rfl, c.cache, hentries, rfl⟩
    | some raw =>
        rw [hraw, Option.bind_some] at hserves
        dsimp only [moved]
        rw [if_neg hstale', if_neg hstale']
        by_cases hneg : raw < 0
        · rw [if_pos hneg] at hserves ⊢
          rw [if_pos hneg]
          cases hdelta : refDelta raw with
          | none => exact ⟨rfl, c.cache, hentries, rfl⟩
          | some delta =>
              have hpayload : c.plain.payload = c.payload := rfl
              rw [Option.bind_some, hpayload]
              dsimp only [referenced]
              by_cases hout : delta < chunkHeaderSize ∨
                c.payload.length + chunkHeaderSize < delta + 4
              · rw [if_pos hout, if_pos hout]
                exact ⟨rfl, c.cache, hentries, rfl⟩
              · rw [if_neg hout, if_neg hout]
                split_ifs with hend
                · exact ⟨rfl, c.cache, hentries, rfl⟩
                · rw [not_or, Nat.not_lt, Nat.not_lt] at hout
                  obtain ⟨hnow, honly⟩ := hserves delta hdelta hout.1 hout.2
                  obtain ⟨hvalue, hcache⟩ := hentries.resolveRef hout.1 hnow honly
                  exact ⟨hvalue, _, hcache, rfl⟩
        · rw [if_neg hneg, if_neg hneg]
          by_cases hend : c.plain.pos + LeWord.width Int32 + raw.toInt.toNat ≤ c.data.length
          · have hend' : c.plain.pos + LeWord.width Int32 + raw.toInt.toNat ≤
                c.plain.data.length := hend
            rw [if_pos hend, if_pos hend']
            exact ⟨rfl, c.cache, hentries, rfl⟩
          · have hend' : ¬ c.plain.pos + LeWord.width Int32 + raw.toInt.toNat ≤
                c.plain.data.length := hend
            rw [if_neg hend, if_neg hend']
            exact ⟨rfl, c.cache, hentries, rfl⟩

/-- The columns of fixed width are read without the cache. -/
theorem next_agrees (hentries : c.cache.Entries P) {dt : DType}
    (hserves : dt.fixedSize = none → c.Serves P) : c.Agrees P (c.next dt) (c.plain.next dt) := by
  have hfixed (α : Type) [LeWord α] (f : α → Value) :
      c.Agrees P (f (c.readFixed α).1, (c.readFixed α).2)
        (f (c.plain.readFixed α).1, (c.plain.readFixed α).2) := by
    obtain ⟨hvalue, cache, hcache, hcursor⟩ := @readFixed_agrees c P hentries α _
    exact ⟨congrArg f hvalue, cache, hcache, hcursor⟩
  have hlp (f : Bytes → Value) (hnone : dt.fixedSize = none) :
      c.Agrees P (f c.readLpCached.1, c.readLpCached.2) (f c.plain.readLp.1, c.plain.readLp.2) := by
    obtain ⟨hvalue, cache, hcache, hcursor⟩ := readLpCached_agrees hentries (hserves hnone)
    exact ⟨congrArg f hvalue, cache, hcache, hcursor⟩
  cases dt with
  | U8 | U32 | I32 | I64 | F32 | F64 | U64 => exact hfixed _ _
  | Str => exact hlp (fun b => .Str (Row.text b)) rfl
  | Bytes => exact hlp Value.Bytes rfl

end CachedCursor

end Probing.Memt
