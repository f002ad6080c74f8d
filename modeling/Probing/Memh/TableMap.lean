import Mathlib.Data.Finmap
import Probing.Memh.TableView

/-!
# A table is a finite map

The abstract table is a map and the number of bytes its arena has used. Each bucket of a
table in the middle of a run holds an entry of the map, so that the calls of the writer
answer as the map does and the view reads the map.
-/

namespace Probing.Memh.Table

open Probing.Core Probing.Memt Probing.Core.OpenAddressing

/-- The bytes of a record with a payload of a length. -/
def recordSize (key : String) (payload : ℕ) : ℕ :=
  align4 (arenaHdrSize + (utf8 key).length + payload)

/-- The bytes of the record that an insertion appends. -/
def putSize (key : String) (val : Value) : ℕ :=
  recordSize key (if isScalarDtype val.dtype then 0 else val.encodedSize)

/-- What a call returned. -/
inductive Answer where
  | inserted (result : Except InsertError InsertResult)
  | removed (found : Bool)

/-- A finite map, and the bytes of the arena that are used. -/
structure MapState where
  map : Finmap fun _ : String => Value
  bump : ℕ

namespace MapState

def empty : MapState := ⟨∅, 0⟩

def get (s : MapState) (key : String) : Option Value := s.map.lookup key

variable (numBuckets arenaCap : ℕ) (s : MapState)

def put (key : String) (val : Value) (result : InsertResult) :
    MapState × Except InsertError InsertResult :=
  if arenaCap < s.bump + putSize key val then (s, .error .ArenaFull)
  else (⟨s.map.insert key val, s.bump + putSize key val⟩, .ok result)

def insert (key : String) (val : Value) : MapState × Except InsertError InsertResult :=
  match s.get key with
  | none =>
      if s.map.keys.card = numBuckets then (s, .error .TableFull)
      else s.put arenaCap key val .Inserted
  | some old =>
      if isScalarDtype old.dtype ∧ isScalarDtype val.dtype then
        (⟨s.map.insert key val, s.bump⟩, .ok .Updated)
      else s.put arenaCap key val .Updated

/-- A removal leaves a record where there is room for one. -/
def remove (key : String) : MapState × Bool :=
  match s.get key with
  | none => (s, false)
  | some _ =>
      let size := recordSize key 0
      (⟨s.map.erase key, if arenaCap < s.bump + size then s.bump else s.bump + size⟩, true)

def call : Call → MapState × Answer
  | .insert acquired key val =>
      if acquired then
        let done := s.insert numBuckets arenaCap key val
        (done.1, .inserted done.2)
      else (s, .inserted (.error .WriterBusy))
  | .remove acquired key =>
      if acquired then
        let done := s.remove arenaCap key
        (done.1, .removed done.2)
      else (s, .removed false)

def run (calls : List Call) : MapState :=
  calls.foldl (fun s c => (s.call numBuckets arenaCap c).1) s

def answers : MapState → List Call → List Answer
  | _, [] => []
  | s, c :: calls =>
      (s.call numBuckets arenaCap c).2 :: answers (s.call numBuckets arenaCap c).1 calls

variable {s} {key : String}

theorem get_insert (s : MapState) (key : String) (val : Value) (bump : ℕ) :
    get ⟨s.map.insert key val, bump⟩ = Function.update s.get key (some val) := by
  refine Function.eq_update_iff.mpr ⟨Finmap.lookup_insert s.map, fun other hother => ?_⟩
  exact Finmap.lookup_insert_of_ne s.map hother

theorem get_erase (s : MapState) (key : String) (bump : ℕ) :
    get ⟨s.map.erase key, bump⟩ = Function.update s.get key none := by
  refine Function.eq_update_iff.mpr ⟨Finmap.lookup_erase key s.map, fun other hother => ?_⟩
  exact Finmap.lookup_erase_ne hother

/-- The size of a map whose pairs are listed once. -/
theorem card_eq {pairs : List (String × Value)} (hnodup : (pairs.map Prod.fst).Nodup)
    (hmem : ∀ key val, (key, val) ∈ pairs ↔ s.get key = some val) :
    s.map.keys.card = pairs.length := by
  have hkeys : s.map.keys = (pairs.map Prod.fst).toFinset := by
    ext key
    rw [Finmap.mem_keys, List.mem_toFinset, List.mem_map, Finmap.mem_iff]
    constructor
    · rintro ⟨val, hval⟩
      exact ⟨(key, val), (hmem key val).mpr hval, rfl⟩
    · rintro ⟨⟨key, val⟩, hpair, rfl⟩
      exact ⟨val, (hmem key val).mp hpair⟩
  rw [hkeys, List.toFinset_card_of_nodup hnodup, List.length_map]

end MapState

namespace Traced

variable (hash_key : UInt64 → String → UInt64)

def answer (t : Traced) : Call → Answer
  | .insert acquired key val =>
      .inserted ((MemhWriter.newUnchecked t.buf).insert t.buf hash_key acquired key val).result
  | .remove acquired key =>
      .removed ((MemhWriter.newUnchecked t.buf).remove t.buf hash_key acquired key).result

def answers : Traced → List Call → List Answer
  | _, [] => []
  | t, c :: calls => t.answer hash_key c :: answers (t.call hash_key c) calls

end Traced

/-- Sizes of a table that keeps its promises. -/
structure Usable (z : Sizes) : Prop where
  pow_two : z.numBuckets.toNat.isPowerOfTwo
  addressable : z.Addressable

namespace Usable

variable {z : Sizes}

theorem probeIdx_eq (h : Usable z) (kh : UInt64) (probe : ℕ) :
    z.writer.probeIdx kh probe = (kh.toNat % z.numBuckets.toNat + probe) % z.numBuckets.toNat := by
  obtain ⟨k, hk⟩ := h.pow_two
  have hmask : z.writer.mask = 2 ^ k - 1 := congrArg (· - 1) hk
  rw [MemhWriter.probeIdx, hmask, Nat.and_two_pow_sub_one_eq_mod,
    Nat.and_two_pow_sub_one_eq_mod, hk]

/-- Where each key is looked for. -/
def scheme (h : Usable z) (hash : String → UInt64) : Scheme String where
  size := z.numBuckets.toNat
  visits key := (List.range' 0 z.numBuckets.toNat).map (z.writer.probeIdx (hash key))
  each key := by
    rw [← List.range_eq_range']
    exact (List.Perm.of_eq
      (List.map_congr_left fun probe _ => h.probeIdx_eq (hash key) probe)).trans
      (linear_perm z.some_bucket _)

end Usable

section Writes

variable {hash : String → UInt64} {z : Sizes} {t : Traced} {idx : ℕ} {key : String}
    {val old : Value}

theorem encodePut_length (slotIdx : ℕ) (key : String) (val : Value) (kh : UInt64)
    (prevOff : UInt32) :
    (MemhWriter.encodePut slotIdx key val kh (isScalarDtype val.dtype) prevOff).length =
      putSize key val := by
  unfold MemhWriter.encodePut putSize recordSize
  cases hscalar : isScalarDtype val.dtype with
  | true => exact encodeRecord_length _ _ _ _ _ _ _
  | false =>
      refine (encodeRecord_length _ _ _ _ _ _ _).trans ?_
      rw [Value.encode_length, if_neg Bool.false_ne_true]

/-- A record at the end of the arena, before its slot is updated. -/
structure Linking (z : Sizes) (t : Traced) (mid : Bytes) (idx abs : ℕ) (record : Bytes) : Prop where
  head : (UInt32.ofNat abs).toNat = abs
  placed : Placed mid (slotOff computeDataOffset idx)
  slot : readSlot mid computeDataOffset idx = readSlot t.buf computeDataOffset idx
  changed : ∀ {buf'}, SlotUpdated mid buf' (slotOff computeDataOffset idx) →
    Changed z t.buf buf' idx
  bump : ∀ {buf'}, SlotUpdated mid buf' (slotOff computeDataOffset idx) →
    (header buf').arenaBump.toNat = (header t.buf).arenaBump.toNat + record.length

theorem linking (hi : Inv z t) (hz : z.Addressable) (hidx : idx < z.numBuckets.toNat)
    {flags : UInt16}
    {valDtype slotIdx prevOff : UInt32} {kh : UInt64} {payload mid : Bytes} {abs : ℕ}
    (happ : z.writer.appendRecord t.buf (header t.buf).arenaBump.toNat
      (encodeRecord flags valDtype key payload slotIdx kh prevOff) = some (mid, abs)) :
    Linking z t mid idx abs (encodeRecord flags valDtype key payload slotIdx kh prevOff) := by
  have hstart := z.arenaStart_eq
  have hroom := hi.room
  have hcap := z.cap_lt
  have hlow := hz.start_lt happ
  obtain ⟨rfl, happended⟩ := appendRecord_some (by change 36 ≤ z.arenaStart; omega) hroom happ
  have hfits : (header t.buf).arenaBump.toNat + _ ≤ z.arenaCap := happended.fits
  obtain ⟨hplaced, hend⟩ :=
    z.slot_placed hidx (by rw [happended.length]; omega : z.arenaStart ≤ mid.length)
  have hbehind := hplaced.behind
  have hapart {k n : ℕ} (hk : k + n ≤ 32) : slice mid (slotOff computeDataOffset idx + k) n =
      slice t.buf (slotOff computeDataOffset idx + k) n := by
    apply happended.apart (.inr (by omega))
    change _ ≤ z.arenaStart + _
    omega
  refine ⟨UInt32.toNat_ofNat_of_lt' hlow, hplaced, ?_, fun hslot => happended.changed hslot,
    fun hslot => ?_⟩
  · ext1
    · exact getLe_congr (hapart (k := 0) (by decide))
    · exact getLe_congr (hapart (by decide))
    · exact getLe_congr (hapart (by decide))
    · exact getLe_congr (hapart (by decide))
    · exact getLe_congr (hapart (by decide))
    · exact hapart (by decide)
  · rw [hslot.bump_eq (by omega), happended.end_stored]
    exact UInt32.toNat_ofNat_of_lt' (by change _ < 2 ^ 32; omega)

/-- A write to a slot: it holds another bucket, and the arena has grown by some bytes. -/
structure Stored (hash : String → UInt64) (z : Sizes) (t : Traced) (buf' : Bytes)
    (event : Option Event) (idx : ℕ) (b : Bucket String Value) (size : ℕ) : Prop where
  inv : Inv z (t.note buf' event)
  changed : Changed z t.buf buf' idx
  bump : (header buf').arenaBump.toNat = (header t.buf).arenaBump.toNat + size
  log : ∀ r ∈ t.log, r ∈ (t.note buf' event).log
  holds : Holds hash (t.note buf' event).log idx (readSlot buf' computeDataOffset idx) b

/-- A slot update that publishes an appended record. -/
theorem Linking.stored {mid buf' record : Bytes} {abs size : ℕ} {fresh : Bool}
    {b : Bucket String Value} (h : Linking z t mid idx abs record)
    (hslot : SlotUpdated mid buf' (slotOff computeDataOffset idx))
    (hinv : Inv z (t.note buf' (some (.linked idx abs record fresh))))
    (hsize : record.length = size) (hholds : ∀ log : List Logged,
      (∃ r ∈ log, r.pos = (UInt32.ofNat abs).toNat ∧ r.bytes = record) →
      Holds hash log idx (readSlot buf' computeDataOffset idx) b) :
    Stored hash z t buf' (some (.linked idx abs record fresh)) idx b size where
  inv := hinv
  changed := h.changed hslot
  bump := by rw [h.bump hslot, hsize]
  log _ hr := List.mem_append_left _ hr
  holds := hholds _ ⟨_, List.mem_append_right _ List.mem_cons_self, h.head.symm, rfl⟩

/-- A call that appends a record has room for it. -/
theorem append_fits {record : Bytes} {size : ℕ} (buf : Bytes) (bump : ℕ)
    (hsize : record.length = size) :
    (z.arenaCap < bump + size ∧ z.writer.appendRecord buf bump record = none) ∨
      (¬ z.arenaCap < bump + size ∧ ∃ mid abs, z.writer.appendRecord buf bump record =
        some (mid, abs)) := by
  subst hsize
  cases happ : z.writer.appendRecord buf bump record with
  | none => exact .inl ⟨appendRecord_none.mp happ, rfl⟩
  | some r =>
      refine .inr ⟨fun hfull => ?_, r.1, r.2, rfl⟩
      cases happ.symm.trans (appendRecord_none.mpr hfull)

theorem writeNewEntry_spec (hash : String → UInt64) (hi : Inv z t) (hz : z.Addressable)
    (hidx : idx < z.numBuckets.toNat)
    (hkey : (utf8 key).length < 2 ^ 16) (val : Value) :
    let bump := (header t.buf).arenaBump.toNat
    let done := z.writer.writeNewEntry t.buf idx key val (hash key) bump (isScalarDtype val.dtype)
    if z.arenaCap < bump + putSize key val then done = ⟨t.buf, none, .error .ArenaFull⟩
    else done.result = .ok () ∧
      Stored hash z t done.buf done.event idx (.live key val) (putSize key val) := by
  have hinv :
      let done := z.writer.writeNewEntry t.buf idx key val (hash key) (header t.buf).arenaBump.toNat
        (isScalarDtype val.dtype)
      Inv z (t.note done.buf done.event) := hi.writeNewEntry hz hidx
  have hlen := encodePut_length idx key val (hash key) noPrev
  dsimp only at hinv ⊢
  unfold MemhWriter.writeNewEntry at hinv ⊢
  dsimp only at hinv ⊢
  rcases append_fits (z := z) t.buf (header t.buf).arenaBump.toNat hlen with
    ⟨hfull, happ⟩ | ⟨hfits, mid, abs, happ⟩
  · rw [if_pos hfull, happ]
  rw [if_neg hfits]
  rw [happ] at hinv ⊢
  dsimp only at hinv ⊢
  cases hscalar : isScalarDtype val.dtype with
  | true =>
      obtain ⟨dtype, bytes, hinline, hbytes⟩ := encodeInlineBytes_some hscalar
      rw [hscalar] at happ hlen hinv
      rw [if_pos rfl, hinline] at hinv
      rw [if_pos rfl, hinline]
      have hlink :=
        linking hi hz hidx
          (show z.writer.appendRecord _ _ (encodeRecord _ _ _ _ _ _ _) = _ from happ)
      refine ⟨rfl, hlink.stored (commitSlot_updated _ _ _ _ _ hlink.placed hbytes) hinv hlen ?_⟩
      rintro log ⟨r, hr, hpos, hrecord⟩
      change Holds hash log idx (readSlot (commitSlot mid computeDataOffset idx _ _ _ _ _ _) _ _) _
      rw [readSlot_commitSlot _ _ _ _ _ hlink.placed hbytes]
      exact .inline rfl ⟨rfl, rfl⟩ hinline ⟨hkey, _, r, hr, hpos, hrecord⟩
  | false =>
      rw [hscalar] at happ hlen hinv
      rw [if_neg Bool.false_ne_true] at hinv
      rw [if_neg Bool.false_ne_true]
      have hlink :=
        linking hi hz hidx
          (show z.writer.appendRecord _ _ (encodeRecord _ _ _ _ _ _ _) = _ from happ)
      refine ⟨rfl,
        hlink.stored (commitSlot_updated _ _ _ _ _ hlink.placed List.length_replicate) hinv hlen ?_⟩
      rintro log ⟨r, hr, hpos, hrecord⟩
      change Holds hash log idx (readSlot (commitSlot mid computeDataOffset idx _ _ _ _ _ _) _ _) _
      rw [readSlot_commitSlot _ _ _ _ _ hlink.placed List.length_replicate]
      exact .occupied rfl ⟨rfl, rfl⟩ hscalar ⟨hkey, _, r, hr, hpos, hrecord⟩

/-- The record of an inline slot, and what identifies a live one. -/
theorem Holds.inline_head {log : List Logged} {slot : Slot}
    (h : Holds hash log idx slot (.live key old)) (htag : slot.tag = slotInline) :
    HeadRecord hash log idx slot flagPutInline dtypeNone key [] := by
  cases h with
  | occupied tag keyed scalar head => exact absurd (tag.symm.trans htag) (by decide)
  | inline tag keyed stored head => exact head

theorem writeUpdate_spec (hi : Inv z t) (hz : z.Addressable) (hidx : idx < z.numBuckets.toNat)
    (hh : Holds hash t.log idx (readSlot t.buf computeDataOffset idx) (.live key old))
    (val : Value) :
    let bump := (header t.buf).arenaBump.toNat
    let slot := readSlot t.buf computeDataOffset idx
    let done := z.writer.writeUpdate t.buf idx slot.tag key val (hash key) bump
        (isScalarDtype val.dtype) slot.headOff
    if isScalarDtype old.dtype ∧ isScalarDtype val.dtype then
      done.result = .ok () ∧ Stored hash z t done.buf done.event idx (.live key val) 0
    else if z.arenaCap < bump + putSize key val then done = ⟨t.buf, none, .error .ArenaFull⟩
    else done.result = .ok () ∧
      Stored hash z t done.buf done.event idx (.live key val) (putSize key val) := by
  have hlive := hh.live_iff.mpr rfl
  have hinv :
      let slot := readSlot t.buf computeDataOffset idx
      let done :=
        z.writer.writeUpdate t.buf idx slot.tag key val (hash key) (header t.buf).arenaBump.toNat
        (isScalarDtype val.dtype) slot.headOff
      Inv z (t.note done.buf done.event) := hi.writeUpdate hz hidx hlive
  have htag := hh.tag_eq
  obtain ⟨hkeyed, hkey⟩ := hh.keyed
  have hroom := hi.room
  obtain ⟨hplaced, -⟩ := z.slot_placed hidx (by omega : z.arenaStart ≤ t.buf.length)
  have hbehind := hplaced.behind
  have hlen :=
    encodePut_length idx key val (hash key) (readSlot t.buf computeDataOffset idx).headOff
  dsimp only at hinv ⊢
  unfold MemhWriter.writeUpdate at hinv ⊢
  by_cases hboth : isScalarDtype old.dtype = true ∧ isScalarDtype val.dtype = true
  · -- a scalar over a scalar stays in the slot and keeps its record
    have hinline : (readSlot t.buf computeDataOffset idx).tag = slotInline := by
      rw [htag, if_pos hboth.1]
    obtain ⟨dtype, bytes, hencode, hbytes⟩ := encodeInlineBytes_some hboth.2
    have hupdated := update_inline_updated dtype hplaced hbytes
    have hslot : readSlot (updateSlotInlineValue t.buf computeDataOffset idx dtype bytes)
      computeDataOffset idx =
        { readSlot t.buf computeDataOffset idx with
          tag := slotInline, valDtype := dtype, valBytes := bytes } :=
        readSlot_update_inline hplaced hbytes
    rw [if_pos ⟨hinline, hboth.2⟩, hencode] at hinv
    rw [if_pos hboth, if_pos ⟨hinline, hboth.2⟩, hencode]
    refine ⟨rfl, hinv, hupdated.changed, congrArg UInt32.toNat (hupdated.bump_eq (by omega)),
      fun _ hr => hr, ?_⟩
    change Holds hash t.log idx (readSlot (updateSlotInlineValue _ computeDataOffset _ _ _) _ _) _
    rw [hslot]
    exact .inline rfl ⟨hkeyed.hash_eq, hkeyed.keyLen⟩ hencode (hh.inline_head hinline)
  have hnot : ¬ ((readSlot t.buf computeDataOffset idx).tag = slotInline ∧
      isScalarDtype val.dtype = true) := by
    rintro ⟨hinline, hval⟩
    refine hboth ⟨?_, hval⟩
    by_contra hold
    rw [htag, if_neg hold] at hinline
    exact absurd hinline (by decide)
  rw [if_neg hnot] at hinv
  rw [if_neg hboth, if_neg hnot]
  dsimp only at hinv ⊢
  rcases append_fits (z := z) t.buf (header t.buf).arenaBump.toNat hlen with
    ⟨hfull, happ⟩ | ⟨hfits, mid, abs, happ⟩
  · rw [if_pos hfull, happ]
  rw [if_neg hfits]
  rw [happ] at hinv ⊢
  dsimp only at hinv ⊢
  cases hscalar : isScalarDtype val.dtype with
  | true =>
      obtain ⟨dtype, bytes, hinline, hbytes⟩ := encodeInlineBytes_some hscalar
      rw [hscalar] at happ hlen hinv
      rw [if_pos rfl, hinline] at hinv
      rw [if_pos rfl, hinline]
      have hlink :=
        linking hi hz hidx
          (show z.writer.appendRecord _ _ (encodeRecord _ _ _ _ _ _ _) = _ from happ)
      refine ⟨rfl, hlink.stored (commitSlot_updated _ _ _ _ _ hlink.placed hbytes) hinv hlen ?_⟩
      rintro log ⟨r, hr, hpos, hrecord⟩
      change Holds hash log idx (readSlot (commitSlot mid computeDataOffset idx _ _ _ _ _ _) _ _) _
      rw [readSlot_commitSlot _ _ _ _ _ hlink.placed hbytes]
      exact .inline rfl ⟨rfl, rfl⟩ hinline ⟨hkey, _, r, hr, hpos, hrecord⟩
  | false =>
      rw [hscalar] at happ hlen hinv
      rw [if_neg Bool.false_ne_true] at hinv
      rw [if_neg Bool.false_ne_true]
      have hlink :=
        linking hi hz hidx
          (show z.writer.appendRecord _ _ (encodeRecord _ _ _ _ _ _ _) = _ from happ)
      refine ⟨rfl, hlink.stored (commitSlotHead_updated _ _ hlink.placed) hinv hlen ?_⟩
      rintro log ⟨r, hr, hpos, hrecord⟩
      change Holds hash log idx (readSlot (commitSlotHead mid computeDataOffset idx _ _) _ _) _
      rw [readSlot_commitSlotHead hlink.placed, hlink.slot]
      exact .occupied rfl ⟨hkeyed.hash_eq, hkeyed.keyLen⟩ hscalar ⟨hkey, _, r, hr, hpos, hrecord⟩

/-- A removal of a key that is found. -/
theorem removeLocked_spec {hash_key : UInt64 → String → UInt64} (hi : Inv z t) (hz : z.Addressable)
    (hidx : idx < z.numBuckets.toNat)
    (hh :
      Holds (hash_key z.hashSeed) t.log idx (readSlot t.buf computeDataOffset idx) (.live key old))
    (hprobe : z.writer.removeProbe t.buf key (hash_key z.hashSeed key) z.numBuckets.toNat 0 =
      .found idx) :
    let bump := (header t.buf).arenaBump.toNat
    let done := z.writer.removeLocked t.buf hash_key key
    done.result = true ∧ Stored (hash_key z.hashSeed) z t done.buf done.event idx .tomb
      (if z.arenaCap < bump + recordSize key 0 then 0 else recordSize key 0) := by
  have hinv := hi.removeLocked hash_key key hz
  obtain ⟨hkeyed, hkey⟩ := hh.keyed
  have hroom := hi.room
  obtain ⟨hplaced, -⟩ := z.slot_placed hidx (by omega : z.arenaStart ≤ t.buf.length)
  have hbehind := hplaced.behind
  have hlen : (encodeTombstoneRecord key (UInt32.ofNat idx) (hash_key z.hashSeed key)
      (readSlot t.buf computeDataOffset idx).headOff).length = recordSize key 0 :=
    encodeRecord_length _ _ _ _ _ _ _
  have hwriter : z.writer.removeProbe t.buf key (hash_key z.writer.hashSeed key) z.writer.numBuckets
      0 = .found idx :=
    hprobe
  have hdata : z.writer.dataOff = computeDataOffset := rfl
  have hseed : z.writer.hashSeed = z.hashSeed := rfl
  dsimp only at hinv ⊢
  unfold MemhWriter.removeLocked at hinv ⊢
  dsimp only at hinv ⊢
  rw [hwriter] at hinv ⊢
  dsimp only at hinv ⊢
  rw [hdata, hseed] at hinv ⊢
  rcases append_fits (z := z) t.buf (header t.buf).arenaBump.toNat hlen with
    ⟨hfull, happ⟩ | ⟨hfits, mid, abs, happ⟩
  · rw [happ] at hinv ⊢
    rw [if_pos hfull]
    have hupdated := commitSlotHead_updated slotTombstone noHead hplaced
    refine ⟨rfl, hinv, hupdated.changed, congrArg UInt32.toNat (hupdated.bump_eq (by omega)),
      fun _ hr => hr, ?_⟩
    dsimp only
    rw [readSlot_commitSlotHead hplaced]
    exact .tomb rfl (.inl rfl)
  · rw [happ] at hinv ⊢
    rw [if_neg hfits]
    have hlink :=
      linking hi hz hidx (show z.writer.appendRecord _ _ (encodeRecord _ _ _ _ _ _ _) = _ from happ)
    refine ⟨rfl, hlink.stored (commitSlotHead_updated _ _ hlink.placed) hinv hlen ?_⟩
    rintro log ⟨r, hr, hpos, hrecord⟩
    rw [readSlot_commitSlotHead hlink.placed]
    exact .tomb rfl (.inr ⟨key, hkey, _, r, hr, hpos, hrecord⟩)

end Writes

/-- The words of the header and the geometry that no call changes and no writer reads. -/
structure Stamped (buf : Bytes) : Prop where
  magic : (header buf).magic = magicMemh
  version : (header buf).version = versionMemh
  headerSize : (header buf).headerSize.toNat = sizeOfHeader
  byteOrder : (header buf).byteOrder = Layout.byteOrderMark
  slotStride : (geometry buf).slotStride.toNat = sizeOfSlot

section Refinement

variable {hash : String → UInt64} {z : Sizes} {t : Traced} {s : MapState}
    {cell : ℕ → Bucket String Value}

theorem Changed.stamped {buf buf' : Bytes} {idx : ℕ} (h : Changed z buf buf' idx)
    (hs : Stamped buf) : Stamped buf' := by
  have hstart := z.arenaStart_eq
  have hoff : slotOff computeDataOffset idx = 192 + idx * 32 := rfl
  have hheader {k n : ℕ} (hk : k + n ≤ 32) : slice buf' k n = slice buf k n :=
    h.apart (.inl hk) (.inl (by omega)) (by omega)
  have hmeta {k n : ℕ} (hlow : 112 ≤ k) (hk : k + n ≤ 160) : slice buf' k n = slice buf k n :=
    h.apart (.inr hlow) (.inl (by omega)) (by omega)
  have hmagic : (header buf').magic = (header buf).magic := getLe_congr (hheader (by decide))
  have hversion : (header buf').version = (header buf).version := getLe_congr (hheader (by decide))
  have hsize : (header buf').headerSize = (header buf).headerSize :=
    getLe_congr (hheader (by decide))
  have horder : (header buf').byteOrder = (header buf).byteOrder :=
    getLe_congr (hheader (by decide))
  have hstride : (geometry buf').slotStride = (geometry buf).slotStride :=
    getLe_congr (hmeta (by decide) (by decide))
  constructor
  · rw [hmagic, hs.magic]
  · rw [hversion, hs.version]
  · rw [hsize, hs.headerSize]
  · rw [horder, hs.byteOrder]
  · rw [hstride, hs.slotStride]

/-- Validation accepts every slot that holds a bucket. -/
theorem Holds.validateSlot {idx : ℕ} {b : Bucket String Value}
    (h : Holds hash t.log idx (readSlot t.buf computeDataOffset idx) b) (hi : Inv z t)
    (hidx : idx < z.numBuckets.toNat) :
    validateSlot t.buf computeDataOffset z.arenaStart idx = true := by
  have hrecord {flags : UInt16} {valDtype : UInt32} {key : String} {payload : Bytes}
      (hle : (readSlot t.buf computeDataOffset idx).tag ≤ slotInline)
      (hempty : (readSlot t.buf computeDataOffset idx).tag ≠ slotEmpty)
      (hhead : HeadRecord hash t.log idx (readSlot t.buf computeDataOffset idx) flags
        valDtype key payload) :
      Table.validateSlot t.buf computeDataOffset z.arenaStart idx = true := by
    obtain ⟨prevOff, record, hpub, hrecord, hshort⟩ := hhead.published hi
    obtain ⟨hrange, hheader⟩ := hpub.header_read hrecord
    obtain ⟨rest, hrest⟩ := hpub.onwards
    have hlen :
      (encodedHeader flags valDtype key payload (UInt32.ofNat idx) (hash key)
      prevOff).recordLen.toNat =
        record.length := by
      rw [hrecord]
      exact encodedHeader_recordLen (hrecord ▸ hshort)
    have hslot : (UInt32.ofNat idx).toNat = idx :=
      UInt32.toNat_ofNat_of_lt' (hidx.trans (UInt32.toNat_lt _))
    have hlong :=
      (encodeRecord_spec flags valDtype key payload (UInt32.ofNat idx) (hash key) prevOff).1
    rw [← hrecord] at hlong
    have hinside := hpub.inside
    have hslice : slice t.buf (readSlot t.buf computeDataOffset idx).headOff.toNat
        (z.view.liveEnd t.buf - (readSlot t.buf computeDataOffset idx).headOff.toNat) =
            record ++ rest := by
      rw [getRange_some (by omega) hpub.room] at hrest
      exact Option.some.inj hrest
    have hread : readRecordHeader (record ++ rest) =
        some (encodedHeader flags valDtype key payload (UInt32.ofNat idx) (hash key) prevOff) := by
      rw [hrecord, readRecordHeader_encode]
    have hlive : z.arenaStart + (header t.buf).arenaBump.toNat = z.view.liveEnd t.buf := rfl
    unfold Table.validateSlot
    dsimp only
    rw [if_neg (UInt8.not_lt.mpr hle), if_neg hempty]
    split_ifs with htomb hout
    · rfl
    · exact absurd hout hrange
    rw [hlive, hslice, hread]
    dsimp only
    rw [hlen, Nat.add_sub_cancel_left, hpub.stored, Published.key_read hrecord hhead.1 hshort]
    simp only [Bool.not_eq_true', Bool.or_eq_false_iff, decide_eq_false_iff_not,
      Option.isNone_some, and_true]
    refine ⟨⟨by omega, by omega⟩, ?_⟩
    rw [not_not]
    exact hslot
  cases h with
  | empty tag =>
      unfold Table.validateSlot
      dsimp only
      rw [tag]
      rfl
  | tomb tag head =>
      rcases head with hnone | ⟨key, head⟩
      · unfold Table.validateSlot
        dsimp only
        rw [tag, hnone]
        rfl
      · exact hrecord (by rw [tag]; decide) (by rw [tag]; decide) head
  | occupied tag keyed scalar head => exact hrecord (by rw [tag]; decide) (by rw [tag]; decide) head
  | inline tag keyed stored head => exact hrecord (by rw [tag]; decide) (by rw [tag]; decide) head

/-- The table stands for a map. -/
structure Refines (hash : String → UInt64) (hu : Usable z) (t : Traced) (s : MapState) : Prop where
  inv : Inv z t
  stamped : Stamped t.buf
  bump : (header t.buf).arenaBump.toNat = s.bump
  cells : ∃ cell, Buckets hash z t cell ∧ Represents (hu.scheme hash) cell s.get

variable {hu : Usable z}

theorem note_buf (t : Traced) (buf : Bytes) (event : Option Event) :
    (t.note buf event).buf = buf := by
  cases event with
  | none => rfl
  | some e => cases e <;> rfl

/-- A write to a slot is a step of the map. -/
theorem Stored.refines {buf' : Bytes} {event : Option Event} {idx size : ℕ}
    {b : Bucket String Value} {s' : MapState}
    (h : Stored hash z t buf' event idx b size) (hb : Buckets hash z t cell)
    (hstamped : Stamped t.buf) (hbump : (header t.buf).arenaBump.toNat + size = s'.bump)
    (hmap : Represents (hu.scheme hash) (Function.update cell idx b) s'.get) :
    Refines hash hu (t.note buf' event) s' where
  inv := h.inv
  stamped := by
    rw [note_buf]
    exact h.changed.stamped hstamped
  bump := by rw [note_buf, h.bump, hbump]
  cells := by
    refine ⟨_, fun j hj => ?_, hmap⟩
    rw [note_buf]
    by_cases hji : j = idx
    · subst hji
      rw [Function.update_self]
      exact h.holds
    · rw [Function.update_of_ne hji, (h.changed.slots hj hji).1]
      exact (hb j hj).mono h.log

theorem Buckets.card (hmap : Represents (hu.scheme hash) cell s.get) :
    s.map.keys.card = (entries z.numBuckets.toNat cell).length :=
  MapState.card_eq hmap.nodup_entries fun _ _ => hmap.mem_entries

variable {hash_key : UInt64 → String → UInt64} {key : String}

theorem Refines.insertLocked (h : Refines (hash_key z.hashSeed) hu t s)
    (hkey : (utf8 key).length < 2 ^ 16) (val : Value) :
    let done := z.writer.insertLocked t.buf hash_key key val
    let after := s.insert z.numBuckets.toNat z.arenaCap key val
    done.result = after.2 ∧
    Refines (hash_key z.hashSeed) hu (t.note done.buf done.event) after.1 := by
  obtain ⟨cell, hb, hmap⟩ := h.cells
  have hprobe :
    z.writer.insertProbe t.buf key (hash_key z.writer.hashSeed key) z.writer.numBuckets 0 none =
      probed (target cell key ((hu.scheme (hash_key z.hashSeed)).visits key) none) :=
    insertProbe_eq h.inv hb key _ _ _
  have hcard := Buckets.card hmap
  dsimp only
  unfold MemhWriter.insertLocked MapState.insert
  dsimp only
  rw [hprobe]
  cases htarget : target cell key ((hu.scheme (hash_key z.hashSeed)).visits key) none with
  | full =>
      obtain ⟨hnone, hlive⟩ := hmap.target_full.mp htarget
      have hfull : s.map.keys.card = z.numBuckets.toNat := hcard.trans (entries_full.mpr hlive)
      rw [hnone]
      dsimp only [probed]
      rw [if_pos hfull]
      exact ⟨rfl, h⟩
  | fresh i =>
      obtain ⟨hnone, hi, hentry, hbefore⟩ := hmap.target_fresh htarget
      have hspec := writeNewEntry_spec (hash_key z.hashSeed) h.inv hu.addressable hi hkey val
      have hroom : ¬ s.map.keys.card = z.numBuckets.toNat := by
        intro hfull
        have hlive := entries_full.mp (hcard.symm.trans hfull) i hi
        rw [hentry] at hlive
        cases hlive
      have hseed : z.writer.hashSeed = z.hashSeed := rfl
      dsimp only at hspec
      dsimp only [probed]
      rw [hnone, hseed]
      dsimp only
      rw [if_neg hroom, MapState.put]
      rw [h.bump] at hspec ⊢
      split_ifs at hspec ⊢ with hfull
      · rw [hspec]
        exact ⟨rfl, h⟩
      · obtain ⟨hresult, hstored⟩ := hspec
        rw [hresult]
        refine ⟨rfl, hstored.refines hb h.stamped (congrArg (· + _) h.bump) ?_⟩
        rw [MapState.get_insert]
        exact hmap.fill hnone hi hentry hbefore val
  | found i =>
      obtain ⟨hi, old, hcell, hold⟩ := hmap.target_found htarget
      have hh := hb i hi
      rw [hcell] at hh
      have hspec := writeUpdate_spec h.inv hu.addressable hi hh val
      have hmap' :
        Represents (hu.scheme (hash_key z.hashSeed)) (Function.update cell i (.live key val))
          (Function.update s.get key (some val)) := hmap.replace hi hcell val
      have hseed : z.writer.hashSeed = z.hashSeed := rfl
      have hdata : z.writer.dataOff = computeDataOffset := rfl
      dsimp only at hspec
      dsimp only [probed]
      rw [hold, hseed, hdata]
      dsimp only
      rw [MapState.put]
      rw [h.bump] at hspec ⊢
      split_ifs at hspec ⊢ with hboth hfull
      · obtain ⟨hresult, hstored⟩ := hspec
        rw [hresult]
        refine ⟨rfl, hstored.refines hb h.stamped h.bump ?_⟩
        rw [MapState.get_insert]
        exact hmap'
      · rw [hspec]
        exact ⟨rfl, h⟩
      · obtain ⟨hresult, hstored⟩ := hspec
        rw [hresult]
        refine ⟨rfl, hstored.refines hb h.stamped (congrArg (· + _) h.bump) ?_⟩
        rw [MapState.get_insert]
        exact hmap'

theorem Refines.removeLocked (h : Refines (hash_key z.hashSeed) hu t s) (key : String) :
    let done := z.writer.removeLocked t.buf hash_key key
    let after := s.remove z.arenaCap key
    done.result = after.2 ∧
    Refines (hash_key z.hashSeed) hu (t.note done.buf done.event) after.1 := by
  obtain ⟨cell, hb, hmap⟩ := h.cells
  have hprobe := removeProbe_eq h.inv hb key z.numBuckets.toNat 0
  have hfind := hmap.find_eq key
  change Option.map Prod.snd (find cell key ((List.range' 0 z.numBuckets.toNat).map _)) = _ at hfind
  dsimp only
  unfold MapState.remove
  cases hfound : find cell key ((List.range' 0 z.numBuckets.toNat).map
      (z.writer.probeIdx (hash_key z.hashSeed key))) with
  | none =>
      rw [hfound] at hprobe hfind
      have hwriter :
        z.writer.removeProbe t.buf key (hash_key z.writer.hashSeed key) z.writer.numBuckets 0 =
          .absent := hprobe
      rw [← hfind]
      unfold MemhWriter.removeLocked
      dsimp only
      rw [hwriter]
      exact ⟨rfl, h⟩
  | some found =>
      obtain ⟨i, old⟩ := found
      obtain ⟨hi, hcell⟩ := hmap.find_some hfound
      rw [hfound] at hprobe hfind
      have hh := hb i hi
      rw [hcell] at hh
      obtain ⟨hresult, hstored⟩ := removeLocked_spec h.inv hu.addressable hi hh hprobe
      rw [← hfind, Option.map_some]
      refine ⟨hresult, hstored.refines hb h.stamped ?_ ?_⟩
      · dsimp only
        rw [h.bump]
        split_ifs <;> rfl
      · dsimp only
        rw [MapState.get_erase]
        exact hmap.erase hi hcell

/-- A call whose key fits the length field of a record. -/
def Call.Short : Call → Prop
  | .insert _ key _ => (utf8 key).length < 2 ^ 16
  | .remove _ _ => True

/-- A call answers and acts as on the map. -/
theorem Refines.call (h : Refines (hash_key z.hashSeed) hu t s) {c : Call} (hc : c.Short) :
    t.answer hash_key c = (s.call z.numBuckets.toNat z.arenaCap c).2 ∧
      Refines (hash_key z.hashSeed) hu (t.call hash_key c)
        (s.call z.numBuckets.toNat z.arenaCap c).1 := by
  cases c with
  | insert acquired key val =>
      cases acquired with
      | false => exact ⟨rfl, h⟩
      | true =>
          obtain ⟨hresult, hafter⟩ := h.insertLocked hc val
          rw [← h.inv.writer] at hresult hafter
          exact ⟨congrArg Answer.inserted hresult, hafter⟩
  | remove acquired key =>
      cases acquired with
      | false => exact ⟨rfl, h⟩
      | true =>
          obtain ⟨hresult, hafter⟩ := h.removeLocked key
          rw [← h.inv.writer] at hresult hafter
          exact ⟨congrArg Answer.removed hresult, hafter⟩

theorem Refines.run (h : Refines (hash_key z.hashSeed) hu t s) {calls : List Call}
    (hcalls : ∀ c ∈ calls, c.Short) :
    t.answers hash_key calls = s.answers z.numBuckets.toNat z.arenaCap calls ∧
      Refines (hash_key z.hashSeed) hu (t.run hash_key calls)
        (s.run z.numBuckets.toNat z.arenaCap calls) := by
  induction calls generalizing t s with
  | nil => exact ⟨rfl, h⟩
  | cons c calls ih =>
      obtain ⟨hanswer, hstep⟩ := h.call (hcalls c List.mem_cons_self)
      obtain ⟨hanswers, hrun⟩ := ih hstep fun c' hc' => hcalls c' (List.mem_cons_of_mem _ hc')
      refine ⟨?_, hrun⟩
      rw [Traced.answers, MapState.answers, hanswer, hanswers]

end Refinement

section Results

variable {creator : Creator} {z : Sizes} {buf : Bytes} {hu : Usable z} {t : Traced}
    {s : MapState} {addr : ℕ}
  {hash_key : UInt64 → String → UInt64}

/-- A table right after initialisation stands for the empty map. -/
theorem Blank.refines (h : Blank creator z buf) (hu : Usable z) (hstart : z.arenaStart < 2 ^ 32)
    (hash : String → UInt64) :
    Refines hash hu (Traced.start buf) .empty where
  inv := h.inv hstart
  stamped := by
    constructor
    · exact (congrArg MemhHeader.magic h.header).trans rfl
    · exact (congrArg MemhHeader.version h.header).trans rfl
    · exact (congrArg (fun hdr => UInt16.toNat (MemhHeader.headerSize hdr)) h.header).trans rfl
    · exact (congrArg MemhHeader.byteOrder h.header).trans rfl
    · exact (congrArg (fun geo => UInt32.toNat (MemhMeta.slotStride geo)) h.geometry).trans rfl
  bump := (congrArg (fun hdr => UInt32.toNat (MemhHeader.arenaBump hdr)) h.header).trans rfl
  cells := by
    refine ⟨fun _ => .empty, fun idx hidx => .empty (congrArg Slot.tag (h.readSlot hidx).1), ?_⟩
    exact Represents.empty _ fun _ _ => rfl

/-- A table that stands for a map passes validation, and opens as a view. -/
theorem Refines.view (h : Refines (hash_key z.hashSeed) hu t s) (haddr : addr % 8 = 0) :
    validateMemh addr t.buf = .ok () ∧ MemhView.new addr t.buf = .ok z.view := by
  obtain ⟨cell, hb, -⟩ := h.cells
  have hdata : (header t.buf).dataOffset.toNat = computeDataOffset :=
    congrArg MemhWriter.dataOff h.inv.writer
  have hbuckets : (header t.buf).numBuckets = z.numBuckets :=
    UInt32.toNat_inj.mp (congrArg MemhWriter.numBuckets h.inv.writer)
  have hstart : (geometry t.buf).arenaStart.toNat = z.arenaStart :=
    congrArg MemhWriter.arenaStart h.inv.writer
  have hcap : (geometry t.buf).arenaCap.toNat = z.arenaCap :=
    congrArg MemhWriter.arenaCap h.inv.writer
  have hseed : (geometry t.buf).hashSeed = z.hashSeed := congrArg MemhWriter.hashSeed h.inv.writer
  have hroom := h.inv.room
  have hwithin := h.inv.within
  have hz := z.arenaStart_eq
  have hexpected : z.arenaStart = arenaStartAbs z.numBuckets.toNat computeDataOffset := rfl
  have hpow : ¬ (z.numBuckets = 0 ∨ z.numBuckets &&& (z.numBuckets - 1) ≠ 0) := by
    rintro (hzero | hne)
    · exact absurd (congrArg UInt32.toNat hzero) (Nat.ne_of_gt z.some_bucket)
    · refine hne (UInt32.toNat_inj.mp ?_)
      have hone : (1 : UInt32) ≤ z.numBuckets := UInt32.le_iff_toNat_le.mpr z.some_bucket
      rw [UInt32.toNat_and, UInt32.toNat_sub_of_le _ _ hone]
      exact (Nat.and_sub_one_eq_zero_iff_isPowerOfTwo (Nat.ne_of_gt z.some_bucket)).mpr hu.pow_two
  have hslots : (List.range z.numBuckets.toNat).find?
      (fun idx => !Table.validateSlot t.buf computeDataOffset z.arenaStart idx) = none := by
    apply List.find?_eq_none.mpr
    intro idx hidx
    rw [(hb idx (List.mem_range.mp hidx)).validateSlot h.inv (List.mem_range.mp hidx)]
    decide
  have hvalid : validateMemh addr t.buf = .ok () := by
    unfold validateMemh
    rw [if_neg (by change ¬ t.buf.length < 160; omega), if_neg (not_not.mpr haddr)]
    dsimp only
    rw [if_neg (not_not.mpr h.stamped.magic), if_neg (not_not.mpr h.stamped.version),
      if_neg (not_not.mpr h.stamped.headerSize), if_neg (not_not.mpr h.stamped.byteOrder),
      hbuckets, if_neg hpow, hdata, if_neg (not_not.mpr rfl),
      if_neg (not_not.mpr h.stamped.slotStride), hstart, hcap, if_neg (not_not.mpr hexpected),
      if_neg (Nat.not_lt_of_le hroom), if_neg (Nat.not_lt_of_le hwithin), hslots]
  refine ⟨hvalid, ?_⟩
  unfold MemhView.new Sizes.view
  rw [hvalid, hdata, hbuckets, hstart, hseed]
  rfl

/-- What a view reads from a table that stands for a map. -/
structure Reads (hash_key : UInt64 → String → UInt64) (v : MemhView) (buf : Bytes)
    (s : MapState) : Prop where
  get : ∀ key, (v.get buf hash_key key).map typedValueToValue = s.get key
  iter_once : ((v.iter buf).map Prod.fst).Nodup
  iter_mem : ∀ key val, (∃ value, (key, value) ∈ v.iter buf ∧ typedValueToValue value = val) ↔
    s.get key = some val
  len : v.len buf = s.map.keys.card

theorem Refines.reads (h : Refines (hash_key z.hashSeed) hu t s) :
    Reads hash_key z.view t.buf s := by
  obtain ⟨cell, hb, hmap⟩ := h.cells
  have hiter := iter_eq h.inv hb
  have hnodup := hmap.nodup_entries
  change ((entries z.numBuckets.toNat cell).map Prod.fst).Nodup at hnodup
  refine ⟨fun key => ?_, ?_, fun key val => ?_, ?_⟩
  · exact (getProbe_eq h.inv hb key _ _).trans (hmap.find_eq key)
  · rw [← hiter, List.map_map] at hnodup
    exact hnodup
  · rw [← hmap.mem_entries]
    change _ ↔ (key, val) ∈ entries z.numBuckets.toNat cell
    rw [← hiter, List.mem_map]
    constructor
    · rintro ⟨value, hmem, rfl⟩
      exact ⟨(key, value), hmem, rfl⟩
    · rintro ⟨⟨key', value⟩, hmem, heq⟩
      obtain ⟨rfl, rfl⟩ := Prod.mk.inj heq
      exact ⟨value, hmem, rfl⟩
  · rw [Buckets.card hmap]
    exact len_eq hb

/-- Sizes that initialisation accepts, of a table that ends in reach. -/
theorem Checked.usable {numBuckets : UInt32} {arenaCap : ℕ}
    (h : Checked addr buf numBuckets arenaCap) (hashSeed : UInt64)
    (hfits : arenaStartAbs numBuckets.toNat computeDataOffset + arenaCap < 2 ^ 32 + arenaHdrSize) :
    Usable (h.sizes hashSeed) ∧ (h.sizes hashSeed).arenaStart < 2 ^ 32 := by
  have hpos : 0 < numBuckets.toNat := (h.sizes hashSeed).some_bucket
  have hpow : numBuckets.toNat.isPowerOfTwo := by
    have hone : (1 : UInt32) ≤ numBuckets := UInt32.le_iff_toNat_le.mpr hpos
    have hnat := congrArg UInt32.toNat h.pow_two
    rw [UInt32.toNat_and, UInt32.toNat_sub_of_le _ _ hone] at hnat
    exact (Nat.and_sub_one_eq_zero_iff_isPowerOfTwo (Nat.ne_of_gt hpos)).mp hnat
  have hstart : (h.sizes hashSeed).arenaStart = 192 + numBuckets.toNat * 32 := rfl
  change (h.sizes hashSeed).arenaStart + arenaCap < _ at hfits
  refine ⟨⟨hpow, hfits⟩, ?_⟩
  -- an arena that starts at 32 bits would need a number of buckets that is no power of two
  have hne : numBuckets.toNat ≠ 134217722 := by
    intro heq
    have hbuckets : numBuckets = 134217722 := UInt32.toNat_inj.mp heq
    have hpow' := h.pow_two
    rw [hbuckets] at hpow'
    exact absurd hpow' (by decide)
  unfold arenaHdrSize at hfits
  omega

/-- After any calls, a table answers and reads as the finite map does. -/
theorem table_refines_map {numBuckets : UInt32} {arenaCap : ℕ} {hashSeed : UInt64} {fresh : Bytes}
    (hash_key : UInt64 → String → UInt64)
    (hinit : initBuf addr creator fresh numBuckets arenaCap hashSeed = .ok buf)
    (hfits : arenaStartAbs numBuckets.toNat computeDataOffset + arenaCap < 2 ^ 32 + arenaHdrSize)
    (calls : List Call) (hcalls : ∀ c ∈ calls, c.Short) :
    let after := (Traced.start buf).run hash_key calls
    let model := MapState.empty.run numBuckets.toNat arenaCap calls
    (Traced.start buf).answers hash_key calls =
      MapState.empty.answers numBuckets.toNat arenaCap calls ∧
      (header after.buf).arenaBump.toNat = model.bump ∧ ∃ v, MemhView.new addr after.buf = .ok v ∧
      Reads hash_key v after.buf model := by
  obtain ⟨hchecked, rfl⟩ := initBuf_ok.mp hinit
  obtain ⟨hu, hstart⟩ := hchecked.usable hashSeed hfits
  have hblank := blank_of_init creator hashSeed hchecked
  obtain ⟨hanswers, hrun⟩ := (hblank.refines hu hstart (hash_key hashSeed)).run hcalls
  exact ⟨hanswers, hrun.bump, _, (hrun.view hchecked.aligned).2, hrun.reads⟩

/-- Two keys, one of them removed. -/
def twoKeys : List Call := [.insert true "a" (.U8 1), .insert true "b" (.Str "x"), .remove true "a"]

theorem twoKeys_short : ∀ c ∈ twoKeys, c.Short := by
  intro c hc
  simp only [twoKeys, List.mem_cons, List.not_mem_nil, or_false] at hc
  rcases hc with rfl | rfl | rfl
  · exact (by decide : (utf8 "a").length < 2 ^ 16)
  · exact (by decide : (utf8 "b").length < 2 ^ 16)
  · trivial

/-- A table of 4 buckets and 128 bytes of records. -/
theorem small_table : initBuf 0 ⟨1, 1⟩ (List.replicate 512 0) 4 128 0 =
    .ok (storeAll (List.replicate 512 0) (initStores ⟨1, 1⟩ 4 128 0)) :=
  initBuf_ok.mpr
    ⟨⟨rfl, by decide, by decide, by decide, by decide, by rw [List.length_replicate]; decide⟩, rfl⟩

/-- The keys have one hash. -/
theorem table_refines_map_sample :
    let buf := storeAll (List.replicate 512 0) (initStores ⟨1, 1⟩ 4 128 0)
    let after := (Traced.start buf).run (fun _ _ => 0) twoKeys
    let model := MapState.empty.run (4 : UInt32).toNat 128 twoKeys
    (Traced.start buf).answers (fun _ _ => 0) twoKeys =
      MapState.empty.answers (4 : UInt32).toNat 128 twoKeys ∧
      (header after.buf).arenaBump.toNat = model.bump ∧ ∃ v, MemhView.new 0 after.buf = .ok v ∧
      Reads (fun _ _ => 0) v after.buf model :=
  table_refines_map (fun _ _ => 0) small_table (by decide) twoKeys twoKeys_short

end Results

section Compaction

variable (hash_key : UInt64 → String → UInt64)

/-- The loop of `compact` over the pairs that are left. -/
def copyEntries (w : MemhWriter) : Bytes → ℕ → List (String × TypedValue) →
    Except MemhInitError (Bytes × ℕ)
  | dst, count, [] => .ok (dst, count)
  | dst, count, (k, v) :: rest =>
      let done := w.insert dst hash_key true k (typedValueToValue v)
      match done.result with
      | .error _ => .error .ArenaTooSmall
      | .ok _ => copyEntries w done.buf (count + 1) rest

/-- The writer lock of the fresh destination is free. -/
def compact (src_addr dst_addr : ℕ) (creator : Creator) (src_buf dst_buf : Bytes)
    (numBuckets : UInt32)
    (new_arena_cap : ℕ) (hashSeed : UInt64) : Except MemhInitError (Bytes × ℕ) :=
  match initBuf dst_addr creator dst_buf numBuckets new_arena_cap hashSeed with
  | .error e => .error e
  | .ok fresh =>
      match MemhView.new src_addr src_buf with
      | .error _ => .error .ArenaTooSmall
      | .ok src =>
          match validateMemh dst_addr fresh with
          | .error _ => .error .ArenaTooSmall
          | .ok () =>
              copyEntries hash_key (MemhWriter.newUnchecked fresh) fresh 0 (src.iter src_buf)

variable {z : Sizes} {hu : Usable z} {t : Traced} {s : MapState} {hash_key}

/-- The bytes of one record for each entry. -/
def liveSize (m : Finmap fun _ : String => Value) : ℕ :=
  (m.entries.map fun e => putSize e.1 e.2).sum

/-- The map with the pairs added. -/
def addAll (m : Finmap fun _ : String => Value) (pairs : List (String × TypedValue)) :
    Finmap fun _ : String => Value :=
  pairs.foldl (fun m p => m.insert p.1 (typedValueToValue p.2)) m

section Maps

variable {m : Finmap fun _ : String => Value} {key : String}

/-- A new key adds its record and one entry. -/
theorem insert_new (h : key ∉ m) (val : Value) :
    liveSize (m.insert key val) = liveSize m + putSize key val ∧ (m.insert key val).keys.card =
      m.keys.card + 1 := by
  have hkeys : (m.insert key val).keys = insert key m.keys := by
    ext other
    rw [Finmap.mem_keys, Finmap.mem_insert, Finset.mem_insert, Finmap.mem_keys]
  constructor
  · unfold liveSize
    rw [Finmap.entries_insert_of_notMem h, Multiset.map_cons, Multiset.sum_cons]
    exact Nat.add_comm _ _
  · rw [hkeys]
    exact Finset.card_insert_of_notMem fun hmem => h (Finmap.mem_keys.mp hmem)

/-- The pairs behind a new one stay new. -/
theorem new_after {p : String × TypedValue} {rest : List (String × TypedValue)}
    (hp : p.1 ∉ rest.map Prod.fst)
    (hnew : ∀ q ∈ p :: rest, q.1 ∉ m) (val : Value) : ∀ q ∈ rest, q.1 ∉ m.insert p.1 val := by
  intro q hq hmem
  rcases Finmap.mem_insert.mp hmem with hsame | hold
  · exact hp (List.mem_map.mpr ⟨q, hq, hsame⟩)
  · exact hnew q (List.mem_cons_of_mem _ hq) hold

/-- New pairs add as many entries, and their records. -/
theorem addAll_new {pairs : List (String × TypedValue)} (hnodup : (pairs.map Prod.fst).Nodup)
    (hnew : ∀ p ∈ pairs, p.1 ∉ m) :
    (addAll m pairs).keys.card = m.keys.card + pairs.length ∧ liveSize m ≤ liveSize
    (addAll m pairs) := by
  induction pairs generalizing m with
  | nil => exact ⟨rfl, le_refl _⟩
  | cons p rest ih =>
      obtain ⟨hp, hrest⟩ := List.nodup_cons.mp hnodup
      obtain ⟨hsize, hcard⟩ := insert_new (hnew p List.mem_cons_self) (typedValueToValue p.2)
      obtain ⟨hcount, hgrows⟩ := ih hrest (new_after hp hnew _)
      change (addAll (m.insert p.1 _) rest).keys.card = _ ∧
        _ ≤ liveSize (addAll (m.insert p.1 _) rest)
      rw [hcount, hcard, List.length_cons]
      exact ⟨by omega, by omega⟩

theorem lookup_addAll (m : Finmap fun _ : String => Value) {pairs : List (String × TypedValue)}
    (hnodup : (pairs.map Prod.fst).Nodup) (key : String) :
    (Finmap.lookup key (addAll m pairs) : Option Value) =
      match pairs.find? (·.1 = key) with
      | some p => some (typedValueToValue p.2)
      | none => Finmap.lookup key m := by
  induction pairs generalizing m with
  | nil => rfl
  | cons p rest ih =>
      obtain ⟨hp, hrest⟩ := List.nodup_cons.mp hnodup
      change Finmap.lookup key (addAll (m.insert p.1 (typedValueToValue p.2)) rest) = _
      rw [ih _ hrest]
      by_cases hkey : p.1 = key
      · subst hkey
        have hnone : rest.find? (·.1 = p.1) = none := by
          apply List.find?_eq_none.mpr
          intro q hq hfst
          exact hp (of_decide_eq_true hfst ▸ List.mem_map_of_mem hq)
        rw [hnone, List.find?_cons_of_pos (by simp)]
        exact Finmap.lookup_insert m
      · rw [List.find?_cons_of_neg (by simpa using hkey)]
        cases rest.find? (·.1 = key) with
        | some q => rfl
        | none => exact Finmap.lookup_insert_of_ne m (Ne.symm hkey)

end Maps

/-- A table has at most one entry in each bucket. -/
theorem Refines.within (h : Refines (hash_key z.hashSeed) hu t s) :
    s.map.keys.card ≤ z.numBuckets.toNat ∧ s.bump ≤ z.arenaCap := by
  obtain ⟨cell, -, hmap⟩ := h.cells
  constructor
  · rw [Buckets.card hmap]
    exact (List.length_filterMap_le _ _).trans_eq List.length_range
  · rw [← h.bump]
    exact h.inv.within

/-- New keys are copied as long as there are buckets and bytes, each with one record. -/
theorem Refines.copyEntries (h : Refines (hash_key z.hashSeed) hu t s)
    (hone : s.bump = liveSize s.map)
    {pairs : List (String × TypedValue)} (hnodup : (pairs.map Prod.fst).Nodup)
    (hnew : ∀ p ∈ pairs, p.1 ∉ s.map)
    (hshort : ∀ p ∈ pairs, (utf8 p.1).length < 2 ^ 16) (count : ℕ) :
    let m := addAll s.map pairs
    if m.keys.card ≤ z.numBuckets.toNat ∧ liveSize m ≤ z.arenaCap then
      ∃ t', Table.copyEntries hash_key z.writer t.buf count pairs =
        .ok (t'.buf, count + pairs.length) ∧ Refines (hash_key z.hashSeed) hu t' ⟨m, liveSize m⟩
    else Table.copyEntries hash_key z.writer t.buf count pairs = .error .ArenaTooSmall := by
  induction pairs generalizing t s count with
  | nil =>
      obtain ⟨hcard, hbump⟩ := h.within
      have hm : addAll s.map [] = s.map := rfl
      dsimp only
      rw [hm, ← hone, if_pos ⟨hcard, hbump⟩]
      exact ⟨t, rfl, h⟩
  | cons p rest ih =>
      obtain ⟨k, v⟩ := p
      obtain ⟨hp, hrest⟩ := List.nodup_cons.mp hnodup
      have hk : k ∉ s.map := hnew (k, v) List.mem_cons_self
      have hnone : s.get k = none := Finmap.lookup_eq_none.mpr hk
      obtain ⟨hsize, hcard⟩ := insert_new hk (typedValueToValue v)
      obtain ⟨hresult, hafter⟩ :=
        h.insertLocked (hshort (k, v) List.mem_cons_self) (typedValueToValue v)
      have hm : addAll s.map ((k, v) :: rest) =
          addAll (s.map.insert k (typedValueToValue v)) rest := rfl
      have hlater := new_after hp hnew (typedValueToValue v)
      dsimp only at hlater
      obtain ⟨hcount, hgrows⟩ := addAll_new hrest hlater
      have hinsert : z.writer.insert t.buf hash_key true k (typedValueToValue v) =
          z.writer.insertLocked t.buf hash_key k (typedValueToValue v) := rfl
      dsimp only
      rw [hm, Table.copyEntries, hinsert]
      rw [hresult]
      unfold MapState.insert at hafter ⊢
      rw [hnone] at hafter ⊢
      dsimp only at hafter ⊢
      by_cases hfull : s.map.keys.card = z.numBuckets.toNat
      · rw [if_pos hfull, if_neg (by omega)]
      rw [if_neg hfull] at hafter ⊢
      unfold MapState.put at hafter ⊢
      by_cases harena : z.arenaCap < s.bump + putSize k (typedValueToValue v)
      · rw [if_pos harena, if_neg (by omega)]
      rw [if_neg harena] at hafter ⊢
      have hnext := ih hafter (by rw [hsize, hone]) hrest hlater
        (fun q hq => hshort q (List.mem_cons_of_mem _ hq)) (count + 1)
      rw [note_buf, Nat.add_right_comm, Nat.add_assoc] at hnext
      exact hnext

/-- The pairs that a view yields make up the map. -/
theorem Reads.addAll {v : MemhView} {buf : Bytes} (h : Reads hash_key v buf s) :
    addAll ∅ (v.iter buf) = s.map := by
  refine Finmap.ext_lookup fun key => ?_
  have hlookup := lookup_addAll ∅ h.iter_once key
  cases hfind : (v.iter buf).find? (·.1 = key) with
  | some p =>
      obtain ⟨k, value⟩ := p
      rw [hfind] at hlookup
      have hkey := List.find?_some hfind
      obtain rfl : k = key := of_decide_eq_true hkey
      exact hlookup.trans ((h.iter_mem k _).mp ⟨value, List.mem_of_find?_eq_some hfind, rfl⟩).symm
  | none =>
      rw [hfind] at hlookup
      refine hlookup.trans (Finmap.lookup_empty key |>.trans ?_)
      cases hget : s.get key with
      | none => exact hget.symm
      | some val =>
          obtain ⟨value, hmem, -⟩ := (h.iter_mem key val).mpr hget
          exact absurd (decide_eq_true rfl) (List.find?_eq_none.mp hfind _ hmem)

/-- Every key of a table fits the length field of a record. -/
theorem Refines.short {key : String} {val : Value} (h : Refines (hash_key z.hashSeed) hu t s)
    (hget : s.get key = some val) : (utf8 key).length < 2 ^ 16 := by
  obtain ⟨cell, hb, hmap⟩ := h.cells
  obtain ⟨i, hi, hcell⟩ := (hmap.stored key val).mp hget
  have hh := hb i hi
  rw [hcell] at hh
  exact hh.keyed.2

theorem Refines.compact {z' : Sizes} {hu' : Usable z'} {addr dst_addr : ℕ} {creator : Creator}
    {dst fresh : Bytes}
    (h : Refines (hash_key z.hashSeed) hu t s) (hview : MemhView.new addr t.buf = .ok z.view)
    (hinit : initBuf dst_addr creator dst z'.numBuckets z'.arenaCap z'.hashSeed = .ok fresh)
    (hwriter : MemhWriter.newUnchecked fresh = z'.writer)
    (hvalid : validateMemh dst_addr fresh = .ok ())
    (hempty : Refines (hash_key z'.hashSeed) hu' (Traced.start fresh) .empty) :
    let done :=
      Table.compact hash_key addr dst_addr creator t.buf dst z'.numBuckets z'.arenaCap z'.hashSeed
    if s.map.keys.card ≤ z'.numBuckets.toNat ∧ liveSize s.map ≤ z'.arenaCap then
      ∃ t', done = .ok (t'.buf, s.map.keys.card) ∧
        Refines (hash_key z'.hashSeed) hu' t' ⟨s.map, liveSize s.map⟩
    else done = .error .ArenaTooSmall := by
  have hreads := h.reads
  have hnew : ∀ p ∈ z.view.iter t.buf, p.1 ∉ MapState.empty.map := fun p _ => Finmap.notMem_empty
  have hshort : ∀ p ∈ z.view.iter t.buf, (utf8 p.1).length < 2 ^ 16 := fun p hp =>
    h.short ((hreads.iter_mem p.1 _).mp ⟨p.2, hp, rfl⟩)
  have hall : Table.addAll MapState.empty.map (z.view.iter t.buf) = s.map := hreads.addAll
  have hcard : _ = 0 + (z.view.iter t.buf).length := (addAll_new hreads.iter_once hnew).1
  have hcopy := hempty.copyEntries rfl hreads.iter_once hnew hshort 0
  have hdone :
    Table.compact hash_key addr dst_addr creator t.buf dst z'.numBuckets z'.arenaCap z'.hashSeed =
      Table.copyEntries hash_key z'.writer fresh 0 (z.view.iter t.buf) := by
    unfold Table.compact
    rw [hinit, hview]
    dsimp only
    rw [hvalid, hwriter]
  rw [hall] at hcard
  dsimp only at hcopy ⊢
  rw [hall, ← hcard] at hcopy
  rw [hdone]
  exact hcopy

/-- Compaction copies the map where it fits, with one record for each entry, and fails otherwise. -/
theorem compact_preserves_map {addr dst_addr : ℕ} {creator creator' : Creator}
    {fresh buf dst fresh' : Bytes}
    {numBuckets num_buckets' : UInt32} {arenaCap arena_cap' : ℕ} {hashSeed hash_seed' : UInt64}
    (hash_key : UInt64 → String → UInt64)
    (hinit : initBuf addr creator fresh numBuckets arenaCap hashSeed = .ok buf)
    (hfits : arenaStartAbs numBuckets.toNat computeDataOffset + arenaCap < 2 ^ 32 + arenaHdrSize)
    (calls : List Call) (hcalls : ∀ c ∈ calls, c.Short)
    (hinit' : initBuf dst_addr creator' dst num_buckets' arena_cap' hash_seed' = .ok fresh')
    (hfits' : arenaStartAbs num_buckets'.toNat computeDataOffset + arena_cap' <
      2 ^ 32 + arenaHdrSize) :
    let src := ((Traced.start buf).run hash_key calls).buf
    let model := MapState.empty.run numBuckets.toNat arenaCap calls
    let done := compact hash_key addr dst_addr creator' src dst num_buckets' arena_cap' hash_seed'
    if model.map.keys.card ≤ num_buckets'.toNat ∧ liveSize model.map ≤ arena_cap' then
      ∃ dst', done = .ok (dst', model.map.keys.card) ∧ (header dst').arenaBump.toNat =
        liveSize model.map ∧ ∃ v, MemhView.new dst_addr dst' = .ok v ∧ Reads hash_key v dst' model
    else done = .error .ArenaTooSmall := by
  obtain ⟨hchecked, rfl⟩ := initBuf_ok.mp hinit
  obtain ⟨hchecked', hfresh⟩ := initBuf_ok.mp hinit'
  obtain ⟨hu, hstart⟩ := hchecked.usable hashSeed hfits
  obtain ⟨hu', hstart'⟩ := hchecked'.usable hash_seed' hfits'
  have hblank := blank_of_init creator hashSeed hchecked
  have hblank' := blank_of_init creator' hash_seed' hchecked'
  rw [← hfresh] at hblank'
  obtain ⟨-, hsrc⟩ := (hblank.refines hu hstart (hash_key hashSeed)).run hcalls
  have hempty := hblank'.refines hu' hstart' (hash_key hash_seed')
  have hcompact := hsrc.compact (hsrc.view hchecked.aligned).2 hinit' (hblank'.writer hstart')
    (hempty.view hchecked'.aligned).1 hempty
  dsimp only at hcompact ⊢
  split_ifs with hroom
  · obtain ⟨t', hdone, hcopied⟩ := (if_pos hroom).mp hcompact
    have hreads := hcopied.reads
    exact ⟨t'.buf, hdone, hcopied.bump, _, (hcopied.view hchecked'.aligned).2, hreads.get,
      hreads.iter_once, hreads.iter_mem, hreads.len⟩
  · exact (if_neg hroom).mp hcompact

theorem compact_preserves_map_sample :
    let buf := storeAll (List.replicate 512 0) (initStores ⟨1, 1⟩ 4 128 0)
    let src := ((Traced.start buf).run (fun _ _ => 0) twoKeys).buf
    let model := MapState.empty.run (4 : UInt32).toNat 128 twoKeys
    let done := compact (fun _ _ => 0) 0 0 ⟨1, 1⟩ src (List.replicate 512 0) 4 128 0
    if model.map.keys.card ≤ (4 : UInt32).toNat ∧ liveSize model.map ≤ 128 then
      ∃ dst', done = .ok (dst', model.map.keys.card) ∧ (header dst').arenaBump.toNat =
        liveSize model.map ∧ ∃ v, MemhView.new 0 dst' = .ok v ∧ Reads (fun _ _ => 0) v dst' model
    else done = .error .ArenaTooSmall :=
  compact_preserves_map (fun _ _ => 0) small_table (by decide) twoKeys twoKeys_short
    small_table (by decide)

end Compaction

end Probing.Memh.Table
