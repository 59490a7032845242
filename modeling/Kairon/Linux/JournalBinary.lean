/-
Kairon/Linux/JournalBinary.lean

The reader for binary systemd journals.

`entries` goes from object to object; offsets and sizes come from the file.  A read goes
through `unpackFrom` or `readSlice`, which note the place in `reads`, so that nothing is read
outside of the buffer is a property of the state at the end (`InBounds`).  `Safe` carries it
through the calls, and `walk_spec` through the loop: the position grows by sixteen at least,
so the fuel is enough.

A walk that comes to a damaged object ends as one that comes to the tail does; the flag
`truncated` only knows of the cap.  The objects that follow one another from the header
(`Chain`) say when that is no harm (`safeAndTold_iff`).
-/
import Kairon.Lvm.Binary
import Mathlib.Logic.Relation

namespace Kairon.Linux

open Search (Text)
open Lvm (Bytes leNat slice)

/-! ### Reading -/

inductive ReadFault
  | structError | valueError
  deriving DecidableEq

/-- What the journal remembers, and the places that were read: offset and length. -/
structure ScanState where
  cache : List (ℕ × Option (Text × Bytes))
  undecodableFields : ℕ
  reads : List (ℕ × ℕ)

abbrev Scan := ExceptT ReadFault (StateM ScanState)

/-- `struct.unpack_from`: it raises where not enough bytes are left. -/
def unpackFrom (buf : Bytes) (offset length : ℕ) : Scan Bytes := do
  modify fun s => { s with reads := (offset, length) :: s.reads }
  if offset + length ≤ buf.length then pure (slice buf offset (offset + length))
  else throw .structError

/-- `buf[start:stop]`. -/
def readSlice (buf : Bytes) (start stop : ℕ) : Scan Bytes := do
  modify fun s => { s with reads := (start, stop - start) :: s.reads }
  pure (slice buf start stop)

/-! ### Compressed fields -/

def maxEntries : ℕ := 1000000
def maxFieldsPerEntry : ℕ := 512
def maxFieldBytes : ℕ := 1048576
def dataCacheLimit : ℕ := 200000

/-- The decompressors: at most so many bytes of what the payload stands for; `none` where they
raise. -/
structure Codecs where
  zstd : Bytes → ℕ → Option Bytes
  xz : Bytes → ℕ → Option Bytes
  lz4 : Bytes → ℕ → Option Bytes

/-- `_decompress`. -/
def decompress (codecs : Codecs) (payload : Bytes) (flags : ℕ) : Option Bytes :=
  if flags &&& 4 ≠ 0 then
    (codecs.zstd payload (maxFieldBytes + 1)).filter fun data => data.length ≤ maxFieldBytes
  else if flags &&& 1 ≠ 0 then
    (codecs.xz payload (maxFieldBytes + 1)).filter fun data => data.length ≤ maxFieldBytes
  else if flags &&& 2 ≠ 0 then
    if payload.length < 8 then none
    else if leNat (slice payload 0 8) > maxFieldBytes then none
    else codecs.lz4 (payload.drop 8) (leNat (slice payload 0 8))
  else none

/-! ### Objects -/

/-- `_Journal`. -/
structure Journal where
  buf : Bytes
  compact : Bool
  headerSize : ℕ
  tailOffset : ℕ

/-- `SIGNATURE`. -/
def signature : Bytes := Lvm.asciiBytes "LPKSHHRH"

/-- `_Journal.__init__`. -/
def openJournal (buf : Bytes) : Scan Journal := do
  if buf.length < 144 then throw .valueError
  let magic ← readSlice buf 0 8
  if magic ≠ signature then throw .valueError
  let flags ← unpackFrom buf 12 4
  let headerSize ← unpackFrom buf 88 8
  let tailOffset ← unpackFrom buf 136 8
  pure ⟨buf, leNat flags &&& 16 ≠ 0, leNat headerSize, leNat tailOffset⟩

structure ObjectHeader where
  type : ℕ
  flags : ℕ
  size : ℕ

/-- `_OBJECT_HEADER`: the type, the flags, six bytes of nothing and the size. -/
def unpackHeader (bytes : Bytes) : ObjectHeader :=
  ⟨leNat (slice bytes 0 1), leNat (slice bytes 1 2), leNat (slice bytes 8 16)⟩

structure JournalEntry where
  seqnum : ℕ
  realtime : ℕ
  bootId : Bytes
  fields : List (Text × Bytes)

/-- `name.decode("ascii", "replace")`. -/
def decodeAscii (name : Bytes) : Text :=
  name.map fun b => if b < 128 then Char.ofNat b.toNat else '\uFFFD'

/-- `NAME=value`, taken apart. -/
def partitionField (payload : Bytes) : Option (Text × Bytes) :=
  let name := payload.takeWhile fun b => b ≠ 61
  if 61 ∈ payload ∧ name ≠ [] then
    some (decodeAscii name, (payload.dropWhile fun b => b ≠ 61).tail)
  else none

/-- `(n + 7) & ~7`. -/
def align8 (n : ℕ) : ℕ := (n + 7) / 8 * 8

section

variable (codecs : Codecs) (j : Journal)

/-- `_object_header`. -/
def Journal.objectHeader (offset : ℕ) : Scan (Option ObjectHeader) :=
  if offset + 16 > j.buf.length then pure none
  else do
    let bytes ← unpackFrom j.buf offset 16
    let header := unpackHeader bytes
    if header.size < 16 ∨ offset + header.size > j.buf.length then pure none
    else pure (some header)

/-- What a compressed payload stands for; one that does not decompress is counted. -/
def decoded (payload : Bytes) (flags : ℕ) : Scan Bytes :=
  if flags &&& 7 ≠ 0 then
    match decompress codecs payload flags with
    | some data => pure data
    | none => do
        modify fun s => { s with undecodableFields := s.undecodableFields + 1 }
        pure []
  else pure payload

/-- The object a field points to; it has to be aligned. -/
def Journal.alignedHeader (offset : ℕ) : Scan (Option ObjectHeader) :=
  if offset % 8 = 0 then j.objectHeader offset else pure none

/-- The field at an offset, not looked up in the cache. -/
def Journal.readField (offset : ℕ) : Scan (Option (Text × Bytes)) := do
  let header ← j.alignedHeader offset
  match header with
  | none => pure none
  | some header =>
    let start := offset + if j.compact then 72 else 64
    let stop := offset + header.size
    if header.type = 1 ∧ start ≤ stop then do
      let payload ← readSlice j.buf start stop
      let payload ← decoded codecs payload header.flags
      pure (partitionField payload)
    else pure none

/-- `data_field`. -/
def Journal.dataField (offset : ℕ) : Scan (Option (Text × Bytes)) := do
  let s ← get
  match s.cache.lookup offset with
  | some known => pure known
  | none => do
      let result ← j.readField codecs offset
      modify fun s =>
        if s.cache.length < dataCacheLimit then { s with cache := (offset, result) :: s.cache }
        else s
      pure result

/-- The loop over the items of an entry object; the first of a name stays. -/
def Journal.readFields (position : ℕ) : List ℕ → List (Text × Bytes) → Scan (List (Text × Bytes))
  | [], fields => pure fields
  | index :: indices, fields => do
      let target ← unpackFrom j.buf (position + 64 + index * if j.compact then 4 else 16)
        (if j.compact then 4 else 8)
      let resolved ← j.dataField codecs (leNat target)
      Journal.readFields position indices
        (fields ++ resolved.toList.filter fun field => field.1 ∉ fields.map Prod.fst)

/-- What `entries` yields for an entry object. -/
def Journal.readEntry (position size : ℕ) : Scan JournalEntry := do
  let fixed ← unpackFrom j.buf (position + 16) 48
  let count := (size - 64) / if j.compact then 4 else 16
  let fields ← j.readFields codecs position (List.range (min count maxFieldsPerEntry)) []
  pure ⟨leNat (slice fixed 0 8), leNat (slice fixed 8 16), slice fixed 24 40, fields⟩

/-! ### The walk -/

/-- How the walk over the objects ends. -/
inductive Stop
  | passed | fileEnd | damaged | unused | capped | raised
  deriving DecidableEq

structure Walk where
  entries : List JournalEntry
  stop : Stop
  position : ℕ
  state : ScanState

/-- Where the first object is. -/
def Journal.start : ℕ := align8 (max j.headerSize 144)

def Journal.lastObject : ℕ :=
  if j.tailOffset ≠ 0 then min j.tailOffset j.buf.length else j.buf.length

def ObjectHeader.isEntry (header : ObjectHeader) : Bool := header.type = 3 ∧ 64 ≤ header.size

/-- The loop of `entries`, with the loop that takes what it yields.  The first argument bounds
the number of objects, the second is how many entries are still taken. -/
def Journal.walk : ℕ → ℕ → ℕ → ScanState → Option Walk
  | 0, _, _, _ => none
  | fuel + 1, room, position, s =>
    if position > j.lastObject then some ⟨[], .passed, position, s⟩
    else if position + 16 > j.buf.length then some ⟨[], .fileEnd, position, s⟩
    else
      match j.objectHeader position s with
      | (.error _, s) => some ⟨[], .raised, position, s⟩
      | (.ok none, s) => some ⟨[], .damaged, position, s⟩
      | (.ok (some header), s) =>
        if header.type = 0 then some ⟨[], .unused, position, s⟩
        else if header.isEntry then
          match j.readEntry codecs position header.size s with
          | (.error _, s) => some ⟨[], .raised, position, s⟩
          | (.ok entry, s) =>
            match room with
            | 0 => some ⟨[], .capped, position, s⟩
            | room + 1 =>
              (Journal.walk fuel room (position + align8 header.size) s).map fun w =>
                { w with entries := entry :: w.entries }
        else Journal.walk fuel room (position + align8 header.size) s

end

/-- `info["truncated"]`. -/
def Walk.truncated (w : Walk) : Bool := w.stop = .capped ∨ w.stop = .raised

/-- `read_journal_entries` of a file that is not empty: the journal that is opened, and the
walk through it. -/
def readJournalEntries (codecs : Codecs) (fuel : ℕ) (buf : Bytes) :
    Except ReadFault (Journal × Option Walk) :=
  match openJournal buf ⟨[], 0, []⟩ with
  | (.error fault, _) => .error fault
  | (.ok j, s) => .ok (j, j.walk codecs fuel maxEntries j.start s)

/-! ### What is promised -/

/-- All reads were inside of the buffer. -/
def InBounds (buf : Bytes) (s : ScanState) : Prop := ∀ r ∈ s.reads, r.1 + r.2 ≤ buf.length

/-- The buffer has the signature and the length of a journal. -/
def IsJournal (buf : Bytes) : Prop := 144 ≤ buf.length ∧ slice buf 0 8 = signature

/-- The walk through the buffer ends, it reads nothing outside and raises nothing, and it says
so if it comes to an end before the tail. -/
def SafeAndTold (codecs : Codecs) (buf : Bytes) : Prop :=
  ∃ j w, (∀ fuel, buf.length < fuel → readJournalEntries codecs fuel buf = .ok (j, some w)) ∧
    InBounds buf w.state ∧ w.stop ≠ .raised ∧
      (w.stop ≠ .capped → w.position < j.tailOffset → w.truncated = true)

/-- A whole object at a place of the buffer. -/
structure ObjectAt (buf : Bytes) (position : ℕ) (header : ObjectHeader) : Prop where
  header_eq : header = unpackHeader (slice buf position (position + 16))
  header_fits : position + 16 ≤ buf.length
  size : 16 ≤ header.size
  fits : position + header.size ≤ buf.length

/-- The next object, and how many entries there are up to it. -/
inductive Next (buf : Bytes) : ℕ × ℕ → ℕ × ℕ → Prop
  | object {position count : ℕ} {header : ObjectHeader} : ObjectAt buf position header →
      header.type ≠ 0 → Next buf (position, count)
        (position + align8 header.size, if header.isEntry then count + 1 else count)

/-- The number in the buffer at an offset. -/
def numberAt (buf : Bytes) (offset : ℕ) : ℕ := leNat (slice buf offset (offset + 8))

/-- The objects that follow one another from the header, with the number of entries before. -/
def Chain (buf : Bytes) (position count : ℕ) : Prop :=
  Relation.ReflTransGen (Next buf) (align8 (max (numberAt buf 88) 144), 0) (position, count)

/-! ### Safe calls -/

section Safe

variable {α β : Type} {buf : Bytes} {P : α → Prop} {Q : β → Prop}

/-- The call raises nothing, reads nothing outside, and what it returns satisfies `P`. -/
def Safe (buf : Bytes) (m : Scan α) (P : α → Prop) : Prop :=
  ∀ s, InBounds buf s → ∃ a s', m s = (.ok a, s') ∧ InBounds buf s' ∧ P a

theorem safe_pure {a : α} (h : P a) : Safe buf (pure a) P := fun s hs => ⟨a, s, rfl, hs, h⟩

theorem scan_bind {m : Scan α} {f : α → Scan β} {a : α} {s s' : ScanState}
    (h : m s = (.ok a, s')) : (m >>= f) s = f a s' := by
  show (match m s with | (r, s') => ExceptT.bindCont f r s') = _
  rw [h]
  rfl

theorem Safe.bind {m : Scan α} {f : α → Scan β} (hm : Safe buf m P)
    (hf : ∀ a, P a → Safe buf (f a) Q) : Safe buf (m >>= f) Q := by
  intro s hs
  obtain ⟨a, s', hrun, hs', ha⟩ := hm s hs
  rw [scan_bind hrun]
  exact hf a ha s' hs'

theorem Safe.mono {P' : α → Prop} {m : Scan α} (h : Safe buf m P) (himp : ∀ a, P a → P' a) :
    Safe buf m P' := by
  intro s hs
  obtain ⟨a, s', hrun, hs', ha⟩ := h s hs
  exact ⟨a, s', hrun, hs', himp a ha⟩

theorem safe_modify {f : ScanState → ScanState} (h : ∀ s, InBounds buf s → InBounds buf (f s)) :
    Safe buf (modify f) fun _ => True := fun s hs => ⟨(), f s, rfl, h s hs, trivial⟩

theorem safe_get : Safe buf (get : Scan ScanState) fun _ => True :=
  fun s hs => ⟨s, s, rfl, hs, trivial⟩

theorem safe_note {offset length : ℕ} (h : offset + length ≤ buf.length) :
    Safe buf (modify fun s => { s with reads := (offset, length) :: s.reads }) fun _ => True :=
  safe_modify fun _ hs => List.forall_mem_cons.mpr ⟨h, hs⟩

theorem safe_unpackFrom {offset length : ℕ} (h : offset + length ≤ buf.length) :
    Safe buf (unpackFrom buf offset length) fun bytes =>
      bytes = slice buf offset (offset + length) := by
  refine (safe_note h).bind fun _ _ => ?_
  rw [if_pos h]
  exact safe_pure rfl

theorem safe_readSlice {start stop : ℕ} (hle : start ≤ stop) (h : stop ≤ buf.length) :
    Safe buf (readSlice buf start stop) fun bytes => bytes = slice buf start stop :=
  (safe_note (by omega)).bind fun _ _ => safe_pure rfl

variable {j : Journal} (codecs : Codecs)

theorem safe_objectHeader (hbuf : j.buf = buf) (offset : ℕ) :
    Safe buf (j.objectHeader offset) fun r => ∀ header, r = some header ↔ ObjectAt buf offset header := by
  subst hbuf
  rw [Journal.objectHeader]
  split_ifs with hend
  · refine safe_pure fun header => ⟨fun h => (by cases h), fun h => ?_⟩
    exact absurd h.header_fits (by omega)
  · refine (safe_unpackFrom (by omega)).bind ?_
    rintro bytes rfl
    dsimp only
    split_ifs with hsize
    · refine safe_pure fun header => ⟨fun h => (by cases h), fun h => ?_⟩
      rw [← h.header_eq] at hsize
      have := h.size
      have := h.fits
      omega
    · rw [not_or, not_lt, not_lt] at hsize
      refine safe_pure fun header => ⟨fun h => ?_, fun h => by rw [h.header_eq]⟩
      cases h
      exact ⟨rfl, by omega, hsize.1, hsize.2⟩

theorem safe_decoded (payload : Bytes) (flags : ℕ) :
    Safe buf (decoded codecs payload flags) fun _ => True := by
  rw [decoded]
  split_ifs
  · cases decompress codecs payload flags with
    | none =>
      refine Safe.bind (P := fun _ => True) (safe_modify fun _ hs => hs) fun _ _ => ?_
      exact safe_pure trivial
    | some data => exact safe_pure trivial
  · exact safe_pure trivial

theorem safe_readField (hbuf : j.buf = buf) (offset : ℕ) :
    Safe buf (j.readField codecs offset) fun _ => True := by
  have hheader : Safe buf (j.alignedHeader offset) fun r =>
      ∀ header, r = some header → ObjectAt buf offset header := by
    rw [Journal.alignedHeader]
    split_ifs
    · exact (safe_objectHeader hbuf offset).mono fun r hr header => (hr header).mp
    · exact safe_pure fun header h => by cases h
  refine hheader.bind fun r hr => ?_
  rcases r with - | header
  · exact safe_pure trivial
  · have hobject := hr header rfl
    dsimp only
    by_cases hdata : header.type = 1 ∧
        offset + (if j.compact = true then 72 else 64) ≤ offset + header.size
    · rw [if_pos hdata, hbuf]
      exact (safe_readSlice hdata.2 hobject.fits).bind fun _ _ =>
        (safe_decoded codecs _ _).bind fun _ _ => safe_pure trivial
    · rw [if_neg hdata]
      exact safe_pure trivial

theorem safe_dataField (hbuf : j.buf = buf) (offset : ℕ) :
    Safe buf (j.dataField codecs offset) fun _ => True := by
  refine safe_get.bind fun s _ => ?_
  cases s.cache.lookup offset with
  | some known => exact safe_pure trivial
  | none =>
    refine (safe_readField codecs hbuf offset).bind fun result _ => ?_
    refine (safe_modify fun s hs => ?_).bind fun _ _ => safe_pure trivial
    split_ifs <;> exact hs

/-- The items of an entry object lie in the object. -/
theorem safe_readFields (hbuf : j.buf = buf) {position : ℕ} {indices : List ℕ}
    (hindices : ∀ index ∈ indices,
      position + 64 + (index + 1) * (if j.compact then 4 else 16) ≤ buf.length)
    (fields : List (Text × Bytes)) :
    Safe buf (j.readFields codecs position indices fields) fun _ => True := by
  induction indices generalizing fields with
  | nil => exact safe_pure trivial
  | cons index indices ih =>
    obtain ⟨hindex, hindices⟩ := List.forall_mem_cons.mp hindices
    have hitem : position + 64 + index * (if j.compact then 4 else 16) +
        (if j.compact then 4 else 8) ≤ buf.length := by
      rw [Nat.succ_mul] at hindex
      split_ifs at hindex ⊢ <;> omega
    rw [Journal.readFields, hbuf]
    exact (safe_unpackFrom hitem).bind fun _ _ => (safe_dataField codecs hbuf _).bind fun _ _ =>
      ih hindices _

theorem safe_readEntry (hbuf : j.buf = buf) {position size : ℕ} (hsize : 64 ≤ size)
    (hfits : position + size ≤ buf.length) :
    Safe buf (j.readEntry codecs position size) fun _ => True := by
  rw [Journal.readEntry, hbuf]
  refine (safe_unpackFrom (by omega)).bind fun fixed _ => ?_
  refine (safe_readFields codecs hbuf (fun index hindex => ?_) []).bind fun _ _ => safe_pure trivial
  have hlt : index < (size - 64) / (if j.compact then 4 else 16) :=
    lt_of_lt_of_le (List.mem_range.mp hindex) (Nat.min_le_left _ _)
  have hmul : (index + 1) * (if j.compact then 4 else 16) ≤ size - 64 :=
    (Nat.mul_le_mul_right _ hlt).trans (Nat.div_mul_le_self (size - 64) _)
  omega

end Safe

/-! ### The walk -/

section Walk

variable {buf : Bytes} {j : Journal} (codecs : Codecs)

theorem le_align8 (n : ℕ) : n ≤ align8 n := by
  rw [align8]
  omega

theorem Next.lt {a b : ℕ × ℕ} (h : Next buf a b) : a.1 + 16 ≤ b.1 ∧ a.2 ≤ b.2 := by
  cases h with
  | object hobject _ =>
    refine ⟨Nat.add_le_add_left (hobject.size.trans (le_align8 _)) _, ?_⟩
    dsimp only
    split_ifs
    · exact Nat.le_succ _
    · exact Nat.le_refl _

theorem next_le {a b : ℕ × ℕ} (h : Relation.ReflTransGen (Next buf) a b) :
    a.1 ≤ b.1 ∧ a.2 ≤ b.2 := by
  induction h with
  | refl => exact ⟨Nat.le_refl _, Nat.le_refl _⟩
  | tail _ hnext ih =>
    obtain ⟨hposition, hcount⟩ := hnext.lt
    exact ⟨by omega, by omega⟩

theorem next_rightUnique : Relator.RightUnique (Next buf) := by
  intro a b b' h h'
  cases h with
  | object hobject _ =>
    cases h' with
    | object hobject' _ => rw [hobject.header_eq, hobject'.header_eq]

/-- What the walk has seen when it ends: from a place with `count` entries before it, with room
for others. -/
structure WalkSpec (j : Journal) (room position count : ℕ) (w : Walk) : Prop where
  inBounds : InBounds j.buf w.state
  stop : w.stop ≠ .raised
  capped : w.stop = .capped →
    ∃ b, Relation.ReflTransGen (Next j.buf) (position, count) b ∧ count + room < b.2
  ends : w.stop ≠ .capped → ∃ k, k ≤ count + room ∧
    Relation.ReflTransGen (Next j.buf) (position, count) (w.position, k) ∧
      (j.lastObject < w.position ∨ ∀ b, ¬ Next j.buf (w.position, k) b)

theorem walkSpec_here {room position count : ℕ} {s : ScanState} (stop : Stop)
    (hs : InBounds j.buf s) (hstop : stop ≠ .raised ∧ stop ≠ .capped)
    (hend : j.lastObject < position ∨ ∀ b, ¬ Next j.buf (position, count) b) :
    WalkSpec j room position count ⟨[], stop, position, s⟩ :=
  ⟨hs, hstop.1, fun h => absurd h hstop.2, fun _ => ⟨count, by omega, .refl, hend⟩⟩

/-- An object has been passed; the rest of the walk knows the rest. -/
theorem WalkSpec.after {room room' position count next count' : ℕ} {w : Walk}
    (h : WalkSpec j room' next count' w) (entries : List JournalEntry)
    (hnext : Next j.buf (position, count) (next, count')) (hroom : count + room = count' + room') :
    WalkSpec j room position count { w with entries := entries } where
  inBounds := h.inBounds
  stop := h.stop
  capped hstop := by
    obtain ⟨b, hb, hlt⟩ := h.capped hstop
    exact ⟨b, .head hnext hb, by omega⟩
  ends hstop := by
    obtain ⟨k, hk, hreach, hend⟩ := h.ends hstop
    exact ⟨k, by omega, .head hnext hreach, hend⟩

/-- By induction on the fuel: an object that is passed has sixteen bytes at least. -/
theorem walk_spec {fuel room position count : ℕ} {s : ScanState} (hs : InBounds j.buf s)
    (hfuel : j.buf.length < fuel + position) (hpositive : 0 < fuel) :
    ∃ w, WalkSpec j room position count w ∧
      ∀ fuel', fuel ≤ fuel' → j.walk codecs fuel' room position s = some w := by
  induction fuel generalizing room position count s with
  | zero => exact absurd hpositive (Nat.lt_irrefl 0)
  | succ fuel ih =>
    by_cases hpassed : position > j.lastObject
    · refine ⟨_, walkSpec_here .passed hs (by decide) (.inl hpassed), fun fuel' hle => ?_⟩
      obtain ⟨fuel', rfl⟩ := Nat.exists_eq_add_of_le' (Nat.le_of_add_left_le hle)
      rw [Journal.walk, if_pos hpassed]
    by_cases hend : position + 16 > j.buf.length
    · refine ⟨_, walkSpec_here .fileEnd hs (by decide) (.inr fun b h => ?_), fun fuel' hle => ?_⟩
      · cases h with
        | object hobject _ => exact absurd hobject.header_fits (by omega)
      · obtain ⟨fuel', rfl⟩ := Nat.exists_eq_add_of_le' (Nat.le_of_add_left_le hle)
        rw [Journal.walk, if_neg hpassed, if_pos hend]
    obtain ⟨r, s', hrun, hs', hr⟩ := safe_objectHeader rfl position s hs
    rcases r with - | header
    · refine ⟨_, walkSpec_here .damaged hs' (by decide) (.inr fun b h => ?_), fun fuel' hle => ?_⟩
      · cases h with
        | object hobject _ => cases (hr _).mpr hobject
      · obtain ⟨fuel', rfl⟩ := Nat.exists_eq_add_of_le' (Nat.le_of_add_left_le hle)
        rw [Journal.walk, if_neg hpassed, if_neg hend, hrun]
    have hobject := (hr header).mp rfl
    by_cases htype : header.type = 0
    · refine ⟨_, walkSpec_here .unused hs' (by decide) (.inr fun b h => ?_), fun fuel' hle => ?_⟩
      · cases h with
        | object hobject' htype' => exact htype' (hobject'.header_eq ▸ hobject.header_eq ▸ htype)
      · obtain ⟨fuel', rfl⟩ := Nat.exists_eq_add_of_le' (Nat.le_of_add_left_le hle)
        rw [Journal.walk, if_neg hpassed, if_neg hend, hrun]
        exact if_pos htype
    have hnext : Next j.buf (position, count)
        (position + align8 header.size, if header.isEntry then count + 1 else count) :=
      .object hobject htype
    have hgrows : position + 16 ≤ position + align8 header.size := hnext.lt.1
    by_cases hentry : header.isEntry = true
    · rw [if_pos hentry] at hnext
      have hsize : 64 ≤ header.size := (of_decide_eq_true hentry).2
      obtain ⟨entry, s'', hread, hs'', -⟩ := safe_readEntry codecs rfl hsize hobject.fits s' hs'
      rcases room with - | room
      · refine ⟨⟨[], .capped, position, s''⟩, ⟨hs'', Stop.noConfusion, fun _ => ⟨_, .single hnext, ?_⟩,
          fun h => absurd rfl h⟩, fun fuel' hle => ?_⟩
        · exact Nat.lt_succ_self count
        · obtain ⟨fuel', rfl⟩ := Nat.exists_eq_add_of_le' (Nat.le_of_add_left_le hle)
          rw [Journal.walk, if_neg hpassed, if_neg hend, hrun]
          dsimp only
          rw [if_neg htype, if_pos hentry, hread]
      · obtain ⟨w, hw, hwalk⟩ := @ih room (position + align8 header.size) (count + 1) s'' hs''
          (by omega) (by omega)
        refine ⟨_, hw.after (entry :: w.entries) hnext (by omega), fun fuel' hle => ?_⟩
        obtain ⟨fuel', rfl⟩ := Nat.exists_eq_add_of_le' (Nat.le_of_add_left_le hle)
        rw [Journal.walk, if_neg hpassed, if_neg hend, hrun]
        dsimp only
        rw [if_neg htype, if_pos hentry, hread]
        dsimp only
        rw [hwalk fuel' (Nat.le_of_succ_le_succ hle)]
        rfl
    · rw [if_neg hentry] at hnext
      obtain ⟨w, hw, hwalk⟩ := @ih room (position + align8 header.size) count s' hs' (by omega)
        (by omega)
      refine ⟨_, hw.after w.entries hnext (by omega), fun fuel' hle => ?_⟩
      obtain ⟨fuel', rfl⟩ := Nat.exists_eq_add_of_le' (Nat.le_of_add_left_le hle)
      rw [Journal.walk, if_neg hpassed, if_neg hend, hrun]
      dsimp only
      rw [if_neg htype, if_neg hentry, hwalk fuel' (Nat.le_of_succ_le_succ hle)]

theorem safe_openJournal (h : IsJournal buf) :
    Safe buf (openJournal buf) fun j => j.buf = buf ∧ j.headerSize = numberAt buf 88 ∧
      j.tailOffset = numberAt buf 136 := by
  obtain ⟨hlength, hsignature⟩ := h
  rw [openJournal, if_neg (by omega)]
  refine (safe_readSlice (Nat.zero_le 8) (by omega)).bind ?_
  rintro magic rfl
  dsimp only
  rw [if_neg (not_not.mpr hsignature)]
  refine (safe_unpackFrom (by omega)).bind fun flags _ => ?_
  refine (safe_unpackFrom (by omega)).bind ?_
  rintro headerSize rfl
  refine (safe_unpackFrom (by omega)).bind ?_
  rintro tailOffset rfl
  exact safe_pure ⟨rfl, rfl, rfl⟩

end Walk

/-- **No read is outside of the buffer, nothing is raised and the walk ends; it says so when it
comes to an end before the tail, if and only if the header declares no tail, or the objects
that follow one another lead to it or beyond, or there are more entries than are taken.** -/
theorem safeAndTold_iff (codecs : Codecs) (buf : Bytes) (hjournal : IsJournal buf) :
    SafeAndTold codecs buf ↔ numberAt buf 136 = 0 ∨ ∃ position count, Chain buf position count ∧
        (numberAt buf 136 ≤ position ∨ maxEntries < count) := by
  obtain ⟨j, s, hopen, hs, rfl, hheader, htail⟩ :=
    safe_openJournal hjournal ⟨[], 0, []⟩ fun r h => by cases h
  obtain ⟨w, hw, hwalk⟩ := @walk_spec j codecs (j.buf.length + 1) maxEntries j.start 0 s hs (by omega)
    (Nat.succ_pos _)
  have hrun : ∀ fuel, j.buf.length < fuel → readJournalEntries codecs fuel j.buf = .ok (j, some w) := by
    intro fuel hfuel
    rw [readJournalEntries, hopen]
    dsimp only
    rw [hwalk fuel hfuel]
  have htold : SafeAndTold codecs j.buf ↔
      (w.stop ≠ .capped → w.position < j.tailOffset → w.truncated = true) := by
    refine ⟨?_, fun h => ⟨j, w, hrun, hw.inBounds, hw.stop, h⟩⟩
    rintro ⟨j', w', hrun', -, -, h⟩
    have heq := (hrun' _ (Nat.lt_succ_self _)).symm.trans (hrun _ (Nat.lt_succ_self _))
    cases heq
    exact h
  have hstart : align8 (max (numberAt j.buf 88) 144) = j.start := by rw [Journal.start, hheader]
  rw [htold, ← htail]
  constructor
  · intro h
    by_cases hcapped : w.stop = .capped
    · obtain ⟨b, hb, hlt⟩ := hw.capped hcapped
      refine .inr ⟨b.1, b.2, ?_, .inr (by omega)⟩
      rw [Chain, hstart]
      exact hb
    · obtain ⟨k, -, hreach, -⟩ := hw.ends hcapped
      have hpast : j.tailOffset ≤ w.position := by
        by_contra hlt
        have htruncated := h hcapped (not_le.mp hlt)
        rw [Walk.truncated, decide_eq_true_iff] at htruncated
        exact htruncated.elim hcapped hw.stop
      refine .inr ⟨w.position, k, ?_, .inl hpast⟩
      rw [Chain, hstart]
      exact hreach
  · intro h hcapped hbefore
    obtain ⟨k, hk, hreach, hend⟩ := hw.ends hcapped
    -- Before the tail, the walk ends at a place without an object only.
    have hstuck : ∀ b, ¬ Next j.buf (w.position, k) b := by
      rcases hend with hlast | hend
      · rintro b ⟨hobject, -⟩
        have hfits := hobject.header_fits
        rw [Journal.lastObject] at hlast
        split_ifs at hlast <;> omega
      · exact hend
    rcases h with h | ⟨position, count, hchain, h⟩
    · omega
    · rw [Chain, hstart] at hchain
      have hle : position ≤ w.position ∧ count ≤ k := by
        rcases Relation.ReflTransGen.total_of_right_unique next_rightUnique hchain hreach with h | h
        · exact next_le h
        · rcases Relation.ReflTransGen.cases_head h with heq | ⟨b, hb, -⟩
          · cases heq
            exact ⟨Nat.le_refl _, Nat.le_refl _⟩
          · exact absurd hb (hstuck b)
      omega

/-! ### Two small journals -/

/-- A header of 144 bytes. -/
def journalHeader (tail : UInt8) : Bytes :=
  signature ++ List.replicate 80 0 ++ 144 :: List.replicate 47 0 ++ tail :: List.replicate 7 0

/-- An entry object without items. -/
def emptyEntry : Bytes := 3 :: List.replicate 7 0 ++ 64 :: List.replicate 55 0

def noCodecs : Codecs := ⟨fun _ _ => none, fun _ _ => none, fun _ _ => none⟩

/-- One entry, which is the tail. -/
def soundJournal : Bytes := journalHeader 144 ++ emptyEntry

theorem soundJournal_safeAndTold : SafeAndTold noCodecs soundJournal :=
  (safeAndTold_iff noCodecs soundJournal ⟨by decide +kernel, by decide +kernel⟩).mpr
    (.inr ⟨144, 0, .refl, .inl (by decide +kernel)⟩)

/-- An object of size zero before the tail. -/
def damagedJournal : Bytes := journalHeader 168 ++ List.replicate 40 0

/-- The walk ends at the damaged object, and nothing says so. -/
theorem damagedJournal_not_told : IsJournal damagedJournal ∧ ¬ SafeAndTold noCodecs damagedJournal := by
  refine ⟨⟨by decide +kernel, by decide +kernel⟩, ?_⟩
  rintro ⟨j, w, hrun, -, -, htold⟩
  have hend : (readJournalEntries noCodecs 185 damagedJournal).map
      (fun r => (r.1.tailOffset, r.2.map fun w => (w.stop, w.position))) =
        .ok (168, some (.damaged, 144)) := by decide +kernel
  rw [hrun 185 (by decide +kernel)] at hend
  simp only [Except.map, Option.map_some, Except.ok.injEq, Prod.mk.injEq, Option.some.injEq] at hend
  obtain ⟨htail, hstop, hposition⟩ := hend
  have htruncated := htold (by rw [hstop]; decide) (by rw [hposition, htail]; decide)
  rw [Walk.truncated, hstop] at htruncated
  cases htruncated

end Kairon.Linux
