/-
Kairon/Lvm/Reader.lean

`LogicalVolumeReader`: a logical volume as one row of bytes.

The constructor lays the segments out one behind the other; `read` walks over
a request, looks up the segment of the current position by bisection, and asks
the physical reader for the part of the request inside it.

`pieces` says the same without a loop: the parts of a request that fall into
each segment.  The walk reads exactly these (`read_eq`), whatever the sizes and
the order the segments were given in.
-/
import Kairon.Lib.Bisect
import Kairon.Lib.Settle
import Kairon.Lvm.Model

namespace Kairon.Lvm

open Search (Text)
open Bisect Settle

/-! ### The reader -/

/-- What the constructor raises. -/
inductive OpenError
  | extentMapGap (volume : Text) (expected found : ℤ)
  | unresolvedPhysicalVolume (volume name : Text)
  deriving DecidableEq

/-- What `read` raises; `ε` is what the physical reader raises itself. -/
inductive ReadError (ε : Type)
  | negativeOffset (offset : ℤ)
  | negativeSize (size : ℤ)
  | beyondEnd (offset stop size : ℤ)
  | underlyingRead (got : ℕ) (wanted physicalOffset position : ℤ)
  | physical (e : ε)
  | indexError
  | keyError
  | outOfFuel
  deriving DecidableEq

structure Reader where
  extentSize : ℤ
  volumeGroup : VolumeGroup
  segments : List LinearSegment
  segmentStartBytes : List ℤ
  sizeBytes : ℤ
  deriving DecidableEq

/-- The loop of the constructor: the first bytes of the segments, and the size
of the volume. -/
def extentMap (vg : VolumeGroup) (volume : Text) : ℤ → List LinearSegment →
    Except OpenError (List ℤ × ℤ)
  | expected, [] => .ok ([], expected * vg.extentSizeBytes)
  | expected, s :: ss =>
    if s.startExtent ≠ expected then .error (.extentMapGap volume expected s.startExtent)
    else if (vg.physicalVolumeNamed s.physicalVolumeName).isNone then
      .error (.unresolvedPhysicalVolume volume s.physicalVolumeName)
    else do
      let (starts, size) ← extentMap vg volume (expected + s.extentCount) ss
      pure (expected * vg.extentSizeBytes :: starts, size)

/-- `sorted(segments, key=start_extent)`. -/
def sortSegments (segments : List LinearSegment) : List LinearSegment :=
  segments.mergeSort fun a b => a.startExtent ≤ b.startExtent

/-- `LogicalVolumeReader.__init__`. -/
def Reader.init (lv : LogicalVolume) (vg : VolumeGroup) : Except OpenError Reader := do
  let (starts, size) ← extentMap vg lv.name 0 (sortSegments lv.segments)
  pure ⟨vg.extentSizeBytes, vg, sortSegments lv.segments, starts, size⟩

/-- An element of a list; a negative index counts from the end. -/
def pyIndex {α : Type} (xs : List α) (i : ℤ) : Option α :=
  if 0 ≤ i then xs[i.toNat]? else if 0 ≤ xs.length + i then xs[(xs.length + i).toNat]? else none

section

variable {ε : Type} (readPhysical : ℤ → ℤ → Except ε Bytes)

/-- One call of the physical reader, with the check of what it returns. -/
def readChunk (physicalOffset size position : ℤ) : Except (ReadError ε) Bytes :=
  match readPhysical physicalOffset size with
  | .error e => .error (.physical e)
  | .ok chunk =>
    if (chunk.length : ℤ) ≠ size then
      .error (.underlyingRead chunk.length size physicalOffset position)
    else .ok chunk

/-- The loop of `read`. -/
def Reader.readFrom (r : Reader) (stop : ℤ) : ℕ → ℤ → Except (ReadError ε) Bytes
  | 0, position => if position < stop then .error .outOfFuel else .ok []
  | n + 1, position =>
    if position < stop then
      let index : ℤ := bisectRight r.segmentStartBytes position - 1
      match pyIndex r.segments index, pyIndex r.segmentStartBytes index with
      | some segment, some segmentStart =>
        match r.volumeGroup.physicalVolumeNamed segment.physicalVolumeName with
        | some pv => do
            let segmentEnd := segmentStart + segment.extentCount * r.extentSize
            let chunkEnd := min stop segmentEnd
            let physicalOffset := pv.peStartBytes +
              segment.startPhysicalExtent * r.extentSize + (position - segmentStart)
            let chunk ← readChunk readPhysical physicalOffset (chunkEnd - position) position
            let rest ← Reader.readFrom r stop n chunkEnd
            pure (chunk ++ rest)
        | none => .error .keyError
      | _, _ => .error .indexError
    else .ok []

/-- `LogicalVolumeReader.read`. -/
def Reader.read (r : Reader) (offset size : ℤ) : Except (ReadError ε) Bytes :=
  if offset < 0 then .error (.negativeOffset offset)
  else if size < 0 then .error (.negativeSize size)
  else if offset + size > r.sizeBytes then .error (.beyondEnd offset (offset + size) r.sizeBytes)
  else if size = 0 then .ok []
  else r.readFrom readPhysical (offset + size) size.toNat offset

end

/-! ### The layout -/

/-- The extents in front of a segment. -/
def extentsBefore (segments : List LinearSegment) (i : ℕ) : ℤ :=
  ((segments.take i).map LinearSegment.extentCount).sum

theorem extentsBefore_cons_succ (s : LinearSegment) (segments : List LinearSegment) (i : ℕ) :
    extentsBefore (s :: segments) (i + 1) = s.extentCount + extentsBefore segments i := by
  simp [extentsBefore]

variable {segments : List LinearSegment}

theorem extentsBefore_succ {i : ℕ} {s : LinearSegment} (h : segments[i]? = some s) :
    extentsBefore segments (i + 1) = extentsBefore segments i + s.extentCount := by
  have htake : segments.take (i + 1) = segments.take i ++ [s] := by
    rw [List.take_add_one, h]
    rfl
  rw [extentsBefore, htake, List.map_append, List.sum_append]
  simp [extentsBefore]

/-- What the constructor has checked and recorded. -/
structure Laid (vg : VolumeGroup) (segments : List LinearSegment) (starts : List ℤ) (size : ℤ)
    (expected : ℤ) : Prop where
  starts_eq : starts = (List.range segments.length).map fun i =>
    (expected + extentsBefore segments i) * vg.extentSizeBytes
  size_eq : size = (expected + extentsBefore segments segments.length) * vg.extentSizeBytes
  startExtent : ∀ i s, segments[i]? = some s → s.startExtent = expected + extentsBefore segments i
  resolved : ∀ s ∈ segments, ∃ pv, vg.physicalVolumeNamed s.physicalVolumeName = some pv

theorem laid_of_extentMap {vg : VolumeGroup} {volume : Text} {expected size : ℤ} {starts : List ℤ}
    (h : extentMap vg volume expected segments = .ok (starts, size)) :
    Laid vg segments starts size expected := by
  induction segments generalizing expected starts size with
  | nil =>
    cases h
    exact ⟨rfl, by simp [extentsBefore], by simp, by simp⟩
  | cons s ss ih =>
    rw [extentMap] at h
    split at h
    · cases h
    rename_i hstart
    rw [ne_eq, not_not] at hstart
    split at h
    · cases h
    rename_i hpv
    obtain ⟨⟨starts', size'⟩, htail, h⟩ := bind_eq_ok.1 h
    cases h
    have hl := ih htail
    refine ⟨?_, ?_, ?_, ?_⟩
    · rw [hl.starts_eq, List.length_cons, List.range_succ_eq_map, List.map_cons, List.map_map]
      congr 1
      · simp [extentsBefore]
      · apply List.map_congr_left
        intro i _
        show _ = (expected + extentsBefore (s :: ss) (i + 1)) * _
        rw [extentsBefore_cons_succ, add_assoc]
    · rw [hl.size_eq, List.length_cons, extentsBefore_cons_succ, add_assoc]
    · intro i t ht
      cases i with
      | zero =>
        obtain rfl : s = t := by simpa using ht
        simpa [extentsBefore] using hstart
      | succ i =>
        have h' := hl.startExtent i t (by simpa using ht)
        rw [extentsBefore_cons_succ, h', add_assoc]
    · intro t ht
      obtain rfl | ht := List.mem_cons.1 ht
      · exact Option.ne_none_iff_exists'.1 (by simpa using hpv)
      · exact hl.resolved t ht

/-- A reader as the constructor leaves it. -/
structure Reader.Sound (r : Reader) : Prop where
  extentSize_eq : r.extentSize = r.volumeGroup.extentSizeBytes
  laid : Laid r.volumeGroup r.segments r.segmentStartBytes r.sizeBytes 0
  sorted : r.segments.Pairwise fun s t => s.startExtent ≤ t.startExtent

theorem pairwise_sortSegments (segments : List LinearSegment) :
    (sortSegments segments).Pairwise fun s t => s.startExtent ≤ t.startExtent := by
  have h : (sortSegments segments).Pairwise fun s t =>
      (decide (s.startExtent ≤ t.startExtent)) = true := by
    apply List.pairwise_mergeSort
    · simpa using fun a b c => le_trans
    · simpa using fun a b => le_total _ _
  exact h.imp fun hst => of_decide_eq_true hst

theorem sound_of_init {lv : LogicalVolume} {vg : VolumeGroup} {r : Reader}
    (h : Reader.init lv vg = .ok r) :
    r.Sound ∧ r.volumeGroup = vg ∧ r.segments = sortSegments lv.segments := by
  obtain ⟨⟨starts, size⟩, hmap, h⟩ := bind_eq_ok.1 h
  cases h
  exact ⟨⟨rfl, laid_of_extentMap hmap, pairwise_sortSegments lv.segments⟩, rfl, rfl⟩

section

variable {r : Reader}

/-- The first byte of the `i`-th segment, and the size behind the last. -/
def Reader.bound (r : Reader) (i : ℕ) : ℤ := extentsBefore r.segments i * r.extentSize

variable {s : LinearSegment}

theorem Reader.Sound.startByte (h : r.Sound) {i : ℕ}
    (hs : r.segments[i]? = some s) : s.startByte r.extentSize = r.bound i := by
  rw [LinearSegment.startByte, h.laid.startExtent i s hs, Reader.bound, zero_add]

theorem Reader.Sound.endByte (h : r.Sound) {i : ℕ}
    (hs : r.segments[i]? = some s) : s.endByte r.extentSize = r.bound (i + 1) := by
  rw [LinearSegment.endByte, h.startByte hs, Reader.bound, Reader.bound, extentsBefore_succ hs,
    add_mul]

theorem Reader.Sound.size_eq (h : r.Sound) : r.sizeBytes = r.bound r.segments.length := by
  rw [h.laid.size_eq, Reader.bound, zero_add, h.extentSize_eq]

theorem Reader.Sound.starts_getElem? (h : r.Sound) (i : ℕ) :
    r.segmentStartBytes[i]? = if i < r.segments.length then some (r.bound i) else none := by
  rw [h.laid.starts_eq]
  by_cases hi : i < r.segments.length
  · rw [if_pos hi, List.getElem?_map, List.getElem?_range hi, Option.map_some, zero_add,
      Reader.bound, h.extentSize_eq]
  · rw [if_neg hi, List.getElem?_eq_none]
    simpa using hi

theorem Reader.Sound.length_starts (h : r.Sound) :
    r.segmentStartBytes.length = r.segments.length := by
  rw [h.laid.starts_eq, List.length_map, List.length_range]

theorem Reader.Sound.extentsBefore_mono (h : r.Sound) {i j : ℕ} (hij : i ≤ j)
    (hj : j < r.segments.length) :
    extentsBefore r.segments i ≤ extentsBefore r.segments j := by
  have hi : i < r.segments.length := by omega
  have hsi := h.laid.startExtent i _ (List.getElem?_eq_getElem hi)
  have hsj := h.laid.startExtent j _ (List.getElem?_eq_getElem hj)
  rw [zero_add] at hsi hsj
  rw [← hsi, ← hsj]
  obtain rfl | hlt := Nat.eq_or_lt_of_le hij
  · exact le_rfl
  · exact List.pairwise_iff_getElem.1 h.sorted i j hi hj hlt

/-- The segment of a position, as the bisection finds it: earlier segments end
before the position, and later ones begin behind this one. -/
structure Reader.Located (r : Reader) (position : ℤ) (i : ℕ) (s : LinearSegment) : Prop where
  bisect : bisectRight r.segmentStartBytes position = i + 1
  segment : r.segments[i]? = some s
  covers : s.Covers r.extentSize position
  before : ∀ j < i, r.bound (j + 1) ≤ position
  behind : ∀ j, i < j → j < r.segments.length → r.bound (i + 1) ≤ r.bound j

variable {position : ℤ}

theorem Reader.Sound.located (h : r.Sound) (h0 : 0 ≤ position)
    (hsize : position < r.sizeBytes) : ∃ i s, r.Located position i s := by
  have hzero : r.bound 0 = 0 := by simp [Reader.bound, extentsBefore]
  -- the point at which the first bytes exceed the position
  have hsplit : ∃ p ≤ r.segments.length, (∀ i < p, r.bound i ≤ position) ∧
      (∀ i, p ≤ i → i < r.segments.length → position < r.bound i) ∧
      ∀ i j, i < j → p ≤ j → j < r.segments.length → r.bound i ≤ r.bound j := by
    obtain hE | hE := le_or_gt 0 r.extentSize
    · have hmono : ∀ i j, i ≤ j → j < r.segments.length → r.bound i ≤ r.bound j :=
        fun i j hij hj => mul_le_mul_of_nonneg_right (h.extentsBefore_mono hij hj) hE
      obtain ⟨p, hp, hbefore, hbehind⟩ := exists_split hmono position
      exact ⟨p, hp, hbefore, hbehind, fun i j hij _ hj => hmono i j hij.le hj⟩
    · -- with a negative extent size no segment begins behind byte zero
      refine ⟨r.segments.length, le_rfl, fun i hi => ?_, fun i hi hi' => absurd hi' (by omega),
        fun i j _ hj hj' => absurd hj' (by omega)⟩
      have hnonneg : 0 ≤ extentsBefore r.segments i := by
        simpa [extentsBefore] using h.extentsBefore_mono (Nat.zero_le i) hi
      exact (mul_nonpos_of_nonneg_of_nonpos hnonneg hE.le).trans h0
  obtain ⟨p, hp, hbefore, hbehind, hmono⟩ := hsplit
  have hpos : 0 < p := by
    by_contra hp0
    obtain rfl : p = 0 := by omega
    obtain hn | hn := Nat.eq_zero_or_pos r.segments.length
    · rw [h.size_eq, hn, hzero] at hsize
      omega
    · have := hbehind 0 le_rfl hn
      omega
  obtain ⟨i, rfl⟩ : ∃ i, p = i + 1 := ⟨p - 1, by omega⟩
  have hi : i < r.segments.length := by omega
  have hseg := List.getElem?_eq_getElem hi
  refine ⟨i, r.segments[i], ?_, hseg, ⟨?_, ?_⟩, fun j hj => hbefore (j + 1) (by omega),
    fun j hj hj' => ?_⟩
  · apply bisectRight_eq
    refine ⟨by rw [h.length_starts]; exact hp, fun j y hj hy => ?_, fun j y hj hy => ?_⟩
    · rw [h.starts_getElem?, if_pos (by omega)] at hy
      cases hy
      exact hbefore j hj
    · rw [h.starts_getElem?] at hy
      split at hy
      · cases hy
        exact hbehind j hj ‹_›
      · cases hy
  · rw [h.startByte hseg]
    exact hbefore i (by omega)
  · rw [h.endByte hseg]
    obtain hlast | hlast := Nat.eq_or_lt_of_le hp
    · rw [hlast, ← h.size_eq]
      exact hsize
    · exact hbehind (i + 1) le_rfl hlast
  · obtain rfl | hlt := Nat.eq_or_lt_of_le (Nat.succ_le_of_lt hj)
    · exact le_rfl
    · exact hmono (i + 1) j hlt (by omega) hj'

/-- Segments in front end before the position. -/
theorem Reader.Located.front {i : ℕ} (hl : r.Located position i s) (h : r.Sound) :
    ∀ t ∈ r.segments.take i, t.endByte r.extentSize ≤ position := by
  intro t ht
  have hi : i < r.segments.length := (List.getElem?_eq_some_iff.1 hl.segment).1
  obtain ⟨j, hj, rfl⟩ := List.mem_iff_getElem.1 ht
  have hji : j < i := by
    rw [List.length_take] at hj
    omega
  have hget : r.segments[j]? = some (r.segments.take i)[j] := by
    rw [List.getElem_take]
    exact List.getElem?_eq_getElem (by omega)
  rw [h.endByte hget]
  exact hl.before j hji

/-- Segments behind begin where this one ends, or later. -/
theorem Reader.Located.back {i : ℕ} (hl : r.Located position i s) (h : r.Sound) :
    ∀ t ∈ r.segments.drop (i + 1), s.endByte r.extentSize ≤ t.startByte r.extentSize := by
  intro t ht
  obtain ⟨j, hj, rfl⟩ := List.mem_iff_getElem.1 ht
  rw [List.length_drop] at hj
  have hget : r.segments[i + 1 + j]? = some (r.segments.drop (i + 1))[j] := by
    rw [List.getElem_drop]
    exact List.getElem?_eq_getElem (by omega)
  rw [h.startByte hget, h.endByte hl.segment]
  exact hl.behind (i + 1 + j) (by omega) (by omega)

theorem Reader.Located.split {i : ℕ} (hl : r.Located position i s) :
    r.segments = r.segments.take i ++ s :: r.segments.drop (i + 1) := by
  have hget := (List.getElem?_eq_some_iff.1 hl.segment).2
  rw [← hget, List.getElem_cons_drop, List.take_append_drop]

/-- No other segment covers the position. -/
theorem Reader.Located.filter_covers {i : ℕ} (hl : r.Located position i s) (h : r.Sound) :
    (r.segments.filter fun t => t.Covers r.extentSize position) = [s] := by
  have hfront : ((r.segments.take i).filter fun t => t.Covers r.extentSize position) = [] := by
    rw [List.filter_eq_nil_iff]
    intro t ht hc
    have hend := hl.front h t ht
    have hcovers : t.Covers r.extentSize position := of_decide_eq_true hc
    exact absurd hcovers.2 (not_lt.2 hend)
  have hback : ((r.segments.drop (i + 1)).filter fun t => t.Covers r.extentSize position) = [] := by
    rw [List.filter_eq_nil_iff]
    intro t ht hc
    have hstart := hl.back h t ht
    have hcovers : t.Covers r.extentSize position := of_decide_eq_true hc
    exact absurd (hstart.trans hcovers.1) (not_le.2 hl.covers.2)
  rw [hl.split, List.filter_append, List.filter_cons_of_pos (by simpa using hl.covers), hfront,
    hback]
  rfl

/-! ### Pieces of a request -/

/-- A part of a request inside one segment. -/
structure Piece where
  physicalOffset : ℤ
  size : ℤ
  position : ℤ

/-- The part of a request that falls into a segment. -/
def Reader.pieceOf (r : Reader) (offset stop : ℤ) (s : LinearSegment) : List Piece :=
  let first := max offset (s.startByte r.extentSize)
  let last := min stop (s.endByte r.extentSize)
  match r.volumeGroup.physicalVolumeNamed s.physicalVolumeName with
  | some pv =>
    if first < last then [⟨s.physicalOffset r.extentSize pv first, last - first, first⟩] else []
  | none => []

/-- The request from `offset` to `stop`, segment by segment. -/
def Reader.pieces (r : Reader) (offset stop : ℤ) : List Piece :=
  r.segments.flatMap (r.pieceOf offset stop)

variable {offset stop : ℤ}

theorem pieceOf_eq_nil
    (h : min stop (s.endByte r.extentSize) ≤ max offset (s.startByte r.extentSize)) :
    r.pieceOf offset stop s = [] := by
  rw [Reader.pieceOf]
  split
  · rw [if_neg (not_lt.2 h)]
  · rfl

/-- The first piece of a request ends with the segment it begins in. -/
theorem Reader.Sound.pieces_cons (h : r.Sound) {i : ℕ}
    (hl : r.Located offset i s) {pv : PhysicalVolume}
    (hpv : r.volumeGroup.physicalVolumeNamed s.physicalVolumeName = some pv)
    (hstop : offset < stop) :
    r.pieces offset stop =
      ⟨s.physicalOffset r.extentSize pv offset, min stop (s.endByte r.extentSize) - offset,
        offset⟩ :: r.pieces (min stop (s.endByte r.extentSize)) stop := by
  obtain ⟨hstart, hend⟩ := hl.covers
  have hnil : ∀ offset', offset ≤ offset' →
      (r.segments.take i).flatMap (r.pieceOf offset' stop) = [] := by
    intro offset' hle
    rw [List.flatMap_eq_nil_iff]
    intro t ht
    have hend := hl.front h t ht
    exact pieceOf_eq_nil (by omega)
  have hthis : r.pieceOf offset stop s =
      [⟨s.physicalOffset r.extentSize pv offset, min stop (s.endByte r.extentSize) - offset,
        offset⟩] := by
    rw [Reader.pieceOf, hpv]
    simp only [max_eq_left hstart]
    rw [if_pos (lt_min hstop hend)]
  have hdone : r.pieceOf (min stop (s.endByte r.extentSize)) stop s = [] :=
    pieceOf_eq_nil (by omega)
  have hrest : (r.segments.drop (i + 1)).flatMap (r.pieceOf offset stop) =
      (r.segments.drop (i + 1)).flatMap
        (r.pieceOf (min stop (s.endByte r.extentSize)) stop) := by
    apply List.flatMap_congr
    intro t ht
    have hb := hl.back h t ht
    have hmax : max (min stop (s.endByte r.extentSize)) (t.startByte r.extentSize) =
        max offset (t.startByte r.extentSize) := by omega
    rw [Reader.pieceOf, Reader.pieceOf, hmax]
  rw [Reader.pieces, Reader.pieces, hl.split, List.flatMap_append, List.flatMap_append,
    List.flatMap_cons, List.flatMap_cons]
  rw [hnil offset le_rfl, hnil _ (by omega), hthis, hdone, hrest]
  rfl

theorem pieces_eq_nil (h : stop ≤ offset) : r.pieces offset stop = [] := by
  rw [Reader.pieces, List.flatMap_eq_nil_iff]
  intro s _
  exact pieceOf_eq_nil (by omega)

/-! ### The walk reads the pieces -/

section

variable {ε : Type} (readPhysical : ℤ → ℤ → Except ε Bytes)

/-- Reads pieces one after the other. -/
def readPieces : List Piece → Except (ReadError ε) Bytes
  | [] => .ok []
  | q :: qs => do
      let chunk ← readChunk readPhysical q.physicalOffset q.size q.position
      let rest ← readPieces qs
      pure (chunk ++ rest)

theorem pyIndex_natCast {α : Type} (xs : List α) (i : ℕ) :
    pyIndex xs ((i + 1 : ℕ) - 1 : ℤ) = xs[i]? := by
  have hi : ((i + 1 : ℕ) - 1 : ℤ) = (i : ℤ) := by omega
  rw [pyIndex, hi, if_pos (Int.natCast_nonneg i), Int.toNat_natCast]

variable {readPhysical}

theorem Reader.Sound.readFrom_eq (h : r.Sound) {stop : ℤ} (hsize : stop ≤ r.sizeBytes) {n : ℕ}
    {position : ℤ} (h0 : 0 ≤ position) (hn : (stop - position).toNat ≤ n) :
    r.readFrom readPhysical stop n position = readPieces readPhysical (r.pieces position stop) := by
  induction n generalizing position with
  | zero =>
    rw [Reader.readFrom, if_neg (by omega), pieces_eq_nil (by omega)]
    rfl
  | succ n ih =>
    rw [Reader.readFrom]
    by_cases hlt : position < stop
    · obtain ⟨i, s, hl⟩ := h.located h0 (lt_of_lt_of_le hlt hsize)
      have hmem : s ∈ r.segments := List.mem_of_getElem? hl.segment
      obtain ⟨pv, hpv⟩ := h.laid.resolved s hmem
      have hi : i < r.segments.length := (List.getElem?_eq_some_iff.1 hl.segment).1
      have hstart := h.startByte hl.segment
      have hend : r.bound i + s.extentCount * r.extentSize = s.endByte r.extentSize := by
        rw [LinearSegment.endByte, hstart]
      have hprogress : position < min stop (s.endByte r.extentSize) :=
        lt_min hlt hl.covers.2
      rw [if_pos hlt, h.pieces_cons hl hpv hlt, readPieces]
      simp only [hl.bisect, pyIndex_natCast, hl.segment, h.starts_getElem?, if_pos hi, hpv, hend]
      rw [ih (by omega) (by omega), LinearSegment.physicalOffset, hstart]
    · rw [if_neg hlt, pieces_eq_nil (by omega)]
      rfl

/-- The requests `read` takes up. -/
def Reader.Accepts (r : Reader) (offset size : ℤ) : Prop :=
  0 ≤ offset ∧ 0 ≤ size ∧ offset + size ≤ r.sizeBytes

/-- The walk reads the pieces of the request. -/
theorem Reader.Sound.read_eq (h : r.Sound) {offset size : ℤ} (ha : r.Accepts offset size) :
    r.read readPhysical offset size =
      readPieces readPhysical (r.pieces offset (offset + size)) := by
  obtain ⟨hoffset, hsize, hend⟩ := ha
  rw [Reader.read, if_neg (not_lt.2 hoffset), if_neg (not_lt.2 hsize), if_neg (not_lt.2 hend)]
  by_cases hzero : size = 0
  · rw [if_pos hzero, pieces_eq_nil (by omega)]
    rfl
  · rw [if_neg hzero, h.readFrom_eq hend hoffset (by omega)]

end

/-! ### Bytes -/

/-- A physical volume behind a reader: whatever it returns are the bytes at the
place asked for, be it fewer of them than asked for. -/
structure PhysicalSource (ε : Type) where
  read : ℤ → ℤ → Except ε Bytes
  byteAt : ℤ → UInt8
  read_byteAt : ∀ {offset size : ℤ} {bytes : Bytes}, read offset size = .ok bytes →
    ∀ (k : ℕ) (b : UInt8), bytes[k]? = some b → b = byteAt (offset + k)

/-- The byte of a logical volume at a position: that of the only segment that
covers the position, at its place on the physical volume the segment names. -/
def LogicalVolume.ByteAt (lv : LogicalVolume) (vg : VolumeGroup) (byteAt : ℤ → UInt8)
    (position : ℤ) (b : UInt8) : Prop :=
  ∃ s pv, (lv.segments.filter fun t => t.Covers vg.extentSizeBytes position) = [s] ∧
    vg.physicalVolumeNamed s.physicalVolumeName = some pv ∧
    b = byteAt (s.physicalOffset vg.extentSizeBytes pv position)

theorem LogicalVolume.ByteAt.unique {lv : LogicalVolume} {vg : VolumeGroup} {byteAt : ℤ → UInt8}
    {b b' : UInt8} (h : lv.ByteAt vg byteAt position b)
    (h' : lv.ByteAt vg byteAt position b') : b = b' := by
  obtain ⟨s, pv, hs, hpv, rfl⟩ := h
  obtain ⟨s', pv', hs', hpv', rfl⟩ := h'
  obtain rfl : s = s' := by
    rw [hs] at hs'
    exact List.singleton_injective hs'
  rw [hpv] at hpv'
  rw [Option.some.inj hpv']

/-- A piece is answered in full. -/
def PhysicalSource.Answers {ε : Type} (source : PhysicalSource ε) (q : Piece) : Prop :=
  ∃ chunk, source.read q.physicalOffset q.size = .ok chunk ∧ (chunk.length : ℤ) = q.size

section

variable {ε : Type} {source : PhysicalSource ε}

theorem readChunk_eq_ok {physicalOffset size position : ℤ} {chunk : Bytes} :
    readChunk source.read physicalOffset size position = .ok chunk ↔
      source.read physicalOffset size = .ok chunk ∧ (chunk.length : ℤ) = size := by
  rw [readChunk]
  cases source.read physicalOffset size with
  | error e => simp
  | ok c =>
    by_cases hlen : (c.length : ℤ) = size
    · simp only [hlen, ne_eq, not_true_eq_false, if_false, Except.ok.injEq]
      constructor
      · rintro rfl
        exact ⟨rfl, hlen⟩
      · exact fun h => h.1
    · simp only [ne_eq, hlen, not_false_eq_true, if_true, Except.ok.injEq]
      constructor
      · intro h
        cases h
      · rintro ⟨rfl, h⟩
        exact absurd h hlen

/-- Answered in full, the pieces give bytes. -/
theorem readPieces_ok {qs : List Piece} (h : ∀ q ∈ qs, source.Answers q) :
    ∃ bytes, readPieces source.read qs = .ok bytes := by
  induction qs with
  | nil => exact ⟨[], rfl⟩
  | cons q qs ih =>
    obtain ⟨chunk, hread, hlen⟩ := h q (by simp)
    obtain ⟨bytes, hbytes⟩ := ih fun q' hq' => h q' (by simp [hq'])
    have hchunk : readChunk source.read q.physicalOffset q.size q.position = .ok chunk :=
      readChunk_eq_ok.2 ⟨hread, hlen⟩
    exact ⟨chunk ++ bytes, by rw [readPieces, hchunk, hbytes]; rfl⟩

variable {before after : List Piece}

/-- The first piece that is not read ends the read. -/
theorem readPieces_error {q : Piece} {e : ReadError ε} (h : ∀ q' ∈ before, source.Answers q')
    (hread : readChunk source.read q.physicalOffset q.size q.position = .error e) :
    readPieces source.read (before ++ q :: after) = .error e := by
  induction before with
  | nil =>
    rw [List.nil_append, readPieces, hread]
    rfl
  | cons p before ih =>
    obtain ⟨chunk', hread', hlen'⟩ := h p (by simp)
    have hchunk : readChunk source.read p.physicalOffset p.size p.position = .ok chunk' :=
      readChunk_eq_ok.2 ⟨hread', hlen'⟩
    rw [List.cons_append, readPieces, hchunk, ih fun q' hq' => h q' (by simp [hq'])]
    rfl

/-- It has fewer bytes than asked for, -/
theorem readPieces_short {q : Piece} {chunk : Bytes} (h : ∀ q' ∈ before, source.Answers q')
    (hread : source.read q.physicalOffset q.size = .ok chunk)
    (hshort : (chunk.length : ℤ) ≠ q.size) :
    readPieces source.read (before ++ q :: after) =
      .error (.underlyingRead chunk.length q.size q.physicalOffset q.position) := by
  refine readPieces_error h ?_
  rw [readChunk, hread]
  exact if_pos hshort

/-- or the physical reader raises. -/
theorem readPieces_raises {q : Piece} {e : ε} (h : ∀ q' ∈ before, source.Answers q')
    (hread : source.read q.physicalOffset q.size = .error e) :
    readPieces source.read (before ++ q :: after) = .error (.physical e) := by
  refine readPieces_error h ?_
  rw [readChunk, hread]

/-- What the pieces of a range give, byte by byte. -/
theorem Reader.Sound.readPieces_bytes (h : r.Sound) {stop : ℤ} (hsize : stop ≤ r.sizeBytes) {n : ℕ}
    {position : ℤ} (h0 : 0 ≤ position) (hle : position ≤ stop)
    (hn : (stop - position).toNat ≤ n) {bytes : Bytes}
    (hread : readPieces source.read (r.pieces position stop) = .ok bytes) :
    (bytes.length : ℤ) = stop - position ∧ ∀ (k : ℕ) (b : UInt8), bytes[k]? = some b →
        ∃ s pv, (r.segments.filter fun t => t.Covers r.extentSize (position + k)) = [s] ∧
          r.volumeGroup.physicalVolumeNamed s.physicalVolumeName = some pv ∧
          b = source.byteAt (s.physicalOffset r.extentSize pv (position + k)) := by
  induction n generalizing position bytes with
  | zero =>
    rw [pieces_eq_nil (by omega)] at hread
    cases hread
    exact ⟨by simp; omega, by simp⟩
  | succ n ih =>
    by_cases hlt : position < stop
    · obtain ⟨i, s, hl⟩ := h.located h0 (lt_of_lt_of_le hlt hsize)
      obtain ⟨pv, hpv⟩ := h.laid.resolved s (List.mem_of_getElem? hl.segment)
      have hprogress : position < min stop (s.endByte r.extentSize) :=
        lt_min hlt hl.covers.2
      rw [h.pieces_cons hl hpv hlt, readPieces] at hread
      obtain ⟨chunk, hchunk, hread⟩ := bind_eq_ok.1 hread
      obtain ⟨rest, hrest, hread⟩ := bind_eq_ok.1 hread
      cases hread
      obtain ⟨hsource, hlen⟩ : source.read (s.physicalOffset r.extentSize pv position)
            (min stop (s.endByte r.extentSize) - position) = .ok chunk ∧
          (chunk.length : ℤ) = min stop (s.endByte r.extentSize) - position :=
        readChunk_eq_ok.1 hchunk
      obtain ⟨hlen', hbytes⟩ := ih (by omega) (by omega) (by omega) hrest
      refine ⟨?_, fun k b hk => ?_⟩
      · rw [List.length_append]
        push_cast
        omega
      · by_cases hin : k < chunk.length
        · -- inside the first piece: the same segment covers the byte
          rw [List.getElem?_append_left hin] at hk
          have hin' : (k : ℤ) < min stop (s.endByte r.extentSize) - position := by
            rw [← hlen]
            exact_mod_cast hin
          obtain ⟨j, t, hl'⟩ := h.located (show 0 ≤ position + (k : ℤ) by omega)
            (show position + (k : ℤ) < r.sizeBytes by omega)
          have hcovers : s.Covers r.extentSize (position + k) := by
            obtain ⟨hs, he⟩ := hl.covers
            exact ⟨by omega, by omega⟩
          obtain rfl : s = t := by
            have hmem : s ∈ r.segments.filter fun t => t.Covers r.extentSize (position + k) :=
              List.mem_filter.2 ⟨List.mem_of_getElem? hl.segment, by simpa using hcovers⟩
            rw [hl'.filter_covers h] at hmem
            exact List.mem_singleton.1 hmem
          refine ⟨s, pv, hl'.filter_covers h, hpv, ?_⟩
          rw [source.read_byteAt hsource k b hk, LinearSegment.physicalOffset,
            LinearSegment.physicalOffset]
          congr 1
          omega
        · rw [List.getElem?_append_right (by omega)] at hk
          obtain ⟨s', pv', hs', hpv', hb⟩ := hbytes _ b hk
          have hpos : min stop (s.endByte r.extentSize) + (k - chunk.length : ℕ) =
              position + k := by
            push_cast [Nat.cast_sub (not_lt.1 hin)]
            omega
          rw [hpos] at hs' hb
          exact ⟨s', pv', hs', hpv', hb⟩
    · rw [pieces_eq_nil (by omega)] at hread
      cases hread
      exact ⟨by simp; omega, by simp⟩

/-- What a read that returns has read. -/
theorem read_bytes {lv : LogicalVolume} {vg : VolumeGroup} (hinit : Reader.init lv vg = .ok r)
    {offset size : ℤ} (ha : r.Accepts offset size) {bytes : Bytes}
    (hread : r.read source.read offset size = .ok bytes) :
    (bytes.length : ℤ) = size ∧ ∀ (k : ℕ) (b : UInt8), bytes[k]? = some b →
        lv.ByteAt vg source.byteAt (offset + k) b := by
  obtain ⟨hsound, rfl, hsegments⟩ := sound_of_init hinit
  obtain ⟨hoffset, hsize, hend⟩ := ha
  rw [hsound.read_eq ⟨hoffset, hsize, hend⟩] at hread
  obtain ⟨hlen, hbytes⟩ := hsound.readPieces_bytes hend hoffset (by omega) le_rfl hread
  refine ⟨by omega, fun k b hk => ?_⟩
  obtain ⟨s, pv, hs, hpv, hb⟩ := hbytes k b hk
  rw [hsound.extentSize_eq] at hs hb
  refine ⟨s, pv, ?_, hpv, hb⟩
  have hperm : r.segments.Perm lv.segments := by
    rw [hsegments]
    exact List.mergeSort_perm _ _
  have hfilter := hperm.filter fun t =>
    t.Covers r.volumeGroup.extentSizeBytes (offset + k)
  rw [hs] at hfilter
  exact List.perm_singleton.1 hfilter.symm

/-- Two reads in a row give what one read of both gives. -/
theorem read_append {lv : LogicalVolume} {vg : VolumeGroup} (hinit : Reader.init lv vg = .ok r)
    {offset a b : ℤ} (ha : 0 ≤ a) (hb : 0 ≤ b) (haccepts : r.Accepts offset (a + b))
    {x y z : Bytes} (hx : r.read source.read offset a = .ok x)
    (hy : r.read source.read (offset + a) b = .ok y)
    (hz : r.read source.read offset (a + b) = .ok z) : x ++ y = z := by
  obtain ⟨hoffset, hsize, hend⟩ := haccepts
  obtain ⟨hxlen, hxbytes⟩ := read_bytes hinit ⟨hoffset, ha, by omega⟩ hx
  obtain ⟨hylen, hybytes⟩ := read_bytes hinit ⟨by omega, hb, by omega⟩ hy
  obtain ⟨hzlen, hzbytes⟩ := read_bytes hinit ⟨hoffset, hsize, hend⟩ hz
  have hlen : (x ++ y).length = z.length := by
    rw [List.length_append]
    omega
  apply List.ext_getElem hlen
  intro k hk hk'
  have hzk := hzbytes k z[k] (List.getElem?_eq_getElem hk')
  refine LogicalVolume.ByteAt.unique ?_ hzk
  by_cases hin : k < x.length
  · rw [List.getElem_append_left hin]
    exact hxbytes k x[k] (List.getElem?_eq_getElem hin)
  · rw [List.getElem_append_right (by omega)]
    have hkey : k - x.length < y.length := by
      rw [List.length_append] at hk
      omega
    have hyk := hybytes (k - x.length) y[k - x.length] (List.getElem?_eq_getElem hkey)
    have hpos : offset + a + (k - x.length : ℕ) = offset + k := by omega
    rwa [hpos] at hyk

/-- A read that the reader accepts gives the bytes of the extent map, if every
piece of it is answered in full; the first piece that is not ends it with an
error.  It always comes to one of these ends. -/
theorem read_matches_extent_map {lv : LogicalVolume} {vg : VolumeGroup}
    (hinit : Reader.init lv vg = .ok r) {offset size : ℤ} (ha : r.Accepts offset size)
    (source : PhysicalSource ε) :
    (∀ bytes, r.read source.read offset size = .ok bytes → (bytes.length : ℤ) = size ∧
      ∀ (k : ℕ) (b : UInt8), bytes[k]? = some b → lv.ByteAt vg source.byteAt (offset + k) b) ∧
    ((∀ q ∈ r.pieces offset (offset + size), source.Answers q) →
      ∃ bytes, r.read source.read offset size = .ok bytes) ∧
    (∀ before q after, r.pieces offset (offset + size) = before ++ q :: after →
      (∀ q' ∈ before, source.Answers q') →
      (∀ chunk, source.read q.physicalOffset q.size = .ok chunk →
        (chunk.length : ℤ) ≠ q.size → r.read source.read offset size =
          .error (.underlyingRead chunk.length q.size q.physicalOffset q.position)) ∧
      ∀ e, source.read q.physicalOffset q.size = .error e →
        r.read source.read offset size = .error (.physical e)) ∧
    ∀ a b x y z, 0 ≤ a → 0 ≤ b → a + b = size → r.read source.read offset a = .ok x →
      r.read source.read (offset + a) b = .ok y → r.read source.read offset size = .ok z →
      x ++ y = z := by
  obtain ⟨hsound, -, -⟩ := sound_of_init hinit
  refine ⟨fun bytes hread => read_bytes hinit ha hread, fun hall => ?_, ?_, ?_⟩
  · rw [hsound.read_eq ha]
    exact readPieces_ok hall
  · intro before q after hpieces hbefore
    rw [hsound.read_eq ha, hpieces]
    exact ⟨fun chunk hread hshort => readPieces_short hbefore hread hshort,
      fun e hread => readPieces_raises hbefore hread⟩
  · rintro a b x y z ha0 hb0 rfl hx hy hz
    exact read_append hinit ha0 hb0 ha hx hy hz

end

end

/-! ### An image in memory -/

/-- A physical volume in a file: a read at the end of it is short. -/
def imageSource (data : Bytes) : PhysicalSource Unit where
  read offset size :=
    if offset < 0 then .error () else .ok ((data.drop offset.toNat).take size.toNat)
  byteAt offset := data.getD offset.toNat 0
  read_byteAt := by
    intro offset size bytes hread k b hk
    split at hread
    · cases hread
    · cases hread
      rename_i hoffset
      rw [List.getElem?_take] at hk
      split at hk
      · rw [List.getElem?_drop] at hk
        have hplace : (offset + k).toNat = offset.toNat + k := by omega
        rw [hplace, List.getD_eq_getElem?_getD, hk]
        rfl
      · cases hk

/-- Two segments, the second one first. -/
def swappedVolume : LogicalVolume :=
  ⟨"root".toList, "id".toList, [⟨1, 1, "pv0".toList, 5⟩, ⟨0, 1, "pv0".toList, 2⟩]⟩

def smallGroup : VolumeGroup :=
  ⟨"vg".toList, "id".toList, 4, [⟨"pv0".toList, "id".toList, 64, 4, 1, 15⟩], [swappedVolume],
    ⟨0, 0, 0, 0⟩⟩

def swappedReader : Reader :=
  ⟨4, smallGroup, [⟨0, 1, "pv0".toList, 2⟩, ⟨1, 1, "pv0".toList, 5⟩], [0, 4], 8⟩

theorem sortSegments_swapped : sortSegments swappedVolume.segments = swappedReader.segments := by
  simp [sortSegments, swappedVolume, swappedReader, List.mergeSort,
    List.MergeSort.Internal.splitInTwo]

/-- A read across the boundary of its segments. -/
theorem read_across_segments : Reader.init swappedVolume smallGroup = .ok swappedReader ∧
    swappedReader.Accepts 2 4 ∧
    swappedReader.read (imageSource ((List.range 64).map UInt8.ofNat)).read 2 4 =
      .ok [11, 12, 21, 22] ∧
    ∀ (k : ℕ) (b : UInt8), ([11, 12, 21, 22] : Bytes)[k]? = some b →
      swappedVolume.ByteAt smallGroup (imageSource ((List.range 64).map UInt8.ofNat)).byteAt
        (2 + k) b := by
  have hinit : Reader.init swappedVolume smallGroup = .ok swappedReader := by
    rw [Reader.init, sortSegments_swapped]
    decide +kernel
  have haccepts : swappedReader.Accepts 2 4 := ⟨by decide, by decide, by decide⟩
  have hread : swappedReader.read (imageSource ((List.range 64).map UInt8.ofNat)).read 2 4 =
      .ok [11, 12, 21, 22] := by decide +kernel
  exact ⟨hinit, haccepts, hread, ((read_matches_extent_map hinit haccepts
      (imageSource ((List.range 64).map UInt8.ofNat))).1 _ hread).2⟩

end Kairon.Lvm
