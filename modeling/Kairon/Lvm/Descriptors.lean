/-
Kairon/Lvm/Descriptors.lean

The two lists of places in the header of a physical volume.

An entry is a pair of 64-bit numbers, and an entry with offset zero ends its list, whatever its
size is.  The second list begins where the first one ended, so the parser hands on what is behind
the terminator: `parseDiskLocations_encode` says that this is exactly what was written behind it,
and `parsePvHeader_encode` uses it twice.  A header without metadata areas is written like any
other and refused by the parser (`parsePvHeader_encode_nil`).
-/
import Kairon.Lvm.Integrity

namespace Kairon.Lvm

open Settle

/-! ### Encoding -/

/-- A place that an entry of a list can hold. -/
structure DiskLocation.Encodable (location : DiskLocation) : Prop where
  offset_pos : 0 < location.offsetBytes
  offset_lt : location.offsetBytes < 256 ^ 8
  size_lt : location.sizeBytes < 256 ^ 8

/-- `_DISK_LOCN_STRUCT.pack`. -/
def encodeLocation (location : DiskLocation) : Bytes :=
  leBytes 8 location.offsetBytes ++ leBytes 8 location.sizeBytes

/-- The entries of a list and its terminator. -/
def encodeLocations (locations : List DiskLocation) : Bytes :=
  locations.flatMap encodeLocation ++ List.replicate 16 0

/-- The header of a physical volume. -/
def encodeHeader (uuid : Bytes) (size : ℕ) (dataAreas metadataAreas : List DiskLocation) : Bytes :=
  uuid ++ (leBytes 8 size ++ (encodeLocations dataAreas ++ encodeLocations metadataAreas))

/-! ### Numbers -/

@[simp] theorem length_leBytes (n x : ℕ) : (leBytes n x).length = n := by
  induction n generalizing x with
  | zero => rfl
  | succ n ih => rw [leBytes, List.length_cons, ih]

theorem leNat_leBytes {n x : ℕ} (h : x < 256 ^ n) : leNat (leBytes n x) = x := by
  induction n generalizing x with
  | zero =>
    rw [pow_zero, Nat.lt_one_iff] at h
    rw [h]
    rfl
  | succ n ih =>
    have hdiv : x / 256 < 256 ^ n := Nat.div_lt_of_lt_mul (by rw [mul_comm, ← pow_succ]; exact h)
    rw [leBytes, leNat, ih hdiv, UInt8.toNat_ofNat']
    omega

/-- The first bytes of what was glued together. -/
theorem slice_append_left {front rest : Bytes} {n : ℕ} (h : front.length = n) :
    slice (front ++ rest) 0 n = front := by
  rw [slice, List.drop_zero, ← h, List.take_left]

/-- The bytes behind the first ones. -/
theorem slice_append_right {front rest : Bytes} {n m : ℕ} (h : front.length = n) :
    slice (front ++ rest) n (n + m) = slice rest 0 m := by
  rw [slice, slice, ← h, List.take_length_add_append, List.drop_left, List.drop_zero]

theorem slice_drop (data : Bytes) (n start stop : ℕ) :
    slice (data.drop n) start stop = slice data (n + start) (n + stop) := by
  rw [slice, slice, List.take_drop, List.drop_drop]

section Entry

variable {location : DiskLocation} (rest : Bytes)

theorem length_encodeLocation : (encodeLocation location).length = 16 := by
  rw [encodeLocation, List.length_append, length_leBytes, length_leBytes]

theorem offset_encodeLocation (h : location.Encodable) :
    leNat (slice (encodeLocation location ++ rest) 0 8) = location.offsetBytes := by
  rw [encodeLocation, List.append_assoc, slice_append_left (length_leBytes 8 _),
    leNat_leBytes h.offset_lt]

theorem size_encodeLocation (h : location.Encodable) :
    leNat (slice (encodeLocation location ++ rest) 8 16) = location.sizeBytes := by
  rw [encodeLocation, List.append_assoc, slice_append_right (m := 8) (length_leBytes 8 _),
    slice_append_left (length_leBytes 8 _), leNat_leBytes h.size_lt]

theorem length_encodeLocations (locations : List DiskLocation) :
    (encodeLocations locations).length = 16 * (locations.length + 1) := by
  induction locations with
  | nil => rfl
  | cons location locations ih =>
    rw [encodeLocations] at ih
    rw [encodeLocations, List.flatMap_cons, List.append_assoc, List.length_append, ih,
      length_encodeLocation, List.length_cons]
    omega

end Entry

/-! ### Reading a list -/

/-- Entry `k` is whole and has offset zero. -/
def EndsAt (data : Bytes) (k : ℕ) : Prop :=
  16 * (k + 1) ≤ data.length ∧ leNat (slice data (16 * k) (16 * k + 8)) = 0

theorem endsAt_succ {data : Bytes} {k : ℕ} :
    EndsAt (data.drop 16) k ↔ 16 ≤ data.length ∧ EndsAt data (k + 1) := by
  have hplace : slice (data.drop 16) (16 * k) (16 * k + 8) =
      slice data (16 * (k + 1)) (16 * (k + 1) + 8) := by
    rw [slice_drop, show 16 + 16 * k = 16 * (k + 1) by omega,
      show 16 + (16 * k + 8) = 16 * (k + 1) + 8 by omega]
  unfold EndsAt
  rw [hplace, List.length_drop]
  constructor
  · rintro ⟨hlong, hzero⟩
    exact ⟨by omega, by omega, hzero⟩
  · rintro ⟨-, hlong, hzero⟩
    exact ⟨by omega, hzero⟩

/-- The parser finds the end of a list, or says that there is none. -/
theorem parseDiskLocations_total {n : ℕ} {data : Bytes} (hn : data.length ≤ n) :
    (∃ k, EndsAt data k) ∧ (∃ result, parseDiskLocations n data = .ok result) ∨
      (¬ ∃ k, EndsAt data k) ∧ parseDiskLocations n data = invalidLabel .noTerminator := by
  induction n generalizing data with
  | zero =>
    refine .inr ⟨?_, rfl⟩
    rintro ⟨k, hlong, -⟩
    omega
  | succ n ih =>
    rw [parseDiskLocations]
    by_cases hshort : data.length < 16
    · refine .inr ⟨?_, if_pos hshort⟩
      rintro ⟨k, hlong, -⟩
      omega
    rw [if_neg hshort]
    by_cases hzero : leNat (slice data 0 8) = 0
    · exact .inl ⟨⟨0, by omega, hzero⟩, _, if_pos hzero⟩
    rw [if_neg hzero]
    -- the end of the list is that of the entries behind the first one
    have hbehind : (∃ k, EndsAt data k) ↔ ∃ k, EndsAt (data.drop 16) k := by
      constructor
      · rintro ⟨k, hk⟩
        rcases k with - | k
        · exact absurd hk.2 hzero
        · exact ⟨k, endsAt_succ.2 ⟨by omega, hk⟩⟩
      · rintro ⟨k, hk⟩
        exact ⟨k + 1, (endsAt_succ.1 hk).2⟩
    rw [hbehind]
    obtain ⟨hend, ⟨locations, rest⟩, hparse⟩ | ⟨hend, hparse⟩ :=
      @ih (data.drop 16) (by rw [List.length_drop]; omega)
    · rw [hparse]
      exact .inl ⟨hend, _, rfl⟩
    · rw [hparse]
      exact .inr ⟨hend, rfl⟩

theorem parseDiskLocations_encode {n : ℕ} {locations : List DiskLocation} (tail : Bytes)
    (h : ∀ location ∈ locations, location.Encodable) (hn : locations.length < n) :
    parseDiskLocations n (encodeLocations locations ++ tail) = .ok (locations, tail) := by
  induction locations generalizing n with
  | nil =>
    obtain ⟨n, rfl⟩ := Nat.exists_eq_succ_of_ne_zero (by omega : n ≠ 0)
    have hzero : leNat (slice (List.replicate 16 0 ++ tail) 0 8) = 0 := rfl
    show parseDiskLocations (n + 1) (List.replicate 16 0 ++ tail) = _
    rw [parseDiskLocations, if_neg (by rw [List.length_append, List.length_replicate]; omega),
      if_pos hzero]
    rfl
  | cons location locations ih =>
    obtain ⟨n, rfl⟩ := Nat.exists_eq_succ_of_ne_zero (by omega : n ≠ 0)
    obtain ⟨hfirst, hothers⟩ := List.forall_mem_cons.1 h
    have hglued : encodeLocations (location :: locations) ++ tail =
        encodeLocation location ++ (encodeLocations locations ++ tail) := by
      rw [encodeLocations, encodeLocations, List.flatMap_cons, List.append_assoc,
        List.append_assoc, List.append_assoc]
    rw [hglued]
    rw [parseDiskLocations, offset_encodeLocation _ hfirst, size_encodeLocation _ hfirst,
      if_neg (by rw [List.length_append, length_encodeLocation]; omega),
      if_neg hfirst.offset_pos.ne', ← @length_encodeLocation location, List.drop_left,
      ih hothers (by rw [List.length_cons] at hn; omega)]
    rfl

/-! ### Reading a header -/

/-- A UUID as LVM2 writes it: 32 ASCII characters. -/
structure WellFormedUuid (uuid : Bytes) : Prop where
  length_eq : uuid.length = 32
  ascii : ∀ b ∈ uuid, b < 128

theorem formatLvmUuid_ok {uuid : Bytes} (h : WellFormedUuid uuid) :
    ∃ text, formatLvmUuid uuid = .ok text := by
  have hascii : ¬ (uuid.any fun b => 128 ≤ b) = true := by
    intro hany
    obtain ⟨b, hb, hle⟩ := List.any_eq_true.1 hany
    exact absurd (h.ascii b hb) (UInt8.not_lt.2 (of_decide_eq_true hle))
  have hlength : ¬ (uuid.map fun b => Char.ofNat b.toNat).length ≠ 32 := by
    rw [List.length_map, h.length_eq]
    exact not_not_intro rfl
  unfold formatLvmUuid
  rw [if_neg hascii]
  exact ⟨_, if_neg hlength⟩

section Header

variable {uuid : Bytes} {size : ℕ} {dataAreas metadataAreas : List DiskLocation}

theorem encodeHeader_append (tail : Bytes) :
    encodeHeader uuid size dataAreas metadataAreas ++ tail = uuid ++ (leBytes 8 size ++
        (encodeLocations dataAreas ++ (encodeLocations metadataAreas ++ tail))) := by
  rw [encodeHeader]
  simp only [List.append_assoc]

theorem length_encodeHeader (huuid : uuid.length = 32) :
    (encodeHeader uuid size dataAreas metadataAreas).length =
      40 + 16 * (dataAreas.length + 1) + 16 * (metadataAreas.length + 1) := by
  rw [encodeHeader, List.length_append, List.length_append, List.length_append, huuid,
    length_leBytes, length_encodeLocations, length_encodeLocations]
  omega

/-- What the parser finds in an encoded header. -/
theorem parsePvHeader_encodeHeader (tail : Bytes) (huuid : WellFormedUuid uuid)
    (hsize : size < 256 ^ 8) (hdata : ∀ location ∈ dataAreas, location.Encodable)
    (hmetadata : ∀ location ∈ metadataAreas, location.Encodable) :
    ∃ text, formatLvmUuid uuid = .ok text ∧
      parsePvHeader (encodeHeader uuid size dataAreas metadataAreas ++ tail) =
        if metadataAreas = [] then malformed .noMetadataAreas
        else .ok ⟨text, size, dataAreas, metadataAreas⟩ := by
  obtain ⟨text, htext⟩ := formatLvmUuid_ok huuid
  refine ⟨text, htext, ?_⟩
  have hlong : ¬ (encodeHeader uuid size dataAreas metadataAreas ++ tail).length < 56 := by
    rw [List.length_append, length_encodeHeader huuid.length_eq]
    omega
  have hfirst : (encodeHeader uuid size dataAreas metadataAreas ++ tail).take 32 = uuid := by
    rw [encodeHeader_append, ← huuid.length_eq, List.take_left]
  have hnumber : leNat (slice (encodeHeader uuid size dataAreas metadataAreas ++ tail) 32 40) =
      size := by
    rw [encodeHeader_append, slice_append_right (m := 8) huuid.length_eq,
      slice_append_left (length_leBytes 8 size), leNat_leBytes hsize]
  have hlists : (encodeHeader uuid size dataAreas metadataAreas ++ tail).drop 40 =
      encodeLocations dataAreas ++ (encodeLocations metadataAreas ++ tail) := by
    have hforty : 40 = (uuid ++ leBytes 8 size).length := by
      rw [List.length_append, huuid.length_eq, length_leBytes]
    rw [encodeHeader_append, ← List.append_assoc, hforty, List.drop_left]
  have hfuel : ∀ (locations : List DiskLocation) (rest : Bytes),
      locations.length < (encodeLocations locations ++ rest).length := by
    intro locations rest
    rw [List.length_append, length_encodeLocations]
    omega
  rw [parsePvHeader, if_neg hlong, hfirst, htext, hnumber, hlists]
  show (parseDiskLocations _ (encodeLocations dataAreas ++ _) >>= _) = _
  rw [parseDiskLocations_encode _ hdata (hfuel _ _)]
  show (parseDiskLocations _ (encodeLocations metadataAreas ++ tail) >>= _) = _
  rw [parseDiskLocations_encode _ hmetadata (hfuel _ _)]
  rcases metadataAreas with - | ⟨area, areas⟩
  · rfl
  · rfl

end Header

/-- The parser gets back what was encoded, whatever is behind it. -/
def Recovered (uuid : Bytes) (size : ℕ) (dataAreas metadataAreas : List DiskLocation) : Prop :=
  ∀ tail, ∃ text, formatLvmUuid uuid = .ok text ∧
    parsePvHeader (encodeHeader uuid size dataAreas metadataAreas ++ tail) =
      .ok ⟨text, size, dataAreas, metadataAreas⟩

/-- **Lists of places come back**: a list that is written with its terminator is read as it is,
and the parser goes on right behind the terminator; it refuses exactly the bytes in which no whole
entry has offset zero.  So both lists of an encoded header come back if it has a metadata area; if
it has none, it is refused for that. -/
theorem disk_locations_round_trip : (∀ (locations : List DiskLocation) (tail : Bytes),
      (∀ location ∈ locations, location.Encodable) →
      16 * (locations.length + 1) = (encodeLocations locations).length ∧
      parseDiskLocations (encodeLocations locations ++ tail).length
          (encodeLocations locations ++ tail) =
        .ok (locations, (encodeLocations locations ++ tail).drop (16 * (locations.length + 1)))) ∧
    (∀ data : Bytes, (parseDiskLocations data.length data = invalidLabel .noTerminator ↔
        ¬ ∃ k, EndsAt data k) ∧
      ((∃ result, parseDiskLocations data.length data = .ok result) ↔ ∃ k, EndsAt data k)) ∧
    ∀ (uuid : Bytes) (size : ℕ) (dataAreas metadataAreas : List DiskLocation),
      WellFormedUuid uuid → size < 256 ^ 8 →
      (∀ location ∈ dataAreas, location.Encodable) →
      (∀ location ∈ metadataAreas, location.Encodable) →
      (metadataAreas ≠ [] → Recovered uuid size dataAreas metadataAreas) ∧
      (metadataAreas = [] → ∀ tail,
        parsePvHeader (encodeHeader uuid size dataAreas metadataAreas ++ tail) =
          malformed .noMetadataAreas) := by
  refine ⟨fun locations tail h => ?_, fun data => ?_, ?_⟩
  · refine ⟨(length_encodeLocations locations).symm, ?_⟩
    rw [← length_encodeLocations locations, List.drop_left]
    refine parseDiskLocations_encode tail h ?_
    rw [List.length_append, length_encodeLocations]
    omega
  · obtain ⟨hend, ⟨result, hparse⟩⟩ | ⟨hend, hparse⟩ := parseDiskLocations_total (le_refl data.length)
    · rw [hparse]
      exact ⟨iff_of_false (fun h => by cases h) (not_not_intro hend), iff_of_true ⟨_, rfl⟩ hend⟩
    · rw [hparse]
      refine ⟨iff_of_true rfl hend, iff_of_false ?_ hend⟩
      rintro ⟨result, h⟩
      cases h
  · intro uuid size dataAreas metadataAreas huuid hsize hdata hmetadata
    refine ⟨fun hne tail => ?_, fun hnil tail => ?_⟩
    · obtain ⟨text, htext, hparse⟩ := parsePvHeader_encodeHeader tail huuid hsize hdata hmetadata
      rw [if_neg hne] at hparse
      exact ⟨text, htext, hparse⟩
    · obtain ⟨text, -, hparse⟩ := parsePvHeader_encodeHeader tail huuid hsize hdata hmetadata
      rw [if_pos hnil] at hparse
      exact hparse

/-- The UUID of As. -/
theorem wellFormedUuid_replicate : WellFormedUuid (List.replicate 32 65) :=
  ⟨List.length_replicate, fun b hb => by rw [List.eq_of_mem_replicate hb]; decide⟩

theorem twoLists_recovered :
    Recovered (List.replicate 32 65) 4608 [⟨2048, 0⟩, ⟨4096, 512⟩] [⟨512, 1536⟩] :=
  (disk_locations_round_trip.2.2 (List.replicate 32 65) 4608 [⟨2048, 0⟩, ⟨4096, 512⟩]
    [⟨512, 1536⟩] wellFormedUuid_replicate (by decide)
    (by
      intro location h
      simp only [List.mem_cons, List.not_mem_nil, or_false] at h
      rcases h with rfl | rfl
      · exact ⟨by decide, by decide, by decide⟩
      · exact ⟨by decide, by decide, by decide⟩)
    (by
      intro location h
      rw [List.mem_singleton] at h
      subst h
      exact ⟨by decide, by decide, by decide⟩)).1 (List.cons_ne_nil _ _)

/-- A header with a data area and no metadata area is refused. -/
theorem noMetadataArea_not_recovered :
    WellFormedUuid (List.replicate 32 65) ∧ DiskLocation.Encodable ⟨2048, 0⟩ ∧
      ¬ Recovered (List.replicate 32 65) 4608 [⟨2048, 0⟩] [] := by
  have hplace : DiskLocation.Encodable ⟨2048, 0⟩ := ⟨by decide, by decide, by decide⟩
  refine ⟨wellFormedUuid_replicate, hplace, fun h => ?_⟩
  obtain ⟨text, -, hparse⟩ := h []
  obtain ⟨text', -, hrefused⟩ := @parsePvHeader_encodeHeader (List.replicate 32 65) 4608
    [⟨2048, 0⟩] [] [] wellFormedUuid_replicate (by decide)
    (fun location hmem => by rw [List.mem_singleton.1 hmem]; exact hplace)
    (fun location hmem => absurd hmem List.not_mem_nil)
  rw [hrefused] at hparse
  cases hparse

end Kairon.Lvm
