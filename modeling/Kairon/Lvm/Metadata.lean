/-
Kairon/Lvm/Metadata.lean

From the tree of the metadata text to a volume group, and the parser of a
physical volume as a whole.
-/
import Kairon.Lvm.Binary
import Kairon.Lvm.Reader
import Kairon.Search.Value

namespace Kairon.Lvm

open Search (Text intStr asciiInt)
open Settle

def missingField {α : Type} (context : Context) (fault : FieldFault) : Except Failure α :=
  .error (.metadata (.missingField context fault))

def inconsistent {α : Type} (context : Context) (fault : ConsistencyFault) : Except Failure α :=
  .error (.metadata (.inconsistent context fault))

/-! ### Fields -/

/-- `_require`: the field, read as one type. -/
def requireAs {α : Type} (read : ConfigValue → Option α) (context : Context) (entries : Section)
    (key : String) : Except Failure α :=
  match Dict.get entries key.toList with
  | none => missingField context (.missing key.toList)
  | some value =>
    match read value with
    | some a => .ok a
    | none => missingField context (.wrongType key.toList)

def ConfigValue.int? : ConfigValue → Option ℤ
  | .int n => some n
  | _ => none

def ConfigValue.string? : ConfigValue → Option Text
  | .string s => some s
  | _ => none

def ConfigValue.body? : ConfigValue → Option Section
  | .body entries => some entries
  | _ => none

/-- `_require(section, key, int)`. -/
def requireInt := requireAs ConfigValue.int?

/-- `_require(section, key, str)`. -/
def requireString := requireAs ConfigValue.string?

/-- `_require(section, key, dict)`. -/
def requireSection := requireAs ConfigValue.body?

/-! ### Volumes -/

/-- `_find_volume_group_section`. -/
def findVolumeGroupSection (document : Section) : Except Failure (Text × Section) :=
  match document.filterMap fun entry => (entry.2.body?).map (entry.1, ·) with
  | [] => missingField .text .noVolumeGroup
  | [candidate] => .ok candidate
  | candidates => malformed (.severalSections (candidates.map Prod.fst))

/-- An entry of `physical_volumes`. -/
def buildPhysicalVolume (vgName : Text) (extentSize : ℤ) (entry : Text × ConfigValue) :
    Except Failure PhysicalVolume :=
  match entry.2.body? with
  | none => malformed (.notASection entry.1)
  | some body => do
      let context := Context.physicalVolume entry.1 vgName
      let id ← requireString context body "id"
      let devSize ← requireInt context body "dev_size"
      let peStart ← requireInt context body "pe_start"
      let peCount ← requireInt context body "pe_count"
      if devSize ≤ 0 ∨ peCount ≤ 0 ∨ peStart < 0 then inconsistent context .physicalVolumeSizes
      else pure ⟨entry.1, id, devSize * 512, extentSize, peStart * 512, peCount⟩

/-- `_build_physical_volumes`. -/
def buildPhysicalVolumes (vgBody : Section) (vgName : Text) (extentSize : ℤ) :
    Except Failure (List PhysicalVolume) := do
  let volumeEntries ← requireSection (.volumeGroup vgName) vgBody "physical_volumes"
  let volumes ← volumeEntries.mapM (buildPhysicalVolume vgName extentSize)
  match volumes with
  | [] => missingField (.volumeGroup vgName) (.emptySection "physical_volumes".toList)
  | _ :: _ => pure volumes

/-- The one pair of `stripes`: a physical volume and its first extent. -/
def stripePair : ConfigValue → Option (Text × ℤ)
  | .array [.string name, .int start] => some (name, start)
  | _ => none

/-- `_build_linear_segment`. -/
def buildLinearSegment (lvName : Text) (index : ℕ) (body : Section) (knownPvNames : List Text) :
    Except Failure LinearSegment := do
  let context := Context.segment lvName index
  let startExtent ← requireInt context body "start_extent"
  let extentCount ← requireInt context body "extent_count"
  let segmentType ← requireString context body "type"
  let stripeCount ← requireInt context body "stripe_count"
  if segmentType ≠ "striped".toList then
    .error (.metadata (.unsupportedSegmentType context (.type segmentType)))
  else if stripeCount ≠ 1 then
    .error (.metadata (.unsupportedSegmentType context (.stripeCount stripeCount)))
  else
    match Dict.get body "stripes".toList with
    | none => missingField context (.missing "stripes".toList)
    | some stripes =>
      match stripePair stripes with
      | none => inconsistent context .stripes
      | some (pvName, startPe) =>
        if pvName ∉ knownPvNames then inconsistent context (.unknownPhysicalVolume pvName)
        else if extentCount ≤ 0 then inconsistent context (.extentCount extentCount)
        else if startExtent < 0 ∨ startPe < 0 then inconsistent context .negativeExtent
        else pure ⟨startExtent, extentCount, pvName, startPe⟩

/-- The segments from the first index on, as many as are left. -/
def buildSegments (lvName : Text) (lvBody : Section) (knownPvNames : List Text) :
    ℕ → ℕ → Except Failure (List LinearSegment)
  | _, 0 => .ok []
  | index, count + 1 =>
    match (Dict.get lvBody ("segment".toList ++ intStr index)).bind ConfigValue.body? with
    | none => missingField (.logicalVolume lvName) (.missingSegment index)
    | some body => do
        let segment ← buildLinearSegment lvName index body knownPvNames
        let segments ← buildSegments lvName lvBody knownPvNames (index + 1) count
        pure (segment :: segments)

section

variable (py : Interpreter)

/-- The check that the segments follow each other.  Its message prints the
extent it expects. -/
def Interpreter.checkContiguous (lvName : Text) : ℤ → List LinearSegment → Except Failure Unit
  | _, [] => .ok ()
  | expected, s :: ss =>
    if s.startExtent ≠ expected then
      if py.printable expected ∧ py.printable s.startExtent then
        inconsistent (.logicalVolume lvName) (.gap expected s.startExtent)
      else .error .valueError
    else Interpreter.checkContiguous lvName (expected + s.extentCount) ss

/-- `_build_logical_volume`. -/
def Interpreter.buildLogicalVolume (knownPvNames : List Text) (entry : Text × ConfigValue) :
    Except Failure LogicalVolume :=
  match entry.2.body? with
  | none => malformed (.notASection entry.1)
  | some body => do
      let context := Context.logicalVolume entry.1
      let id ← requireString context body "id"
      let segmentCount ← requireInt context body "segment_count"
      if segmentCount ≤ 0 then missingField context (.segmentCount segmentCount)
      else do
        let segments ← buildSegments entry.1 body knownPvNames 1 segmentCount.toNat
        let sorted := sortSegments segments
        py.checkContiguous entry.1 0 sorted
        pure ⟨entry.1, id, sorted⟩

/-- `_build_logical_volumes`. -/
def Interpreter.buildLogicalVolumes (vgBody : Section) (vgName : Text)
    (knownPvNames : List Text) : Except Failure (List LogicalVolume) := do
  let volumeEntries ← requireSection (.volumeGroup vgName) vgBody "logical_volumes"
  let volumes ← volumeEntries.mapM (py.buildLogicalVolume knownPvNames)
  match volumes with
  | [] => missingField (.volumeGroup vgName) (.emptySection "logical_volumes".toList)
  | _ :: _ => pure volumes

/-- `build_volume_group`. -/
def Interpreter.buildVolumeGroup (document : Section) (area : MetadataArea) :
    Except Failure VolumeGroup := do
  let (vgName, vgBody) ← findVolumeGroupSection document
  let id ← requireString (.volumeGroup vgName) vgBody "id"
  let extentSize ← requireInt (.volumeGroup vgName) vgBody "extent_size"
  if extentSize ≤ 0 then inconsistent (.volumeGroup vgName) (.extentSize extentSize)
  else do
    let physicalVolumes ← buildPhysicalVolumes vgBody vgName (extentSize * 512)
    let logicalVolumes ← py.buildLogicalVolumes vgBody vgName
      (physicalVolumes.map PhysicalVolume.name)
    pure ⟨vgName, id, extentSize * 512, physicalVolumes, logicalVolumes, area⟩

/-! ### The physical volume -/

/-- The low bits of a continuation byte. -/
def continuation (b : UInt8) : Option ℕ :=
  if 0x80 ≤ b.toNat ∧ b.toNat ≤ 0xBF then some (b.toNat - 0x80) else none

/-- The character of a sequence of two bytes. -/
def utf8Two (b₀ b₁ : UInt8) : Option Char := do
  let low ← continuation b₁
  if 0xC2 ≤ b₀.toNat ∧ b₀.toNat ≤ 0xDF then
    some (Char.ofNat ((b₀.toNat - 0xC0) * 64 + low))
  else none

/-- The character of a sequence of three bytes: not one that two could hold,
and no surrogate. -/
def utf8Three (b₀ b₁ b₂ : UInt8) : Option Char := do
  let mid ← continuation b₁
  let low ← continuation b₂
  let code := (b₀.toNat - 0xE0) * 4096 + mid * 64 + low
  if 0xE0 ≤ b₀.toNat ∧ b₀.toNat ≤ 0xEF ∧ 0x800 ≤ code ∧ ¬ (0xD800 ≤ code ∧ code ≤ 0xDFFF) then
    some (Char.ofNat code)
  else none

/-- The character of a sequence of four bytes. -/
def utf8Four (b₀ b₁ b₂ b₃ : UInt8) : Option Char := do
  let high ← continuation b₁
  let mid ← continuation b₂
  let low ← continuation b₃
  let code := (b₀.toNat - 0xF0) * 262144 + high * 4096 + mid * 64 + low
  if 0xF0 ≤ b₀.toNat ∧ b₀.toNat ≤ 0xF4 ∧ 0x10000 ≤ code ∧ code ≤ 0x10FFFF then
    some (Char.ofNat code)
  else none

/-- `bytes.decode("utf-8", errors="strict")`. -/
def decodeUtf8 : Bytes → Option Text
  | [] => some []
  | b₀ :: t₀ =>
    if b₀.toNat < 0x80 then (decodeUtf8 t₀).map (Char.ofNat b₀.toNat :: ·)
    else
      match t₀ with
      | [] => none
      | b₁ :: t₁ =>
        match utf8Two b₀ b₁ with
        | some c => (decodeUtf8 t₁).map (c :: ·)
        | none =>
          match t₁ with
          | [] => none
          | b₂ :: t₂ =>
            match utf8Three b₀ b₁ b₂ with
            | some c => (decodeUtf8 t₂).map (c :: ·)
            | none =>
              match t₂ with
              | [] => none
              | b₃ :: t₃ => do
                  let c ← utf8Four b₀ b₁ b₂ b₃
                  (decodeUtf8 t₃).map (c :: ·)

/-- `text.rstrip("\x00")`. -/
def rstripNul (text : Text) : Text :=
  (text.reverse.dropWhile fun c => c.toNat = 0).reverse

/-- The first part of `parse_physical_volume_metadata`: the header of the
physical volume. -/
def readPvHeader (read : ℤ → ℤ → Bytes) : Except Failure PhysicalVolumeHeader := do
  let label ← parseLabel (read 0 2048)
  parsePvHeader (read (label.labelSector * 512 + label.pvHeaderOffset) 1024)

/-- The second part: the metadata area and the checked bytes of its text. -/
def readMetadataText (read : ℤ → ℤ → Bytes) (header : PhysicalVolumeHeader) :
    Except Failure (MetadataArea × Bytes) :=
  match header.metadataAreas with
  | [] => malformed .noMetadataAreas
  | descriptor :: _ => do
      let mda ← parseMdaHeader (read descriptor.offsetBytes 512)
      if mda.areaStartBytes ≠ descriptor.offsetBytes then
        inconsistent .text (.areaStart mda.areaStartBytes descriptor.offsetBytes)
      else if mda.areaSizeBytes ≠ descriptor.sizeBytes then
        inconsistent .text (.areaSize mda.areaSizeBytes descriptor.sizeBytes)
      else do
        let location ← selectActiveLocation mda
        let offset := mda.areaStartBytes + location.offsetBytes
        let text := read offset location.sizeBytes
        verifyMetadataTextChecksum text location.checksum
        pure (⟨descriptor.offsetBytes, mda.areaSizeBytes, offset, location.sizeBytes⟩, text)

/-- The third part: the volume group, and the entry of this physical volume. -/
def Interpreter.readVolumeGroup (uuid : Text) (area : MetadataArea) (bytes : Bytes) :
    Except Failure PhysicalVolumeMetadata :=
  match decodeUtf8 bytes with
  | none => .error .unicodeDecodeError
  | some text => do
      let document ← py.parseConfigText (rstripNul text)
      let vg ← py.buildVolumeGroup document area
      match vg.physicalVolumes.find? fun pv => pv.id = uuid with
      | none => inconsistent .text (.uuid uuid)
      | some pv => pure ⟨pv, vg⟩

/-- `parse_physical_volume_metadata`. -/
def Interpreter.parsePhysicalVolumeMetadata (read : ℤ → ℤ → Bytes) :
    Except Failure PhysicalVolumeMetadata := do
  let header ← readPvHeader read
  let (area, bytes) ← readMetadataText read header
  py.readVolumeGroup header.pvUuid area bytes

end

/-! ### What is accepted -/

/-- The segments of a volume follow each other from extent zero on, each of
them on a physical volume of the group. -/
structure LogicalVolume.WellFormed (lv : LogicalVolume) (vg : VolumeGroup) : Prop where
  nonempty : lv.segments ≠ []
  increasing : lv.segments.Pairwise fun s t => s.startExtent < t.startExtent
  begins : lv.segments.head?.map LinearSegment.startExtent = some 0
  contiguous : ∀ i s t, lv.segments[i]? = some s → lv.segments[i + 1]? = some t →
    t.startExtent = s.startExtent + s.extentCount
  positive : ∀ s ∈ lv.segments, 0 < s.extentCount
  declared : ∀ s ∈ lv.segments, ∃ pv ∈ vg.physicalVolumes, pv.name = s.physicalVolumeName

section

variable {py : Interpreter}

variable {knownPvNames : List Text}

theorem buildLinearSegment_ok {lvName : Text} {index : ℕ} {body : Section} {s : LinearSegment}
    (h : buildLinearSegment lvName index body knownPvNames = .ok s) :
    0 < s.extentCount ∧ s.physicalVolumeName ∈ knownPvNames := by
  obtain ⟨startExtent, -, h⟩ := bind_eq_ok.1 h
  obtain ⟨extentCount, -, h⟩ := bind_eq_ok.1 h
  obtain ⟨segmentType, -, h⟩ := bind_eq_ok.1 h
  obtain ⟨stripeCount, -, h⟩ := bind_eq_ok.1 h
  split at h
  · cases h
  split at h
  · cases h
  split at h
  · cases h
  split at h
  · cases h
  split at h
  · cases h
  rename_i hknown
  split at h
  · cases h
  rename_i hcount
  split at h
  · cases h
  · cases h
    exact ⟨not_le.1 hcount, not_not.1 hknown⟩

variable {segments : List LinearSegment}

theorem buildSegments_ok {lvName : Text} {lvBody : Section} {index count : ℕ}
    (h : buildSegments lvName lvBody knownPvNames index count = .ok segments) :
    segments.length = count ∧
      ∀ s ∈ segments, 0 < s.extentCount ∧ s.physicalVolumeName ∈ knownPvNames := by
  induction count generalizing index segments with
  | zero =>
    cases h
    exact ⟨rfl, by simp⟩
  | succ count ih =>
    rw [buildSegments] at h
    split at h
    · cases h
    obtain ⟨segment, hsegment, h⟩ := bind_eq_ok.1 h
    obtain ⟨rest, hrest, h⟩ := bind_eq_ok.1 h
    cases h
    obtain ⟨hlen, hall⟩ := ih hrest
    refine ⟨by simp [hlen], fun s hs => ?_⟩
    obtain rfl | hs := List.mem_cons.1 hs
    · exact buildLinearSegment_ok hsegment
    · exact hall s hs

theorem checkContiguous_ok {lvName : Text} {expected : ℤ}
    (h : py.checkContiguous lvName expected segments = .ok ()) :
    ∀ i s, segments[i]? = some s → s.startExtent = expected + extentsBefore segments i := by
  induction segments generalizing expected with
  | nil => simp
  | cons s ss ih =>
    rw [Interpreter.checkContiguous] at h
    split at h
    · split at h
      · cases h
      · cases h
    · rename_i hstart
      intro i t ht
      cases i with
      | zero =>
        obtain rfl : s = t := by simpa using ht
        simpa [extentsBefore] using hstart
      | succ i =>
        have h' := ih h i t (by simpa using ht)
        rw [extentsBefore_cons_succ, h', add_assoc]

variable {vg : VolumeGroup}

/-- Segments that pass the check map to their places. -/
theorem extentMap_ok {volume : Text} {expected : ℤ}
    (hstart : ∀ i s, segments[i]? = some s → s.startExtent = expected + extentsBefore segments i)
    (hknown : ∀ s ∈ segments, ∃ pv, vg.physicalVolumeNamed s.physicalVolumeName = some pv) :
    ∃ laid, extentMap vg volume expected segments = .ok laid := by
  induction segments generalizing expected with
  | nil => exact ⟨_, rfl⟩
  | cons s ss ih =>
    have hs : s.startExtent = expected := by
      simpa [extentsBefore] using hstart 0 s rfl
    obtain ⟨pv, hpv⟩ := hknown s (by simp)
    obtain ⟨laid, hlaid⟩ := ih
      (fun i t ht => by
        have h' := hstart (i + 1) t (by simpa using ht)
        rw [h', extentsBefore_cons_succ, add_assoc])
      fun t ht => hknown t (by simp [ht])
    refine ⟨(expected * vg.extentSizeBytes :: laid.1, laid.2), ?_⟩
    rw [extentMap, if_neg (by simpa using hs), if_neg (by simp [hpv]), hlaid]
    rfl

theorem sortSegments_of_sorted (h : segments.Pairwise fun s t => s.startExtent ≤ t.startExtent) :
    sortSegments segments = segments :=
  List.mergeSort_of_pairwise (h.imp fun hst => by simpa using hst)

/-- A dictionary of volumes has a name that one of them has. -/
theorem exists_physicalVolumeNamed {name : Text} (h : ∃ pv ∈ vg.physicalVolumes, pv.name = name) :
    ∃ pv, vg.physicalVolumeNamed name = some pv := by
  obtain ⟨pv, hmem, hname⟩ := h
  rw [← Option.isSome_iff_exists, VolumeGroup.physicalVolumeNamed, List.find?_isSome]
  exact ⟨pv, by simpa using hmem, by simpa using hname⟩

/-- Segments in their places are well formed. -/
theorem wellFormed_of_checked {lv : LogicalVolume} (hne : lv.segments ≠ [])
    (hsorted : lv.segments.Pairwise fun s t => s.startExtent ≤ t.startExtent)
    (hstart : ∀ i s, lv.segments[i]? = some s → s.startExtent = 0 + extentsBefore lv.segments i)
    (hpositive : ∀ s ∈ lv.segments, 0 < s.extentCount)
    (hdeclared : ∀ s ∈ lv.segments, ∃ pv ∈ vg.physicalVolumes, pv.name = s.physicalVolumeName) :
    lv.WellFormed vg := by
  have hcontiguous : ∀ i s t, lv.segments[i]? = some s → lv.segments[i + 1]? = some t →
      t.startExtent = s.startExtent + s.extentCount := by
    intro i s t hs ht
    rw [hstart (i + 1) t ht, hstart i s hs, extentsBefore_succ hs, add_assoc]
  refine ⟨hne, ?_, ?_, hcontiguous, hpositive, hdeclared⟩
  · -- later segments begin behind the end of the next one
    rw [List.pairwise_iff_getElem]
    intro i j hi hj hij
    have hnext : i + 1 < lv.segments.length := by omega
    have hc := hcontiguous i _ _ (List.getElem?_eq_getElem hi) (List.getElem?_eq_getElem hnext)
    have hp := hpositive _ (List.getElem_mem hi)
    have hle : lv.segments[i + 1].startExtent ≤ lv.segments[j].startExtent := by
      obtain rfl | hlt := Nat.eq_or_lt_of_le (Nat.succ_le_of_lt hij)
      · exact le_rfl
      · exact List.pairwise_iff_getElem.1 hsorted (i + 1) j hnext hj hlt
    omega
  · obtain ⟨s, ss, hcons⟩ := List.exists_cons_of_ne_nil hne
    have hs := hstart 0 s (by rw [hcons]; rfl)
    rw [hcons]
    simpa [extentsBefore] using hs

theorem buildLogicalVolume_ok {entry : Text × ConfigValue}
    {lv : LogicalVolume} (h : py.buildLogicalVolume knownPvNames entry = .ok lv) :
    lv.segments ≠ [] ∧ (lv.segments.Pairwise fun s t => s.startExtent ≤ t.startExtent) ∧
      (∀ i s, lv.segments[i]? = some s → s.startExtent = 0 + extentsBefore lv.segments i) ∧
      ∀ s ∈ lv.segments, 0 < s.extentCount ∧ s.physicalVolumeName ∈ knownPvNames := by
  rw [Interpreter.buildLogicalVolume] at h
  split at h
  · cases h
  obtain ⟨id, -, h⟩ := bind_eq_ok.1 h
  obtain ⟨segmentCount, -, h⟩ := bind_eq_ok.1 h
  split at h
  · cases h
  rename_i hcount
  obtain ⟨segments, hsegments, h⟩ := bind_eq_ok.1 h
  obtain ⟨_, hcheck, h⟩ := bind_eq_ok.1 h
  cases h
  obtain ⟨hlen, hall⟩ := buildSegments_ok hsegments
  have hperm : (sortSegments segments).Perm segments := List.mergeSort_perm _ _
  refine ⟨?_, pairwise_sortSegments segments, checkContiguous_ok hcheck,
    fun s hs => hall s (hperm.mem_iff.1 hs)⟩
  rw [← List.length_pos_iff, hperm.length_eq, hlen]
  omega

/-- A volume group that is accepted can be read: the segments of each of its
volumes are well formed, and the reader opens it. -/
theorem accepted_volumes_readable {document : Section} {area : MetadataArea} {vg : VolumeGroup}
    (h : py.buildVolumeGroup document area = .ok vg) :
    ∀ lv ∈ vg.logicalVolumes, lv.WellFormed vg ∧ ∃ r, Reader.init lv vg = .ok r := by
  obtain ⟨⟨vgName, vgBody⟩, -, h⟩ := bind_eq_ok.1 h
  obtain ⟨id, -, h⟩ := bind_eq_ok.1 h
  obtain ⟨extentSize, -, h⟩ := bind_eq_ok.1 h
  split at h
  · cases h
  obtain ⟨physicalVolumes, -, h⟩ := bind_eq_ok.1 h
  obtain ⟨logicalVolumes, hlvs, h⟩ := bind_eq_ok.1 h
  have hvg := (Except.ok.inj h).symm
  have hpvs : vg.physicalVolumes = physicalVolumes := by rw [hvg]
  have hlogical : vg.logicalVolumes = logicalVolumes := by rw [hvg]
  obtain ⟨volumeEntries, -, hlvs⟩ := bind_eq_ok.1 hlvs
  obtain ⟨volumes, hvolumes, hlvs⟩ := bind_eq_ok.1 hlvs
  obtain rfl : volumes = logicalVolumes := by
    cases volumes with
    | nil => cases hlvs
    | cons v vs => exact Except.ok.inj hlvs
  intro lv hlv
  rw [hlogical] at hlv
  obtain ⟨entry, -, hentry⟩ := mem_of_mapM_eq_ok hvolumes hlv
  obtain ⟨hne, hsorted, hstart, hall⟩ := buildLogicalVolume_ok hentry
  have hdeclared : ∀ s ∈ lv.segments,
      ∃ pv ∈ vg.physicalVolumes, pv.name = s.physicalVolumeName := by
    intro s hs
    rw [hpvs]
    exact List.mem_map.1 (hall s hs).2
  refine ⟨wellFormed_of_checked hne hsorted hstart (fun s hs => (hall s hs).1) hdeclared, ?_⟩
  obtain ⟨laid, hlaid⟩ : ∃ laid, extentMap vg lv.name 0 lv.segments = .ok laid :=
    extentMap_ok hstart fun s hs => exists_physicalVolumeNamed (hdeclared s hs)
  rw [Reader.init, sortSegments_of_sorted hsorted, hlaid]
  exact ⟨_, rfl⟩

end

/-! ### A small group -/

/-- The interpreter on ASCII text, with its default limits. -/
def asciiInterpreter : Interpreter where
  isDigit := Char.isDigit
  parseInt raw := if (raw.filter Char.isDigit).length ≤ 4300 then asciiInt raw else none
  printable n := n.natAbs < 10 ^ 4300
  nesting := 900

/-- A segment of one extent on a physical volume. -/
def segmentBody (pv : String) (start : ℤ) : ConfigValue :=
  .body
    [("start_extent".toList, .int 0), ("extent_count".toList, .int 1),
      ("type".toList, .string "striped".toList), ("stripe_count".toList, .int 1),
      ("stripes".toList, .array [.string pv.toList, .int start])]

def rootDocument : Section :=
  [("vg0".toList, .body
    [("id".toList, .string "a".toList), ("extent_size".toList, .int 1),
      ("physical_volumes".toList, .body
        [("pv0".toList, .body
          [("id".toList, .string "b".toList), ("dev_size".toList, .int 9),
            ("pe_start".toList, .int 2), ("pe_count".toList, .int 4)])]),
      ("logical_volumes".toList, .body
        [("root".toList, .body
          [("id".toList, .string "c".toList), ("segment_count".toList, .int 1),
            ("segment1".toList, segmentBody "pv0" 3)])])])]

def rootVolume : LogicalVolume :=
  ⟨"root".toList, "c".toList, [⟨0, 1, "pv0".toList, 3⟩]⟩

def rootGroup : VolumeGroup :=
  ⟨"vg0".toList, "a".toList, 512, [⟨"pv0".toList, "b".toList, 4608, 512, 1024, 4⟩], [rootVolume],
    ⟨0, 0, 0, 0⟩⟩

/-- The volume of the small group is read. -/
theorem root_volume_readable :
    asciiInterpreter.buildVolumeGroup rootDocument ⟨0, 0, 0, 0⟩ = .ok rootGroup ∧
      rootVolume ∈ rootGroup.logicalVolumes ∧ ∃ r, Reader.init rootVolume rootGroup = .ok r := by
  have hbuild : asciiInterpreter.buildVolumeGroup rootDocument ⟨0, 0, 0, 0⟩ = .ok rootGroup := by
    decide +kernel
  have hmem : rootVolume ∈ rootGroup.logicalVolumes := List.mem_singleton.2 rfl
  exact ⟨hbuild, hmem, (accepted_volumes_readable hbuild rootVolume hmem).2⟩

end Kairon.Lvm
