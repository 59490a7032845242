/-
Kairon/Lvm/Segments.lean

The declared number of segments of a logical volume.

`buildSegments` asks for the sections `segment1` to `segmentN` and for no others.  So a volume
with too few of them is refused, and one with too many is not: `honoured_iff` says that the
declared number is honoured exactly where a volume that is otherwise in order has no further
segment section.
-/
import Kairon.Lvm.Metadata

namespace Kairon.Lvm

open Search (Text intStr intStr_injective)
open Settle

/-! ### Segment sections -/

/-- The key of a segment. -/
def segmentKey (i : ℕ) : Text := "segment".toList ++ intStr i

/-- `segment` and a row of digits. -/
def isSegmentKey (key : Text) : Bool :=
  "segment".toList.isPrefixOf key && key.drop 7 ≠ [] && (key.drop 7).all Char.isDigit

/-- The section under a key. -/
def sectionAt (body : Section) (key : Text) : Option Section :=
  (Dict.get body key).bind ConfigValue.body?

/-- The segment sections of a logical volume. -/
def presentSegments (body : Section) : Finset Text :=
  ((body.map Prod.fst).filter fun key => isSegmentKey key && (sectionAt body key).isSome).toFinset

/-- The segment sections its count declares. -/
def declaredSegments (count : ℤ) : Finset Text := (Finset.Icc 1 count.toNat).image segmentKey

/-- The segment of a number is built from its section. -/
def Built (lvName : Text) (body : Section) (knownPvNames : List Text) (i : ℕ)
    (segment : LinearSegment) : Prop :=
  ∃ entries, sectionAt body (segmentKey i) = some entries ∧
    buildLinearSegment lvName i entries knownPvNames = .ok segment

/-- Nothing else is wrong with the volume. -/
structure OtherwiseSound (knownPvNames : List Text) (lvName : Text) (body : Section) (count : ℤ) :
    Prop where
  id : ∃ id, Dict.get body "id".toList = some (.string id)
  segments : ∀ i ∈ List.range' 1 count.toNat, ∀ entries,
    sectionAt body (segmentKey i) = some entries →
      ∃ segment, buildLinearSegment lvName i entries knownPvNames = .ok segment
  contiguous : ∀ segments,
    List.Forall₂ (Built lvName body knownPvNames) (List.range' 1 count.toNat) segments →
      ∀ i s, (sortSegments segments)[i]? = some s →
        s.startExtent = extentsBefore (sortSegments segments) i

/-- The declared number of segments is honoured. -/
structure Honoured (py : Interpreter) (knownPvNames : List Text) (lvName : Text) (body : Section) :
    Prop where
  /-- An accepted volume has exactly the declared segment sections, and a segment for each. -/
  accepted : ∀ lv, py.buildLogicalVolume knownPvNames (lvName, .body body) = .ok lv →
    ∃ count, Dict.get body "segment_count".toList = some (.int count) ∧
      presentSegments body = declaredSegments count ∧
      ((presentSegments body).card : ℤ) = count ∧
      ∃ segments, List.Forall₂ (Built lvName body knownPvNames) (List.range' 1 count.toNat) segments ∧
        lv.segments.Perm segments
  /-- A mismatch is refused. -/
  rejected : ∀ count, Dict.get body "segment_count".toList = some (.int count) →
    OtherwiseSound knownPvNames lvName body count →
    presentSegments body ≠ declaredSegments count →
    ∃ context fault, py.buildLogicalVolume knownPvNames (lvName, .body body) =
      missingField context fault

/-! ### Keys -/

theorem segmentKey_injective : Function.Injective segmentKey := by
  intro i j h
  unfold segmentKey at h
  have hstr := List.append_cancel_left h
  exact Int.ofNat_inj.mp (intStr_injective hstr)

theorem isSegmentKey_segmentKey (i : ℕ) : isSegmentKey (segmentKey i) = true := by
  have hstr : intStr i = Nat.toDigits 10 i := by rw [intStr, if_neg (by omega), Int.natAbs_natCast]
  have hdrop : (segmentKey i).drop 7 = Nat.toDigits 10 i :=
    (List.drop_left' (by decide : "segment".toList.length = 7)).trans hstr
  have hprefix : "segment".toList.isPrefixOf (segmentKey i) = true :=
    List.isPrefixOf_iff_prefix.mpr (List.prefix_append _ _)
  have hne : Nat.toDigits 10 i ≠ [] := Nat.toDigits_ne_nil
  have hdigits : (Nat.toDigits 10 i).all Char.isDigit = true :=
    List.all_eq_true.mpr fun c hc => Nat.isDigit_of_mem_toDigits (by decide) (by decide) hc
  rw [isSegmentKey, hdrop, hprefix, hdigits, decide_eq_true hne]
  rfl

theorem mem_presentSegments {body : Section} {key : Text} :
    key ∈ presentSegments body ↔ isSegmentKey key = true ∧ (sectionAt body key).isSome := by
  rw [presentSegments, List.mem_toFinset, List.mem_filter, Bool.and_eq_true,
    and_iff_right_of_imp fun h => ?_]
  obtain ⟨entries, hentries⟩ := Option.isSome_iff_exists.mp h.2
  obtain ⟨value, hvalue, -⟩ := Option.bind_eq_some_iff.mp hentries
  obtain ⟨entry, hfind, -⟩ := Option.map_eq_some_iff.mp hvalue
  have hkey := List.find?_some hfind
  rw [decide_eq_true_iff] at hkey
  exact List.mem_map.mpr ⟨entry, List.mem_of_find?_eq_some hfind, hkey⟩

theorem card_declaredSegments (count : ℤ) : (declaredSegments count).card = count.toNat := by
  rw [declaredSegments, Finset.card_image_of_injective _ segmentKey_injective, Nat.card_Icc]
  rfl

/-- The declared sections are there. -/
theorem declared_subset_iff {body : Section} {count : ℤ} :
    declaredSegments count ⊆ presentSegments body ↔
      ∀ i ∈ List.range' 1 count.toNat, (sectionAt body (segmentKey i)).isSome := by
  have hmem : ∀ i, i ∈ List.range' 1 count.toNat ↔ i ∈ Finset.Icc 1 count.toNat := by
    intro i
    rw [List.mem_range'_1, Finset.mem_Icc]
    omega
  constructor
  · intro h i hi
    exact (mem_presentSegments.mp (h (Finset.mem_image_of_mem _ ((hmem i).mp hi)))).2
  · intro h key hkey
    obtain ⟨i, hi, rfl⟩ := Finset.mem_image.mp hkey
    exact mem_presentSegments.mpr ⟨isSegmentKey_segmentKey i, h i ((hmem i).mpr hi)⟩

/-! ### What is built -/

section

variable {py : Interpreter} {knownPvNames : List Text} {lvName : Text} {body : Section}

theorem requireInt_iff {context : Context} {key : String} {n : ℤ} :
    requireInt context body key = .ok n ↔ Dict.get body key.toList = some (.int n) := by
  unfold requireInt requireAs
  rcases Dict.get body key.toList with - | value
  · simp [missingField]
  · rcases value <;> simp [ConfigValue.int?, missingField]

theorem requireString_iff {context : Context} {key : String} {s : Text} :
    requireString context body key = .ok s ↔ Dict.get body key.toList = some (.string s) := by
  unfold requireString requireAs
  rcases Dict.get body key.toList with - | value
  · simp [missingField]
  · rcases value <;> simp [ConfigValue.string?, missingField]

variable {index count : ℕ}

theorem buildSegments_none (h : sectionAt body (segmentKey index) = none) :
    buildSegments lvName body knownPvNames index (count + 1) =
      missingField (.logicalVolume lvName) (.missingSegment index) := by
  unfold sectionAt segmentKey at h
  simp only [buildSegments, h]

theorem buildSegments_some {entries : Section}
    (h : sectionAt body (segmentKey index) = some entries) :
    buildSegments lvName body knownPvNames index (count + 1) =
      (buildLinearSegment lvName index entries knownPvNames >>= fun segment =>
        buildSegments lvName body knownPvNames (index + 1) count >>= fun segments =>
          pure (segment :: segments)) := by
  unfold sectionAt segmentKey at h
  simp only [buildSegments, h]

variable {segments : List LinearSegment}

theorem buildSegments_iff : buildSegments lvName body knownPvNames index count = .ok segments ↔
      List.Forall₂ (Built lvName body knownPvNames) (List.range' index count) segments := by
  induction count generalizing index segments with
  | zero =>
    rw [buildSegments, List.range'_zero, List.forall₂_nil_left_iff]
    exact ⟨fun h => (Except.ok.inj h).symm, fun h => h ▸ rfl⟩
  | succ count ih =>
    rw [List.range'_succ]
    cases hsection : sectionAt body (segmentKey index) with
    | none =>
      rw [buildSegments_none hsection]
      refine iff_of_false (fun h => by cases h) fun h => ?_
      cases h with
      | cons hbuilt _ =>
        obtain ⟨entries, hentries, -⟩ := hbuilt
        cases hsection.symm.trans hentries
    | some entries =>
      rw [buildSegments_some hsection]
      constructor
      · intro h
        obtain ⟨segment, hsegment, h⟩ := bind_eq_ok.1 h
        obtain ⟨rest, hrest, h⟩ := bind_eq_ok.1 h
        obtain rfl := Except.ok.inj h
        exact .cons ⟨entries, hsection, hsegment⟩ (ih.mp hrest)
      · intro h
        cases h with
        | cons hbuilt hrest =>
          obtain ⟨entries', hentries, hsegment⟩ := hbuilt
          obtain rfl := Option.some.inj (hsection.symm.trans hentries)
          exact bind_eq_ok.2 ⟨_, hsegment, bind_eq_ok.2 ⟨_, ih.mpr hrest, rfl⟩⟩

theorem checkContiguous_iff {expected : ℤ} : py.checkContiguous lvName expected segments = .ok () ↔
      ∀ i s, segments[i]? = some s → s.startExtent = expected + extentsBefore segments i := by
  refine ⟨checkContiguous_ok, fun h => ?_⟩
  induction segments generalizing expected with
  | nil => rfl
  | cons s ss ih =>
    have hstart : s.startExtent = expected := by
      have := h 0 s rfl
      simpa [extentsBefore] using this
    rw [Interpreter.checkContiguous, if_neg (not_not.mpr hstart)]
    refine ih fun i t ht => ?_
    have := h (i + 1) t ht
    rwa [extentsBefore_cons_succ, ← add_assoc] at this

theorem exists_built_of_mem {indices : List ℕ}
    (h : List.Forall₂ (Built lvName body knownPvNames) indices segments) {i : ℕ} (hi : i ∈ indices) :
    ∃ s ∈ segments, Built lvName body knownPvNames i s := by
  induction h with
  | nil => cases hi
  | @cons j s indices segments hbuilt _ ih =>
    rcases List.mem_cons.mp hi with rfl | hi
    · exact ⟨s, .head _, hbuilt⟩
    · obtain ⟨s', hs', hbuilt⟩ := ih hi
      exact ⟨s', List.mem_cons_of_mem s hs', hbuilt⟩

/-- What it takes for a volume to be accepted. -/
theorem buildLogicalVolume_iff {lv : LogicalVolume} :
    py.buildLogicalVolume knownPvNames (lvName, .body body) = .ok lv ↔ ∃ id count segments,
      Dict.get body "id".toList = some (.string id) ∧
      Dict.get body "segment_count".toList = some (.int count) ∧ 0 < count ∧
      List.Forall₂ (Built lvName body knownPvNames) (List.range' 1 count.toNat) segments ∧
      (∀ i s, (sortSegments segments)[i]? = some s →
        s.startExtent = extentsBefore (sortSegments segments) i) ∧
      lv = ⟨lvName, id, sortSegments segments⟩ := by
  unfold Interpreter.buildLogicalVolume
  constructor
  · intro h
    obtain ⟨id, hid, h⟩ := bind_eq_ok.1 h
    obtain ⟨count, hcount, h⟩ := bind_eq_ok.1 h
    split at h
    · cases h
    rename_i hpos
    obtain ⟨segments, hsegments, h⟩ := bind_eq_ok.1 h
    obtain ⟨_, hcheck, h⟩ := bind_eq_ok.1 h
    refine ⟨id, count, segments, requireString_iff.mp hid, requireInt_iff.mp hcount,
      not_le.mp hpos, buildSegments_iff.mp hsegments, fun i s hs => ?_, (Except.ok.inj h).symm⟩
    rw [checkContiguous_iff.mp hcheck i s hs, zero_add]
  · rintro ⟨id, count, segments, hid, hcount, hpos, hsegments, hcontiguous, rfl⟩
    refine bind_eq_ok.2 ⟨id, requireString_iff.mpr hid, ?_⟩
    refine bind_eq_ok.2 ⟨count, requireInt_iff.mpr hcount, ?_⟩
    rw [if_neg (not_le.mpr hpos)]
    refine bind_eq_ok.2 ⟨segments, buildSegments_iff.mpr hsegments, ?_⟩
    refine bind_eq_ok.2 ⟨(), checkContiguous_iff.mpr fun i s hs => ?_, rfl⟩
    rw [hcontiguous i s hs, zero_add]

theorem buildLogicalVolume_of_fields (py : Interpreter) (knownPvNames : List Text) (lvName : Text)
    {id : Text} {count : ℤ} (hid : Dict.get body "id".toList = some (.string id))
    (hcount : Dict.get body "segment_count".toList = some (.int count)) :
    py.buildLogicalVolume knownPvNames (lvName, .body body) =
      if count ≤ 0 then missingField (.logicalVolume lvName) (.segmentCount count) else
        buildSegments lvName body knownPvNames 1 count.toNat >>= fun segments =>
          py.checkContiguous lvName 0 (sortSegments segments) >>= fun _ =>
            pure ⟨lvName, id, sortSegments segments⟩ := by
  unfold Interpreter.buildLogicalVolume
  dsimp only [ConfigValue.body?]
  rw [requireString_iff.mpr hid]
  dsimp only [bind, Except.bind]
  rw [requireInt_iff.mpr hcount]

/-- The first section that is missing is reported, if those before it are in order. -/
theorem buildSegments_missing (hbuilt : ∀ i ∈ List.range' index count, ∀ entries,
      sectionAt body (segmentKey i) = some entries →
        ∃ segment, buildLinearSegment lvName i entries knownPvNames = .ok segment)
    (hmissing : ∃ i ∈ List.range' index count, sectionAt body (segmentKey i) = none) :
    ∃ i, buildSegments lvName body knownPvNames index count =
      missingField (.logicalVolume lvName) (.missingSegment i) := by
  induction count generalizing index with
  | zero =>
    obtain ⟨i, hi, -⟩ := hmissing
    cases hi
  | succ count ih =>
    rw [List.range'_succ] at hbuilt hmissing
    cases hsection : sectionAt body (segmentKey index) with
    | none => exact ⟨index, buildSegments_none hsection⟩
    | some entries =>
      obtain ⟨segment, hsegment⟩ := hbuilt index (.head _) entries hsection
      obtain ⟨i, hi, hnone⟩ := hmissing
      have hrest : i ∈ List.range' (index + 1) count := by
        rcases List.mem_cons.mp hi with rfl | hi
        · cases hsection.symm.trans hnone
        · exact hi
      obtain ⟨j, hj⟩ := ih (fun i hi => hbuilt i (.tail _ hi)) ⟨i, hrest, hnone⟩
      refine ⟨j, (buildSegments_some hsection).trans ?_⟩
      exact bind_eq_error.2 (.inr ⟨segment, hsegment, bind_eq_error.2 (.inl hj)⟩)

/-- Sections that are there are built, if nothing is wrong with them. -/
theorem exists_built {count : ℤ} (hsound : OtherwiseSound knownPvNames lvName body count)
    (hpresent : declaredSegments count ⊆ presentSegments body) :
    ∃ segments, List.Forall₂ (Built lvName body knownPvNames) (List.range' 1 count.toNat)
      segments := by
  have hall : ∀ i ∈ List.range' 1 count.toNat, ∃ s, Built lvName body knownPvNames i s := by
    intro i hi
    obtain ⟨entries, hentries⟩ := Option.isSome_iff_exists.mp (declared_subset_iff.mp hpresent i hi)
    obtain ⟨segment, hsegment⟩ := hsound.segments i hi entries hentries
    exact ⟨segment, entries, hentries, hsegment⟩
  generalize List.range' 1 count.toNat = indices at hall
  induction indices with
  | nil => exact ⟨[], .nil⟩
  | cons i indices ih =>
    obtain ⟨segment, hsegment⟩ := hall i (.head _)
    obtain ⟨segments, hsegments⟩ := ih fun j hj => hall j (.tail _ hj)
    exact ⟨segment :: segments, .cons hsegment hsegments⟩

/-- **The declared number is honoured exactly if a volume that is otherwise in order has no
further segment section.** -/
theorem honoured_iff (py : Interpreter) (knownPvNames : List Text) (lvName : Text) (body : Section) :
    Honoured py knownPvNames lvName body ↔
      ∀ count, Dict.get body "segment_count".toList = some (.int count) → 0 < count →
        OtherwiseSound knownPvNames lvName body count →
        declaredSegments count ⊆ presentSegments body →
        presentSegments body ⊆ declaredSegments count := by
  constructor
  · intro h count hcount hpos hsound hpresent
    obtain ⟨id, hid⟩ := hsound.id
    obtain ⟨segments, hsegments⟩ := exists_built hsound hpresent
    have haccepted : py.buildLogicalVolume knownPvNames (lvName, .body body) =
        .ok ⟨lvName, id, sortSegments segments⟩ :=
      buildLogicalVolume_iff.mpr ⟨id, count, segments, hid, hcount, hpos, hsegments,
        hsound.contiguous segments hsegments, rfl⟩
    obtain ⟨count', hcount', heq, -⟩ := h.accepted _ haccepted
    have hsame : ConfigValue.int count = .int count' := Option.some.inj (hcount.symm.trans hcount')
    obtain rfl := ConfigValue.int.inj hsame
    exact heq.subset
  · intro h
    refine ⟨fun lv haccepted => ?_, fun count hcount hsound hmismatch => ?_⟩
    · obtain ⟨id, count, segments, hid, hcount, hpos, hsegments, hcontiguous, rfl⟩ :=
        buildLogicalVolume_iff.mp haccepted
      have hpresent : declaredSegments count ⊆ presentSegments body := by
        refine declared_subset_iff.mpr fun i hi => ?_
        obtain ⟨s, -, entries, hentries, -⟩ := exists_built_of_mem hsegments hi
        exact Option.isSome_iff_exists.mpr ⟨entries, hentries⟩
      have hsound : OtherwiseSound knownPvNames lvName body count := by
        refine ⟨⟨id, hid⟩, fun i hi entries hentries => ?_, fun segments' hsegments' => ?_⟩
        · obtain ⟨s, -, entries', hentries', hs⟩ := exists_built_of_mem hsegments hi
          obtain rfl := Option.some.inj (hentries.symm.trans hentries')
          exact ⟨s, hs⟩
        · have hsame : segments' = segments := Except.ok.inj
            ((buildSegments_iff.mpr hsegments').symm.trans (buildSegments_iff.mpr hsegments))
          rw [hsame]
          exact hcontiguous
      have heq := Finset.Subset.antisymm (h count hcount hpos hsound hpresent) hpresent
      refine ⟨count, hcount, heq, ?_, segments, hsegments, List.mergeSort_perm _ _⟩
      rw [heq, card_declaredSegments]
      omega
    · obtain ⟨id, hid⟩ := hsound.id
      have hfields := buildLogicalVolume_of_fields py knownPvNames lvName hid hcount
      rcases le_or_gt count 0 with hle | hpos
      · exact ⟨_, _, hfields.trans (if_pos hle)⟩
      · -- the sections cannot all be there, so one is missing
        have hnot : ¬ declaredSegments count ⊆ presentSegments body := fun hpresent =>
          hmismatch (Finset.Subset.antisymm (h count hcount hpos hsound hpresent) hpresent)
        have hmissing : ∃ i ∈ List.range' 1 count.toNat, sectionAt body (segmentKey i) = none := by
          by_contra hall
          push Not at hall
          exact hnot (declared_subset_iff.mpr fun i hi => Option.isSome_iff_ne_none.mpr (hall i hi))
        obtain ⟨i, hi⟩ := buildSegments_missing hsound.segments hmissing
        refine ⟨.logicalVolume lvName, .missingSegment i, hfields.trans ?_⟩
        rw [if_neg (not_le.mpr hpos)]
        exact bind_eq_error.2 (.inl hi)

end

/-! ### A segment too many -/

/-- A logical volume that declares one segment and has two. -/
def extraSegment : Section :=
  [("id".toList, .string "c".toList), ("segment_count".toList, .int 1),
    ("segment1".toList, segmentBody "pv0" 3), ("segment2".toList, segmentBody "pv0" 4)]

/-- **The second segment is left out without an error.** -/
theorem extraSegment_not_honoured :
    ¬ Honoured asciiInterpreter ["pv0".toList] "root".toList extraSegment := by
  intro h
  have haccepted : asciiInterpreter.buildLogicalVolume ["pv0".toList]
      ("root".toList, .body extraSegment) = .ok rootVolume := by decide +kernel
  obtain ⟨count, hcount, heq, -⟩ := h.accepted _ haccepted
  have hone : Dict.get extraSegment "segment_count".toList = some (.int 1) := rfl
  have hsame : ConfigValue.int 1 = .int count := Option.some.inj (hone.symm.trans hcount)
  obtain rfl := ConfigValue.int.inj hsame
  exact absurd heq (by decide +kernel)

end Kairon.Lvm
