/-
Kairon/Memory/ImageEnds.lean

When reading the layout of a memory image comes to an end, with ranges that
lie in the file.

The walk over LiME headers adds up lengths that the headers state.  Where each
of them is not negative and ends in the file the position grows with every
turn (`ends_of_chainFits`).  Nothing checks this, and a header may as well
lead to itself (`stuckImage`).

`layoutRead_iff` says for each file which of the two it is: `ChainFits` is
about the headers the chain leads to, `ChainBreaks` about a header before the
beginning of the file whose fields cannot be unpacked, an exception.
-/
import Kairon.Memory.Image

namespace Kairon.Memory

open Search (Text strip)
open Lvm (Bytes)
open Turns

/-! ### What is wanted -/

/-- A range of the file. -/
def Range.Inside (size : ℕ) (r : Range) : Prop :=
  0 ≤ r.offset ∧ 0 ≤ r.length ∧ r.offset + r.length ≤ size

/-- A position in a range and its address in it. -/
def Range.Maps (r : Range) (position address : ℤ) : Prop :=
  (r.offset ≤ position ∧ position < r.offset + r.length) ∧
    (r.address ≤ address ∧ address < r.address + r.length) ∧
      address - r.address = position - r.offset

/-- The layout is read: both functions end, the ranges lie in the file, and a position has
the addresses of the ranges it is in. -/
structure LayoutRead (view : Bytes) : Prop where
  ranges_end : ∃ fuel result, imageRanges fuel view = some result
  banner_ends : ∀ bannerText bannerAddress pointerSize, ∃ fuel result,
    findBanner fuel view bannerText bannerAddress pointerSize = some result
  inside : ∀ fuel kind ranges, imageRanges fuel view = some (.ok (kind, ranges)) →
    ∀ r ∈ ranges, r.Inside view.length
  maps : ∀ fuel kind ranges, imageRanges fuel view = some (.ok (kind, ranges)) →
    ∀ position address, address ∈ addressOf ranges position → ∃ r ∈ ranges, r.Maps position address

/-! ### The headers of the chain -/

section Chain

variable (view : Bytes)

/-- A header leads to the position behind its range. -/
def Leads (offset next : ℤ) : Prop :=
  isHeader view offset = true ∧ ∃ start stop : ℕ, headerFields view offset = .ok (start, stop) ∧
    next = offset + (32 + stop - start + 1)

/-- The positions the chain leads to. -/
def OnChain : ℤ → Prop := Relation.ReflTransGen (Leads view) 0

/-- The ranges of the chain's headers do not end before they start, and end in the file. -/
def ChainFits : Prop :=
  ∀ offset (start stop : ℕ), OnChain view offset → isHeader view offset = true →
    headerFields view offset = .ok (start, stop) →
      start ≤ stop + 1 ∧ offset + (32 + stop - start + 1) ≤ view.length

/-- The chain leads to a header whose fields are not all in the file. -/
def ChainBreaks : Prop :=
  ∃ offset e, OnChain view offset ∧ isHeader view offset = true ∧
    headerFields view offset = .error e

/-- The loaded segments of the program headers end in the file. -/
def SegmentsFit : Prop :=
  ∀ segments, programHeaders view = .ok segments → ∀ segment ∈ segments, segment.kind = 1 →
    segment.offset + segment.filesz ≤ view.length

def Fits : Prop :=
  if slice view 0 4 = limeMagic then ChainFits view ∨ ChainBreaks view
  else if slice view 0 4 = elfMagic then SegmentsFit view
  else True

variable {view} {offset next : ℤ} {ranges more : List Range}

theorem headerTurn_of_error {e : ImageError} (hheader : isHeader view offset = true)
    (hfields : headerFields view offset = .error e) :
    headerTurn view (ranges, offset) = .inr (.error e) := by
  rw [headerTurn, if_pos hheader, hfields]

theorem headerTurn_of_ok {start stop : ℕ} (hheader : isHeader view offset = true)
    (hfields : headerFields view offset = .ok (start, stop)) :
    headerTurn view (ranges, offset) = .inl
      (ranges ++ [⟨start, offset + 32, stop - start + 1⟩], offset + (32 + stop - start + 1)) := by
  rw [headerTurn, if_pos hheader, hfields]

/-- What a turn of the walk does. -/
theorem headerTurn_cases (view : Bytes) (ranges : List Range) (offset : ℤ) :
    headerTurn view (ranges, offset) = .inr (.ok ranges) ∨
    (∃ e, isHeader view offset = true ∧ headerFields view offset = .error e ∧
      headerTurn view (ranges, offset) = .inr (.error e)) ∨
    ∃ start stop : ℕ, isHeader view offset = true ∧ headerFields view offset = .ok (start, stop) ∧
      headerTurn view (ranges, offset) = .inl
        (ranges ++ [⟨start, offset + 32, stop - start + 1⟩], offset + (32 + stop - start + 1)) := by
  by_cases hheader : isHeader view offset = true
  · rcases hfields : headerFields view offset with e | ⟨start, stop⟩
    · exact .inr (.inl ⟨e, hheader, rfl, headerTurn_of_error hheader hfields⟩)
    · exact .inr (.inr ⟨start, stop, hheader, rfl, headerTurn_of_ok hheader hfields⟩)
  · exact .inl (if_neg hheader)

theorem leads_of_turn (h : headerTurn view (ranges, offset) = .inl (more, next)) :
    Leads view offset next ∧ ∃ r, more = ranges ++ [r] := by
  rcases headerTurn_cases view ranges offset with hturn | ⟨e, -, -, hturn⟩ |
    ⟨start, stop, hheader, hfields, hturn⟩
  · exact absurd (hturn.symm.trans h) nofun
  · exact absurd (hturn.symm.trans h) nofun
  · obtain ⟨rfl, rfl⟩ := Prod.mk.inj (Sum.inl.inj (hturn.symm.trans h))
    exact ⟨⟨hheader, start, stop, hfields, rfl⟩, _, rfl⟩

/-- The walk comes to each position of the chain. -/
theorem OnChain.reached (h : OnChain view offset) :
    ∃ ranges, Reached (headerTurn view) ([], 0) (ranges, offset) := by
  induction h with
  | refl => exact ⟨[], Relation.ReflTransGen.refl⟩
  | tail _ hleads ih =>
    obtain ⟨ranges, hreached⟩ := ih
    obtain ⟨hheader, start, stop, hfields, rfl⟩ := hleads
    exact ⟨_, hreached.tail (headerTurn_of_ok hheader hfields)⟩

/-- What the walk keeps on a chain that fits. -/
structure Walks (view : Bytes) (state : List Range × ℤ) : Prop where
  onChain : OnChain view state.2
  nonneg : 0 ≤ state.2
  inside : ∀ r ∈ state.1, r.Inside view.length

theorem walks_zero : Walks view ([], 0) := ⟨Relation.ReflTransGen.refl, le_rfl, nofun⟩

theorem Walks.turn (hfits : ChainFits view) {state state' : List Range × ℤ}
    (h : Walks view state) (hturn : headerTurn view state = .inl state') :
    Walks view state' ∧ (view.length - state'.2 : ℤ).toNat < (view.length - state.2 : ℤ).toNat := by
  obtain ⟨ranges, offset⟩ := state
  rcases headerTurn_cases view ranges offset with hlast | ⟨e, -, -, hlast⟩ |
    ⟨start, stop, hheader, hfields, hnext⟩
  · exact absurd (hlast.symm.trans hturn) nofun
  · exact absurd (hlast.symm.trans hturn) nofun
  obtain rfl := Sum.inl.inj (hnext.symm.trans hturn)
  obtain ⟨horder, hend⟩ := hfits offset start stop h.onChain hheader hfields
  have hnonneg : 0 ≤ offset := h.nonneg
  have hroom : offset + 32 ≤ view.length :=
    of_decide_eq_true (Bool.and_eq_true_iff.1 hheader).1
  refine ⟨⟨h.onChain.tail ⟨hheader, start, stop, hfields, rfl⟩, ?_, ?_⟩, ?_⟩
  · show 0 ≤ offset + (32 + (stop : ℤ) - start + 1)
    omega
  · intro r hr
    rcases List.mem_append.1 hr with hr | hr
    · exact h.inside r hr
    · obtain rfl := List.mem_singleton.1 hr
      exact ⟨by show 0 ≤ offset + 32; omega, by show 0 ≤ (stop : ℤ) - start + 1; omega,
        by show offset + 32 + ((stop : ℤ) - start + 1) ≤ view.length; omega⟩
  · show (view.length - (offset + (32 + (stop : ℤ) - start + 1))).toNat <
      (view.length - offset : ℤ).toNat
    omega

theorem ends_of_chainFits (hfits : ChainFits view) :
    ∃ fuel result, run (headerTurn view) fuel ([], 0) = some result :=
  run_of_falls (fun state => (view.length - state.2 : ℤ).toNat)
    (fun _ _ h hturn => h.turn hfits hturn) walks_zero

theorem inside_of_chainFits (hfits : ChainFits view) {fuel : ℕ}
    (hrun : run (headerTurn view) fuel ([], 0) = some (.ok ranges)) :
    ∀ r ∈ ranges, r.Inside view.length := by
  obtain ⟨⟨last, offset⟩, hreached, hturn⟩ := exists_last hrun
  have hwalks := hreached.keeps (fun _ _ h hturn => (h.turn hfits hturn).1) walks_zero
  rcases headerTurn_cases view last offset with hlast | ⟨e, -, -, hlast⟩ |
    ⟨start, stop, -, -, hnext⟩
  · obtain rfl := Except.ok.inj (Sum.inr.inj (hlast.symm.trans hturn))
    exact hwalks.inside
  · exact absurd (hlast.symm.trans hturn) nofun
  · exact absurd (hnext.symm.trans hturn) nofun

/-- A chain that breaks is an exception, whatever else is on it. -/
theorem error_of_chainBreaks (hbreaks : ChainBreaks view) :
    ∃ fuel e, run (headerTurn view) fuel ([], 0) = some (.error e) := by
  obtain ⟨offset, e, hchain, hheader, hfields⟩ := hbreaks
  obtain ⟨ranges, hreached⟩ := hchain.reached
  have hlast : run (headerTurn view) 1 (ranges, offset) = some (.error e) :=
    run_last (headerTurn_of_error hheader hfields)
  obtain ⟨fuel, hfuel⟩ := run_of_reached hreached hlast
  exact ⟨fuel, e, hfuel⟩

/-- The ranges found so far are in the result. -/
theorem found_of_run {fuel : ℕ} {ranges result : List Range} {offset : ℤ}
    (hrun : run (headerTurn view) fuel (ranges, offset) = some (.ok result)) :
    ranges <+: result := by
  induction fuel generalizing ranges offset with
  | zero => exact absurd hrun nofun
  | succ fuel ih =>
    rcases headerTurn_cases view ranges offset with hlast | ⟨e, -, -, hlast⟩ |
      ⟨start, stop, -, -, hnext⟩
    · rw [run_last hlast] at hrun
      rw [Except.ok.inj (Option.some.inj hrun)]
    · rw [run_last hlast] at hrun
      exact absurd (Option.some.inj hrun) nofun
    · rw [run_next hnext] at hrun
      exact (List.prefix_append _ _).trans (ih hrun)

/-- If the walk ends with ranges in the file, the chain fits. -/
theorem chainFits_of_inside {fuel : ℕ}
    (hrun : run (headerTurn view) fuel ([], 0) = some (.ok ranges))
    (hinside : ∀ r ∈ ranges, r.Inside view.length) : ChainFits view := by
  intro offset start stop hchain hheader hfields
  obtain ⟨found, hreached⟩ := hchain.reached
  obtain ⟨more, hmore⟩ := run_reached
    (hreached.tail (headerTurn_of_ok hheader hfields)) hrun
  have hmem : (⟨start, offset + 32, stop - start + 1⟩ : Range) ∈ ranges :=
    (found_of_run hmore).subset (List.mem_append_right _ (List.mem_singleton_self _))
  obtain ⟨-, hlength, hend⟩ := hinside _ hmem
  have hlength : (0 : ℤ) ≤ stop - start + 1 := hlength
  have hend : offset + 32 + ((stop : ℤ) - start + 1) ≤ view.length := hend
  omega

end Chain

/-! ### The search for the banner -/

section Banner

variable {view : Bytes}

theorem find_range {view sub : Bytes} {start stop position : ℕ}
    (h : find view sub start stop = some position) :
    start ≤ position ∧ position ≤ view.length := by
  have hmem := List.mem_of_find?_eq_some h
  rw [List.mem_range'_1] at hmem
  omega

/-- The search for the banner ends, since it goes on behind the place it looked at. -/
theorem bannerTurn_ends (needle : Bytes) (kind : ImageKind) (ranges : List Range)
    (bannerAddress pointerSize : ℤ) (place : Option ℕ) :
    ∃ fuel result, run (bannerTurn view needle kind ranges bannerAddress pointerSize) fuel place =
      some result := by
  refine @run_of_falls _ _ _ _ (fun _ => True)
    (fun place => place.elim 0 fun position => 1 + (view.length + 1 - position)) ?_ trivial
  intro place next _ hturn
  refine ⟨trivial, ?_⟩
  rcases place with - | position
  · exact absurd hturn nofun
  rw [bannerTurn] at hturn
  split at hturn
  · exact absurd hturn nofun
  · have hnext := Sum.inl.inj hturn
    rcases next with - | later
    · show 0 < 1 + (view.length + 1 - position)
      omega
    · obtain ⟨hle, hlength⟩ := find_range hnext
      show 1 + (view.length + 1 - later) < 1 + (view.length + 1 - position)
      omega

variable {result : Except ImageError (ImageKind × List Range)}

theorem imageRanges_mono {fuel more : ℕ}
    (h : imageRanges fuel view = some result) (hle : fuel ≤ more) :
    imageRanges more view = some result := by
  rw [imageRanges] at h ⊢
  split
  · rename_i hlime
    rw [if_pos hlime, Option.map_eq_some_iff] at h
    obtain ⟨ranges, hrun, hresult⟩ := h
    rw [run_mono hrun hle]
    exact congrArg some hresult
  · rename_i hlime
    rw [if_neg hlime] at h
    exact h

theorem banner_ends_of_ranges {fuel : ℕ}
    (h : imageRanges fuel view = some result) (bannerText : Text)
    (bannerAddress pointerSize : ℤ) :
    ∃ fuel result, findBanner fuel view bannerText bannerAddress pointerSize = some result := by
  by_cases hneedle : encodeLatin1 "Linux version ".toList <+: encodeLatin1 (strip bannerText)
  swap
  · exact ⟨0, _, if_pos hneedle⟩
  by_cases hview : view = []
  · refine ⟨0, .error .valueError, ?_⟩
    rw [findBanner, if_neg (not_not_intro hneedle), if_pos hview]
  rcases result with e | ⟨kind, ranges⟩
  · refine ⟨fuel, .error e, ?_⟩
    rw [findBanner, if_neg (not_not_intro hneedle), if_neg hview, h]
  · obtain ⟨more, result, hrun⟩ := bannerTurn_ends (encodeLatin1 (strip bannerText)) kind ranges
      bannerAddress pointerSize (find view (encodeLatin1 (strip bannerText)) 0 view.length)
    -- the same turns are enough for both loops
    refine ⟨max fuel more, result, ?_⟩
    rw [findBanner, if_neg (not_not_intro hneedle), if_neg hview,
      imageRanges_mono h (Nat.le_max_left _ _)]
    exact run_mono hrun (Nat.le_max_right _ _)

end Banner

/-! ### The result -/

theorem maps_of_addressOf {ranges : List Range} {position address : ℤ}
    (h : address ∈ addressOf ranges position) : ∃ r ∈ ranges, r.Maps position address := by
  obtain ⟨r, hr, rfl⟩ := List.mem_map.1 h
  obtain ⟨hr, hin⟩ := List.mem_filter.1 hr
  have hin : r.offset ≤ position ∧ position < r.offset + r.length := of_decide_eq_true hin
  exact ⟨r, hr, hin, by omega, by omega⟩

theorem Segment.inside_ranges {size : ℕ} (segment : Segment) :
    (∀ r ∈ segment.ranges, r.Inside size) ↔
      (segment.kind = 1 → segment.offset + segment.filesz ≤ size) := by
  rw [Segment.ranges]
  split
  · rename_i hkind
    simp only [List.mem_cons, List.not_mem_nil, or_false, forall_eq_or_imp, forall_eq,
      Range.Inside, hkind, forall_true_left]
    omega
  · rename_i hkind
    simp [hkind]

variable {view : Bytes}

theorem imageRanges_lime (hlime : slice view 0 4 = limeMagic) (fuel : ℕ) :
    imageRanges fuel view = (run (headerTurn view) fuel ([], 0)).map fun ranges =>
      ranges.map fun rs => (.physical, rs) := if_pos hlime

theorem imageRanges_elf (hlime : slice view 0 4 ≠ limeMagic) (helf : slice view 0 4 = elfMagic)
    (fuel : ℕ) : imageRanges fuel view =
      some ((programHeaders view).map fun segments => (.elf, segments.flatMap Segment.ranges)) := by
  rw [imageRanges, if_neg hlime, if_pos helf]

theorem imageRanges_raw (hlime : slice view 0 4 ≠ limeMagic) (helf : slice view 0 4 ≠ elfMagic)
    (fuel : ℕ) : imageRanges fuel view = some (.ok (.physical, [⟨0, 0, view.length⟩])) := by
  rw [imageRanges, if_neg hlime, if_neg helf]

/-- Ranges of a LiME image are what the walk found. -/
theorem run_of_imageRanges {fuel : ℕ} {kind : ImageKind} {ranges : List Range}
    (hlime : slice view 0 4 = limeMagic)
    (h : imageRanges fuel view = some (.ok (kind, ranges))) :
    run (headerTurn view) fuel ([], 0) = some (.ok ranges) := by
  rw [imageRanges_lime hlime, Option.map_eq_some_iff] at h
  obtain ⟨result, hrun, hresult⟩ := h
  rcases result with e | found
  · exact absurd hresult nofun
  · obtain ⟨-, rfl⟩ := Prod.mk.inj (Except.ok.inj hresult)
    exact hrun

theorem LayoutRead.of_ends (hends : ∃ fuel result, imageRanges fuel view = some result)
    (hinside : ∀ fuel kind ranges, imageRanges fuel view = some (.ok (kind, ranges)) →
      ∀ r ∈ ranges, r.Inside view.length) : LayoutRead view where
  ranges_end := hends
  banner_ends := fun bannerText bannerAddress pointerSize => by
    obtain ⟨fuel, result, hrun⟩ := hends
    exact banner_ends_of_ranges hrun bannerText bannerAddress pointerSize
  inside := hinside
  maps := fun _ _ _ _ _ _ haddress => maps_of_addressOf haddress

theorem layoutRead_of_chain (hlime : slice view 0 4 = limeMagic)
    (h : ChainFits view ∨ ChainBreaks view) : LayoutRead view := by
  rcases h with hfits | hbreaks
  · obtain ⟨fuel, result, hrun⟩ := ends_of_chainFits hfits
    refine LayoutRead.of_ends ⟨fuel, result.map fun rs => (.physical, rs), ?_⟩
      fun fuel kind ranges hranges => inside_of_chainFits hfits (run_of_imageRanges hlime hranges)
    rw [imageRanges_lime hlime, hrun]
    rfl
  · obtain ⟨fuel, e, hrun⟩ := error_of_chainBreaks hbreaks
    refine LayoutRead.of_ends ⟨fuel, .error e, ?_⟩ fun more kind ranges hranges => ?_
    · rw [imageRanges_lime hlime, hrun]
      rfl
    · exact absurd (run_unique (run_of_imageRanges hlime hranges) hrun) nofun

theorem LayoutRead.chain (h : LayoutRead view) (hlime : slice view 0 4 = limeMagic) :
    ChainFits view ∨ ChainBreaks view := by
  obtain ⟨fuel, result, hrun⟩ := h.ranges_end
  have hranges := hrun
  rw [imageRanges_lime hlime, Option.map_eq_some_iff] at hrun
  obtain ⟨found, hrun, rfl⟩ := hrun
  rcases found with e | ranges
  · obtain ⟨⟨last, offset⟩, hreached, hturn⟩ := exists_last hrun
    have hchain : OnChain view offset := by
      refine hreached.keeps (P := fun state : List Range × ℤ => OnChain view state.2) ?_ ?_
      · exact fun _ _ hon hnext => hon.tail (leads_of_turn hnext).1
      · exact Relation.ReflTransGen.refl
    rcases headerTurn_cases view last offset with hlast | ⟨e, hheader, hfields, -⟩ |
      ⟨start, stop, -, -, hnext⟩
    · exact absurd (hlast.symm.trans hturn) nofun
    · exact .inr ⟨offset, e, hchain, hheader, hfields⟩
    · exact absurd (hnext.symm.trans hturn) nofun
  · exact .inl (chainFits_of_inside hrun (h.inside fuel .physical ranges hranges))

/-- **When a memory image's layout is read to the end, with ranges of the file.** -/
theorem layoutRead_iff (view : Bytes) : LayoutRead view ↔ Fits view := by
  by_cases hlime : slice view 0 4 = limeMagic
  · rw [Fits, if_pos hlime]
    exact ⟨fun h => h.chain hlime, layoutRead_of_chain hlime⟩
  by_cases helf : slice view 0 4 = elfMagic
  · rw [Fits, if_neg hlime, if_pos helf]
    have hranges := imageRanges_elf hlime helf
    constructor
    · intro h segments hsegments segment hsegment
      refine segment.inside_ranges.1 fun r hr => ?_
      refine h.inside 0 .elf (segments.flatMap Segment.ranges) ?_ r
        (List.mem_flatMap.2 ⟨segment, hsegment, hr⟩)
      rw [hranges, hsegments]
      rfl
    · intro h
      refine LayoutRead.of_ends ⟨0, _, hranges 0⟩ fun fuel kind ranges hresult r hr => ?_
      rw [hranges] at hresult
      rcases hsegments : programHeaders view with e | segments
      · rw [hsegments] at hresult
        exact absurd (Option.some.inj hresult) nofun
      · rw [hsegments] at hresult
        obtain ⟨-, rfl⟩ := Prod.mk.inj (Except.ok.inj (Option.some.inj hresult))
        obtain ⟨segment, hsegment, hr⟩ := List.mem_flatMap.1 hr
        exact segment.inside_ranges.2 (h segments hsegments segment hsegment) r hr
  · rw [Fits, if_neg hlime, if_neg helf]
    refine ⟨fun _ => trivial, fun _ => ?_⟩
    have hranges := imageRanges_raw hlime helf
    refine LayoutRead.of_ends ⟨0, _, hranges 0⟩ fun fuel kind ranges hresult r hr => ?_
    rw [hranges] at hresult
    obtain ⟨-, rfl⟩ := Prod.mk.inj (Except.ok.inj (Option.some.inj hresult))
    obtain rfl := List.mem_singleton.1 hr
    exact ⟨le_rfl, Int.natCast_nonneg _, (Int.zero_add _).le⟩

/-- A LiME image of one header, whose range ends 33 bytes before it starts. -/
def stuckImage : Bytes :=
  limeMagic ++ [1, 0, 0, 0] ++ [33, 0, 0, 0, 0, 0, 0, 0] ++ List.replicate 16 0

/-- The header leads to itself: the walk over it does not end. -/
theorem stuckImage_never :
    (∀ fuel, imageRanges fuel stuckImage = none) ∧ ¬ LayoutRead stuckImage := by
  have hlime : slice stuckImage 0 4 = limeMagic := by decide
  have hheader : isHeader stuckImage 0 = true := by decide
  have hfields : headerFields stuckImage 0 = .ok (33, 0) := by decide
  have hnever : ∀ fuel, imageRanges fuel stuckImage = none := by
    intro fuel
    have hrun : run (headerTurn stuckImage) fuel ([], 0) = none := by
      refine run_never (P := fun state => state.2 = 0) ?_ rfl fuel
      rintro ⟨ranges, offset⟩ hoffset
      obtain rfl : offset = 0 := hoffset
      exact ⟨_, headerTurn_of_ok hheader hfields, rfl⟩
    rw [imageRanges_lime hlime, hrun]
    rfl
  refine ⟨hnever, fun h => ?_⟩
  obtain ⟨fuel, result, hrun⟩ := h.ranges_end
  rw [hnever fuel] at hrun
  exact absurd hrun nofun

end Kairon.Memory
