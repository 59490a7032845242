/-
Kairon/Disk/BlockMap.lean

The block map of a recovered inode.

`blockMap` walks the pointers of an inode: direct ones and three levels of indirection, or a
tree of extents.  What the filesystem means by them is said without a walk: `pointerAt` finds
the block of one logical number by the digits of the number, and `LeafOf` the extents that
stand some levels below a node.  `blockMap_iff` compares the two.

By design the walk leaves out extents that are not initialised, and everything more than five
levels below the inode, so that it ends on pointers that lead in a circle.
-/
import Kairon.Disk.ExtContent
import Mathlib

namespace Kairon.Disk

open Lvm (Bytes leNat slice)

/-! ### The walk -/

section

variable (read : ℕ → Option Bytes) (perBlock : ℕ)

/-- A pointer of four bytes. -/
def entryOf (data : Bytes) (index : ℕ) : ℕ := leNat (slice data (4 * index) (4 * index + 4))

/-- `_indirect_runs`; level 0 is a pointer to data.  The read of a block may raise, and so does
the unpacking of one that has not the length of a block. -/
def indirectRuns : ℕ → ℕ → ℕ × List Run → Option (ℕ × List Run)
  | 0, pointer, (logical, runs) =>
    some (logical + 1, if pointer ≠ 0 then runs ++ [⟨logical, pointer, 1⟩] else runs)
  | level + 1, pointer, (logical, runs) =>
    if pointer = 0 then some (logical + perBlock ^ (level + 1), runs)
    else do
      let data ← read pointer
      guard (data.length = 4 * perBlock)
      (List.range perBlock).foldlM
        (fun found index => indirectRuns level (entryOf data index) found) (logical, runs)

/-- `_EXTENT_MAGIC`, and the other fields of the header of a node. -/
def hasMagic (node : Bytes) : Bool := leNat (slice node 0 2) = 0xF30A

def entryCount (node : Bytes) : ℕ := leNat (slice node 2 4)

def depthField (node : Bytes) : ℕ := leNat (slice node 6 8)

/-- The entries of a node: as many as it says and as it has room for. -/
def slotsOf (node : Bytes) : List Bytes :=
  (List.range (min (entryCount node) ((node.length - 12) / 12))).map fun index =>
    slice node (12 + index * 12) (24 + index * 12)

/-- An extent with a length above is one that is not initialised. -/
def isInitialized (slot : Bytes) : Bool := leNat (slice slot 4 6) ≤ 32768

def extentRun (slot : Bytes) : Run :=
  ⟨leNat (slice slot 0 4), leNat (slice slot 6 8) <<< 32 ||| leNat (slice slot 8 12),
    if isInitialized slot then leNat (slice slot 4 6) else leNat (slice slot 4 6) - 32768⟩

/-- The block of the node below. -/
def childOf (slot : Bytes) : ℕ := leNat (slice slot 8 10) <<< 32 ||| leNat (slice slot 4 8)

/-- `_extent_runs`; the first argument is how many levels the guard still allows. -/
def extentRuns : ℕ → Bytes → List Run → Option (List Run)
  | 0, node, runs => if node.length < 8 then none else some runs
  | room + 1, node, runs =>
    if node.length < 8 then none
    else if !hasMagic node then some runs
    else (slotsOf node).foldlM (fun runs slot =>
      if depthField node = 0 then
        some (if isInitialized slot then runs ++ [extentRun slot] else runs)
      else do
        let child ← read (childOf slot)
        extentRuns room child runs) runs

/-- `_block_map`. -/
def blockMap (extents : Bool) (area : Bytes) : Option (List Run) :=
  if extents then extentRuns read 6 area []
  else if area.length < 60 then none
  else do
    let found ← (List.range 12).foldlM
      (fun found index => indirectRuns read perBlock 0 (entryOf area index) found) (0, [])
    let found ← (List.range 3).foldlM
      (fun found index => indirectRuns read perBlock (index + 1) (entryOf area (12 + index)) found)
      found
    pure found.2

end

/-! ### The map of the filesystem -/

section

variable (read : ℕ → Option Bytes) (perBlock : ℕ)

/-- The block at a place below a pointer: each level takes the highest digit. -/
def follow : ℕ → ℕ → ℕ → Option ℕ
  | 0, pointer, _ => if pointer = 0 then none else some pointer
  | level + 1, pointer, index =>
    if pointer = 0 then none
    else (read pointer).bind fun data =>
      follow level (entryOf data (index / perBlock ^ level)) (index % perBlock ^ level)

/-- The block of a logical number: direct, or through one, two or three levels. -/
def pointerAt (area : Bytes) (logical : ℕ) : Option ℕ :=
  if logical < 12 then follow read perBlock 0 (entryOf area logical) 0
  else if logical - 12 < perBlock then follow read perBlock 1 (entryOf area 12) (logical - 12)
  else if logical - 12 - perBlock < perBlock ^ 2 then
    follow read perBlock 2 (entryOf area 13) (logical - 12 - perBlock)
  else if logical - 12 - perBlock - perBlock ^ 2 < perBlock ^ 3 then
    follow read perBlock 3 (entryOf area 14) (logical - 12 - perBlock - perBlock ^ 2)
  else none

/-- The blocks below a pointer are all there, with the length of a block. -/
def Whole : ℕ → ℕ → Prop
  | 0, _ => True
  | level + 1, pointer => pointer = 0 ∨ ∃ data, read pointer = some data ∧
      data.length = 4 * perBlock ∧ ∀ index < perBlock, Whole level (entryOf data index)

/-- A leaf extent so many levels below a node. -/
inductive LeafOf : ℕ → Bytes → Bytes → Prop
  | here {node slot : Bytes} : hasMagic node = true → depthField node = 0 → slot ∈ slotsOf node →
      LeafOf 0 node slot
  | deeper {level : ℕ} {node slot child leaf : Bytes} : hasMagic node = true →
      depthField node ≠ 0 → slot ∈ slotsOf node → read (childOf slot) = some child →
      LeafOf level child leaf → LeafOf (level + 1) node leaf

/-- The nodes below a node, as far as the guard goes, can be read and have a header. -/
def Headed : ℕ → Bytes → Prop
  | 0, node => 8 ≤ node.length
  | room + 1, node => 8 ≤ node.length ∧ (hasMagic node = true → depthField node ≠ 0 →
      ∀ slot ∈ slotsOf node, ∃ child, read (childOf slot) = some child ∧ Headed room child)

/-- What has to be readable for the inode. -/
def Complete (extents : Bool) (area : Bytes) : Prop :=
  if extents then Headed read 6 area
  else ∀ level < 3, Whole read perBlock (level + 1) (entryOf area (12 + level))

/-- The run maps the logical block. -/
def Run.Maps (run : Run) (logical physical : ℕ) : Prop :=
  run.logical ≤ logical ∧ logical < run.logical + run.length ∧
    physical = run.physical + (logical - run.logical)

/-- The map of the inode, down to some level of the extents, and with those that satisfy `P`. -/
def MapsTo (P : ℕ → Bytes → Prop) (extents : Bool) (area : Bytes) (logical physical : ℕ) : Prop :=
  if extents then ∃ level slot, LeafOf read level area slot ∧ P level slot ∧
    (extentRun slot).Maps logical physical
  else pointerAt read perBlock area logical = some physical

/-- All leaf extents, at any depth. -/
def AnyLeaf : ℕ → Bytes → Prop := fun _ _ => True

/-- The initialised extents, at most five levels below the inode. -/
def ReadLeaf : ℕ → Bytes → Prop := fun level slot => level ≤ 5 ∧ isInitialized slot = true

end

/-! ### Indirect blocks -/

/-- The runs of one block each, for the places that have a block. -/
def runsFrom (logical count : ℕ) (block : ℕ → Option ℕ) : List Run :=
  (List.range count).filterMap fun index =>
    (block index).map fun physical => ⟨logical + index, physical, 1⟩

theorem runsFrom_add (logical m n : ℕ) (block : ℕ → Option ℕ) : runsFrom logical (m + n) block =
      runsFrom logical m block ++ runsFrom (logical + m) n fun index => block (m + index) := by
  rw [runsFrom, List.range_add, List.filterMap_append, List.filterMap_map]
  refine congrArg _ (List.filterMap_congr fun index _ => ?_)
  show (block (m + index)).map _ = _
  rw [Nat.add_assoc]

theorem runsFrom_congr {logical count : ℕ} {block block' : ℕ → Option ℕ}
    (h : ∀ index < count, block index = block' index) :
    runsFrom logical count block = runsFrom logical count block' :=
  List.filterMap_congr fun index hindex => by rw [h index (List.mem_range.mp hindex)]

section

variable (step : ℕ × List Run → ℕ → Option (ℕ × List Run)) {good : ℕ → Prop} {width : ℕ}
  (block : ℕ → ℕ → Option ℕ)

/-- A loop over pointers of one level: if each adds the runs of its span, so do all. -/
theorem foldlM_range (hgood : ∀ index, good index → ∀ logical runs, step (logical, runs) index =
        some (logical + width, runs ++ runsFrom logical width (block index)))
    {count : ℕ} (h : ∀ index < count, good index) (logical : ℕ) (runs : List Run) :
    (List.range count).foldlM step (logical, runs) = some (logical + count * width,
      runs ++ runsFrom logical (count * width) fun i => block (i / width) (i % width)) := by
  induction count with
  | zero => simp [runsFrom]
  | succ count ih =>
    rw [List.range_succ, List.foldlM_append, ih fun index hindex => h index (Nat.lt_succ_of_lt hindex)]
    show step _ count >>= _ = _
    rw [hgood count (h count (Nat.lt_succ_self count)), Nat.succ_mul, runsFrom_add, List.append_assoc,
      Nat.add_assoc]
    refine congrArg (fun found => some (_, runs ++ (_ ++ found))) (runsFrom_congr fun index hindex => ?_)
    have hwidth : 0 < width := by omega
    rw [Nat.add_comm (count * width), Nat.add_mul_div_right _ _ hwidth, Nat.add_mul_mod_self_right,
      Nat.div_eq_of_lt hindex, Nat.mod_eq_of_lt hindex, Nat.zero_add]

/-- One pointer that cannot be followed is enough to raise. -/
theorem foldlM_range_none (hbad : ∀ index, ¬ good index → ∀ found, step found index = none)
    {count : ℕ} (h : ¬ ∀ index < count, good index) (found : ℕ × List Run) :
    (List.range count).foldlM step found = none := by
  induction count with
  | zero => exact absurd (fun index hindex => absurd hindex (Nat.not_lt_zero index)) h
  | succ count ih =>
    rw [List.range_succ, List.foldlM_append]
    by_cases hbefore : ∀ index < count, good index
    · have hlast : ¬ good count := fun hlast => h fun index hindex =>
        (Nat.lt_succ_iff_lt_or_eq.mp hindex).elim (hbefore index) fun heq => heq ▸ hlast
      refine Option.bind_eq_none_iff.mpr fun found _ => ?_
      show step found count >>= _ = _
      rw [hbad count hlast]
      rfl
    · rw [ih hbefore]
      rfl

end

section

variable (read : ℕ → Option Bytes) (perBlock : ℕ)

/-- **The walk below a pointer adds the blocks below it, each at its own logical number.** -/
theorem indirectRuns_whole {level pointer : ℕ} (h : Whole read perBlock level pointer)
    (logical : ℕ) (runs : List Run) :
    indirectRuns read perBlock level pointer (logical, runs) = some (logical + perBlock ^ level,
        runs ++ runsFrom logical (perBlock ^ level) (follow read perBlock level pointer)) := by
  induction level generalizing pointer logical runs with
  | zero =>
    rw [indirectRuns, Nat.pow_zero]
    refine congrArg (fun found => some (logical + 1, found)) ?_
    by_cases hpointer : pointer = 0
    · simp [runsFrom, follow, hpointer]
    · simp [runsFrom, follow, hpointer]
  | succ level ih =>
    by_cases hpointer : pointer = 0
    · rw [indirectRuns, if_pos hpointer]
      have hnone : follow read perBlock (level + 1) pointer = fun _ => none := by
        funext index
        rw [follow, if_pos hpointer]
      simp [runsFrom, hnone]
    · obtain ⟨data, hread, hlength, hentries⟩ := h.resolve_left hpointer
      rw [indirectRuns, if_neg hpointer, hread]
      have hloop := foldlM_range
        (fun found index => indirectRuns read perBlock level (entryOf data index) found)
        (fun index => follow read perBlock level (entryOf data index)) (fun _ hindex => ih hindex)
        hentries logical runs
      show ((guard (data.length = 4 * perBlock) : Option Unit) >>= fun _ => _) = _
      rw [guard, if_pos hlength, Nat.pow_succ']
      refine hloop.trans ?_
      refine congrArg (fun found => some (_, runs ++ found)) (runsFrom_congr fun index _ => ?_)
      rw [follow, if_neg hpointer, hread]
      rfl

theorem indirectRuns_none {level pointer : ℕ} (h : ¬ Whole read perBlock level pointer)
    (found : ℕ × List Run) : indirectRuns read perBlock level pointer found = none := by
  induction level generalizing pointer found with
  | zero => exact absurd trivial h
  | succ level ih =>
    rw [Whole, not_or] at h
    rw [indirectRuns, if_neg h.1]
    cases hread : read pointer with
    | none => rfl
    | some data =>
      show ((guard (data.length = 4 * perBlock) : Option Unit) >>= fun _ => _) = _
      rw [guard]
      split_ifs with hlength
      · refine foldlM_range_none _ (fun _ hindex found => ih hindex found) (fun hentries => ?_) _
        exact h.2 ⟨data, hread, hlength, hentries⟩
      · rfl

variable {area : Bytes}

/-- The direct pointers. -/
theorem foldlM_direct : (List.range 12).foldlM
    (fun found index => indirectRuns read perBlock 0 (entryOf area index) found) (0, []) =
      some (12, runsFrom 0 12 fun index => follow read perBlock 0 (entryOf area index) 0) := by
  have hstep : ∀ index, True → ∀ logical runs,
      indirectRuns read perBlock 0 (entryOf area index) (logical, runs) =
        some (logical + 1, runs ++ runsFrom logical 1 (follow read perBlock 0 (entryOf area index))) :=
    fun index _ => indirectRuns_whole read perBlock trivial
  have hall : ∀ index < 12, True := fun _ _ => trivial
  refine (foldlM_range _ _ hstep hall 0 []).trans ?_
  refine congrArg (fun found => some (12, found)) (runsFrom_congr fun index _ => ?_)
  rw [Nat.div_one]
  rfl

/-- **The runs of an inode without extents are in order, one for each block.** -/
theorem blockMap_indirect (harea : 60 ≤ area.length) (h : Complete read perBlock false area) :
    blockMap read perBlock false area = some (runsFrom 0
      (12 + perBlock + perBlock ^ 2 + perBlock ^ 3) (pointerAt read perBlock area)) := by
  have hlevel := fun (level : ℕ) (hlevel : level < 3) => indirectRuns_whole read perBlock (h level hlevel)
  have hrange : List.range 3 = [0, 1, 2] := rfl
  rw [blockMap, if_neg Bool.false_ne_true, if_neg (by omega), foldlM_direct, hrange]
  simp only [List.foldlM_cons, List.foldlM_nil, Option.bind_eq_bind, Option.bind_some,
    hlevel 0 (by decide), hlevel 1 (by decide), hlevel 2 (by decide), Option.pure_def]
  rw [runsFrom_add, runsFrom_add, runsFrom_add, Nat.pow_one]
  refine congrArg some ?_
  refine congrArg₂ _ (congrArg₂ _ (congrArg₂ _ ?_ ?_) ?_) ?_
  · refine runsFrom_congr fun index hindex => ?_
    rw [pointerAt, if_pos hindex]
  · rw [Nat.zero_add]
    refine runsFrom_congr fun index hindex => ?_
    rw [pointerAt, if_neg (by omega), Nat.add_sub_cancel_left, if_pos hindex]
  · rw [Nat.zero_add]
    refine runsFrom_congr fun index hindex => ?_
    rw [pointerAt, if_neg (by omega), if_neg (by omega),
      show 12 + perBlock + index - 12 - perBlock = index by omega, if_pos hindex]
  · rw [Nat.zero_add]
    refine runsFrom_congr fun index hindex => ?_
    rw [pointerAt, if_neg (by omega), if_neg (by omega), if_neg (by omega),
      show 12 + perBlock + perBlock ^ 2 + index - 12 - perBlock - perBlock ^ 2 = index by omega,
      if_pos hindex]

theorem blockMap_indirect_none (h : ¬ Complete read perBlock false area) :
    blockMap read perBlock false area = none := by
  rw [blockMap, if_neg Bool.false_ne_true]
  split_ifs
  · rfl
  · rw [foldlM_direct, Option.bind_eq_bind, Option.bind_some, foldlM_range_none _ (fun index hindex found => indirectRuns_none read perBlock hindex found) h]
    rfl

/-- A logical block is in one of the runs where it has a block. -/
theorem mem_runsFrom {count : ℕ} {block : ℕ → Option ℕ}
    (hblock : ∀ index, count ≤ index → block index = none) (logical physical : ℕ) :
    (∃ run ∈ runsFrom 0 count block, run.Maps logical physical) ↔ block logical = some physical := by
  constructor
  · rintro ⟨run, hrun, hle, hlt, rfl⟩
    obtain ⟨index, -, hindex⟩ := List.mem_filterMap.mp hrun
    obtain ⟨found, hfound, rfl⟩ := Option.map_eq_some_iff.mp hindex
    dsimp only at hle hlt ⊢
    obtain rfl : logical = index := by omega
    rw [hfound, Nat.zero_add, Nat.sub_self, Nat.add_zero]
  · intro h
    have hlt : logical < count := by
      by_contra hle
      rw [hblock logical (not_lt.mp hle)] at h
      cases h
    refine ⟨⟨0 + logical, physical, 1⟩, List.mem_filterMap.mpr
      ⟨logical, List.mem_range.mpr hlt, by rw [h, Option.map_some]⟩, ?_, ?_, ?_⟩
    all_goals dsimp only
    all_goals omega

end

/-! ### Extents -/

section

variable {step : List Run → Bytes → Option (List Run)} {slots : List Bytes}

/-- A loop over entries: if each adds some runs, so do all. -/
theorem foldlM_slots {adds : Bytes → Run → Prop}
    (h : ∀ slot ∈ slots, ∃ found, (∀ runs, step runs slot = some (runs ++ found)) ∧
      ∀ run, run ∈ found ↔ adds slot run) :
    ∃ found, (∀ runs, slots.foldlM step runs = some (runs ++ found)) ∧
      ∀ run, run ∈ found ↔ ∃ slot ∈ slots, adds slot run := by
  induction slots with
  | nil => exact ⟨[], fun runs => by rw [List.append_nil]; rfl, fun run => by simp⟩
  | cons slot slots ih =>
    obtain ⟨hslot, hslots⟩ := List.forall_mem_cons.mp h
    obtain ⟨here, hhere, hadds⟩ := hslot
    obtain ⟨found, hfound, hmem⟩ := ih hslots
    refine ⟨here ++ found, fun runs => ?_, fun run => ?_⟩
    · rw [List.foldlM_cons, hhere, Option.bind_eq_bind, Option.bind_some, hfound, List.append_assoc]
    · rw [List.mem_append, hadds, hmem, List.exists_mem_cons_iff]

theorem foldlM_slots_none {slot : Bytes} (hslot : slot ∈ slots) (h : ∀ runs, step runs slot = none)
    (runs : List Run) : slots.foldlM step runs = none := by
  induction slots generalizing runs with
  | nil => cases hslot
  | cons first slots ih =>
    rw [List.foldlM_cons]
    rcases List.mem_cons.mp hslot with rfl | hslot
    · rw [h]
      rfl
    · exact Option.bind_eq_none_iff.mpr fun runs _ => ih hslot runs

variable (read : ℕ → Option Bytes)

/-- The runs of the initialised extents fewer than so many levels below a node. -/
def AddedBelow (room : ℕ) (node : Bytes) (run : Run) : Prop :=
  ∃ level slot, level < room ∧ LeafOf read level node slot ∧ isInitialized slot = true ∧
    run = extentRun slot

variable {read}

theorem addedBelow_leaf {room : ℕ} {node : Bytes} {run : Run} (hmagic : hasMagic node = true)
    (hdepth : depthField node = 0) : AddedBelow read (room + 1) node run ↔
      ∃ slot ∈ slotsOf node, isInitialized slot = true ∧ run = extentRun slot := by
  constructor
  · rintro ⟨level, slot, -, hleaf, h⟩
    cases hleaf with
    | here _ _ hslot => exact ⟨slot, hslot, h⟩
    | deeper _ hne => exact absurd hdepth hne
  · rintro ⟨slot, hslot, h⟩
    exact ⟨0, slot, Nat.succ_pos _, .here hmagic hdepth hslot, h⟩

theorem addedBelow_inner {room : ℕ} {node : Bytes} {run : Run} (hmagic : hasMagic node = true)
    (hdepth : depthField node ≠ 0) : AddedBelow read (room + 1) node run ↔
      ∃ slot ∈ slotsOf node, ∃ child, read (childOf slot) = some child ∧
        AddedBelow read room child run := by
  constructor
  · rintro ⟨level, leaf, hlevel, hleaf, h⟩
    cases hleaf with
    | here _ hzero => exact absurd hzero hdepth
    | deeper _ _ hslot hread hleaf =>
      exact ⟨_, hslot, _, hread, _, leaf, Nat.lt_of_succ_lt_succ hlevel, hleaf, h⟩
  · rintro ⟨slot, hslot, child, hread, level, leaf, hlevel, hleaf, h⟩
    exact ⟨level + 1, leaf, Nat.succ_lt_succ hlevel, .deeper hmagic hdepth hslot hread hleaf, h⟩

/-- **The walk below a node adds the initialised extents below it, as far as the guard goes.** -/
theorem extentRuns_headed {room : ℕ} {node : Bytes} (h : Headed read room node) :
    ∃ found, (∀ runs, extentRuns read room node runs = some (runs ++ found)) ∧
      ∀ run, run ∈ found ↔ AddedBelow read room node run := by
  induction room generalizing node with
  | zero =>
    refine ⟨[], fun runs => ?_, fun run => ⟨fun hrun => (by cases hrun), ?_⟩⟩
    · rw [extentRuns, if_neg (not_lt.mpr h), List.append_nil]
    · rintro ⟨level, -, hlevel, -⟩
      exact absurd hlevel (Nat.not_lt_zero level)
  | succ room ih =>
    obtain ⟨hlength, hchildren⟩ := h
    by_cases hmagic : hasMagic node = true
    · have hslots : ∀ slot ∈ slotsOf node, ∃ found, (∀ runs, (fun runs slot =>
          if depthField node = 0 then
            some (if isInitialized slot then runs ++ [extentRun slot] else runs)
          else read (childOf slot) >>= fun child => extentRuns read room child runs) runs slot =
            some (runs ++ found)) ∧ ∀ run, run ∈ found ↔
              if depthField node = 0 then isInitialized slot = true ∧ run = extentRun slot
              else ∃ child, read (childOf slot) = some child ∧ AddedBelow read room child run := by
        intro slot hslot
        dsimp only
        by_cases hdepth : depthField node = 0
        · simp only [if_pos hdepth]
          by_cases hslot : isInitialized slot = true
          · refine ⟨[extentRun slot], fun runs => by rw [if_pos hslot], fun run => ?_⟩
            rw [List.mem_singleton, and_iff_right hslot]
          · refine ⟨[], fun runs => by rw [if_neg hslot, List.append_nil], fun run => ?_⟩
            exact ⟨fun hrun => (by cases hrun), fun h => absurd h.1 hslot⟩
        · simp only [if_neg hdepth]
          obtain ⟨child, hread, hchild⟩ := hchildren hmagic hdepth slot hslot
          obtain ⟨found, hfound, hmem⟩ := ih hchild
          refine ⟨found, fun runs => by rw [hread]; exact hfound runs, fun run => ?_⟩
          rw [hmem]
          refine ⟨fun h => ⟨child, hread, h⟩, ?_⟩
          rintro ⟨child', hread', h⟩
          rw [hread] at hread'
          cases hread'
          exact h
      obtain ⟨found, hfound, hmem⟩ := foldlM_slots hslots
      refine ⟨found, fun runs => ?_, fun run => (hmem run).trans ?_⟩
      · rw [extentRuns, if_neg (not_lt.mpr hlength), hmagic]
        exact hfound runs
      · by_cases hdepth : depthField node = 0
        · simp only [if_pos hdepth]
          exact (addedBelow_leaf hmagic hdepth).symm
        · simp only [if_neg hdepth]
          exact (addedBelow_inner hmagic hdepth).symm
    · rw [Bool.not_eq_true] at hmagic
      refine ⟨[], fun runs => ?_, fun run => ⟨fun hrun => (by cases hrun), ?_⟩⟩
      · rw [extentRuns, if_neg (not_lt.mpr hlength), hmagic, List.append_nil]
        rfl
      · rintro ⟨level, slot, -, hleaf, -⟩
        cases hleaf with
        | here hmagic' | deeper hmagic' => rw [hmagic] at hmagic'; cases hmagic'

theorem extentRuns_none {room : ℕ} {node : Bytes} (h : ¬ Headed read room node) (runs : List Run) :
    extentRuns read room node runs = none := by
  induction room generalizing node runs with
  | zero => rw [extentRuns, if_pos (not_le.mp h)]
  | succ room ih =>
    rw [extentRuns]
    by_cases hlength : node.length < 8
    · rw [if_pos hlength]
    · have hinner : ¬ (hasMagic node = true → depthField node ≠ 0 → ∀ slot ∈ slotsOf node,
          ∃ child, read (childOf slot) = some child ∧ Headed read room child) :=
        fun hinner => h ⟨not_lt.mp hlength, hinner⟩
      simp only [Classical.not_imp, not_forall, not_exists, not_and] at hinner
      obtain ⟨hmagic, hdepth, slot, hslot, hchild⟩ := hinner
      rw [if_neg hlength, hmagic]
      refine foldlM_slots_none hslot (fun runs => ?_) runs
      rw [if_neg hdepth]
      cases hread : read (childOf slot) with
      | none => rfl
      | some child => exact ih (hchild child hread) runs

end

/-! ### The map -/

theorem pointerAt_none (read : ℕ → Option Bytes) (perBlock : ℕ) (area : Bytes) {logical : ℕ}
    (h : 12 + perBlock + perBlock ^ 2 + perBlock ^ 3 ≤ logical) :
    pointerAt read perBlock area logical = none := by
  rw [pointerAt, if_neg (by omega), if_neg (by omega), if_neg (by omega), if_neg (by omega)]

/-- **The block map of an inode is the filesystem's: the blocks of all levels of indirection at
their own logical numbers, or the initialised extents at most five levels below the inode.  It
always ends; it raises exactly where a block it needs is not there.** -/
theorem blockMap_maps (read : ℕ → Option Bytes) (perBlock : ℕ) (extents : Bool) (area : Bytes)
    (harea : area.length = 60) :
    (Complete read perBlock extents area → ∃ runs,
      blockMap read perBlock extents area = some runs ∧ ∀ logical physical,
        (∃ run ∈ runs, run.Maps logical physical) ↔
          MapsTo read perBlock ReadLeaf extents area logical physical) ∧
    (¬ Complete read perBlock extents area → blockMap read perBlock extents area = none) := by
  rcases extents with - | -
  · refine ⟨fun h => ⟨_, blockMap_indirect read perBlock harea.ge h, fun logical physical => ?_⟩,
      blockMap_indirect_none read perBlock⟩
    exact mem_runsFrom (fun index => pointerAt_none read perBlock area) logical physical
  · refine ⟨fun h => ?_, fun h => extentRuns_none h []⟩
    obtain ⟨found, hfound, hmem⟩ := extentRuns_headed h
    refine ⟨found, hfound [], fun logical physical => ?_⟩
    constructor
    · rintro ⟨run, hrun, hmaps⟩
      obtain ⟨level, slot, hlevel, hleaf, hslot, rfl⟩ := (hmem run).mp hrun
      exact ⟨level, slot, hleaf, ⟨Nat.le_of_lt_succ hlevel, hslot⟩, hmaps⟩
    · rintro ⟨level, slot, hleaf, ⟨hlevel, hslot⟩, hmaps⟩
      exact ⟨_, (hmem _).mpr ⟨level, slot, Nat.lt_succ_of_le hlevel, hleaf, hslot, rfl⟩, hmaps⟩

/-! ### Small trees -/

/-- A node with one entry. -/
def nodeOf (depth : UInt8) (slot : Bytes) : Bytes :=
  [0x0A, 0xF3, 1, 0, 4, 0, depth, 0, 0, 0, 0, 0] ++ slot

/-- An extent of one block, initialised or not. -/
def leafSlot (initialized : Bool) : Bytes :=
  [0, 0, 0, 0, 1, if initialized then 0 else 128, 0, 0, 9, 0, 0, 0]

def innerSlot (child : UInt8) : Bytes := [0, 0, 0, 0, child, 0, 0, 0, 0, 0, 0, 0]

/-- The block area of an inode with one node in it. -/
def areaOf (node : Bytes) : Bytes := node ++ List.replicate 36 0

/-- Six nodes below each other, the last one with an extent. -/
def deepTree (block : ℕ) : Option Bytes :=
  if block = 6 then some (nodeOf 0 (leafSlot true))
  else some (nodeOf 1 (innerSlot (UInt8.ofNat (block + 1))))

/-- Direct pointers to two blocks with a hole between them. -/
def holeArea : Bytes := [5, 0, 0, 0, 0, 0, 0, 0, 7, 0, 0, 0] ++ List.replicate 48 0

theorem holeArea_maps : ∃ runs, blockMap (fun _ => none) 256 false holeArea = some runs ∧
    ∀ logical physical, (∃ run ∈ runs, run.Maps logical physical) ↔
      MapsTo (fun _ => none) 256 ReadLeaf false holeArea logical physical := by
  refine (blockMap_maps (fun _ => none) 256 false holeArea (by decide)).1 ?_
  intro level hlevel
  refine .inl ?_
  rcases level with - | - | - | level
  · decide
  · decide
  · decide
  · omega

/-- An extent that is not initialised is left out, and so is one six levels below the inode. -/
theorem leftOut_not_maps :
    (¬ ∃ runs, blockMap (fun _ => none) 256 true (areaOf (nodeOf 0 (leafSlot false))) = some runs ∧
      ∀ logical physical, (∃ run ∈ runs, run.Maps logical physical) ↔
        MapsTo (fun _ => none) 256 AnyLeaf true (areaOf (nodeOf 0 (leafSlot false)))
          logical physical) ∧
    ¬ ∃ runs, blockMap deepTree 256 true (areaOf (nodeOf 1 (innerSlot 1))) = some runs ∧
      ∀ logical physical, (∃ run ∈ runs, run.Maps logical physical) ↔
        MapsTo deepTree 256 AnyLeaf true (areaOf (nodeOf 1 (innerSlot 1))) logical physical := by
  have hmaps : ∀ initialized, (extentRun (leafSlot initialized)).Maps 0 9 := by
    intro initialized
    cases initialized <;> exact ⟨by decide, by decide, by decide⟩
  constructor
  · rintro ⟨runs, hruns, h⟩
    have hempty : blockMap (fun _ => none) 256 true (areaOf (nodeOf 0 (leafSlot false))) = some [] := by
      decide
    cases hempty.symm.trans hruns
    obtain ⟨run, hrun, -⟩ := (h 0 9).mpr
      ⟨0, leafSlot false, .here (by decide) (by decide) (by decide), trivial, hmaps false⟩
    cases hrun
  · rintro ⟨runs, hruns, h⟩
    have hempty : blockMap deepTree 256 true (areaOf (nodeOf 1 (innerSlot 1))) = some [] := by
      decide +kernel
    cases hempty.symm.trans hruns
    have hstep : ∀ (child : UInt8) {level : ℕ} {node : Bytes},
        innerSlot child ∈ slotsOf (nodeOf 1 (innerSlot child)) →
          deepTree (childOf (innerSlot child)) = some node →
            LeafOf deepTree level node (leafSlot true) →
              LeafOf deepTree (level + 1) (nodeOf 1 (innerSlot child)) (leafSlot true) :=
      fun _ _ _ hslot => .deeper rfl (by decide : (1 : ℕ) ≠ 0) hslot
    have hfive : LeafOf deepTree 5 (nodeOf 1 (innerSlot 2)) (leafSlot true) :=
      hstep 2 (by decide) rfl <| hstep 3 (by decide) rfl <| hstep 4 (by decide) rfl <|
        hstep 5 (by decide) rfl <| hstep 6 (by decide) rfl <|
          .here (by decide) (by decide) (by decide)
    have hroot : innerSlot 1 ∈ slotsOf (areaOf (nodeOf 1 (innerSlot 1))) := by decide
    obtain ⟨run, hrun, -⟩ := (h 0 9).mpr
      ⟨6, leafSlot true, .deeper (by decide) (by decide) hroot rfl hfive, trivial, hmaps true⟩
    cases hrun

end Kairon.Disk
