/-
Kairon/Upload/Capacity.lean

Is there room for a memory image, and how large may it be?

An upload needs room in three places: where it is staged, where it ends up, and where the output
of the plugins goes.  Places on one device share its free space.  `accepted_iff` says what the
evaluation comes to: on the device of each place, the safety margin and what the places on it need
are at most what is free.  More bytes never need less, so bisection finds the largest size there
is room for, as long as it stays within the sizes that the evaluation admits: a candidate above
64 GiB raises (`recommends_iff`).
-/
import Kairon.Lib.Dict
import Kairon.Lib.Largest
import Mathlib.Data.List.Dedup
import Mathlib.Algebra.Order.Ring.Int

namespace Kairon.Upload

/-- `GIB`. -/
def gib : ℤ := 1024 * 1024 * 1024

/-- `SAFETY_MARGIN_BYTES`. -/
def safetyMarginBytes : ℤ := 2 * gib

/-- `MIN_OUTPUT_ALLOWANCE_BYTES`, the least value of the output allowance. -/
def minOutputAllowanceBytes : ℤ := 256 * 1024 * 1024

/-- `MAX_SELECTED_SIZE_BYTES`. -/
def maxSelectedSizeBytes : ℤ := 64 * gib

inductive CapacityPhase
  | preUpload
  | streaming
  | finalization

structure FilesystemSnapshot where
  device : ℕ
  availableBytes : ℤ

/-- The snapshots of the three roles. -/
structure Snapshots where
  staging : FilesystemSnapshot
  final : FilesystemSnapshot
  output : FilesystemSnapshot

/-- `snapshots.values()`. -/
def Snapshots.values (s : Snapshots) : List FilesystemSnapshot := [s.staging, s.final, s.output]

/-- `same_filesystem`. -/
def Snapshots.sameFilesystem (s : Snapshots) : Bool := s.staging.device = s.final.device

structure CapacityDecision where
  accepted : Bool
  phase : CapacityPhase
  selectedSizeBytes : ℤ
  bytesAlreadyStaged : ℤ
  stagingAvailableBytes : ℤ
  finalAvailableBytes : ℤ
  outputAvailableBytes : ℤ
  stagingAndFinalSameFilesystem : Bool
  finalizationStrategy : String
  requiredAdditionalBytes : ℤ
  outputAllowanceBytes : ℤ
  safetyMarginBytes : ℤ
  shortfallBytes : ℤ
  requirementsByDevice : List (ℕ × ℤ)

/-- The `ValueError`s. -/
inductive CapacityFault
  | notPositive
  | tooLarge
  | stagedOutside
  deriving DecidableEq

/-! ### The evaluation -/

/-- One turn of the loop over the snapshots: the least free space of a device. -/
def noteAvailable (available : List (ℕ × ℤ)) (snapshot : FilesystemSnapshot) : List (ℕ × ℤ) :=
  Dict.set snapshot.device
    (min ((Dict.get available snapshot.device).getD snapshot.availableBytes)
      snapshot.availableBytes) available

/-- `available`. -/
def Snapshots.available (s : Snapshots) : List (ℕ × ℤ) := s.values.foldl noteAvailable []

/-- `require` of a role, by its snapshot. -/
def require (snapshot : FilesystemSnapshot) (amount : ℤ) (requirements : List (ℕ × ℤ)) :
    List (ℕ × ℤ) :=
  Dict.set snapshot.device ((Dict.get requirements snapshot.device).getD 0 + max 0 amount)
    requirements

/-- The margin of every involved device.  The order of a set is left open in the source. -/
def Snapshots.margins (s : Snapshots) : List (ℕ × ℤ) :=
  (s.values.map FilesystemSnapshot.device).dedup.map fun device => (device, safetyMarginBytes)

/-- What the phase requires for the image itself. -/
def Snapshots.requireImage (s : Snapshots) (phase : CapacityPhase) (selected staged : ℤ)
    (requirements : List (ℕ × ℤ)) : List (ℕ × ℤ) :=
  match phase with
  | .preUpload =>
    let requirements := require s.staging selected requirements
    if !s.sameFilesystem then require s.final selected requirements else requirements
  | .streaming =>
    let requirements := require s.staging (selected - staged) requirements
    if !s.sameFilesystem then require s.final selected requirements else requirements
  | .finalization =>
    if !s.sameFilesystem then require s.final selected requirements else requirements

/-- `requirements`, complete. -/
def Snapshots.requirements (s : Snapshots) (allowance : ℤ) (phase : CapacityPhase)
    (selected staged : ℤ) : List (ℕ × ℤ) :=
  require s.output allowance (s.requireImage phase selected staged s.margins)

/-- `shortfall`; every device has a snapshot. -/
def Snapshots.shortfall (s : Snapshots) (requirements : List (ℕ × ℤ)) : ℤ :=
  ((requirements.map fun entry =>
    entry.2 - (Dict.get s.available entry.1).getD 0).max?).getD 0

/-- `evaluate_memory_upload_capacity`, of what it finds on the disks and of the output
allowance. -/
def evaluateMemoryUploadCapacity (s : Snapshots) (allowance selected : ℤ) (phase : CapacityPhase)
    (staged : ℤ) : Except CapacityFault CapacityDecision :=
  if selected ≤ 0 then .error .notPositive
  else if selected > maxSelectedSizeBytes then .error .tooLarge
  else if staged < 0 ∨ staged > selected then .error .stagedOutside
  else
    let requirements := s.requirements allowance phase selected staged
    let shortfall := s.shortfall requirements
    .ok {
      accepted := shortfall ≤ 0
      phase := phase
      selectedSizeBytes := selected
      bytesAlreadyStaged := staged
      stagingAvailableBytes := s.staging.availableBytes
      finalAvailableBytes := s.final.availableBytes
      outputAvailableBytes := s.output.availableBytes
      stagingAndFinalSameFilesystem := s.sameFilesystem
      finalizationStrategy := if s.sameFilesystem then "atomic_rename" else "staged_copy"
      requiredAdditionalBytes := ((requirements.map Prod.snd).max?).getD 0
      outputAllowanceBytes := allowance
      safetyMarginBytes := safetyMarginBytes
      shortfallBytes := max 0 shortfall
      requirementsByDevice := requirements }

/-- The test of the bisection. -/
def acceptedBeforeUpload (s : Snapshots) (allowance : ℤ) (candidate : ℕ) :
    Except CapacityFault Bool :=
  (evaluateMemoryUploadCapacity s allowance candidate .preUpload 0).map CapacityDecision.accepted

/-- `recommended_memory_upload_bytes`. -/
def recommendedMemoryUploadBytes (s : Snapshots) (allowance maxUploadBytes : ℤ) :
    Except CapacityFault ℕ :=
  Largest.search (acceptedBeforeUpload s allowance) 0 (max 0 maxUploadBytes).toNat

/-! ### Room on a device -/

/-- What the places on a device need for an image that is not there yet. -/
def Snapshots.load (s : Snapshots) (allowance selected : ℤ) (device : ℕ) : ℤ :=
  safetyMarginBytes + (if s.staging.device = device then selected else 0) +
    (if s.final.device = device ∧ s.staging.device ≠ s.final.device then selected else 0) +
    (if s.output.device = device then max 0 allowance else 0)

/-- There is room: no device is asked for more than is free on it. -/
def Snapshots.Fits (s : Snapshots) (allowance selected : ℤ) : Prop :=
  ∀ snapshot ∈ s.values, s.load allowance selected snapshot.device ≤ snapshot.availableBytes

instance (s : Snapshots) (allowance selected : ℤ) : Decidable (s.Fits allowance selected) :=
  inferInstanceAs (Decidable (∀ snapshot ∈ s.values, _))

/-- More bytes never need less. -/
theorem Snapshots.Fits.anti {s : Snapshots} {allowance a b : ℤ} (hle : a ≤ b)
    (h : s.Fits allowance b) : s.Fits allowance a := by
  intro snapshot hmem
  refine le_trans ?_ (h snapshot hmem)
  unfold load
  split_ifs
  all_goals omega

/-! ### What the evaluation comes to -/

/-- What a dictionary of free space says of a device: the least value noted so far. -/
theorem le_noteAvailable {available : List (ℕ × ℤ)} {snapshots : List FilesystemSnapshot}
    {device : ℕ} (h : (∃ x ∈ snapshots, x.device = device) ∨
      ∃ bytes, Dict.get available device = some bytes) :
    ∃ bytes, Dict.get (snapshots.foldl noteAvailable available) device = some bytes ∧
      ∀ r, r ≤ bytes ↔ (∀ noted, Dict.get available device = some noted → r ≤ noted) ∧
        ∀ x ∈ snapshots, x.device = device → r ≤ x.availableBytes := by
  induction snapshots generalizing available with
  | nil =>
    obtain ⟨x, hx, -⟩ | ⟨bytes, hbytes⟩ := h
    · cases hx
    · refine ⟨bytes, hbytes, fun r => ⟨fun hr => ⟨?_, ?_⟩, fun hr => hr.1 bytes hbytes⟩⟩
      · intro noted hnoted
        rw [hbytes] at hnoted
        cases hnoted
        exact hr
      · intro x hx
        cases hx
  | cons x snapshots ih =>
    have hget := Dict.get_set x.device device
      (min ((Dict.get available x.device).getD x.availableBytes) x.availableBytes) available
    rw [List.foldl_cons]
    by_cases hx : x.device = device
    · subst hx
      rw [if_pos rfl] at hget
      obtain ⟨bytes, hbytes, hle⟩ := @ih (noteAvailable available x) (.inr ⟨_, hget⟩)
      refine ⟨bytes, hbytes, fun r => (hle r).trans ?_⟩
      rw [noteAvailable, hget, List.forall_mem_cons]
      rcases hnoted : Dict.get available x.device with - | noted
      · simp
      · simp only [Option.some.injEq, forall_eq', Option.getD_some, le_min_iff, true_implies,
          and_assoc]
    · rw [if_neg hx] at hget
      have hlater : (∃ y ∈ snapshots, y.device = device) ∨
          ∃ bytes, Dict.get (noteAvailable available x) device = some bytes := by
        obtain ⟨y, hy, hdevice⟩ | ⟨bytes, hbytes⟩ := h
        · rcases List.mem_cons.1 hy with rfl | hy
          · exact absurd hdevice hx
          · exact .inl ⟨y, hy, hdevice⟩
        · exact .inr ⟨bytes, by rw [noteAvailable, hget, hbytes]⟩
      obtain ⟨bytes, hbytes, hle⟩ := ih hlater
      refine ⟨bytes, hbytes, fun r => (hle r).trans ?_⟩
      rw [noteAvailable, hget, List.forall_mem_cons]
      simp only [hx, false_implies, true_and]

section Requirements

variable {s : Snapshots} {allowance selected : ℤ} {device : ℕ}

/-- What is free on a device: what its snapshots say, the least of them. -/
theorem le_available_iff (h : device ∈ s.values.map FilesystemSnapshot.device) (r : ℤ) :
    r ≤ (Dict.get s.available device).getD 0 ↔
      ∀ x ∈ s.values, x.device = device → r ≤ x.availableBytes := by
  obtain ⟨bytes, hbytes, hle⟩ := @le_noteAvailable [] s.values device
    (.inl (List.mem_map.1 h))
  rw [Snapshots.available, hbytes, Option.getD_some, hle]
  exact and_iff_right fun noted hnoted => by cases hnoted

theorem get_require (snapshot : FilesystemSnapshot) (amount : ℤ) (requirements : List (ℕ × ℤ)) :
    Dict.get (require snapshot amount requirements) device = if snapshot.device = device then
        some ((Dict.get requirements device).getD 0 + max 0 amount)
      else Dict.get requirements device := by
  rw [require, Dict.get_set]
  by_cases h : snapshot.device = device
  · rw [if_pos h, if_pos h, h]
  · rw [if_neg h, if_neg h]

variable {requirements : List (ℕ × ℤ)}

theorem nodup_keys_require (snapshot : FilesystemSnapshot) (amount : ℤ)
    (h : (requirements.map Prod.fst).Nodup) :
    ((require snapshot amount requirements).map Prod.fst).Nodup :=
  Dict.nodup_keys_set _ _ h

theorem keys_margins : s.margins.map Prod.fst = (s.values.map FilesystemSnapshot.device).dedup := by
  rw [Snapshots.margins, List.map_map]
  exact List.map_id _

theorem get_margins : Dict.get s.margins device =
    if device ∈ s.values.map FilesystemSnapshot.device then some safetyMarginBytes else none := by
  have hnodup : (s.margins.map Prod.fst).Nodup := by
    rw [keys_margins]
    exact List.nodup_dedup _
  by_cases h : device ∈ s.values.map FilesystemSnapshot.device
  · rw [if_pos h, Dict.get_eq_some hnodup]
    exact List.mem_map.2 ⟨device, List.mem_dedup.2 h, rfl⟩
  · rw [if_neg h, Dict.get_eq_none, keys_margins, List.mem_dedup]
    exact h

/-- Before the upload a device is asked for its load, if it is involved at all. -/
theorem get_requirements (hselected : 0 ≤ selected) :
    Dict.get (s.requirements allowance .preUpload selected 0) device =
      if device ∈ s.values.map FilesystemSnapshot.device then
        some (s.load allowance selected device)
      else none := by
  have hmax : max 0 selected = selected := max_eq_right hselected
  by_cases hmem : device ∈ s.values.map FilesystemSnapshot.device
  · have hmargin := @get_margins s device
    rw [if_pos hmem] at hmargin ⊢
    rw [Snapshots.requirements, get_require, Snapshots.requireImage, Snapshots.load]
    by_cases hsame : s.staging.device = s.final.device
    · have hflag : s.sameFilesystem = true := decide_eq_true hsame
      simp only [hflag, Bool.not_true, Bool.false_eq_true, if_false, get_require, hmargin, hmax,
        hsame, ne_eq, not_true_eq_false, and_false]
      split_ifs
      all_goals simp
    · have hflag : s.sameFilesystem = false := decide_eq_false hsame
      simp only [hflag, Bool.not_false, if_true, get_require, hmargin, hmax, ne_eq, hsame,
        not_false_eq_true, and_true]
      split_ifs
      all_goals simp
  · have hmargin := @get_margins s device
    rw [if_neg hmem] at hmargin ⊢
    simp only [Snapshots.values, List.map_cons, List.map_nil, List.mem_cons, List.not_mem_nil,
      or_false, not_or] at hmem
    obtain ⟨hstaging, hfinal, houtput⟩ := hmem
    rw [Snapshots.requirements, get_require, if_neg (Ne.symm houtput), Snapshots.requireImage]
    split
    · rw [get_require, if_neg (Ne.symm hfinal), get_require, if_neg (Ne.symm hstaging), hmargin]
    · rw [get_require, if_neg (Ne.symm hstaging), hmargin]

theorem nodup_keys_requirements :
    ((s.requirements allowance .preUpload selected 0).map Prod.fst).Nodup := by
  have hmargins : (s.margins.map Prod.fst).Nodup := by
    rw [keys_margins]
    exact List.nodup_dedup _
  refine nodup_keys_require _ _ ?_
  rw [Snapshots.requireImage]
  split
  · exact nodup_keys_require _ _ (nodup_keys_require _ _ hmargins)
  · exact nodup_keys_require _ _ hmargins

/-- There is no shortfall exactly if every requirement is met. -/
theorem shortfall_nonpos_iff : s.shortfall requirements ≤ 0 ↔
      ∀ entry ∈ requirements, entry.2 ≤ (Dict.get s.available entry.1).getD 0 := by
  unfold Snapshots.shortfall
  cases hmax : (requirements.map fun entry =>
      entry.2 - (Dict.get s.available entry.1).getD 0).max? with
  | none =>
    rw [List.max?_eq_none_iff, List.map_eq_nil_iff] at hmax
    subst hmax
    exact iff_of_true le_rfl fun entry h => by cases h
  | some largest =>
    rw [Option.getD_some, List.max?_le_iff hmax, List.forall_mem_map]
    simp only [sub_nonpos]

/-- The evaluation accepts what there is room for. -/
theorem accepted_iff (hselected : 0 ≤ selected) :
    s.shortfall (s.requirements allowance .preUpload selected 0) ≤ 0 ↔
      s.Fits allowance selected := by
  rw [shortfall_nonpos_iff]
  constructor
  · intro h snapshot hmem
    have hdevice : snapshot.device ∈ s.values.map FilesystemSnapshot.device :=
      List.mem_map_of_mem hmem
    have hget := @get_requirements s allowance selected snapshot.device hselected
    rw [if_pos hdevice] at hget
    exact (le_available_iff hdevice _).1 (h _ (Dict.mem_of_get hget)) snapshot hmem rfl
  · rintro h ⟨device, amount⟩ hentry
    have hget := Dict.get_of_mem nodup_keys_requirements hentry
    rw [get_requirements hselected] at hget
    split at hget
    · next hdevice =>
        have hload : s.load allowance selected device = amount := by simpa using hget
        rw [← hload]
        refine (le_available_iff hdevice _).2 fun x hx heq => ?_
        have hroom := h x hx
        rw [heq] at hroom
        exact hroom
    · cases hget

end Requirements

/-! ### The recommendation -/

section Recommendation

variable (s : Snapshots) (allowance maxUploadBytes : ℤ)

/-- The evaluation admits the sizes from 1 to 64 GiB, and accepts what there is room for. -/
theorem acceptedBeforeUpload_decides :
    Largest.Decides (acceptedBeforeUpload s allowance) (fun n => s.Fits allowance n)
      maxSelectedSizeBytes.toNat .tooLarge := by
  have hlimit : ((maxSelectedSizeBytes.toNat : ℕ) : ℤ) = maxSelectedSizeBytes := by decide
  -- what the evaluation gives inside the limit
  have hinside : ∀ n : ℕ, 0 < n → n ≤ maxSelectedSizeBytes.toNat →
      acceptedBeforeUpload s allowance n =
        .ok (decide (s.shortfall (s.requirements allowance .preUpload n 0) ≤ 0)) := by
    intro n hpos hn
    have hsmall : ¬ (n : ℤ) > maxSelectedSizeBytes := by omega
    rw [acceptedBeforeUpload, evaluateMemoryUploadCapacity, if_neg (by omega), if_neg hsmall,
      if_neg (by omega)]
    rfl
  refine ⟨fun n hpos hn hfits => ?_, fun n hpos hn hfits => ?_, fun n hn => ?_,
    fun m n hle => Snapshots.Fits.anti (by omega)⟩
  · rw [hinside n hpos hn, decide_eq_true ((accepted_iff (by omega)).2 hfits)]
  · rw [hinside n hpos hn, decide_eq_false fun h => hfits ((accepted_iff (by omega)).1 h)]
  · rw [acceptedBeforeUpload, evaluateMemoryUploadCapacity, if_neg (by omega), if_pos (by omega)]
    rfl

/-- The size is 0, or one that the evaluation accepts before the upload. -/
def Acceptable (n : ℕ) : Prop :=
  n = 0 ∨ ∃ decision, evaluateMemoryUploadCapacity s allowance n .preUpload 0 = .ok decision ∧
    decision.accepted = true

/-- The recommended size is there and is the largest acceptable one up to the limit that is asked
for; a negative limit leaves no size but 0. -/
def RecommendsLargest : Prop :=
  ∃ n, recommendedMemoryUploadBytes s allowance maxUploadBytes = .ok n ∧
    IsGreatest {n : ℕ | (n : ℤ) ≤ max 0 maxUploadBytes ∧ Acceptable s allowance n} n

/-- The size tried after `k` acceptances. -/
def probedSize (k : ℕ) : ℤ := maxUploadBytes - maxUploadBytes / 2 ^ (k + 1)

variable {s allowance maxUploadBytes}

theorem acceptable_iff {n : ℕ} :
    Acceptable s allowance n ↔ n = 0 ∨ acceptedBeforeUpload s allowance n = .ok true := by
  unfold Acceptable acceptedBeforeUpload
  rcases evaluateMemoryUploadCapacity s allowance n .preUpload 0 with e | decision
  · simp [Except.map]
  · simp [Except.map]

theorem probe_eq_probedSize (h : 0 ≤ maxUploadBytes) (k : ℕ) :
    ((Largest.probe 0 maxUploadBytes.toNat k : ℕ) : ℤ) = probedSize maxUploadBytes k := by
  obtain ⟨limit, rfl⟩ := Int.eq_ofNat_of_zero_le h
  have hle : limit / 2 ^ (k + 1) ≤ limit := Nat.div_le_self _ _
  rw [Largest.probe, probedSize, Int.toNat_natCast, Nat.sub_zero]
  push_cast [Nat.cast_sub hle]
  rfl

/-- **The recommended size is the largest acceptable one** if the limit is at most 64 GiB, or if
one of the sizes that are tried as long as all are accepted is at most 64 GiB and there is no room
for it; otherwise the recommendation raises. -/
theorem recommends_iff : RecommendsLargest s allowance maxUploadBytes ↔
      maxUploadBytes ≤ maxSelectedSizeBytes ∨
      ∃ k, probedSize maxUploadBytes k ≤ maxSelectedSizeBytes ∧
        ¬ s.Fits allowance (probedSize maxUploadBytes k) := by
  have hlimit : ((maxSelectedSizeBytes.toNat : ℕ) : ℤ) = maxSelectedSizeBytes := by decide
  have hset : {n : ℕ | (n : ℤ) ≤ max 0 maxUploadBytes ∧ Acceptable s allowance n} =
      Largest.Admitted (acceptedBeforeUpload s allowance) (max 0 maxUploadBytes).toNat := by
    ext n
    have hbound : (n : ℤ) ≤ max 0 maxUploadBytes ↔ n ≤ (max 0 maxUploadBytes).toNat := by omega
    show (n : ℤ) ≤ max 0 maxUploadBytes ∧ Acceptable s allowance n ↔
      n ≤ (max 0 maxUploadBytes).toNat ∧ (n = 0 ∨ acceptedBeforeUpload s allowance n = .ok true)
    rw [hbound, acceptable_iff]
  rw [RecommendsLargest, hset, recommendedMemoryUploadBytes,
    Largest.search_greatest_iff (acceptedBeforeUpload_decides s allowance)]
  obtain hneg | hnonneg := lt_or_ge maxUploadBytes 0
  · have hgib : (0 : ℤ) ≤ maxSelectedSizeBytes := by decide
    exact iff_of_true (.inl (by omega)) (.inl (by omega))
  · rw [max_eq_right hnonneg]
    refine or_congr (by omega) (exists_congr fun k => ?_)
    rw [← probe_eq_probedSize hnonneg]
    exact and_congr_left fun _ => by omega

/-- A disk with a free gibibyte for all three roles. -/
def oneDisk : Snapshots := ⟨⟨7, gib⟩, ⟨7, gib⟩, ⟨7, gib⟩⟩

/-- Asked for 256 GiB at most, the recommendation raises: the first size tried is 128 GiB. -/
theorem oneDisk_not_recommends :
    recommendedMemoryUploadBytes oneDisk minOutputAllowanceBytes (256 * gib) = .error .tooLarge ∧
      ¬ RecommendsLargest oneDisk minOutputAllowanceBytes (256 * gib) := by
  have hraises : recommendedMemoryUploadBytes oneDisk minOutputAllowanceBytes (256 * gib) =
      .error .tooLarge :=
    Largest.search_raises (by decide) (by decide +kernel)
  refine ⟨hraises, ?_⟩
  rintro ⟨n, hn, -⟩
  rw [hraises] at hn
  cases hn

end Recommendation

end Kairon.Upload
