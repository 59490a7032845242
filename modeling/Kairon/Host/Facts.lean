/-
Kairon/Host/Facts.lean

Host facts (`host_facts.py`): what evidences say about a host, with a status on
every stored observation.

The status of a row is a verdict on its whole group, the observations of one
fact about one host.  `create_host_fact_observations` writes it again for the
groups it adds to; `delete_host_facts_for_evidence` takes rows away and writes
nothing.  `_resolve_group` computes a verdict of its own at read time.

`StatusesTrue` says that the fingerprints are unique and that every status is
the one the group dictates (`dictated`).  It is kept by a call that brings no
fingerprint twice (`create_statusesTrue_iff`) and by a deletion that spares the
verdicts (`delete_statusesTrue_iff`), so that it holds along every run of such
steps (`Reached.statusesTrue`).

`F` is the type of the digests, `R` that of the columns nothing here reads
(parser, source path, event id, provenance, time); `str.lower` is a parameter.
-/
import Mathlib
import Kairon.Search.Syntax

namespace Kairon.Host

open Search (Text strip)

variable {F R : Type}

/-! ### Facts -/

inductive FactStatus
  | confirmed | observed | conflicting | invalid
  deriving DecidableEq

/-- A row of `host_facts`.  No text in an optional column is empty. -/
structure HostFact (F R : Type) where
  caseId : Text
  evidenceId : Text
  artifactId : Option Text
  hostId : Option Text
  factType : Text
  sourceKind : Text
  rawValue : Option Text
  normalizedValue : Option Text
  confidence : Text
  status : FactStatus
  fingerprint : F
  rest : R

/-- The `host_fact` part of a document, with what else of it goes into the row. -/
structure Document (R : Type) where
  factType : Option Text
  artifactType : Option Text
  rawValue : Option Text
  normalizedValue : Option Text
  confidence : Option Text
  parseStatus : Option Text
  rest : R

/-- `str(value or "")` -/
def textOf (value : Option Text) : Text := value.getD []

/-- `text or None` -/
def orNone (text : Text) : Option Text := if text = [] then none else some text

/-! ### Comparing values -/

def factHostname : Text := "host.hostname".toList
def factFqdn : Text := "host.fqdn".toList
def factDistribution : Text := "host.distribution".toList
def factDistributionVersion : Text := "host.distribution_version".toList
def factKernel : Text := "host.kernel".toList
def factArchitecture : Text := "host.architecture".toList
def factTypeTimezone : Text := "host.timezone".toList

/-- `_CASE_INSENSITIVE_FACT_TYPES` -/
def caseInsensitiveFactTypes : List Text := [factHostname, factFqdn]

/-- `normalize_host_fact_value` -/
def normalizeHostFactValue (lower : Text → Text) (factType value : Text) : Text :=
  if factType ∈ caseInsensitiveFactTypes then lower (strip value) else strip value

/-- The comparison keys of the rows with a value. -/
def keysOf (lower : Text → Text) (factType : Text) (rows : List (HostFact F R)) : List Text :=
  (rows.filterMap HostFact.normalizedValue).map (normalizeHostFactValue lower factType)

/-! ### Groups and their statuses -/

/-- The filter of `_group_query`. -/
def inGroup (caseId : Text) (hostId : Option Text) (evidenceId factType : Text)
    (row : HostFact F R) : Prop :=
  row.caseId = caseId ∧ row.factType = factType ∧ match hostId with
    | some h => row.hostId = some h
    | none => row.hostId = none ∧ row.evidenceId = evidenceId

instance (caseId : Text) (hostId : Option Text) (evidenceId factType : Text)
    (row : HostFact F R) : Decidable (inGroup caseId hostId evidenceId factType row) :=
  match hostId with
  | some _ => inferInstanceAs (Decidable (_ ∧ _ ∧ _))
  | none => inferInstanceAs (Decidable (_ ∧ _ ∧ _ ∧ _))

/-- What `_recompute_group_status` gives a row of the group. -/
def groupStatus (lower : Text → Text) (factType : Text) (group : List (HostFact F R))
    (row : HostFact F R) : FactStatus :=
  if row.normalizedValue = none then .invalid
  else if (keysOf lower factType group).dedup.length = 1 then
    if 1 < (keysOf lower factType group).length then .confirmed else .observed
  else .conflicting

/-- `_recompute_group_status` for the group of one fact. -/
def recomputeGroup (lower : Text → Text) (caseId : Text) (hostId : Option Text)
    (evidenceId factType : Text) (rows : List (HostFact F R)) : List (HostFact F R) :=
  let group := rows.filter fun row => inGroup caseId hostId evidenceId factType row
  rows.map fun row =>
    if inGroup caseId hostId evidenceId factType row then
      { row with status := groupStatus lower factType group row }
    else row

/-! ### Adding and deleting -/

/-- The arguments of `create_host_fact_observations`; the time goes into what is
kept of the documents. -/
structure Observations (R : Type) where
  caseId : Text
  evidenceId : Text
  artifactId : Option Text
  hostId : Option Text
  documents : List (Document R)

/-- `build_host_fact_fingerprint`, before the digest. -/
def fingerprintBlob (caseId evidenceId : Text) (artifactId : Option Text)
    (factType sourceKind rawValue : Text) : Text :=
  List.intercalate ['|']
    [caseId, evidenceId, textOf artifactId, factType, sourceKind, rawValue]

/-- The row that is made of a document that names a fact. -/
def newFact (digest : Text → F) (args : Observations R) (doc : Document R) : HostFact F R where
  caseId := args.caseId
  evidenceId := args.evidenceId
  artifactId := args.artifactId
  hostId := args.hostId
  factType := strip (textOf doc.factType)
  sourceKind := textOf doc.artifactType
  rawValue := orNone (textOf doc.rawValue)
  normalizedValue := orNone (strip (textOf doc.normalizedValue))
  confidence := (doc.confidence.bind orNone).getD "medium".toList
  status := if textOf doc.parseStatus = "valid".toList then .observed else .invalid
  fingerprint := digest (fingerprintBlob args.caseId args.evidenceId args.artifactId
    (strip (textOf doc.factType)) (textOf doc.artifactType) (textOf doc.rawValue))
  rest := doc.rest

section Adding

variable [DecidableEq F]

/-- `created`: the documents that name a fact and whose fingerprint is not stored.
The session does not flush, so the query never sees the rows of this call. -/
def createdFacts (digest : Text → F) (args : Observations R) (rows : List (HostFact F R)) :
    List (HostFact F R) :=
  ((args.documents.filter fun doc => strip (textOf doc.factType) ≠ []).map
    (newFact digest args)).filter fun row => row.fingerprint ∉ rows.map HostFact.fingerprint

/-- `create_host_fact_observations` -/
def createHostFactObservations (lower : Text → Text) (digest : Text → F) (args : Observations R)
    (rows : List (HostFact F R)) : List (HostFact F R) :=
  let created := createdFacts digest args rows
  let touchedGroups := (created.map HostFact.factType).dedup
  if created = [] then rows
  else touchedGroups.foldl (fun rows factType =>
    recomputeGroup lower args.caseId args.hostId args.evidenceId factType rows) (rows ++ created)

end Adding

/-- `delete_host_facts_for_evidence` -/
def deleteHostFactsForEvidence (evidenceId : Text) (rows : List (HostFact F R)) :
    List (HostFact F R) :=
  rows.filter fun row => row.evidenceId ≠ evidenceId

/-! ### Reading -/

/-- `_SOURCE_PRIORITY` -/
def sourcePriorities : List (Text × Text × ℕ) :=
  [(factTypeTimezone, "etc_timezone".toList, 100), (factTypeTimezone, "timedatectl".toList, 90),
   (factTypeTimezone, "etc_localtime_symlink".toList, 80),
   (factTypeTimezone, "sysconfig_clock".toList, 70),
   (factTypeTimezone, "conf_d_clock".toList, 65),
   (factTypeTimezone, "etc_localtime_tzif".toList, 60),
   (factTypeTimezone, "hostnamectl".toList, 50), (factHostname, "hostname".toList, 100),
   (factHostname, "hostnamectl".toList, 90), (factFqdn, "hostname".toList, 100),
   (factFqdn, "hostnamectl".toList, 90), (factHostname, "evtx_computer_field".toList, 80),
   (factFqdn, "evtx_computer_field".toList, 80), (factDistribution, "os_release".toList, 100),
   (factDistribution, "lsb_release".toList, 80), (factDistribution, "hostnamectl".toList, 60),
   (factDistribution, "debian_version".toList, 40),
   (factDistributionVersion, "os_release".toList, 100),
   (factDistributionVersion, "lsb_release".toList, 80),
   (factDistributionVersion, "debian_version".toList, 70),
   (factDistributionVersion, "hostnamectl".toList, 60), (factKernel, "uname".toList, 100),
   (factKernel, "kernel_version".toList, 90), (factKernel, "hostnamectl".toList, 70),
   (factArchitecture, "uname".toList, 100), (factArchitecture, "kernel_version".toList, 90),
   (factArchitecture, "hostnamectl".toList, 70),
   (factHostname, "system_hive_computername".toList, 90),
   (factTypeTimezone, "system_hive_timezone_key_name".toList, 80),
   (factDistribution, "system_hive_buildlab".toList, 90),
   (factDistribution, "memory_windows_info".toList, 70),
   (factDistributionVersion, "system_hive_buildlab".toList, 90),
   (factDistributionVersion, "memory_windows_info".toList, 70),
   (factArchitecture, "system_hive_buildlab".toList, 90),
   (factArchitecture, "memory_windows_info".toList, 70)]

/-- `_SOURCE_PRIORITY.get((fact_type, source_kind), 0)` -/
def sourcePriority (factType sourceKind : Text) : ℕ :=
  ((sourcePriorities.find? fun entry => entry.1 = factType ∧ entry.2.1 = sourceKind).map
    fun entry => entry.2.2).getD 0

/-- What `_resolve_group` returns; a status of `none` stands for `missing`. -/
structure Resolution (F R : Type) where
  factType : Text
  status : Option FactStatus
  preferredValue : Option Text
  supporting : List (HostFact F R)
  conflicting : List (HostFact F R)
  invalid : List (HostFact F R)
  observations : List (HostFact F R)

/-- Whether a row has a value with this comparison key. -/
def hasKey (lower : Text → Text) (factType : Text) (key : Option Text) (row : HostFact F R) : Bool :=
  row.normalizedValue.map (normalizeHostFactValue lower factType) = key

/-- `_resolve_group` -/
def resolveGroup (lower : Text → Text) (factType : Text) (rows : List (HostFact F R)) :
    Resolution F R :=
  let validRows := rows.filter fun row => row.normalizedValue.isSome
  let invalidRows := rows.filter fun row => row.normalizedValue.isNone
  if rows = [] then
    { factType, status := none, preferredValue := none, supporting := [], conflicting := []
      invalid := [], observations := [] }
  else if validRows = [] then
    { factType, status := some .invalid, preferredValue := none, supporting := []
      conflicting := [], invalid := invalidRows, observations := rows }
  else
    let distinctKeys := (keysOf lower factType rows).dedup
    let preferred := (validRows.argmax fun row => sourcePriority factType row.sourceKind).bind
      HostFact.normalizedValue
    let preferredKey := preferred.map (normalizeHostFactValue lower factType)
    { factType
      status := some (if distinctKeys.length = 1 then
        if 1 < validRows.length then .confirmed else .observed
        else .conflicting)
      preferredValue := preferred
      supporting := validRows.filter (hasKey lower factType preferredKey)
      conflicting := validRows.filter fun row => !hasKey lower factType preferredKey row
      invalid := invalidRows
      observations := rows }

/-- The scope of `resolve_host_facts`: a host comes before an evidence. -/
def inScope (caseId : Text) (hostId evidenceId : Option Text) (row : HostFact F R) : Bool :=
  row.caseId = caseId && match hostId, evidenceId with
    | some h, _ => decide (row.hostId = some h)
    | none, some e => decide (row.evidenceId = e)
    | none, none => true

/-- `resolve_host_facts`; the table is in the order of creation. -/
def resolveHostFacts (lower : Text → Text) (caseId : Text) (hostId evidenceId factType : Option Text)
    (rows : List (HostFact F R)) : List (Resolution F R) :=
  let scope := rows.filter (inScope caseId hostId evidenceId)
  match factType with
  | some t => [resolveGroup lower t (scope.filter fun row => row.factType = t)]
  | none => ((scope.map HostFact.factType).dedup.insertionSort fun a b => a ≤ b).map fun t =>
    resolveGroup lower t (scope.filter fun row => row.factType = t)

/-! ### What the statuses should be -/

/-- The observations of the same fact about the same host; without a host, those of
the same evidence. -/
def groupOf (rows : List (HostFact F R)) (row : HostFact F R) : List (HostFact F R) :=
  rows.filter fun other => inGroup row.caseId row.hostId row.evidenceId row.factType other

/-- The status that the group dictates to a row: invalid without a value,
conflicting if the group holds two different keys, confirmed if it agrees and has
more than one row with a value, observed otherwise. -/
def dictated (lower : Text → Text) (rows : List (HostFact F R)) (row : HostFact F R) : FactStatus :=
  let keys := keysOf lower row.factType (groupOf rows row)
  if row.normalizedValue = none then .invalid
  else if ∃ a ∈ keys, ∃ b ∈ keys, a ≠ b then .conflicting
  else if 1 < keys.length then .confirmed
  else .observed

/-- The statuses are true. -/
structure StatusesTrue (lower : Text → Text) (rows : List (HostFact F R)) : Prop where
  unique : (rows.map HostFact.fingerprint).Nodup
  dictated : ∀ row ∈ rows, row.status = dictated lower rows row
  /-- The status of a row with a value, and of any row of a group without values, is
  the one that is reported for its host. -/
  resolved : ∀ row ∈ rows, ∀ h, row.hostId = some h →
    (row.normalizedValue ≠ none ∨ ∀ other ∈ groupOf rows row, other.normalizedValue = none) →
      ∀ evidenceId, (resolveHostFacts lower row.caseId (some h) evidenceId (some row.factType)
        rows).map Resolution.status = [some row.status]

/-! ### The steps that keep them true -/

section Steps

variable [DecidableEq F]

/-- No two rows of the call have the same fingerprint. -/
def NoRepeats (digest : Text → F) (args : Observations R) (rows : List (HostFact F R)) : Prop :=
  ((createdFacts digest args rows).map HostFact.fingerprint).Nodup

/-- A deletion that spares the verdicts: of a group that keeps a row with a value
it takes no row with a value, or it leaves two different keys, or the group agreed
and it leaves two rows with a value. -/
def Spares (lower : Text → Text) (evidenceId : Text) (rows : List (HostFact F R)) : Prop :=
  ∀ row ∈ deleteHostFactsForEvidence evidenceId rows, row.normalizedValue ≠ none →
    let before := groupOf rows row
    let after := groupOf (deleteHostFactsForEvidence evidenceId rows) row
    (∀ other ∈ before, other.evidenceId = evidenceId → other.normalizedValue = none) ∨
    (∃ a ∈ keysOf lower row.factType after, ∃ b ∈ keysOf lower row.factType after, a ≠ b) ∨
    ((∀ a ∈ keysOf lower row.factType before, ∀ b ∈ keysOf lower row.factType before, a = b) ∧
      1 < (keysOf lower row.factType after).length)

/-- The operations on the table. -/
inductive Operation (R : Type)
  | create (args : Observations R)
  | delete (evidenceId : Text)

/-- What an operation makes of the table. -/
def Operation.apply (lower : Text → Text) (digest : Text → F) (rows : List (HostFact F R)) :
    Operation R → List (HostFact F R)
  | .create args => createHostFactObservations lower digest args rows
  | .delete evidenceId => deleteHostFactsForEvidence evidenceId rows

/-- The condition on an operation and the table before it. -/
def Operation.Careful (lower : Text → Text) (digest : Text → F) (rows : List (HostFact F R)) :
    Operation R → Prop
  | .create args => NoRepeats digest args rows
  | .delete evidenceId => Spares lower evidenceId rows

/-- The tables that are reached by careful operations. -/
inductive Reached (lower : Text → Text) (digest : Text → F) : List (HostFact F R) → Prop
  | empty : Reached lower digest []
  | step {rows : List (HostFact F R)} (h : Reached lower digest rows) (op : Operation R)
      (hcareful : op.Careful lower digest rows) :
      Reached lower digest (op.apply lower digest rows)

end Steps

/-! ### Verdicts -/

variable {keys : List Text}

theorem length_dedup_eq_one_iff (hne : keys ≠ []) :
    keys.dedup.length = 1 ↔ ¬ ∃ a ∈ keys, ∃ b ∈ keys, a ≠ b := by
  constructor
  · rintro hone ⟨a, ha, b, hb, hab⟩
    obtain ⟨c, hc⟩ := List.length_eq_one_iff.1 hone
    have hmem : ∀ x ∈ keys, x = c := fun x hx =>
      List.mem_singleton.1 (hc ▸ List.mem_dedup.2 hx)
    exact hab ((hmem a ha).trans (hmem b hb).symm)
  · intro hsame
    obtain ⟨c, hc⟩ := List.exists_mem_of_ne_nil keys hne
    have hall : ∀ x ∈ keys, x = c := by
      intro x hx
      by_contra hxc
      exact hsame ⟨x, hx, c, hc, hxc⟩
    rw [List.eq_replicate_of_mem hall, List.replicate_dedup]
    · rfl
    · exact fun h => hne (List.eq_nil_of_length_eq_zero h)

variable {lower : Text → Text} {rows : List (HostFact F R)}

theorem mem_keysOf {factType key : Text} :
    key ∈ keysOf lower factType rows ↔ ∃ row ∈ rows, ∃ value, row.normalizedValue = some value ∧
      normalizeHostFactValue lower factType value = key := by
  simp only [keysOf, List.mem_map, List.mem_filterMap]
  constructor
  · rintro ⟨value, ⟨row, hrow, hvalue⟩, hkey⟩
    exact ⟨row, hrow, value, hvalue, hkey⟩
  · rintro ⟨row, hrow, value, hvalue, hkey⟩
    exact ⟨value, ⟨row, hrow, hvalue⟩, hkey⟩

variable {row : HostFact F R}

theorem keysOf_ne_nil {factType : Text} (hrow : row ∈ rows) (hvalue : row.normalizedValue ≠ none) :
    keysOf lower factType rows ≠ [] := by
  obtain ⟨value, hvalue⟩ := Option.ne_none_iff_exists'.1 hvalue
  exact List.ne_nil_of_mem (mem_keysOf.2 ⟨row, hrow, value, hvalue, rfl⟩)

theorem length_keysOf (lower : Text → Text) (factType : Text) (rows : List (HostFact F R)) :
    (keysOf lower factType rows).length =
      (rows.filter fun row => row.normalizedValue.isSome).length := by
  rw [keysOf, List.length_map]
  induction rows with
  | nil => rfl
  | cons row rows ih =>
    rw [List.filterMap_cons, List.filter_cons]
    rcases row.normalizedValue with - | value
    · exact ih
    · simp [ih]

/-- The verdict on a list of keys. -/
def verdict (keys : List Text) : FactStatus :=
  if ∃ a ∈ keys, ∃ b ∈ keys, a ≠ b then .conflicting
  else if 1 < keys.length then .confirmed
  else .observed

theorem dictated_of_value (hvalue : row.normalizedValue ≠ none) :
    dictated lower rows row = verdict (keysOf lower row.factType (groupOf rows row)) :=
  if_neg hvalue

theorem dictated_of_none
    (hvalue : row.normalizedValue = none) : dictated lower rows row = .invalid :=
  if_pos hvalue

/-- What the code computes of a list of keys. -/
theorem ite_length_dedup (hne : keys ≠ []) :
    (if keys.dedup.length = 1 then if 1 < keys.length then FactStatus.confirmed else .observed
      else .conflicting) = verdict keys := by
  rw [verdict]
  by_cases h : ∃ a ∈ keys, ∃ b ∈ keys, a ≠ b
  · rw [if_pos h, if_neg fun hone => (length_dedup_eq_one_iff hne).1 hone h]
  · rw [if_neg h, if_pos ((length_dedup_eq_one_iff hne).2 h)]

/-! ### Groups -/

/-- The host of a row, or its evidence while it has none. -/
def scopeOf (hostId : Option Text) (evidenceId : Text) : Text ⊕ Text :=
  match hostId with
  | some h => .inl h
  | none => .inr evidenceId

/-- What the rows of a group share. -/
def groupKey (row : HostFact F R) : Text × Text × (Text ⊕ Text) :=
  (row.caseId, row.factType, scopeOf row.hostId row.evidenceId)

variable {caseId : Text} {hostId : Option Text}

theorem inGroup_iff {evidenceId factType : Text} : inGroup caseId hostId evidenceId factType row ↔
      groupKey row = (caseId, factType, scopeOf hostId evidenceId) := by
  rw [groupKey, Prod.mk.injEq, Prod.mk.injEq]
  refine and_congr_right fun _ => and_congr_right fun _ => ?_
  rcases hostId with - | h
  · rcases row.hostId with - | h'
    · simp [scopeOf]
    · simp [scopeOf]
  · rcases row.hostId with - | h'
    · simp [scopeOf]
    · simp [scopeOf]

theorem mem_groupOf {row other : HostFact F R} :
    other ∈ groupOf rows row ↔ other ∈ rows ∧ groupKey other = groupKey row := by
  rw [groupOf, List.mem_filter, decide_eq_true_iff, inGroup_iff]
  rfl

theorem self_mem_groupOf (h : row ∈ rows) : row ∈ groupOf rows row := mem_groupOf.2 ⟨h, rfl⟩

theorem groupOf_append (rows new : List (HostFact F R)) (row : HostFact F R) :
    groupOf (rows ++ new) row = groupOf rows row ++ groupOf new row := List.filter_append ..

theorem filter_inGroup {evidenceId factType : Text}
    (h : inGroup caseId hostId evidenceId factType row) (rows : List (HostFact F R)) :
    (rows.filter fun other => inGroup caseId hostId evidenceId factType other) =
      groupOf rows row := by
  refine List.filter_congr fun other _ => ?_
  rw [decide_eq_decide, inGroup_iff, inGroup_iff, ← inGroup_iff.1 h]
  rfl

/-- The status that the code computes for a row of the table is the one its group
dictates. -/
theorem groupStatus_eq_dictated (h : row ∈ rows) :
    groupStatus lower row.factType (groupOf rows row) row = dictated lower rows row := by
  by_cases hvalue : row.normalizedValue = none
  · rw [groupStatus, if_pos hvalue, dictated_of_none hvalue]
  · rw [groupStatus, if_neg hvalue, dictated_of_value hvalue]
    exact ite_length_dedup (keysOf_ne_nil (self_mem_groupOf h) hvalue)

/-! ### Statuses that are written -/

/-- A function that changes nothing but statuses. -/
def OnlyStatus (f : HostFact F R → HostFact F R) : Prop :=
  ∀ row, ∃ status, f row = { row with status := status }

namespace OnlyStatus

variable {f : HostFact F R → HostFact F R} (hf : OnlyStatus f)

include hf

theorem normalizedValue (row : HostFact F R) : (f row).normalizedValue = row.normalizedValue := by
  obtain ⟨status, h⟩ := hf row
  rw [h]

theorem fingerprint (row : HostFact F R) : (f row).fingerprint = row.fingerprint := by
  obtain ⟨status, h⟩ := hf row
  rw [h]

theorem factType (row : HostFact F R) : (f row).factType = row.factType := by
  obtain ⟨status, h⟩ := hf row
  rw [h]

theorem groupKey (row : HostFact F R) : groupKey (f row) = Host.groupKey row := by
  obtain ⟨status, h⟩ := hf row
  rw [h]
  rfl

theorem keysOf (lower : Text → Text) (t : Text) (rows : List (HostFact F R)) :
    keysOf lower t (rows.map f) = Host.keysOf lower t rows := by
  rw [Host.keysOf, Host.keysOf, List.filterMap_map]
  exact congrArg (List.map _) (List.filterMap_congr fun row _ => hf.normalizedValue row)

theorem groupOf (rows : List (HostFact F R)) (row : HostFact F R) :
    groupOf (rows.map f) (f row) = (Host.groupOf rows row).map f := by
  rw [Host.groupOf, Host.groupOf, List.filter_map]
  refine congrArg (List.map f) (List.filter_congr fun other _ => ?_)
  rw [Function.comp_apply, decide_eq_decide, inGroup_iff, inGroup_iff, hf.groupKey]
  show _ = Host.groupKey (f row) ↔ _ = Host.groupKey row
  rw [hf.groupKey]

theorem dictated (lower : Text → Text) (rows : List (HostFact F R)) (row : HostFact F R) :
    dictated lower (rows.map f) (f row) = Host.dictated lower rows row := by
  rw [Host.dictated, Host.dictated, hf.groupOf, hf.factType, hf.keysOf, hf.normalizedValue]

end OnlyStatus

/-- What writing the statuses of some facts makes of a row. -/
def restatus (lower : Text → Text) (caseId : Text) (hostId : Option Text) (evidenceId : Text)
    (factTypes : List Text) (rows : List (HostFact F R)) (row : HostFact F R) : HostFact F R :=
  if row.factType ∈ factTypes ∧ inGroup caseId hostId evidenceId row.factType row then
    { row with status := groupStatus lower row.factType (groupOf rows row) row }
  else row

variable {evidenceId : Text}

variable {factTypes : List Text}

theorem restatus_onlyStatus :
    OnlyStatus (restatus lower caseId hostId evidenceId factTypes rows) := by
  intro row
  rw [restatus]
  split
  · exact ⟨_, rfl⟩
  · exact ⟨row.status, rfl⟩

theorem restatus_pos
    (htype : row.factType ∈ factTypes) (hin : inGroup caseId hostId evidenceId row.factType row) :
    restatus lower caseId hostId evidenceId factTypes rows row =
      { row with status := groupStatus lower row.factType (groupOf rows row) row } :=
  if_pos ⟨htype, hin⟩

theorem restatus_neg
    (h : row.factType ∈ factTypes → ¬ inGroup caseId hostId evidenceId row.factType row) :
    restatus lower caseId hostId evidenceId factTypes rows row = row :=
  if_neg fun hboth => h hboth.1 hboth.2

theorem recomputeGroup_eq (lower : Text → Text) (caseId : Text) (hostId : Option Text)
    (evidenceId factType : Text) (rows : List (HostFact F R)) :
    recomputeGroup lower caseId hostId evidenceId factType rows =
      rows.map (restatus lower caseId hostId evidenceId [factType] rows) := by
  rw [recomputeGroup]
  refine List.map_congr_left fun row _ => ?_
  rw [restatus]
  by_cases h : inGroup caseId hostId evidenceId factType row
  · have htype : row.factType = factType := h.2.1
    rw [if_pos h, if_pos ⟨List.mem_singleton.2 htype, htype ▸ h⟩, filter_inGroup h, htype]
  · rw [if_neg h, if_neg]
    rintro ⟨htype, hin⟩
    exact h (List.mem_singleton.1 htype ▸ hin)

/-- The loop over the groups that were touched, in closed form: a row is in one of
them at most. -/
theorem foldl_recomputeGroup (lower : Text → Text) (caseId : Text) (hostId : Option Text)
    (evidenceId : Text) (factTypes : List Text) (rows : List (HostFact F R)) :
    factTypes.foldl (fun rows factType =>
        recomputeGroup lower caseId hostId evidenceId factType rows) rows =
      rows.map (restatus lower caseId hostId evidenceId factTypes rows) := by
  induction factTypes generalizing rows with
  | nil =>
    refine (List.map_id rows).symm.trans (List.map_congr_left fun row _ => ?_)
    rw [restatus, if_neg fun h => List.not_mem_nil h.1]
    rfl
  | cons t factTypes ih =>
    have hf : OnlyStatus (restatus lower caseId hostId evidenceId [t] rows) :=
      restatus_onlyStatus
    rw [List.foldl_cons, ih, recomputeGroup_eq, List.map_map]
    refine List.map_congr_left fun row _ => ?_
    rw [Function.comp_apply]
    generalize hafter : rows.map (restatus lower caseId hostId evidenceId [t] rows) = after
    -- the verdict of a later group is not changed by what was written
    have hsame : groupStatus lower row.factType (groupOf after
        (restatus lower caseId hostId evidenceId [t] rows row))
        (restatus lower caseId hostId evidenceId [t] rows row) =
        groupStatus lower row.factType (groupOf rows row) row := by
      rw [← hafter, groupStatus, groupStatus, hf.groupOf, hf.keysOf, hf.normalizedValue]
    have hin' : inGroup caseId hostId evidenceId
        (restatus lower caseId hostId evidenceId [t] rows row).factType
        (restatus lower caseId hostId evidenceId [t] rows row) ↔
        inGroup caseId hostId evidenceId row.factType row := by
      rw [inGroup_iff, inGroup_iff, hf.groupKey, hf.factType]
    by_cases hin : inGroup caseId hostId evidenceId row.factType row
    · by_cases hlater : row.factType ∈ factTypes
      · -- written now, or written now and again
        rw [restatus_pos (by rwa [hf.factType]) (hin'.2 hin), hf.factType, hsame,
          restatus_pos (.tail _ hlater) hin]
        obtain ⟨status, hrow⟩ := hf row
        rw [hrow]
      · rw [restatus_neg fun hmem => absurd (hf.factType row ▸ hmem) hlater]
        by_cases ht : row.factType = t
        · rw [restatus_pos (List.mem_singleton.2 ht) hin,
            restatus_pos (List.mem_cons.2 (.inl ht)) hin]
        · rw [restatus_neg fun hmem => absurd (List.mem_singleton.1 hmem) ht,
            restatus_neg fun hmem => absurd hmem fun hmem =>
              (List.mem_cons.1 hmem).elim ht hlater]
    · rw [restatus_neg fun _ h => hin (hin'.1 h), restatus_neg fun _ => hin,
        restatus_neg fun _ => hin]

/-! ### Reading agrees with writing -/

theorem status_resolveGroup_of_value {factType : Text} (hrow : row ∈ rows)
    (hvalue : row.normalizedValue ≠ none) :
    (resolveGroup lower factType rows).status = some (verdict (keysOf lower factType rows)) := by
  have hvalid : row ∈ rows.filter fun row => row.normalizedValue.isSome :=
    List.mem_filter.2 ⟨hrow, Option.isSome_iff_ne_none.2 hvalue⟩
  rw [resolveGroup, if_neg (List.ne_nil_of_mem hrow), if_neg (List.ne_nil_of_mem hvalid)]
  refine congrArg some ?_
  rw [← ite_length_dedup (keysOf_ne_nil hrow hvalue), length_keysOf]

theorem status_resolveGroup_of_none {factType : Text} (hrow : row ∈ rows)
    (hnone : ∀ other ∈ rows, other.normalizedValue = none) :
    (resolveGroup lower factType rows).status = some .invalid := by
  have hvalid : (rows.filter fun row => row.normalizedValue.isSome) = [] := by
    refine List.filter_eq_nil_iff.2 fun other hother hsome => ?_
    rw [hnone other hother] at hsome
    cases hsome
  rw [resolveGroup, if_neg (List.ne_nil_of_mem hrow), if_pos hvalid]

theorem scope_filter_eq {h : Text} (hhost : row.hostId = some h) (evidenceId : Option Text) :
    ((rows.filter (inScope row.caseId (some h) evidenceId)).filter fun other =>
      other.factType = row.factType) = groupOf rows row := by
  rw [List.filter_filter, groupOf]
  refine List.filter_congr fun other _ => ?_
  rw [hhost, Bool.eq_iff_iff, decide_eq_true_iff, inScope, Bool.and_eq_true, Bool.and_eq_true,
    decide_eq_true_iff, decide_eq_true_iff, decide_eq_true_iff]
  constructor
  · rintro ⟨htype, hcase, hhost⟩
    exact ⟨hcase, htype, hhost⟩
  · rintro ⟨hcase, htype, hhost⟩
    exact ⟨htype, hcase, hhost⟩

/-- What is reported for a host follows from the statuses that the groups dictate. -/
theorem StatusesTrue.of_dictated (hunique : (rows.map HostFact.fingerprint).Nodup)
    (hdictated : ∀ row ∈ rows, row.status = Host.dictated lower rows row) :
    StatusesTrue lower rows := by
  refine ⟨hunique, hdictated, fun row hrow h hhost hvalue evidenceId => ?_⟩
  show [(resolveGroup lower row.factType _).status] = [some row.status]
  rw [scope_filter_eq hhost, hdictated row hrow]
  have hself := self_mem_groupOf hrow
  by_cases hnone : row.normalizedValue = none
  · have hall := hvalue.resolve_left fun hne => hne hnone
    rw [status_resolveGroup_of_none hself hall, dictated_of_none hnone]
  · rw [status_resolveGroup_of_value hself hnone, dictated_of_value hnone]

/-! ### Adding -/

section Adding

variable [DecidableEq F] {lower : Text → Text} {digest : Text → F} {args : Observations R}
  {rows : List (HostFact F R)}

/-- The rows of a call, wherever they go, are in the groups that it touches. -/
theorem inGroup_of_created {row : HostFact F R} (h : row ∈ createdFacts digest args rows) :
    inGroup args.caseId args.hostId args.evidenceId row.factType row := by
  obtain ⟨doc, -, rfl⟩ := List.mem_map.1 (List.mem_of_mem_filter h)
  exact inGroup_iff.2 rfl

/-- The table after a call: the new rows behind the old ones, and the statuses of the
groups that were touched. -/
theorem createHostFactObservations_eq : createHostFactObservations lower digest args rows =
      (rows ++ createdFacts digest args rows).map (restatus lower args.caseId args.hostId
        args.evidenceId ((createdFacts digest args rows).map HostFact.factType).dedup
        (rows ++ createdFacts digest args rows)) := by
  rw [createHostFactObservations]
  by_cases hnil : createdFacts digest args rows = []
  · rw [if_pos hnil, hnil, List.append_nil]
    refine (List.map_id rows).symm.trans (List.map_congr_left fun row _ => ?_)
    exact (restatus_neg fun hmem => absurd hmem List.not_mem_nil).symm
  · rw [if_neg hnil, foldl_recomputeGroup]

theorem fingerprints_create :
    (createHostFactObservations lower digest args rows).map HostFact.fingerprint =
      rows.map HostFact.fingerprint ++
        (createdFacts digest args rows).map HostFact.fingerprint := by
  rw [createHostFactObservations_eq, List.map_map, ← List.map_append]
  exact List.map_congr_left fun row _ => restatus_onlyStatus.fingerprint row

/-- A call writes the statuses of every group that it changes. -/
theorem create_dictated (h : ∀ row ∈ rows, row.status = dictated lower rows row) :
    ∀ row ∈ createHostFactObservations lower digest args rows,
      row.status = dictated lower (createHostFactObservations lower digest args rows) row := by
  rw [createHostFactObservations_eq]
  intro row' hrow'
  obtain ⟨row, hrow, rfl⟩ := List.mem_map.1 hrow'
  rw [restatus_onlyStatus.dictated]
  by_cases htouched : row.factType ∈ ((createdFacts digest args rows).map HostFact.factType).dedup ∧
      inGroup args.caseId args.hostId args.evidenceId row.factType row
  · rw [restatus_pos htouched.1 htouched.2]
    exact groupStatus_eq_dictated hrow
  · -- the group of the row has no new row in it
    rw [restatus_neg fun htype hin => htouched ⟨htype, hin⟩]
    have htype : ∀ new ∈ createdFacts digest args rows, groupKey new ≠ groupKey row := by
      intro new hnew hkey
      have hin := inGroup_iff.1 (inGroup_of_created hnew)
      have hsame : new.factType = row.factType := congrArg (fun key => key.2.1) hkey
      refine htouched ⟨List.mem_dedup.2 (List.mem_map.2 ⟨new, hnew, hsame⟩), ?_⟩
      exact inGroup_iff.2 (by rw [← hkey, hin, hsame])
    have hold : row ∈ rows := by
      refine (List.mem_append.1 hrow).resolve_right fun hnew => htype row hnew rfl
    have hgroup : groupOf (rows ++ createdFacts digest args rows) row = groupOf rows row := by
      have hnone : groupOf (createdFacts digest args rows) row = [] := by
        refine List.eq_nil_iff_forall_not_mem.2 fun new hnew => ?_
        exact htype new (mem_groupOf.1 hnew).1 (mem_groupOf.1 hnew).2
      rw [groupOf_append, hnone, List.append_nil]
    rw [dictated, hgroup]
    exact h row hold

/-- **Adding** keeps the statuses true exactly if no fingerprint comes twice. -/
theorem create_statusesTrue_iff (h : StatusesTrue lower rows) :
    StatusesTrue lower (createHostFactObservations lower digest args rows) ↔
      NoRepeats digest args rows := by
  constructor
  · intro hafter
    have hnodup := hafter.unique
    rw [fingerprints_create] at hnodup
    exact (List.nodup_append'.1 hnodup).2.1
  · intro hnew
    refine .of_dictated ?_ (create_dictated h.dictated)
    rw [fingerprints_create]
    refine List.nodup_append'.2 ⟨h.unique, hnew, fun f hold hcreated => ?_⟩
    obtain ⟨row, hrow, rfl⟩ := List.mem_map.1 hcreated
    exact of_decide_eq_true (List.mem_filter.1 hrow).2 hold

end Adding

/-! ### Deleting -/

theorem verdict_of_differ (h : ∃ a ∈ keys, ∃ b ∈ keys, a ≠ b) :
    verdict keys = .conflicting := if_pos h

theorem verdict_of_agree (h : ¬ ∃ a ∈ keys, ∃ b ∈ keys, a ≠ b) :
    verdict keys = if 1 < keys.length then .confirmed else .observed := if_neg h

/-- When some of the keys may go without a change of the verdict. -/
theorem verdict_eq_iff {kept keys : List Text} (hsub : kept.Sublist keys) (hne : kept ≠ []) :
    verdict kept = verdict keys ↔ kept.length = keys.length ∨ (∃ a ∈ kept, ∃ b ∈ kept, a ≠ b) ∨
      ((∀ a ∈ keys, ∀ b ∈ keys, a = b) ∧ 1 < kept.length) := by
  have hpos : 0 < kept.length := List.length_pos_iff.2 hne
  have hle := hsub.length_le
  by_cases hkept : ∃ a ∈ kept, ∃ b ∈ kept, a ≠ b
  · -- conflicting before and after
    obtain ⟨a, ha, b, hb, hab⟩ := hkept
    rw [verdict_of_differ ⟨a, ha, b, hb, hab⟩,
      verdict_of_differ ⟨a, hsub.subset ha, b, hsub.subset hb, hab⟩]
    exact iff_of_true rfl (.inr (.inl ⟨a, ha, b, hb, hab⟩))
  rw [verdict_of_agree hkept]
  by_cases hkeys : ∃ a ∈ keys, ∃ b ∈ keys, a ≠ b
  · -- the conflict is gone
    rw [verdict_of_differ hkeys]
    refine iff_of_false (by split <;> exact fun h => by cases h) ?_
    rintro (hlength | h | ⟨hall, -⟩)
    · exact hkept (hsub.eq_of_length hlength ▸ hkeys)
    · exact hkept h
    · obtain ⟨a, ha, b, hb, hab⟩ := hkeys
      exact hab (hall a ha b hb)
  · have hall : ∀ a ∈ keys, ∀ b ∈ keys, a = b := fun a ha b hb => by
      by_contra hab
      exact hkeys ⟨a, ha, b, hb, hab⟩
    rw [verdict_of_agree hkeys]
    by_cases hmany : 1 < kept.length
    · rw [if_pos hmany, if_pos (hmany.trans_le hle)]
      exact iff_of_true rfl (.inr (.inr ⟨hall, hmany⟩))
    · -- a single observation is left
      rw [if_neg hmany]
      constructor
      · intro h
        by_cases hkeysMany : 1 < keys.length
        · rw [if_pos hkeysMany] at h
          cases h
        · exact .inl (by omega)
      · rintro (hlength | h | ⟨-, h⟩)
        · rw [if_neg (hlength ▸ hmany)]
        · exact absurd h hkept
        · exact absurd h hmany

theorem groupOf_delete (evidenceId : Text) (rows : List (HostFact F R)) (row : HostFact F R) :
    groupOf (deleteHostFactsForEvidence evidenceId rows) row =
      (groupOf rows row).filter fun other => other.evidenceId ≠ evidenceId := by
  rw [groupOf, deleteHostFactsForEvidence, groupOf, List.filter_filter, List.filter_filter]
  exact List.filter_congr fun other _ => Bool.and_comm _ _

theorem keysOf_filter_sublist (lower : Text → Text) (factType : Text) (p : HostFact F R → Bool)
    (group : List (HostFact F R)) :
    (keysOf lower factType (group.filter p)).Sublist (keysOf lower factType group) :=
  (List.filter_sublist.filterMap _).map _

/-- No value goes exactly if no row with a value goes. -/
theorem length_keysOf_filter_iff {factType evidenceId : Text} {group : List (HostFact F R)} :
    (keysOf lower factType (group.filter fun other => other.evidenceId ≠ evidenceId)).length =
        (keysOf lower factType group).length ↔
      ∀ other ∈ group, other.evidenceId = evidenceId → other.normalizedValue = none := by
  have hcomm : ((group.filter fun other => other.evidenceId ≠ evidenceId).filter fun row =>
      row.normalizedValue.isSome) = (group.filter fun row =>
        row.normalizedValue.isSome).filter fun other => other.evidenceId ≠ evidenceId := by
    rw [List.filter_filter, List.filter_filter]
    exact List.filter_congr fun other _ => Bool.and_comm _ _
  rw [length_keysOf, length_keysOf, hcomm, List.length_filter_eq_length_iff]
  constructor
  · intro h other hother hid
    by_contra hvalue
    have hmem : other ∈ group.filter fun row => row.normalizedValue.isSome :=
      List.mem_filter.2 ⟨hother, Option.isSome_iff_ne_none.2 hvalue⟩
    exact of_decide_eq_true (h other hmem) hid
  · intro h other hother
    obtain ⟨hother, hvalue⟩ := List.mem_filter.1 hother
    refine decide_eq_true fun hid => ?_
    rw [h other hother hid] at hvalue
    cases hvalue

/-- **Deleting** keeps the statuses true exactly if it spares the verdicts. -/
theorem delete_statusesTrue_iff (h : StatusesTrue lower rows) :
    StatusesTrue lower (deleteHostFactsForEvidence evidenceId rows) ↔
      Spares lower evidenceId rows := by
  have hrows : ∀ row ∈ deleteHostFactsForEvidence evidenceId rows, row ∈ rows :=
    fun row hrow => List.mem_of_mem_filter hrow
  -- for a row with a value the two statuses are verdicts on what is kept and on all
  have hverdict : ∀ row ∈ deleteHostFactsForEvidence evidenceId rows, row.normalizedValue ≠ none →
      (dictated lower (deleteHostFactsForEvidence evidenceId rows) row = dictated lower rows row ↔
        (∀ other ∈ groupOf rows row, other.evidenceId = evidenceId → other.normalizedValue = none) ∨
        (∃ a ∈ keysOf lower row.factType
            (groupOf (deleteHostFactsForEvidence evidenceId rows) row),
          ∃ b ∈ keysOf lower row.factType
            (groupOf (deleteHostFactsForEvidence evidenceId rows) row), a ≠ b) ∨
        ((∀ a ∈ keysOf lower row.factType (groupOf rows row),
          ∀ b ∈ keysOf lower row.factType (groupOf rows row), a = b) ∧
          1 < (keysOf lower row.factType
            (groupOf (deleteHostFactsForEvidence evidenceId rows) row)).length)) := by
    intro row hrow hvalue
    have hne : keysOf lower row.factType
        (groupOf (deleteHostFactsForEvidence evidenceId rows) row) ≠ [] :=
      keysOf_ne_nil (self_mem_groupOf hrow) hvalue
    rw [dictated_of_value hvalue, dictated_of_value hvalue]
    rw [groupOf_delete] at hne ⊢
    rw [verdict_eq_iff (keysOf_filter_sublist ..) hne]
    exact or_congr length_keysOf_filter_iff Iff.rfl
  constructor
  · intro hafter row hrow hvalue
    refine (hverdict row hrow hvalue).1 ?_
    rw [← hafter.dictated row hrow, ← h.dictated row (hrows row hrow)]
  · intro hspares
    refine .of_dictated ((List.filter_sublist.map _).nodup h.unique) fun row hrow => ?_
    rw [h.dictated row (hrows row hrow)]
    by_cases hvalue : row.normalizedValue = none
    · rw [dictated_of_none hvalue, dictated_of_none hvalue]
    · exact ((hverdict row hrow hvalue).2 (hspares row hrow hvalue)).symm

/-! ### Runs -/

/-- **Every table** that is reached by operations that bring no fingerprint twice
and spare the verdicts has true statuses. -/
theorem Reached.statusesTrue [DecidableEq F] {lower : Text → Text} {digest : Text → F}
    {rows : List (HostFact F R)} (h : Reached lower digest rows) : StatusesTrue lower rows := by
  induction h with
  | empty => exact .of_dictated List.nodup_nil fun row hrow => absurd hrow List.not_mem_nil
  | step _ op hcareful ih =>
    cases op with
    | create args => exact (create_statusesTrue_iff ih).2 hcareful
    | delete evidenceId => exact (delete_statusesTrue_iff ih).2 hcareful

/-! ### Two evidences of one host -/

/-- An observation of the hostname, from an evidence of the host `h`. -/
def hostnameSeen (evidenceId : Char) (documents : ℕ) : Observations Unit where
  caseId := ['c']
  evidenceId := [evidenceId]
  artifactId := none
  hostId := some ['h']
  documents := List.replicate documents
    { factType := some factHostname
      artifactType := some "hostname".toList
      rawValue := some "ws".toList
      normalizedValue := some "ws".toList
      confidence := none
      parseStatus := some "valid".toList
      rest := () }

/-- The table after some operations, with texts that are lower case and their own
digests. -/
def tableAfter (ops : List (Operation Unit)) : List (HostFact Text Unit) :=
  ops.foldl (fun rows op => op.apply id id rows) []

/-- With one of the two evidences deleted the other observation stays confirmed; and
a document that comes twice is stored twice. -/
theorem stale_confirmation :
    ¬ StatusesTrue id (tableAfter [.create (hostnameSeen 'A' 1), .create (hostnameSeen 'B' 1),
        .delete ['A']]) ∧
      ¬ StatusesTrue id (tableAfter [.create (hostnameSeen 'A' 2)]) := by
  refine ⟨fun h => ?_, fun h => ?_⟩
  · have hdictated := h.dictated
    revert hdictated
    decide +kernel
  · have hunique := h.unique
    revert hunique
    decide +kernel

/-- Three evidences agree, and one of them may go. -/
theorem third_evidence_deleted :
    StatusesTrue id (tableAfter [.create (hostnameSeen 'A' 1), .create (hostnameSeen 'B' 1),
      .create (hostnameSeen 'C' 1), .delete ['C']]) := by
  refine @Reached.statusesTrue _ _ _ _ id _ (.step (.step (.step (.step .empty _ ?_) _ ?_) _ ?_)
    (.delete ['C']) ?_)
  · show (List.map _ _).Nodup
    decide +kernel
  · show (List.map _ _).Nodup
    decide +kernel
  · show (List.map _ _).Nodup
    decide +kernel
  · show ∀ row ∈ _, _ → _ ∨ _ ∨ _
    decide +kernel

end Kairon.Host
